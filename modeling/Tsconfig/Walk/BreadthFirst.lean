import Tsconfig.Walk.Unseen

/-!
Reading things by name, breadth first: those that are asked for, then those that what was read leads
to, each once and in the order in which they come up.
-/
namespace Tsconfig

/-- Things that lead to one another by name. Only finitely many names are led to. -/
structure Web (α : Type) where
  read : String → α
  /-- The names that a thing leads to, in order. -/
  next : α → List String
  finite : ∃ names : List String, ∀ name, ∀ other ∈ next (read name), other ∈ names

namespace Web
variable {α : Type}

/-- Names among which are all that are led to. -/
noncomputable def names (web : Web α) : List String := web.finite.choose

theorem mem_names (web : Web α) {name other : String} (h : other ∈ web.next (web.read name)) :
    other ∈ web.names :=
  web.finite.choose_spec name other h

/-- The names a thing leads to that have not come up yet. -/
def fresh (web : Web α) (seen : List String) (thing : α) : List String :=
  (distinct (web.next thing)).filter (· ∉ seen)

theorem countUnseen_fresh (web : Web α) (seen : List String) (name : String) :
    countUnseen web.names (web.fresh seen (web.read name) ++ seen)
        + (web.fresh seen (web.read name)).length ≤ countUnseen web.names seen := by
  refine countUnseen_append ?_ ?_ ?_
  · intro other h
    exact web.mem_names (mem_distinct.1 (List.mem_filter.1 h).1)
  · intro other h
    simpa using (List.mem_filter.1 h).2
  · exact (nodup_distinct _).sublist List.filter_sublist

/-- The things still to be read, in order. `seen` are the names that have come up so far, read or
not. -/
def visit (web : Web α) (seen : List String) : List String → List (String × α)
  | [] => []
  | name :: pending =>
    let thing := web.read name
    let new := web.fresh seen thing
    (name, thing) :: visit web (new ++ seen) (pending ++ new)
termination_by pending => countUnseen web.names seen + pending.length
decreasing_by
  have := web.countUnseen_fresh seen name
  simp only [List.length_append, List.length_cons]
  omega

/-- Everything that can be reached from some names, in the order of the walk. -/
def reach (web : Web α) (start : List String) : List (String × α) :=
  web.visit (distinct start) (distinct start)

end Web
end Tsconfig
