import Tsconfig.Walk.BreadthFirst

/-! The names of a walk solve an equation: they are the start and all that the names lead to, each
once and where it comes up first. -/
namespace Tsconfig

section Distinct
variable {α : Type} [DecidableEq α]

theorem filter_distinct (p : α → Bool) (items : List α) :
    (distinct items).filter p = distinct (items.filter p) := by
  induction items with
  | nil => rfl
  | cons first rest ih =>
    have hcomm : ((distinct rest).filter (· ≠ first)).filter p =
        (distinct (rest.filter p)).filter (· ≠ first) := by
      rw [← ih, List.filter_filter, List.filter_filter]
      simp only [Bool.and_comm]
    rw [distinct]
    by_cases hp : p first = true
    · rw [List.filter_cons_of_pos hp, List.filter_cons_of_pos hp, distinct, hcomm]
    · have hrest : (distinct rest).filter p = ((distinct rest).filter (· ≠ first)).filter p := by
        rw [List.filter_filter]
        refine List.filter_congr fun a _ => ?_
        by_cases ha : a = first
        · simp [ha, hp]
        · simp [ha]
      rw [List.filter_cons_of_neg hp, List.filter_cons_of_neg hp, ← hrest, ih]

theorem distinct_append (items more : List α) :
    distinct (items ++ more) = distinct items ++ (distinct more).filter (· ∉ items) := by
  induction items with
  | nil => rw [List.nil_append, distinct, List.nil_append, List.filter_eq_self.mpr (by simp)]
  | cons first rest ih =>
    rw [List.cons_append, distinct, ih, List.filter_append, List.filter_filter, distinct,
      List.cons_append]
    congr 2
    refine List.filter_congr fun a _ => ?_
    simp

end Distinct

section Places

/-- The first of some lists that holds a name, and the place of the name in it. -/
def firstPlace (lists : List (List String)) (name : String) : Nat × Nat :=
  let position := lists.findIdx (name ∈ ·)
  (position, (lists.getD position []).idxOf name)

theorem firstPlace_cons_of_mem {first : List String} {name : String} (h : name ∈ first)
    (rest : List (List String)) : firstPlace (first :: rest) name = (0, first.idxOf name) := by
  simp [firstPlace, List.findIdx_cons, h]

theorem firstPlace_cons_of_notMem {first : List String} {name : String} (h : name ∉ first)
    (rest : List (List String)) :
    firstPlace (first :: rest) name =
      ((firstPlace rest name).1 + 1, (firstPlace rest name).2) := by
  simp [firstPlace, List.findIdx_cons, h]

theorem pairwise_idxOf_distinct (names : List String) :
    (distinct names).Pairwise fun a b => names.idxOf a < names.idxOf b := by
  induction names with
  | nil => exact .nil
  | cons first rest ih =>
    rw [distinct, List.pairwise_cons]
    have hne {name : String} (h : name ∈ (distinct rest).filter (· ≠ first)) :
        (first :: rest).idxOf name = rest.idxOf name + 1 := by
      have hne := Ne.symm (of_decide_eq_true (List.mem_filter.mp h).2)
      rw [List.idxOf_cons, beq_false_of_ne hne, cond_false]
    refine ⟨fun name hname => ?_, (ih.filter _).imp_of_mem fun ha hb hlt => ?_⟩
    · rw [List.idxOf_cons_self, hne hname]
      exact Nat.succ_pos _
    · rw [hne ha, hne hb]
      exact Nat.succ_lt_succ hlt

/-- Names that are listed where they first occur are sorted by their first places. -/
theorem pairwise_firstPlace (lists : List (List String)) :
    (distinct lists.flatten).Pairwise fun a b =>
      (firstPlace lists a).lexLt (firstPlace lists b) := by
  induction lists with
  | nil => exact .nil
  | cons first rest ih =>
    rw [List.flatten_cons, distinct_append, List.pairwise_append]
    refine ⟨?_, ?_, ?_⟩
    · refine (pairwise_idxOf_distinct first).imp_of_mem fun ha hb hlt => ?_
      rw [firstPlace_cons_of_mem (mem_distinct.mp ha), firstPlace_cons_of_mem (mem_distinct.mp hb)]
      exact .inr ⟨rfl, hlt⟩
    · refine (ih.filter _).imp_of_mem fun {a b} ha hb hlt => ?_
      rw [List.mem_filter, decide_eq_true_eq] at ha hb
      rw [firstPlace_cons_of_notMem ha.2, firstPlace_cons_of_notMem hb.2]
      rcases hlt with hlt | ⟨heq, hlt⟩
      · exact .inl (Nat.succ_lt_succ hlt)
      · exact .inr ⟨congrArg Nat.succ heq, hlt⟩
    · intro a ha b hb
      rw [List.mem_filter, decide_eq_true_eq] at hb
      rw [firstPlace_cons_of_mem (mem_distinct.mp ha), firstPlace_cons_of_notMem hb.2]
      exact .inl (Nat.succ_pos _)

end Places

namespace Web
variable {α : Type} {web : Web α} {seen pending : List String}

/-- What a name leads to. -/
def leads (web : Web α) (name : String) : List String := web.next (web.read name)

theorem visit_eq (web : Web α) (seen pending : List String) :
    web.visit seen pending =
      ((web.visit seen pending).map Prod.fst).map fun name => (name, web.read name) := by
  fun_induction visit web seen pending with
  | case1 => rfl
  | case2 seen name pending thing new ih =>
    rw [List.map_cons, List.map_cons, ← ih]

/-- The step of the walk: what the first name leads to joins the end, as far as it has not come up,
and no later name can bring it up again. -/
theorem names_visit (web : Web α) (seen pending : List String) :
    (web.visit seen pending).map Prod.fst = pending ++
      (distinct (((web.visit seen pending).map Prod.fst).flatMap web.leads)).filter (· ∉ seen) := by
  fun_induction visit web seen pending with
  | case1 => rfl
  | case2 seen name pending thing new ih =>
    rw [List.map_cons, List.flatMap_cons, distinct_append, List.filter_append]
    conv => lhs; rw [ih]
    rw [List.cons_append, List.append_assoc]
    refine congrArg (name :: pending ++ ·) (congrArg (new ++ ·) ?_)
    rw [List.filter_filter]
    refine List.filter_congr fun other _ => ?_
    simp only [new, fresh, leads, thing, List.mem_append, List.mem_filter, mem_distinct]
    by_cases hseen : other ∈ seen <;> by_cases hnext : other ∈ web.next (web.read name) <;>
      simp [hseen, hnext]

theorem visit_induction {S : String → Prop} (hpending : ∀ name ∈ pending, S name)
    (hclosed : ∀ name ∈ (web.visit seen pending).map Prod.fst, S name →
      ∀ other ∈ web.leads name, S other) :
    ∀ name ∈ (web.visit seen pending).map Prod.fst, S name := by
  fun_induction visit web seen pending with
  | case1 => simp
  | case2 seen name pending thing new ih =>
    rw [List.map_cons] at hclosed ⊢
    obtain ⟨hname, hpending⟩ := List.forall_mem_cons.mp hpending
    refine List.forall_mem_cons.mpr ⟨hname, ih ?_ ?_⟩
    · intro other hother
      rcases List.mem_append.mp hother with hother | hother
      · exact hpending other hother
      · refine hclosed name List.mem_cons_self hname other ?_
        exact mem_distinct.mp (List.mem_filter.mp hother).1
    · intro other hother
      exact hclosed other (List.mem_cons_of_mem _ hother)

section Reach
variable {start : List String}

theorem reach_eq (web : Web α) (start : List String) :
    web.reach start = ((web.reach start).map Prod.fst).map fun name => (name, web.read name) :=
  visit_eq web (distinct start) (distinct start)

theorem names_reach (web : Web α) (start : List String) :
    (web.reach start).map Prod.fst =
      distinct (start ++ ((web.reach start).map Prod.fst).flatMap web.leads) := by
  rw [distinct_append]
  conv => lhs; rw [reach, names_visit]
  simp only [mem_distinct, reach]

theorem reach_induction {S : String → Prop} (hstart : ∀ name ∈ start, S name)
    (hclosed : ∀ name ∈ (web.reach start).map Prod.fst, S name →
      ∀ other ∈ web.leads name, S other) :
    ∀ name ∈ (web.reach start).map Prod.fst, S name :=
  visit_induction (fun name hname => hstart name (mem_distinct.mp hname)) hclosed

end Reach
end Web
end Tsconfig
