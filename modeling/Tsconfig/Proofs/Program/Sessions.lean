import Mathlib
import Tsconfig.Host.Memory
import Tsconfig.Program.Registry

/-! What a registry answers is determined by what was asked of it before: an id finds the program
that it was handed out for, until the program is deleted or the registry is cleared. -/
namespace Tsconfig.Registry

/-- What can be asked of a registry. -/
inductive Operation
  | create (host : Host) (finder : ReferenceFinder) (config : String)
  | insert (program : Program)
  | get (id : String)
  | delete (id : String)
  | clear

/-- What an operation comes to. -/
inductive Answer
  | handedOut (id : String)
  | refused (error : ConfigError)
  | found (result : Except UnknownProgram Program)
  | done

/-- The program that an operation brings. None if its config cannot be resolved. -/
def Operation.program? : Operation → Option Program
  | create host finder config =>
    (ResolvedConfig.resolve host config).toOption.map (.build host finder)
  | insert program => some program
  | _ => none

def Answer.id? : Answer → Option String
  | handedOut id => some id
  | _ => none

def perform (registry : Registry) : Operation → Answer × Registry
  | .create host finder config =>
    match registry.create host finder config with
    | .ok (id, registry) => (.handedOut id, registry)
    | .error error => (.refused error, registry)
  | .insert program =>
    let (id, registry) := registry.insert program
    (.handedOut id, registry)
  | .get id => (.found (registry.get id), registry)
  | .delete id => (.done, registry.erase id)
  | .clear => (.done, registry.clear)

section Perform
variable {registry : Registry} {operation : Operation}

theorem perform_create_of_error {host : Host} {config : String} {error : ConfigError}
    (h : ResolvedConfig.resolve host config = .error error) (finder : ReferenceFinder) :
    registry.perform (.create host finder config) = (.refused error, registry) := by
  simp [perform, create, h, bind, Except.bind]

theorem perform_of_program {program : Program} (h : operation.program? = some program) :
    registry.perform operation = (.handedOut registry.nextId, (registry.insert program).2) := by
  cases operation with
  | create host finder config =>
    obtain ⟨resolved, hresolved, rfl⟩ := Option.map_eq_some_iff.mp h
    cases hr : ResolvedConfig.resolve host config with
    | error error => simp [hr, Except.toOption] at hresolved
    | ok config =>
      obtain rfl : config = resolved := by simpa [hr, Except.toOption] using hresolved
      simp [perform, create, hr, bind, Except.bind, pure, Except.pure, insert]
  | insert other =>
    obtain rfl := Option.some.inj h
    rfl
  | get => cases h
  | delete => cases h
  | clear => cases h

/-- An operation that brings no program hands out no id and leaves the counter alone. A program is
found after it just if it was found before and is not what the operation takes away. -/
theorem perform_of_no_program (registry : Registry) (h : operation.program? = none) :
    (registry.perform operation).1.id? = none ∧
      (registry.perform operation).2.next = registry.next ∧
      ∀ id program, (registry.perform operation).2.programs.get? id = some program ↔
        registry.programs.get? id = some program ∧ operation ≠ .delete id ∧ operation ≠ .clear := by
  cases operation with
  | create host finder config =>
    cases hr : ResolvedConfig.resolve host config with
    | ok config => simp [Operation.program?, hr, Except.toOption] at h
    | error error =>
      rw [perform_create_of_error hr]
      exact ⟨rfl, rfl, by simp⟩
  | insert => cases h
  | get => exact ⟨rfl, rfl, by simp [perform]⟩
  | delete id =>
    refine ⟨rfl, rfl, fun other program => ?_⟩
    rw [perform, erase, OrderedMap.get?_erase]
    by_cases hid : other = id
    · simp [hid]
    · simp [hid, Ne.symm hid]
  | clear => exact ⟨rfl, rfl, by simp [perform, clear]⟩

/-- What is not there need not be deleted. -/
theorem erase_of_get?_eq_none {id : String} (h : registry.programs.get? id = none) :
    registry.erase id = registry := by
  have hkey : id ∉ registry.programs.keys := by
    rw [← OrderedMap.contains_iff, OrderedMap.contains, h]
    exact Bool.false_ne_true
  have hentries : OrderedMap.drop id registry.programs.entries = registry.programs.entries := by
    refine List.filter_eq_self.mpr fun entry hentry => decide_eq_true ?_
    rintro rfl
    exact hkey (List.mem_map_of_mem hentry)
  rw [erase, OrderedMap.erase]
  congr 1
  exact OrderedMap.ext hentries

theorem get_eq_ok_iff {id : String} {program : Program} :
    registry.get id = .ok program ↔ registry.programs.get? id = some program := by
  rw [get]
  split <;> simp_all

theorem get_eq_error_iff {id : String} :
    registry.get id = .error ⟨id⟩ ↔ registry.programs.get? id = none := by
  rw [get]
  split <;> simp_all

end Perform

/-- What was asked so far, each with its answer, the first first. -/
abbrev History := List (Operation × Answer)

namespace History

/-- The ids that were handed out, in order. -/
def ids (history : History) : List String := history.filterMap (·.2.id?)

/-- An id was handed out for a program, and since then neither was it deleted nor was the registry
cleared. -/
def Keeps (history : History) (id : String) (program : Program) : Prop :=
  ∃ before operation after, history = before ++ (operation, .handedOut id) :: after ∧
    operation.program? = some program ∧
    ∀ later ∈ after, later.1 ≠ .delete id ∧ later.1 ≠ .clear

variable {history : History} {operation : Operation} {answer : Answer} {id : String}
  {program : Program}

theorem ids_concat (history : History) (operation : Operation) (answer : Answer) :
    ids (history ++ [(operation, answer)]) = history.ids ++ answer.id?.toList := by
  rw [ids, List.filterMap_append, ids]
  cases h : answer.id? <;> simp [h]

theorem not_keeps_nil : ¬Keeps [] id program := by
  rintro ⟨before, operation, after, h, -⟩
  exact absurd h.symm (List.append_ne_nil_of_right_ne_nil before (List.cons_ne_nil _ after))

theorem Keeps.mem_ids (h : history.Keeps id program) : id ∈ history.ids := by
  obtain ⟨before, operation, after, rfl, -, -⟩ := h
  exact List.mem_filterMap.mpr ⟨(operation, .handedOut id), by simp, rfl⟩

theorem keeps_concat_iff :
    Keeps (history ++ [(operation, answer)]) id program ↔
      answer = .handedOut id ∧ operation.program? = some program ∨
      history.Keeps id program ∧ operation ≠ .delete id ∧ operation ≠ .clear := by
  constructor
  · rintro ⟨before, first, after, hsplit, hprogram, hafter⟩
    rcases List.eq_nil_or_concat after with rfl | ⟨after, last, rfl⟩
    · obtain ⟨rfl, hlast⟩ := List.append_inj' hsplit rfl
      obtain ⟨rfl, rfl⟩ := Prod.mk.inj (List.singleton_inj.mp hlast)
      exact .inl ⟨rfl, hprogram⟩
    · rw [List.concat_eq_append] at hsplit hafter
      rw [← List.cons_append, ← List.append_assoc] at hsplit
      obtain ⟨rfl, hlast⟩ := List.append_inj' hsplit rfl
      obtain rfl := List.singleton_inj.mp hlast
      rw [List.forall_mem_append, List.forall_mem_singleton] at hafter
      exact .inr ⟨⟨before, first, after, rfl, hprogram, hafter.1⟩, hafter.2⟩
  · rintro (⟨rfl, hprogram⟩ | ⟨⟨before, first, after, rfl, hprogram, hafter⟩, hlast⟩)
    · exact ⟨history, operation, [], rfl, hprogram, by simp⟩
    · refine ⟨before, first, after ++ [(operation, answer)], by simp, hprogram, ?_⟩
      rw [List.forall_mem_append, List.forall_mem_singleton]
      exact ⟨hafter, hlast⟩

end History

/-- A registry and what was asked of it since it was new. -/
structure Session where
  registry : Registry := {}
  history : History := []

namespace Session
variable {session : Session}

def ask (session : Session) (operation : Operation) : Session where
  registry := (session.registry.perform operation).2
  history := session.history ++ [(operation, (session.registry.perform operation).1)]

/-- Operations on a new registry, one after the other. -/
def run (operations : List Operation) : Session := operations.foldl ask {}

/-- The registry is what the history makes of it: the ids so far are the numerals of the numbers
below the counter, and the programs are those that the history keeps. -/
structure Agrees (session : Session) : Prop where
  counter : session.registry.next.toNat = session.history.ids.length
  numerals : session.history.ids = (List.range session.history.ids.length).map Nat.repr
  programs : ∀ id program,
    session.registry.programs.get? id = some program ↔ session.history.Keeps id program

theorem Agrees.new : Agrees {} where
  counter := rfl
  numerals := rfl
  programs := fun _ _ => ⟨fun h => (nomatch h), fun h => absurd h History.not_keeps_nil⟩

theorem Agrees.nodup_ids (h : session.Agrees) : session.history.ids.Nodup := by
  rw [h.numerals]
  exact List.nodup_range.map fun _ _ => Nat.repr_injective

theorem Agrees.nextId_notMem (h : session.Agrees) :
    session.registry.nextId ∉ session.history.ids := by
  rw [h.numerals, nextId, h.counter]
  intro hmem
  obtain ⟨number, hnumber, heq⟩ := List.mem_map.mp hmem
  rw [Nat.repr_injective heq] at hnumber
  exact absurd (List.mem_range.mp hnumber) (Nat.lt_irrefl _)

/-- The step, as long as the counter does not start over. -/
theorem Agrees.ask (h : session.Agrees) (operation : Operation)
    (hcount : (session.ask operation).history.ids.length < 2 ^ 64) :
    (session.ask operation).Agrees := by
  cases hprogram : operation.program? with
  | some program =>
    have hids : (session.ask operation).history.ids =
        session.history.ids ++ [session.registry.nextId] := by
      rw [Session.ask, History.ids_concat, perform_of_program hprogram]
      rfl
    rw [hids, List.length_append, List.length_singleton] at hcount
    refine ⟨?_, ?_, fun id other => ?_⟩
    · rw [hids, List.length_append, List.length_singleton, Session.ask,
        perform_of_program hprogram, insert, UInt64.toNat_add, h.counter]
      exact Nat.mod_eq_of_lt hcount
    · rw [hids, List.length_append, List.length_singleton, List.range_succ, List.map_append,
        ← h.numerals, List.map_singleton, ← h.counter, nextId]
    · rw [Session.ask, History.keeps_concat_iff, perform_of_program hprogram, insert,
        OrderedMap.get?_insert]
      have hkept : operation ≠ .delete id ∧ operation ≠ .clear := by
        constructor <;> rintro rfl <;> cases hprogram
      by_cases hid : id = session.registry.nextId
      · -- The next id is new, so nothing else is kept under it.
        have hnew : ¬session.history.Keeps id other := fun hkeeps =>
          h.nextId_notMem (hid ▸ hkeeps.mem_ids)
        simp [hid, hprogram, hid ▸ hnew]
      · simp [hid, Ne.symm hid, h.programs, hkept]
  | none =>
    obtain ⟨hanswer, hnext, hprograms⟩ := perform_of_no_program session.registry hprogram
    have hids : (session.ask operation).history.ids = session.history.ids := by
      rw [Session.ask, History.ids_concat, hanswer, Option.toList_none, List.append_nil]
    refine ⟨?_, ?_, fun id program => ?_⟩
    · rw [hids, ← h.counter]
      exact congrArg UInt64.toNat hnext
    · rw [hids]
      exact h.numerals
    · rw [Session.ask, History.keeps_concat_iff, hprogram, hprograms, h.programs]
      simp

/-- Each program that is brought gets an id. -/
theorem length_ids_run (operations : List Operation) :
    (run operations).history.ids.length = (operations.filterMap Operation.program?).length := by
  induction operations using List.reverseRecOn with
  | nil => rfl
  | append_singleton operations operation ih =>
    rw [run, List.foldl_concat, List.filterMap_append, List.length_append, ← ih, ask,
      History.ids_concat, List.length_append]
    cases hprogram : operation.program? with
    | some program => simp [perform_of_program hprogram, Answer.id?, hprogram, run]
    | none => simp [(perform_of_no_program _ hprogram).1, hprogram, run]

theorem agrees_run (operations : List Operation)
    (hcount : (operations.filterMap Operation.program?).length < 2 ^ 64) :
    (run operations).Agrees := by
  induction operations using List.reverseRecOn with
  | nil => exact .new
  | append_singleton operations operation ih =>
    have hids := hcount
    rw [← length_ids_run] at hids
    rw [List.filterMap_append, List.length_append] at hcount
    rw [run, List.foldl_concat] at hids ⊢
    exact (ih (by omega)).ask operation hids

/-- What a session can rely on. An id that the history keeps nothing under is answered with itself,
and to delete it changes nothing, the counter included; nor does a config that cannot be
resolved. -/
structure Reliable (session : Session) : Prop where
  nodup : session.history.ids.Nodup
  found : ∀ id program, session.registry.get id = .ok program ↔ session.history.Keeps id program
  unknown : ∀ id, (∀ program, ¬session.history.Keeps id program) →
    session.registry.get id = .error ⟨id⟩ ∧ session.registry.erase id = session.registry
  size : {id | ∃ program, session.history.Keeps id program}.encard = session.registry.size
  refused : ∀ host finder config error, ResolvedConfig.resolve host config = .error error →
    session.registry.perform (.create host finder config) = (.refused error, session.registry)

theorem Agrees.size (h : session.Agrees) :
    {id | ∃ program, session.history.Keeps id program}.encard = session.registry.size := by
  have hkeys : {id | ∃ program, session.history.Keeps id program} =
      (session.registry.programs.keys.toFinset : Set String) := by
    ext id
    rw [List.coe_toFinset, Set.mem_ofPred_eq, Set.mem_ofPred_eq, ← OrderedMap.contains_iff,
      OrderedMap.contains, Option.isSome_iff_exists]
    exact exists_congr fun program => (h.programs id program).symm
  rw [hkeys, Set.encard_coe_eq_coe_finsetCard, List.toFinset_card_of_nodup]
  · exact congrArg Nat.cast (List.length_map _)
  · exact session.registry.programs.nodup

theorem reliable_run (operations : List Operation)
    (hcount : (operations.filterMap Operation.program?).length < 2 ^ 64) :
    (run operations).Reliable where
  nodup := (agrees_run operations hcount).nodup_ids
  found := by
    intro id program
    rw [get_eq_ok_iff]
    exact (agrees_run operations hcount).programs id program
  unknown := by
    intro id hnone
    have hget : (run operations).registry.programs.get? id = none := by
      refine Option.eq_none_iff_forall_ne_some.mpr fun program hprogram => ?_
      exact hnone program (((agrees_run operations hcount).programs id program).mp hprogram)
    exact ⟨get_eq_error_iff.mpr hget, erase_of_get?_eq_none hget⟩
  size := (agrees_run operations hcount).size
  refused := fun _ finder _ _ herror => perform_create_of_error herror finder

section Deleting

private def blank : Program := ⟨∅, [], [], [], [], false⟩

private def nowhere : Host := (default : Memory).host

private theorem resolve_nowhere (config : String) :
    ResolvedConfig.resolve nowhere config = .error ⟨config, .unreadable⟩ := by
  rw [ResolvedConfig.resolve, ResolvedConfig.treeOf, ExtendsTree.build]
  rfl

private def deleting : List Operation :=
  [.insert blank, .insert blank, .delete "0", .create nowhere .lexical "a"]

private theorem history_deleting : (run deleting).history =
    [] ++ [(Operation.insert blank, Answer.handedOut "0")] ++
      [(Operation.insert blank, Answer.handedOut "1")] ++ [(Operation.delete "0", Answer.done)] ++
      [(Operation.create nowhere .lexical "a", Answer.refused ⟨"a", .unreadable⟩)] := by
  have hfirst : nextId {} = "0" := by decide
  have hsecond : nextId ⟨OrderedMap.empty.insert "0" blank, 0 + 1⟩ = "1" := by decide
  simp only [run, deleting, List.foldl_cons, List.foldl_nil, ask]
  rw [perform_create_of_error (resolve_nowhere "a")]
  simp only [perform, insert, hfirst]
  rw [← hsecond]
  rfl

/-- Of two programs the first is deleted, then a config cannot be read. -/
theorem reliable_run_deleting :
    (deleting.filterMap Operation.program?).length < 2 ^ 64 ∧
      (run deleting).registry.get "1" = .ok blank ∧
      (run deleting).registry.get "0" = .error ⟨"0"⟩ := by
  have hcount : (deleting.filterMap Operation.program?).length < 2 ^ 64 :=
    Nat.lt_of_le_of_lt (List.length_filterMap_le _ _) (by decide)
  have hreliable := reliable_run deleting hcount
  refine ⟨hcount, (hreliable.found "1" blank).mpr ?_, (hreliable.unknown "0" fun program => ?_).1⟩
  · rw [history_deleting]
    simp only [History.keeps_concat_iff]
    simp [Operation.program?]
  · rw [history_deleting]
    simp only [History.keeps_concat_iff]
    simp [History.not_keeps_nil]

end Deleting

end Session
end Tsconfig.Registry
