import Mathlib.Data.List.Forall2

/-! What follows when a computation that can fail has succeeded, or when it has failed. -/
namespace Tsconfig
variable {ε α β : Type}

theorem bind_eq_ok_iff {first : Except ε α} {next : α → Except ε β} {result : β} :
    (first >>= next) = .ok result ↔ ∃ value, first = .ok value ∧ next value = .ok result := by
  cases first with
  | error fault => simp [bind, Except.bind]
  | ok value => simp [bind, Except.bind]

theorem bind_eq_error_iff {first : Except ε α} {next : α → Except ε β} {fault : ε} :
    (first >>= next) = .error fault ↔
      first = .error fault ∨ ∃ value, first = .ok value ∧ next value = .error fault := by
  cases first with
  | error fault => simp [bind, Except.bind]
  | ok value => simp [bind, Except.bind]

theorem exists_of_isOk {outcome : Except ε α} (h : outcome.isOk = true) :
    ∃ value, outcome = .ok value := by
  cases outcome with
  | error fault => cases h
  | ok value => exact ⟨value, rfl⟩

theorem exists_of_map_eq_ok {outcome : Except ε α} {next : α → β} {result : β}
    (h : outcome.map next = .ok result) : ∃ value, outcome = .ok value ∧ next value = result := by
  cases outcome with
  | error fault => cases h
  | ok value =>
    cases h
    exact ⟨value, rfl, rfl⟩

theorem exists_ok_of_mem {compute : α → Except ε β} {items : List α} {values : List β} {item : α}
    (h : List.Forall₂ (fun item value => compute item = .ok value) items values)
    (hmem : item ∈ items) : ∃ value, compute item = .ok value := by
  induction h with
  | nil => cases hmem
  | cons hfirst _ ih =>
    rcases List.mem_cons.mp hmem with rfl | hmem
    · exact ⟨_, hfirst⟩
    · exact ih hmem

theorem exists_item_of_mem {R : α → β → Prop} {items : List α} {values : List β} {value : β}
    (h : List.Forall₂ R items values) (hmem : value ∈ values) : ∃ item ∈ items, R item value := by
  induction h with
  | nil => cases hmem
  | @cons item _ _ _ hfirst _ ih =>
    rcases List.mem_cons.mp hmem with rfl | hmem
    · exact ⟨item, List.mem_cons_self, hfirst⟩
    · obtain ⟨other, hother, hvalue⟩ := ih hmem
      exact ⟨other, List.mem_cons_of_mem _ hother, hvalue⟩

/-- Where each item allows one value only, so does a list of items. -/
theorem eq_of_forall₂ {R : α → β → Prop} {items : List α} {values others : List β}
    (h : List.Forall₂ (fun item value => ∀ other, R item other → value = other) items values)
    (h' : List.Forall₂ R items others) : values = others := by
  induction h generalizing others with
  | nil =>
    cases h'
    rfl
  | cons hfirst _ ih =>
    cases h' with
    | cons hfirst' hrest => rw [hfirst _ hfirst', ih hrest]

theorem forall₂_of_mapM {compute : α → Except ε β} {items : List α} {values : List β}
    (h : items.mapM compute = .ok values) :
    List.Forall₂ (fun item value => compute item = .ok value) items values := by
  induction items generalizing values with
  | nil =>
    cases h
    exact .nil
  | cons item rest ih =>
    rw [List.mapM_cons] at h
    obtain ⟨first, hfirst, h⟩ := bind_eq_ok_iff.mp h
    obtain ⟨others, hothers, h⟩ := bind_eq_ok_iff.mp h
    cases h
    exact .cons hfirst (ih hothers)

theorem mapM_eq_self {compute : α → Except ε α} {items : List α}
    (h : ∀ item ∈ items, compute item = .ok item) : items.mapM compute = .ok items := by
  induction items with
  | nil => rfl
  | cons item rest ih =>
    obtain ⟨hitem, hrest⟩ := List.forall_mem_cons.mp h
    rw [List.mapM_cons]
    exact bind_eq_ok_iff.mpr ⟨item, hitem, bind_eq_ok_iff.mpr ⟨rest, ih hrest, rfl⟩⟩

/-- Two computations in a row, where the second succeeds alike whatever the first has come to. -/
theorem isOk_bind {first : Except ε α} {next : α → Except ε β} (rest : Bool)
    (h : ∀ value, (next value).isOk = rest) : (first >>= next).isOk = (first.isOk && rest) := by
  cases first with
  | error fault => rfl
  | ok value => exact h value

theorem isOk_ite (test : Bool) (value : α) (fault : ε) :
    (if test then Except.ok value else .error fault).isOk = test := by
  cases test <;> rfl

theorem isOk_mapM {compute : α → Except ε β} {items : List α} :
    (items.mapM compute).isOk = items.all fun item => (compute item).isOk := by
  induction items with
  | nil => rfl
  | cons item rest ih =>
    rw [List.mapM_cons, List.all_cons, ← ih]
    refine isOk_bind _ fun value => ?_
    rw [isOk_bind true fun _ => rfl, Bool.and_true]

theorem exists_error_of_mapM {compute : α → Except ε β} {items : List α} {fault : ε}
    (h : items.mapM compute = .error fault) : ∃ item ∈ items, compute item = .error fault := by
  induction items with
  | nil => cases h
  | cons item rest ih =>
    rw [List.mapM_cons] at h
    rcases bind_eq_error_iff.mp h with hitem | ⟨value, -, h⟩
    · exact ⟨item, List.mem_cons_self, hitem⟩
    · rcases bind_eq_error_iff.mp h with hrest | ⟨values, -, h⟩
      · obtain ⟨other, hmem, hother⟩ := ih hrest
        exact ⟨other, List.mem_cons_of_mem _ hmem, hother⟩
      · cases h

/-- The fault of a computation that has failed. -/
def fault? : Except ε α → Option ε
  | .error fault => some fault
  | .ok _ => none

theorem fault?_eq_some_iff {outcome : Except ε α} {fault : ε} :
    fault? outcome = some fault ↔ outcome = .error fault := by
  cases outcome <;> simp [fault?]

theorem fault?_eq_none_iff {outcome : Except ε α} :
    fault? outcome = none ↔ outcome.isOk = true := by
  cases outcome <;> simp [fault?, Except.isOk, Except.toBool]

/-- Of two computations in a row the first one that fails decides, where the second fails alike
whatever the first has come to. -/
theorem fault?_bind {first : Except ε α} {next : α → Except ε β} (rest : Option ε)
    (h : ∀ value, fault? (next value) = rest) :
    fault? (first >>= next) = (fault? first).or rest := by
  cases first with
  | error fault => rfl
  | ok value => exact h value

theorem fault?_mapM {compute : α → Except ε β} {items : List α} :
    fault? (items.mapM compute) = (items.filterMap fun item => fault? (compute item)).head? := by
  induction items with
  | nil => rfl
  | cons item rest ih =>
    have hrest (value : β) : fault? (do return value :: (← rest.mapM compute)) =
        fault? (rest.mapM compute) := by
      rw [fault?_bind none fun _ => rfl, Option.or_none]
    rw [List.mapM_cons, fault?_bind _ hrest, ih, List.filterMap_cons]
    cases fault? (compute item) <;> rfl

end Tsconfig
