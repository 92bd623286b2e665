/-! The first item that passes a test, in a list that was sorted stably: the best one, and of
several that are alike the one that came first before the list was sorted. -/
namespace Tsconfig
variable {α : Type} {le : α → α → Bool} {p : α → Bool} {items : List α} {a b : α}

/-- Of the items that pass a test, the best one that comes first: the ones before it are worse, and
the ones behind it are not better. -/
def IsFirstBest (le : α → α → Bool) (p : α → Bool) (items : List α) (a : α) : Prop :=
  ∃ before after, items = before ++ a :: after ∧ p a = true ∧
    (∀ b ∈ before, p b = true → le b a = false) ∧ ∀ b ∈ after, p b = true → le a b = true

theorem IsFirstBest.unique (ha : IsFirstBest le p items a) (hb : IsFirstBest le p items b) :
    a = b := by
  obtain ⟨before, after, hsplit, hpa, hworse, hbest⟩ := ha
  obtain ⟨before', after', hsplit', hpb, hworse', hbest'⟩ := hb
  rw [hsplit] at hsplit'
  rcases List.append_eq_append_iff.mp hsplit' with ⟨mid, rfl, hmid⟩ | ⟨mid, rfl, hmid⟩
  · cases mid with
    | nil => exact (List.cons.inj hmid).1
    | cons first mid =>
      obtain ⟨rfl, rfl⟩ := List.cons.inj hmid
      have hle := hbest b (by simp) hpb
      rw [hworse' a (by simp) hpa] at hle
      cases hle
  · cases mid with
    | nil => exact (List.cons.inj hmid).1.symm
    | cons first mid =>
      obtain ⟨rfl, rfl⟩ := List.cons.inj hmid
      have hle := hbest' a (by simp) hpa
      rw [hworse b (by simp) hpb] at hle
      cases hle

theorem IsFirstBest.cons (h : IsFirstBest le p items a) (hworse : p b = true → le b a = false) :
    IsFirstBest le p (b :: items) a := by
  obtain ⟨before, after, rfl, hpa, hbefore, hafter⟩ := h
  exact ⟨b :: before, after, rfl, hpa, List.forall_mem_cons.mpr ⟨hworse, hbefore⟩, hafter⟩

theorem isFirstBest_cons_self (hp : p a = true) (hbest : ∀ b ∈ items, p b = true → le a b = true) :
    IsFirstBest le p (a :: items) a :=
  ⟨[], items, rfl, hp, List.forall_mem_nil _, hbest⟩

/-- The first hit in a list that was sorted stably. -/
theorem isFirstBest_of_find?_mergeSort
    (htrans : ∀ a b c, le a b = true → le b c = true → le a c = true)
    (htotal : ∀ a b, (le a b || le b a) = true) (h : (items.mergeSort le).find? p = some a) :
    IsFirstBest le p items a := by
  induction items with
  | nil => simp at h
  | cons first rest ih =>
    -- Sorting puts the first item right behind all that are strictly better.
    obtain ⟨better, others, hsorted, hrest, hbetter⟩ := List.mergeSort_cons htrans htotal first rest
    have hpairwise := List.pairwise_mergeSort htrans htotal (first :: rest)
    rw [hsorted, List.find?_append, List.find?_cons] at h
    rw [hrest, List.find?_append] at ih
    cases hfind : better.find? p with
    | some b =>
      rw [hfind, Option.some_or] at h
      cases h
      refine (ih (by rw [hfind, Option.some_or])).cons fun _ => ?_
      simpa using hbetter a (List.mem_of_find?_eq_some hfind)
    | none =>
      rw [hfind, Option.none_or] at h ih
      cases hp : p first with
      | false =>
        rw [hp] at h
        exact (ih h).cons fun hfirst => absurd hfirst (by simp [hp])
      | true =>
        rw [hp] at h
        cases h
        refine isFirstBest_cons_self hp fun b hb hpb => ?_
        replace hb : b ∈ better ++ others := hrest ▸ List.mem_mergeSort.mpr hb
        rcases List.mem_append.mp hb with hb | hb
        · exact absurd hpb (List.find?_eq_none.mp hfind b hb)
        · rw [hsorted, List.pairwise_append, List.pairwise_cons] at hpairwise
          exact hpairwise.2.1.1 b hb

theorem find?_mergeSort_eq_some_iff
    (htrans : ∀ a b c, le a b = true → le b c = true → le a c = true)
    (htotal : ∀ a b, (le a b || le b a) = true) :
    (items.mergeSort le).find? p = some a ↔ IsFirstBest le p items a := by
  refine ⟨isFirstBest_of_find?_mergeSort htrans htotal, fun h => ?_⟩
  cases hfind : (items.mergeSort le).find? p with
  | some b => rw [(isFirstBest_of_find?_mergeSort htrans htotal hfind).unique h]
  | none =>
    obtain ⟨before, after, rfl, hpa, -⟩ := h
    rw [List.find?_eq_none] at hfind
    exact absurd hpa (hfind a (List.mem_mergeSort.mpr (by simp)))

end Tsconfig
