/-! Names without repetition, and counting the names that a search has not been at yet. -/
namespace Tsconfig

/-- The elements in order of their first occurrence. -/
def distinct {α : Type} [DecidableEq α] : List α → List α
  | [] => []
  | a :: rest => a :: (distinct rest).filter (· ≠ a)

@[simp] theorem mem_distinct {α : Type} [DecidableEq α] {a : α} {items : List α} :
    a ∈ distinct items ↔ a ∈ items := by
  induction items with
  | nil => simp [distinct]
  | cons first rest ih => by_cases h : a = first <;> simp [distinct, ih, h]

theorem nodup_distinct {α : Type} [DecidableEq α] (items : List α) : (distinct items).Nodup := by
  induction items with
  | nil => simp [distinct]
  | cons first rest ih =>
    refine List.nodup_cons.2 ⟨by simp, ih.sublist List.filter_sublist⟩

section Counting
variable {α : Type} [DecidableEq α]

/-- How many of the names a search has not been at yet. -/
def countUnseen (all seen : List α) : Nat := all.countP (· ∉ seen)

theorem countUnseen_cons_le (all seen : List α) (name : α) :
    countUnseen all (name :: seen) ≤ countUnseen all seen :=
  List.countP_mono_left fun _ _ h => by simp_all

/-- One more name that was seen leaves fewer. -/
theorem countUnseen_cons_lt {all seen : List α} {name : α} (h : name ∈ all) (hn : name ∉ seen) :
    countUnseen all (name :: seen) < countUnseen all seen := by
  induction all with
  | nil => simp at h
  | cons first all ih =>
    simp only [countUnseen, List.countP_cons] at ih ⊢
    by_cases hf : first = name
    · subst hf
      have := countUnseen_cons_le all seen first
      simp only [countUnseen] at this
      rw [if_neg (by simp), if_pos (by simpa using hn)]
      omega
    · have hmem : name ∈ all := by simpa [Ne.symm hf] using h
      have := ih hmem
      by_cases hs : first ∈ seen
      · simpa [hs] using this
      · simpa [hs, hf] using this

/-- Several more names that were seen leave fewer by as many. -/
theorem countUnseen_append {all seen new : List α} (hmem : ∀ name ∈ new, name ∈ all)
    (hnew : ∀ name ∈ new, name ∉ seen) (hd : new.Nodup) :
    countUnseen all (new ++ seen) + new.length ≤ countUnseen all seen := by
  induction new with
  | nil => simp
  | cons name new ih =>
    have hd := List.nodup_cons.1 hd
    have ih := ih (fun n hn => hmem n (by simp [hn])) (fun n hn => hnew n (by simp [hn])) hd.2
    have : countUnseen all (name :: (new ++ seen)) < countUnseen all (new ++ seen) :=
      countUnseen_cons_lt (hmem name (by simp)) (by simp [hd.1, hnew name (by simp)])
    simp only [List.cons_append, List.length_cons]
    omega

end Counting

end Tsconfig
