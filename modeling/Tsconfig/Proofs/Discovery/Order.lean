import Mathlib
import Tsconfig.Discovery.Order

/-! Discovered files are compared as their segments are, one after the other, each behind whether
others follow it. That is a total order, so that a set of files is sorted in one way only. -/
namespace Tsconfig.Discovery
open Text

/-- Segments, each behind whether others follow it. -/
def marked : List (List Char) → List (Bool ×ₗ List Char)
  | [] => []
  | segment :: rest => toLex (!rest.isEmpty, segment) :: marked rest

theorem marked_injective : Function.Injective marked := by
  intro a b h
  induction a generalizing b with
  | nil => cases b <;> simp_all [marked]
  | cons first rest ih =>
    cases b with
    | nil => simp [marked] at h
    | cons other more =>
      simp only [marked, List.cons.injEq, EmbeddingLike.apply_eq_iff_eq, Prod.mk.injEq] at h
      rw [h.1.2, ih h.2]

theorem compareSegments_eq (a b : List (List Char)) :
    compareSegments a b = compareOfLessAndEq (marked a) (marked b) := by
  induction a generalizing b with
  | nil => cases b <;> simp [compareSegments, marked, compareOfLessAndEq]
  | cons first rest ih =>
    cases b with
    | nil => simp [compareSegments, marked, compareOfLessAndEq]
    | cons other more =>
      rw [compareSegments, ih]
      by_cases h : first = other
      · subst h
        cases rest <;> cases more <;>
          simp [marked, compareOfLessAndEq, List.cons_lt_cons_iff, Prod.Lex.toLex_lt_toLex]
      · cases rest <;> cases more <;>
          simp [marked, compareOfLessAndEq, List.cons_lt_cons_iff, Prod.Lex.toLex_lt_toLex, h]

/-- What a path is compared by. -/
def rank (path : String) : List (Bool ×ₗ List Char) := marked (splitOn '/' path.toList)

theorem rank_injective : Function.Injective rank := by
  intro a b h
  have hsegments := marked_injective h
  rw [← String.toList_inj, ← joinWith_splitOn '/' a.toList, hsegments, joinWith_splitOn]

theorem compare_eq (a b : String) : compare a b = compareOfLessAndEq (rank a) (rank b) :=
  compareSegments_eq _ _

theorem compare_eq_lt_iff {a b : String} : compare a b = .lt ↔ rank a < rank b := by
  rw [compare_eq, compareOfLessAndEq_eq_lt]

theorem compare_isLE_iff {a b : String} : (compare a b).isLE = true ↔ rank a ≤ rank b := by
  rw [compare_eq, compareOfLessAndEq]
  split
  · rename_i hlt
    simpa using hlt.le
  · rename_i hge
    split
    · rename_i heq
      simp [heq]
    · rename_i hne
      simpa using lt_of_le_of_ne (not_lt.mp hge) (Ne.symm hne)

instance : Std.TransCmp compare where
  eq_swap {a b} := by
    rw [compare_eq, compare_eq]
    exact compareOfLessAndEq_eq_swap le_antisymm le_total not_le
  isLE_trans hab hbc :=
    compare_isLE_iff.mpr (le_trans (compare_isLE_iff.mp hab) (compare_isLE_iff.mp hbc))

instance : Std.LawfulEqCmp compare where
  compare_self {a} := by
    rw [compare_eq, compareOfLessAndEq_eq_eq le_refl not_le]
  eq_of_compare {a b} h := by
    rw [compare_eq, compareOfLessAndEq_eq_eq le_refl not_le] at h
    exact rank_injective h

section Sorting
variable {files more : List String}

theorem le_iff {a b : String} : le a b = true ↔ rank a ≤ rank b := by
  rw [← compare_isLE_iff, le]
  cases compare a b <;> decide

theorem pairwise_sorted (files : List String) :
    (files.mergeSort le).Pairwise fun a b => rank a ≤ rank b := by
  refine (List.pairwise_mergeSort ?_ ?_ files).imp fun hle => le_iff.mp hle
  · intro a b c hab hbc
    exact le_iff.mpr (le_trans (le_iff.mp hab) (le_iff.mp hbc))
  · intro a b
    rw [Bool.or_eq_true, le_iff, le_iff]
    exact le_total _ _

theorem pairwise_lt_sorted (h : files.Nodup) :
    (files.mergeSort le).Pairwise fun a b => compare a b = .lt := by
  have hnodup := (List.mergeSort_perm files le).nodup_iff.mpr h
  refine ((pairwise_sorted files).and hnodup).imp fun ⟨hle, hne⟩ => ?_
  exact compare_eq_lt_iff.mpr (lt_of_le_of_ne hle (rank_injective.ne hne))

theorem sorted_eq_of_perm (h : files.Perm more) : files.mergeSort le = more.mergeSort le := by
  refine List.Perm.eq_of_pairwise ?_ (pairwise_sorted files) (pairwise_sorted more) ?_
  · intro a b _ _ hab hba
    exact rank_injective (le_antisymm hab hba)
  · exact (List.mergeSort_perm files le).trans (h.trans (List.mergeSort_perm more le).symm)

end Sorting
end Tsconfig.Discovery
