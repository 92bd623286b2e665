import Tsconfig.Proofs.Discovery.Literal
import Tsconfig.Proofs.Host.Listing

/-! Every directory that a pattern starts from lies within a directory that is searched, and none of
those lies within one before it, so that all of them are distinct. -/
namespace Tsconfig.Discovery
open Text

theorem toList_literalBase (pattern : String) :
    (literalBase pattern).toList = if literalLead pattern = [] then ['/'] else literalLead pattern := by
  change (if literalLead pattern = [] then "/" else String.ofList (literalLead pattern)).toList = _
  split
  · rfl
  · rw [String.toList_ofList]

theorem trim_literalBase (pattern : String) :
    dropEndWhile (· = '/') (literalBase pattern).toList =
      dropEndWhile (· = '/') (literalLead pattern) := by
  rw [toList_literalBase]
  split
  · rename_i hnil
    rw [hnil]
    rfl
  · rfl

theorem literalBase_prefix_lead (pattern : String) :
    (literalBase pattern).toList <+: literalLead pattern ++ ['/'] := by
  rw [toList_literalBase]
  split
  · rename_i hnil
    rw [hnil]
    exact List.prefix_refl _
  · exact List.prefix_append _ _

section Within
variable {a b c : String}

theorem isWithin_iff :
    isWithin a b = true ↔ b = a ∨ dropEndWhile (· = '/') a.toList ++ ['/'] <+: b.toList := by
  rw [isWithin, Bool.or_eq_true, decide_eq_true_eq, List.isPrefixOf_iff_prefix]

theorem trim_getLast? {text : List Char} (c : Char)
    (h : (dropEndWhile (· = '/') text).getLast? = some c) : c ≠ '/' :=
  of_decide_eq_false (getLast?_dropEndWhile h)

theorem isWithin_trans (hab : isWithin a b = true) (hbc : isWithin b c = true) :
    isWithin a c = true := by
  rw [isWithin_iff] at *
  rcases hab with rfl | hab
  · exact hbc
  rcases hbc with rfl | hbc
  · exact .inr hab
  · exact .inr ((concat_prefix_dropEndWhile trim_getLast?
      (hab.trans (List.prefix_append _ ['/']))).trans hbc)

end Within

section Fold
variable {roots dirs : List String}

theorem subset_addRoot (roots : List String) (dir : String) : roots ⊆ addRoot roots dir := by
  rw [addRoot]
  split
  · exact List.Subset.refl _
  · exact List.subset_append_left _ _

theorem subset_foldl_addRoot (roots dirs : List String) : roots ⊆ dirs.foldl addRoot roots := by
  induction dirs generalizing roots with
  | nil => exact List.Subset.refl _
  | cons dir rest ih => exact List.Subset.trans (subset_addRoot roots dir) (ih _)

theorem exists_isWithin_addRoot (roots : List String) (dir : String) :
    ∃ root ∈ addRoot roots dir, isWithin root dir = true := by
  rw [addRoot]
  split
  · rename_i hany
    exact List.any_eq_true.mp hany
  · exact ⟨dir, by simp, isWithin_iff.mpr (.inl rfl)⟩

theorem exists_isWithin_foldl {dir : String} (h : dir ∈ dirs) (roots : List String) :
    ∃ root ∈ dirs.foldl addRoot roots, isWithin root dir = true := by
  induction dirs generalizing roots with
  | nil => cases h
  | cons first rest ih =>
    rcases List.mem_cons.mp h with rfl | hrest
    · obtain ⟨root, hroot, hwithin⟩ := exists_isWithin_addRoot roots dir
      exact ⟨root, subset_foldl_addRoot _ rest hroot, hwithin⟩
    · exact ih hrest (addRoot roots first)

theorem nodup_addRoot (h : roots.Nodup) (dir : String) : (addRoot roots dir).Nodup := by
  rw [addRoot]
  split
  · exact h
  · rename_i hnone
    refine List.nodup_append.mpr ⟨h, by simp, fun root hroot other hother heq => ?_⟩
    have hdir : dir = root := (heq.trans (List.mem_singleton.mp hother)).symm
    exact hnone (List.any_eq_true.mpr ⟨root, hroot, isWithin_iff.mpr (.inl hdir)⟩)

theorem nodup_foldl_addRoot (h : roots.Nodup) (dirs : List String) :
    (dirs.foldl addRoot roots).Nodup := by
  induction dirs generalizing roots with
  | nil => exact h
  | cons dir rest ih => exact ih (nodup_addRoot h dir)

/-- A directory became a root when it was come by, since it lay within none of the roots so far. -/
theorem exists_split_of_mem_foldl {root : String} (h : root ∈ dirs.foldl addRoot roots) :
    root ∈ roots ∨ ∃ before after, dirs = before ++ root :: after ∧
      ∀ earlier ∈ before.foldl addRoot roots, isWithin earlier root = false := by
  induction dirs generalizing roots with
  | nil => exact .inl h
  | cons first rest ih =>
    rcases ih h with hroot | ⟨before, after, rfl, hearlier⟩
    · rw [addRoot] at hroot
      split at hroot
      · exact .inl hroot
      · rename_i hnone
        rcases List.mem_append.mp hroot with hroot | hroot
        · exact .inl hroot
        · obtain rfl := List.mem_singleton.mp hroot
          exact .inr ⟨[], rest, rfl, by simpa using hnone⟩
    · exact .inr ⟨first :: before, after, rfl, hearlier⟩

end Fold

section WalkRoots
variable {patterns : List String} {pattern root : String}

/-- The directories that patterns start from, in order. -/
def bases (patterns : List String) : List String :=
  (patterns.map literalBase).mergeSort fun a b => a ≤ b

theorem pairwise_bases (patterns : List String) : (bases patterns).Pairwise (· ≤ ·) := by
  refine (List.pairwise_mergeSort ?_ ?_ _).imp fun hle => of_decide_eq_true hle
  · intro a b c hab hbc
    exact decide_eq_true (String.le_trans (of_decide_eq_true hab) (of_decide_eq_true hbc))
  · intro a b
    simpa using String.le_total a b

theorem exists_literalBase (h : root ∈ walkRoots patterns) :
    ∃ pattern ∈ patterns, root = literalBase pattern := by
  rcases exists_split_of_mem_foldl h with hnil | ⟨before, after, hsplit, -⟩
  · cases hnil
  · have hmem : root ∈ bases patterns := by
      rw [bases, hsplit]
      simp
    obtain ⟨pattern, hpattern, rfl⟩ := List.mem_map.mp (List.mem_mergeSort.mp hmem)
    exact ⟨pattern, hpattern, rfl⟩

theorem nodup_walkRoots (patterns : List String) : (walkRoots patterns).Nodup :=
  nodup_foldl_addRoot List.nodup_nil _

theorem walkRoots_singleton (pattern : String) : walkRoots [pattern] = [literalBase pattern] := by
  rw [walkRoots, List.map_singleton, List.mergeSort_singleton]
  rfl

theorem exists_walkRoot (h : pattern ∈ patterns) :
    ∃ root ∈ walkRoots patterns, isWithin root (literalBase pattern) = true :=
  exists_isWithin_foldl (List.mem_mergeSort.mpr (List.mem_map_of_mem h)) []

/-- A root that lies within the directory of a pattern, and comes after it, is that directory. -/
theorem eq_of_isWithin_walkRoot (hroot : root ∈ walkRoots patterns) (h : pattern ∈ patterns)
    (hlead : (literalBase pattern).toList <+: root.toList)
    (hwithin : isWithin (literalBase pattern) root = true) : literalBase pattern = root := by
  have hle : literalBase pattern ≤ root := List.IsPrefix.le hlead
  rcases exists_split_of_mem_foldl hroot with hnil | ⟨before, after, hsplit, hearlier⟩
  · cases hnil
  have horder := pairwise_bases patterns
  have hmem : literalBase pattern ∈ bases patterns :=
    List.mem_mergeSort.mpr (List.mem_map_of_mem h)
  rw [bases, hsplit] at horder hmem
  obtain ⟨-, hafter, -⟩ := List.pairwise_append.mp horder
  rcases List.mem_append.mp hmem with hbefore | hmem
  · obtain ⟨earlier, hmem, hbase⟩ := exists_isWithin_foldl hbefore []
    have := hearlier earlier hmem
    rw [isWithin_trans hbase hwithin] at this
    cases this
  · rcases List.mem_cons.mp hmem with heq | hmem
    · exact heq
    · exact String.le_antisymm hle (List.rel_of_pairwise_cons hafter hmem)

end WalkRoots
end Tsconfig.Discovery
