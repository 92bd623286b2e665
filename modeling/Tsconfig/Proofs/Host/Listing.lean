import Tsconfig.Host.Memory
import Tsconfig.Proofs.Path.Slashes

/-! A listing is determined by the directories that stand between its top and a file. A listing from
further up gives the same files if it enters the directory. -/
namespace Tsconfig.Memory
open Text

private theorem prefix_below {top text : List Char} {other : List Char} :
    (top ++ '/' :: other) ++ ['/'] <+: top ++ '/' :: text ↔ other ++ ['/'] <+: text := by
  rw [List.append_assoc, List.cons_append, List.prefix_append_right_inj, List.prefix_cons_inj]

private theorem dirsBetween_cons (top first : List Char) {rest : List (List Char)} (h : rest ≠ []) :
    dirsBetween top (first :: rest) =
      (top ++ '/' :: first) :: dirsBetween (top ++ '/' :: first) rest := by
  cases rest with
  | nil => exact absurd rfl h
  | cons => rfl

/-- The directories between a directory and a path are those whose names end at a slash of the
path. -/
theorem mem_dirsBetween {top inner : List Char} {pieces : List (List Char)} (hne : pieces ≠ [])
    (h : ∀ piece ∈ pieces, '/' ∉ piece) :
    inner ∈ dirsBetween top pieces ↔
      top ++ ['/'] <+: inner ∧ inner ++ ['/'] <+: top ++ '/' :: joinWith '/' pieces := by
  induction pieces generalizing top with
  | nil => exact absurd rfl hne
  | cons first rest ih =>
    obtain ⟨hfirst, hrest⟩ := List.forall_mem_cons.mp h
    by_cases hnil : rest = []
    · subst hnil
      rw [dirsBetween, joinWith_singleton]
      refine ⟨fun hmem => absurd hmem List.not_mem_nil, ?_⟩
      rintro ⟨⟨other, rfl⟩, hpath⟩
      rw [← List.append_cons top, prefix_below] at hpath
      exact absurd (hpath.subset (by simp)) hfirst
    · rw [joinWith_cons first hnil, dirsBetween_cons top first hnil, List.mem_cons, ih hnil hrest]
      constructor
      · rintro (rfl | ⟨hlead, hpath⟩)
        · exact ⟨by simp, by simp⟩
        · refine ⟨List.IsPrefix.trans (by simp) hlead, ?_⟩
          rwa [List.append_assoc, List.cons_append] at hpath
      · rintro ⟨⟨other, rfl⟩, hpath⟩
        rw [← List.append_cons top] at hpath ⊢
        rcases concat_prefix_cases hfirst (prefix_below.mp hpath) with rfl | ⟨below, rfl⟩
        · exact .inl rfl
        · refine .inr ⟨by simp, ?_⟩
          rwa [List.append_assoc top ('/' :: first), List.cons_append]

theorem isBelow_iff {dir path : String} :
    isBelow dir path = true ↔ trimmedDir dir ++ ['/'] <+: path.toList :=
  List.isPrefixOf_iff_prefix

theorem isReached_iff {dir path : String} {pruned : String → Bool} (h : isBelow dir path = true) :
    isReached dir pruned path = true ↔ ∀ inner, trimmedDir dir ++ ['/'] <+: inner →
      inner ++ ['/'] <+: path.toList → pruned (String.ofList inner) = false := by
  obtain ⟨below, hbelow⟩ := isBelow_iff.mp h
  have hdrop : path.toList.drop ((trimmedDir dir).length + 1) = below := by
    rw [← hbelow]
    exact List.drop_left' (by simp)
  have hmem (inner : List Char) : inner ∈ dirsBetween (trimmedDir dir) (splitOn '/' below) ↔
      trimmedDir dir ++ ['/'] <+: inner ∧ inner ++ ['/'] <+: path.toList := by
    rw [mem_dirsBetween (splitOn_ne_nil '/' below) fun _ hpiece => notMem_of_mem_splitOn hpiece,
      joinWith_splitOn, List.append_cons _ _ below, hbelow]
  simp only [isReached, hdrop, List.all_eq_true, hmem, Bool.not_eq_true', and_imp]

theorem isBelow_of_mem_list {memory : Memory} {pruned : String → Bool} {dir path : String}
    (h : path ∈ memory.list dir pruned) : isBelow dir path = true := by
  have hkept := (List.mem_filter.mp h).2
  rw [Bool.and_eq_true] at hkept
  exact hkept.1

/-- Whether a listing from `root` enters a directory: it lies below, and neither it nor one on the
way is picked out. -/
def enters (pruned : String → Bool) (root dir : String) : Bool :=
  let inside := String.ofList (trimmedDir dir ++ ['/'])
  isBelow root inside && isReached root pruned inside

theorem prefix_of_enters {pruned : String → Bool} {root dir : String}
    (h : enters pruned root dir = true) : trimmedDir root ++ ['/'] <+: trimmedDir dir ++ ['/'] := by
  rw [enters, Bool.and_eq_true, isBelow_iff, String.toList_ofList] at h
  exact h.1

/-- Of the files below a directory, a listing from further up has those that a listing of the
directory has, if it enters the directory, and none else. -/
theorem mem_list_of_isBelow {memory : Memory} {pruned : String → Bool} {root dir path : String}
    (hroot : trimmedDir root ++ ['/'] <+: trimmedDir dir ++ ['/'])
    (hdir : isBelow dir path = true) :
    path ∈ memory.list root pruned ↔
      path ∈ memory.list dir pruned ∧ enters pruned root dir = true := by
  have hinside : isBelow root (String.ofList (trimmedDir dir ++ ['/'])) = true := by
    rw [isBelow_iff, String.toList_ofList]
    exact hroot
  have hpath := isBelow_iff.mp hdir
  have hbelow : isBelow root path = true := isBelow_iff.mpr (hroot.trans hpath)
  simp only [list, enters, List.mem_filter, hdir, hbelow, hinside, Bool.true_and, and_assoc,
    isReached_iff hdir, isReached_iff hbelow, isReached_iff hinside, String.toList_ofList]
  refine and_congr_right fun _ => ⟨fun hreached => ⟨?_, ?_⟩, ?_⟩
  · intro inner hlead hinner
    exact hreached inner (hroot.trans hlead) hinner
  · intro inner hlead hinner
    exact hreached inner hlead (hinner.trans hpath)
  · rintro ⟨hlower, hupper⟩ inner hlead hinner
    rcases List.prefix_or_prefix_of_prefix hinner hpath with hshort | hlong
    · exact hupper inner hlead hshort
    · rcases List.prefix_concat_iff.mp hlong with heq | hlong
      · exact hupper inner hlead (heq ▸ List.prefix_refl _)
      · exact hlower inner hlong hinner

section Joined

theorem trimmedDir_prefix_join {dir : String} (hdir : dir ≠ "") (inner : String) :
    trimmedDir dir ++ ['/'] <+: trimmedDir (Path.join dir inner) ++ ['/'] := by
  rw [ne_eq, ← String.toList_eq_nil_iff] at hdir
  by_cases hinner : inner.toList = []
  · simp [trimmedDir, Path.join, Path.joinChars, hinner, hdir]
  obtain ⟨lead, hlead, hjoin⟩ := Path.exists_joinChars_eq hdir
  have htrimmed : trimmedDir dir = dropEndWhile (· = '/') (Path.slashedChars lead) := by
    rw [trimmedDir]
    rcases hlead with hlead | hlead
    · rw [hlead]
    · rw [hlead, Path.slashedChars, List.map_append]
      exact dropEndWhile_append_of_forall (by simp)
  have hjoined : trimmedDir (Path.join dir inner) =
      dropEndWhile (· = '/') (Path.slashedChars lead ++ '/' :: Path.slashedChars inner.toList) := by
    rw [trimmedDir, Path.join, String.toList_ofList, hjoin _ hinner]
    simp [Path.slashedChars]
  rw [hjoined, htrimmed]
  refine concat_prefix_dropEndWhile (fun c hc => ?_) ?_
  · exact of_decide_eq_false (getLast?_dropEndWhile hc)
  · refine (dropEndWhile_concat_prefix_concat '/' _).trans ?_
    rw [List.append_assoc, List.cons_append, List.prefix_append_right_inj]
    exact List.cons_prefix_cons.mpr ⟨rfl, List.nil_prefix⟩

/-- A directory is there if one inside it is. -/
theorem isDir_of_isDir_join {memory : Memory} {dir inner : String} (hdir : dir ≠ "")
    (h : memory.isDir (Path.join dir inner) = true) : memory.isDir dir = true := by
  obtain ⟨path, hpath, hbelow⟩ := List.any_eq_true.mp h
  refine List.any_eq_true.mpr ⟨path, hpath, isBelow_iff.mpr ?_⟩
  exact (trimmedDir_prefix_join hdir inner).trans (isBelow_iff.mp hbelow)

end Joined
end Tsconfig.Memory
