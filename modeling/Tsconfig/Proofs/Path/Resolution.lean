import Mathlib.Data.List.TakeWhile
import Tsconfig.Host.Memory
import Tsconfig.Proofs.Path.Slashes

/-! Resolution from an absolute path gives a path in normal form, and it leaves normal paths as they
are, wherever it starts. -/
namespace Tsconfig.Path
open Text

/-- The segments that no path in normal form has. -/
def improper : List (List Char) := [[], ['.'], ['.', '.']]

section Roots
variable {path base segment : List Char}

theorem rootChars_rootChars (path : List Char) : rootChars (rootChars path) = rootChars path := by
  by_cases hroot : rootChars path = []
  · rw [hroot]
    rfl
  · by_cases hself : path = rootChars path
    · exact (congrArg rootChars hself).symm
    · have happend : rootChars (rootChars path ++ []) = rootChars path :=
        rootChars_append (openRoot_rootChars hroot hself) (by simp)
      rwa [List.append_nil] at happend

theorem rootChars_slash_ne (rest : List Char) : rootChars ('/' :: rest) ≠ [] := by
  cases rest with
  | nil => decide
  | cons c rest =>
    by_cases hc : c = '/'
    · simp [rootChars, hc]
    · simp [rootChars, hc]

/-- What comes behind a slash leaves an absolute path absolute. -/
theorem rootChars_joinChars_ne (h : rootChars base ≠ []) :
    rootChars (joinChars base segment) ≠ [] := by
  have hne : base ≠ [] := by
    rintro rfl
    exact h rfl
  unfold joinChars
  rw [if_neg hne]
  split
  · exact h
  revert h
  fun_cases rootChars base
  case case1 =>
    intro _
    split <;> exact rootChars_slash_ne _
  case case2 =>
    intro _
    split <;> exact rootChars_slash_ne _
  case case3 halpha =>
    intro _
    simp [rootChars, halpha]
  case case5 halpha =>
    intro _
    split <;> simp [rootChars, halpha]
  all_goals exact fun h => absurd rfl h

end Roots

section Segments
variable {path : List Char} {below : List (List Char)}

/-- A root with proper segments behind it is a normal path. -/
theorem isNormal_of_parts (hroot : rootChars path ≠ []) (hslashed : '\\' ∉ path)
    (hpath : path = rootChars path ++ joinWith '/' below)
    (hbelow : ∀ segment ∈ below, segment ∉ improper ∧ '/' ∉ segment) :
    IsNormal (String.ofList path) := by
  have hproper (segment : List Char) (hmem : segment ∈ below) : segment ≠ [] ∧ '/' ∉ segment := by
    obtain ⟨hproper, hnone⟩ := hbelow segment hmem
    exact ⟨fun hnil => hproper (hnil ▸ List.mem_cons_self), hnone⟩
  have hsegments : segments path = below := by
    have hparts : segments (rootChars path ++ joinWith '/' below) = below :=
      segments_append (hpath ▸ rfl) hproper
    rwa [← hpath] at hparts
  refine ⟨?_, ?_, ?_⟩
  · rwa [String.toList_ofList]
  · rwa [String.toList_ofList]
  · rw [String.toList_ofList, hsegments]
    exact fun segment hmem => (hbelow segment hmem).1

theorem proper_of_mem_pushSegment {stack : List (List Char)} {piece segment : List Char}
    (hstack : ∀ segment ∈ stack, segment ∉ improper) (h : segment ∈ pushSegment true stack piece) :
    segment ∉ improper := by
  unfold pushSegment at h
  split at h
  · exact hstack segment h
  split at h
  · split at h
    · cases h
    · split at h
      · exact hstack segment h
      · exact hstack segment (List.mem_cons_of_mem _ h)
  · rcases List.mem_cons.mp h with rfl | h
    · simp_all [improper]
    · exact hstack segment h

theorem proper_of_mem_foldl {stack pieces : List (List Char)} {segment : List Char}
    (hstack : ∀ segment ∈ stack, segment ∉ improper)
    (h : segment ∈ pieces.foldl (pushSegment true) stack) : segment ∉ improper := by
  induction pieces generalizing stack with
  | nil => exact hstack segment h
  | cons piece pieces ih => exact ih (fun _ => proper_of_mem_pushSegment hstack) h

theorem foldl_pushSegment_of_proper {rooted : Bool} {pieces : List (List Char)}
    (h : ∀ piece ∈ pieces, piece ∉ improper) (stack : List (List Char)) :
    pieces.foldl (pushSegment rooted) stack = pieces.reverse ++ stack := by
  induction pieces generalizing stack with
  | nil => rfl
  | cons piece pieces ih =>
    obtain ⟨hpiece, hpieces⟩ := List.forall_mem_cons.mp h
    have hpush : pushSegment rooted stack piece = piece :: stack := by
      simp_all [pushSegment, improper]
    rw [List.foldl_cons, hpush, ih hpieces, List.reverse_cons, List.append_assoc]
    rfl

end Segments

section Resolved

theorem proper_of_mem_collapseSegments {below segment : List Char}
    (h : segment ∈ collapseSegments true below) : segment ∉ improper ∧ '/' ∉ segment := by
  rw [collapseSegments, List.mem_reverse] at h
  refine ⟨proper_of_mem_foldl (by simp) h, ?_⟩
  have hpiece := foldl_pushSegment_subset _ _ _ h
  rw [List.append_nil] at hpiece
  exact notMem_of_mem_splitOn hpiece

section Collapsed
variable {path : List Char}

theorem collapseChars_of_root (hroot : rootChars path ≠ []) : collapseChars path =
    rootChars path ++ joinWith '/' (collapseSegments true (path.drop (rootChars path).length)) := by
  have habsolute : decide (rootChars path ≠ []) = true := decide_eq_true hroot
  rw [collapseChars, habsolute]
  exact if_neg fun hboth => hroot hboth.1

/-- The root stays, and behind it are the segments that are left. -/
theorem rootChars_collapseChars (hroot : rootChars path ≠ []) :
    rootChars (collapseChars path) = rootChars path := by
  rw [collapseChars_of_root hroot]
  by_cases hpath : path = rootChars path
  · have hdrop : path.drop (rootChars path).length = [] := by
      rw [← hpath, List.drop_length]
    have hnil : collapseSegments true [] = [] := rfl
    rw [hdrop, hnil, joinWith, List.intercalate_nil, List.append_nil, rootChars_rootChars]
  · refine rootChars_append (openRoot_rootChars hroot hpath)
      (head?_joinWith_ne fun segment hmem => ?_)
    obtain ⟨hproper, hslash⟩ := proper_of_mem_collapseSegments hmem
    exact ⟨fun hnil => hproper (hnil ▸ List.mem_cons_self), hslash⟩

theorem segments_collapseChars (hroot : rootChars path ≠ []) : segments (collapseChars path) =
    collapseSegments true (path.drop (rootChars path).length) := by
  have hself := rootChars_collapseChars hroot
  rw [collapseChars_of_root hroot] at hself ⊢
  refine segments_append hself fun segment hmem => ?_
  obtain ⟨hproper, hslash⟩ := proper_of_mem_collapseSegments hmem
  exact ⟨fun hnil => hproper (hnil ▸ List.mem_cons_self), hslash⟩

theorem isNormal_collapseChars (hroot : rootChars path ≠ []) (h : '\\' ∉ path) :
    IsNormal (String.ofList (collapseChars path)) := by
  refine ⟨?_, ?_, fun segment hmem => ?_⟩
  · rwa [String.toList_ofList, rootChars_collapseChars hroot]
  · rw [String.toList_ofList]
    exact notMem_collapseChars h
  · rw [String.toList_ofList, segments_collapseChars hroot] at hmem
    exact (proper_of_mem_collapseSegments hmem).1

end Collapsed

/-- What is resolved from an absolute path, or absolute itself, comes out normal. -/
theorem isNormal_resolve {base relative : String}
    (h : isAbsolute base = true ∨ isAbsolute relative = true) : IsNormal (resolve base relative) := by
  rw [isAbsolute, isAbsoluteChars, isAbsolute, isAbsoluteChars, decide_eq_true_eq,
    decide_eq_true_eq] at h
  rw [resolve, resolveChars]
  have hslashes := Memory.slashedChars_slashedChars relative.toList
  split
  · rename_i hrelative
    rw [isAbsoluteChars, hslashes, decide_eq_true_eq] at hrelative
    exact isNormal_collapseChars hrelative (notMem_slashedChars _)
  · rename_i hrelative
    rw [isAbsoluteChars, hslashes, decide_eq_true_eq] at hrelative
    have hbase := h.resolve_right hrelative
    have hjoin := (isSlashed_slashed base).join (isSlashed_slashed relative)
    rw [IsSlashed, join, slashed, slashed, String.toList_ofList, String.toList_ofList,
      String.toList_ofList] at hjoin
    exact isNormal_collapseChars (rootChars_joinChars_ne hbase) hjoin

/-- A normal path is resolved to itself. -/
theorem resolve_of_normal {path : String} (h : IsNormal path) (base : String) :
    resolve base path = path := by
  have hself := slashedChars_eq_self h.2.1
  have habsolute : isAbsoluteChars path.toList = true := by
    rw [isAbsoluteChars, hself]
    exact decide_eq_true h.1
  have hbelow : joinWith '/' (collapseSegments true (path.toList.drop (rootChars path.toList).length)) =
      path.toList.drop (rootChars path.toList).length := by
    by_cases hdrop : path.toList.drop (rootChars path.toList).length = []
    · rw [hdrop]
      rfl
    · have hproper := h.2.2
      rw [segments, if_neg hdrop] at hproper
      rw [collapseSegments, foldl_pushSegment_of_proper hproper, List.append_nil,
        List.reverse_reverse, joinWith_splitOn]
  rw [resolve, resolveChars, hself, habsolute, if_pos rfl, collapseChars]
  simp only [ne_eq, h.1, not_false_eq_true, decide_true, false_and, if_false]
  rw [hbelow, rootChars_append_drop, String.ofList_toList]

end Resolved

section Joined
variable {dir segment : String}

theorem isNormal_parent {path : String} (h : IsNormal path) : IsNormal (parent path) := by
  rw [parent_eq_ancestorAt h]
  exact (ancestorAt_normal h _).2.2

/-- Proper segments behind a root that they can follow make a normal path. -/
theorem isNormal_openRoot {root rest : List Char} (hroot : OpenRoot root)
    (hslashed : '\\' ∉ root ++ rest) (hpieces : ∀ piece ∈ splitOn '/' rest, piece ∉ improper) :
    IsNormal (String.ofList (root ++ rest)) := by
  have hproper (piece : List Char) (hmem : piece ∈ splitOn '/' rest) :
      piece ∉ improper ∧ '/' ∉ piece := ⟨hpieces piece hmem, notMem_of_mem_splitOn hmem⟩
  have hhead : rest.head? ≠ some '/' := by
    rw [← joinWith_splitOn '/' rest]
    refine head?_joinWith_ne fun piece hmem => ⟨fun hnil => ?_, (hproper piece hmem).2⟩
    exact (hproper piece hmem).1 (hnil ▸ List.mem_cons_self)
  have hself := rootChars_append hroot hhead
  have hne : root ≠ [] := by
    rintro rfl
    cases hroot.getLast?
  refine isNormal_of_parts ?_ hslashed ?_ hproper
  · rwa [hself]
  · rw [hself, joinWith_splitOn]

/-- Behind two slashes the first segment is the name of a server. -/
theorem isNormal_server {rest : List Char} (hslashed : '\\' ∉ rest)
    (hpieces : ∀ piece ∈ splitOn '/' rest, piece ∉ improper) :
    IsNormal (String.ofList ('/' :: '/' :: rest)) := by
  have hslashed' : '\\' ∉ '/' :: '/' :: rest := by simpa using hslashed
  by_cases hslash : '/' ∈ rest
  · obtain ⟨name, more, rfl, hname⟩ := List.eq_append_cons_of_mem hslash
    rw [splitOn_append hname] at hpieces
    have hsplit : '/' :: '/' :: (name ++ '/' :: more) = ('/' :: '/' :: (name ++ ['/'])) ++ more := by
      simp
    rw [hsplit] at hslashed' ⊢
    exact isNormal_openRoot (.server hname) hslashed' fun piece hmem =>
      hpieces piece (List.mem_cons_of_mem _ hmem)
  · have hall : ∀ c ∈ rest, decide (c ≠ '/') = true := by
      intro c hc
      exact decide_eq_true fun heq => hslash (heq ▸ hc)
    have hself : rootChars ('/' :: '/' :: rest) = '/' :: '/' :: rest := by
      rw [rootChars, List.takeWhile_eq_self_iff.mpr hall, List.dropWhile_eq_nil_iff.mpr hall,
        List.take_nil, List.append_nil]
    refine isNormal_of_parts (rootChars_slash_ne _) hslashed' ?_ (List.forall_mem_nil _)
    rw [hself, joinWith, List.intercalate_nil, List.append_nil]

/-- Every root but two slashes ends in a slash, or takes one. -/
theorem exists_openRoot {root rest : List Char} (hroot : rootChars root ≠ [])
    (hself : root = rootChars root) (hne : rest ≠ []) :
    root = ['/', '/'] ∨ ∃ openRoot, OpenRoot openRoot ∧ joinChars root rest = openRoot ++ rest := by
  revert hroot hself
  fun_cases rootChars root
  case case1 name =>
    intro _ hself
    have hname := notMem_takeWhile_slash name
    have hsplit := List.takeWhile_append_dropWhile (p := (· ≠ '/')) (l := name)
    rcases dropWhile_notSlash name with hrest | ⟨tail, hrest⟩
    · rw [hrest, List.append_nil] at hsplit
      rw [hsplit] at hname
      cases name with
      | nil => exact .inl rfl
      | cons c name =>
        refine .inr ⟨'/' :: '/' :: (c :: name ++ ['/']), .server hname, ?_⟩
        rw [joinChars_of_ne_slash (List.cons_ne_nil _ _) hne]
        · simp
        · intro hlast
          rw [List.getLast?_cons_cons, List.getLast?_cons_cons] at hlast
          exact hname (List.mem_of_getLast? hlast)
    · rw [hrest, List.take_succ_cons, List.take_zero] at hself
      rw [hself]
      refine .inr ⟨_, .server hname, joinChars_of_slash (List.cons_ne_nil _ _) hne ?_⟩
      rw [← List.cons_append, ← List.cons_append, List.getLast?_concat]
  case case2 =>
    intro _ hself
    rw [hself]
    exact .inr ⟨['/'], .top, joinChars_of_slash (List.cons_ne_nil _ _) hne rfl⟩
  case case3 drive _ halpha =>
    intro _ _
    exact .inr ⟨[drive, ':', '/'], .drive halpha,
      joinChars_of_ne_slash (List.cons_ne_nil _ _) hne (by simp)⟩
  case case5 drive _ _ halpha =>
    intro _ hself
    rw [hself]
    exact .inr ⟨[drive, ':', '/'], .drive halpha, joinChars_of_slash (List.cons_ne_nil _ _) hne rfl⟩
  all_goals exact fun h => absurd rfl h

/-- Proper segments behind a normal path make a normal path. -/
theorem isNormal_join (h : IsNormal dir) (hslashed : '\\' ∉ segment.toList)
    (hpieces : ∀ piece ∈ splitOn '/' segment.toList, piece ∉ improper) :
    IsNormal (join dir segment) := by
  have hne : segment.toList ≠ [] := by
    intro hnil
    rw [hnil] at hpieces
    exact hpieces [] List.mem_cons_self List.mem_cons_self
  have hjoin : '\\' ∉ joinChars dir.toList segment.toList := by
    have hkept := IsSlashed.join h.2.1 hslashed
    rwa [IsSlashed, join, String.toList_ofList] at hkept
  have hpath := root_append_segments dir.toList
  unfold join
  by_cases hbelow : segments dir.toList = []
  · rw [hbelow, joinWith, List.intercalate_nil, List.append_nil] at hpath
    rcases exists_openRoot h.1 hpath.symm hne with hserver | ⟨root, hroot, heq⟩
    · rw [hserver, joinChars_of_slash (List.cons_ne_nil _ _) hne rfl]
      exact isNormal_server hslashed hpieces
    · rw [heq] at hjoin ⊢
      exact isNormal_openRoot hroot hjoin hpieces
  · have hdir : dir.toList ≠ [] := fun hnil => absurd (congrArg rootChars hnil) h.1
    have heq : joinChars dir.toList segment.toList = rootChars dir.toList ++
        joinWith '/' (segments dir.toList ++ splitOn '/' segment.toList) := by
      rw [joinChars_of_ne_slash hdir hne (getLast?_ne_of_segments h hbelow), joinWith_append hbelow (splitOn_ne_nil _ _), joinWith_splitOn, ← List.append_assoc, hpath]
    have hall (piece : List Char)
        (hmem : piece ∈ segments dir.toList ++ splitOn '/' segment.toList) :
        piece ∉ improper ∧ '/' ∉ piece := by
      rcases List.mem_append.mp hmem with hdir | hsegment
      · exact ⟨h.2.2 piece hdir, (mem_segments h hdir).2⟩
      · exact ⟨hpieces piece hsegment, notMem_of_mem_splitOn hsegment⟩
    rw [heq] at hjoin ⊢
    refine isNormal_openRoot (openRoot_of_segments h hbelow) hjoin ?_
    rw [splitOn_joinWith (by simp [hbelow]) fun piece hmem => (hall piece hmem).2]
    exact fun piece hmem => (hall piece hmem).1

/-- From a normal path, proper segments are only joined. -/
theorem resolve_eq_join (h : IsNormal dir) (hslashed : '\\' ∉ segment.toList)
    (hpieces : ∀ piece ∈ splitOn '/' segment.toList, piece ∉ improper)
    (hrelative : rootChars segment.toList = []) : resolve dir segment = join dir segment := by
  have hself := resolve_of_normal (isNormal_join h hslashed hpieces) dir
  have hjoin : '\\' ∉ joinChars dir.toList segment.toList := by
    have hkept := IsSlashed.join h.2.1 hslashed
    rwa [IsSlashed, join, String.toList_ofList] at hkept
  have habsolute : isAbsoluteChars (joinChars dir.toList segment.toList) = true := by
    rw [isAbsoluteChars, slashedChars_eq_self hjoin]
    exact decide_eq_true (rootChars_joinChars_ne h.1)
  have hnot : ¬ isAbsoluteChars segment.toList = true := by
    simp [isAbsoluteChars, slashedChars_eq_self hslashed, hrelative]
  rw [resolve, resolveChars, join, String.toList_ofList, slashedChars_eq_self hjoin, habsolute,
    if_pos rfl] at hself
  rw [resolve, resolveChars, slashedChars_eq_self hslashed, slashedChars_eq_self h.2.1, if_neg hnot,
    hself, join]

theorem isAbsolute_of_normal {path : String} (h : IsNormal path) : isAbsolute path = true := by
  rw [isAbsolute, isAbsoluteChars, slashedChars_eq_self h.2.1]
  exact decide_eq_true h.1

end Joined

end Tsconfig.Path
