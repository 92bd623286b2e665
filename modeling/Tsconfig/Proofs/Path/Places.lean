import Tsconfig.Proofs.Path.Absolute

/-!
What absolute paths mean: a root and the names that lead from it to a place. Resolution writes each place
in one way, so that spellings of one place come out as one text, and takes nothing above a root.
-/
namespace Tsconfig.Path
open Text

/-- Where a segment leads to from a directory, which is given by the names on the way to it. Above the root
is the root. -/
def follow (names : List (List Char)) (segment : List Char) : List (List Char) :=
  if segment = [] ∨ segment = ['.'] then names
  else if segment = ['.', '.'] then names.dropLast
  else names ++ [segment]

structure Place where
  root : List Char
  names : List (List Char)
  deriving DecidableEq

/-- The place that a slashed path means. -/
def place (path : List Char) : Place where
  root := rootChars path
  names := (splitOn '/' (path.drop (rootChars path).length)).foldl follow []

def Place.toChars (place : Place) : List Char := place.root ++ joinWith '/' place.names

/-- The path that is meant from a base, before its dots are worked off. -/
def spelled (base relative : String) : String :=
  if isAbsolute relative then slashed relative else join (slashed base) (slashed relative)

section Names
variable {stack pieces : List (List Char)}

theorem reverse_pushSegment (hstack : ∀ segment ∈ stack, segment ∉ improper) (segment : List Char) :
    (pushSegment true stack segment).reverse = follow stack.reverse segment := by
  unfold pushSegment follow
  split
  · rfl
  split
  · cases stack with
    | nil => rfl
    | cons top below =>
      have htop : top ≠ ['.', '.'] := by
        rintro rfl
        exact hstack _ List.mem_cons_self (by simp [improper])
      simp [htop]
  · rw [List.reverse_cons]

/-- No two dots are ever left on the stack, so that they always take a name back. -/
theorem reverse_foldl_pushSegment (hstack : ∀ segment ∈ stack, segment ∉ improper) :
    (pieces.foldl (pushSegment true) stack).reverse = pieces.foldl follow stack.reverse := by
  induction pieces generalizing stack with
  | nil => rfl
  | cons piece pieces ih =>
    rw [List.foldl_cons, ih fun _ => proper_of_mem_pushSegment hstack, reverse_pushSegment hstack,
      List.foldl_cons]

theorem foldl_follow_of_proper (h : ∀ piece ∈ pieces, piece ∉ improper) (names : List (List Char)) :
    pieces.foldl follow names = names ++ pieces := by
  induction pieces generalizing names with
  | nil => rw [List.foldl_nil, List.append_nil]
  | cons piece pieces ih =>
    obtain ⟨hpiece, hpieces⟩ := List.forall_mem_cons.mp h
    have hfollow : follow names piece = names ++ [piece] := by simp_all [follow, improper]
    rw [List.foldl_cons, hfollow, ih hpieces, List.append_assoc, List.singleton_append]

theorem collapseSegments_eq (path : List Char) :
    collapseSegments true (path.drop (rootChars path).length) = (place path).names :=
  reverse_foldl_pushSegment (List.forall_mem_nil _)

theorem place_of_normal {path : String} (h : IsNormal path) :
    place path.toList = ⟨rootChars path.toList, segments path.toList⟩ := by
  have hproper := h.2.2
  rw [place, Place.mk.injEq]
  refine ⟨rfl, ?_⟩
  unfold segments at hproper ⊢
  split at hproper
  · rename_i hdrop
    rw [hdrop]
    rfl
  · rename_i hdrop
    rw [if_neg hdrop, foldl_follow_of_proper hproper, List.nil_append]

end Names

section Roots
variable {path base segment : List Char}

/-- What is put behind a path that goes on behind its root does not get into the root. -/
theorem rootChars_append_of_longer (hroot : rootChars path ≠ []) (hlonger : path ≠ rootChars path)
    (rest : List Char) : rootChars (path ++ rest) = rootChars path := by
  have hopen := openRoot_rootChars hroot hlonger
  have hsplit := rootChars_append_drop path
  conv => lhs; rw [← hsplit, List.append_assoc]
  by_cases htop : rootChars path = ['/']
  · apply rootChars_append hopen
    rw [htop] at hsplit
    rw [htop, List.head?_append]
    cases hdrop : path.drop ['/'].length with
    | nil =>
      rw [hdrop] at hsplit
      exact absurd (hsplit.symm.trans htop.symm) hlonger
    | cons c below =>
      rw [hdrop] at hsplit
      rintro ⟨⟩
      rw [← hsplit] at htop
      simp [rootChars] at htop
  · exact rootChars_append_of_ne hopen htop _

/-- A root stays when a relative path is joined, though more of it may come to light. -/
theorem rootChars_prefix_joinChars (hroot : rootChars base ≠ []) (hhead : segment.head? ≠ some '/') :
    rootChars base <+: rootChars (joinChars base segment) := by
  have hne : base ≠ [] := by
    rintro rfl
    exact hroot rfl
  by_cases hself : base = rootChars base
  · rw [← hself]
    by_cases hsegment : segment = []
    · have hjoin : joinChars base segment = base := by
        rw [hsegment, joinChars, if_neg hne, if_pos rfl]
      exact ⟨[], by rw [List.append_nil, hjoin, ← hself]⟩
    · rcases exists_openRoot hroot hself hsegment with rfl | ⟨root, hopen, hjoin⟩
      · have hserver : joinChars ['/', '/'] segment = '/' :: '/' :: segment := by
          rw [joinChars, if_neg hne, if_neg hsegment]
          rfl
        rw [hserver, rootChars]
        exact List.prefix_append ['/', '/'] _
      · obtain ⟨slash, hslash⟩ := exists_joinChars_append hne segment
        rw [hjoin, ← List.append_assoc] at hslash
        obtain rfl := List.append_cancel_right hslash
        rw [hjoin, rootChars_append hopen hhead]
        exact List.prefix_append base slash
  · obtain ⟨rest, hrest⟩ := prefix_joinChars hne segment
    exact ⟨[], by rw [List.append_nil, ← hrest, rootChars_append_of_longer hroot hself]⟩

end Roots

section Resolved
variable {base relative : String}

theorem isSlashed_spelled (base relative : String) : IsSlashed (spelled base relative) := by
  unfold spelled
  split
  · exact isSlashed_slashed relative
  · exact (isSlashed_slashed base).join (isSlashed_slashed relative)

theorem isAbsolute_spelled (h : isAbsolute base = true) (relative : String) :
    isAbsolute (spelled base relative) = true := by
  unfold spelled
  split
  · rename_i hrelative
    exact isAbsolute_slashed hrelative
  · exact isAbsolute_join (isAbsolute_slashed h) (slashed relative)

theorem toList_resolve (base relative : String) :
    (resolve base relative).toList = collapseChars (spelled base relative).toList := by
  have hsame : isAbsoluteChars (slashedChars relative.toList) = isAbsolute relative := by
    rw [isAbsoluteChars, Memory.slashedChars_slashedChars]
    rfl
  rw [resolve, String.toList_ofList, resolveChars, hsame, spelled]
  split <;> simp only [slashed, join, String.toList_ofList]

/-- A path is resolved to the one normal spelling of the place that it means. -/
theorem toList_resolve_eq (h : isAbsolute base = true) (relative : String) :
    (resolve base relative).toList = (place (spelled base relative).toList).toChars := by
  have hroot := isAbsolute_iff.mp (isAbsolute_spelled h relative)
  rw [slashedChars_eq_self (isSlashed_spelled base relative)] at hroot
  rw [toList_resolve, collapseChars_of_root hroot, collapseSegments_eq]
  rfl

theorem place_resolve (h : isAbsolute base = true) (relative : String) :
    place (resolve base relative).toList = place (spelled base relative).toList := by
  have hroot := isAbsolute_iff.mp (isAbsolute_spelled h relative)
  rw [slashedChars_eq_self (isSlashed_spelled base relative)] at hroot
  rw [place_of_normal (isNormal_resolve (.inl h)), toList_resolve, rootChars_collapseChars hroot,
    segments_collapseChars hroot, collapseSegments_eq]
  rfl

/-- Two spellings come out as one text just if they mean one place. -/
theorem resolve_eq_iff {otherBase : String} (h : isAbsolute base = true)
    (hother : isAbsolute otherBase = true) (relative other : String) :
    resolve base relative = resolve otherBase other ↔
      place (spelled base relative).toList = place (spelled otherBase other).toList := by
  constructor
  · intro heq
    rw [← place_resolve h, heq, place_resolve hother]
  · intro heq
    rw [← String.toList_inj, toList_resolve_eq h, heq, toList_resolve_eq hother]

theorem head?_slashedChars_ne (h : isAbsolute relative = false) :
    (slashedChars relative.toList).head? ≠ some '/' := by
  intro hhead
  obtain ⟨rest, hrest⟩ := List.head?_eq_some_iff.mp hhead
  have habsolute : isAbsolute relative = true := by
    rw [isAbsolute_iff, hrest]
    exact rootChars_slash_ne rest
  rw [h] at habsolute
  cases habsolute

theorem root_prefix_resolve (h : isAbsolute base = true) (hrelative : isAbsolute relative = false) :
    rootChars (slashed base).toList <+: (resolve base relative).toList := by
  have hbase := isAbsolute_iff.mp h
  rw [toList_resolve_eq h]
  apply List.IsPrefix.trans _ (List.prefix_append _ _)
  rw [place, spelled, if_neg (by simp [hrelative]), join, String.toList_ofList, slashed, slashed,
    String.toList_ofList, String.toList_ofList]
  exact rootChars_prefix_joinChars hbase (head?_slashedChars_ne hrelative)

end Resolved

/-- From an absolute base every path is resolved to a normal one: absolute, without backslashes, and without
segments that are empty or dots. It means the same place, which is not above the root, and from wherever it
is resolved again it stays as it is. So two spellings are resolved to one text just if they mean one place. -/
theorem resolve_normalForm {base : String} (h : isAbsolute base = true) (relative : String) :
    let path := resolve base relative
    isAbsolute path = true ∧ IsSlashed path ∧
    (∀ segment ∈ segments path.toList, segment ∉ improper) ∧
    place path.toList = place (spelled base relative).toList ∧
    (isAbsolute relative = false → rootChars (slashed base).toList <+: path.toList) ∧
    (∀ other, resolve other path = path) ∧
    ∀ otherBase other, isAbsolute otherBase = true →
      (path = resolve otherBase other ↔
        place (spelled base relative).toList = place (spelled otherBase other).toList) := by
  intro path
  have hnormal : IsNormal path := isNormal_resolve (.inl h)
  refine ⟨isAbsolute_of_normal hnormal, hnormal.2.1, hnormal.2.2, place_resolve h relative,
    root_prefix_resolve h, resolve_of_normal hnormal, fun otherBase other hother => ?_⟩
  exact resolve_eq_iff h hother relative other

/-- Dots that climb over the root of a drive, and another spelling of where they lead. -/
theorem resolve_normalForm_drive :
    isAbsolute "C:\\w\\." = true ∧
    resolve "C:\\w\\." "..\\../..//a/./b" = "C:/a/b" ∧
    (∀ segment ∈ segments "C:/a/b".toList, segment ∉ improper) ∧
    rootChars (slashed "C:\\w\\.").toList <+: "C:/a/b".toList ∧
    resolve "d" "C:/a/b" = "C:/a/b" ∧
    resolve "C:\\w\\." "..\\../..//a/./b" = resolve "/" "C:\\a\\c/../b" := by
  have habsolute : isAbsolute "C:\\w\\." = true := by decide +kernel
  have hpath : resolve "C:\\w\\." "..\\../..//a/./b" = "C:/a/b" := by decide +kernel
  obtain ⟨-, -, hproper, -, hroot, hstays, hsame⟩ :=
    resolve_normalForm habsolute "..\\../..//a/./b"
  rw [hpath] at hproper hroot hstays
  refine ⟨habsolute, hpath, hproper, hroot (by decide +kernel), hstays "d", ?_⟩
  exact (hsame "/" "C:\\a\\c/../b" (by decide +kernel)).mpr (by decide +kernel)

end Tsconfig.Path
