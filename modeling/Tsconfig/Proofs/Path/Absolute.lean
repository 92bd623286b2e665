import Tsconfig.Proofs.Path.Resolution

/-! Absolute paths stay absolute when they are climbed, which ends at a root, and when something is put
behind them. Only a drive with nothing behind its colon does not take every ending. -/
namespace Tsconfig.Path
open Text

section Chars
variable {path : List Char}

/-- A drive letter with its colon, and no slash behind it. -/
def IsBareDrive (path : List Char) : Prop :=
  ∃ letter : Char, letter.isAlpha = true ∧ path = [letter, ':']

/-- What is put behind a bare drive has to start with a slash. -/
theorem rootChars_append_ne {rest : List Char} (h : rootChars path ≠ [])
    (hdrive : IsBareDrive path → rest.head? = some '/') : rootChars (path ++ rest) ≠ [] := by
  revert h hdrive
  fun_cases rootChars path
  case case1 => exact fun _ _ => rootChars_slash_ne _
  case case2 => exact fun _ _ => rootChars_slash_ne _
  case case3 halpha =>
    intro _ hdrive
    obtain ⟨tail, rfl⟩ := List.head?_eq_some_iff.mp (hdrive ⟨_, halpha, rfl⟩)
    simp [rootChars, halpha]
  case case5 halpha =>
    intro _ _
    simp [rootChars, halpha]
  all_goals exact fun h => absurd rfl h

theorem OpenRoot.not_isBareDrive {root : List Char} (h : OpenRoot root) : ¬IsBareDrive root := by
  rintro ⟨letter, -, rfl⟩
  have hlast := h.getLast?
  simp at hlast

theorem rootChars_ne_of_prefix {lead : List Char} (h : rootChars path ≠ []) (hlead : lead <+: path)
    (hlength : (rootChars path).length ≤ lead.length) : rootChars lead ≠ [] := by
  by_cases hpath : path = rootChars path
  · rw [hlead.eq_of_length_le (hpath ▸ hlength)]
    exact h
  · have hroot : rootChars path <+: lead :=
      List.prefix_of_prefix_length_le (rootChars_prefix_self path) hlead hlength
    obtain ⟨rest, rfl⟩ := hroot
    apply rootChars_append_ne
    · rwa [rootChars_rootChars]
    · exact fun hdrive => absurd hdrive (openRoot_rootChars h hpath).not_isBareDrive

theorem rootChars_parentSlashed_ne (h : rootChars path ≠ []) :
    rootChars (parentSlashed path) ≠ [] := by
  have htrimmed : dropEndWhile (· = '/') path <+: path := dropEndWhile_prefix_self _ _
  unfold parentSlashed
  dsimp only
  split
  · rwa [rootChars_rootChars]
  rename_i hlong
  rw [not_le] at hlong
  have hkept : dropEndWhile (· ≠ '/') (dropEndWhile (· = '/') path) <+: path :=
    (dropEndWhile_prefix_self _ _).trans htrimmed
  split
  · rename_i hnil
    have hpath : path ≠ rootChars path := fun heq =>
      absurd htrimmed.length_le (by rw [← heq] at hlong; exact not_le.mpr hlong)
    have hroot : rootChars path <+: dropEndWhile (· = '/') path :=
      List.prefix_of_prefix_length_le (rootChars_prefix_self path) htrimmed hlong.le
    have hslash := hroot.subset (List.mem_of_getLast? (openRoot_rootChars h hpath).getLast?)
    simp only [dropEndWhile, List.reverse_eq_nil_iff, List.dropWhile_eq_nil_iff, List.mem_reverse]
      at hnil hslash
    simpa using hnil _ hslash
  · split
    · rwa [rootChars_rootChars]
    · rename_i hlonger
      refine rootChars_ne_of_prefix h ((List.dropLast_prefix _).trans hkept) ?_
      rw [List.length_dropLast]
      omega

theorem length_parentSlashed_lt
    (hlong : (rootChars path).length < (dropEndWhile (· = '/') path).length) :
    (parentSlashed path).length < path.length := by
  have htrimmed := (dropEndWhile_prefix_self (· = '/') path).length_le
  have hkept := (dropEndWhile_prefix_self (· ≠ '/') (dropEndWhile (· = '/') path)).length_le
  rw [parentSlashed, if_neg (not_le.mpr hlong)]
  dsimp only
  split
  · rw [List.length_nil]
    omega
  split
  · omega
  · rw [List.length_dropLast]
    omega

end Chars

theorem isAbsolute_iff {path : String} :
    isAbsolute path = true ↔ rootChars (slashedChars path.toList) ≠ [] := by
  rw [isAbsolute, isAbsoluteChars, decide_eq_true_eq]

variable {path : String}

theorem isAbsolute_parent (h : isAbsolute path = true) : isAbsolute (parent path) = true := by
  rw [isAbsolute_iff, slashedChars_eq_self (isSlashed_parent path), parent, String.toList_ofList]
  exact rootChars_parentSlashed_ne (isAbsolute_iff.mp h)

theorem length_slashedChars (path : String) : (slashedChars path.toList).length = path.length := by
  rw [slashedChars, List.length_map, String.length_toList]

/-- A path that is no root has a shorter parent, unless it is empty. -/
theorem length_parent_lt (hne : path ≠ "") (hroot : isRoot path = false) :
    (parent path).length < path.length := by
  rw [isRoot, isRootChars, Bool.and_eq_false_iff, decide_eq_false_iff_not, decide_eq_false_iff_not,
    not_le, not_not] at hroot
  rw [parent, String.length_ofList, parentChars, ← length_slashedChars]
  apply length_parentSlashed_lt
  rcases hroot with hroot | hlong
  · -- nothing but slashes would be a root
    rw [hroot, List.length_nil, List.length_pos_iff]
    intro htrimmed
    have hchars : slashedChars path.toList ≠ [] := by simpa [slashedChars] using hne
    obtain ⟨c, rest, hpath⟩ := List.exists_cons_of_ne_nil hchars
    simp only [dropEndWhile, List.reverse_eq_nil_iff, List.dropWhile_eq_nil_iff, List.mem_reverse,
      hpath] at htrimmed
    obtain rfl := of_decide_eq_true (htrimmed c List.mem_cons_self)
    rw [hpath] at hroot
    exact rootChars_slash_ne rest hroot
  · exact hlong

/-- A directory and everything above it up to its root, each the parent of the one before. -/
inductive IsClimb : String → List String → Prop
  | root {dir : String} (h : isRoot dir = true) : IsClimb dir [dir]
  | up {dir : String} {above : List String} (h : isRoot dir = false)
      (habove : IsClimb (parent dir) above) : IsClimb dir (dir :: above)

theorem IsClimb.unique {dir : String} {dirs others : List String} (h : IsClimb dir dirs)
    (hothers : IsClimb dir others) : dirs = others := by
  induction h generalizing others with
  | root hroot =>
    cases hothers with
    | root => rfl
    | up hother => exact absurd hroot (by simp [hother])
  | up hroot _ ih =>
    cases hothers with
    | root hother => exact absurd hother (by simp [hroot])
    | up _ habove => rw [ih habove]

theorem isAbsolute_slashed (h : isAbsolute path = true) : isAbsolute (slashed path) = true := by
  rw [isAbsolute_iff] at h ⊢
  rwa [slashedChars_eq_self (isSlashed_slashed path), slashed, String.toList_ofList]

theorem isAbsolute_of_mem_ancestors {above : String} (h : isAbsolute path = true)
    (hmem : above ∈ ancestors path) : isAbsolute above = true := by
  induction path using ancestors.induct with
  | case1 path hshorter ih =>
    rw [ancestors, if_pos hshorter] at hmem
    rcases List.mem_cons.mp hmem with rfl | hmem
    · exact h
    · exact ih (isAbsolute_parent h) hmem
  | case2 path hlonger =>
    rw [ancestors, if_neg hlonger, List.mem_singleton] at hmem
    exact hmem ▸ h

theorem isAbsolute_append (h : isAbsolute path = true)
    (hdrive : ¬IsBareDrive (slashedChars path.toList)) (rest : String) :
    isAbsolute (path ++ rest) = true := by
  rw [isAbsolute_iff] at h ⊢
  rw [String.toList_append, slashedChars, List.map_append]
  exact rootChars_append_ne h fun hbare => absurd hbare hdrive

theorem isAbsolute_join (h : isAbsolute path = true) (segment : String) :
    isAbsolute (join path segment) = true := by
  rw [isAbsolute_iff] at h ⊢
  rw [join, String.toList_ofList, joinChars]
  split
  · rename_i hnil
    rw [hnil] at h
    exact absurd rfl h
  split
  · exact h
  split
  · rename_i hlast
    rw [slashedChars, List.map_append]
    refine rootChars_append_ne h ?_
    rintro ⟨letter, -, hdrive⟩
    have hcolon := congrArg List.getLast? hdrive
    rw [List.getLast?_map, hlast] at hcolon
    simp at hcolon
  · rw [slashedChars, List.map_append]
    exact rootChars_append_ne h fun _ => rfl

end Tsconfig.Path
