import Mathlib.Data.List.Basic
import Tsconfig.Path.Ancestors
import Tsconfig.Proofs.Text.Pieces

/-! Absolute paths in normal form are a root and a list of segments. The climb to the root goes
through the prefixes of that list, longest first. -/
namespace Tsconfig.Path
open Text

/-- The segments below the root. -/
def segments (path : List Char) : List (List Char) :=
  if path.drop (rootChars path).length = [] then []
  else splitOn '/' (path.drop (rootChars path).length)

/-- Absolute, with slashes only, and no segment that is empty or made of one or two dots. -/
def IsNormal (path : String) : Prop :=
  rootChars path.toList ≠ [] ∧ '\\' ∉ path.toList ∧
    ∀ segment ∈ segments path.toList, segment ∉ [[], ['.'], ['.', '.']]

instance (path : String) : Decidable (IsNormal path) := inferInstanceAs (Decidable (_ ∧ _ ∧ _))

/-- A directory that another one lies in, at any depth, or that directory itself. -/
def IsAncestor (dir below : String) : Prop :=
  IsNormal dir ∧ rootChars dir.toList = rootChars below.toList ∧
    segments dir.toList <+: segments below.toList

instance (dir below : String) : Decidable (IsAncestor dir below) :=
  inferInstanceAs (Decidable (_ ∧ _ ∧ _))

section Roots

/-- The roots that segments can follow. -/
inductive OpenRoot : List Char → Prop
  | top : OpenRoot ['/']
  | drive {letter : Char} (h : letter.isAlpha = true) : OpenRoot [letter, ':', '/']
  | server {name : List Char} (h : '/' ∉ name) : OpenRoot ('/' :: '/' :: (name ++ ['/']))

theorem OpenRoot.getLast? {root : List Char} (h : OpenRoot root) : root.getLast? = some '/' := by
  cases h with
  | top => rfl
  | drive => rfl
  | server =>
    rw [← List.cons_append, ← List.cons_append]
    exact List.getLast?_concat

private theorem cutAtSlash {name : List Char} (h : '/' ∉ name) (rest : List Char) :
    (name ++ '/' :: rest).takeWhile (· ≠ '/') = name ∧
      (name ++ '/' :: rest).dropWhile (· ≠ '/') = '/' :: rest := by
  have hname : ∀ c ∈ name, decide (c ≠ '/') = true := by
    intro c hc
    exact decide_eq_true fun heq => h (heq ▸ hc)
  rw [List.takeWhile_append_of_pos hname, List.dropWhile_append_of_pos hname]
  simp

theorem notMem_takeWhile_slash (rest : List Char) : '/' ∉ rest.takeWhile (· ≠ '/') := by
  intro hmem
  have hall := List.all_eq_true.mp List.all_takeWhile _ hmem
  exact absurd rfl (of_decide_eq_true hall)

theorem dropWhile_notSlash (rest : List Char) :
    rest.dropWhile (· ≠ '/') = [] ∨ ∃ tail, rest.dropWhile (· ≠ '/') = '/' :: tail := by
  have hhead := List.head?_dropWhile_not (· ≠ '/') rest
  cases hd : rest.dropWhile (· ≠ '/') with
  | nil => exact .inl rfl
  | cons c tail =>
    rw [hd] at hhead
    obtain rfl : c = '/' := by simpa using hhead
    exact .inr ⟨tail, rfl⟩

/-- Behind a drive or a server comes whatever it is. -/
theorem rootChars_append_of_ne {root : List Char} (h : OpenRoot root) (hne : root ≠ ['/'])
    (below : List Char) : rootChars (root ++ below) = root := by
  cases h with
  | top => exact absurd rfl hne
  | @drive letter halpha =>
    have hslash : letter ≠ '/' := by
      rintro rfl
      exact absurd halpha (by decide)
    simp [rootChars, halpha]
  | @server name hname =>
    obtain ⟨htake, hdrop⟩ := cutAtSlash hname below
    rw [List.cons_append, List.cons_append, List.append_assoc, List.singleton_append, rootChars,
      htake, hdrop, List.take_succ_cons, List.take_zero]

theorem rootChars_append {root below : List Char} (h : OpenRoot root)
    (hbelow : below.head? ≠ some '/') : rootChars (root ++ below) = root := by
  by_cases htop : root = ['/']
  · subst htop
    cases below with
    | nil => rfl
    | cons c below =>
      have hc : c ≠ '/' := by simpa using hbelow
      simp [rootChars, hc]
  · exact rootChars_append_of_ne h htop below

theorem rootChars_append_drop (path : List Char) :
    rootChars path ++ path.drop (rootChars path).length = path := by
  refine (List.prefix_iff_eq_append.mp ?_)
  fun_cases rootChars path
  case case1 rest =>
    have hsplit := List.takeWhile_append_dropWhile (p := (· ≠ '/')) (l := rest)
    refine List.cons_prefix_cons.mpr ⟨rfl, List.cons_prefix_cons.mpr ⟨rfl, ?_⟩⟩
    refine ⟨(rest.dropWhile (· ≠ '/')).drop 1, ?_⟩
    rw [List.append_assoc, List.take_append_drop, hsplit]
  case case2 rest _ => exact ⟨rest, rfl⟩
  case case3 => exact List.prefix_refl _
  case case5 drive rest _ _ => exact ⟨rest, rfl⟩
  all_goals exact List.nil_prefix

theorem rootChars_prefix_self (path : List Char) : rootChars path <+: path :=
  ⟨_, rootChars_append_drop path⟩

theorem openRoot_rootChars {path : List Char} (hroot : rootChars path ≠ [])
    (hne : path ≠ rootChars path) : OpenRoot (rootChars path) := by
  revert hroot hne
  fun_cases rootChars path
  case case1 rest =>
    intro _ hne
    have hsplit := List.takeWhile_append_dropWhile (p := (· ≠ '/')) (l := rest)
    rcases dropWhile_notSlash rest with hd | ⟨tail, hd⟩
    · rw [hd, List.append_nil] at hsplit
      rw [hd, hsplit, List.take_nil, List.append_nil] at hne
      exact absurd rfl hne
    · rw [hd]
      exact .server (notMem_takeWhile_slash rest)
  case case2 =>
    intro _ _
    exact .top
  case case3 =>
    intro _ hne
    exact absurd rfl hne
  case case5 halpha =>
    intro _ _
    exact .drive halpha
  all_goals
    intro hroot
    exact absurd rfl hroot

end Roots

section Segments

theorem root_append_segments (path : List Char) :
    rootChars path ++ joinWith '/' (segments path) = path := by
  have hjoin : joinWith '/' (segments path) = path.drop (rootChars path).length := by
    unfold segments
    split
    · rename_i hnil
      exact hnil.symm
    · exact joinWith_splitOn _ _
  rw [hjoin, rootChars_append_drop]

theorem eq_of_segments_eq {a b : String} (hroot : rootChars a.toList = rootChars b.toList)
    (hsegments : segments a.toList = segments b.toList) : a = b := by
  rw [← String.toList_inj, ← root_append_segments a.toList, hroot, hsegments, root_append_segments]

theorem IsAncestor.trans {a b c : String} (hab : IsAncestor a b) (hbc : IsAncestor b c) :
    IsAncestor a c :=
  ⟨hab.1, hab.2.1.trans hbc.2.1, hab.2.2.trans hbc.2.2⟩

theorem IsAncestor.antisymm {a b : String} (hab : IsAncestor a b) (hba : IsAncestor b a) : a = b :=
  eq_of_segments_eq hab.2.1 (hab.2.2.eq_of_length_le hba.2.2.length_le)

theorem segments_append {root : List Char} {below : List (List Char)}
    (hroot : rootChars (root ++ joinWith '/' below) = root)
    (h : ∀ segment ∈ below, segment ≠ [] ∧ '/' ∉ segment) :
    segments (root ++ joinWith '/' below) = below := by
  have hnil := joinWith_eq_nil_iff '/' fun segment hs => (h segment hs).1
  rw [segments, hroot, List.drop_left]
  split
  · rename_i hjoin
    exact (hnil.mp hjoin).symm
  · rename_i hjoin
    exact splitOn_joinWith (mt hnil.mpr hjoin) fun segment hs => (h segment hs).2

theorem head?_joinWith_ne {below : List (List Char)}
    (h : ∀ segment ∈ below, segment ≠ [] ∧ '/' ∉ segment) :
    (joinWith '/' below).head? ≠ some '/' := by
  cases below with
  | nil => simp [joinWith]
  | cons first rest =>
    obtain ⟨hne, hslash⟩ := h first List.mem_cons_self
    obtain ⟨c, tail, rfl⟩ := List.exists_cons_of_ne_nil hne
    have hc : c ≠ '/' := fun heq => hslash (heq ▸ List.mem_cons_self)
    by_cases hrest : rest = []
    · simpa [hrest, joinWith_singleton] using hc
    · simpa [joinWith_cons _ hrest] using hc

theorem mem_segments {path : String} (h : IsNormal path) {segment : List Char}
    (hmem : segment ∈ segments path.toList) : segment ≠ [] ∧ '/' ∉ segment := by
  refine ⟨fun hnil => h.2.2 segment hmem (by simp [hnil]), ?_⟩
  unfold segments at hmem
  split at hmem
  · cases hmem
  · exact notMem_of_mem_splitOn hmem

theorem openRoot_of_segments {path : String} (h : IsNormal path)
    (hne : segments path.toList ≠ []) : OpenRoot (rootChars path.toList) := by
  refine openRoot_rootChars h.1 fun heq => hne ?_
  have hdrop : path.toList.drop (rootChars path.toList).length = [] := by
    rw [← heq, List.drop_length]
  simp [segments, hdrop]

/-- The path that is left of the first segments. -/
def ancestorAt (path : String) (depth : Nat) : String :=
  String.ofList (rootChars path.toList ++ joinWith '/' ((segments path.toList).take depth))

theorem ancestorAt_length (path : String) : ancestorAt path (segments path.toList).length = path := by
  rw [ancestorAt, List.take_length, root_append_segments, String.ofList_toList]

theorem ancestorAt_prefix_self (path : String) (depth : Nat) :
    (ancestorAt path depth).toList <+: path.toList := by
  have hjoin := joinWith_append_prefix '/' ((segments path.toList).take depth)
    ((segments path.toList).drop depth)
  rw [List.take_append_drop] at hjoin
  rw [ancestorAt, String.toList_ofList]
  conv => rhs; rw [← root_append_segments path.toList]
  exact (List.prefix_append_right_inj _).mpr hjoin

theorem ancestorAt_normal {path : String} (h : IsNormal path) (depth : Nat) :
    rootChars (ancestorAt path depth).toList = rootChars path.toList ∧
      segments (ancestorAt path depth).toList = (segments path.toList).take depth ∧
      IsNormal (ancestorAt path depth) := by
  have hsegments : ∀ segment ∈ (segments path.toList).take depth, segment ≠ [] ∧ '/' ∉ segment :=
    fun segment hs => mem_segments h (List.mem_of_mem_take hs)
  have hroot : rootChars (ancestorAt path depth).toList = rootChars path.toList := by
    by_cases hne : segments path.toList = []
    · have hself := ancestorAt_length path
      rw [hne, List.length_nil] at hself
      rw [ancestorAt, hne, List.take_nil]
      rw [ancestorAt, hne, List.take_nil] at hself
      rw [hself]
    · rw [ancestorAt, String.toList_ofList]
      exact rootChars_append (openRoot_of_segments h hne) (head?_joinWith_ne hsegments)
  have hbelow : segments (ancestorAt path depth).toList = (segments path.toList).take depth := by
    rw [ancestorAt, String.toList_ofList] at hroot ⊢
    exact segments_append hroot hsegments
  refine ⟨hroot, hbelow, ?_, fun hmem => h.2.1 ((ancestorAt_prefix_self path depth).subset hmem), ?_⟩
  · rw [hroot]
    exact h.1
  · intro segment hs
    rw [hbelow] at hs
    exact h.2.2 segment (List.mem_of_mem_take hs)

theorem slashedChars_eq_self {path : List Char} (h : '\\' ∉ path) : slashedChars path = path := by
  refine (List.map_congr_left fun c hc => ?_).trans (List.map_id _)
  refine if_neg fun heq => h ?_
  rwa [← heq]

theorem slashed_of_normal {path : String} (h : IsNormal path) : slashed path = path := by
  rw [slashed, slashedChars_eq_self h.2.1, String.ofList_toList]

end Segments

section Climb

private theorem dropEndWhile_slash {lead last : List Char} (hne : last ≠ []) (hlast : '/' ∉ last) :
    dropEndWhile (· = '/') (lead ++ last) = lead ++ last := by
  refine dropEndWhile_eq_self fun c hc => decide_eq_false ?_
  rintro rfl
  rw [List.getLast?_append_of_ne_nil _ hne] at hc
  exact hlast (List.mem_of_getLast? hc)

private theorem parentSlashed_append {lead last : List Char} (hne : last ≠ []) (hlast : '/' ∉ last)
    (hroot : (rootChars (lead ++ '/' :: last)).length ≤ lead.length + 1) :
    parentSlashed (lead ++ '/' :: last) =
      if lead.length + 1 ≤ (rootChars (lead ++ '/' :: last)).length
      then rootChars (lead ++ '/' :: last) else lead := by
  have htrim : dropEndWhile (· = '/') (lead ++ '/' :: last) = lead ++ '/' :: last := by
    rw [List.append_cons]
    exact dropEndWhile_slash hne hlast
  have hkept : dropEndWhile (· ≠ '/') (lead ++ '/' :: last) = lead ++ ['/'] := by
    rw [List.append_cons]
    have hall : ∀ c ∈ last, decide (c ≠ '/') = true := by
      intro c hc
      exact decide_eq_true fun heq => hlast (heq ▸ hc)
    rw [dropEndWhile_append_of_forall hall]
    exact dropEndWhile_concat rfl
  have hlong : ¬(lead ++ '/' :: last).length ≤ (rootChars (lead ++ '/' :: last)).length := by
    have := List.length_pos_iff.mpr hne
    rw [List.length_append, List.length_cons]
    omega
  simp only [parentSlashed, htrim, hkept, if_neg hlong]
  rw [if_neg (by simp), List.length_append, List.length_singleton, List.dropLast_concat]

/-- The parent of a normal path has the same segments but the last. A root is its own parent. -/
theorem parent_eq_ancestorAt {path : String} (h : IsNormal path) :
    parent path = ancestorAt path ((segments path.toList).length - 1) := by
  rw [parent, parentChars, slashedChars_eq_self h.2.1, ancestorAt]
  refine congrArg String.ofList ?_
  have hpath := root_append_segments path.toList
  rcases List.eq_nil_or_concat (segments path.toList) with hnil | ⟨init, last, hlast⟩
  · rw [hnil] at hpath ⊢
    rw [joinWith, List.intercalate_nil, List.append_nil] at hpath
    rw [List.take_nil, joinWith, List.intercalate_nil, List.append_nil]
    obtain ⟨tail, htail, -⟩ := exists_dropEndWhile_append (· = '/') path.toList
    refine if_pos ?_
    have hlength := congrArg List.length htail
    rw [List.length_append] at hlength
    rw [hpath]
    omega
  · rw [List.concat_eq_append] at hlast
    have hroot := openRoot_of_segments h (by simp [hlast])
    obtain ⟨hne, hslash⟩ := mem_segments h (show last ∈ _ by simp [hlast])
    have htake : (init ++ [last]).take ((init ++ [last]).length - 1) = init := by simp
    rw [hlast] at hpath ⊢
    rw [htake]
    by_cases hinit : init = []
    · obtain ⟨lead, hlead⟩ := List.getLast?_eq_some_iff.mp hroot.getLast?
      have hsplit : path.toList = lead ++ '/' :: last := by
        rw [← hpath, hlead, hinit, List.nil_append, joinWith_singleton, ← List.append_cons]
      have hlength : (rootChars path.toList).length = lead.length + 1 := by simp [hlead]
      rw [hsplit] at hlength ⊢
      rw [parentSlashed_append hne hslash (Nat.le_of_eq hlength),
        if_pos (Nat.le_of_eq hlength.symm), hinit, joinWith, List.intercalate_nil,
        List.append_nil]
    · have hsplit : path.toList =
          (rootChars path.toList ++ joinWith '/' init) ++ '/' :: last := by
        rw [List.append_assoc, ← joinWith_concat hinit, hpath]
      have hlength : (rootChars path.toList).length ≤
          (rootChars path.toList ++ joinWith '/' init).length := by simp
      generalize rootChars path.toList ++ joinWith '/' init = lead at hsplit hlength ⊢
      rw [hsplit] at hlength ⊢
      rw [parentSlashed_append hne hslash (by omega), if_neg (by omega)]

theorem ancestorAt_ancestorAt {path : String} (h : IsNormal path) {near far : Nat}
    (hle : far ≤ near) : ancestorAt (ancestorAt path near) far = ancestorAt path far := by
  obtain ⟨hroot, hbelow, -⟩ := ancestorAt_normal h near
  rw [ancestorAt, hroot, hbelow, List.take_take, Nat.min_eq_left hle, ancestorAt]

private theorem length_ancestorAt_lt {path : String} (h : IsNormal path) {depth : Nat}
    (hlt : depth < (segments path.toList).length) : (ancestorAt path depth).length < path.length := by
  refine Nat.lt_of_not_le fun hle => ?_
  have heq := (ancestorAt_prefix_self path depth).eq_of_length_le hle
  have hbelow := (ancestorAt_normal h depth).2.1
  rw [heq] at hbelow
  have := congrArg List.length hbelow
  rw [List.length_take] at this
  omega

/-- From a normal path the climb takes away one segment after the other. -/
theorem ancestors_eq {path : String} (h : IsNormal path) :
    ancestors path =
      (List.range ((segments path.toList).length + 1)).reverse.map (ancestorAt path) := by
  induction hn : (segments path.toList).length generalizing path with
  | zero =>
    have hself := ancestorAt_length path
    rw [hn] at hself
    rw [ancestors, parent_eq_ancestorAt h, hn, Nat.zero_sub, hself, if_neg (Nat.lt_irrefl _)]
    simp [hself]
  | succ n ih =>
    have hself := ancestorAt_length path
    rw [hn] at hself
    obtain ⟨-, hbelow, hnormal⟩ := ancestorAt_normal h n
    have hlength : (segments (ancestorAt path n).toList).length = n := by
      rw [hbelow, List.length_take, hn]
      omega
    rw [ancestors, parent_eq_ancestorAt h, hn, Nat.add_sub_cancel,
      if_pos (length_ancestorAt_lt h (by omega)), ih hnormal hlength,
      List.range_succ (n := n + 1), List.reverse_append, List.reverse_singleton,
      List.singleton_append, List.map_cons, hself]
    refine congrArg (List.cons path) (List.map_congr_left fun k hk => ancestorAt_ancestorAt h ?_)
    rw [List.mem_reverse, List.mem_range] at hk
    omega

theorem isAncestor_iff {dir below : String} (h : IsNormal below) :
    IsAncestor dir below ↔
      ∃ depth ≤ (segments below.toList).length, dir = ancestorAt below depth := by
  constructor
  · rintro ⟨-, hroot, hsegments⟩
    refine ⟨(segments dir.toList).length, hsegments.length_le, ?_⟩
    rw [ancestorAt, ← List.prefix_iff_eq_take.mp hsegments, ← hroot, root_append_segments,
      String.ofList_toList]
  · rintro ⟨depth, -, rfl⟩
    obtain ⟨hroot, hbelow, hnormal⟩ := ancestorAt_normal h depth
    refine ⟨hnormal, hroot, ?_⟩
    rw [hbelow]
    exact List.take_prefix _ _

theorem mem_ancestors_iff {dir below : String} (h : IsNormal below) :
    dir ∈ ancestors below ↔ IsAncestor dir below := by
  rw [ancestors_eq h, isAncestor_iff h, List.mem_map]
  constructor
  · rintro ⟨depth, hdepth, rfl⟩
    rw [List.mem_reverse, List.mem_range] at hdepth
    exact ⟨depth, by omega, rfl⟩
  · rintro ⟨depth, hdepth, rfl⟩
    exact ⟨depth, by simp; omega, rfl⟩

theorem isAncestor_ancestorAt {path : String} (h : IsNormal path) {near far : Nat} (hlt : far < near)
    (hle : near ≤ (segments path.toList).length) :
    IsAncestor (ancestorAt path far) (ancestorAt path near) ∧ ancestorAt path far ≠ ancestorAt path near := by
  obtain ⟨-, hbelow, hnormal⟩ := ancestorAt_normal h near
  obtain ⟨-, hbelow', -⟩ := ancestorAt_normal h far
  refine ⟨(isAncestor_iff hnormal).mpr ⟨far, ?_, (ancestorAt_ancestorAt h (Nat.le_of_lt hlt)).symm⟩, ?_⟩
  · rw [hbelow, List.length_take]
    omega
  · intro heq
    rw [heq, hbelow] at hbelow'
    have := congrArg List.length hbelow'
    rw [List.length_take, List.length_take] at this
    omega

theorem pairwise_ancestors {path : String} (h : IsNormal path) :
    (ancestors path).Pairwise fun near far => IsAncestor far near ∧ far ≠ near := by
  rw [ancestors_eq h, List.pairwise_map, List.pairwise_reverse]
  refine (List.pairwise_lt_range (n := _)).imp_of_mem fun {far near} hfar hnear hlt => ?_
  rw [List.mem_range] at hnear
  exact isAncestor_ancestorAt h hlt (by omega)

/-- What stands before a directory in the climb lies in it, and what stands after it holds it. -/
theorem mem_split_ancestors {start dir other : String} {before farther : List String}
    (h : IsNormal start) (hsplit : ancestors start = before ++ dir :: farther) :
    (other ∈ before ↔ IsAncestor other start ∧ IsAncestor dir other ∧ dir ≠ other) ∧
      (other ∈ dir :: farther → IsAncestor other dir) := by
  have hmem (path : String) : path ∈ ancestors start ↔ _ := mem_ancestors_iff h
  have horder := pairwise_ancestors h
  rw [hsplit] at horder
  obtain ⟨-, hafter, hcross⟩ := List.pairwise_append.mp horder
  have hfarther : other ∈ dir :: farther → IsAncestor other dir := by
    intro hlater
    rcases List.mem_cons.mp hlater with rfl | hlater
    · exact ⟨((hmem other).mp (by simp [hsplit])).1, rfl, List.prefix_refl _⟩
    · exact (List.rel_of_pairwise_cons hafter hlater).1
  refine ⟨⟨fun hbefore => ?_, ?_⟩, hfarther⟩
  · exact ⟨(hmem other).mp (by simp [hsplit, hbefore]), hcross other hbefore dir List.mem_cons_self⟩
  · rintro ⟨hstart, hnearer, hne⟩
    have hmember := (hmem other).mpr hstart
    rw [hsplit] at hmember
    rcases List.mem_append.mp hmember with hbefore | hlater
    · exact hbefore
    · exact absurd (hnearer.antisymm (hfarther hlater)) hne

/-- The nearest of the directories from `start` up to its root that satisfy `p`. -/
structure IsNearest (p : String → Prop) (start dir : String) : Prop where
  above : IsAncestor dir start
  holds : p dir
  nearest : ∀ other, IsAncestor other start → p other → IsAncestor other dir

theorem IsNearest.not_nearer {p : String → Prop} {start dir nearer : String}
    (h : IsNearest p start dir) (hstart : IsAncestor nearer start) (hnearer : IsAncestor dir nearer)
    (hne : dir ≠ nearer) : ¬p nearer :=
  fun hp => hne (hnearer.antisymm (h.nearest nearer hstart hp))

/-- The climb gets to the nearest directory first. -/
theorem findSome?_ancestors_eq_some_iff {α : Type} {f : String → Option α} {start : String} {a : α}
    (h : IsNormal start) : (ancestors start).findSome? f = some a ↔
      ∃ dir, IsNearest (fun dir => (f dir).isSome = true) start dir ∧ f dir = some a := by
  rw [List.findSome?_eq_some_iff]
  constructor
  · rintro ⟨before, dir, farther, hsplit, hdir, hbefore⟩
    refine ⟨dir, ⟨(mem_ancestors_iff h).mp (by simp [hsplit]), by simp [hdir], ?_⟩, hdir⟩
    intro other hother hsome
    have hmember := (mem_ancestors_iff h).mpr hother
    rw [hsplit] at hmember
    rcases List.mem_append.mp hmember with hmem | hlater
    · rw [hbefore other hmem] at hsome
      cases hsome
    · exact (mem_split_ancestors h hsplit).2 hlater
  · rintro ⟨dir, hnearest, hdir⟩
    obtain ⟨before, farther, hsplit⟩ :=
      List.append_of_mem ((mem_ancestors_iff h).mpr hnearest.above)
    refine ⟨before, dir, farther, hsplit, hdir, fun other hmem => ?_⟩
    obtain ⟨hother, hnearer, hne⟩ := (mem_split_ancestors h hsplit).1.mp hmem
    exact Option.not_isSome_iff_eq_none.mp (hnearest.not_nearer hother hnearer hne)

theorem exists_isNearest {α : Type} {f : String → Option α} {start dir : String} (h : IsNormal start)
    (hdir : IsAncestor dir start) (hsome : (f dir).isSome = true) :
    ∃ nearest a, IsNearest (fun dir => (f dir).isSome = true) start nearest ∧ f nearest = some a := by
  have hfound : ((ancestors start).findSome? f).isSome = true :=
    List.findSome?_isSome_iff.mpr ⟨dir, (mem_ancestors_iff h).mpr hdir, hsome⟩
  obtain ⟨a, ha⟩ := Option.isSome_iff_exists.mp hfound
  obtain ⟨nearest, hnearest, hfa⟩ := (findSome?_ancestors_eq_some_iff h).mp ha
  exact ⟨nearest, a, hnearest, hfa⟩

/-- Below its root, a normal path is some text and a last segment. -/
theorem exists_last_segment {path : String} (h : IsNormal path)
    (hne : segments path.toList ≠ []) :
    ∃ lead last, path.toList = (rootChars path.toList ++ lead) ++ last ∧ last ≠ [] ∧ '/' ∉ last := by
  obtain ⟨init, last, hlast⟩ := (List.eq_nil_or_concat (segments path.toList)).resolve_left hne
  rw [List.concat_eq_append] at hlast
  have hpath := root_append_segments path.toList
  rw [hlast] at hpath
  refine ⟨?_, last, ?_, mem_segments h (show last ∈ _ by simp [hlast])⟩
  · exact if init = [] then [] else joinWith '/' init ++ ['/']
  · split
    · rename_i hinit
      rw [hinit, List.nil_append, joinWith_singleton] at hpath
      rw [List.append_nil, hpath]
    · rename_i hinit
      rw [joinWith_concat hinit, List.append_cons] at hpath
      rw [List.append_assoc, hpath]

theorem getLast?_ne_of_segments {path : String} (h : IsNormal path)
    (hne : segments path.toList ≠ []) : path.toList.getLast? ≠ some '/' := by
  obtain ⟨lead, last, hpath, hlast, hslash⟩ := exists_last_segment h hne
  intro heq
  rw [hpath, List.getLast?_append_of_ne_nil _ hlast] at heq
  exact hslash (List.mem_of_getLast? heq)

theorem isRoot_eq_false {path : String} (h : IsNormal path) (hne : segments path.toList ≠ []) :
    isRoot path = false := by
  obtain ⟨lead, last, hpath, hlast, hslash⟩ := exists_last_segment h hne
  have hlong : ¬path.toList.length ≤ (rootChars path.toList).length := by
    have := congrArg List.length hpath
    have := List.length_pos_iff.mpr hlast
    simp only [List.length_append] at *
    omega
  have htrim : dropEndWhile (· = '/') path.toList = path.toList := by
    rw [hpath]
    exact dropEndWhile_slash hlast hslash
  rw [isRoot, isRootChars, slashedChars_eq_self h.2.1, htrim, decide_eq_false hlong, Bool.and_false]

end Climb
end Tsconfig.Path
