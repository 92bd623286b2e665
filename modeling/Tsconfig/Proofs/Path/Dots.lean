import Tsconfig.Proofs.Path.Resolution

/-! A path that still holds a single dot as a segment is not in normal form. What is behind the last
slash is the name of a path, and bounds its extension. -/
namespace Tsconfig.Path
open Text

section Dots
variable {lead rest : List Char}

/-- A dot between two slashes is no part of a root, unless the root is the server of that name. -/
theorem rootChars_prefix_of_dot (hlead : lead ≠ ['/']) :
    rootChars (lead ++ '/' :: '.' :: '/' :: rest) <+: lead ++ ['/'] := by
  generalize hpath : lead ++ '/' :: '.' :: '/' :: rest = path
  fun_cases rootChars path
  case case1 below =>
    -- The name of the server goes up to a slash, and this is the one before the dot at the latest.
    obtain ⟨inner, rfl⟩ : ∃ inner, lead = '/' :: '/' :: inner := by
      rcases lead with _ | ⟨c, _ | ⟨d, inner⟩⟩ <;> simp_all
    have hbelow : inner ++ '/' :: '.' :: '/' :: rest = below := by simpa using hpath
    have hmem : '/' ∈ below := hbelow ▸ List.mem_append_cons_self
    have hname := notMem_takeWhile_slash below
    have hsplit := List.takeWhile_append_dropWhile (p := (· ≠ '/')) (l := below)
    rcases dropWhile_notSlash below with hdrop | ⟨tail, hdrop⟩
    · rw [hdrop, List.append_nil] at hsplit
      exact absurd hmem (hsplit ▸ hname)
    · rw [hdrop] at hsplit
      have hinner : inner ++ ['/'] <+: below.takeWhile (· ≠ '/') ++ '/' :: tail :=
        ⟨'.' :: '/' :: rest, by rw [hsplit, ← hbelow, List.append_assoc, List.singleton_append]⟩
      rw [hdrop, List.take_succ_cons, List.take_zero, List.cons_append, List.cons_append,
        List.prefix_cons_inj, List.prefix_cons_inj]
      rcases concat_prefix_cases hname hinner with heq | hshort
      · exact heq ▸ List.prefix_refl _
      · exact hshort.trans (List.prefix_append _ _)
  case case2 below _ =>
    cases lead with
    | nil => exact List.prefix_refl _
    | cons c lead =>
      obtain ⟨rfl, -⟩ := List.cons_eq_cons.mp hpath
      exact ⟨lead ++ ['/'], rfl⟩
  case case3 =>
    have hlength := congrArg List.length hpath
    simp only [List.length_append, List.length_cons, List.length_nil] at hlength
    omega
  case case5 =>
    rcases lead with _ | ⟨c, _ | ⟨d, _ | ⟨e, inner⟩⟩⟩ <;> simp_all
  all_goals exact List.nil_prefix

theorem not_isNormal_of_dot {path : String} (hpath : path.toList = lead ++ '/' :: '.' :: '/' :: rest)
    (hlead : lead ≠ ['/']) : ¬IsNormal path := by
  rintro ⟨-, -, hproper⟩
  have hroot : rootChars (lead ++ '/' :: '.' :: '/' :: rest) <+: lead ++ ['/'] :=
    rootChars_prefix_of_dot hlead
  rw [← hpath] at hroot
  obtain ⟨mid, hmid⟩ := hroot
  have hdrop : path.toList.drop (rootChars path.toList).length = mid ++ '.' :: '/' :: rest := by
    have hsplit : path.toList = rootChars path.toList ++ (mid ++ '.' :: '/' :: rest) := by
      rw [← List.append_assoc, hmid, hpath, List.append_assoc, List.singleton_append]
    conv => lhs; rw [hsplit]
    exact List.drop_left' (by rw [← hsplit])
  have hdot : ['.'] ∈ splitOn '/' (mid ++ '.' :: '/' :: rest) := by
    have hhead : ['.'] ∈ splitOn '/' ('.' :: '/' :: rest) :=
      (splitOn_append (by decide : '/' ∉ ['.']) rest) ▸ List.mem_cons_self
    rcases List.eq_nil_or_concat mid with rfl | ⟨inner, c, rfl⟩
    · exact hhead
    · rw [List.concat_eq_append] at hmid ⊢
      rw [← List.append_assoc] at hmid
      obtain ⟨-, hlast⟩ := List.append_inj' hmid rfl
      rw [hlast, List.append_assoc, List.singleton_append, splitOn_append_cons]
      exact List.mem_append_right _ hhead
  refine hproper ['.'] ?_ (by decide)
  rw [segments, hdrop, if_neg (by simp)]
  exact hdot

end Dots

section Names

theorem baseNameChars_append {lead tail : List Char} (hne : tail ≠ [])
    (htail : ∀ c ∈ tail, isSeparator c = false) :
    baseNameChars (lead ++ tail) = takeEndWhile (fun c => !isSeparator c) lead ++ tail := by
  have hlast : ∀ c, (lead ++ tail).getLast? = some c → isSeparator c = false := by
    intro c hc
    rw [List.getLast?_append_of_ne_nil _ hne] at hc
    exact htail c (List.mem_of_getLast? hc)
  rw [baseNameChars, dropEndWhile_eq_self hlast, takeEndWhile, List.reverse_append,
    List.takeWhile_append_of_pos, List.reverse_append, List.reverse_reverse, takeEndWhile]
  intro c hc
  rw [htail c (List.mem_reverse.mp hc)]
  rfl

theorem baseName_join {name : String} (hne : name ≠ "")
    (hname : name.toList.all (!isSeparator ·) = true) (folder : String) :
    baseName (join folder name) = name := by
  rw [ne_eq, ← String.toList_eq_nil_iff] at hne
  simp only [List.all_eq_true, Bool.not_eq_true'] at hname
  have hnil : takeEndWhile (fun c => !isSeparator c) [] = [] := rfl
  rw [baseName, join, String.toList_ofList]
  by_cases hfolder : folder.toList = []
  · rw [hfolder, joinChars, if_pos rfl, ← List.nil_append name.toList,
      baseNameChars_append hne hname, hnil, List.nil_append, String.ofList_toList]
  · obtain ⟨lead, -, hjoin⟩ := exists_joinChars_eq hfolder
    rw [hjoin _ hne, List.append_cons, baseNameChars_append hne hname,
      takeEndWhile_append_cons (by decide), hnil, List.nil_append, String.ofList_toList]

/-- Which slashes separate makes no difference to the last segment. -/
theorem baseName_slashed (path : String) : baseName (slashed path) = baseName path := by
  have hsame : ∀ c, isSeparator (if c = '\\' then '/' else c) = isSeparator c := by
    intro c
    split
    · rename_i hc
      rw [hc]
      rfl
    · rfl
  rw [baseName, baseName, slashed, String.toList_ofList, slashedChars]
  refine congrArg String.ofList ?_
  simp only [baseNameChars, dropEndWhile, takeEndWhile, ← List.map_reverse, List.dropWhile_map,
    List.takeWhile_map, Function.comp_def, hsame]
  refine (List.map_congr_left fun c hc => ?_).trans (List.map_id _)
  have hname := List.all_eq_true.mp List.all_takeWhile c (List.mem_reverse.mp hc)
  refine if_neg fun hback => ?_
  rw [hback] at hname
  cases hname

end Names

section Extensions

theorem extensionOfName_suffix (name : List Char) : extensionOfName name <:+ name := by
  unfold extensionOfName
  dsimp only
  split
  · rename_i declaration hfind
    have hends := List.find?_some hfind
    rw [Bool.and_eq_true, List.isSuffixOf_iff_suffix] at hends
    exact hends.2
  · split
    · exact List.nil_suffix
    · rename_i hlong
      have hsplit := dropEndWhile_append_takeEndWhile (· ≠ '.') name
      rcases List.eq_nil_or_concat (dropEndWhile (· ≠ '.') name) with hnil | ⟨lead, c, hlead⟩
      · rw [hnil] at hlong
        exact absurd (Nat.zero_le 1) hlong
      · rw [List.concat_eq_append] at hlead
        obtain rfl : c = '.' := by
          simpa using getLast?_dropEndWhile (p := (· ≠ '.')) (hlead ▸ List.getLast?_concat)
        rw [hlead, List.append_assoc, List.singleton_append] at hsplit
        exact ⟨lead, hsplit⟩

theorem length_extensionOfName_le (name : List Char) :
    (extensionOfName name).length ≤ name.length :=
  (extensionOfName_suffix name).length_le

/-- Without a separator at its end, a path ends in its extension. -/
theorem extension_suffix {path : String}
    (h : ∀ c, path.toList.getLast? = some c → isSeparator c = false) :
    (extension path).toList <:+ path.toList := by
  rw [extension, String.toList_ofList]
  refine (extensionOfName_suffix _).trans ?_
  rw [baseNameChars, dropEndWhile_eq_self h]
  exact ⟨_, dropEndWhile_append_takeEndWhile _ _⟩

/-- Two extensions of which neither ends in the other are not mistaken for each other when one is put
behind a path. -/
theorem extension_append_ne {behind other : String}
    (hlast : behind.toList.getLast?.any (!isSeparator ·) = true)
    (hlong : ¬other.toList <:+ behind.toList) (hshort : ¬behind.toList <:+ other.toList)
    (path : String) : extension (path ++ behind) ≠ other := by
  obtain ⟨last, hlast, hname⟩ := (Option.any_eq_true _ _).mp hlast
  have hends : (extension (path ++ behind)).toList <:+ (path ++ behind).toList := by
    refine extension_suffix fun c hc => ?_
    rw [String.toList_append, List.getLast?_append, hlast, Option.some_or] at hc
    cases hc
    simpa using hname
  rintro rfl
  rw [String.toList_append] at hends
  exact (List.suffix_or_suffix_of_suffix hends (List.suffix_append _ _)).elim hlong hshort

/-- The extension lies behind the last slash. -/
theorem length_extension_le {below : List Char} {last : Char} (hlast : below.getLast? = some last)
    (hname : isSeparator last = false) :
    (extension (String.ofList (lead ++ '/' :: below))).length ≤ below.length := by
  have hself : dropEndWhile isSeparator (lead ++ '/' :: below) = lead ++ '/' :: below := by
    refine dropEndWhile_eq_self fun c hc => ?_
    rw [List.getLast?_append, List.getLast?_cons, hlast] at hc
    cases hc
    exact hname
  rw [extension, ← String.length_toList, String.toList_ofList, String.toList_ofList]
  refine (length_extensionOfName_le _).trans ?_
  rw [baseNameChars, hself, takeEndWhile_append_cons (by decide)]
  exact length_takeEndWhile_le below

end Extensions
end Tsconfig.Path
