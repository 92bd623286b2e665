import Tsconfig.Proofs.Path.Places

/-!
Resolution step by step. What is joined behind a path depends only on the place that the path means, so that
the dots of the one step can be worked off before those of the next.
-/
namespace Tsconfig.Path
open Text

section Behind
variable {path below : List Char}

/-- Behind a slash a path goes on from the place that it means. -/
theorem place_append_slash (h : rootChars (path ++ '/' :: below) = rootChars path) :
    place (path ++ '/' :: below) =
      ⟨rootChars path, (splitOn '/' below).foldl follow (place path).names⟩ := by
  rw [place, h, List.drop_append_of_le_length (rootChars_prefix_self path).length_le, splitOn_append_cons,
    List.foldl_append]
  rfl

/-- A slash that ends a path says nothing more. -/
theorem place_append (hlast : path.getLast? = some '/') (h : rootChars (path ++ below) = rootChars path) :
    place (path ++ below) =
      ⟨rootChars path, (splitOn '/' below).foldl follow (place path).names⟩ := by
  have hfollow (names : List (List Char)) : follow names [] = names := if_pos (.inl rfl)
  rw [place, h, List.drop_append_of_le_length (rootChars_prefix_self path).length_le, place]
  rcases List.eq_nil_or_concat (path.drop (rootChars path).length) with hnil | ⟨lead, c, hlead⟩
  · rw [hnil, List.nil_append, splitOn, List.foldl_cons, List.foldl_nil, hfollow]
  · rw [List.concat_eq_append] at hlead
    have hsplit := rootChars_append_drop path
    rw [hlead, ← List.append_assoc] at hsplit
    rw [← hsplit, List.getLast?_concat] at hlast
    obtain rfl := Option.some.inj hlast
    rw [hlead, List.append_assoc, List.singleton_append, splitOn_append_cons, splitOn_append_cons,
      List.foldl_append, List.foldl_append, splitOn, List.foldl_cons, List.foldl_nil, hfollow]

end Behind

section Joined
variable {path other below : List Char}

/-- Only two slashes alone are a root that ends in a slash and is not all of it. -/
theorem openRoot_of_slash (hroot : rootChars path ≠ []) (hlast : path.getLast? = some '/')
    (hne : path ≠ ['/', '/']) : OpenRoot (rootChars path) := by
  have hpath : path ≠ [] := by
    rintro rfl
    exact hroot rfl
  by_cases hself : path = rootChars path
  · obtain ⟨root, hopen, hjoin⟩ :=
      (exists_openRoot hroot hself (List.cons_ne_nil 'a' [])).resolve_left hne
    rw [joinChars_of_slash hpath (List.cons_ne_nil _ _) hlast] at hjoin
    rw [← hself, List.append_cancel_right hjoin]
    exact hopen
  · exact openRoot_rootChars hroot hself

theorem place_joinChars (hroot : OpenRoot (rootChars path)) (hne : below ≠ [])
    (hhead : below.head? ≠ some '/') : place (joinChars path below) =
      ⟨rootChars path, (splitOn '/' below).foldl follow (place path).names⟩ := by
  have hnil : rootChars path ≠ [] := by
    intro hnil
    have hlast := hroot.getLast?
    rw [hnil] at hlast
    cases hlast
  have hpath : path ≠ [] := by
    rintro rfl
    exact hnil rfl
  rw [joinChars, if_neg hpath, if_neg hne]
  split
  · rename_i hlast
    apply place_append hlast
    by_cases hself : path = rootChars path
    · have hkeep := rootChars_append hroot hhead
      rwa [← hself] at hkeep ⊢
    · exact rootChars_append_of_longer hnil hself below
  · rename_i hlast
    apply place_append_slash
    apply rootChars_append_of_longer hnil
    intro hself
    rw [hself] at hlast
    exact hlast hroot.getLast?

/-- What is joined behind two spellings of one place means one place. -/
theorem place_joinChars_congr (hroot : rootChars path ≠ []) (h : place path = place other)
    (hhead : below.head? ≠ some '/') : place (joinChars path below) = place (joinChars other below) := by
  have hroots : rootChars path = rootChars other := congrArg Place.root h
  by_cases hbelow : below = []
  · rw [hbelow, joinChars_nil, joinChars_nil, h]
  by_cases hopen : OpenRoot (rootChars path)
  · rw [place_joinChars hopen hbelow hhead, place_joinChars (hroots ▸ hopen) hbelow hhead, h, hroots]
  · -- a root that nothing can follow is all of either path
    have hself : path = rootChars path := by
      by_contra hlonger
      exact hopen (openRoot_rootChars hroot hlonger)
    have hother : other = rootChars other := by
      by_contra hlonger
      exact hopen (hroots ▸ openRoot_rootChars (hroots ▸ hroot) hlonger)
    rw [hself, hroots, ← hother]

end Joined

section Relative
variable {base first second lead : List Char}

/-- Nothing gets into the root of a path that a relative one is joined to, if that ends in a slash. -/
theorem rootChars_joinChars_append (hroot : rootChars base ≠ []) (hhead : first.head? ≠ some '/')
    (hlast : first.getLast? = some '/') (rest : List Char) :
    rootChars (joinChars base first ++ rest) = rootChars (joinChars base first) := by
  have hbase : base ≠ [] := by
    rintro rfl
    exact hroot rfl
  have hroot' : rootChars (joinChars base first) ≠ [] := by
    intro hnil
    have hprefix := rootChars_prefix_joinChars hroot hhead
    rw [hnil] at hprefix
    exact hroot (List.prefix_nil.mp hprefix)
  by_cases hself : joinChars base first = rootChars (joinChars base first)
  · obtain ⟨c, tail, rfl⟩ : ∃ c tail, first = c :: tail := by
      apply List.exists_cons_of_ne_nil
      rintro rfl
      cases hlast
    have hmem : c ∈ joinChars base (c :: tail) := by
      obtain ⟨slash, hjoin⟩ := exists_joinChars_append hbase (c :: tail)
      simp [hjoin]
    have hname {root : List Char} (hslashes : ∀ c ∈ root, c = '/') :
        joinChars base (c :: tail) ≠ root := by
      intro heq
      exact hhead (congrArg some (hslashes c (heq ▸ hmem)))
    have hopen := openRoot_of_slash hroot' ((getLast?_joinChars base (by simp)).trans hlast)
      (hname (by simp))
    have hkeep := rootChars_append_of_ne hopen (hself ▸ hname (by simp)) rest
    rwa [← hself] at hkeep ⊢
  · exact rootChars_append_of_longer hroot' hself rest

/-- A slash is put behind a backslash, too. The two of them mean no more than one. -/
theorem place_joinChars_slashed (hroot : rootChars base ≠ [])
    (hhead : (slashedChars first).head? ≠ some '/') (second : List Char) :
    place (joinChars base (slashedChars (joinChars first second))) =
      place (joinChars base (joinChars (slashedChars first) (slashedChars second))) := by
  have hbase : base ≠ [] := by
    rintro rfl
    exact hroot rfl
  by_cases hfirst : first = []
  · rw [hfirst]
    rfl
  by_cases hsecond : second = []
  · have hslashed : slashedChars [] = [] := rfl
    rw [hsecond, hslashed, joinChars_nil, joinChars_nil]
  have hnil : slashedChars first ≠ [] := by simpa [slashedChars] using hfirst
  have hnil' : slashedChars second ≠ [] := by simpa [slashedChars] using hsecond
  have hbehind : slashedChars (joinChars first second) =
      if first.getLast? = some '/' then slashedChars first ++ slashedChars second
      else slashedChars first ++ '/' :: slashedChars second := by
    rw [joinChars, if_neg hfirst, if_neg hsecond]
    split <;> simp [slashedChars]
  rw [hbehind, joinChars.eq_1 (slashedChars first), if_neg hnil, if_neg hnil']
  by_cases hlast : (slashedChars first).getLast? = some '/'
  · rw [if_pos hlast]
    split
    · rfl
    · have hkeep := rootChars_joinChars_append hroot hhead hlast
      rw [joinChars_append hbase hnil, joinChars_append hbase hnil, place_append_slash (hkeep _),
        place_append ((getLast?_joinChars base hnil).trans hlast) (hkeep _)]
  · have hslash : first.getLast? ≠ some '/' := by
      intro hslash
      rw [slashedChars, List.getLast?_map, hslash] at hlast
      exact hlast rfl
    rw [if_neg hlast, if_neg hslash]

end Relative

section Rootless

theorem rootChars_eq_nil_iff {c : Char} {path : List Char} : rootChars (c :: path) = [] ↔
    c ≠ '/' ∧ (c.isAlpha = true → path ≠ [':'] ∧ ∀ tail, path ≠ ':' :: '/' :: tail) := by
  generalize hwhole : c :: path = whole
  fun_cases rootChars whole
  case case7 hslash hdrive hbelow =>
    subst hwhole
    refine iff_of_true rfl ⟨?_, fun _ => ⟨?_, ?_⟩⟩
    · rintro rfl
      exact hslash path rfl
    · rintro rfl
      exact hdrive c rfl
    · rintro tail rfl
      exact hbelow c tail rfl
  all_goals
    simp_all

theorem rootChars_append_eq_nil {lead : List Char} (h : rootChars (lead ++ ['/']) = [])
    (rest : List Char) : rootChars (lead ++ '/' :: rest) = [] := by
  rcases lead with _ | ⟨c, _ | ⟨d, _ | ⟨e, lead⟩⟩⟩
  · cases h
  all_goals
    simp only [List.cons_append, List.nil_append, rootChars_eq_nil_iff] at h ⊢
    grind

theorem rootChars_slash_eq_nil {lead : List Char} (hne : lead ≠ []) (h : rootChars lead = []) :
    rootChars (lead ++ ['/']) = [] := by
  rcases lead with _ | ⟨c, _ | ⟨d, _ | ⟨e, lead⟩⟩⟩
  · exact absurd rfl hne
  all_goals
    simp only [List.cons_append, List.nil_append, rootChars_eq_nil_iff] at h ⊢
    grind

end Rootless

section Composed
variable {base first second : String}

/-- Relative paths that are joined are relative. -/
theorem isAbsolute_join_eq_false (hfirst : isAbsolute first = false)
    (hsecond : isAbsolute second = false) : isAbsolute (join first second) = false := by
  by_cases hnil : first.toList = []
  · rwa [join, joinChars, if_pos hnil, String.ofList_toList]
  by_cases hnil' : second.toList = []
  · rwa [join, joinChars, if_neg hnil, if_pos hnil', String.ofList_toList]
  rw [isAbsolute, isAbsoluteChars, decide_eq_false_iff_not, not_not] at hfirst ⊢
  obtain ⟨lead, hlead, hjoin⟩ := exists_joinChars_eq hnil
  rw [join, String.toList_ofList, hjoin _ hnil', slashedChars, List.map_append, List.map_cons]
  apply rootChars_append_eq_nil
  rcases hlead with hlead | hlead
  · rw [hlead] at hfirst hnil
    exact rootChars_slash_eq_nil (by simpa using hnil) hfirst
  · rw [hlead, slashedChars, List.map_append] at hfirst
    exact hfirst

end Composed

/-- Resolving one relative path after another is resolving both at once. -/
theorem resolve_resolve {base first second : String} (h : isAbsolute base = true)
    (hfirst : isAbsolute first = false) (hsecond : isAbsolute second = false) :
    resolve (resolve base first) second = resolve base (join first second) := by
  have hnormal : IsNormal (resolve base first) := isNormal_resolve (.inl h)
  have hslashed : IsSlashed (resolve base first) := hnormal.2.1
  have hroot := isAbsolute_iff.mp h
  have hboth := isAbsolute_join_eq_false hfirst hsecond
  have hplace := place_resolve h first
  rw [resolve_eq_iff (isAbsolute_of_normal hnormal) h]
  rw [spelled, if_neg (by simp [hfirst])] at hplace
  rw [spelled, spelled, if_neg (by simp [hsecond]), if_neg (by simp [hboth]), hslashed.slashed_eq]
  simp only [join, slashed, String.toList_ofList] at hplace ⊢
  calc place (joinChars (resolve base first).toList (slashedChars second.toList))
    _ = place (joinChars (joinChars (slashedChars base.toList) (slashedChars first.toList))
          (slashedChars second.toList)) :=
        place_joinChars_congr hnormal.1 hplace (head?_slashedChars_ne hsecond)
    _ = place (joinChars (slashedChars base.toList)
          (joinChars (slashedChars first.toList) (slashedChars second.toList))) := by
        rw [joinChars_assoc]
    _ = place (joinChars (slashedChars base.toList)
          (slashedChars (joinChars first.toList second.toList))) :=
        (place_joinChars_slashed hroot (head?_slashedChars_ne hfirst) _).symm

/-- The dots climb over the share of a server, out of a path that ends in a backslash. -/
theorem resolve_resolve_server :
    isAbsolute "//s" = true ∧ isAbsolute "x\\" = false ∧ isAbsolute "../..\\y" = false ∧
    resolve (resolve "//s" "x\\") "../..\\y" = resolve "//s" (join "x\\" "../..\\y") := by
  have hbase : isAbsolute "//s" = true := by decide +kernel
  have hfirst : isAbsolute "x\\" = false := by decide +kernel
  have hsecond : isAbsolute "../..\\y" = false := by decide +kernel
  exact ⟨hbase, hfirst, hsecond, resolve_resolve hbase hfirst hsecond⟩

end Tsconfig.Path
