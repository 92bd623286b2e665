import Tsconfig.Proofs.Path.Resolution

/-!
What lies in a directory begins with the path of the directory and one slash. Two slashes in a row
stand only at the start of a path in normal form.
-/
namespace Tsconfig.Path
open Text

/-- What all paths in a directory begin with. The directory without a name is the one that relative
paths start from. -/
def opening (dir : String) : List Char :=
  if dir = "" ∨ dir.toList.getLast? = some '/' then dir.toList else dir.toList ++ ['/']

/-- Whether a path lies in a directory, at any depth. -/
def LiesBelow (dir path : String) : Prop := opening dir <+: path.toList

instance (dir path : String) : Decidable (LiesBelow dir path) :=
  inferInstanceAs (Decidable (_ <+: _))

section Opening
variable {dir : String}

theorem opening_of_getLast? (h : dir.toList.getLast? = some '/') : opening dir = dir.toList :=
  if_pos (.inr h)

theorem opening_of_getLast?_ne (hne : dir ≠ "") (h : dir.toList.getLast? ≠ some '/') :
    opening dir = dir.toList ++ ['/'] :=
  if_neg (not_or.mpr ⟨hne, h⟩)

/-- What is joined to a directory stands behind its opening. -/
theorem toList_join (dir : String) {inner : String} (h : inner ≠ "") :
    (join dir inner).toList = opening dir ++ inner.toList := by
  have hinner : inner.toList ≠ [] := mt String.toList_eq_nil_iff.mp h
  rw [join, String.toList_ofList, joinChars, opening]
  split_ifs <;> simp_all

theorem toList_prefix_opening (dir : String) : dir.toList <+: opening dir := by
  rw [opening]
  split
  · exact List.prefix_refl _
  · exact List.prefix_append _ _

theorem opening_eq_nil_or_concat (dir : String) :
    opening dir = [] ∨ ∃ lead, opening dir = lead ++ ['/'] := by
  rw [opening]
  split
  · rename_i hdir
    rcases hdir with rfl | hlast
    · exact .inl rfl
    · exact .inr (List.getLast?_eq_some_iff.mp hlast)
  · exact .inr ⟨_, rfl⟩

/-- Behind the opening of a directory a new segment begins. -/
theorem splitOn_opening_append (dir : String) (inner : List Char) :
    splitOn '/' (opening dir ++ inner) =
      (splitOn '/' (opening dir)).dropLast ++ splitOn '/' inner := by
  rcases opening_eq_nil_or_concat dir with hnil | ⟨lead, hlead⟩
  · rw [hnil]
    rfl
  · have hopening : splitOn '/' (lead ++ ['/']) = splitOn '/' lead ++ [[]] :=
      splitOn_append_cons lead []
    rw [hlead, List.append_assoc, List.singleton_append, splitOn_append_cons, hopening,
      List.dropLast_concat]

end Opening

section DoubleSlash
variable {lead rest : List Char}

/-- A root holds two slashes in a row at its start, and again only where the server has no name. -/
theorem eq_of_rootChars_slashes {path : List Char}
    (h : rootChars path = lead ++ '/' :: '/' :: rest) : lead = [] ∨ lead = ['/'] := by
  revert h
  fun_cases rootChars path
  case case1 below =>
    intro h
    rcases lead with _ | ⟨_, _ | ⟨_, inner⟩⟩
    · exact .inl rfl
    · obtain ⟨rfl, -⟩ := List.cons.inj h
      exact .inr rfl
    -- Behind its first two slashes, a root has one slash at most.
    have htail := (List.cons.inj (List.cons.inj h).2).2
    have hname : (below.takeWhile (· ≠ '/')).count '/' = 0 :=
      List.count_eq_zero.mpr (notMem_takeWhile_slash below)
    have hend : ((below.dropWhile (· ≠ '/')).take 1).count '/' ≤ 1 :=
      List.count_le_length.trans (List.length_take_le 1 _)
    have hcount := congrArg (List.count '/') htail
    have htwo : (inner ++ '/' :: '/' :: rest).count '/' = inner.count '/' + rest.count '/' + 2 := by
      rw [List.count_append, List.count_cons_self, List.count_cons_self]
      omega
    rw [List.count_append, hname] at hcount
    have := hcount.trans htwo
    omega
  case case5 =>
    intro h
    rcases lead with _ | ⟨_, _ | ⟨_, inner⟩⟩
    · exact .inl rfl
    · simp at h
    · have hlength := congrArg List.length h
      simp only [List.length_append, List.length_cons, List.length_nil] at hlength
      omega
  all_goals
    intro h
    have hlength := congrArg List.length h
    simp only [List.length_append, List.length_cons, List.length_nil] at hlength
    exact .inl (List.eq_nil_of_length_eq_zero (by omega))

/-- Behind the root of a normal path no slash follows another. -/
theorem eq_of_slashes {path : String} (h : IsNormal path)
    (hpath : path.toList = lead ++ '/' :: '/' :: rest) : lead = [] ∨ lead = ['/'] := by
  have hproper (segment : List Char) (hmem : segment ∈ segments path.toList) :=
    mem_segments h hmem
  have hhead := head?_joinWith_ne hproper
  have hsplit := (root_append_segments path.toList).trans hpath
  rcases List.append_eq_append_iff.mp hsplit with ⟨mid, hlead, hbelow⟩ | ⟨mid, hroot, hbelow⟩
  · have hne : segments path.toList ≠ [] := by
      intro hnil
      simp [hnil, joinWith] at hbelow
    have hpieces := splitOn_joinWith hne fun segment hmem => (hproper segment hmem).2
    rw [hbelow, splitOn_append_cons] at hpieces
    have hempty : [] ∈ segments path.toList := by
      rw [← hpieces]
      simp [splitOn]
    exact absurd rfl (hproper [] hempty).1
  · rcases mid with _ | ⟨c, _ | ⟨d, mid⟩⟩
    · exact absurd (congrArg List.head? hbelow.symm) hhead
    · obtain ⟨rfl, htail⟩ := List.cons.inj hbelow
      exact absurd (congrArg List.head? htail.symm) hhead
    · obtain ⟨rfl, htail⟩ := List.cons.inj hbelow
      obtain ⟨rfl, -⟩ := List.cons.inj htail
      exact eq_of_rootChars_slashes hroot

end DoubleSlash
end Tsconfig.Path
