import Tsconfig.Proofs.Path.Normal

/-! Paths without backslashes. Resolving and taking the parent bring a path to slashes, whatever it
was; joining keeps the texts as they are. -/
namespace Tsconfig.Path
open Text

/-- Written with slashes only. -/
def IsSlashed (path : String) : Prop := '\\' ∉ path.toList

instance (path : String) : Decidable (IsSlashed path) := inferInstanceAs (Decidable (_ ∉ _))

theorem notMem_slashedChars (path : List Char) : '\\' ∉ slashedChars path := by
  intro hmem
  obtain ⟨c, -, hc⟩ := List.mem_map.mp hmem
  split at hc
  · exact absurd hc (by decide)
  · contradiction

theorem isSlashed_slashed (path : String) : IsSlashed (slashed path) := by
  rw [IsSlashed, slashed, String.toList_ofList]
  exact notMem_slashedChars _

theorem IsSlashed.slashed_eq {path : String} (h : IsSlashed path) : slashed path = path := by
  rw [slashed, slashedChars_eq_self h, String.ofList_toList]

/-- Of the spellings of a normal path, only the one with slashes is normal itself. -/
theorem isNormal_iff_isSlashed {path : String} (h : IsNormal (slashed path)) :
    IsNormal path ↔ IsSlashed path := by
  refine ⟨fun hnormal => hnormal.2.1, fun hslashed => ?_⟩
  rwa [hslashed.slashed_eq] at h

section Joining
variable {base segment : List Char}

theorem joinChars_of_slash (hbase : base ≠ []) (hsegment : segment ≠ [])
    (hslash : base.getLast? = some '/') : joinChars base segment = base ++ segment := by
  rw [joinChars, if_neg hbase, if_neg hsegment, if_pos hslash]

theorem joinChars_of_ne_slash (hbase : base ≠ []) (hsegment : segment ≠ [])
    (hslash : base.getLast? ≠ some '/') : joinChars base segment = base ++ '/' :: segment := by
  rw [joinChars, if_neg hbase, if_neg hsegment, if_neg hslash]

end Joining

/-- Joining goes on behind the slash that ends a path, or behind a new one. -/
theorem exists_joinChars_eq {base : List Char} (hne : base ≠ []) :
    ∃ lead, (base = lead ∨ base = lead ++ ['/']) ∧
      ∀ segment, segment ≠ [] → joinChars base segment = lead ++ '/' :: segment := by
  by_cases hslash : base.getLast? = some '/'
  · obtain ⟨lead, hlead⟩ := List.getLast?_eq_some_iff.mp hslash
    refine ⟨lead, .inr hlead, fun segment hsegment => ?_⟩
    rw [joinChars_of_slash hne hsegment hslash, hlead, List.append_assoc, List.singleton_append]
  · exact ⟨base, .inl rfl, fun segment hsegment => joinChars_of_ne_slash hne hsegment hslash⟩

theorem joinChars_ne_nil (a : List Char) {b : List Char} (hb : b ≠ []) : joinChars a b ≠ [] := by
  rw [joinChars, if_neg hb]
  split
  · exact hb
  · split <;> simp [hb]

theorem getLast?_joinChars (a : List Char) {b : List Char} (hb : b ≠ []) :
    (joinChars a b).getLast? = b.getLast? := by
  rw [joinChars, if_neg hb]
  obtain ⟨init, last, rfl⟩ := (List.eq_nil_or_concat b).resolve_left hb
  rw [List.concat_eq_append, ← List.append_assoc, ← List.cons_append, ← List.append_assoc]
  repeat' split
  all_goals simp only [List.getLast?_concat]

theorem joinChars_assoc (a b c : List Char) :
    joinChars (joinChars a b) c = joinChars a (joinChars b c) := by
  by_cases ha : a = []
  · simp [joinChars, ha]
  by_cases hb : b = []
  · simp [joinChars, ha, hb]
  by_cases hc : c = []
  · simp only [hc, joinChars.eq_1 _ [], if_true]
    split <;> simp_all
  rw [joinChars.eq_1 (joinChars a b), if_neg (joinChars_ne_nil a hb), if_neg hc,
    getLast?_joinChars a hb, joinChars.eq_1 a (joinChars b c), if_neg ha,
    if_neg (joinChars_ne_nil b hc), joinChars.eq_1 a b, if_neg ha, if_neg hb, joinChars, if_neg hb,
    if_neg hc]
  by_cases hslash : a.getLast? = some '/' <;> by_cases hslash' : b.getLast? = some '/' <;>
    simp [hslash, hslash']

theorem join_assoc (a b c : String) : join (join a b) c = join a (join b c) := by
  simp only [join, String.toList_ofList, joinChars_assoc]

theorem joinChars_nil (a : List Char) : joinChars a [] = a := by
  rw [joinChars]
  split
  · rename_i ha
    exact ha.symm
  · rw [if_pos rfl]

theorem joinChars_append {a b : List Char} (ha : a ≠ []) (hb : b ≠ []) (c : List Char) :
    joinChars a (b ++ c) = joinChars a b ++ c := by
  have hboth : b ++ c ≠ [] := by simp [hb]
  rw [joinChars, joinChars, if_neg ha, if_neg ha, if_neg hb, if_neg hboth]
  split <;> simp

theorem exists_joinChars_append {a : List Char} (h : a ≠ []) (b : List Char) :
    ∃ slash, joinChars a b = a ++ (slash ++ b) := by
  rw [joinChars, if_neg h]
  split
  · rename_i hb
    exact ⟨[], by simp [hb]⟩
  split
  · exact ⟨[], rfl⟩
  · exact ⟨['/'], rfl⟩

theorem prefix_joinChars {a : List Char} (h : a ≠ []) (b : List Char) : a <+: joinChars a b := by
  obtain ⟨slash, hjoin⟩ := exists_joinChars_append h b
  exact ⟨_, hjoin.symm⟩

theorem exists_length_join (base segment : String) :
    ∃ slash ≤ 1, (join base segment).length = base.length + slash + segment.length := by
  simp only [← String.length_toList, join, String.toList_ofList, joinChars]
  repeat' split
  · rename_i hbase
    exact ⟨0, by omega, by simp [hbase]⟩
  · rename_i hsegment
    exact ⟨0, by omega, by simp [hsegment]⟩
  · exact ⟨0, by omega, by simp⟩
  · exact ⟨1, by omega, by simp; omega⟩

section Kept

theorem IsSlashed.append {path tail : String} (h : IsSlashed path) (htail : IsSlashed tail) :
    IsSlashed (path ++ tail) := by
  rw [IsSlashed, String.toList_append, List.mem_append]
  exact fun hmem => hmem.elim h htail

theorem IsSlashed.join {base segment : String} (h : IsSlashed base) (hsegment : IsSlashed segment) :
    IsSlashed (join base segment) := by
  rw [IsSlashed, Path.join, String.toList_ofList]
  unfold joinChars
  split
  · exact hsegment
  split
  · exact h
  split
  · exact fun hmem => (List.mem_append.mp hmem).elim h hsegment
  · intro hmem
    rcases List.mem_append.mp hmem with hbase | hrest
    · exact h hbase
    · exact hsegment ((List.mem_cons.mp hrest).resolve_left (by decide))

theorem IsSlashed.dropExtension {path : String} (h : IsSlashed path) :
    IsSlashed (dropExtension path) := by
  rw [IsSlashed, Path.dropExtension, String.toList_ofList]
  exact fun hmem => h (List.mem_of_mem_take hmem)

end Kept

section Resolved

private theorem pushSegment_subset (rooted : Bool) (stack : List (List Char)) (segment : List Char) :
    pushSegment rooted stack segment ⊆ segment :: stack := by
  unfold pushSegment
  grind

theorem foldl_pushSegment_subset (rooted : Bool) (stack pieces : List (List Char)) :
    pieces.foldl (pushSegment rooted) stack ⊆ pieces ++ stack := by
  induction pieces generalizing stack with
  | nil => exact List.Subset.refl _
  | cons first rest ih =>
    intro segment hmem
    rcases List.mem_append.mp (ih _ hmem) with hrest | hpushed
    · simp [hrest]
    · have hstack := pushSegment_subset rooted stack first hpushed
      grind

theorem notMem_collapseChars {path : List Char} (h : '\\' ∉ path) : '\\' ∉ collapseChars path := by
  have hparts := rootChars_append_drop path
  have hroot : '\\' ∉ rootChars path := fun hmem => h (hparts ▸ List.mem_append_left _ hmem)
  have hbelow : '\\' ∉ joinWith '/' (collapseSegments (rootChars path ≠ [])
      (path.drop (rootChars path).length)) := by
    intro hmem
    rcases mem_joinWith hmem with hslash | ⟨segment, hsegment, hc⟩
    · exact absurd hslash (by decide)
    · have hpiece := foldl_pushSegment_subset _ _ _ (List.mem_reverse.mp hsegment)
      rw [List.append_nil] at hpiece
      exact h (List.mem_of_mem_drop (mem_of_mem_splitOn hpiece hc))
  unfold collapseChars
  dsimp only
  split
  · decide
  · exact fun hmem => (List.mem_append.mp hmem).elim hroot hbelow

theorem isSlashed_resolve (base relative : String) : IsSlashed (resolve base relative) := by
  rw [IsSlashed, resolve, String.toList_ofList]
  refine notMem_collapseChars ?_
  split
  · exact notMem_slashedChars _
  · have hjoin := (isSlashed_slashed base).join (isSlashed_slashed relative)
    rwa [IsSlashed, join, slashed, slashed, String.toList_ofList, String.toList_ofList,
      String.toList_ofList] at hjoin

end Resolved

section Above

theorem isSlashed_parent (path : String) : IsSlashed (parent path) := by
  rw [IsSlashed, parent, parentChars, String.toList_ofList]
  have hpath := notMem_slashedChars path.toList
  generalize slashedChars path.toList = chars at hpath
  have hroot : '\\' ∉ rootChars chars := by
    intro hmem
    exact hpath (rootChars_append_drop chars ▸ List.mem_append_left _ hmem)
  have hkept : '\\' ∉ dropEndWhile (· ≠ '/') (dropEndWhile (· = '/') chars) := by
    intro hmem
    exact hpath ((dropEndWhile_prefix_self _ _).subset ((dropEndWhile_prefix_self _ _).subset hmem))
  unfold parentSlashed
  dsimp only
  split
  · exact hroot
  split
  · exact List.not_mem_nil
  split
  · exact hroot
  · exact fun hmem => hkept (List.dropLast_subset _ hmem)

theorem isSlashed_of_mem_ancestors {dir above : String} (h : IsSlashed dir)
    (habove : above ∈ ancestors dir) : IsSlashed above := by
  induction dir using ancestors.induct with
  | case1 dir hshorter ih =>
    rw [ancestors, if_pos hshorter] at habove
    rcases List.mem_cons.mp habove with rfl | habove
    · exact h
    · exact ih (isSlashed_parent dir) habove
  | case2 dir hroot =>
    rw [ancestors, if_neg hroot, List.mem_singleton] at habove
    exact habove ▸ h

end Above
end Tsconfig.Path
