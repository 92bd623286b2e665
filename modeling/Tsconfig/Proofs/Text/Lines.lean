import Tsconfig.Proofs.Text.Pieces

/-! Lines of a text, the white space around them and the first place of a word in them. -/
namespace Tsconfig.Text

section Lines
variable {line : List Char}

theorem lines_append (h : '\n' ∉ line) (rest : List Char) :
    lines (line ++ '\n' :: rest) = dropReturn line :: lines rest := by
  have hne := splitOn_ne_nil '\n' rest
  rw [lines, lines, splitOn_append h]
  revert hne
  cases splitOn '\n' rest with
  | nil => exact fun hne => absurd rfl hne
  | cons piece pieces =>
    intro _
    rw [List.getLast?_cons_cons, List.dropLast_cons_cons, List.map_cons]
    split <;> simp_all

theorem lines_of_notMem (h : '\n' ∉ line) (hne : line ≠ []) : lines line = [line] := by
  rw [lines, splitOn_of_notMem h]
  cases line with
  | nil => exact absurd rfl hne
  | cons c line => rfl

end Lines

section Margins
variable {lead tail text : List Char} {c : Char}

theorem trimStart_cons (h : isBlank c = false) (rest : List Char) : trimStart (c :: rest) = c :: rest :=
  List.dropWhile_cons_of_neg (by simp [h])

/-- Behind what is left when the white space in front is cut off, a text starts as it did. -/
theorem trimStart_append_cons (h : isBlank c = false) (text rest : List Char) :
    trimStart (text ++ c :: rest) = trimStart text ++ c :: rest := by
  rw [trimStart, List.dropWhile_append]
  split
  · rename_i hnil
    rw [← trimStart, trimStart_cons h, trimStart, List.isEmpty_iff.mp hnil, List.nil_append]
  · rfl

theorem trimStart_append_of_eq_cons {tail : List Char} (h : trimStart text = c :: tail)
    (rest : List Char) : trimStart (text ++ rest) = c :: (tail ++ rest) := by
  rw [trimStart] at h
  rw [trimStart, List.dropWhile_append, h]
  rfl

theorem trimStart_append (h : ∀ c ∈ lead, isBlank c = true) (text : List Char) :
    trimStart (lead ++ text) = trimStart text :=
  List.dropWhile_append_of_pos h

theorem trimEnd_append (h : ∀ c ∈ tail, isBlank c = true) (text : List Char) :
    trimEnd (text ++ tail) = trimEnd text :=
  dropEndWhile_append_of_forall h

/-- White space around a text is cut off. -/
theorem trim_margins (hlead : ∀ c ∈ lead, isBlank c = true) (htail : ∀ c ∈ tail, isBlank c = true)
    (text : List Char) : trim (lead ++ (text ++ tail)) = trim text := by
  rw [trim, trimStart_append hlead, trim]
  induction text with
  | nil =>
    have hnone : trimStart (tail ++ []) = trimStart [] := trimStart_append htail []
    rw [List.append_nil] at hnone
    rw [List.nil_append, hnone]
  | cons c text ih =>
    cases hc : isBlank c with
    | true =>
      have hskip (rest : List Char) : trimStart (c :: rest) = trimStart rest :=
        List.dropWhile_cons_of_pos hc
      rw [List.cons_append, hskip, hskip, ih]
    | false =>
      rw [List.cons_append, trimStart_cons hc, trimStart_cons hc, ← List.cons_append,
        trimEnd_append htail]

theorem trim_cons (h : isBlank c = false) (text : List Char) : trim (c :: text) = c :: trimEnd text := by
  have hlast : ∀ d, [c].getLast? = some d → isBlank d = false := by simpa using h
  rw [trim, trimStart_cons h]
  exact dropEndWhile_append hlast text

theorem trim_dropReturn (line : List Char) : trim (dropReturn line) = trim line := by
  rw [dropReturn]
  split
  · rename_i hlast
    obtain ⟨body, rfl⟩ := List.getLast?_eq_some_iff.mp hlast
    have hreturn : ∀ c ∈ ['\r'], isBlank c = true := List.all_eq_true.mp (by decide)
    have hnone : ∀ c ∈ ([] : List Char), isBlank c = true := nofun
    rw [List.dropLast_concat]
    exact (trim_margins hnone hreturn body).symm
  · rfl

end Margins

section Words
variable {word text before after : List Char}

/-- What is behind the first place of a word makes no difference to it. -/
theorem cutAt?_append (h : cutAt? word text = some (before, after)) (more : List Char) :
    cutAt? word (text ++ more) = some (before, after ++ more) := by
  induction text generalizing before with
  | nil =>
    have hsplit := eq_append_of_cutAt? h
    obtain rfl : word = [] :=
      (List.append_eq_nil_iff.mp (List.append_eq_nil_iff.mp hsplit.symm).1).2
    rw [cutAt?, if_pos rfl] at h
    obtain ⟨rfl, rfl⟩ := Prod.mk.inj (Option.some.inj h)
    cases more <;> rfl
  | cons c rest ih =>
    rw [List.cons_append, cutAt?]
    rw [cutAt?] at h
    split at h
    · rename_i tail hstrip
      obtain ⟨rfl, rfl⟩ := Prod.mk.inj (Option.some.inj h)
      rw [stripStart?_eq_some_iff] at hstrip
      have hmore : stripStart? word (c :: (rest ++ more)) = some (tail ++ more) := by
        rw [stripStart?_eq_some_iff, ← List.cons_append, hstrip, List.append_assoc]
      rw [hmore]
    · rename_i hstrip
      obtain ⟨⟨lead, tail⟩, hcut, heq⟩ := Option.map_eq_some_iff.mp h
      obtain ⟨rfl, rfl⟩ := Prod.mk.inj heq
      -- the word is found further on, so that it would end within the text here too
      have hmore : stripStart? word (c :: (rest ++ more)) = none := by
        rw [Option.eq_none_iff_forall_not_mem]
        intro tail' htail'
        have hsplit := stripStart?_eq_some_iff.mp htail'
        have hlength := congrArg List.length (eq_append_of_cutAt? hcut)
        rw [List.length_append, List.length_append] at hlength
        have hword : word <+: c :: rest ++ more := ⟨tail', hsplit.symm⟩
        have hshort : word.length ≤ (c :: rest).length := by
          rw [List.length_cons]
          omega
        obtain ⟨tail'', htail''⟩ :=
          List.prefix_of_prefix_length_le hword (List.prefix_append (c :: rest) more) hshort
        rw [stripStart?_eq_some_iff.mpr htail''.symm] at hstrip
        cases hstrip
      rw [hmore, ih hcut]
      rfl

/-- Wherever a word stands, it is found. -/
theorem contains_of_eq_append (before word after : List Char) :
    contains word (before ++ (word ++ after)) = true := by
  induction before with
  | nil =>
    have hcut : cutAt? word (word ++ after) = some ([], after) := by
      cases word with
      | nil => cases after <;> rfl
      | cons c word => rw [List.cons_append, cutAt?, ← List.cons_append,
          stripStart?_eq_some_iff.mpr rfl]
    rw [List.nil_append, contains, hcut]
    rfl
  | cons c before ih =>
    rw [contains] at ih ⊢
    rw [List.cons_append, cutAt?]
    split
    · rfl
    · rw [Option.isSome_map, ih]

/-- A word is cut out at its first place. -/
theorem length_le_of_cutAt? (h : cutAt? word text = some (before, after)) {other behind : List Char}
    (heq : text = other ++ (word ++ behind)) : before.length ≤ other.length := by
  induction text generalizing before other with
  | nil =>
    have hnil := eq_append_of_cutAt? h
    have hlength := congrArg List.length hnil
    simp at hlength
    omega
  | cons c text ih =>
    rw [cutAt?] at h
    split at h
    · obtain ⟨rfl, -⟩ := Prod.mk.inj (Option.some.inj h)
      exact Nat.zero_le _
    · rename_i hstrip
      obtain ⟨⟨lead, tail⟩, hcut, hpair⟩ := Option.map_eq_some_iff.mp h
      obtain ⟨rfl, rfl⟩ := Prod.mk.inj hpair
      cases other with
      | nil =>
        rw [List.nil_append] at heq
        rw [stripStart?_eq_some_iff.mpr heq] at hstrip
        cases hstrip
      | cons d other =>
        exact Nat.succ_le_succ (ih hcut (List.cons.inj heq).2)

theorem contains_append (h : contains word text = true) (more : List Char) :
    contains word (text ++ more) = true := by
  obtain ⟨⟨before, after⟩, hcut⟩ := Option.isSome_iff_exists.mp h
  rw [contains, cutAt?_append hcut]
  rfl

end Words
end Tsconfig.Text
