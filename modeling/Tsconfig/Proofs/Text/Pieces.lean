import Tsconfig.Text.Blank
import Tsconfig.Text.Cut

/-! Pieces between separators and ends cut off a text, each undone by the other direction. -/
namespace Tsconfig.Text
variable {separator : Char}

theorem splitOn_of_notMem {piece : List Char} (h : separator ∉ piece) :
    splitOn separator piece = [piece] := by
  induction piece with
  | nil => rfl
  | cons c piece ih =>
    obtain ⟨hc, hpiece⟩ := List.ne_and_not_mem_of_not_mem_cons h
    rw [splitOn, if_neg (Ne.symm hc), ih hpiece]

theorem splitOn_append {piece : List Char} (h : separator ∉ piece) (rest : List Char) :
    splitOn separator (piece ++ separator :: rest) = piece :: splitOn separator rest := by
  induction piece with
  | nil => simp [splitOn]
  | cons c piece ih =>
    obtain ⟨hc, hpiece⟩ := List.ne_and_not_mem_of_not_mem_cons h
    rw [List.cons_append, splitOn, if_neg (Ne.symm hc), ih hpiece]

/-- A separator cuts a text wherever it stands. -/
theorem splitOn_append_cons (lead rest : List Char) :
    splitOn separator (lead ++ separator :: rest) =
      splitOn separator lead ++ splitOn separator rest := by
  induction lead with
  | nil => simp [splitOn]
  | cons c lead ih =>
    obtain ⟨piece, pieces, hsplit⟩ := List.exists_cons_of_ne_nil (splitOn_ne_nil separator lead)
    rw [hsplit] at ih
    rw [List.cons_append, splitOn, splitOn, ih, hsplit]
    split <;> rfl

theorem notMem_of_mem_splitOn {text piece : List Char} (h : piece ∈ splitOn separator text) :
    separator ∉ piece := by
  induction text generalizing piece with
  | nil =>
    rw [splitOn, List.mem_singleton] at h
    simp [h]
  | cons c text ih =>
    rw [splitOn] at h
    split at h
    · rcases List.mem_cons.mp h with rfl | h
      · exact List.not_mem_nil
      · exact ih h
    · rename_i hc
      split at h
      · rename_i hnil
        exact absurd hnil (splitOn_ne_nil separator text)
      · rename_i first pieces hsplit
        rw [hsplit] at ih
        rcases List.mem_cons.mp h with rfl | h
        · exact List.not_mem_cons_of_ne_of_not_mem (Ne.symm hc) (ih List.mem_cons_self)
        · exact ih (List.mem_cons_of_mem _ h)

theorem joinWith_singleton (piece : List Char) : joinWith separator [piece] = piece := by
  simp [joinWith, List.intercalate]

theorem joinWith_cons (piece : List Char) {pieces : List (List Char)} (h : pieces ≠ []) :
    joinWith separator (piece :: pieces) = piece ++ separator :: joinWith separator pieces := by
  obtain ⟨first, rest, rfl⟩ := List.exists_cons_of_ne_nil h
  simp [joinWith, List.intercalate]

theorem joinWith_append {pieces rest : List (List Char)} (h : pieces ≠ []) (hrest : rest ≠ []) :
    joinWith separator (pieces ++ rest) =
      joinWith separator pieces ++ separator :: joinWith separator rest := by
  induction pieces with
  | nil => exact absurd rfl h
  | cons first pieces ih =>
    by_cases hpieces : pieces = []
    · subst hpieces
      rw [List.singleton_append, joinWith_cons first hrest, joinWith_singleton]
    · rw [List.cons_append, joinWith_cons first (by simp [hrest]), ih hpieces,
        joinWith_cons first hpieces, List.append_assoc, List.cons_append]

theorem joinWith_concat {pieces : List (List Char)} (h : pieces ≠ []) (piece : List Char) :
    joinWith separator (pieces ++ [piece]) = joinWith separator pieces ++ separator :: piece := by
  rw [joinWith_append h (List.cons_ne_nil piece []), joinWith_singleton]

theorem mem_joinWith {pieces : List (List Char)} {c : Char} (h : c ∈ joinWith separator pieces) :
    c = separator ∨ ∃ piece ∈ pieces, c ∈ piece := by
  induction pieces with
  | nil => cases h
  | cons first rest ih =>
    by_cases hrest : rest = []
    · rw [hrest, joinWith_singleton] at h
      exact .inr ⟨first, List.mem_cons_self, h⟩
    · rw [joinWith_cons first hrest, List.mem_append, List.mem_cons] at h
      rcases h with hfirst | hsep | hrest
      · exact .inr ⟨first, List.mem_cons_self, hfirst⟩
      · exact .inl hsep
      · rcases ih hrest with hsep | ⟨piece, hpiece, hc⟩
        · exact .inl hsep
        · exact .inr ⟨piece, List.mem_cons_of_mem _ hpiece, hc⟩

theorem mem_joinWith_of_mem {pieces : List (List Char)} {piece : List Char} (h : piece ∈ pieces)
    {c : Char} (hc : c ∈ piece) : c ∈ joinWith separator pieces := by
  induction pieces with
  | nil => cases h
  | cons first rest ih =>
    by_cases hrest : rest = []
    · subst hrest
      rw [joinWith_singleton, ← List.mem_singleton.mp h]
      exact hc
    · rw [joinWith_cons first hrest, List.mem_append, List.mem_cons]
      rcases List.mem_cons.mp h with rfl | h
      · exact .inl hc
      · exact .inr (.inr (ih h))

theorem mem_of_mem_splitOn {text piece : List Char} (h : piece ∈ splitOn separator text) {c : Char}
    (hc : c ∈ piece) : c ∈ text := by
  rw [← joinWith_splitOn separator text]
  exact mem_joinWith_of_mem h hc

theorem splitOn_joinWith {pieces : List (List Char)} (hne : pieces ≠ [])
    (h : ∀ piece ∈ pieces, separator ∉ piece) :
    splitOn separator (joinWith separator pieces) = pieces := by
  induction pieces with
  | nil => exact absurd rfl hne
  | cons first rest ih =>
    obtain ⟨hfirst, hrest⟩ := List.forall_mem_cons.mp h
    by_cases hnil : rest = []
    · subst hnil
      rw [joinWith_singleton, splitOn_of_notMem hfirst]
    · rw [joinWith_cons first hnil, splitOn_append hfirst, ih hnil hrest]

theorem joinWith_eq_nil_iff (separator : Char) {pieces : List (List Char)}
    (h : ∀ piece ∈ pieces, piece ≠ []) :
    joinWith separator pieces = [] ↔ pieces = [] := by
  constructor
  · intro hjoin
    cases pieces with
    | nil => rfl
    | cons first rest =>
      have hfirst : first ≠ [] := h first List.mem_cons_self
      by_cases hrest : rest = []
      · rw [hrest, joinWith_singleton] at hjoin
        exact absurd hjoin hfirst
      · simp [joinWith_cons first hrest] at hjoin
  · rintro rfl
    rfl

theorem joinWith_append_prefix (separator : Char) (pieces rest : List (List Char)) :
    joinWith separator pieces <+: joinWith separator (pieces ++ rest) := by
  by_cases hpieces : pieces = []
  · rw [hpieces]
    exact List.nil_prefix
  by_cases hrest : rest = []
  · exact ⟨[], by rw [hrest, List.append_nil, List.append_nil]⟩
  · rw [joinWith_append hpieces hrest]
    exact List.prefix_append _ _

/-- Of two pieces that end at separators of one text, the first is the other or ends before it. -/
theorem concat_prefix_cases {first other rest : List Char} (hfirst : separator ∉ first)
    (h : other ++ [separator] <+: first ++ separator :: rest) :
    other = first ∨ first ++ [separator] <+: other := by
  have hlead : first ++ [separator] <+: first ++ separator :: rest := by simp
  rcases List.prefix_or_prefix_of_prefix h hlead with hshort | hlong
  · rcases List.prefix_concat_iff.mp hshort with heq | hinside
    · exact .inl (List.append_cancel_right heq)
    · exact absurd (hinside.subset (by simp)) hfirst
  · rcases List.prefix_concat_iff.mp hlong with heq | hinside
    · exact .inl (List.append_cancel_right heq).symm
    · exact .inr hinside

section Ends
variable {p : Char → Bool}

theorem dropEndWhile_append_of_forall {text tail : List Char} (h : ∀ c ∈ tail, p c = true) :
    dropEndWhile p (text ++ tail) = dropEndWhile p text := by
  rw [dropEndWhile, List.reverse_append,
    List.dropWhile_append_of_pos fun c hc => h c (List.mem_reverse.mp hc), dropEndWhile]

theorem dropEndWhile_concat {text : List Char} {c : Char} (h : p c = false) :
    dropEndWhile p (text ++ [c]) = text ++ [c] := by
  simp [dropEndWhile, h]

theorem dropEndWhile_eq_self {text : List Char} (h : ∀ c, text.getLast? = some c → p c = false) :
    dropEndWhile p text = text := by
  rcases List.eq_nil_or_concat text with rfl | ⟨text, c, rfl⟩
  · rfl
  · rw [List.concat_eq_append] at h ⊢
    exact dropEndWhile_concat (h c (by simp))

theorem getLast?_dropEndWhile {text : List Char} {c : Char}
    (h : (dropEndWhile p text).getLast? = some c) : p c = false := by
  rw [dropEndWhile, List.getLast?_reverse] at h
  have := List.head?_dropWhile_not p text.reverse
  rw [h] at this
  exact this

theorem exists_dropEndWhile_append (p : Char → Bool) (text : List Char) :
    ∃ tail, text = dropEndWhile p text ++ tail ∧ ∀ c ∈ tail, p c = true := by
  refine ⟨takeEndWhile p text, (dropEndWhile_append_takeEndWhile p text).symm, fun c hc => ?_⟩
  exact List.all_eq_true.mp List.all_takeWhile c (List.mem_reverse.mp hc)

theorem dropEndWhile_append {lead : List Char} (h : ∀ c, lead.getLast? = some c → p c = false)
    (text : List Char) : dropEndWhile p (lead ++ text) = lead ++ dropEndWhile p text := by
  obtain ⟨tail, htail, hall⟩ := exists_dropEndWhile_append p text
  conv => lhs; rw [htail, ← List.append_assoc, dropEndWhile_append_of_forall hall]
  refine dropEndWhile_eq_self fun c hc => ?_
  rw [List.getLast?_append] at hc
  cases hlast : (dropEndWhile p text).getLast? with
  | none =>
    rw [hlast, Option.none_or] at hc
    exact h c hc
  | some d =>
    rw [hlast, Option.some_or] at hc
    exact getLast?_dropEndWhile (hlast.trans hc)

theorem takeEndWhile_append_cons {lead text : List Char} {c : Char} (h : p c = false) :
    takeEndWhile p (lead ++ c :: text) = takeEndWhile p text := by
  rw [takeEndWhile, takeEndWhile, List.reverse_append, List.reverse_cons, List.append_assoc,
    List.takeWhile_append]
  split
  · rename_i hall
    have hself := (List.takeWhile_prefix p).eq_of_length hall
    rw [List.singleton_append, List.takeWhile_cons_of_neg (by simp [h]), List.append_nil, hself]
  · rfl

theorem length_takeEndWhile_le (text : List Char) : (takeEndWhile p text).length ≤ text.length := by
  have hkept := (List.takeWhile_sublist p (l := text.reverse)).length_le
  rwa [List.length_reverse, ← List.length_reverse] at hkept

theorem dropEndWhile_prefix_self (p : Char → Bool) (text : List Char) : dropEndWhile p text <+: text := by
  obtain ⟨tail, htail, -⟩ := exists_dropEndWhile_append p text
  exact ⟨tail, htail.symm⟩

end Ends

section Trim

/-- Of the separators at the end of a text, one more is enough. -/
theorem dropEndWhile_concat_prefix_concat (separator : Char) (text : List Char) :
    dropEndWhile (· = separator) text ++ [separator] <+: text ++ [separator] := by
  obtain ⟨tail, htail, hall⟩ := exists_dropEndWhile_append (· = separator) text
  conv => rhs; rw [htail, List.append_assoc]
  rw [List.prefix_append_right_inj]
  cases tail with
  | nil => exact List.prefix_refl _
  | cons c tail =>
    obtain rfl : c = separator := of_decide_eq_true (hall c List.mem_cons_self)
    exact List.cons_prefix_cons.mpr ⟨rfl, List.nil_prefix⟩

/-- What ends in one separator is no longer than the trimmed text with one separator. -/
theorem concat_prefix_dropEndWhile {lead text : List Char}
    (hlast : ∀ c, lead.getLast? = some c → c ≠ separator)
    (h : lead ++ [separator] <+: text ++ [separator]) :
    lead ++ [separator] <+: dropEndWhile (· = separator) text ++ [separator] := by
  have htrim := dropEndWhile_concat_prefix_concat separator text
  rcases List.prefix_or_prefix_of_prefix h htrim with hshort | hlong
  · exact hshort
  rcases List.prefix_concat_iff.mp hlong with heq | ⟨more, rfl⟩
  · exact heq ▸ List.prefix_refl _
  rw [← List.append_cons] at h hlast
  have htext : dropEndWhile (· = separator) text ++ separator :: more <+: text := by
    rcases List.prefix_concat_iff.mp h with heq | hshort
    · exact ⟨[], by rw [List.append_nil, List.append_cancel_right heq]⟩
    · exact (List.prefix_append _ _).trans hshort
  obtain ⟨tail, htail, hall⟩ := exists_dropEndWhile_append (· = separator) text
  conv at htext => rhs; rw [htail]
  rw [List.prefix_append_right_inj] at htext
  obtain ⟨init, c, hc⟩ := (List.eq_nil_or_concat (separator :: more)).resolve_left (by simp)
  rw [List.concat_eq_append] at hc
  refine absurd ?_ (hlast c ?_)
  · exact of_decide_eq_true (hall c (htext.subset (by simp [hc])))
  · rw [hc, ← List.append_assoc, List.getLast?_concat]

end Trim
section Cut

theorem eq_append_of_stripStart? {lead text rest : List Char}
    (h : stripStart? lead text = some rest) : text = lead ++ rest := by
  fun_induction stripStart? lead text with
  | case1 text => exact Option.some.inj h
  | case2 => cases h
  | case3 c lead text ih => rw [ih h, List.cons_append]
  | case4 => cases h

theorem stripStart?_eq_some_iff {lead text rest : List Char} :
    stripStart? lead text = some rest ↔ text = lead ++ rest := by
  refine ⟨eq_append_of_stripStart?, ?_⟩
  rintro rfl
  induction lead with
  | nil => rfl
  | cons c lead ih => rw [List.cons_append, stripStart?, if_pos rfl, ih]

theorem stripEnd?_eq_some_iff {tail text rest : List Char} :
    stripEnd? tail text = some rest ↔ text = rest ++ tail := by
  rw [stripEnd?, Option.map_eq_some_iff]
  constructor
  · rintro ⟨start, hstart, rfl⟩
    rw [stripStart?_eq_some_iff] at hstart
    rw [← List.reverse_reverse text, hstart, List.reverse_append, List.reverse_reverse]
  · rintro rfl
    exact ⟨rest.reverse, stripStart?_eq_some_iff.mpr List.reverse_append, List.reverse_reverse rest⟩

theorem eq_append_of_cutAt? {word text before after : List Char}
    (h : cutAt? word text = some (before, after)) : text = before ++ word ++ after := by
  induction text generalizing before with
  | nil =>
    rw [cutAt?] at h
    split at h
    · rename_i hword
      cases h
      rw [hword]
      rfl
    · cases h
  | cons c rest ih =>
    rw [cutAt?] at h
    split at h
    · rename_i hstrip
      cases h
      exact eq_append_of_stripStart? hstrip
    · obtain ⟨cut, hcut, heq⟩ := Option.map_eq_some_iff.mp h
      cases heq
      rw [ih hcut, List.cons_append, List.cons_append]

/-- The cut at the first place of a character. -/
theorem cutAt?_singleton_eq_some_iff {c : Char} {text before after : List Char} :
    cutAt? [c] text = some (before, after) ↔ text = before ++ c :: after ∧ c ∉ before := by
  induction text generalizing before with
  | nil => simp [cutAt?]
  | cons d text ih =>
    rw [cutAt?]
    by_cases hd : c = d
    · subst hd
      have hstrip : stripStart? [c] (c :: text) = some text := by
        rw [stripStart?_eq_some_iff]
        rfl
      rw [hstrip]
      cases before with
      | nil => simp [eq_comm]
      | cons e before =>
        simp only [Option.some.injEq, Prod.mk.injEq, List.cons_append, List.cons.injEq,
          List.mem_cons, not_or]
        constructor
        · rintro ⟨hnil, -⟩
          cases hnil
        · rintro ⟨⟨rfl, -⟩, hne, -⟩
          exact absurd rfl hne
    · have hstrip : stripStart? [c] (d :: text) = none := by
        rw [stripStart?, if_neg hd]
      rw [hstrip]
      simp only [Option.map_eq_some_iff]
      constructor
      · rintro ⟨⟨lead, rest⟩, hcut, heq⟩
        obtain ⟨rfl, rfl⟩ := Prod.mk.inj heq
        obtain ⟨rfl, hlead⟩ := ih.mp hcut
        exact ⟨rfl, by simp [hd, hlead]⟩
      · rintro ⟨htext, hbefore⟩
        cases before with
        | nil => exact absurd (List.cons.inj htext).1.symm hd
        | cons e before =>
          obtain ⟨rfl, rfl⟩ := List.cons.inj htext
          rw [List.mem_cons, not_or] at hbefore
          exact ⟨(before, after), ih.mpr ⟨rfl, hbefore.2⟩, rfl⟩

theorem cutAt?_singleton_eq_none_iff {c : Char} {text : List Char} :
    cutAt? [c] text = none ↔ c ∉ text := by
  rw [Option.eq_none_iff_forall_not_mem]
  constructor
  · intro h hmem
    obtain ⟨before, after, rfl, hbefore⟩ := List.eq_append_cons_of_mem hmem
    exact h (before, after) (cutAt?_singleton_eq_some_iff.mpr ⟨rfl, hbefore⟩)
  · rintro h ⟨before, after⟩ hcut
    obtain ⟨rfl, -⟩ := cutAt?_singleton_eq_some_iff.mp hcut
    exact h (by simp)

end Cut

end Tsconfig.Text
