import Mathlib.Data.List.TakeWhile
import Tsconfig.Json.NumberReader
import Tsconfig.Proofs.Success

/-! A number uses up a run of word characters, and what follows the run does not matter to it. -/
namespace Tsconfig.Json

/-- The characters of numbers and of the names of values. -/
def isWordChar (c : Char) : Bool := c.isAlphanum || c = '+' || c = '-' || c = '.'

/-- A word that stands in front of the text has ended. -/
def WordEnds (text : List Char) : Prop := ∀ c ∈ text.head?, isWordChar c = false

theorem wordEnds_cons {c : Char} {rest : List Char} : WordEnds (c :: rest) ↔ isWordChar c = false := by
  simp [WordEnds]

theorem isWordChar_of_isDigit {c : Char} (h : c.isDigit = true) : isWordChar c = true := by
  simp [isWordChar, Char.isAlphanum, h]

/-- A word is the longest run of word characters. -/
theorem word_eq_of_append {word word' rest rest' : List Char}
    (hword : ∀ c ∈ word, isWordChar c = true) (hword' : ∀ c ∈ word', isWordChar c = true)
    (hrest : WordEnds rest) (hrest' : WordEnds rest') (h : word ++ rest = word' ++ rest') :
    word = word' ∧ rest = rest' := by
  have htake : ∀ {word rest : List Char}, (∀ c ∈ word, isWordChar c = true) → WordEnds rest →
      (word ++ rest).takeWhile isWordChar = word := by
    intro word rest hword hrest
    rw [List.takeWhile_append_of_pos hword]
    cases rest with
    | nil => simp
    | cons c rest => simp [wordEnds_cons.mp hrest]
  have hsame : word = word' := by rw [← htake hword hrest, h, htake hword' hrest']
  subst hsame
  exact ⟨rfl, List.append_cancel_left h⟩

namespace Number

/-- The reader uses up a run of word characters, and gives the same number before any other text. -/
def ReadsWord (read : List Char → Except Stop (Number × List Char)) : Prop :=
  ∀ {text n rest}, read text = .ok (n, rest) → WordEnds rest →
    ∃ used, text = used ++ rest ∧ (∀ c ∈ used, isWordChar c = true) ∧
      ∀ rest', WordEnds rest' → read (used ++ rest') = .ok (n, rest')

/-- A run of digits and what follows it. -/
structure Digits (digits rest : List Char) : Prop where
  all : ∀ c ∈ digits, c.isDigit = true
  ends : ∀ c ∈ rest.head?, c.isDigit = false

theorem exists_digits (text : List Char) :
    ∃ digits rest, text = digits ++ rest ∧ Digits digits rest := by
  refine ⟨_, _, (List.takeWhile_append_dropWhile (p := Char.isDigit)).symm, ?_, ?_⟩
  · exact fun c hc => List.mem_takeWhile_imp hc
  · intro c hc
    have hhead := List.head?_dropWhile_not Char.isDigit text
    rw [Option.mem_def.mp hc] at hhead
    exact hhead

theorem Digits.split {digits rest : List Char} (h : Digits digits rest) :
    (digits ++ rest).takeWhile Char.isDigit = digits ∧
      (digits ++ rest).dropWhile Char.isDigit = rest := by
  rw [List.takeWhile_append_of_pos h.all, List.dropWhile_append_of_pos h.all]
  cases rest with
  | nil => simp
  | cons c rest =>
    have hc : c.isDigit = false := h.ends c rfl
    simp [hc]

theorem Digits.of_wordEnds {digits rest : List Char} (h : ∀ c ∈ digits, c.isDigit = true)
    (hrest : WordEnds rest) : Digits digits rest := by
  refine ⟨h, fun c hc => ?_⟩
  by_contra hdigit
  cases (isWordChar_of_isDigit (Bool.of_not_eq_false hdigit)).symm.trans (hrest c hc)

theorem Digits.word {digits rest : List Char} (h : Digits digits rest) :
    ∀ c ∈ digits, isWordChar c = true := fun c hc => isWordChar_of_isDigit (h.all c hc)

/-- Before another text a word starts the same, unless it is empty and none starts there. -/
theorem head_append {used rest' : List Char} {c : Char} (rest : List Char) (h : WordEnds rest')
    (hc : c ∈ (used ++ rest').head?) : c ∈ (used ++ rest).head? ∨ isWordChar c = false := by
  cases used with
  | nil => exact .inr (h c hc)
  | cons d used => exact .inl hc

/-- The run stays the same when another text that ends a word follows the word. -/
theorem Digits.append {digits used rest rest' : List Char} (h : Digits digits (used ++ rest))
    (hrest : WordEnds rest') : Digits digits (used ++ rest') := by
  refine ⟨h.all, fun c hc => ?_⟩
  rcases head_append rest hrest hc with hc | hc
  · exact h.ends c hc
  · by_contra hdigit
    cases (isWordChar_of_isDigit (Bool.of_not_eq_false hdigit)).symm.trans hc

theorem close_eq_ok {negative : Bool} {significand : Nat} {exponent : Int} {text rest : List Char}
    {n : Number} (h : close negative significand exponent text = .ok (n, rest)) :
    text = rest ∧ ∀ rest', close negative significand exponent rest' = .ok (n, rest') := by
  unfold close at h ⊢
  split at h
  · cases h
    exact ⟨rfl, fun rest' => rfl⟩
  · cases h

section
variable (negative down : Bool) (significand : Nat) (exponent : Int)

private theorem exponentDigits_digits {c : Char} {digits rest unread : List Char} {power : Nat}
    (h : Digits (c :: digits) rest)
    (hread : accumulate maxExponentDigits 0 (c :: digits) = (power, unread)) :
    exponentDigits negative significand exponent down (c :: digits ++ rest) =
      if unread = [] then
        close negative significand (if down then exponent - power else exponent + power) rest
      else if significand ≠ 0 ∧ down = false then
        .error (.before .numberOutOfRange (unread.drop 1 ++ rest))
      else .ok (.double ⟨negative, 0, Double.minExponent⟩, rest) := by
  have hc : c.isDigit = true := h.all c List.mem_cons_self
  obtain ⟨htake, hdrop⟩ := h.split
  rw [List.cons_append] at htake hdrop ⊢
  rw [exponentDigits, if_pos hc, htake, hdrop]
  dsimp only
  rw [hread]
  cases unread with
  | nil => exact (if_pos rfl).symm
  | cons d unread => exact (if_neg (List.cons_ne_nil d unread)).symm

theorem readsWord_exponentDigits :
    ReadsWord (exponentDigits negative significand exponent down) := by
  intro text n rest h hrest
  obtain ⟨digits, after, rfl, hdigits⟩ := exists_digits text
  cases digits with
  | nil =>
    cases after with
    | nil => cases h
    | cons c after =>
      have hc : c.isDigit = false := hdigits.ends c rfl
      simp [exponentDigits, hc] at h
  | cons c digits =>
    cases hread : accumulate maxExponentDigits 0 (c :: digits) with
    | mk power unread =>
      have heq {rest' : List Char} (hrest' : Digits (c :: digits) rest') :=
        exponentDigits_digits negative down significand exponent hrest' hread
      rw [heq hdigits] at h
      split at h
      · rename_i hnil
        obtain ⟨rfl, hclose⟩ := close_eq_ok h
        refine ⟨c :: digits, rfl, hdigits.word, fun rest' hrest' => ?_⟩
        rw [heq (.of_wordEnds hdigits.all hrest'), if_pos hnil]
        exact hclose rest'
      · rename_i hnil
        split at h
        · cases h
        · rename_i hzero
          cases h
          refine ⟨c :: digits, rfl, hdigits.word, fun rest' hrest' => ?_⟩
          rw [heq (.of_wordEnds hdigits.all hrest'), if_neg hnil, if_neg hzero]

variable {negative down significand exponent}

/-- A word with another run of word characters in front of it. -/
theorem exists_word_append {first text rest : List Char} {Good : List Char → Prop}
    (hfirst : ∀ c ∈ first, isWordChar c = true)
    (h : ∃ used, text = used ++ rest ∧ (∀ c ∈ used, isWordChar c = true) ∧ Good (first ++ used)) :
    ∃ used, first ++ text = used ++ rest ∧ (∀ c ∈ used, isWordChar c = true) ∧ Good used := by
  obtain ⟨used, rfl, hused, hgood⟩ := h
  refine ⟨first ++ used, (List.append_assoc ..).symm, ?_, hgood⟩
  intro c hc
  rcases List.mem_append.mp hc with hc | hc
  · exact hfirst c hc
  · exact hused c hc

theorem exists_word_cons {c : Char} {text rest : List Char} {Good : List Char → Prop}
    (hc : isWordChar c = true)
    (h : ∃ used, text = used ++ rest ∧ (∀ c ∈ used, isWordChar c = true) ∧ Good (c :: used)) :
    ∃ used, c :: text = used ++ rest ∧ (∀ c ∈ used, isWordChar c = true) ∧ Good used :=
  exists_word_append (List.forall_mem_singleton.mpr hc) h

theorem readsWord_exponentPart : ReadsWord (exponentPart negative significand exponent) := by
  intro text n rest h hrest
  unfold exponentPart at h
  split at h
  · obtain ⟨used, rfl, hused, hread⟩ := readsWord_exponentDigits _ _ _ _ h hrest
    exact exists_word_cons (by decide) ⟨used, rfl, hused, hread⟩
  · obtain ⟨used, rfl, hused, hread⟩ := readsWord_exponentDigits _ _ _ _ h hrest
    exact exists_word_cons (by decide) ⟨used, rfl, hused, hread⟩
  · rename_i hplus hminus
    obtain ⟨used, rfl, hused, hread⟩ := readsWord_exponentDigits _ _ _ _ h hrest
    refine ⟨used, rfl, hused, fun rest' hrest' => ?_⟩
    have hno : ∀ c ∈ (used ++ rest').head?, c ≠ '+' ∧ c ≠ '-' := by
      intro c hc
      rcases head_append rest hrest' hc with hc | hc
      · obtain ⟨tail, htail⟩ := List.head?_eq_some_iff.mp hc
        constructor
        · rintro rfl
          exact hplus tail htail
        · rintro rfl
          exact hminus tail htail
      · constructor
        · rintro rfl
          cases hc
        · rintro rfl
          cases hc
    unfold exponentPart
    split
    · rename_i heq
      exact absurd rfl (hno '+' (by rw [heq]; rfl)).1
    · rename_i heq
      exact absurd rfl (hno '-' (by rw [heq]; rfl)).2
    · exact hread rest' hrest'

theorem isWordChar_of_isExponentMark {c : Char} (h : isExponentMark c = true) :
    isWordChar c = true := by
  simp only [isExponentMark, Bool.or_eq_true, decide_eq_true_eq] at h
  rcases h with rfl | rfl
  · decide
  · decide

theorem readsWord_afterDigits : ReadsWord (afterDigits negative significand exponent) := by
  have hclose {rest : List Char} (hrest : WordEnds rest) :
      afterDigits negative significand exponent rest = close negative significand exponent rest := by
    cases rest with
    | nil => rfl
    | cons c rest =>
      have hmark : ¬ isExponentMark c = true := by
        intro hmark
        cases (isWordChar_of_isExponentMark hmark).symm.trans (wordEnds_cons.mp hrest)
      rw [afterDigits, if_neg hmark]
  intro text n rest h hrest
  unfold afterDigits at h
  split at h
  · rename_i c text
    split at h
    · rename_i hmark
      obtain ⟨used, rfl, hused, hread⟩ := readsWord_exponentPart h hrest
      refine exists_word_cons (isWordChar_of_isExponentMark hmark)
        ⟨used, rfl, hused, fun rest' hrest' => ?_⟩
      simp only [List.cons_append, afterDigits, hmark, if_true]
      exact hread rest' hrest'
    · obtain ⟨rfl, hread⟩ := close_eq_ok h
      refine ⟨[], rfl, by simp, fun rest' hrest' => ?_⟩
      rw [List.nil_append, hclose hrest', hread]
  · obtain ⟨rfl, hread⟩ := close_eq_ok h
    refine ⟨[], rfl, by simp, fun rest' hrest' => ?_⟩
    rw [List.nil_append, hclose hrest', hread]

theorem readsWord_fraction : ReadsWord (fraction negative significand exponent) := by
  have heq {digits rest : List Char} (h : Digits digits rest) (hdigits : digits ≠ []) :
      fraction negative significand exponent (digits ++ rest) =
        afterDigits negative (accumulate maxSignificand significand digits).1
          (exponent - (digits.length - (accumulate maxSignificand significand digits).2.length : Nat))
          rest := by
    obtain ⟨htake, hdrop⟩ := h.split
    simp only [fraction, htake, hdrop, if_neg hdigits]
  intro text n rest h hrest
  obtain ⟨digits, after, rfl, hdigits⟩ := exists_digits text
  by_cases hnil : digits = []
  · subst hnil
    obtain ⟨htake, -⟩ := hdigits.split
    rw [fraction, if_pos htake] at h
    split at h <;> cases h
  · rw [heq hdigits hnil] at h
    obtain ⟨used, rfl, hused, hread⟩ := readsWord_afterDigits h hrest
    refine exists_word_append hdigits.word ⟨used, rfl, hused, fun rest' hrest' => ?_⟩
    rw [List.append_assoc, heq (hdigits.append hrest') hnil]
    exact hread rest' hrest'

private theorem afterWhole_eq {beyond : Nat} {text : List Char} (hpoint : ∀ c ∈ text.head?, c ≠ '.') :
    afterWhole negative significand beyond text =
      if beyond = 0 ∧ text.head?.all (fun c => !isExponentMark c) then
        .ok (whole negative significand, text)
      else afterDigits negative significand beyond text := by
  unfold afterWhole
  split
  · exact absurd rfl (hpoint '.' rfl)
  · rfl

private theorem no_exponentMark {rest : List Char} (h : WordEnds rest) :
    rest.head?.all (fun c => !isExponentMark c) = true := by
  rw [Option.all_eq_true]
  intro c hc
  by_contra hmark
  have hword := isWordChar_of_isExponentMark (by simpa using hmark)
  cases hword.symm.trans (h c hc)

/-- Where the word ends, the number is whole. -/
theorem afterWhole_of_wordEnds {rest : List Char} (h : WordEnds rest) :
    afterWhole negative significand 0 rest = .ok (whole negative significand, rest) := by
  rw [afterWhole_eq, if_pos ⟨rfl, no_exponentMark h⟩]
  rintro c hc rfl
  cases h _ hc

theorem readsWord_afterWhole {beyond : Nat} :
    ReadsWord (afterWhole negative significand beyond) := by
  intro text n rest h hrest
  by_cases hpoint : ∀ c ∈ text.head?, c ≠ '.'
  · rw [afterWhole_eq hpoint] at h
    split at h
    · rename_i hwhole
      obtain ⟨rfl, -⟩ := hwhole
      cases h
      exact ⟨[], rfl, by simp, fun rest' hrest' => afterWhole_of_wordEnds hrest'⟩
    · rename_i hwhole
      obtain ⟨used, rfl, hused, hread⟩ := readsWord_afterDigits h hrest
      refine ⟨used, rfl, hused, fun rest' hrest' => ?_⟩
      rw [afterWhole_eq, if_neg]
      · exact hread rest' hrest'
      · rintro ⟨hbeyond, hmark⟩
        cases used with
        | nil => exact hwhole ⟨hbeyond, no_exponentMark hrest⟩
        | cons c used => exact hwhole ⟨hbeyond, hmark⟩
      · rintro c hc rfl
        rcases head_append rest hrest' hc with hc | hc
        · exact hpoint _ hc rfl
        · cases hc
  · simp only [not_forall, not_not] at hpoint
    obtain ⟨_, hc, rfl⟩ := hpoint
    obtain ⟨text, rfl⟩ := List.head?_eq_some_iff.mp hc
    rw [afterWhole] at h
    obtain ⟨used, rfl, hused, hread⟩ := readsWord_fraction h hrest
    exact exists_word_cons (by decide) ⟨used, rfl, hused, hread⟩

theorem readUnsigned_digits {c : Char} {digits rest : List Char} (hzero : c ≠ '0')
    (h : Digits (c :: digits) rest) :
    readUnsigned negative (c :: digits ++ rest) =
      afterWhole negative (accumulate maxSignificand 0 (c :: digits)).1
        (accumulate maxSignificand 0 (c :: digits)).2.length rest := by
  obtain ⟨htake, hdrop⟩ := h.split
  rw [List.cons_append] at htake hdrop ⊢
  rw [readUnsigned, if_pos (h.all c List.mem_cons_self), htake, hdrop]
  exact fun heq => absurd heq hzero

theorem readsWord_readUnsigned : ReadsWord (readUnsigned negative) := by
  intro text n rest h hrest
  obtain ⟨digits, after, rfl, hdigits⟩ := exists_digits text
  cases digits with
  | nil =>
    cases after with
    | nil => cases h
    | cons c after =>
      have hc : c.isDigit = false := hdigits.ends c rfl
      have hzero : c ≠ '0' := by
        rintro rfl
        cases hc
      rw [List.nil_append, readUnsigned, if_neg (by simp [hc])] at h
      · cases h
      · exact fun heq => absurd heq hzero
  | cons c digits =>
    by_cases hzero : c = '0'
    · subst hzero
      rw [List.cons_append, readUnsigned] at h
      split at h
      · cases h
      · rename_i hdigit
        obtain ⟨used, htext, hused, hread⟩ := readsWord_afterWhole h hrest
        refine exists_word_cons (by decide) ⟨used, htext, hused, fun rest' hrest' => ?_⟩
        have hno : ¬ (used ++ rest').head?.any Char.isDigit = true := by
          rw [Option.any_eq_true]
          rintro ⟨c, hc, hcdigit⟩
          rcases head_append rest hrest' hc with hc | hc
          · rw [← htext] at hc
            exact hdigit ((Option.any_eq_true _ _).mpr ⟨c, hc, hcdigit⟩)
          · cases (isWordChar_of_isDigit hcdigit).symm.trans hc
        rw [List.cons_append, readUnsigned, if_neg hno]
        exact hread rest' hrest'
    · rw [readUnsigned_digits hzero hdigits] at h
      obtain ⟨used, rfl, hused, hread⟩ := readsWord_afterWhole h hrest
      refine exists_word_append hdigits.word ⟨used, rfl, hused, fun rest' hrest' => ?_⟩
      rw [List.append_assoc, readUnsigned_digits hzero]
      · exact hread rest' hrest'
      · exact hdigits.append hrest'

end
end Number
end Tsconfig.Json
