import Tsconfig.Source.Token

/-!
How the scan of a source text goes through its parts: words, literals, white space and comments. Each
part is read with the rest of the text behind it.
-/
namespace Tsconfig.Source
open Text

section Characters
variable {c : Char} {rest : List Char}

/-- The ranges of white space beyond ASCII. -/
private def blankRanges : List (Nat × Nat) :=
  [(0x85, 0x85), (0xA0, 0xA0), (0x1680, 0x1680), (0x2000, 0x200A), (0x2028, 0x2029),
    (0x202F, 0x202F), (0x205F, 0x205F), (0x3000, 0x3000)]

private def asciiBlanks : List Nat := List.range' 9 5 ++ [0x20]

private theorem mem_asciiBlanks_or (h : isBlank c = true) :
    c.toNat ∈ asciiBlanks ∨ ∃ range ∈ blankRanges, range.1 ≤ c.toNat ∧ c.toNat ≤ range.2 := by
  simp only [isBlank, Bool.or_eq_true, Bool.and_eq_true, decide_eq_true_eq] at h
  simp only [asciiBlanks, blankRanges, List.mem_append, List.mem_range'_1, List.mem_cons,
    List.not_mem_nil, or_false, exists_eq_or_imp, exists_eq_left]
  omega

/-- Ranges apart from those of white space hold none. -/
private theorem inRanges_of_apart {ranges : List (Nat × Nat)} {n : Nat} {blank : Nat × Nat}
    (hapart : (ranges.all fun range => blankRanges.all fun blank =>
      Nat.blt range.2 blank.1 || Nat.blt blank.2 range.1) = true)
    (hblank : blank ∈ blankRanges) (hn : blank.1 ≤ n ∧ n ≤ blank.2) : inRanges ranges n = false := by
  rw [inRanges, List.any_eq_false]
  intro range hrange
  have hboth := List.all_eq_true.mp (List.all_eq_true.mp hapart range hrange) blank hblank
  simp only [Bool.or_eq_true, Nat.blt_eq] at hboth
  simp only [Bool.and_eq_true, decide_eq_true_eq]
  omega

/-- Beyond ASCII, what is neither a letter nor a numeral is no part of a word. -/
private theorem isWordPart_of_beyond (hbeyond : 0x80 ≤ c.toNat)
    (hletter : inRanges alphabeticRanges c.toNat = false)
    (hnumeral : inRanges numericRanges c.toNat = false) : isWordPart c = false := by
  have hascii (d : Char) (hd : d.toNat < 0x80) : c ≠ d := by
    rintro rfl
    omega
  have halpha : c.isAlpha = false := by
    rw [Bool.eq_false_iff]
    intro h
    change (decide ('A'.val ≤ c.val ∧ c.val ≤ 'Z'.val) ||
      (decide ('a'.val ≤ c.val) && decide (c.val ≤ 'z'.val))) = true at h
    simp only [Bool.or_eq_true, Bool.and_eq_true, decide_eq_true_eq, UInt32.le_iff_toNat_le] at h
    change 65 ≤ c.toNat ∧ c.toNat ≤ 90 ∨ 97 ≤ c.toNat ∧ c.toNat ≤ 122 at h
    omega
  have hdigit : c.isDigit = false := by
    rw [Bool.eq_false_iff]
    intro h
    change (decide ('0'.val ≤ c.val) && decide (c.val ≤ '9'.val)) = true at h
    simp only [Bool.and_eq_true, decide_eq_true_eq, UInt32.le_iff_toNat_le] at h
    change 48 ≤ c.toNat ∧ c.toNat ≤ 57 at h
    omega
  rw [isWordPart, isLetter, isNumeral, halpha, hdigit, hletter, hnumeral, Bool.and_false,
    decide_eq_false (hascii '_' (by decide)), decide_eq_false (hascii '$' (by decide))]
  rfl

theorem isWordPart_of_isBlank (h : isBlank c = true) : isWordPart c = false := by
  rcases mem_asciiBlanks_or h with hmem | ⟨blank, hblank, hc⟩
  · have hcodes : ∀ n ∈ asciiBlanks, isWordPart (Char.ofNat n) = false := by decide +kernel
    have hpart := hcodes c.toNat hmem
    rwa [Char.ofNat_toNat] at hpart
  · have hbeyond : ∀ blank ∈ blankRanges, 0x80 ≤ blank.1 := by decide
    exact isWordPart_of_beyond (Nat.le_trans (hbeyond blank hblank) hc.1)
      (inRanges_of_apart (by decide +kernel) hblank hc)
      (inRanges_of_apart (by decide +kernel) hblank hc)

theorem isQuote_of_isBlank (h : isBlank c = true) : isQuote c = false := by
  rw [Bool.eq_false_iff]
  intro hquote
  simp only [isQuote, Bool.or_eq_true, decide_eq_true_eq] at hquote
  rcases hquote with (rfl | rfl) | rfl
  all_goals exact absurd h (by decide)

theorem isWordPart_of_isQuote (h : isQuote c = true) : isWordPart c = false := by
  simp only [isQuote, Bool.or_eq_true, decide_eq_true_eq] at h
  rcases h with (rfl | rfl) | rfl
  all_goals decide

theorem isWordPart_of_isWordStart (h : isWordStart c = true) : isWordPart c = true := by
  simp only [isWordStart, isWordPart, Bool.or_eq_true] at h ⊢
  rcases h with (hletter | hline) | hdollar
  · exact .inl (.inl (.inl hletter))
  · exact .inl (.inr hline)
  · exact .inr hdollar

theorem Mode.start_blank (h : isBlank c = true) : Mode.start c = (.code, []) := by
  have hstart : isWordStart c = false := by
    cases hword : isWordStart c with
    | false => rfl
    | true => exact (isWordPart_of_isWordStart hword).symm.trans (isWordPart_of_isBlank h)
  simp [Mode.start, isQuote_of_isBlank h, hstart, h]

/-- What is no quote begins a word or leaves the scan between tokens, and is the text of no literal. -/
theorem Mode.start_unquoted (h : isQuote c = false) :
    ((Mode.start c).1 = .code ∨ ∃ letters, (Mode.start c).1 = .word letters) ∧
      ∀ token ∈ (Mode.start c).2, ∀ value, token ≠ .text value := by
  rw [Mode.start, h, if_neg Bool.false_ne_true]
  split
  · exact ⟨.inr ⟨[c], rfl⟩, by simp⟩
  · split <;> exact ⟨.inl rfl, by simp⟩

/-- Whether a text starts with a comment. -/
def opensComment : List Char → Bool
  | '/' :: '/' :: _ => true
  | '/' :: '*' :: _ => true
  | _ => false

theorem opensComment_iff {text : List Char} : opensComment text = true ↔
    (∃ rest, text = '/' :: '/' :: rest) ∨ ∃ rest, text = '/' :: '*' :: rest := by
  constructor
  · intro h
    unfold opensComment at h
    split at h
    · exact .inl ⟨_, rfl⟩
    · exact .inr ⟨_, rfl⟩
    · cases h
  · rintro (⟨rest, rfl⟩ | ⟨rest, rfl⟩) <;> rfl

theorem opensComment_of_ne (h : c ≠ '/') : opensComment (c :: rest) = false := by
  rw [Bool.eq_false_iff]
  intro hopens
  rcases opensComment_iff.mp hopens with ⟨_, heq⟩ | ⟨_, heq⟩
  all_goals exact h (List.cons.inj heq).1

theorem opensComment_of_isBlank (h : isBlank c = true) (first : Char) :
    opensComment (first :: c :: rest) = false := by
  rw [Bool.eq_false_iff]
  intro hopens
  rcases opensComment_iff.mp hopens with ⟨_, heq⟩ | ⟨_, heq⟩
  all_goals
    obtain ⟨-, htail⟩ := List.cons.inj heq
    rw [(List.cons.inj htail).1] at h
    exact absurd h (by decide)

end Characters

section Modes
variable {c : Char} {rest : List Char}

theorem tokensIn_code (h : opensComment (c :: rest) = false) :
    tokensIn .code (c :: rest) = (Mode.start c).2 ++ tokensIn (Mode.start c).1 rest := by
  rw [tokensIn]
  · rintro _ rfl rfl
    cases h
  · rintro _ rfl rfl
    cases h

theorem tokensIn_word_part (letters : List Char) (h : isWordPart c = true) :
    tokensIn (.word letters) (c :: rest) = tokensIn (.word (c :: letters)) rest := by
  rw [tokensIn, if_pos h]
  · rintro _ rfl _
    exact absurd h (by decide)
  · rintro _ rfl _
    exact absurd h (by decide)

/-- A word ends in front of what is no part of it, and the scan goes on from there. -/
theorem tokensIn_word_end (letters : List Char) (h : isWordPart c = false) :
    tokensIn (.word letters) (c :: rest) = .word letters.reverse :: tokensIn .code (c :: rest) := by
  cases hopens : opensComment (c :: rest) with
  | true =>
    rcases opensComment_iff.mp hopens with ⟨_, heq⟩ | ⟨_, heq⟩
    all_goals
      obtain ⟨rfl, rfl⟩ := List.cons.inj heq
      simp only [tokensIn, h, Bool.false_eq_true, if_false]
  | false =>
    rw [tokensIn_code hopens, tokensIn, if_neg (by simp [h])]
    · rintro _ rfl rfl
      cases hopens
    · rintro _ rfl rfl
      cases hopens

theorem tokensIn_blank (h : isBlank c = true) (rest : List Char) :
    tokensIn .code (c :: rest) = tokensIn .code rest := by
  have hslash : c ≠ '/' := by
    rintro rfl
    exact absurd h (by decide)
  rw [tokensIn_code (opensComment_of_ne hslash), Mode.start_blank h, List.nil_append]

theorem tokensIn_literal_end {quote : Char} (value : List Char) (hback : c ≠ '\\')
    (h : endsLiteral quote c = true) :
    tokensIn (.literal quote value false) (c :: rest) =
      literalToken quote value :: tokensIn .code rest := by
  rw [tokensIn, if_neg hback, if_pos h]

theorem tokensIn_literal_part {quote : Char} (value : List Char) (hback : c ≠ '\\')
    (h : endsLiteral quote c = false) :
    tokensIn (.literal quote value false) (c :: rest) =
      tokensIn (.literal quote (c :: value) false) rest := by
  rw [tokensIn, if_neg hback, h, if_neg Bool.false_ne_true]

/-- Induction along the scan. A word that ends is followed by the same text between tokens. -/
@[elab_as_elim]
theorem scan_induction {motive : Mode → List Char → Prop}
    (nil : ∀ mode, motive mode [])
    (lineComment : ∀ c rest, motive (if c = '\n' then .code else .lineComment) rest →
      motive .lineComment (c :: rest))
    (blockComment : ∀ star c rest,
      motive (if star && c = '/' then .code else .blockComment (c = '*')) rest →
      motive (.blockComment star) (c :: rest))
    (escaped : ∀ quote value c rest, motive (.literal quote (c :: value) false) rest →
      motive (.literal quote value true) (c :: rest))
    (escape : ∀ quote value rest, motive (.literal quote value true) rest →
      motive (.literal quote value false) ('\\' :: rest))
    (literalEnd : ∀ quote value c rest, c ≠ '\\' → endsLiteral quote c = true → motive .code rest →
      motive (.literal quote value false) (c :: rest))
    (literalPart : ∀ quote value c rest, c ≠ '\\' → endsLiteral quote c = false →
      motive (.literal quote (c :: value) false) rest →
      motive (.literal quote value false) (c :: rest))
    (opensLine : ∀ rest, motive .lineComment rest → motive .code ('/' :: '/' :: rest))
    (opensBlock : ∀ rest, motive (.blockComment false) rest → motive .code ('/' :: '*' :: rest))
    (code : ∀ c rest, opensComment (c :: rest) = false → motive (Mode.start c).1 rest →
      motive .code (c :: rest))
    (wordPart : ∀ letters c rest, isWordPart c = true → motive (.word (c :: letters)) rest →
      motive (.word letters) (c :: rest))
    (wordEnd : ∀ letters c rest, isWordPart c = false → motive .code (c :: rest) →
      motive (.word letters) (c :: rest))
    (mode : Mode) (text : List Char) : motive mode text := by
  induction hlength : text.length using Nat.strongRecOn generalizing mode text with
  | ind length ih =>
    cases text with
    | nil => exact nil mode
    | cons c rest =>
      rw [List.length_cons] at hlength
      have hrest (mode : Mode) : motive mode rest := ih rest.length (by omega) mode rest rfl
      have hcode : motive .code (c :: rest) := by
        cases hopens : opensComment (c :: rest) with
        | false => exact code c rest hopens (hrest _)
        | true =>
          rcases opensComment_iff.mp hopens with ⟨body, heq⟩ | ⟨body, heq⟩
          all_goals
            obtain ⟨rfl, rfl⟩ := List.cons.inj heq
            rw [List.length_cons] at hlength
            have hbody (mode : Mode) : motive mode body := ih body.length (by omega) mode body rfl
          · exact opensLine body (hbody _)
          · exact opensBlock body (hbody _)
      cases mode with
      | code => exact hcode
      | word letters =>
        cases hpart : isWordPart c with
        | true => exact wordPart letters c rest hpart (hrest _)
        | false => exact wordEnd letters c rest hpart hcode
      | lineComment => exact lineComment c rest (hrest _)
      | blockComment star => exact blockComment star c rest (hrest _)
      | literal quote value isEscaped =>
        cases isEscaped with
        | true => exact escaped quote value c rest (hrest _)
        | false =>
          by_cases hback : c = '\\'
          · rw [hback]
            exact escape quote value rest (hrest _)
          · cases hends : endsLiteral quote c with
            | true => exact literalEnd quote value c rest hback hends (hrest _)
            | false => exact literalPart quote value c rest hback hends (hrest _)

end Modes

section Spacing

/-- What may stand between tokens: white space, line comments with the break that ends them, and block
comments up to the first mark that closes them. -/
inductive Spacing : List Char → Prop
  | nil : Spacing []
  | blank {c : Char} {rest : List Char} (hc : isBlank c = true) (h : Spacing rest) :
      Spacing (c :: rest)
  | line {body rest : List Char} (hbody : '\n' ∉ body) (h : Spacing rest) :
      Spacing ('/' :: '/' :: (body ++ '\n' :: rest))
  | block {body rest : List Char} (hbody : ¬['*', '/'] <:+: body) (h : Spacing rest) :
      Spacing ('/' :: '*' :: (body ++ '*' :: '/' :: rest))

theorem tokensIn_lineComment {body : List Char} (h : '\n' ∉ body) (rest : List Char) :
    tokensIn .lineComment (body ++ '\n' :: rest) = tokensIn .code rest := by
  induction body with
  | nil => rw [List.nil_append, tokensIn, if_pos rfl]
  | cons c body ih =>
    rw [List.mem_cons, not_or] at h
    rw [List.cons_append, tokensIn, if_neg (Ne.symm h.1), ih h.2]

/-- The star that the scan remembers counts as a part of the comment. -/
theorem tokensIn_blockComment {star : Bool} {body : List Char}
    (h : ¬['*', '/'] <:+: (if star then '*' :: body else body)) (rest : List Char) :
    tokensIn (.blockComment star) (body ++ '*' :: '/' :: rest) = tokensIn .code rest := by
  induction body generalizing star with
  | nil => cases star <;> rfl
  | cons c body ih =>
    have hopen : (star && decide (c = '/')) = false := by
      rw [Bool.eq_false_iff]
      intro hcloses
      simp only [Bool.and_eq_true, decide_eq_true_eq] at hcloses
      obtain ⟨rfl, rfl⟩ := hcloses
      exact h ⟨[], body, rfl⟩
    rw [List.cons_append, tokensIn, hopen, if_neg Bool.false_ne_true]
    apply ih
    intro hinside
    apply h
    have hbody : ['*', '/'] <:+: c :: body := by
      by_cases hstar : c = '*'
      · rw [decide_eq_true hstar, if_pos rfl] at hinside
        rwa [hstar]
      · rw [decide_eq_false hstar, if_neg Bool.false_ne_true] at hinside
        exact List.infix_cons hinside
    split
    · exact List.infix_cons hbody
    · exact hbody

theorem tokensIn_spacing {filler : List Char} (h : Spacing filler) (rest : List Char) :
    tokensIn .code (filler ++ rest) = tokensIn .code rest := by
  induction h with
  | nil => rfl
  | blank hc _ ih => rw [List.cons_append, tokensIn_blank hc, ih]
  | @line body _ hbody _ ih =>
    change tokensIn .lineComment ((body ++ '\n' :: _) ++ rest) = _
    rw [List.append_assoc, List.cons_append, tokensIn_lineComment hbody, ih]
  | @block body _ hbody _ ih =>
    change tokensIn (.blockComment false) ((body ++ '*' :: '/' :: _) ++ rest) = _
    rw [List.append_assoc, List.cons_append, List.cons_append, tokensIn_blockComment (by simpa using hbody), ih]

end Spacing

section Plain
variable {text rest : List Char}

/-- A character that opens neither a literal nor a comment. -/
def isPlain (c : Char) : Bool := !isQuote c && c ≠ '/'

theorem isPlain_iff {c : Char} : isPlain c = true ↔ isQuote c = false ∧ c ≠ '/' := by
  simp [isPlain]

/-- A text without literals and comments is read by itself, if no word goes on behind it. -/
theorem tokensIn_append {mode : Mode} (hmode : mode = .code ∨ ∃ letters, mode = .word letters)
    (htext : ∀ c ∈ text, isPlain c = true) (hrest : ∀ c ∈ rest.head?, isWordPart c = false) :
    tokensIn mode (text ++ rest) = tokensIn mode text ++ tokensIn .code rest := by
  induction text generalizing mode with
  | nil =>
    rcases hmode with rfl | ⟨letters, rfl⟩
    · rfl
    · cases rest with
      | nil => rfl
      | cons c rest => exact tokensIn_word_end letters (hrest c rfl)
  | cons c text ih =>
    obtain ⟨hc, htext⟩ := List.forall_mem_cons.mp htext
    obtain ⟨hquote, hslash⟩ := isPlain_iff.mp hc
    have hcode : tokensIn .code (c :: text ++ rest) = tokensIn .code (c :: text) ++ tokensIn .code rest := by
      rw [List.cons_append, tokensIn_code (opensComment_of_ne hslash),
        tokensIn_code (opensComment_of_ne hslash), ih (Mode.start_unquoted hquote).1 htext,
        List.append_assoc]
    rcases hmode with rfl | ⟨letters, rfl⟩
    · exact hcode
    · by_cases hpart : isWordPart c = true
      · rw [List.cons_append, tokensIn_word_part letters hpart, tokensIn_word_part letters hpart,
          ih (.inr ⟨_, rfl⟩) htext]
      · rw [Bool.not_eq_true] at hpart
        rw [List.cons_append, tokensIn_word_end letters hpart, tokensIn_word_end letters hpart,
          List.cons_append, ← hcode, List.cons_append]

theorem tokenize_append (htext : ∀ c ∈ text, isPlain c = true)
    (hrest : ∀ c ∈ rest.head?, isWordPart c = false) :
    tokenize (text ++ rest) = tokenize text ++ tokenize rest :=
  tokensIn_append (.inl rfl) htext hrest

theorem tokenize_append_blank {c : Char} (htext : ∀ c ∈ text, isPlain c = true)
    (hc : isBlank c = true) : tokenize (text ++ c :: rest) = tokenize text ++ tokenize rest := by
  rw [tokenize_append htext]
  · exact congrArg _ (tokensIn_blank hc rest)
  · intro d hd
    obtain rfl : c = d := Option.some.inj hd
    exact isWordPart_of_isBlank hc

end Plain

/-- A literal is read up to its quote. -/
theorem tokensIn_literal {quote : Char} {body : List Char} (value rest : List Char)
    (hquote : quote ≠ '\\') (hbody : ∀ c ∈ body, c ≠ '\\' ∧ endsLiteral quote c = false) :
    tokensIn (.literal quote value false) (body ++ quote :: rest) =
      literalToken quote (body.reverse ++ value) :: tokensIn .code rest := by
  induction body generalizing value with
  | nil => simp [tokensIn, hquote, endsLiteral]
  | cons c body ih =>
    obtain ⟨⟨hback, hends⟩, hbody⟩ := List.forall_mem_cons.mp hbody
    rw [List.cons_append, tokensIn_literal_part value hback hends, ih _ hbody, List.reverse_cons,
      List.append_assoc, List.singleton_append]

end Tsconfig.Source
