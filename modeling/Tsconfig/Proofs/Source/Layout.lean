import Tsconfig.Proofs.Source.Scan
import Tsconfig.Source.ModuleReference

/-!
Layout makes no difference to the imports of a text. In front of any token, white space and whole
comments can be put in, as long as white space comes first; nothing that is written inside a comment
counts.
-/
namespace Tsconfig.Source
open Text

/-- The tokens of a text that starts in a mode, each with the text from its first character on. For the
token that the mode holds, that is `start`. -/
def placedIn : Mode → List Char → List Char → List (List Char × Token)
  | mode, start, [] => mode.pending.map (start, ·)
  | .lineComment, start, c :: rest =>
    placedIn (if c = '\n' then .code else .lineComment) start rest
  | .blockComment star, start, c :: rest =>
    placedIn (if star && c = '/' then .code else .blockComment (c = '*')) start rest
  | .literal quote value true, start, c :: rest =>
    placedIn (.literal quote (c :: value) false) start rest
  | .literal quote value false, start, c :: rest =>
    if c = '\\' then placedIn (.literal quote value true) start rest
    else if endsLiteral quote c then (start, literalToken quote value) :: placedIn .code start rest
    else placedIn (.literal quote (c :: value) false) start rest
  | .code, start, '/' :: '/' :: rest => placedIn .lineComment start rest
  | .code, start, '/' :: '*' :: rest => placedIn (.blockComment false) start rest
  | .code, _, c :: rest =>
    (Mode.start c).2.map (c :: rest, ·) ++ placedIn (Mode.start c).1 (c :: rest) rest
  | .word letters, start, c :: rest =>
    if isWordPart c then placedIn (.word (c :: letters)) start rest
    else (start, .word letters.reverse) :: match c, rest with
      | '/', '/' :: rest => placedIn .lineComment start rest
      | '/', '*' :: rest => placedIn (.blockComment false) start rest
      | c, rest => (Mode.start c).2.map (c :: rest, ·) ++ placedIn (Mode.start c).1 (c :: rest) rest

/-- The tokens of a text, each with the text from its first character on. -/
def placed (text : List Char) : List (List Char × Token) := placedIn .code text text

section Places
variable {c : Char} {start rest : List Char}

theorem placedIn_code (h : opensComment (c :: rest) = false) :
    placedIn .code start (c :: rest) =
      (Mode.start c).2.map (c :: rest, ·) ++ placedIn (Mode.start c).1 (c :: rest) rest := by
  rw [placedIn]
  · rintro _ rfl rfl
    cases h
  · rintro _ rfl rfl
    cases h

theorem placedIn_word_part (letters : List Char) (h : isWordPart c = true) :
    placedIn (.word letters) start (c :: rest) = placedIn (.word (c :: letters)) start rest := by
  rw [placedIn, if_pos h]
  · rintro _ rfl _
    exact absurd h (by decide)
  · rintro _ rfl _
    exact absurd h (by decide)

theorem placedIn_word_end (letters : List Char) (h : isWordPart c = false) :
    placedIn (.word letters) start (c :: rest) =
      (start, .word letters.reverse) :: placedIn .code start (c :: rest) := by
  cases hopens : opensComment (c :: rest) with
  | true =>
    rcases opensComment_iff.mp hopens with ⟨_, heq⟩ | ⟨_, heq⟩
    all_goals
      obtain ⟨rfl, rfl⟩ := List.cons.inj heq
      simp only [placedIn, h, Bool.false_eq_true, if_false]
  | false =>
    rw [placedIn_code hopens, placedIn, if_neg (by simp [h])]
    · rintro _ rfl rfl
      cases hopens
    · rintro _ rfl rfl
      cases hopens

theorem map_snd_placedIn (mode : Mode) (start text : List Char) :
    (placedIn mode start text).map Prod.snd = tokensIn mode text := by
  induction mode, text using scan_induction generalizing start with
  | nil mode => cases mode <;> rfl
  | lineComment c rest ih => rw [placedIn, tokensIn, ih]
  | blockComment star c rest ih => rw [placedIn, tokensIn, ih]
  | escaped quote value c rest ih => rw [placedIn, tokensIn, ih]
  | escape quote value rest ih => rw [placedIn, if_pos rfl, tokensIn, if_pos rfl, ih]
  | literalEnd quote value c rest hback hends ih =>
    rw [placedIn, if_neg hback, if_pos hends, tokensIn_literal_end value hback hends, List.map_cons, ih]
  | literalPart quote value c rest hback hends ih =>
    rw [placedIn, if_neg hback, hends, if_neg Bool.false_ne_true, ih,
      tokensIn_literal_part value hback hends]
  | opensLine rest ih => exact ih start
  | opensBlock rest ih => exact ih start
  | code c rest hopens ih =>
    rw [placedIn_code hopens, tokensIn_code hopens, List.map_append, ih, List.map_map]
    simp [Function.comp_def]
  | wordPart letters c rest hpart ih =>
    rw [placedIn_word_part letters hpart, tokensIn_word_part letters hpart, ih]
  | wordEnd letters c rest hpart ih =>
    rw [placedIn_word_end letters hpart, tokensIn_word_end letters hpart, List.map_cons, ih]

end Places

section Insertion
variable {mode next : Mode} {before after behind start text : List Char} {c : Char} {token : Token}

/-- What separates tokens: white space, and then whatever may stand between them. -/
inductive Separator : List Char → Prop
  | mk {c : Char} {rest : List Char} (hc : isBlank c = true) (h : Spacing rest) : Separator (c :: rest)

/-- A text, with or without a separator in front of it. -/
inductive SetOff (after : List Char) : List Char → Prop
  | same : SetOff after after
  | spaced {filler : List Char} (h : Separator filler) : SetOff after (filler ++ after)

/-- From a mode, the scan comes over `before` to a token at the start of `after`, and reads the same
when a separator is put in there. -/
structure StandsBehind (mode : Mode) (before after : List Char) (token : Token) : Prop where
  begins : opensComment after = false ∧ ∃ c ∈ after.head?, isBlank c = false
  reads : ∃ earlier later, tokenize after = token :: later ∧
    ∀ behind, SetOff after behind → tokensIn mode (before ++ behind) = earlier ++ token :: later

theorem SetOff.tokenize_eq (h : SetOff after behind) : tokenize behind = tokenize after := by
  cases h with
  | same => rfl
  | spaced h =>
    obtain ⟨hc, hrest⟩ := h
    exact tokensIn_spacing (.blank hc hrest) after

/-- In front of a token a slash stays what it is. -/
theorem SetOff.opensComment_eq (h : SetOff after behind)
    (hopens : opensComment (c :: (before ++ after)) = false) :
    opensComment (c :: (before ++ behind)) = false := by
  cases before with
  | nil =>
    cases h with
    | same => exact hopens
    | spaced h =>
      obtain ⟨hc, -⟩ := h
      exact opensComment_of_isBlank hc c
  | cons d before =>
    rw [Bool.eq_false_iff, ne_eq, opensComment_iff] at hopens ⊢
    rintro (⟨rest, heq⟩ | ⟨rest, heq⟩)
    all_goals
      obtain ⟨rfl, htail⟩ := List.cons.inj heq
      obtain ⟨rfl, -⟩ := List.cons.inj htail
      apply hopens
    · exact .inl ⟨before ++ after, rfl⟩
    · exact .inr ⟨before ++ after, rfl⟩

/-- No word goes on in front of a token that does not go on with it. -/
theorem SetOff.exists_head (h : SetOff after behind)
    (hhead : ∃ c ∈ (before ++ after).head?, isWordPart c = false) :
    ∃ d rest, before ++ behind = d :: rest ∧ isWordPart d = false := by
  cases before with
  | nil =>
    cases h with
    | same =>
      obtain ⟨c, hc, hpart⟩ := hhead
      obtain ⟨rest, hrest⟩ := List.head?_eq_some_iff.mp hc
      exact ⟨c, rest, hrest, hpart⟩
    | spaced h =>
      obtain ⟨hc, -⟩ := h
      exact ⟨_, _, rfl, isWordPart_of_isBlank hc⟩
  | cons d before =>
    obtain ⟨c, hc, hpart⟩ := hhead
    obtain rfl : d = c := Option.some.inj hc
    exact ⟨d, _, rfl, hpart⟩

theorem StandsBehind.step (h : StandsBehind next before after token) (lead : List Char)
    (emitted : List Token)
    (hread : ∀ behind, SetOff after behind →
      tokensIn mode (lead ++ (before ++ behind)) = emitted ++ tokensIn next (before ++ behind)) :
    StandsBehind mode (lead ++ before) after token := by
  obtain ⟨hbegins, earlier, later, htoken, hbefore⟩ := h
  refine ⟨hbegins, emitted ++ earlier, later, htoken, fun behind hbehind => ?_⟩
  rw [List.append_assoc, hread behind hbehind, hbefore behind hbehind, List.append_assoc]

/-- A token of a text that starts in a mode: the one that the mode holds, which begins at `start`, or
one that the scan comes to. -/
inductive BeginsIn (mode : Mode) (start after : List Char) (token : Token) : List Char → Prop
  | held {text : List Char} (hmode : mode.pending ≠ []) (hafter : after = start)
      (h : (tokensIn mode text).head? = some token) : BeginsIn mode start after token text
  | met {before : List Char} (h : StandsBehind mode before after token) :
      BeginsIn mode start after token (before ++ after)

/-- Characters that only change the mode are read whatever is behind them. -/
theorem BeginsIn.step (h : BeginsIn next start after token text) (lead : List Char)
    (hmode : next.pending ≠ [] → mode.pending ≠ [])
    (hread : ∀ rest, tokensIn mode (lead ++ rest) = tokensIn next rest) :
    BeginsIn mode start after token (lead ++ text) := by
  cases h with
  | held hnext hafter h => exact .held (hmode hnext) hafter ((congrArg _ (hread text)).trans h)
  | met h =>
    rw [← List.append_assoc]
    exact .met (h.step lead [] fun behind _ => hread _)

theorem BeginsIn.first (hopens : opensComment (c :: text) = false) (hc : isBlank c = false)
    (h : (tokenize (c :: text)).head? = some token) :
    BeginsIn .code start (c :: text) token (c :: text) := by
  obtain ⟨later, hlater⟩ := List.head?_eq_some_iff.mp h
  change BeginsIn .code start (c :: text) token ([] ++ c :: text)
  refine .met ⟨⟨hopens, c, rfl, hc⟩, [], later, hlater, fun behind hbehind => ?_⟩
  exact hbehind.tokenize_eq.trans hlater

theorem BeginsIn.of_code (h : BeginsIn .code start after token text) :
    ∃ before, text = before ++ after ∧ StandsBehind .code before after token := by
  cases h with
  | held hmode => exact absurd rfl hmode
  | met h => exact ⟨_, rfl, h⟩

theorem isBlank_eq_false_of_start (h : Mode.start c ≠ (.code, [])) : isBlank c = false := by
  rw [Bool.eq_false_iff]
  intro hblank
  exact h (Mode.start_blank hblank)

theorem Mode.start_of_pending (h : (Mode.start c).1.pending ≠ []) : (Mode.start c).2 = [] := by
  rw [Mode.start] at h ⊢
  repeat' split at h
  all_goals simp_all [Mode.pending]

theorem Mode.start_of_mem (h : token ∈ (Mode.start c).2) : (Mode.start c).2 = [token] := by
  rw [Mode.start] at h ⊢
  repeat' split at h
  all_goals simp_all

/-- What a character that opens no comment is read as begins with it. -/
theorem beginsIn_of_mem_start (hopens : opensComment (c :: text) = false)
    (h : token ∈ (Mode.start c).2) : BeginsIn .code start (c :: text) token (c :: text) := by
  have hc : isBlank c = false := isBlank_eq_false_of_start fun hstart => by simp [hstart] at h
  refine .first hopens hc ?_
  rw [tokenize, tokensIn_code hopens, Mode.start_of_mem h]
  rfl

/-- Behind such a character, the token that it begins is held, and the others are met between tokens. -/
theorem BeginsIn.code (hopens : opensComment (c :: text) = false)
    (h : BeginsIn (Mode.start c).1 (c :: text) after token text) :
    BeginsIn .code start after token (c :: text) := by
  cases h with
  | held hmode hafter hhead =>
    have hc : isBlank c = false :=
      isBlank_eq_false_of_start fun hstart => by simp [hstart, Mode.pending] at hmode
    rw [hafter]
    refine .first hopens hc ?_
    rw [tokenize, tokensIn_code hopens, Mode.start_of_pending hmode, List.nil_append, hhead]
  | met hstands =>
    refine .met (hstands.step [c] (Mode.start c).2 fun behind hbehind => ?_)
    exact tokensIn_code (hbehind.opensComment_eq hopens)

/-- Behind the end of a literal, what is met is met between tokens. -/
theorem BeginsIn.literalEnd {quote : Char} {value : List Char} (hback : c ≠ '\\')
    (hends : endsLiteral quote c = true) (h : BeginsIn .code start after token text) :
    BeginsIn (.literal quote value false) start after token (c :: text) := by
  obtain ⟨before, rfl, hstands⟩ := h.of_code
  refine .met (hstands.step [c] [literalToken quote value] fun behind _ => ?_)
  exact tokensIn_literal_end value hback hends

/-- At the end of a word as well, and a separator that is put in there ends it all the same. -/
theorem BeginsIn.wordEnd {letters : List Char} (hpart : isWordPart c = false)
    (h : BeginsIn .code start after token (c :: text)) :
    BeginsIn (.word letters) start after token (c :: text) := by
  obtain ⟨before, hsplit, hstands⟩ := h.of_code
  have hhead : ∃ d ∈ (before ++ after).head?, isWordPart d = false := ⟨c, by rw [← hsplit]; rfl, hpart⟩
  rw [hsplit]
  refine .met (hstands.step [] [.word letters.reverse] fun behind hbehind => ?_)
  obtain ⟨d, rest, hd, hpart⟩ := hbehind.exists_head hhead
  rw [List.nil_append, hd, tokensIn_word_end letters hpart]
  rfl

theorem beginsIn_of_mem_placedIn (h : (after, token) ∈ placedIn mode start text) :
    BeginsIn mode start after token text := by
  -- Most characters only change the mode, whatever is behind them. Where a token ends it was held, and
  -- every later one is met between tokens.
  induction mode, text using scan_induction generalizing start with
  | nil mode =>
    obtain ⟨_, hpending, heq⟩ := List.mem_map.mp h
    obtain ⟨rfl, rfl⟩ := Prod.mk.inj heq
    cases mode with
    | word letters => exact .held (by simp [Mode.pending]) rfl (by simp_all [Mode.pending, tokensIn])
    | literal quote value escaped =>
      exact .held (by simp [Mode.pending]) rfl (by simp_all [Mode.pending, tokensIn])
    | code | lineComment | blockComment => cases hpending
  | lineComment c rest ih =>
    rw [placedIn] at h
    refine (ih h).step [c] ?_ fun rest => ?_
    · split <;> exact id
    · rw [List.singleton_append, tokensIn]
  | blockComment star c rest ih =>
    rw [placedIn] at h
    refine (ih h).step [c] ?_ fun rest => ?_
    · split <;> exact id
    · rw [List.singleton_append, tokensIn]
  | escaped quote value c rest ih =>
    rw [placedIn] at h
    exact (ih h).step [c] (by simp [Mode.pending]) fun rest => rfl
  | escape quote value rest ih =>
    rw [placedIn, if_pos rfl] at h
    refine (ih h).step ['\\'] (by simp [Mode.pending]) fun rest => ?_
    rw [List.singleton_append, tokensIn, if_pos rfl]
  | literalEnd quote value c rest hback hends ih =>
    rw [placedIn, if_neg hback, if_pos hends] at h
    rcases List.mem_cons.mp h with heq | h
    · obtain ⟨rfl, rfl⟩ := Prod.mk.inj heq
      exact .held (by simp [Mode.pending]) rfl (by rw [tokensIn_literal_end value hback hends]; rfl)
    · exact (ih h).literalEnd hback hends
  | literalPart quote value c rest hback hends ih =>
    rw [placedIn, if_neg hback, hends, if_neg Bool.false_ne_true] at h
    exact (ih h).step [c] (by simp [Mode.pending]) fun rest => tokensIn_literal_part value hback hends
  | opensLine rest ih => exact (ih h).step ['/', '/'] id fun rest => rfl
  | opensBlock rest ih => exact (ih h).step ['/', '*'] id fun rest => rfl
  | code c rest hopens ih =>
    rw [placedIn_code hopens] at h
    rcases List.mem_append.mp h with h | h
    · obtain ⟨_, htoken, heq⟩ := List.mem_map.mp h
      obtain ⟨rfl, rfl⟩ := Prod.mk.inj heq
      exact beginsIn_of_mem_start hopens htoken
    · exact (ih h).code hopens
  | wordPart letters c rest hpart ih =>
    rw [placedIn_word_part letters hpart] at h
    exact (ih h).step [c] (by simp [Mode.pending]) fun rest =>
      tokensIn_word_part letters hpart
  | wordEnd letters c rest hpart ih =>
    rw [placedIn_word_end letters hpart] at h
    rcases List.mem_cons.mp h with heq | h
    · obtain ⟨rfl, rfl⟩ := Prod.mk.inj heq
      exact .held (by simp [Mode.pending]) rfl (by rw [tokensIn_word_end letters hpart]; rfl)
    · exact (ih h).wordEnd hpart

end Insertion

/-- The placed tokens are the tokens of a text. Each begins with the first character of its place, and
what separates tokens can be put in there without a change to the tokens or to what is imported. -/
theorem tokenize_separated (text : List Char) :
    (placed text).map Prod.snd = tokenize text ∧
    ∀ after token, (after, token) ∈ placed text → ∃ before, text = before ++ after ∧
      StandsBehind .code before after token ∧
      ∀ filler, Separator filler →
        tokenize (before ++ (filler ++ after)) = tokenize text ∧
        Import.specifiers (before ++ (filler ++ after)) = Import.specifiers text := by
  refine ⟨map_snd_placedIn .code text text, fun after token h => ?_⟩
  obtain ⟨before, rfl, hstands⟩ := (beginsIn_of_mem_placedIn h).of_code
  refine ⟨before, rfl, hstands, fun filler hfiller => ?_⟩
  obtain ⟨-, earlier, later, -, hreads⟩ := hstands
  have htokens : tokenize (before ++ (filler ++ after)) = tokenize (before ++ after) :=
    (hreads _ (.spaced hfiller)).trans (hreads _ .same).symm
  exact ⟨htokens, congrArg (Import.specifiersIn false false) htokens⟩

section Commented

private def declared : List Char := "export*from".toList

private def named : List Char := "'./a';".toList

private def commented : List Char :=
  ' ' :: '/' :: '*' :: (" import 'x' ".toList ++ '*' :: '/' ::
    '/' :: '/' :: ("`import 'y'".toList ++ ['\n']))

/-- A word and a literal right behind it are separated by comments that hold imports. -/
theorem tokenize_separated_commented :
    Separator commented ∧ (named, .text "./a".toList) ∈ placed (declared ++ named) ∧
    Import.specifiers (declared ++ (commented ++ named)) = ["./a".toList] := by
  have hseparator : Separator commented :=
    .mk (by decide +kernel) (.block (by decide +kernel) (.line (by decide +kernel) .nil))
  have hplace : (named, .text "./a".toList) ∈ placed (declared ++ named) := by decide +kernel
  obtain ⟨before, hbefore, -, hsame⟩ := (tokenize_separated (declared ++ named)).2 _ _ hplace
  obtain rfl := List.append_cancel_right hbefore
  refine ⟨hseparator, hplace, (hsame commented hseparator).2.trans ?_⟩
  decide +kernel

end Commented

end Tsconfig.Source
