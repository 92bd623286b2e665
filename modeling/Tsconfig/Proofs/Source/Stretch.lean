import Tsconfig.Proofs.Source.Closed

/-!
Stretches of a source text that the scan reads in one way, whatever is behind them. A stretch that ends
with white space is always one, since neither a word nor the opening of a comment goes on behind it.
-/
namespace Tsconfig.Source
open Text

/-- From a mode, the scan reads a text as these tokens and is in the next mode behind it, whatever is
there. -/
def Reads (mode : Mode) (text : List Char) (tokens : List Token) (next : Mode) : Prop :=
  ∀ rest, tokensIn mode (text ++ rest) = tokens ++ tokensIn next rest

section Stretches
variable {mode next last : Mode} {text more : List Char} {tokens later : List Token} {c : Char}

theorem Reads.append (h : Reads mode text tokens next) (hmore : Reads next more later last) :
    Reads mode (text ++ more) (tokens ++ later) last := by
  intro rest
  rw [List.append_assoc, h, hmore, List.append_assoc]

theorem Reads.step (h : Reads next text tokens last) (lead : List Char) (emitted : List Token)
    (hread : ∀ rest, tokensIn mode (lead ++ (text ++ rest)) =
      emitted ++ tokensIn next (text ++ rest)) :
    Reads mode (lead ++ text) (emitted ++ tokens) last := by
  intro rest
  rw [List.append_assoc, hread, h, List.append_assoc]

theorem Reads.tokenize_eq (h : Reads .code text tokens .code) : tokenize text = tokens := by
  have hend := h []
  rwa [List.append_nil, show tokensIn .code [] = [] from rfl, List.append_nil] at hend

theorem Reads.tokenize_append (h : Reads .code text tokens .code) (rest : List Char) :
    tokenize (text ++ rest) = tokenize text ++ tokenize rest := by
  rw [h.tokenize_eq]
  exact h rest

/-- Between tokens a character is read by itself, unless it opens a comment with the next one. -/
theorem Reads.code (h : Reads (Mode.start c).1 text tokens last)
    (hopens : opensComment (c :: text) = false) (hend : text = [] → isBlank c = true) :
    Reads .code (c :: text) ((Mode.start c).2 ++ tokens) last := by
  refine h.step [c] _ fun rest => tokensIn_code ?_
  cases text with
  | nil => exact opensComment_of_ne (by rintro rfl; exact absurd (hend rfl) (by decide))
  | cons d text =>
    rw [Bool.eq_false_iff, ne_eq, opensComment_iff] at hopens ⊢
    rintro (⟨_, heq⟩ | ⟨_, heq⟩)
    all_goals
      obtain ⟨rfl, htail⟩ := List.cons.inj heq
      obtain ⟨rfl, -⟩ := List.cons.inj htail
      apply hopens
    · exact .inl ⟨text, rfl⟩
    · exact .inr ⟨text, rfl⟩

/-- The quote of the literal that the scan is in. -/
def Mode.quote? : Mode → Option Char
  | .literal quote _ _ => some quote
  | _ => none

/-- A mode that the scan comes to, with a text that has white space at its end, or nothing behind a mode
that is no word. -/
structure EndsApart (mode : Mode) (text : List Char) : Prop where
  blank : ∀ c ∈ text.getLast?, isBlank c = true
  apart : text = [] → ∀ letters, mode ≠ .word letters
  quoted : ∀ quote ∈ mode.quote?, isQuote quote = true

theorem EndsApart.tail (h : EndsApart mode (c :: text))
    (hnext : isBlank c = true → ∀ letters, next ≠ .word letters)
    (hquoted : ∀ quote ∈ next.quote?, isQuote quote = true) : EndsApart next text := by
  refine ⟨fun d hd => h.blank d ?_, ?_, hquoted⟩
  · rw [List.getLast?_cons, Option.mem_def.mp hd]
    rfl
  · rintro rfl
    exact hnext (h.blank c rfl)

theorem quote?_start : ∀ quote ∈ (Mode.start c).1.quote?, isQuote quote = true := by
  intro quote hquote
  rw [Mode.start] at hquote
  repeat' split at hquote
  · rename_i hc
    rwa [← Option.some.inj hquote]
  all_goals cases hquote

theorem quoted_of_eq_none (h : next.quote? = none) : ∀ quote ∈ next.quote?, isQuote quote = true := by
  intro quote hquote
  rw [h] at hquote
  cases hquote

/-- A stretch that is read in one way up to its end, and is closed if the scan is between tokens there. -/
def ReadsApart (mode : Mode) (text : List Char) : Prop :=
  ∃ tokens next, Reads mode text tokens next ∧ EndsApart next [] ∧
    (next = .code → IsClosed (mode.opening ++ text))

theorem ReadsApart.step (h : ReadsApart next text) (lead : List Char) (emitted : List Token)
    (hread : ∀ rest, tokensIn mode (lead ++ (text ++ rest)) =
      emitted ++ tokensIn next (text ++ rest))
    (hclosed : IsClosed (next.opening ++ text) → IsClosed (mode.opening ++ (lead ++ text))) :
    ReadsApart mode (lead ++ text) := by
  obtain ⟨tokens, last, hreads, hlast, hend⟩ := h
  exact ⟨_, last, hreads.step lead emitted hread, hlast, fun hcode => hclosed (hend hcode)⟩

theorem ReadsApart.code (h : ReadsApart (Mode.start c).1 text)
    (hopens : opensComment (c :: text) = false) (hend : text = [] → isBlank c = true) :
    ReadsApart .code (c :: text) := by
  obtain ⟨tokens, last, hreads, hlast, hclosed⟩ := h
  exact ⟨_, last, hreads.code hopens hend, hlast, fun hcode => isClosed_code hopens (hclosed hcode)⟩

theorem EndsApart.readsApart (h : EndsApart mode text) : ReadsApart mode text := by
  -- the last character is the only one whose step could see what is behind the stretch
  induction mode, text using scan_induction with
  | nil mode =>
    refine ⟨[], mode, fun rest => rfl, h, ?_⟩
    rintro rfl
    exact .nil
  | lineComment c rest ih =>
    have hrest := ih (h.tail (by split <;> simp) (quoted_of_eq_none (by split <;> rfl)))
    exact hrest.step [c] [] (fun more => by rw [List.singleton_append, tokensIn]; rfl)
      isClosed_lineComment
  | blockComment star c rest ih =>
    have hrest := ih (h.tail (by split <;> simp) (quoted_of_eq_none (by split <;> rfl)))
    exact hrest.step [c] [] (fun more => by rw [List.singleton_append, tokensIn]; rfl)
      isClosed_blockComment
  | escaped quote value c rest ih =>
    exact (ih (h.tail (by simp) h.quoted)).step [c] [] (fun more => rfl)
      (isClosed_escaped (h.quoted quote rfl))
  | escape quote value rest ih =>
    exact (ih (h.tail (by simp) h.quoted)).step ['\\'] [] (fun more => rfl) id
  | literalEnd quote value c rest hback hends ih =>
    exact (ih (h.tail (by simp) (quoted_of_eq_none rfl))).step [c] [literalToken quote value]
      (fun more => tokensIn_literal_end value hback hends)
      (isClosed_literalEnd (h.quoted quote rfl) hends)
  | literalPart quote value c rest hback hends ih =>
    exact (ih (h.tail (by simp) h.quoted)).step [c] []
      (fun more => tokensIn_literal_part value hback hends)
      (isClosed_literalPart (h.quoted quote rfl) hback hends)
  | opensLine rest ih =>
    have hcode : EndsApart .code ('/' :: rest) := h.tail (by simp) (quoted_of_eq_none rfl)
    have hrest : EndsApart .lineComment rest := hcode.tail (by simp) (quoted_of_eq_none rfl)
    exact (ih hrest).step ['/', '/'] [] (fun more => rfl) id
  | opensBlock rest ih =>
    have hcode : EndsApart .code ('*' :: rest) := h.tail (by simp) (quoted_of_eq_none rfl)
    have hrest : EndsApart (.blockComment false) rest := hcode.tail (by simp) (quoted_of_eq_none rfl)
    exact (ih hrest).step ['/', '*'] [] (fun more => rfl) id
  | code c rest hopens ih =>
    have hrest := h.tail (fun hblank => by rw [Mode.start_blank hblank]; simp) quote?_start
    refine (ih hrest).code hopens ?_
    rintro rfl
    exact h.blank c rfl
  | wordPart letters c rest hpart ih =>
    have hblank : isBlank c = false := by
      rw [Bool.eq_false_iff]
      intro hblank
      rw [isWordPart_of_isBlank hblank] at hpart
      cases hpart
    exact (ih (h.tail (by simp [hblank]) (quoted_of_eq_none rfl))).step [c] []
      (fun more => tokensIn_word_part letters hpart) (isClosed_wordPart hpart)
  | wordEnd letters c rest hpart ih =>
    exact (ih ⟨h.blank, by simp, quoted_of_eq_none rfl⟩).step [] [.word letters.reverse]
      (fun more => tokensIn_word_end letters hpart) id

/-- A stretch with white space at its end is read in one way, and no word goes on behind it. If it is read to
its end between tokens, no comment and no literal is left open in it. -/
theorem exists_reads (hc : isBlank c = true) (body : List Char) :
    ∃ tokens next, Reads .code (body ++ [c]) tokens next ∧ EndsApart next [] ∧
      (next = .code → IsClosed (body ++ [c])) :=
  EndsApart.readsApart ⟨by simpa using hc, by simp, quoted_of_eq_none rfl⟩

/-- Within a literal or a comment a letter is no token of its own. -/
theorem length_tokensIn_letter (hcode : next ≠ .code) (hnext : EndsApart next []) :
    (tokensIn next ['a']).length ≤ next.pending.length := by
  cases next with
  | code => exact absurd rfl hcode
  | word letters => exact absurd rfl (hnext.apart rfl letters)
  | lineComment => simp [tokensIn, Mode.pending]
  | blockComment star => simp [tokensIn, Mode.pending]
  | literal quote value escaped =>
    cases escaped with
    | true => simp [tokensIn, Mode.pending]
    | false =>
      rw [tokensIn, if_neg (by decide)]
      split <;> simp [tokensIn, Mode.pending]

/-- One letter behind it tells whether the scan is done with all literals and comments of a stretch. -/
theorem isClosed_of_letter (hc : isBlank c = true) {body : List Char}
    (h : (tokenize (body ++ [c] ++ ['a'])).length = (tokenize (body ++ [c])).length + 1) :
    IsClosed (body ++ [c]) := by
  obtain ⟨tokens, next, hreads, hnext, hclosed⟩ := exists_reads hc body
  refine hclosed (Decidable.byContradiction fun hcode => ?_)
  have hletter := length_tokensIn_letter hcode hnext
  have hend : tokenize (body ++ [c]) = tokens ++ next.pending := by
    have hnone := hreads []
    rwa [List.append_nil, show tokensIn next [] = next.pending by cases next <;> rfl] at hnone
  rw [tokenize, hreads, hend, List.length_append, List.length_append] at h
  omega

theorem reads_blanks (h : ∀ c ∈ text, isBlank c = true) : Reads .code text [] .code := by
  induction text with
  | nil => exact fun rest => rfl
  | cons c text ih =>
    rw [List.forall_mem_cons] at h
    exact (ih h.2).step [c] [] fun rest => tokensIn_blank h.1 _

end Stretches

section Literals
variable {quote c : Char} {body text rest : List Char}

theorem Inside.exists_reads (h : Inside quote body) (hback : c ≠ '\\') (hends : endsLiteral quote c = true)
    (value : List Char) : ∃ value',
      Reads (.literal quote value false) (body ++ [c]) [literalToken quote value'] .code := by
  induction h generalizing value with
  | nil => exact ⟨value, fun rest => by simp [tokensIn, hback, hends]⟩
  | @plain d rest hplain hpart _ ih =>
    obtain ⟨value', hreads⟩ := ih (d :: value)
    exact ⟨value', hreads.step [d] [] fun rest => tokensIn_literal_part value hplain hpart⟩
  | @escaped d rest _ ih =>
    obtain ⟨value', hreads⟩ := ih (d :: value)
    exact ⟨value', hreads.step ['\\', d] [] fun rest => rfl⟩

/-- A literal is read as one token, with what ends it. -/
theorem reads_literal (h : Inside quote body) (hquote : isQuote quote = true)
    (hends : endsLiteral quote c = true) :
    ∃ value, Reads .code (quote :: (body ++ [c])) [literalToken quote value] .code := by
  have hback : c ≠ '\\' := by
    rintro rfl
    rw [endsLiteral, Bool.or_eq_true, decide_eq_true_eq, Bool.and_eq_true] at hends
    rcases hends with rfl | ⟨-, hbreak⟩
    · exact absurd hquote (by decide)
    · exact absurd hbreak (by decide)
  obtain ⟨value, hreads⟩ := h.exists_reads hback hends []
  refine ⟨value, hreads.step [quote] [] fun rest => ?_⟩
  rw [List.singleton_append, tokensIn_code (opensComment_of_ne (ne_slash_of_isQuote hquote)), Mode.start,
    if_pos hquote]

end Literals

section Taken
variable {next : Mode} {text : List Char}

theorem tokensIn_lineComment_open (h : ∀ c ∈ text, c ≠ '\n') : tokensIn .lineComment text = [] := by
  induction text with
  | nil => rfl
  | cons c text ih =>
    rw [List.forall_mem_cons] at h
    rw [tokensIn, if_neg h.1, ih h.2]

theorem tokensIn_blockComment_open (h : ∀ c ∈ text, c ≠ '/') (star : Bool) :
    tokensIn (.blockComment star) text = [] := by
  induction text generalizing star with
  | nil => rfl
  | cons c text ih =>
    rw [List.forall_mem_cons] at h
    rw [tokensIn, decide_eq_false h.1, Bool.and_false, if_neg Bool.false_ne_true, ih h.2]

theorem tokensIn_literal_open {quote : Char} (value : List Char) (escaped : Bool)
    (h : ∀ c ∈ text, c ≠ '\\' ∧ endsLiteral quote c = false) :
    tokensIn (.literal quote value escaped) text = [literalToken quote (text.reverse ++ value)] := by
  induction text generalizing value escaped with
  | nil => rfl
  | cons c text ih =>
    obtain ⟨⟨hback, hends⟩, htext⟩ := List.forall_mem_cons.mp h
    have hgo : tokensIn (.literal quote (c :: value) false) text =
        [literalToken quote ((c :: text).reverse ++ value)] := by
      rw [ih _ _ htext, List.reverse_cons, List.append_assoc, List.singleton_append]
    cases escaped with
    | true => exact hgo
    | false => rw [tokensIn_literal_part value hback hends, hgo]

/-- What can end neither a literal nor a comment is taken in as a whole. -/
theorem length_of_text_mem_tokensIn (hcode : next ≠ .code) (hnext : EndsApart next [])
    (htext : ∀ c ∈ text, c ≠ '\n' ∧ c ≠ '/' ∧ c ≠ '\\' ∧ c ∉ next.quote?) {value : List Char}
    (h : .text value ∈ tokensIn next text) : text.length ≤ value.length := by
  cases next with
  | code => exact absurd rfl hcode
  | word letters => exact absurd rfl (hnext.apart rfl letters)
  | lineComment =>
    rw [tokensIn_lineComment_open fun c hc => (htext c hc).1] at h
    cases h
  | blockComment star =>
    rw [tokensIn_blockComment_open fun c hc => (htext c hc).2.1] at h
    cases h
  | literal quote held escaped =>
    have hopen : ∀ c ∈ text, c ≠ '\\' ∧ endsLiteral quote c = false := by
      intro c hc
      obtain ⟨hbreak, -, hback, hquote⟩ := htext c hc
      have hne : c ≠ quote := fun heq => hquote (by rw [heq]; rfl)
      exact ⟨hback, by simp [endsLiteral, hne, hbreak]⟩
    rw [tokensIn_literal_open held escaped hopen, List.mem_singleton, literalToken] at h
    split at h
    · cases h
    · injection h with hvalue
      simp [hvalue]

end Taken

section Unquoted
variable {mode : Mode} {text : List Char} {c : Char}

/-- A text that no literal and no comment begins in. -/
def IsUnquoted (text : List Char) : Prop :=
  (∀ c ∈ text, isQuote c = false) ∧ ¬['/', '/'] <:+: text ∧ ¬['/', '*'] <:+: text

theorem IsUnquoted.tail (h : IsUnquoted (c :: text)) : IsUnquoted text :=
  ⟨fun d hd => h.1 d (List.mem_cons_of_mem c hd), fun hline => h.2.1 (List.infix_cons hline),
    fun hblock => h.2.2 (List.infix_cons hblock)⟩

theorem IsUnquoted.opensComment_eq (h : IsUnquoted (c :: text)) (rest : List Char) :
    opensComment (c :: (text ++ ';' :: rest)) = false := by
  rw [Bool.eq_false_iff, ne_eq, opensComment_iff]
  rintro (⟨tail, heq⟩ | ⟨tail, heq⟩)
  all_goals obtain ⟨rfl, htail⟩ := List.cons.inj heq
  · cases text with
    | nil => exact absurd (List.cons.inj htail).1 (by decide)
    | cons d text =>
      obtain ⟨rfl, -⟩ := List.cons.inj htail
      exact h.2.1 ⟨[], text, rfl⟩
  · cases text with
    | nil => exact absurd (List.cons.inj htail).1 (by decide)
    | cons d text =>
      obtain ⟨rfl, -⟩ := List.cons.inj htail
      exact h.2.2 ⟨[], text, rfl⟩

/-- Up to a semicolon such a text is read as words and marks. -/
theorem exists_reads_unquoted (hmode : mode = .code ∨ ∃ letters, mode = .word letters)
    (h : IsUnquoted text) :
    ∃ tokens, Reads mode (text ++ [';']) (tokens ++ [.mark ';']) .code ∧
      ∀ token ∈ tokens, ∀ value, token ≠ .text value := by
  induction text generalizing mode with
  | nil =>
    rcases hmode with rfl | ⟨letters, rfl⟩
    · exact ⟨[], fun rest => rfl, by simp⟩
    · exact ⟨[.word letters.reverse], fun rest => tokensIn_word_end letters (by decide), by simp⟩
  | cons c text ih =>
    have hquote : isQuote c = false := h.1 c List.mem_cons_self
    have hcode : ∃ tokens, Reads .code (c :: text ++ [';']) (tokens ++ [.mark ';']) .code ∧
        ∀ token ∈ tokens, ∀ value, token ≠ .text value := by
      obtain ⟨hnext, hmarks⟩ := Mode.start_unquoted hquote
      obtain ⟨tokens, hreads, htokens⟩ := ih hnext h.tail
      refine ⟨(Mode.start c).2 ++ tokens, ?_, List.forall_mem_append.mpr ⟨hmarks, htokens⟩⟩
      rw [List.append_assoc]
      exact hreads.code (h.opensComment_eq []) (by simp)
    rcases hmode with rfl | ⟨letters, rfl⟩
    · exact hcode
    · cases hpart : isWordPart c with
      | true =>
        obtain ⟨tokens, hreads, htokens⟩ := ih (.inr ⟨c :: letters, rfl⟩) h.tail
        exact ⟨tokens, hreads.step [c] [] fun rest => tokensIn_word_part letters hpart, htokens⟩
      | false =>
        obtain ⟨tokens, hreads, htokens⟩ := hcode
        refine ⟨.word letters.reverse :: tokens, hreads.step [] [.word letters.reverse] fun rest =>
          tokensIn_word_end letters hpart, ?_⟩
        simpa using htokens

end Unquoted

section Closed
variable {mode next : Mode} {text lead rest : List Char} {tokens : List Token} {c : Char}

theorem reads_spacing (h : Spacing text) : Reads .code text [] .code := fun rest => tokensIn_spacing h rest

/-- In front of what is no part of a word, a word ends. -/
theorem exists_reads_of_code (hmode : mode = .code ∨ ∃ letters, mode = .word letters)
    (hpart : isWordPart c = false) (h : Reads .code (c :: text) tokens next) :
    ∃ tokens, Reads mode (c :: text) tokens next := by
  rcases hmode with rfl | ⟨letters, rfl⟩
  · exact ⟨tokens, h⟩
  · exact ⟨_, h.step [] [.word letters.reverse] fun more => tokensIn_word_end letters hpart⟩

theorem isBlank_of_append (h : ∀ c ∈ (lead ++ rest).getLast?, isBlank c = true) :
    ∀ c ∈ rest.getLast?, isBlank c = true := by
  intro c hc
  apply h
  rw [List.getLast?_append, Option.mem_def.mp hc]
  rfl

/-- What comes in front of a closed text goes on a word, or ends it. -/
theorem exists_reads_plain (hmode : mode = .code ∨ ∃ letters, mode = .word letters)
    (hopens : opensComment (c :: text) = false) (hend : text = [] → isBlank c = true)
    (hrest : ∃ tokens, Reads (Mode.start c).1 text tokens .code)
    (hword : text ≠ [] → ∀ letters, ∃ tokens, Reads (.word letters) text tokens .code) :
    ∃ tokens, Reads mode (c :: text) tokens .code := by
  have hcode : ∃ tokens, Reads .code (c :: text) tokens .code := by
    obtain ⟨tokens, hreads⟩ := hrest
    exact ⟨_, hreads.code hopens hend⟩
  cases hpart : isWordPart c with
  | false =>
    obtain ⟨tokens, hreads⟩ := hcode
    exact exists_reads_of_code hmode hpart hreads
  | true =>
    rcases hmode with rfl | ⟨letters, rfl⟩
    · exact hcode
    · have hne : text ≠ [] := by
        intro hnil
        rw [isWordPart_of_isBlank (hend hnil)] at hpart
        cases hpart
      obtain ⟨tokens, hreads⟩ := hword hne (c :: letters)
      exact ⟨tokens, hreads.step [c] [] fun more => tokensIn_word_part letters hpart⟩

/-- A closed text with white space at its end is read by itself. -/
theorem IsClosed.exists_reads (h : IsClosed text) (hblank : ∀ c ∈ text.getLast?, isBlank c = true)
    (hmode : mode = .code ∨ ∃ letters, mode = .word letters)
    (hword : text = [] → mode = .code) : ∃ tokens, Reads mode text tokens .code := by
  induction h generalizing mode with
  | nil =>
    rw [hword rfl]
    exact ⟨[], fun rest => rfl⟩
  | @plain c rest hquote hopens _ ih =>
    have hrest : ∀ d ∈ rest.getLast?, isBlank d = true := @isBlank_of_append [c] rest hblank
    have hend : rest = [] → isBlank c = true := by
      rintro rfl
      exact hblank c rfl
    have hstart := ih hrest (Mode.start_unquoted hquote).1 fun hnil => by
      rw [Mode.start_blank (hend hnil)]
    exact exists_reads_plain hmode hopens hend hstart fun hne letters =>
      ih hrest (.inr ⟨letters, rfl⟩) fun hnil => absurd hnil hne
  | @line body rest hbody _ ih =>
    have hsplit : '/' :: '/' :: (body ++ '\n' :: rest) = '/' :: '/' :: (body ++ ['\n']) ++ rest := by
      simp
    rw [hsplit] at hblank ⊢
    obtain ⟨tokens, hreads⟩ := ih (isBlank_of_append hblank) (.inl rfl) fun _ => rfl
    exact exists_reads_of_code hmode (by decide) ((reads_spacing (.line hbody .nil)).append hreads)
  | @block body rest hbody _ ih =>
    have hsplit : '/' :: '*' :: (body ++ '*' :: '/' :: rest) =
        '/' :: '*' :: (body ++ ['*', '/']) ++ rest := by simp
    rw [hsplit] at hblank ⊢
    obtain ⟨tokens, hreads⟩ := ih (isBlank_of_append hblank) (.inl rfl) fun _ => rfl
    exact exists_reads_of_code hmode (by decide) ((reads_spacing (.block hbody .nil)).append hreads)
  | @literal quote stop body rest hquote hbody hstop _ ih =>
    have hsplit : quote :: (body ++ stop :: rest) = quote :: (body ++ [stop]) ++ rest := by simp
    rw [hsplit] at hblank ⊢
    obtain ⟨tokens, hreads⟩ := ih (isBlank_of_append hblank) (.inl rfl) fun _ => rfl
    obtain ⟨value, hliteral⟩ := reads_literal hbody hquote hstop
    exact exists_reads_of_code hmode (isWordPart_of_isQuote hquote) (hliteral.append hreads)

theorem IsClosed.tokenize_append (h : IsClosed text) (hblank : ∀ c ∈ text.getLast?, isBlank c = true)
    (rest : List Char) : tokenize (text ++ rest) = tokenize text ++ tokenize rest := by
  obtain ⟨tokens, hreads⟩ := @IsClosed.exists_reads .code text h hblank (.inl rfl) fun _ => rfl
  exact hreads.tokenize_append rest

/-- Whether a text is closed can be tried out with a letter behind it. -/
theorem isClosed_iff (hlast : text.getLast? = some c) (hc : isBlank c = true) : IsClosed text ↔
    (tokenize (text ++ ['a'])).length = (tokenize text).length + 1 := by
  constructor
  · intro h
    rw [h.tokenize_append (by simp [hlast, hc]), List.length_append]
    rfl
  · obtain ⟨body, rfl⟩ := List.getLast?_eq_some_iff.mp hlast
    exact isClosed_of_letter hc

end Closed
end Tsconfig.Source
