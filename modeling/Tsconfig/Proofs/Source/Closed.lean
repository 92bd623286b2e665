import Tsconfig.Proofs.Source.Scan

/-!
Texts that leave no comment and no literal open. A step of the scan that is taken back, from the end of a text
on, keeps it closed.
-/
namespace Tsconfig.Source
open Text

/-- The inside of a literal as the scan reads it: its quote and, but in a template, a line feed stand in
it only behind a backslash. -/
inductive Inside (quote : Char) : List Char → Prop
  | nil : Inside quote []
  | plain {c : Char} {rest : List Char} (hback : c ≠ '\\') (hends : endsLiteral quote c = false)
      (h : Inside quote rest) : Inside quote (c :: rest)
  | escaped {c : Char} {rest : List Char} (h : Inside quote rest) : Inside quote ('\\' :: c :: rest)

/-- A text in which every comment and every literal comes to its end. A line break ends a line comment, and a
string too. -/
inductive IsClosed : List Char → Prop
  | nil : IsClosed []
  | plain {c : Char} {rest : List Char} (hquote : isQuote c = false)
      (hopens : opensComment (c :: rest) = false) (h : IsClosed rest) : IsClosed (c :: rest)
  | line {body rest : List Char} (hbody : '\n' ∉ body) (h : IsClosed rest) :
      IsClosed ('/' :: '/' :: (body ++ '\n' :: rest))
  | block {body rest : List Char} (hbody : ¬['*', '/'] <:+: body) (h : IsClosed rest) :
      IsClosed ('/' :: '*' :: (body ++ '*' :: '/' :: rest))
  | literal {quote stop : Char} {body rest : List Char} (hquote : isQuote quote = true)
      (hbody : Inside quote body) (hstop : endsLiteral quote stop = true) (h : IsClosed rest) :
      IsClosed (quote :: (body ++ stop :: rest))

/-- What has opened the comment or the literal that a mode is in. -/
def Mode.opening : Mode → List Char
  | .code | .word _ => []
  | .lineComment => ['/', '/']
  | .blockComment star => if star then ['/', '*', '*'] else ['/', '*']
  | .literal quote _ escaped => if escaped then [quote, '\\'] else [quote]

section Inversion
variable {quote : Char} {text : List Char}

theorem ne_slash_of_isQuote (h : isQuote quote = true) : quote ≠ '/' := by
  rintro rfl
  exact absurd h (by decide)

theorem exists_line (h : IsClosed ('/' :: '/' :: text)) :
    ∃ body rest, text = body ++ '\n' :: rest ∧ '\n' ∉ body ∧ IsClosed rest := by
  generalize hwhole : '/' :: '/' :: text = whole at h
  cases h with
  | nil => cases hwhole
  | plain _ hopens =>
    rw [← hwhole] at hopens
    cases hopens
  | line hbody h =>
    simp only [List.cons.injEq, true_and] at hwhole
    exact ⟨_, _, hwhole, hbody, h⟩
  | block => simp at hwhole
  | literal hquote => exact absurd (List.cons.inj hwhole).1.symm (ne_slash_of_isQuote hquote)

theorem exists_block (h : IsClosed ('/' :: '*' :: text)) :
    ∃ body rest, text = body ++ '*' :: '/' :: rest ∧ ¬['*', '/'] <:+: body ∧ IsClosed rest := by
  generalize hwhole : '/' :: '*' :: text = whole at h
  cases h with
  | nil => cases hwhole
  | plain _ hopens =>
    rw [← hwhole] at hopens
    cases hopens
  | line => simp at hwhole
  | block hbody h =>
    simp only [List.cons.injEq, true_and] at hwhole
    exact ⟨_, _, hwhole, hbody, h⟩
  | literal hquote => exact absurd (List.cons.inj hwhole).1.symm (ne_slash_of_isQuote hquote)

theorem exists_literal (hquote : isQuote quote = true) (h : IsClosed (quote :: text)) :
    ∃ body stop rest, text = body ++ stop :: rest ∧ Inside quote body ∧
      endsLiteral quote stop = true ∧ IsClosed rest := by
  generalize hwhole : quote :: text = whole at h
  cases h with
  | nil => cases hwhole
  | plain hother =>
    rw [← (List.cons.inj hwhole).1, hquote] at hother
    cases hother
  | line | block => exact absurd (List.cons.inj hwhole).1 (ne_slash_of_isQuote hquote)
  | literal _ hbody hstop h =>
    obtain ⟨rfl, rfl⟩ := List.cons.inj hwhole
    exact ⟨_, _, _, rfl, hbody, hstop, h⟩

end Inversion

section Steps
variable {quote c : Char} {value letters rest : List Char} {star : Bool}

theorem isClosed_lineComment
    (h : IsClosed ((if c = '\n' then Mode.code else .lineComment).opening ++ rest)) :
    IsClosed (Mode.lineComment.opening ++ c :: rest) := by
  split at h
  · rename_i hbreak
    subst hbreak
    exact .line List.not_mem_nil h
  · rename_i hbreak
    obtain ⟨body, behind, rfl, hbody, hbehind⟩ := exists_line h
    have hline : '\n' ∉ c :: body := by simp [Ne.symm hbreak, hbody]
    exact .line hline hbehind

/-- One character more in a block comment, as long as no star comes to stand in front of a slash. -/
theorem isClosed_block_cons (h : IsClosed ('/' :: '*' :: rest)) (hstar : c = '*' → rest.head? ≠ some '/') :
    IsClosed ('/' :: '*' :: c :: rest) := by
  obtain ⟨body, behind, rfl, hbody, hbehind⟩ := exists_block h
  have hlonger : ¬['*', '/'] <:+: c :: body := by
    rw [List.infix_cons_iff]
    rintro (⟨tail, hlead⟩ | hinside)
    · obtain ⟨rfl, rfl⟩ := List.cons.inj hlead
      exact hstar rfl rfl
    · exact hbody hinside
  exact .block hlonger hbehind

theorem isClosed_blockComment
    (h : IsClosed ((if star && c = '/' then Mode.code else .blockComment (c = '*')).opening ++ rest)) :
    IsClosed ((Mode.blockComment star).opening ++ c :: rest) := by
  split at h
  · rename_i hcloses
    rw [Bool.and_eq_true, decide_eq_true_eq] at hcloses
    obtain ⟨rfl, rfl⟩ := hcloses
    exact @IsClosed.block [] rest (by simp) h
  · rename_i hcloses
    have hslash : star = true → c ≠ '/' := by simpa using hcloses
    by_cases hc : c = '*'
    · subst hc
      cases star with
      | false => exact h
      | true => exact isClosed_block_cons h (by simp)
    · rw [decide_eq_false hc] at h
      have hinside : IsClosed ('/' :: '*' :: c :: rest) :=
        isClosed_block_cons h fun heq => absurd heq hc
      cases star with
      | false => exact hinside
      | true => exact isClosed_block_cons hinside (by simpa using hslash rfl)

theorem isClosed_escaped (hquote : isQuote quote = true)
    (h : IsClosed ((Mode.literal quote (c :: value) false).opening ++ rest)) :
    IsClosed ((Mode.literal quote value true).opening ++ c :: rest) := by
  obtain ⟨body, stop, behind, rfl, hbody, hstop, hbehind⟩ := exists_literal hquote h
  have hclosed : IsClosed (quote :: ('\\' :: c :: body ++ stop :: behind)) :=
    .literal hquote hbody.escaped hstop hbehind
  exact hclosed

theorem isClosed_literalEnd (hquote : isQuote quote = true) (hends : endsLiteral quote c = true)
    (h : IsClosed rest) : IsClosed ((Mode.literal quote value false).opening ++ c :: rest) :=
  .literal hquote .nil hends h

theorem isClosed_literalPart (hquote : isQuote quote = true) (hback : c ≠ '\\')
    (hends : endsLiteral quote c = false)
    (h : IsClosed ((Mode.literal quote (c :: value) false).opening ++ rest)) :
    IsClosed ((Mode.literal quote value false).opening ++ c :: rest) := by
  obtain ⟨body, stop, behind, rfl, hbody, hstop, hbehind⟩ := exists_literal hquote h
  have hclosed : IsClosed (quote :: (c :: body ++ stop :: behind)) :=
    .literal hquote (.plain hback hends hbody) hstop hbehind
  exact hclosed

theorem isClosed_code (hopens : opensComment (c :: rest) = false)
    (h : IsClosed ((Mode.start c).1.opening ++ rest)) : IsClosed (c :: rest) := by
  rw [Mode.start] at h
  split at h
  · exact h
  · rename_i hquote
    rw [Bool.not_eq_true] at hquote
    split at h
    · exact .plain hquote hopens h
    · split at h
      all_goals exact .plain hquote hopens h

theorem isClosed_wordPart (hpart : isWordPart c = true) (h : IsClosed rest) : IsClosed (c :: rest) := by
  have hquote : isQuote c = false := by
    rw [Bool.eq_false_iff]
    intro hquote
    rw [isWordPart_of_isQuote hquote] at hpart
    cases hpart
  have hslash : c ≠ '/' := by
    rintro rfl
    exact absurd hpart (by decide)
  exact .plain hquote (opensComment_of_ne hslash) h

end Steps

end Tsconfig.Source
