import Tsconfig.Proofs.Json.Decorated

/-!
What the reader of configs accepts, exactly. It takes every comma in front of a closing bracket for a
trailing one and lets a block comment go on to the end of the text. Where a text does neither without
need, it is a decorated object.
-/
namespace Tsconfig.Json.Commented
open Text

/-- A comment that reaches to the end of the text, because nothing ends it. -/
inductive Unended : List Char → Prop
  | line {body : List Char} (hbody : '\n' ∉ body) : Unended ('/' :: '/' :: body)
  | block {body : List Char} (hbody : ¬ ['*', '/'] <:+: body) : Unended ('/' :: '*' :: body)

/-- The second text has the tokens of the first, which has nothing between them, with fillers, with a
comment that nothing ends, and with commas in front of closing brackets, whatever comes before these
commas. The flag says whether such a comma comes right before. -/
inductive Lenient : Bool → List Char → List Char → Prop
  | nil {trailed : Bool} : Lenient trailed [] []
  | last {trailed : Bool} {chunk : List Char} (hchunk : Unended chunk) : Lenient trailed [] chunk
  | fill {trailed : Bool} {chunk text other : List Char} (hchunk : Filler true chunk)
      (h : Lenient trailed text other) : Lenient trailed text (chunk ++ other)
  | comma {c : Char} {text other : List Char} (hclose : c = ']' ∨ c = '}')
      (h : Lenient true (c :: text) other) : Lenient false (c :: text) (',' :: other)
  | mark {trailed : Bool} {c : Char} {text other : List Char} (hc : c ∈ marks)
      (h : Lenient false text other) : Lenient trailed (c :: text) (c :: other)
  | string {trailed : Bool} {body text other : List Char} (hbody : LiteralBody body)
      (h : Lenient false text other) :
      Lenient trailed ('"' :: (body ++ '"' :: text)) ('"' :: (body ++ '"' :: other))
  | word {trailed : Bool} {word text other : List Char} (hnil : word ≠ [])
      (hword : ∀ c ∈ word, isWordChar c = true) (hends : WordEnds text)
      (h : Lenient false text other) : Lenient trailed (word ++ text) (word ++ other)

section Strict
variable {pass pass' : Place → List Char → List Char}

theorem KeepsTokens.comp (h : KeepsTokens pass) (h' : KeepsTokens pass') :
    KeepsTokens fun place text => pass' place (pass place text) := by
  constructor
  · intro place
    rw [h.nil, h'.nil]
  · intro c rest hc
    rw [h.other c rest hc, h'.other c _ hc]
  · intro rest
    rw [h.quote, h'.quote]
  · intro c rest
    rw [h.string, h'.string]
  · intro c rest
    rw [h.escape, h'.escape]

/-- Both passes, one after the other. -/
theorem keepsTokens_strict :
    KeepsTokens fun place text => blankCommas place (blankComments place text) :=
  keepsTokens_blankComments.comp keepsTokens_blankCommas

theorem strict_comma (rest : List Char) : strict (',' :: rest) =
    (if closesNext (blankComments .plain rest) then ' ' else ',') :: strict rest := by
  rw [strict, blankComments_comma, blankCommas_comma, strict]

theorem blankCommas_comma_eq_self {rest : List Char}
    (h : blankCommas .plain (',' :: rest) = ',' :: rest) :
    closesNext rest = false ∧ blankCommas .plain rest = rest := by
  rw [blankCommas_comma] at h
  obtain ⟨hcomma, hrest⟩ := List.cons.inj h
  refine ⟨?_, hrest⟩
  by_contra hcloses
  rw [Bool.of_not_eq_false hcloses] at hcomma
  cases hcomma

theorem blankCommas_blanks {blanks : List Char} (hblanks : ∀ c ∈ blanks, isSpace c = true)
    (rest : List Char) : blankCommas .plain (blanks ++ rest) = blanks ++ blankCommas .plain rest := by
  induction blanks with
  | nil => rfl
  | cons c blanks ih =>
    rw [List.cons_append, keepsTokens_blankCommas.space (hblanks c List.mem_cons_self),
      ih fun d hd => hblanks d (List.mem_cons_of_mem _ hd)]
    rfl

/-- A block comment that is not closed comes out as white space, too. -/
theorem isSpace_of_mem_blankComments {body : List Char} (hbody : ¬ ['*', '/'] <:+: body) :
    ∀ c ∈ blankComments .blockComment body, isSpace c = true := by
  induction body with
  | nil => simp [blankComments]
  | cons d body ih =>
    have hearly : ∀ tail, d = '*' → body = '/' :: tail → False := by
      rintro tail rfl rfl
      exact hbody ⟨[], tail, rfl⟩
    rw [blankComments]
    · intro c hc
      rcases List.mem_cons.mp hc with rfl | hc
      · split
        · rename_i hd
          rcases hd with rfl | rfl <;> decide
        · decide
      · exact ih (fun hinfix => hbody (List.infix_cons hinfix)) c hc
    · exact hearly

theorem isSpace_of_mem_unended {chunk : List Char} (h : Unended chunk) :
    ∀ c ∈ blankComments .plain chunk, isSpace c = true := by
  cases h with
  | @line body hbody =>
    have hline := blankComments_lineComment hbody []
    rw [List.append_nil, blankComments] at hline
    rw [blankComments, hline]
    simp [isSpace]
  | block hbody =>
    rw [blankComments]
    simpa [isSpace] using isSpace_of_mem_blankComments hbody

end Strict

section Accepted
variable {trailed : Bool} {text other : List Char}

theorem Lenient.skipSpace_eq (h : Lenient trailed text other) : skipSpace text = text := by
  induction h with
  | nil => rfl
  | last => rfl
  | fill _ _ ih => exact ih
  | comma _ _ ih => exact ih
  | mark hc => exact skipSpace_cons_token (isSpace_eq_false_of_isBlank (isBlank_of_mem_marks _ hc))
  | string => exact skipSpace_cons_token (by decide)
  | @word _ word _ _ hnil hword =>
    cases word with
    | nil => exact absurd rfl hnil
    | cons c word =>
      have hblank := isBlank_of_isWordChar (hword c List.mem_cons_self)
      exact skipSpace_cons_token (isSpace_eq_false_of_isBlank hblank)

/-- Nothing of the first text is lost. -/
theorem Lenient.sublist (h : Lenient trailed text other) : List.Sublist text other := by
  induction h with
  | nil => exact .slnil
  | last => exact List.nil_sublist _
  | fill _ _ ih => exact List.sublist_append_of_sublist_right ih
  | comma _ _ ih => exact ih.cons _
  | mark _ _ ih => exact ih.cons_cons _
  | string _ _ ih => exact ((ih.cons_cons _).append_left _).cons_cons _
  | word _ _ _ _ ih => exact ih.append_left _

/-- What comes next in the first text comes next in the other, up to a comma. -/
theorem Lenient.closesNext_eq (h : Lenient trailed text other)
    (hnext : trailed = true ∨ closesNext text = false) :
    closesNext (blankComments .plain other) = closesNext text := by
  have hkeeps := keepsTokens_blankComments
  induction h with
  | nil => rfl
  | @last _ chunk hchunk =>
    have hblanks := closesNext_blanks (isSpace_of_mem_unended hchunk) []
    rw [List.append_nil] at hblanks
    exact hblanks
  | fill hchunk _ ih =>
    obtain ⟨blanks, hblanks, heq⟩ := exists_blanks_of_filler hchunk
    rw [heq, closesNext_blanks hblanks, ih hnext]
  | @comma c text other hclose =>
    have hc : closesNext (c :: text) = true := by rcases hclose with rfl | rfl <;> rfl
    rcases hnext with hnext | hnext
    · cases hnext
    · cases hc.symm.trans hnext
  | @mark _ c text other hc =>
    have hhead : ∃ rest, blankComments .plain (c :: other) = c :: rest := by
      by_cases hcomma : c = ','
      · subst hcomma
        exact ⟨_, blankComments_comma other⟩
      · exact ⟨_, hkeeps.mark hc hcomma other⟩
    obtain ⟨rest, hhead⟩ := hhead
    have hblank := isBlank_of_mem_marks _ hc
    rw [hhead, closesNext_cons_token hblank, closesNext_cons_token hblank]
  | string hbody =>
    rw [hkeeps.literal hbody, closesNext_cons_token (by decide), closesNext_cons_token (by decide)]
  | @word _ word _ _ hnil hword =>
    rw [hkeeps.word hword]
    cases word with
    | nil => exact absurd rfl hnil
    | cons c word =>
      have hblank := isBlank_of_isWordChar (hword c List.mem_cons_self)
      rw [List.cons_append, List.cons_append, closesNext_cons_token hblank,
        closesNext_cons_token hblank]

end Accepted

section Spacing
variable {trailed : Bool} {text other : List Char}

theorem strict_unended {chunk : List Char} (h : Unended chunk) :
    ∀ c ∈ strict chunk, isSpace c = true := by
  have hblanks := isSpace_of_mem_unended h
  have hcommas := blankCommas_blanks hblanks []
  rw [List.append_nil, keepsTokens_blankCommas.nil, List.append_nil] at hcommas
  rw [strict, hcommas]
  exact hblanks

theorem exists_blanks_strict_of_filler {chunk : List Char} (h : Filler true chunk) :
    ∃ blanks, (∀ c ∈ blanks, isSpace c = true) ∧ (∀ rest,
      blankComments .plain (chunk ++ rest) = blanks ++ blankComments .plain rest) ∧
      ∀ rest, strict (chunk ++ rest) = blanks ++ strict rest := by
  obtain ⟨blanks, hblanks, heq⟩ := exists_blanks_of_filler h
  refine ⟨blanks, hblanks, heq, fun rest => ?_⟩
  rw [strict, heq, blankCommas_blanks hblanks, strict]

/-- The strict form has the tokens of the first text, and no others. -/
theorem Lenient.sameTokens_strict (h : Lenient trailed text other)
    (htext : blankCommas .plain text = text) : SameTokens text (strict other) := by
  have hkeeps := keepsTokens_strict
  have hcommas := keepsTokens_blankCommas
  induction h with
  | nil => exact .nil
  | last hchunk =>
    have hblanks := SameTokens.blanks_right (strict_unended hchunk) .nil
    rwa [List.append_nil] at hblanks
  | fill hchunk _ ih =>
    obtain ⟨blanks, hblanks, -, heq⟩ := exists_blanks_strict_of_filler hchunk
    rw [heq]
    exact (ih htext).blanks_right hblanks
  | @comma c text other hclose h ih =>
    have hc : closesNext (c :: text) = true := by rcases hclose with rfl | rfl <;> rfl
    rw [strict_comma, h.closesNext_eq (.inl rfl), hc]
    exact .right (by decide) (ih htext)
  | @mark _ c text other hc h ih =>
    by_cases hcomma : c = ','
    · subst hcomma
      obtain ⟨hopen, hrest⟩ := blankCommas_comma_eq_self htext
      rw [strict_comma, h.closesNext_eq (.inr hopen), hopen]
      exact .mark hc (ih hrest)
    · rw [hcommas.mark hc hcomma] at htext
      have heq : strict (c :: other) = c :: strict other := hkeeps.mark hc hcomma other
      rw [heq]
      exact .mark hc (ih (List.cons.inj htext).2)
  | @string _ body text other hbody _ ih =>
    rw [hcommas.literal hbody] at htext
    have heq : strict ('"' :: (body ++ '"' :: other)) = '"' :: (body ++ '"' :: strict other) :=
      hkeeps.literal hbody other
    have hrest := List.append_cancel_left (List.cons.inj htext).2
    rw [heq]
    exact .string hbody (ih (List.cons.inj hrest).2)
  | @word _ word text other hnil hword hends h ih =>
    rw [hcommas.word hword] at htext
    have heq : strict (word ++ other) = word ++ strict other := hkeeps.word hword other
    have hsame := ih (List.append_cancel_left htext)
    have hends' : WordEnds (skipSpace (strict other)) := by
      rw [WordEnds, ← hsame.head?, h.skipSpace_eq]
      exact hends
    rw [heq]
    exact .word hnil hword hends (wordEnds_of_skipSpace hends') hsame

end Spacing

section Beginnings

/-- What a text begins with, as the first pass reads it. -/
inductive Start : List Char → Prop
  | nil : Start []
  | last {chunk : List Char} (hchunk : Unended chunk) : Start chunk
  | fill {chunk rest : List Char} (hchunk : Filler true chunk) : Start (chunk ++ rest)
  | code {c : Char} {rest : List Char} (hc : isSpace c = false)
      (hpass : blankComments .plain (c :: rest) = c :: blankComments (Place.next .plain c) rest) :
      Start (c :: rest)

theorem exists_split_block (text : List Char) : ¬ ['*', '/'] <:+: text ∨
    ∃ body rest, text = body ++ '*' :: '/' :: rest ∧ ¬ ['*', '/'] <:+: body := by
  induction text with
  | nil => exact .inl (by decide)
  | cons c text ih =>
    by_cases hstart : ['*', '/'] <+: c :: text
    · obtain ⟨rest, hrest⟩ := hstart
      exact .inr ⟨[], rest, hrest.symm, by decide⟩
    · rcases ih with hno | ⟨body, rest, rfl, hbody⟩
      · exact .inl fun hinfix => (List.infix_cons_iff.mp hinfix).elim hstart hno
      · refine .inr ⟨c :: body, rest, rfl, fun hinfix => ?_⟩
        rcases List.infix_cons_iff.mp hinfix with hbegins | hinfix
        · exact hstart (hbegins.trans (List.prefix_append (c :: body) _))
        · exact hbody hinfix

theorem start (text : List Char) : Start text := by
  cases text with
  | nil => exact .nil
  | cons c rest =>
    by_cases hslash : c = '/'
    · subst hslash
      cases rest with
      | nil => exact .code (by decide) (by decide)
      | cons d rest =>
        by_cases hline : d = '/'
        · subst hline
          by_cases hbreak : '\n' ∈ rest
          · obtain ⟨body, after, rfl, hbody⟩ := List.eq_append_cons_of_mem hbreak
            have hfill : Start ('/' :: '/' :: (body ++ ['\n']) ++ after) := .fill (.line hbody)
            simpa using hfill
          · exact .last (.line hbreak)
        · by_cases hblock : d = '*'
          · subst hblock
            rcases exists_split_block rest with hno | ⟨body, after, rfl, hbody⟩
            · exact .last (.block hno)
            · have hfill : Start ('/' :: '*' :: (body ++ ['*', '/']) ++ after) := .fill (.block hbody)
              simpa using hfill
          · apply Start.code (by decide)
            rw [blankComments]
            all_goals simp [hline, hblock]
    · cases hc : isSpace c with
      | true =>
        have hfill : Start ([c] ++ rest) := .fill (.space hc)
        exact hfill
      | false =>
        apply Start.code hc
        rw [blankComments]
        all_goals simp [hslash]

end Beginnings

section Undoing
variable {pass : Place → List Char → List Char} {c : Char} {text rest : List Char}

theorem KeepsTokens.exists_cons (h : KeepsTokens pass) {place : Place}
    (heq : pass place text = c :: rest) : ∃ d after, text = d :: after := by
  cases text with
  | nil => cases (h.nil place).symm.trans heq
  | cons d after => exact ⟨d, after, rfl⟩

/-- A string that comes out of a pass went into it. -/
theorem KeepsTokens.exists_literal (h : KeepsTokens pass) {body : List Char}
    (hbody : LiteralBody body) (heq : pass .string text = body ++ '"' :: rest) :
    ∃ after, text = body ++ '"' :: after ∧ rest = pass .plain after := by
  induction hbody generalizing text with
  | nil =>
    obtain ⟨d, text, rfl⟩ := h.exists_cons heq
    rw [h.string] at heq
    obtain ⟨rfl, rfl⟩ := List.cons.inj heq
    exact ⟨text, rfl, rfl⟩
  | plain hquote hback _ ih =>
    obtain ⟨d, text, rfl⟩ := h.exists_cons heq
    rw [h.string] at heq
    obtain ⟨rfl, hrest⟩ := List.cons.inj heq
    rw [Place.next, if_neg hback, if_neg hquote] at hrest
    obtain ⟨after, rfl, rfl⟩ := ih hrest
    exact ⟨after, rfl, rfl⟩
  | escape _ ih =>
    obtain ⟨d, text, rfl⟩ := h.exists_cons heq
    rw [h.string] at heq
    obtain ⟨rfl, hescaped⟩ := List.cons.inj heq
    rw [Place.next, if_pos rfl] at hescaped
    obtain ⟨e, text, rfl⟩ := h.exists_cons hescaped
    rw [h.escape] at hescaped
    obtain ⟨rfl, hrest⟩ := List.cons.inj hescaped
    obtain ⟨after, rfl, rfl⟩ := ih hrest
    exact ⟨after, rfl, rfl⟩

/-- Where a pass works, it leaves no word behind. -/
theorem isWordChar_head_strict (hplain : c ∈ ['/', ',', '"']) :
    ∃ d after, strict (c :: rest) = d :: after ∧ isWordChar d = false := by
  simp only [List.mem_cons, List.not_mem_nil, or_false] at hplain
  rcases hplain with rfl | rfl | rfl
  · have hhead : ∃ d after, blankComments .plain ('/' :: rest) = d :: after ∧ (d = ' ' ∨ d = '/') := by
      unfold blankComments
      split <;> simp_all [eq_comm]
    obtain ⟨d, after, heq, hd⟩ := hhead
    rw [strict, heq]
    rcases hd with rfl | rfl
    · exact ⟨' ', _, keepsTokens_blankCommas.space (by decide) after, by decide⟩
    · rw [blankCommas]
      · exact ⟨'/', _, rfl, by decide⟩
      · simp
  · refine ⟨_, _, strict_comma rest, ?_⟩
    split <;> decide
  · exact ⟨'"', _, keepsTokens_strict.quote rest, by decide⟩

/-- A word that comes out of both passes went into them. -/
theorem exists_word {word : List Char} (hword : ∀ c ∈ word, isWordChar c = true)
    (heq : strict text = word ++ rest) : ∃ after, text = word ++ after ∧ rest = strict after := by
  induction word generalizing text with
  | nil => exact ⟨text, rfl, heq.symm⟩
  | cons c word ih =>
    obtain ⟨d, text, rfl⟩ := keepsTokens_strict.exists_cons heq
    by_cases hplain : d ∈ ['/', ',', '"']
    · obtain ⟨e, after, hhead, he⟩ := isWordChar_head_strict hplain
      obtain ⟨rfl, -⟩ := List.cons.inj (heq.symm.trans hhead)
      cases (hword c List.mem_cons_self).symm.trans he
    · have hstep : strict (d :: text) = d :: strict text := keepsTokens_strict.other d text hplain
      obtain ⟨rfl, hrest⟩ := List.cons.inj (hstep.symm.trans heq)
      obtain ⟨after, rfl, rfl⟩ := ih (fun d hd => hword d (List.mem_cons_of_mem _ hd)) hrest
      exact ⟨after, rfl, rfl⟩

theorem closesNext_blankCommas (h : closesNext text = true) :
    closesNext (blankCommas .plain text) = true := by
  have hkeeps := keepsTokens_blankCommas
  induction text with
  | nil => cases h
  | cons c rest ih =>
    cases hc : isBlank c with
    | true =>
      rw [closesNext, List.dropWhile_cons_of_pos hc] at h
      rw [hkeeps.other c rest (notMem_of_isBlank hc), closesNext, List.dropWhile_cons_of_pos hc]
      exact ih h
    | false =>
      rw [closesNext_cons_token hc] at h
      have hplain : c ∉ ['/', ',', '"'] := by
        rintro hmem
        simp at h hmem
        rcases h with rfl | rfl <;> simp at hmem
      rw [hkeeps.other c rest hplain, closesNext_cons_token hc]
      exact h

theorem exists_closer (htokens : Tokens text) (h : closesNext text = true) :
    ∃ c rest, skipSpace text = c :: rest ∧ (c = ']' ∨ c = '}') := by
  induction htokens with
  | nil => cases h
  | @space c rest hc _ ih =>
    rw [← closesNext_skipSpace, skipSpace_cons_space hc, closesNext_skipSpace] at h
    rw [skipSpace_cons_space hc]
    exact ih h
  | @mark c rest hc =>
    have hblank := isBlank_of_mem_marks _ hc
    rw [closesNext_cons_token hblank] at h
    refine ⟨c, rest, skipSpace_cons_token (isSpace_eq_false_of_isBlank hblank), ?_⟩
    simpa [or_comm] using h
  | string =>
    rw [closesNext_cons_token (by decide)] at h
    cases h
  | @word word rest hnil hword =>
    cases word with
    | nil => exact absurd rfl hnil
    | cons c word =>
      have hc := hword c List.mem_cons_self
      rw [List.cons_append, closesNext_cons_token (isBlank_of_isWordChar hc)] at h
      simp at h
      rcases h with rfl | rfl <;> cases hc

/-- Where the strict form of the text is in tokens, the text has these tokens itself. -/
def HasTokens (text : List Char) : Prop :=
  ∀ trailed, (trailed = true → closesNext (blankComments .plain text) = true) →
    Tokens (strict text) → ∃ base, Lenient trailed base text ∧ SameTokens (strict text) base

theorem HasTokens.of_tokens (h : HasTokens text) (htokens : Tokens (strict text)) :
    ∃ base, Lenient false base text ∧ SameTokens (strict text) base :=
  h false (fun htrailed => absurd htrailed Bool.false_ne_true) htokens

theorem hasTokens_fill {chunk : List Char} (hchunk : Filler true chunk) (h : HasTokens rest) :
    HasTokens (chunk ++ rest) := by
  intro trailed htrailed htokens
  obtain ⟨blanks, hblanks, hcomments, heq⟩ := exists_blanks_strict_of_filler hchunk
  rw [hcomments, closesNext_blanks hblanks] at htrailed
  rw [heq] at htokens ⊢
  obtain ⟨base, hbase, hsame⟩ := h trailed htrailed (htokens.of_blanks hblanks)
  exact ⟨base, .fill hchunk hbase, hsame.blanks_left hblanks⟩

theorem hasTokens_comma (h : HasTokens rest) : HasTokens (',' :: rest) := by
  intro trailed htrailed htokens
  rw [blankComments_comma, closesNext_cons_token (by decide)] at htrailed
  cases hcloses : closesNext (blankComments .plain rest) with
  | true =>
    rw [strict_comma, hcloses, if_pos rfl] at htokens ⊢
    replace htokens := htokens.of_space (by decide)
    obtain ⟨base, hbase, hsame⟩ := h true (fun _ => hcloses) htokens
    obtain ⟨c, after, hs, hclose⟩ := exists_closer htokens (closesNext_blankCommas hcloses)
    have hhead := hsame.head?
    rw [hs, hbase.skipSpace_eq, List.head?_cons, eq_comm, List.head?_eq_some_iff] at hhead
    obtain ⟨base, rfl⟩ := hhead
    cases trailed with
    | true => cases htrailed rfl
    | false => exact ⟨c :: base, .comma hclose hbase, .left (by decide) hsame⟩
  | false =>
    rw [strict_comma, hcloses, if_neg (by decide)] at htokens ⊢
    generalize hout : strict rest = out at htokens ⊢
    cases htokens.first (by decide) with
    | mark hc htokens =>
      subst hout
      obtain ⟨base, hbase, hsame⟩ := h.of_tokens htokens
      exact ⟨',' :: base, .mark hc hbase, .mark hc hsame⟩
    | word hword => cases hword ',' List.mem_cons_self

/-- Any other character that the first pass keeps, by the token that it begins. -/
theorem hasTokens_code (hc : isSpace c = false) (hcomma : c ≠ ',')
    (hpass : blankComments .plain (c :: rest) = c :: blankComments (Place.next .plain c) rest)
    (h : ∀ after, after.length ≤ rest.length → HasTokens after) : HasTokens (c :: rest) := by
  intro trailed _ htokens
  have hstep : strict (c :: rest) =
      c :: blankCommas (Place.next .plain c) (blankComments (Place.next .plain c) rest) := by
    rw [strict, hpass, blankCommas]
    exact fun _ heq => absurd heq hcomma
  have hplain (hquote : c ≠ '"') : strict (c :: rest) = c :: strict rest := by
    rw [hstep, Place.next, if_neg hquote, strict]
    all_goals simp
  rw [hstep] at htokens
  generalize hout : blankCommas _ _ = out at hstep htokens
  cases htokens.first hc with
  | mark hmark hnext =>
    rw [hplain (by rintro rfl; exact absurd hmark (by decide))] at hstep ⊢
    obtain rfl := (List.cons.inj hstep).2
    obtain ⟨base, hbase, hsame⟩ := (h rest le_rfl).of_tokens hnext
    exact ⟨c :: base, .mark hmark hbase, .mark hmark hsame⟩
  | @string body _ hbody hnext =>
    rw [hstep]
    obtain ⟨after, rfl, rfl⟩ := keepsTokens_strict.exists_literal hbody hout
    have hshort : after.length ≤ (body ++ '"' :: after).length := by simp; omega
    obtain ⟨base, hbase, hsame⟩ := (h after hshort).of_tokens hnext
    exact ⟨_, .string hbody hbase, .string hbody hsame⟩
  | @word _ word _ hword hends hnext =>
    rw [hplain (by rintro rfl; cases hword '"' List.mem_cons_self)] at hstep ⊢
    have hrest : ∀ d ∈ word, isWordChar d = true := fun d hd => hword d (List.mem_cons_of_mem _ hd)
    obtain ⟨after, rfl, rfl⟩ := exists_word hrest (List.cons.inj hstep).2
    obtain ⟨base, hbase, hsame⟩ := (h after (by simp)).of_tokens hnext
    have hends' : WordEnds base := by
      rw [WordEnds, ← hbase.skipSpace_eq, ← hsame.head?]
      exact hends
    rw [hstep]
    exact ⟨c :: word ++ base, .word (by simp) hword hends' hbase,
      .word (by simp) hword (wordEnds_of_skipSpace hends) hends' hsame⟩

theorem hasTokens (text : List Char) : HasTokens text := by
  induction hlength : text.length using Nat.strongRecOn generalizing text with
  | ind n ih =>
    cases start text with
    | nil => exact fun _ _ _ => ⟨[], .nil, .nil⟩
    | last hchunk =>
      intro trailed _ _
      have hblanks := SameTokens.blanks_left (strict_unended hchunk) .nil
      rw [List.append_nil] at hblanks
      exact ⟨[], .last hchunk, hblanks⟩
    | @fill chunk rest hchunk =>
      have hshort : rest.length < n := by cases hchunk <;> simp at hlength <;> omega
      exact hasTokens_fill hchunk (ih _ hshort rest rfl)
    | @code c rest hc hpass =>
      have hshort (after : List Char) (hle : after.length ≤ rest.length) : after.length < n := by
        rw [List.length_cons] at hlength
        omega
      by_cases hcomma : c = ','
      · subst hcomma
        exact hasTokens_comma (ih _ (hshort rest le_rfl) rest rfl)
      · exact hasTokens_code hc hcomma hpass fun after hle => ih _ (hshort after hle) after rfl

end Undoing

section Objects
variable {text base : List Char} {fields : Object}

theorem not_all_isBlank_of_lenient (h : Lenient false base text)
    (hparse : parse base = .ok (.obj fields)) : ¬ text.all isBlank = true := by
  intro hblank
  have hself : Decorated true false base base := decorated_of_tokens (tokens_of_parse hparse)
  have hbase : base.all isBlank = true := by
    rw [List.all_eq_true] at hblank ⊢
    exact fun c hc => hblank c (h.sublist.subset hc)
  obtain ⟨rest, hread, -⟩ := parse_eq_ok_iff.mp hparse
  exact skipSpace_ne_nil_of_gives hread (hself.skipSpace_eq_nil hbase)

/-- The texts that are accepted: white space alone, and the objects with fillers, trailing commas and
a comment that nothing ends, as `Lenient` has them. -/
theorem parseObject_eq_ok_iff : parseObject text = .ok fields ↔
    (dropMark text).all isBlank = true ∧ fields = [] ∨
      ∃ base, parse base = .ok (.obj fields) ∧ Lenient false base (dropMark text) := by
  constructor
  · intro h
    rw [parseObject] at h
    split at h
    · rename_i hblank
      cases h
      exact .inl ⟨hblank, rfl⟩
    · split at h
      · rename_i hparse
        cases h
        obtain ⟨base, hbase, hsame⟩ := (hasTokens (dropMark text)).of_tokens (tokens_of_parse hparse)
        exact .inr ⟨base, parse_eq_of_sameTokens hsame hparse, hbase⟩
      all_goals cases h
  · rintro (⟨hblank, rfl⟩ | ⟨base, hparse, h⟩)
    · rw [parseObject, if_pos hblank]
    · have htokens : Tokens base := tokens_of_parse hparse
      have hsame := h.sameTokens_strict (blankCommas_of_tokens htokens)
      exact parseObject_eq_ok (parse_eq_of_sameTokens hsame hparse)
        (not_all_isBlank_of_lenient h hparse)

end Objects

end Tsconfig.Json.Commented
