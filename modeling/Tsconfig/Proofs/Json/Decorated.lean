import Tsconfig.Proofs.Json.Spacing

/-! Comments, white space and trailing commas do not change the object that a config stands for. -/
namespace Tsconfig.Json.Commented
open Text

/-- What may stand between tokens: white space and, where they are allowed, whole comments. A line
comment goes to the end of its line, a block comment to the first mark that closes it. -/
inductive Filler : Bool → List Char → Prop
  | space {comments : Bool} {c : Char} (hc : isSpace c = true) : Filler comments [c]
  | line {body : List Char} (hbody : '\n' ∉ body) : Filler true ('/' :: '/' :: (body ++ ['\n']))
  | block {body : List Char} (hbody : ¬ ['*', '/'] <:+: body) :
      Filler true ('/' :: '*' :: (body ++ ['*', '/']))

/-- The second text is the first with fillers between its tokens, and with commas that may follow the
last element of a list or an object. The flag says whether an element has just ended. -/
inductive Decorated (comments : Bool) : Bool → List Char → List Char → Prop
  | nil {ended : Bool} : Decorated comments ended [] []
  /-- At the end of the text no line break ends a line comment. -/
  | lastLine {ended : Bool} {body : List Char} (hcomments : comments = true) (hbody : '\n' ∉ body) :
      Decorated comments ended [] ('/' :: '/' :: body)
  | fill {ended : Bool} {chunk text other : List Char} (hchunk : Filler comments chunk)
      (h : Decorated comments ended text other) : Decorated comments ended text (chunk ++ other)
  | comma {text rest other : List Char} {c : Char} (hs : skipSpace text = c :: rest)
      (hclose : c = ']' ∨ c = '}') (h : Decorated comments false text other) :
      Decorated comments true text (',' :: other)
  | space {ended : Bool} {c : Char} {text other : List Char} (hc : isSpace c = true)
      (h : Decorated comments ended text other) : Decorated comments ended (c :: text) (c :: other)
  | mark {ended : Bool} {c : Char} {text other : List Char} (hc : c ∈ marks)
      (h : Decorated comments (c = ']' || c = '}') text other) :
      Decorated comments ended (c :: text) (c :: other)
  | string {ended : Bool} {body text other : List Char} (hbody : LiteralBody body)
      (h : Decorated comments true text other) :
      Decorated comments ended ('"' :: (body ++ '"' :: text)) ('"' :: (body ++ '"' :: other))
  | word {ended : Bool} {word text other : List Char} (hnil : word ≠ [])
      (hword : ∀ c ∈ word, isWordChar c = true) (hends : WordEnds text)
      (h : Decorated comments true text other) : Decorated comments ended (word ++ text) (word ++ other)

section Keeping
variable {pass : Place → List Char → List Char}

/-- A pass over a text that leaves tokens alone, up to commas and slashes. -/
structure KeepsTokens (pass : Place → List Char → List Char) : Prop where
  nil : ∀ place, pass place [] = []
  other : ∀ c rest, c ∉ ['/', ',', '"'] → pass .plain (c :: rest) = c :: pass .plain rest
  quote : ∀ rest, pass .plain ('"' :: rest) = '"' :: pass .string rest
  string : ∀ c rest, pass .string (c :: rest) = c :: pass (Place.next .string c) rest
  escape : ∀ c rest, pass .escape (c :: rest) = c :: pass .string rest

theorem keepsTokens_blankComments : KeepsTokens blankComments := by
  constructor
  · intro place
    cases place <;> rw [blankComments]
  · intro c rest hc
    simp only [List.mem_cons, List.not_mem_nil, or_false, not_or] at hc
    rw [blankComments]
    all_goals simp_all [Place.next]
  · intro rest
    rw [blankComments]
    all_goals simp [Place.next]
  · intro c rest
    rw [blankComments]
    all_goals simp
  · intro c rest
    rw [blankComments]
    all_goals simp [Place.next]

theorem keepsTokens_blankCommas : KeepsTokens blankCommas := by
  constructor
  · intro place
    cases place <;> rw [blankCommas]
  · intro c rest hc
    simp only [List.mem_cons, List.not_mem_nil, or_false, not_or] at hc
    rw [blankCommas]
    all_goals simp_all [Place.next]
  · intro rest
    rw [blankCommas]
    all_goals simp [Place.next]
  · intro c rest
    rw [blankCommas]
    all_goals simp
  · intro c rest
    rw [blankCommas]
    all_goals simp [Place.next]

theorem KeepsTokens.literal (h : KeepsTokens pass) {body : List Char} (hbody : LiteralBody body)
    (rest : List Char) :
    pass .plain ('"' :: (body ++ '"' :: rest)) = '"' :: (body ++ '"' :: pass .plain rest) := by
  rw [h.quote]
  congr 1
  induction hbody with
  | nil => exact h.string '"' rest
  | plain hquote hback _ ih =>
    rw [List.cons_append, h.string, Place.next, if_neg hback, if_neg hquote, ih]
    rfl
  | escape _ ih =>
    rw [List.cons_append, List.cons_append, h.string, Place.next, if_pos rfl, h.escape, ih]
    rfl

theorem KeepsTokens.word (h : KeepsTokens pass) {word : List Char}
    (hword : ∀ c ∈ word, isWordChar c = true) (rest : List Char) :
    pass .plain (word ++ rest) = word ++ pass .plain rest := by
  induction word with
  | nil => rfl
  | cons c word ih =>
    have hc : c ∉ ['/', ',', '"'] := by
      have hplain : ∀ d ∈ ['/', ',', '"'], isWordChar d = false :=
        List.forall_iff_forall_mem.mp (by decide)
      intro hmem
      cases (hword c List.mem_cons_self).symm.trans (hplain c hmem)
    rw [List.cons_append, h.other c _ hc, ih fun d hd => hword d (List.mem_cons_of_mem _ hd)]
    rfl

theorem KeepsTokens.space (h : KeepsTokens pass) {c : Char} (hc : isSpace c = true)
    (rest : List Char) : pass .plain (c :: rest) = c :: pass .plain rest := by
  exact h.other _ _ (notMem_of_isBlank (isBlank_of_isSpace hc))

theorem KeepsTokens.mark (h : KeepsTokens pass) {c : Char} (hc : c ∈ marks) (hcomma : c ≠ ',')
    (rest : List Char) : pass .plain (c :: rest) = c :: pass .plain rest := by
  apply h.other
  have hplain : ∀ d ∈ marks, d ≠ ',' → d ∉ ['/', ',', '"'] :=
    List.forall_iff_forall_mem.mp (by decide)
  exact hplain c hc hcomma

end Keeping

section Comments

theorem blankComments_comma (rest : List Char) :
    blankComments .plain (',' :: rest) = ',' :: blankComments .plain rest := by
  rw [blankComments]
  all_goals simp [Place.next]

theorem blankComments_lineComment {body : List Char} (h : '\n' ∉ body) (rest : List Char) :
    blankComments .lineComment (body ++ rest) =
      body.map (fun _ => ' ') ++ blankComments .lineComment rest := by
  induction body with
  | nil => rfl
  | cons c body ih =>
    rw [List.mem_cons, not_or] at h
    rw [List.cons_append, blankComments, if_neg (Ne.symm h.1), ih h.2]
    rfl

/-- A comment does not end before its body does. -/
theorem not_ends_early {c : Char} {body : List Char} (h : ¬ ['*', '/'] <:+: c :: body)
    (rest : List Char) : ∀ tail, c = '*' → body ++ '*' :: '/' :: rest = '/' :: tail → False := by
  rintro tail rfl heq
  cases body with
  | nil => cases heq
  | cons d body =>
    obtain ⟨rfl, -⟩ := List.cons.inj heq
    exact h ⟨[], body, rfl⟩

theorem blankComments_blockComment {body : List Char} (h : ¬ ['*', '/'] <:+: body)
    (rest : List Char) :
    blankComments .blockComment (body ++ '*' :: '/' :: rest) =
      body.map (fun c => if c = '\n' ∨ c = '\r' then c else ' ') ++
        ' ' :: ' ' :: blankComments .plain rest := by
  induction body with
  | nil => rfl
  | cons c body ih =>
    rw [List.cons_append, blankComments, ih fun hinfix => h (List.infix_cons hinfix)]
    · rfl
    · exact not_ends_early h rest

/-- A filler comes out as white space. -/
theorem exists_blanks_of_filler {chunk : List Char} (h : Filler true chunk) :
    ∃ blanks, (∀ c ∈ blanks, isSpace c = true) ∧ ∀ rest,
      blankComments .plain (chunk ++ rest) = blanks ++ blankComments .plain rest := by
  cases h with
  | @space _ c hc =>
    refine ⟨[c], by simpa using hc, fun rest => ?_⟩
    exact keepsTokens_blankComments.space hc rest
  | @line body hbody =>
    refine ⟨' ' :: ' ' :: (body.map (fun _ => ' ') ++ ['\n']), ?_, fun rest => ?_⟩
    · intro c hc
      simp only [List.mem_cons, List.mem_append, List.mem_map, List.not_mem_nil, or_false] at hc
      rcases hc with rfl | rfl | ⟨_, -, rfl⟩ | rfl
      all_goals decide
    · simp only [List.cons_append, List.append_assoc, blankComments]
      rw [blankComments_lineComment hbody]
      simp [blankComments]
  | @block body hbody =>
    refine ⟨' ' :: ' ' :: (body.map (fun c => if c = '\n' ∨ c = '\r' then c else ' ') ++ [' ', ' ']),
      ?_, fun rest => ?_⟩
    · intro c hc
      simp only [List.mem_cons, List.mem_append, List.mem_map, List.not_mem_nil, or_false] at hc
      rcases hc with rfl | rfl | ⟨d, -, rfl⟩ | rfl | rfl
      · decide
      · decide
      · split
        · rename_i hd
          rcases hd with rfl | rfl <;> decide
        · decide
      · decide
      · decide
    · simp only [List.cons_append, List.append_assoc, blankComments, List.nil_append]
      rw [blankComments_blockComment hbody]

end Comments

section Passes
variable {ended : Bool} {text other : List Char}

theorem Decorated.blanks {blanks : List Char} (hblanks : ∀ c ∈ blanks, isSpace c = true)
    (h : Decorated false ended text other) : Decorated false ended text (blanks ++ other) := by
  induction blanks with
  | nil => exact h
  | cons c blanks ih =>
    have hrest := ih fun d hd => hblanks d (List.mem_cons_of_mem _ hd)
    have hchunk : Filler false [c] := .space (hblanks c List.mem_cons_self)
    rw [← List.singleton_append, List.append_assoc]
    exact .fill hchunk hrest

/-- The first pass turns comments into white space and leaves everything else as it is. -/
theorem Decorated.blankComments (h : Decorated true ended text other) :
    Decorated false ended text (blankComments .plain other) := by
  have hkeeps := keepsTokens_blankComments
  induction h with
  | nil =>
    rw [hkeeps.nil]
    exact .nil
  | @lastLine ended body _ hbody =>
    have hline := blankComments_lineComment hbody []
    rw [List.append_nil, Commented.blankComments] at hline
    rw [Commented.blankComments, hline]
    have hblanks : ∀ c ∈ ' ' :: ' ' :: body.map fun _ => ' ', isSpace c = true := by simp [isSpace]
    exact Decorated.blanks hblanks .nil
  | fill hchunk _ ih =>
    obtain ⟨blanks, hblanks, heq⟩ := exists_blanks_of_filler hchunk
    rw [heq]
    exact ih.blanks hblanks
  | comma hs hclose _ ih =>
    rw [blankComments_comma]
    exact .comma hs hclose ih
  | space hc _ ih =>
    rw [hkeeps.space hc]
    exact .space hc ih
  | @mark _ c _ _ hc _ ih =>
    by_cases hcomma : c = ','
    · subst hcomma
      rw [blankComments_comma]
      exact .mark hc ih
    · rw [hkeeps.mark hc hcomma]
      exact .mark hc ih
  | string hbody _ ih =>
    rw [hkeeps.literal hbody]
    exact .string hbody ih
  | word hnil hword hends _ ih =>
    rw [hkeeps.word hword]
    exact .word hnil hword hends ih

/-- Where no element has just ended, the same token comes next. -/
theorem Decorated.closesNext_eq (h : Decorated false ended text other) (hended : ended = false) :
    closesNext other = closesNext text := by
  induction h with
  | nil => rfl
  | lastLine hcomments => cases hcomments
  | fill hchunk _ ih =>
    cases hchunk with
    | space hc =>
      rw [← ih hended, ← closesNext_skipSpace, List.singleton_append, skipSpace_cons_space hc,
        closesNext_skipSpace]
  | comma => cases hended
  | @space _ c text other hc _ ih =>
    rw [← closesNext_skipSpace, skipSpace_cons_space hc, closesNext_skipSpace, ih hended,
      ← closesNext_skipSpace (c :: text), skipSpace_cons_space hc, closesNext_skipSpace]
  | mark hc =>
    have hblank := isBlank_of_mem_marks _ hc
    rw [closesNext_cons_token hblank, closesNext_cons_token hblank]
  | string =>
    rw [closesNext_cons_token (by decide), closesNext_cons_token (by decide)]
  | @word _ word _ _ hnil hword =>
    cases word with
    | nil => exact absurd rfl hnil
    | cons c word =>
      have hblank := isBlank_of_isWordChar (hword c List.mem_cons_self)
      rw [List.cons_append, List.cons_append, closesNext_cons_token hblank,
        closesNext_cons_token hblank]

theorem wordEnds_of_decorated (h : Decorated false ended text other) (hends : WordEnds text) :
    WordEnds other := by
  cases h with
  | nil => exact hends
  | lastLine hcomments => cases hcomments
  | fill hchunk =>
    cases hchunk with
    | space hc => exact wordEnds_cons.mpr (isWordChar_of_isSpace hc)
  | comma => exact wordEnds_cons.mpr (by decide)
  | space hc => exact wordEnds_cons.mpr (isWordChar_of_isSpace hc)
  | mark hc => exact wordEnds_cons.mpr (isWordChar_of_mem_marks _ hc)
  | string => exact wordEnds_cons.mpr (by decide)
  | @word _ word _ _ hnil hword =>
    cases word with
    | nil => exact absurd rfl hnil
    | cons c word => cases (hword c List.mem_cons_self).symm.trans (wordEnds_cons.mp hends)

theorem blankCommas_comma (rest : List Char) : blankCommas .plain (',' :: rest) =
    (if closesNext rest then ' ' else ',') :: blankCommas .plain rest := by
  rw [blankCommas]

theorem wordEnds_blankCommas (h : WordEnds other) : WordEnds (blankCommas .plain other) := by
  cases other with
  | nil => exact h
  | cons c rest =>
    by_cases hcomma : c = ','
    · subst hcomma
      rw [blankCommas_comma, wordEnds_cons]
      split <;> decide
    · rw [blankCommas]
      · exact h
      · exact fun _ heq => absurd heq hcomma

/-- The second pass takes out the commas that were added, and no others. -/
theorem Decorated.sameTokens_blankCommas (h : Decorated false ended text other)
    (htext : blankCommas .plain text = text) : SameTokens text (blankCommas .plain other) := by
  have hkeeps := keepsTokens_blankCommas
  induction h with
  | nil =>
    rw [hkeeps.nil]
    exact .nil
  | lastLine hcomments => cases hcomments
  | fill hchunk _ ih =>
    cases hchunk with
    | space hc =>
      rw [List.singleton_append, hkeeps.space hc]
      exact .right hc (ih htext)
  | @comma text rest other c hs hclose h ih =>
    have hcloses : closesNext other = true := by
      rw [h.closesNext_eq rfl]
      rcases hclose with rfl | rfl
      · rw [closesNext_of_skipSpace hs (by decide)]
        decide
      · rw [closesNext_of_skipSpace hs (by decide)]
        decide
    rw [blankCommas_comma, hcloses]
    exact .right (by decide) (ih htext)
  | space hc _ ih =>
    rw [hkeeps.space hc] at htext ⊢
    exact .left hc (.right hc (ih (List.cons.inj htext).2))
  | @mark _ c _ _ hc h ih =>
    by_cases hcomma : c = ','
    · subst hcomma
      rw [blankCommas_comma] at htext ⊢
      obtain ⟨hopen, htext⟩ := List.cons.inj htext
      rw [h.closesNext_eq (by decide), hopen]
      exact .mark hc (ih htext)
    · rw [hkeeps.mark hc hcomma] at htext ⊢
      exact .mark hc (ih (List.cons.inj htext).2)
  | string hbody _ ih =>
    rw [hkeeps.literal hbody] at htext ⊢
    have hrest := List.append_cancel_left (List.cons.inj htext).2
    exact .string hbody (ih (List.cons.inj hrest).2)
  | word hnil hword hends h ih =>
    rw [hkeeps.word hword] at htext ⊢
    exact .word hnil hword hends (wordEnds_blankCommas (wordEnds_of_decorated h hends))
      (ih (List.append_cancel_left htext))

/-- Both passes together leave the same tokens. -/
theorem Decorated.sameTokens_strict (h : Decorated true ended text other)
    (htext : blankCommas .plain text = text) : SameTokens text (strict other) :=
  h.blankComments.sameTokens_blankCommas htext

end Passes

section Tokens
variable {text : List Char}

theorem blankCommas_of_tokens (h : Tokens text) : blankCommas .plain text = text := by
  have hkeeps := keepsTokens_blankCommas
  induction h with
  | nil => exact hkeeps.nil .plain
  | space hc _ ih => rw [hkeeps.space hc, ih]
  | @mark c _ hc hcomma _ ih =>
    by_cases heq : c = ','
    · subst heq
      rw [blankCommas_comma, hcomma rfl, ih]
      rfl
    · rw [hkeeps.mark hc heq, ih]
  | string hbody _ ih => rw [hkeeps.literal hbody, ih]
  | word _ hword _ _ ih => rw [hkeeps.word hword, ih]

theorem blankComments_of_tokens (h : Tokens text) : blankComments .plain text = text := by
  have hkeeps := keepsTokens_blankComments
  induction h with
  | nil => exact hkeeps.nil .plain
  | space hc _ ih => rw [hkeeps.space hc, ih]
  | @mark c _ hc _ _ ih =>
    by_cases heq : c = ','
    · subst heq
      rw [blankComments_comma, ih]
    · rw [hkeeps.mark hc heq, ih]
  | string hbody _ ih => rw [hkeeps.literal hbody, ih]
  | word _ hword _ _ ih => rw [hkeeps.word hword, ih]

/-- Strict JSON goes through both passes unchanged. -/
theorem strict_of_tokens (h : Tokens text) : strict text = text := by
  rw [strict, blankComments_of_tokens h, blankCommas_of_tokens h]

/-- A text in tokens is a decoration of itself, the one that adds nothing. -/
theorem decorated_of_tokens {comments ended : Bool} (h : Tokens text) :
    Decorated comments ended text text := by
  induction h generalizing ended with
  | nil => exact .nil
  | space hc _ ih => exact .space hc ih
  | mark hc _ _ ih => exact .mark hc ih
  | string hbody _ ih => exact .string hbody ih
  | word hnil hword hends _ ih => exact .word hnil hword (wordEnds_of_skipSpace hends) ih

end Tokens

section Objects
variable {ended : Bool} {text other : List Char} {fields : Object}

theorem Decorated.skipSpace_eq_nil (h : Decorated true ended text other)
    (hblank : other.all isBlank = true) : skipSpace text = [] := by
  induction h with
  | nil => rfl
  | lastLine => rfl
  | fill _ _ ih =>
    rw [List.all_append, Bool.and_eq_true] at hblank
    exact ih hblank.2
  | comma => cases hblank
  | space hc _ ih =>
    rw [List.all_cons, Bool.and_eq_true] at hblank
    rw [skipSpace_cons_space hc, ih hblank.2]
  | mark hc =>
    rw [List.all_cons, isBlank_of_mem_marks _ hc] at hblank
    cases hblank
  | string => cases hblank
  | @word _ word _ _ hnil hword =>
    cases word with
    | nil => exact absurd rfl hnil
    | cons c word =>
      rw [List.cons_append, List.all_cons,
        isBlank_of_isWordChar (hword c List.mem_cons_self)] at hblank
      cases hblank

theorem Decorated.dropMark_eq (h : Decorated true ended text other) : dropMark other = other := by
  have hno : ∀ rest, other ≠ '\uFEFF' :: rest := by
    rintro rest rfl
    generalize hother : '\uFEFF' :: rest = other at h
    cases h with
    | nil => cases hother
    | lastLine => cases hother
    | fill hchunk =>
      cases hchunk with
      | space hc =>
        obtain ⟨rfl, -⟩ := List.cons.inj hother
        cases hc
      | line => cases hother
      | block => cases hother
    | comma => cases hother
    | space hc =>
      obtain ⟨rfl, -⟩ := List.cons.inj hother
      cases hc
    | mark hc =>
      obtain ⟨rfl, -⟩ := List.cons.inj hother
      exact absurd hc (by decide)
    | string => cases hother
    | @word _ word _ _ hnil hword =>
      cases word with
      | nil => exact absurd rfl hnil
      | cons c word =>
        obtain ⟨rfl, -⟩ := List.cons.inj hother
        cases hword _ List.mem_cons_self
  unfold dropMark
  split
  · exact absurd rfl (hno _)
  · rfl

theorem parseObject_eq_ok (hparse : parse (strict (dropMark text)) = .ok (.obj fields))
    (hblank : ¬ (dropMark text).all isBlank = true) : parseObject text = .ok fields := by
  rw [parseObject, if_neg hblank, hparse]

/-- Every text of an object decorates itself, and all its decorations stand for the same object, its
fields in the same order, with or without a byte order mark. -/
theorem parseObject_decorated (hparse : parse text = .ok (.obj fields)) :
    Decorated true false text text ∧
    ∀ other, Decorated true false text other →
      parseObject other = .ok fields ∧ parseObject ('\uFEFF' :: other) = .ok fields := by
  have htokens : Tokens text := tokens_of_parse hparse
  refine ⟨decorated_of_tokens htokens, fun other h => ?_⟩
  have hstrict : parse (strict other) = .ok (.obj fields) :=
    parse_eq_of_sameTokens (h.sameTokens_strict (blankCommas_of_tokens htokens)) hparse
  have hblank : ¬ other.all isBlank = true := by
    intro hblank
    obtain ⟨rest, hread, -⟩ := parse_eq_ok_iff.mp hparse
    exact skipSpace_ne_nil_of_gives hread (h.skipSpace_eq_nil hblank)
  constructor
  · apply parseObject_eq_ok <;> rwa [h.dropMark_eq]
  · exact parseObject_eq_ok hstrict hblank

/-- `{"a":[1]}` with a line comment that holds a quote and a brace in front, a block comment that
looks like a trailing comma behind the name, commas behind both elements, and a line comment at the
end of the text. -/
theorem parseObject_decorated_list :
    parse "\x7b\"a\":[1]\x7d".toList = .ok (.obj [("a", .arr [.num (.int 1 (by decide))])]) ∧
      parseObject "//\"\x7d\n\x7b\"a\"/*,\x7d*/:[1,\t]/**/, \x7d//]".toList =
        .ok [("a", .arr [.num (.int 1 (by decide))])] := by
  have hparse : parse "\x7b\"a\":[1]\x7d".toList =
      .ok (.obj [("a", .arr [.num (.int 1 (by decide))])]) := by cbv
  have hline (body : List Char) (h : '\n' ∉ body) :
      Filler true ('/' :: '/' :: (body ++ ['\n'])) := .line h
  have hblock (body : List Char) (h : ¬ ['*', '/'] <:+: body) :
      Filler true ('/' :: '*' :: (body ++ ['*', '/'])) := .block h
  have hspace (c : Char) (h : isSpace c = true) : Filler true [c] := .space h
  have hname : LiteralBody ['a'] := .plain (by decide) (by decide) .nil
  have hone : ∀ c ∈ ['1'], isWordChar c = true := List.forall_mem_singleton.mpr (by decide)
  have hdecorated : Decorated true false ['{', '"', 'a', '"', ':', '[', '1', ']', '}']
      ['/', '/', '"', '}', '\n', '{', '"', 'a', '"', '/', '*', ',', '}', '*', '/', ':', '[', '1', ',',
        '\t', ']', '/', '*', '*', '/', ',', ' ', '}', '/', '/', ']'] := by
    refine .fill (hline ['"', '}'] (by decide)) (.mark (by decide) ?_)
    refine .string hname (.fill (hblock [',', '}'] (by decide)) (.mark (by decide) ?_))
    refine .mark (by decide) (.word (by decide) hone (wordEnds_cons.mpr (by decide)) ?_)
    refine .comma rfl (.inl rfl) (.fill (hspace '\t' (by decide)) (.mark (by decide) ?_))
    refine .fill (hblock [] (by decide)) (.comma rfl (.inr rfl) ?_)
    refine .fill (hspace ' ' (by decide)) (.mark (by decide) ?_)
    exact .lastLine rfl (by decide)
  exact ⟨hparse, ((parseObject_decorated hparse).2 _ hdecorated).1⟩

end Objects
end Tsconfig.Json.Commented
