import Tsconfig.Proofs.Json.Lenient

/-!
The accepted texts that are decorated objects are the tidy ones: no block comment is left open, and a
comma in front of a closing bracket comes right behind an element.
-/
namespace Tsconfig.Json.Commented
open Text

/-- Whether an element has just ended once a character has been read, if one had ended before it. -/
def endsElement (place : Place) (ended : Bool) (c : Char) : Bool :=
  if place = .plain ∧ isBlank c = false then c ∉ ['[', '{', ':', ','] else ended

/-- Whether comments and commas are where they should be in the rest of a text. The flag says whether
an element has just ended. -/
def isTidy : Place → Bool → List Char → Bool
  | .blockComment, _, [] => false
  | _, _, [] => true
  | .lineComment, ended, c :: rest => isTidy (if c = '\n' then .plain else .lineComment) ended rest
  | .blockComment, ended, '*' :: '/' :: rest => isTidy .plain ended rest
  | .blockComment, ended, _ :: rest => isTidy .blockComment ended rest
  | .plain, ended, '/' :: '/' :: rest => isTidy .lineComment ended rest
  | .plain, ended, '/' :: '*' :: rest => isTidy .blockComment ended rest
  | .plain, ended, ',' :: rest =>
    (ended || !closesNext (blankComments .plain rest)) && isTidy .plain false rest
  | place, ended, c :: rest => isTidy (place.next c) (endsElement place ended c) rest

section Reading
variable {ended : Bool} {c : Char} {rest : List Char}

theorem isTidy_comma : isTidy .plain ended (',' :: rest) =
    ((ended || !closesNext (blankComments .plain rest)) && isTidy .plain false rest) := by
  rw [isTidy]

theorem isTidy_other (hc : c ∉ ['/', ',', '"']) :
    isTidy .plain ended (c :: rest) = isTidy .plain (endsElement .plain ended c) rest := by
  simp only [List.mem_cons, List.not_mem_nil, or_false, not_or] at hc
  rw [isTidy]
  all_goals simp_all [Place.next]

theorem isTidy_space (hc : isSpace c = true) :
    isTidy .plain ended (c :: rest) = isTidy .plain ended rest := by
  have hblank := isBlank_of_isSpace hc
  rw [isTidy_other (notMem_of_isBlank hblank), endsElement, if_neg]
  simp [hblank]

theorem isTidy_mark (hc : c ∈ marks) (hcomma : c ≠ ',') :
    isTidy .plain ended (c :: rest) = isTidy .plain (c = ']' || c = '}') rest := by
  simp only [marks, List.mem_cons, List.not_mem_nil, or_false] at hc
  rcases hc with rfl | rfl | rfl | rfl | rfl | rfl
  · exact isTidy_other (by decide)
  · exact isTidy_other (by decide)
  · exact isTidy_other (by decide)
  · exact isTidy_other (by decide)
  · exact isTidy_other (by decide)
  · exact absurd rfl hcomma

theorem isTidy_literal {body : List Char} (hbody : LiteralBody body) :
    isTidy .plain ended ('"' :: (body ++ '"' :: rest)) = isTidy .plain true rest := by
  have hopen : isTidy .plain ended ('"' :: (body ++ '"' :: rest)) =
      isTidy .string true (body ++ '"' :: rest) := by
    rw [isTidy]
    · rfl
    all_goals simp
  have hstring (c : Char) (rest : List Char) :
      isTidy .string true (c :: rest) = isTidy (Place.next .string c) true rest := by
    rw [isTidy]
    · rfl
    all_goals simp
  have hescape (c : Char) (rest : List Char) :
      isTidy .escape true (c :: rest) = isTidy .string true rest := by
    rw [isTidy]
    · rfl
    all_goals simp
  rw [hopen]
  clear hopen
  induction hbody with
  | nil => exact hstring '"' rest
  | plain hquote hback _ ih =>
    rw [List.cons_append, hstring, Place.next, if_neg hback, if_neg hquote, ih]
  | escape _ ih =>
    rw [List.cons_append, List.cons_append, hstring, Place.next, if_pos rfl, hescape, ih]

theorem isTidy_word {word : List Char} (hnil : word ≠ []) (hword : ∀ c ∈ word, isWordChar c = true) :
    isTidy .plain ended (word ++ rest) = isTidy .plain true rest := by
  induction word generalizing ended with
  | nil => exact absurd rfl hnil
  | cons c word ih =>
    have hno : ∀ d ∈ ['/', ',', '"', '[', '{', ':'], isWordChar d = false :=
      List.forall_iff_forall_mem.mp (by decide)
    have hc := hword c List.mem_cons_self
    have hmem : c ∉ ['/', ',', '"', '[', '{', ':'] := fun hmem => by
      cases hc.symm.trans (hno c hmem)
    have hplain : c ∉ ['/', ',', '"'] := fun h => hmem (List.mem_append_left ['[', '{', ':'] h)
    have hends : endsElement .plain ended c = true := by
      simp at hmem
      simp [endsElement, isBlank_of_isWordChar hc, hmem]
    rw [List.cons_append, isTidy_other hplain, hends]
    cases word with
    | nil => rfl
    | cons d word => exact ih (by simp) fun e he => hword e (List.mem_cons_of_mem _ he)

theorem isTidy_lineComment {body : List Char} (hbody : '\n' ∉ body) (rest : List Char) :
    isTidy .lineComment ended (body ++ rest) = isTidy .lineComment ended rest := by
  induction body with
  | nil => rfl
  | cons c body ih =>
    rw [List.mem_cons, not_or] at hbody
    rw [List.cons_append, isTidy, if_neg (Ne.symm hbody.1), ih hbody.2]

theorem isTidy_blockComment {body : List Char} (hbody : ¬ ['*', '/'] <:+: body) (rest : List Char) :
    isTidy .blockComment ended (body ++ '*' :: '/' :: rest) = isTidy .plain ended rest := by
  induction body with
  | nil => rw [List.nil_append, isTidy]
  | cons c body ih =>
    rw [List.cons_append, isTidy, ih fun hinfix => hbody (List.infix_cons hinfix)]
    exact not_ends_early hbody rest

theorem isTidy_openBlock {body : List Char} (hbody : ¬ ['*', '/'] <:+: body) :
    isTidy .blockComment ended body = false := by
  induction body with
  | nil => rw [isTidy]
  | cons c body ih =>
    rw [isTidy, ih fun hinfix => hbody (List.infix_cons hinfix)]
    rintro tail rfl rfl
    exact hbody ⟨[], tail, rfl⟩

theorem isTidy_filler {chunk : List Char} (hchunk : Filler true chunk) :
    isTidy .plain ended (chunk ++ rest) = isTidy .plain ended rest := by
  cases hchunk with
  | space hc => exact isTidy_space hc
  | @line body hbody =>
    simp only [List.cons_append, List.append_assoc, isTidy]
    rw [isTidy_lineComment hbody, isTidy, if_pos rfl, List.nil_append]
  | @block body hbody =>
    simp only [List.cons_append, List.append_assoc, isTidy, List.nil_append]
    rw [isTidy_blockComment hbody]

theorem isTidy_blank {text : List Char} (h : text.all isBlank = true) :
    isTidy .plain ended text = true := by
  induction text with
  | nil => rfl
  | cons c rest ih =>
    rw [List.all_cons, Bool.and_eq_true] at h
    rw [isTidy_other (notMem_of_isBlank h.1), endsElement, if_neg (by simp [h.1]), ih h.2]

end Reading

section Accepted
variable {ended trailed : Bool} {text base : List Char} {fields : Object}

/-- Decorated strict JSON is tidy. -/
theorem Decorated.isTidy_eq (h : Decorated true ended base text)
    (hbase : blankCommas .plain base = base) : isTidy .plain ended text = true := by
  have hcommas := keepsTokens_blankCommas
  induction h with
  | nil => rfl
  | @lastLine ended body _ hbody =>
    have hline : isTidy .lineComment ended (body ++ []) = isTidy .lineComment ended [] :=
      isTidy_lineComment hbody []
    rw [List.append_nil] at hline
    rw [isTidy, hline, isTidy]
    nofun
  | fill hchunk _ ih =>
    rw [isTidy_filler hchunk]
    exact ih hbase
  | comma _ _ _ ih =>
    rw [isTidy_comma, Bool.true_or, Bool.true_and]
    exact ih hbase
  | space hc _ ih =>
    rw [hcommas.space hc] at hbase
    rw [isTidy_space hc]
    exact ih (List.cons.inj hbase).2
  | @mark _ c base text hc h ih =>
    by_cases hcomma : c = ','
    · subst hcomma
      obtain ⟨hopen, hrest⟩ := blankCommas_comma_eq_self hbase
      rw [isTidy_comma, h.blankComments.closesNext_eq (by decide), hopen, ← ih hrest]
      simp
    · rw [hcommas.mark hc hcomma] at hbase
      rw [isTidy_mark hc hcomma]
      exact ih (List.cons.inj hbase).2
  | string hbody _ ih =>
    rw [hcommas.literal hbody] at hbase
    have hrest := List.append_cancel_left (List.cons.inj hbase).2
    rw [isTidy_literal hbody]
    exact ih (List.cons.inj hrest).2
  | word hnil hword _ _ ih =>
    rw [hcommas.word hword] at hbase
    rw [isTidy_word hnil hword]
    exact ih (List.append_cancel_left hbase)

/-- A tidy text is decorated wherever it is accepted. -/
theorem Lenient.decorated (h : Lenient trailed base text) (htidy : isTidy .plain ended text = true) :
    Decorated true ended base text := by
  induction h generalizing ended with
  | nil => exact .nil
  | last hchunk =>
    cases hchunk with
    | line hbody => exact .lastLine rfl hbody
    | block hbody =>
      rw [isTidy, isTidy_openBlock hbody] at htidy
      cases htidy
  | fill hchunk _ ih =>
    rw [isTidy_filler hchunk] at htidy
    exact .fill hchunk (ih htidy)
  | @comma c base text hclose h ih =>
    have hcloses : closesNext (c :: base) = true := by rcases hclose with rfl | rfl <;> rfl
    rw [isTidy_comma, h.closesNext_eq (.inl rfl), hcloses] at htidy
    simp only [Bool.not_true, Bool.or_false, Bool.and_eq_true] at htidy
    obtain ⟨rfl, htidy⟩ := htidy
    exact .comma h.skipSpace_eq hclose (ih htidy)
  | @mark _ c base text hc _ ih =>
    by_cases hcomma : c = ','
    · subst hcomma
      rw [isTidy_comma, Bool.and_eq_true] at htidy
      exact .mark hc (ih htidy.2)
    · rw [isTidy_mark hc hcomma] at htidy
      exact .mark hc (ih htidy)
  | string hbody _ ih =>
    rw [isTidy_literal hbody] at htidy
    exact .string hbody (ih htidy)
  | word hnil hword hends _ ih =>
    rw [isTidy_word hnil hword] at htidy
    exact .word hnil hword hends (ih htidy)

theorem isTidy_of_decorated {base : List Char} (hparse : parse base = .ok (.obj fields))
    (h : Decorated true false base text) : isTidy .plain false text = true :=
  h.isTidy_eq (blankCommas_of_tokens (tokens_of_parse hparse))

/-- Every accepted text is white space alone or an object up to fillers, commas in front of closing
brackets and a comment that nothing ends. Exactly the tidy ones are white space alone or an object up
to whole comments, white space and one trailing comma in each list or object that has an element. -/
theorem decorated_iff_isTidy (h : parseObject text = .ok fields) :
    ((dropMark text).all isBlank = true ∧ fields = [] ∨
      ∃ base, parse base = .ok (.obj fields) ∧ Lenient false base (dropMark text)) ∧
    (((dropMark text).all isBlank = true ∧ fields = [] ∨
      ∃ base, parse base = .ok (.obj fields) ∧ Decorated true false base (dropMark text)) ↔
      isTidy .plain false (dropMark text) = true) := by
  have haccepted := parseObject_eq_ok_iff.mp h
  refine ⟨haccepted, ?_, fun htidy => ?_⟩
  · rintro (⟨hblank, -⟩ | ⟨base, hparse, hdecorated⟩)
    · exact isTidy_blank hblank
    · exact isTidy_of_decorated hparse hdecorated
  · refine haccepted.imp_right ?_
    rintro ⟨base, hparse, hlenient⟩
    exact ⟨base, hparse, hlenient.decorated htidy⟩

/-- `{"a":[1,],}//` is tidy. -/
theorem decorated_trailing :
    ∃ base, parse base = .ok (.obj [("a", .arr [.num (.int 1 (by decide))])]) ∧
      Decorated true false base
        ['{', '"', 'a', '"', ':', '[', '1', ',', ']', ',', '}', '/', '/'] := by
  have hparse : parseObject ['{', '"', 'a', '"', ':', '[', '1', ',', ']', ',', '}', '/', '/'] =
      .ok [("a", .arr [.num (.int 1 (by decide))])] := by cbv
  rcases (decorated_iff_isTidy hparse).2.mpr (by decide) with ⟨hblank, -⟩ | hdecorated
  · exact absurd hblank (by decide)
  · exact hdecorated

/-- A comma in an empty object and a block comment that is left open are accepted. -/
theorem accepted_not_decorated :
    (parseObject ['{', ',', '}'] = .ok [] ∧ ['{', ',', '}'].all isBlank = false ∧
      ∀ fields base, parse base = .ok (.obj fields) →
        ¬ Decorated true false base ['{', ',', '}']) ∧
    parseObject ['{', '}', '/', '*'] = .ok [] ∧ ['{', '}', '/', '*'].all isBlank = false ∧
      ∀ fields base, parse base = .ok (.obj fields) →
        ¬ Decorated true false base ['{', '}', '/', '*'] := by
  refine ⟨⟨by cbv, by decide, fun fields base hparse hdecorated => ?_⟩, by cbv, by decide,
    fun fields base hparse hdecorated => ?_⟩
  · exact absurd (isTidy_of_decorated hparse hdecorated) (by decide)
  · exact absurd (isTidy_of_decorated hparse hdecorated) (by decide)

end Accepted

end Tsconfig.Json.Commented
