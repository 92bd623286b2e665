import Tsconfig.Proofs.Source.Scan
import Tsconfig.Source.ModuleReference

/-!
Imports and exports with a clause of names. The scan does not tell the names in a clause from the
keywords of statements: behind `function` and `class` it takes the declaration for ended, and behind
`import` and `export` for begun again. What it finds is the specifiers of the declarations that are not
ended when `from` comes.
-/
namespace Tsconfig.Source
open Text

section Names

/-- The characters of identifiers: those of words, others beyond ASCII that are no white space, and
those that escapes are written with. -/
def isNameChar (c : Char) : Bool :=
  isWordPart c || (0x80 ≤ c.toNat && !isBlank c) || c = '\\' || c = '{' || c = '}'

/-- An identifier, which may be a reserved word. -/
def IsName (name : List Char) : Prop := name ≠ [] ∧ ∀ c ∈ name, isNameChar c = true

-- Over the list: quantifiers over characters are decided by going through all there are.
instance (name : List Char) : Decidable (IsName name) :=
  decidable_of_iff (name ≠ [] ∧ name.all isNameChar = true) (by rw [IsName, List.all_eq_true])

/-- The characters of specifiers between single quotes. -/
def isSpecifierChar (c : Char) : Bool := c ≠ '\'' && c ≠ '\\' && c ≠ '\n'

/-- A character between literals and comments that the search for imports takes no notice of. -/
def isInertChar (c : Char) : Bool := isPlain c && c ≠ '.' && c ≠ '(' && c ≠ ';'

/-- A token that the search for imports takes no notice of, unless it is a word that it knows. -/
def Token.isInert : Token → Bool
  | word _ => true
  | text _ => false
  | mark c => c ≠ '.' && c ≠ '(' && c ≠ ';'

def Token.opensDeclaration (token : Token) : Bool :=
  Import.isWord "import" token || Import.isWord "export" token

def Token.endsDeclaration (token : Token) : Bool :=
  Import.isWord "function" token || Import.isWord "class" token

theorem isPlain_of_isInertChar {c : Char} (h : isInertChar c = true) : isPlain c = true := by
  simp only [isInertChar, Bool.and_eq_true] at h
  exact h.1.1.1

theorem isInertChar_of_isNameChar {c : Char} (h : isNameChar c = true) : isInertChar c = true := by
  have hothers : ['"', '\'', '`', '/', '.', '(', ';'].all (fun d => !isNameChar d) = true := by
    decide +kernel
  have hne : c ∉ ['"', '\'', '`', '/', '.', '(', ';'] := by
    intro hc
    have hother := List.all_eq_true.mp hothers c hc
    rw [h] at hother
    cases hother
  simp only [List.mem_cons, List.not_mem_nil, or_false, not_or] at hne
  simp [isInertChar, isPlain, isQuote, hne]

theorem isInert_of_mem_start {c : Char} (h : isInertChar c = true) {token : Token}
    (htoken : token ∈ (Mode.start c).2) : token.isInert = true := by
  rw [Mode.start] at htoken
  repeat' split at htoken
  all_goals simp_all [isInertChar, Token.isInert]

theorem isInert_of_mem_tokensIn {mode : Mode} {text : List Char} {token : Token}
    (hmode : mode = .code ∨ ∃ letters, mode = .word letters)
    (htext : ∀ c ∈ text, isInertChar c = true) (h : token ∈ tokensIn mode text) :
    token.isInert = true := by
  induction text generalizing mode with
  | nil =>
    rcases hmode with rfl | ⟨letters, rfl⟩
    · cases h
    · rw [List.mem_singleton.mp h]
      rfl
  | cons c text ih =>
    obtain ⟨hc, htext⟩ := List.forall_mem_cons.mp htext
    obtain ⟨hquote, hslash⟩ := isPlain_iff.mp (isPlain_of_isInertChar hc)
    have hcode (h : token ∈ tokensIn .code (c :: text)) : token.isInert = true := by
      rw [tokensIn_code (opensComment_of_ne hslash)] at h
      rcases List.mem_append.mp h with hstart | hrest
      · exact isInert_of_mem_start hc hstart
      · exact ih (Mode.start_unquoted hquote).1 htext hrest
    rcases hmode with rfl | ⟨letters, rfl⟩
    · exact hcode h
    · cases hpart : isWordPart c with
      | true =>
        rw [tokensIn_word_part letters hpart] at h
        exact ih (.inr ⟨_, rfl⟩) htext h
      | false =>
        rw [tokensIn_word_end letters hpart] at h
        rcases List.mem_cons.mp h with rfl | hrest
        · rfl
        · exact hcode hrest

end Names

/-- An import or export of names of another module, each under a second name. -/
structure NamedDeclaration where
  exports : Bool
  names : List (List Char × List Char)
  specifier : List Char
  names_ne_nil : names ≠ []
  isName : ∀ pair ∈ names, IsName pair.1 ∧ IsName pair.2
  isSpecifier : ∀ c ∈ specifier, isSpecifierChar c = true

namespace NamedDeclaration

def binding (pair : List Char × List Char) : List Char := pair.1 ++ " as ".toList ++ pair.2

def clause : List (List Char × List Char) → List Char
  | [] => []
  | [pair] => binding pair
  | pair :: rest => binding pair ++ ", ".toList ++ clause rest

def keyword (declaration : NamedDeclaration) : String :=
  if declaration.exports then "export" else "import"

def toChars (declaration : NamedDeclaration) : List Char :=
  declaration.keyword.toList ++ " \x7b ".toList ++ clause declaration.names ++ " \x7d from '".toList ++
    declaration.specifier ++ "';".toList

/-- The tokens of the names in the clause. -/
def nameTokens (declaration : NamedDeclaration) : List Token :=
  declaration.names.flatMap fun pair => tokenize pair.1 ++ tokenize pair.2

/-- The tokens of a declaration in front of its `from`. -/
def openingTokens (declaration : NamedDeclaration) : List Token :=
  .word declaration.keyword.toList :: .mark '{' :: (tokenize (clause declaration.names) ++ [.mark '}'])

/-- Whether the last name that opens or ends a declaration, if the clause has any, opens one. -/
def staysOpen (declaration : NamedDeclaration) : Bool :=
  (declaration.nameTokens.filter fun token =>
    token.opensDeclaration || token.endsDeclaration).getLast?.all Token.opensDeclaration

/-- Declarations one after the other, with white space and comments between them or nothing. -/
inductive IsSequence : List NamedDeclaration → List Char → Prop
  | nil {gap : List Char} (hgap : Spacing gap) : IsSequence [] gap
  | cons {gap rest : List Char} {declaration : NamedDeclaration}
      {declarations : List NamedDeclaration} (hgap : Spacing gap)
      (h : IsSequence declarations rest) :
      IsSequence (declaration :: declarations) (gap ++ (declaration.toChars ++ rest))

/-- Whether a declaration is taken for open after a token. -/
def opensAfter (declaring : Bool) (token : Token) : Bool :=
  if token.opensDeclaration then true else if token.endsDeclaration then false else declaring

theorem foldl_opensAfter (declaring : Bool) (tokens : List Token) :
    tokens.foldl opensAfter declaring =
      ((tokens.filter fun token => token.opensDeclaration || token.endsDeclaration).getLast?.map
        Token.opensDeclaration).getD declaring := by
  induction tokens generalizing declaring with
  | nil => rfl
  | cons token tokens ih =>
    rw [List.foldl_cons, ih, List.filter_cons]
    cases hknown : token.opensDeclaration || token.endsDeclaration with
    | false =>
      obtain ⟨hopens, hends⟩ := Bool.or_eq_false_iff.mp hknown
      rw [opensAfter, hopens, hends]
      rfl
    | true =>
      have hafter : opensAfter declaring token = token.opensDeclaration := by
        rw [opensAfter]
        cases hopens : token.opensDeclaration <;> simp_all
      rw [if_pos rfl, List.getLast?_cons, hafter, Option.getD_map, Option.map_some,
        Option.getD_some]

theorem staysOpen_eq (declaration : NamedDeclaration) :
    declaration.staysOpen = declaration.nameTokens.foldl opensAfter true := by
  rw [foldl_opensAfter, staysOpen]
  cases (declaration.nameTokens.filter fun token =>
    token.opensDeclaration || token.endsDeclaration).getLast? <;> rfl

theorem staysOpen_of_forall {declaration : NamedDeclaration}
    (h : ∀ token ∈ declaration.nameTokens, token.endsDeclaration = false) :
    declaration.staysOpen = true := by
  rw [staysOpen, Option.all_eq_true]
  intro token hlast
  obtain ⟨hmem, hknown⟩ := List.mem_filter.mp (List.mem_of_getLast? hlast)
  rwa [h token hmem, Bool.or_false] at hknown

section Tokens
variable {pair : List Char × List Char} {names : List (List Char × List Char)}

theorem isInertChar_of_mem_binding (h : IsName pair.1 ∧ IsName pair.2) {c : Char}
    (hc : c ∈ binding pair) : isInertChar c = true := by
  simp only [binding, List.mem_append] at hc
  rcases hc with (hname | has) | hname
  · exact isInertChar_of_isNameChar (h.1.2 c hname)
  · have hall : " as ".toList.all isInertChar = true := by decide +kernel
    exact List.all_eq_true.mp hall c has
  · exact isInertChar_of_isNameChar (h.2.2 c hname)

theorem isInertChar_of_mem_clause (h : ∀ pair ∈ names, IsName pair.1 ∧ IsName pair.2) {c : Char}
    (hc : c ∈ clause names) : isInertChar c = true := by
  induction names using clause.induct with
  | case1 => cases hc
  | case2 pair => exact isInertChar_of_mem_binding (h pair List.mem_cons_self) hc
  | case3 pair rest hrest ih =>
    obtain ⟨hpair, htail⟩ := List.forall_mem_cons.mp h
    rw [clause.eq_3 pair rest hrest, List.mem_append, List.mem_append] at hc
    rcases hc with (hpart | hcomma) | htext
    · exact isInertChar_of_mem_binding hpair hpart
    · have hall : ", ".toList.all isInertChar = true := by decide +kernel
      exact List.all_eq_true.mp hall c hcomma
    · exact ih htail htext

theorem isPlain_of_isName {name : List Char} (h : IsName name) : ∀ c ∈ name, isPlain c = true :=
  fun c hc => isPlain_of_isInertChar (isInertChar_of_isNameChar (h.2 c hc))

theorem tokenize_binding (h : IsName pair.1 ∧ IsName pair.2) :
    tokenize (binding pair) = tokenize pair.1 ++ .word "as".toList :: tokenize pair.2 := by
  have hsplit : binding pair = pair.1 ++ ' ' :: ("as".toList ++ ' ' :: pair.2) := by
    simp [binding]
  have has : ∀ c ∈ "as".toList, isPlain c = true := List.all_eq_true.mp (by decide +kernel)
  rw [hsplit, tokenize_append_blank (isPlain_of_isName h.1) (by decide),
    tokenize_append_blank has (by decide)]
  rfl

/-- In a clause only the names count. -/
theorem foldl_tokenize_clause (h : ∀ pair ∈ names, IsName pair.1 ∧ IsName pair.2) (declaring : Bool) :
    (tokenize (clause names)).foldl opensAfter declaring =
      (names.flatMap fun pair => tokenize pair.1 ++ tokenize pair.2).foldl opensAfter declaring := by
  have hbinding (pair : List Char × List Char) (hpair : IsName pair.1 ∧ IsName pair.2)
      (declaring : Bool) : (tokenize (binding pair)).foldl opensAfter declaring =
        (tokenize pair.1 ++ tokenize pair.2).foldl opensAfter declaring := by
    rw [tokenize_binding hpair, List.foldl_append, List.foldl_append, List.foldl_cons]
    rfl
  induction names using clause.induct generalizing declaring with
  | case1 => rfl
  | case2 pair =>
    rw [clause, List.flatMap_singleton]
    exact hbinding pair (h pair List.mem_cons_self) declaring
  | case3 pair rest hrest ih =>
    obtain ⟨hpair, htail⟩ := List.forall_mem_cons.mp h
    have hplain : ∀ c ∈ binding pair, isPlain c = true := fun c hc =>
      isPlain_of_isInertChar (isInertChar_of_mem_binding hpair hc)
    have hcomma : tokenize (clause (pair :: rest)) =
        tokenize (binding pair) ++ .mark ',' :: tokenize (clause rest) := by
      have hmark : ∀ c ∈ [','], isPlain c = true := List.all_eq_true.mp (by decide)
      rw [clause.eq_3 pair rest hrest, List.append_assoc]
      change tokenize (binding pair ++ ([','] ++ ' ' :: clause rest)) = _
      rw [tokenize_append hplain, tokenize_append_blank hmark (by decide)]
      · rfl
      · intro c hc
        obtain rfl : ',' = c := Option.some.inj hc
        decide
    rw [hcomma, List.foldl_append, hbinding pair hpair, List.foldl_cons, List.flatMap_cons]
    simp only [List.foldl_append]
    exact ih htail _

theorem tokenize_keyword (declaration : NamedDeclaration) :
    tokenize declaration.keyword.toList = [.word declaration.keyword.toList] ∧
      ∀ c ∈ declaration.keyword.toList, isPlain c = true := by
  rw [← List.all_eq_true, keyword]
  split <;> decide +kernel

theorem tokenize_specifier (declaration : NamedDeclaration) (rest : List Char) :
    tokenize ('\'' :: (declaration.specifier ++ '\'' :: ';' :: rest)) =
      .text declaration.specifier :: .mark ';' :: tokenize rest := by
  have hbody : ∀ c ∈ declaration.specifier, c ≠ '\\' ∧ endsLiteral '\'' c = false := by
    intro c hc
    have hpart := declaration.isSpecifier c hc
    simp only [isSpecifierChar, Bool.and_eq_true, decide_eq_true_eq] at hpart
    obtain ⟨⟨hquote, hback⟩, hbreak⟩ := hpart
    exact ⟨hback, by simp [endsLiteral, hquote, hbreak]⟩
  rw [tokenize, tokensIn_code (opensComment_of_ne (by decide))]
  change tokensIn (.literal '\'' [] false) _ = _
  rw [tokensIn_literal [] _ (by decide) hbody, tokensIn_code (opensComment_of_ne (by decide)),
    List.append_nil, literalToken, if_neg (by decide), List.reverse_reverse]
  rfl

/-- The tokens of a declaration, in front of those of the text behind it. -/
theorem tokenize_toChars (declaration : NamedDeclaration) (rest : List Char) :
    tokenize (declaration.toChars ++ rest) =
      declaration.openingTokens ++
        .word "from".toList :: .text declaration.specifier :: .mark ';' :: tokenize rest := by
  have hsplit : declaration.toChars ++ rest = declaration.keyword.toList ++ ' ' :: (['{'] ++ ' ' ::
      (clause declaration.names ++ ' ' :: (['}'] ++ ' ' :: ("from".toList ++ ' ' :: '\'' ::
        (declaration.specifier ++ '\'' :: ';' :: rest))))) := by
    simp [toChars]
  obtain ⟨hkeyword, hplain⟩ := tokenize_keyword declaration
  have hclause : ∀ c ∈ clause declaration.names, isPlain c = true := fun c hc =>
    isPlain_of_isInertChar (isInertChar_of_mem_clause declaration.isName hc)
  have hleft : ∀ c ∈ ['{'], isPlain c = true := List.all_eq_true.mp (by decide)
  have hright : ∀ c ∈ ['}'], isPlain c = true := List.all_eq_true.mp (by decide)
  have hfrom : ∀ c ∈ "from".toList, isPlain c = true := List.all_eq_true.mp (by decide +kernel)
  rw [hsplit, tokenize_append_blank hplain (by decide), hkeyword,
    tokenize_append_blank hleft (by decide), tokenize_append_blank hclause (by decide),
    tokenize_append_blank hright (by decide), tokenize_append_blank hfrom (by decide),
    tokenize_specifier]
  simp only [openingTokens, List.cons_append, List.append_assoc]
  rfl

theorem isInert_of_mem_openingTokens {declaration : NamedDeclaration} :
    ∀ token ∈ declaration.openingTokens, token.isInert = true := by
  simp only [openingTokens, List.forall_mem_cons, List.forall_mem_append]
  refine ⟨rfl, rfl, fun token htoken => ?_, rfl, fun _ h => nomatch h⟩
  exact isInert_of_mem_tokensIn (.inl rfl)
    (fun _ => isInertChar_of_mem_clause declaration.isName) htoken

theorem foldl_openingTokens (declaration : NamedDeclaration) :
    declaration.openingTokens.foldl opensAfter false = declaration.staysOpen := by
  have hkeyword : opensAfter false (.word declaration.keyword.toList) = true := by
    rw [keyword]
    split <;> rfl
  rw [openingTokens, List.foldl_cons, hkeyword, List.foldl_cons, List.foldl_append,
    foldl_tokenize_clause declaration.isName, staysOpen_eq]
  rfl

end Tokens

section Search
variable {declaring : Bool} {token next : Token} {rest : List Token}

theorem specifiersIn_inert (htoken : token.isInert = true) (hnext : next.isInert = true) :
    Import.specifiersIn false declaring (token :: next :: rest) =
      Import.specifiersIn false (opensAfter declaring token) (next :: rest) := by
  have hdot : token ≠ .mark '.' := by
    rintro rfl
    cases htoken
  have hsemicolon : token ≠ .mark ';' := by
    rintro rfl
    cases htoken
  have hkept : Import.isWord "from" token = true ∨ Import.isWord "require" token = true →
      opensAfter declaring token = declaring := by
    simp only [Import.isWord, decide_eq_true_eq]
    rintro (rfl | rfl) <;> rfl
  rw [Import.specifiersIn, decide_eq_false hdot, decide_eq_false hsemicolon]
  · simp only [Bool.not_false, Bool.and_true, Bool.false_or, Bool.and_eq_true]
    split
    case isTrue himport => rw [opensAfter, Token.opensDeclaration, himport, Bool.true_or, if_pos rfl]
    case isFalse himport =>
    split
    case isTrue hexport => rw [opensAfter, Token.opensDeclaration, hexport, Bool.or_true, if_pos rfl]
    case isFalse hexport =>
    split
    case isTrue hfrom => rw [hkept (.inl hfrom.1)]
    case isFalse =>
    split
    case isTrue hrequire => rw [hkept (.inr hrequire)]
    case isFalse =>
    have hopens : token.opensDeclaration = false := by simp [Token.opensDeclaration, himport, hexport]
    rw [opensAfter, hopens, if_neg Bool.false_ne_true, Token.endsDeclaration]
    split <;> rfl
  -- no specifier is behind it, with or without a bracket
  all_goals
    rintro _ _ hbehind
    rw [(List.cons.inj hbehind).1] at hnext
    cases hnext

theorem specifiersIn_append_inert {tokens : List Token}
    (htokens : ∀ token ∈ tokens, token.isInert = true) (hnext : next.isInert = true) :
    Import.specifiersIn false declaring (tokens ++ next :: rest) =
      Import.specifiersIn false (tokens.foldl opensAfter declaring) (next :: rest) := by
  induction tokens generalizing declaring with
  | nil => rfl
  | cons token tokens ih =>
    obtain ⟨htoken, htokens⟩ := List.forall_mem_cons.mp htokens
    rw [List.foldl_cons, ← ih htokens]
    -- a token is read by what is behind it: another of these, or the next
    cases tokens with
    | nil => exact specifiersIn_inert htoken hnext
    | cons second tokens => exact specifiersIn_inert htoken (htokens second List.mem_cons_self)

theorem specifiersIn_from (specifier : List Char) :
    Import.specifiersIn false declaring
        (.word "from".toList :: .text specifier :: .mark ';' :: rest) =
      (if declaring then [specifier] else []) ++ Import.specifiersIn false false rest := by
  cases declaring <;> simp [Import.specifiersIn, Import.isWord]

/-- A declaration is found if it is open behind its clause, and leaves none open. -/
theorem specifiersIn_toChars (declaration : NamedDeclaration) (rest : List Char) :
    Import.specifiersIn false false (tokenize (declaration.toChars ++ rest)) =
      (if declaration.staysOpen then [declaration.specifier] else []) ++
        Import.specifiersIn false false (tokenize rest) := by
  rw [tokenize_toChars, specifiersIn_append_inert isInert_of_mem_openingTokens rfl,
    foldl_openingTokens, specifiersIn_from]

end Search

section Sequences
variable {declarations : List NamedDeclaration} {text : List Char}

theorem specifiers_eq_filter (h : IsSequence declarations text) :
    Import.specifiers text = (declarations.filter staysOpen).map specifier := by
  rw [Import.specifiers]
  induction h with
  | nil hgap =>
    have hnone := tokensIn_spacing hgap []
    rw [List.append_nil] at hnone
    rw [tokenize, hnone]
    rfl
  | @cons gap rest declaration declarations hgap _ ih =>
    rw [tokenize, tokensIn_spacing hgap]
    change Import.specifiersIn false false (tokenize _) = _
    rw [specifiersIn_toChars, ih, List.filter_cons]
    cases declaration.staysOpen <;> rfl

/-- Of a sequence of declarations those are found that their names do not end: all of them if and only
if each stays open, as it does where the names hold neither of the words `function` and `class`. -/
theorem specifiers_named (h : IsSequence declarations text) :
    Import.specifiers text = (declarations.filter staysOpen).map specifier ∧
      (Import.specifiers text = declarations.map specifier ↔
        ∀ declaration ∈ declarations, declaration.staysOpen = true) ∧
      ((∀ declaration ∈ declarations, ∀ token ∈ declaration.nameTokens,
          token.endsDeclaration = false) →
        Import.specifiers text = declarations.map specifier) := by
  have hfound := specifiers_eq_filter h
  have hall : Import.specifiers text = declarations.map specifier ↔
      ∀ declaration ∈ declarations, declaration.staysOpen = true := by
    rw [hfound]
    constructor
    · intro heq
      have hlength := congrArg List.length heq
      rw [List.length_map, List.length_map] at hlength
      exact List.length_filter_eq_length_iff.mp hlength
    · intro hopen
      rw [List.filter_eq_self.mpr hopen]
  exact ⟨hfound, hall, fun hnames =>
    hall.mpr fun declaration hmem => staysOpen_of_forall (hnames declaration hmem)⟩

/-- A default that is exported as `class`. -/
def classExport : NamedDeclaration where
  exports := true
  names := [("default".toList, "class".toList)]
  specifier := "./a".toList
  names_ne_nil := List.cons_ne_nil _ _
  isName := by decide +kernel
  isSpecifier := List.all_eq_true.mp (by decide +kernel)

/-- An import that is ended by a name and begun again by the next. -/
def importAsImport : NamedDeclaration where
  exports := false
  names := [("class".toList, "import".toList), ("b".toList, "été".toList)]
  specifier := "./b".toList
  names_ne_nil := List.cons_ne_nil _ _
  isName := by decide +kernel
  isSpecifier := List.all_eq_true.mp (by decide +kernel)

theorem specifiers_named_reserved :
    IsSequence [classExport, importAsImport]
        "export \x7b default as class \x7d from './a';\nimport \x7b class as import, b as été \x7d from './b';".toList ∧
      Import.specifiers
        "export \x7b default as class \x7d from './a';\nimport \x7b class as import, b as été \x7d from './b';".toList =
          ["./b".toList] := by
  have hsequence : IsSequence [classExport, importAsImport]
      ([] ++ (classExport.toChars ++ (['\n'] ++ (importAsImport.toChars ++ [])))) :=
    .cons .nil (.cons (.blank (by decide) .nil) (.nil .nil))
  have htext : [] ++ (classExport.toChars ++ (['\n'] ++ (importAsImport.toChars ++ []))) =
      "export \x7b default as class \x7d from './a';\nimport \x7b class as import, b as été \x7d from './b';".toList := by
    decide +kernel
  rw [htext] at hsequence
  refine ⟨hsequence, (specifiers_named hsequence).1.trans ?_⟩
  decide +kernel

/-- A name can hide the specifier of its declaration. -/
theorem specifiers_classExport :
    classExport.toChars = "export \x7b default as class \x7d from './a';".toList ∧
      Import.specifiers classExport.toChars ≠ [classExport.specifier] := by
  decide +kernel

end Sequences

end NamedDeclaration
end Tsconfig.Source
