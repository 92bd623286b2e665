import Tsconfig.Proofs.Source.NamedClauses
import Tsconfig.Proofs.Source.Search

/-!
Modules of declarations and of statements that give a literal a name. A declaration ends with its
semicolon and is found whatever stands in front of it; a statement is read up to its literal, and how the
search goes on is up to that.
-/
namespace Tsconfig.Source
open Text

/-- The text between `import` or `export` and `from`: names, stars, braces, commas and white space, and no
word that ends a declaration. It is set off from the words on both sides. -/
structure Clause where
  text : List Char
  isApart : (∃ c ∈ text.head?, isWordPart c = false) ∧ ∃ c ∈ text.getLast?, isWordPart c = false
  isInert : ∀ c ∈ text, isInertChar c = true
  staysOpen : ∀ token ∈ tokenize text, token.endsDeclaration = false

/-- What a declaration starts with: an import of a module for what it does alone, or a clause. -/
inductive Opening
  | bare
  | naming (exports : Bool) (clause : Clause)

/-- An import, or an export of what another module exports, up to its semicolon. -/
structure Declaration where
  opening : Opening
  gap : List Char
  quote : Char
  specifier : List Char
  close : List Char
  spacing_gap : Spacing gap
  quote_eq : quote = '"' ∨ quote = '\''
  isPlain_specifier : ∀ c ∈ specifier, c ≠ '\\' ∧ endsLiteral quote c = false
  spacing_close : Spacing close

namespace Opening

def keyword (exports : Bool) : String := if exports then "export" else "import"

/-- The word between the clause and the specifier. -/
def fromWord : String := "from"

def toChars : Opening → List Char
  | bare => (keyword false).toList
  | naming exports clause => (keyword exports).toList ++ (clause.text ++ fromWord.toList)

/-- The tokens in front of the specifier but for the word right before it. -/
def tokens : Opening → List Token
  | bare => []
  | naming exports clause => .word (keyword exports).toList :: tokenize clause.text

/-- The word in front of the specifier. -/
def lastWord : Opening → String
  | bare => keyword false
  | naming .. => fromWord

end Opening

namespace Declaration

def toChars (declaration : Declaration) : List Char :=
  declaration.opening.toChars ++ (declaration.gap ++ declaration.quote ::
    (declaration.specifier ++ declaration.quote :: (declaration.close ++ [';'])))

end Declaration

/-- The line breaks of source texts. -/
def lineBreaks : List (List Char) := [['\n'], ['\r', '\n'], ['\r'], ['\u2028'], ['\u2029']]

/-- A literal under a name, in a line of its own. -/
structure Statement where
  name : List Char
  literal : List Char
  lineBreak : List Char
  isName : IsName name
  isLineBreak : lineBreak ∈ lineBreaks

namespace Statement

def keyword : String := "const"

/-- The end of the line, from the literal on. -/
def line (statement : Statement) : List Char := statement.literal ++ ';' :: statement.lineBreak

def toChars (statement : Statement) : List Char :=
  keyword.toList ++ ' ' :: (statement.name ++ ' ' :: (['='] ++ ' ' :: statement.line))

end Statement

inductive Item
  | declared (declaration : Declaration)
  | stated (statement : Statement)

namespace Item

def toChars : Item → List Char
  | declared declaration => declaration.toChars
  | stated statement => statement.toChars

def specifier? : Item → Option (List Char)
  | declared declaration => some declaration.specifier
  | stated _ => none

end Item

/-- Declarations and statements one after the other, with white space and comments between them. -/
inductive IsModule : List Item → List Char → Prop
  | nil {gap : List Char} (hgap : Spacing gap) : IsModule [] gap
  | cons {gap rest : List Char} {item : Item} {items : List Item} (hgap : Spacing gap)
      (h : IsModule items rest) : IsModule (item :: items) (gap ++ (item.toChars ++ rest))

section Declarations
variable {declaring : Bool}

theorem tokenize_spacing {gap : List Char} (hgap : Spacing gap) : tokenize gap = [] := by
  have hnone := tokensIn_spacing hgap []
  rwa [List.append_nil] at hnone

theorem Mode.start_mark {c : Char} (hc : isPlain c = true) (hpart : isWordPart c = false) :
    (Mode.start c).1 = .code := by
  have hstart : isWordStart c = false := by
    rw [Bool.eq_false_iff]
    intro hstart
    rw [isWordPart_of_isWordStart hstart] at hpart
    cases hpart
  rw [Mode.start, (isPlain_iff.mp hc).1, if_neg Bool.false_ne_true, hstart,
    if_neg Bool.false_ne_true]
  split <;> rfl

/-- A text that ends with a mark is read by itself. -/
theorem tokenize_append_mark {text : List Char} (htext : ∀ c ∈ text, isPlain c = true)
    (hlast : ∃ c ∈ text.getLast?, isWordPart c = false) (rest : List Char) :
    tokenize (text ++ rest) = tokenize text ++ tokenize rest := by
  obtain ⟨c, hc, hpart⟩ := hlast
  obtain ⟨body, rfl⟩ := List.getLast?_eq_some_iff.mp hc
  obtain ⟨hbody, hplain⟩ := List.forall_mem_append.mp htext
  have hmark : isPlain c = true := hplain c (List.mem_singleton_self c)
  have hread (rest : List Char) : tokenize (c :: rest) = (Mode.start c).2 ++ tokenize rest := by
    rw [tokenize, tokensIn_code (opensComment_of_ne (isPlain_iff.mp hmark).2),
      Mode.start_mark hmark hpart, tokenize]
  have hhead (rest : List Char) : ∀ d ∈ (c :: rest).head?, isWordPart d = false := by
    simpa using hpart
  rw [List.append_assoc, List.singleton_append, tokenize_append hbody (hhead rest),
    tokenize_append hbody (hhead []), hread rest, hread [], List.append_assoc]
  rw [show tokenize [] = [] from rfl, List.append_nil]

/-- The words of declarations and statements are read as words. -/
theorem tokenize_fixed {word : String}
    (h : word ∈ ["import", "export", Opening.fromWord, Statement.keyword]) {rest : List Char}
    (hrest : ∀ c ∈ rest.head?, isWordPart c = false) :
    tokenize (word.toList ++ rest) = .word word.toList :: tokenize rest := by
  have hfixed : ∀ word ∈ ["import", "export", Opening.fromWord, Statement.keyword],
      tokenize word.toList = [.word word.toList] ∧ word.toList.all isPlain = true := by
    decide +kernel
  obtain ⟨hword, hplain⟩ := hfixed word h
  rw [tokenize_append (List.all_eq_true.mp hplain) hrest, hword, List.singleton_append]

theorem Opening.tokenize_toChars (opening : Opening) {rest : List Char}
    (hrest : ∀ c ∈ rest.head?, isWordPart c = false) :
    tokenize (opening.toChars ++ rest) =
      opening.tokens ++ .word opening.lastWord.toList :: tokenize rest := by
  cases opening with
  | bare => exact tokenize_fixed (by decide) hrest
  | naming exports clause =>
    have hclause : ∀ c ∈ clause.text, isPlain c = true := fun c hc =>
      isPlain_of_isInertChar (clause.isInert c hc)
    have hhead : ∀ c ∈ (clause.text ++ (fromWord.toList ++ rest)).head?, isWordPart c = false := by
      obtain ⟨c, hc, hpart⟩ := clause.isApart.1
      rw [List.head?_append, hc]
      simpa using hpart
    have hkeyword : keyword exports ∈ ["import", "export", fromWord, Statement.keyword] := by
      cases exports <;> decide
    rw [toChars, List.append_assoc, List.append_assoc, tokenize_fixed hkeyword hhead,
      tokenize_append_mark hclause clause.isApart.2, tokenize_fixed (by decide) hrest]
    rfl

theorem Declaration.quote_cases (declaration : Declaration) :
    isQuote declaration.quote = true ∧ isWordPart declaration.quote = false ∧
      declaration.quote ≠ '\\' ∧ declaration.quote ≠ '/' ∧ declaration.quote ≠ '`' := by
  rcases declaration.quote_eq with h | h <;> rw [h] <;> decide

theorem isWordPart_head_spacing {gap rest : List Char} (hgap : Spacing gap)
    (hrest : ∀ c ∈ rest.head?, isWordPart c = false) :
    ∀ c ∈ (gap ++ rest).head?, isWordPart c = false := by
  cases hgap with
  | nil => exact hrest
  | blank hc _ => simpa using isWordPart_of_isBlank hc
  | line | block =>
    intro c hc
    obtain rfl : '/' = c := Option.some.inj hc
    decide

theorem Declaration.tokenize_quoted (declaration : Declaration) (rest : List Char) :
    tokenize (declaration.quote :: (declaration.specifier ++ declaration.quote ::
        (declaration.close ++ ';' :: rest))) =
      .text declaration.specifier :: .mark ';' :: tokenize rest := by
  obtain ⟨hquote, -, hback, hslash, htemplate⟩ := declaration.quote_cases
  rw [tokenize, tokensIn_code (opensComment_of_ne hslash), Mode.start, if_pos hquote,
    tokensIn_literal [] _ hback declaration.isPlain_specifier, tokensIn_spacing declaration.spacing_close,
    List.append_nil, literalToken, if_neg htemplate, List.reverse_reverse]
  rfl

theorem Declaration.tokenize_toChars (declaration : Declaration) (rest : List Char) :
    tokenize (declaration.toChars ++ rest) =
      declaration.opening.tokens ++ .word declaration.opening.lastWord.toList ::
        .text declaration.specifier :: .mark ';' :: tokenize rest := by
  have hsplit : declaration.toChars ++ rest = declaration.opening.toChars ++ (declaration.gap ++
      declaration.quote :: (declaration.specifier ++ declaration.quote ::
        (declaration.close ++ ';' :: rest))) := by
    simp [toChars]
  rw [hsplit, declaration.opening.tokenize_toChars]
  · rw [tokenize, tokensIn_spacing declaration.spacing_gap]
    exact congrArg _ (congrArg _ (declaration.tokenize_quoted rest))
  · exact isWordPart_head_spacing declaration.spacing_gap
      (by simpa using declaration.quote_cases.2.1)

theorem foldl_opensAfter_true {tokens : List Token}
    (h : ∀ token ∈ tokens, token.endsDeclaration = false) :
    tokens.foldl NamedDeclaration.opensAfter true = true := by
  induction tokens with
  | nil => rfl
  | cons token tokens ih =>
    obtain ⟨htoken, htokens⟩ := List.forall_mem_cons.mp h
    have hopen : NamedDeclaration.opensAfter true token = true := by
      simp [NamedDeclaration.opensAfter, htoken]
    rw [List.foldl_cons, hopen, ih htokens]

/-- Each declaration is found, and leaves none open. -/
theorem Declaration.specifiersIn_toChars (declaration : Declaration) (rest : List Char) :
    Import.specifiersIn false declaring (tokenize (declaration.toChars ++ rest)) =
      declaration.specifier :: Import.specifiersIn false false (tokenize rest) := by
  rw [declaration.tokenize_toChars]
  cases declaration.opening with
  | bare =>
    change Import.specifiersIn false declaring (.word "import".toList :: _) = _
    simp [Import.specifiersIn, Import.isWord]
  | naming exports clause =>
    have hinert : ∀ token ∈ (Opening.naming exports clause).tokens, token.isInert = true := by
      refine List.forall_mem_cons.mpr ⟨rfl, fun token htoken => ?_⟩
      exact isInert_of_mem_tokensIn (.inl rfl) clause.isInert htoken
    have hkeyword : NamedDeclaration.opensAfter declaring (.word (Opening.keyword exports).toList) = true := by
      cases exports <;> rfl
    rw [NamedDeclaration.specifiersIn_append_inert hinert rfl, Opening.tokens, List.foldl_cons,
      hkeyword, foldl_opensAfter_true clause.staysOpen]
    exact NamedDeclaration.specifiersIn_from declaration.specifier

end Declarations

section Statements
variable {declaring : Bool} {lineBreak : List Char}

theorem isBlank_of_mem_lineBreaks (h : lineBreak ∈ lineBreaks) : ∀ c ∈ lineBreak, isBlank c = true := by
  have hall : lineBreaks.all (fun lineBreak => lineBreak.all isBlank) = true := by decide
  exact List.all_eq_true.mp (List.all_eq_true.mp hall lineBreak h)

theorem Statement.exists_line_eq (statement : Statement) :
    ∃ body c, statement.line = body ++ [c] ∧ isBlank c = true := by
  rcases List.eq_nil_or_concat statement.lineBreak with hnil | ⟨lead, c, hlast⟩
  · have hne : ∀ lineBreak ∈ lineBreaks, lineBreak ≠ [] := by decide
    exact absurd hnil (hne _ statement.isLineBreak)
  · refine ⟨statement.literal ++ ';' :: lead, c, by simp [line, hlast], ?_⟩
    exact isBlank_of_mem_lineBreaks statement.isLineBreak c (by simp [hlast])

theorem Statement.tokenize_toChars (statement : Statement) (rest : List Char) :
    tokenize (statement.toChars ++ rest) =
      .word keyword.toList :: tokenize statement.name ++
        .mark '=' :: tokenize (statement.line ++ rest) := by
  have hsplit : statement.toChars ++ rest = keyword.toList ++ ' ' :: (statement.name ++ ' ' ::
      (['='] ++ ' ' :: (statement.line ++ rest))) := by
    simp [toChars]
  have hequals : ∀ c ∈ ['='], isPlain c = true := List.all_eq_true.mp (by decide)
  have hblank {rest : List Char} : ∀ c ∈ (' ' :: rest).head?, isWordPart c = false := by
    rintro _ ⟨⟩
    decide
  rw [hsplit, tokenize_fixed (by decide) hblank, tokenize, tokensIn_blank (by decide), ← tokenize,
    tokenize_append_blank (NamedDeclaration.isPlain_of_isName statement.isName) (by decide),
    tokenize_append_blank hequals (by decide)]
  rfl

/-- Whether a declaration is taken for open behind the name of a statement. -/
def Statement.declaringAt (statement : Statement) (declaring : Bool) : Bool :=
  (tokenize statement.name).foldl NamedDeclaration.opensAfter declaring

/-- The search goes on with what is behind the equals sign. -/
theorem Statement.specifiersIn_toChars (statement : Statement) (rest : List Char) :
    Import.specifiersIn false declaring (tokenize (statement.toChars ++ rest)) =
      Import.specifiersIn false (statement.declaringAt declaring)
        (tokenize (statement.line ++ rest)) := by
  have hinert : ∀ token ∈ .word keyword.toList :: tokenize statement.name, token.isInert = true := by
    refine List.forall_mem_cons.mpr ⟨rfl, fun token htoken => ?_⟩
    exact isInert_of_mem_tokensIn (.inl rfl)
      (fun c hc => isInertChar_of_isNameChar (statement.isName.2 c hc)) htoken
  have hconst : NamedDeclaration.opensAfter declaring (.word keyword.toList) = declaring := by
    have hopens : Token.opensDeclaration (.word keyword.toList) = false := by decide +kernel
    have hends : Token.endsDeclaration (.word keyword.toList) = false := by decide +kernel
    rw [NamedDeclaration.opensAfter, hopens, hends]
    rfl
  rw [statement.tokenize_toChars, NamedDeclaration.specifiersIn_append_inert hinert rfl,
    List.foldl_cons, hconst, Import.specifiersIn_cons]
  simp [Import.step, Import.isWord, declaringAt]

theorem Item.startsWithWord_toChars (item : Item) (rest : List Char) :
    Import.StartsWithWord (tokenize (item.toChars ++ rest)) := by
  refine .inr ?_
  cases item with
  | declared declaration =>
    rw [toChars, declaration.tokenize_toChars]
    cases declaration.opening with
    | bare => exact ⟨_, _, rfl⟩
    | naming => exact ⟨_, _, rfl⟩
  | stated statement =>
    rw [toChars, statement.tokenize_toChars]
    exact ⟨_, _, rfl⟩

variable {items : List Item} {text : List Char}

theorem IsModule.startsWithWord (h : IsModule items text) :
    Import.StartsWithWord (tokenize text) := by
  cases h with
  | nil hgap => exact .inl (tokenize_spacing hgap)
  | cons hgap _ =>
    rw [tokenize, tokensIn_spacing hgap]
    exact Item.startsWithWord_toChars _ _

theorem isModule_single (item : Item) : IsModule [item] item.toChars := by
  have h : IsModule [item] ([] ++ (item.toChars ++ [])) := .cons .nil (.nil .nil)
  simpa using h

theorem isModule_pair (first second : Item) :
    IsModule [first, second] (first.toChars ++ second.toChars) := by
  have h : IsModule [first, second] ([] ++ (first.toChars ++ second.toChars)) :=
    .cons .nil (isModule_single second)
  simpa using h

end Statements

end Tsconfig.Source
