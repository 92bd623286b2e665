import Mathlib.Data.Bool.AllAny
import Tsconfig.Proofs.Source.Declarations
import Tsconfig.Proofs.Source.Stretch

/-!
Literals between declarations. The scan knows three kinds of literals and reads each up to its quote: it
does not know that a template can hold templates, that a regular expression is a literal, and that a
carriage return and a line feed are one line break. What is left of a literal then is read as code, and
can name modules or take in the declarations behind it.
-/
namespace Tsconfig.Source
open Text

/-- The end of a line that leaves no trace in what is behind it: the scan is done with all literals and
comments in it, whether or not a declaration is open no specifier is found in it, and it does not end
with a dot. -/
structure IsSilent (line : List Char) : Prop where
  closed : ∀ rest, tokenize (line ++ rest) = tokenize line ++ tokenize rest
  noSpecifier : ∀ declaring, Import.specifiersIn false declaring (tokenize line) = []
  noDot : (tokenize line).getLast? ≠ some (.mark '.')

section Silent
variable {declaring : Bool} {quote : Char} {items : List Item}
  {text body literal lineBreak : List Char}

theorem foldl_isDot (tokens : List Token) :
    tokens.foldl (fun _ token => decide (token = .mark '.')) false =
      decide (tokens.getLast? = some (.mark '.')) := by
  rcases List.eq_nil_or_concat tokens with rfl | ⟨body, token, rfl⟩
  · rfl
  · simp

/-- Where all literals are silent, the declarations are found. -/
theorem IsModule.specifiersIn (h : IsModule items text)
    (hsilent : ∀ statement, .stated statement ∈ items → IsSilent statement.line) :
    Import.specifiersIn false declaring (tokenize text) = items.filterMap Item.specifier? := by
  induction h generalizing declaring with
  | nil hgap =>
    rw [tokenize_spacing hgap]
    rfl
  | @cons gap rest item items hgap hrest ih =>
    have hlater (declaring : Bool) : Import.specifiersIn false declaring (tokenize rest) =
        items.filterMap Item.specifier? :=
      ih fun statement hmem => hsilent statement (List.mem_cons_of_mem _ hmem)
    rw [tokenize, tokensIn_spacing hgap]
    change Import.specifiersIn false declaring (tokenize _) = _
    cases item with
    | declared declaration =>
      rw [Item.toChars, declaration.specifiersIn_toChars, hlater]
      rfl
    | stated statement =>
      obtain ⟨hclosed, hnone, hdot⟩ := hsilent statement List.mem_cons_self
      obtain ⟨declaring', hsplit⟩ := Import.exists_specifiersIn_append false
        (statement.declaringAt declaring) (tokenize statement.line)
      rw [Item.toChars, statement.specifiersIn_toChars, hclosed, hsplit _ hrest.startsWithWord,
        hnone, foldl_isDot, decide_eq_false hdot, hlater]
      rfl

/-- A line that is read up to its semicolon as tokens with no specifier is silent. -/
theorem isSilent_of_reads {tokens : List Token}
    (hreads : Reads .code (literal ++ [';']) (tokens ++ [.mark ';']) .code)
    (hnone : ∀ declaring, Import.specifiersIn false declaring (tokens ++ [.mark ';']) = [])
    (hbreak : lineBreak ∈ lineBreaks) : IsSilent (literal ++ ';' :: lineBreak) := by
  have hline : Reads .code (literal ++ ';' :: lineBreak) (tokens ++ [.mark ';']) .code := by
    simpa using hreads.append (reads_blanks (isBlank_of_mem_lineBreaks hbreak))
  refine ⟨hline.tokenize_append, ?_, ?_⟩
  · rwa [hline.tokenize_eq]
  · rw [hline.tokenize_eq]
    simp

/-- Literals that end where the scan takes them to end are silent. -/
theorem isSilent_literal (hquote : isQuote quote = true) (hbody : Inside quote body)
    (hbreak : lineBreak ∈ lineBreaks) :
    IsSilent (quote :: (body ++ [quote]) ++ ';' :: lineBreak) := by
  have hends : endsLiteral quote quote = true := by simp [endsLiteral]
  obtain ⟨value, hreads⟩ := reads_literal hbody hquote hends
  have hsemicolon : Reads .code [';'] [.mark ';'] .code := fun rest => rfl
  refine isSilent_of_reads (hreads.append hsemicolon) (fun declaring => ?_) hbreak
  rw [literalToken]
  split <;> simp [Import.specifiersIn, Import.isWord]

/-- So is what neither quotes nor comments are in. -/
theorem isSilent_unquoted (h : IsUnquoted literal) (hbreak : lineBreak ∈ lineBreaks) :
    IsSilent (literal ++ ';' :: lineBreak) := by
  obtain ⟨tokens, hreads, htokens⟩ := exists_reads_unquoted (.inl rfl) h
  refine isSilent_of_reads hreads (fun declaring => ?_) hbreak
  rw [List.eq_nil_iff_forall_not_mem]
  intro specifier hspecifier
  rcases List.mem_append.mp (Import.mem_of_mem_specifiersIn hspecifier) with htext | hmark
  · exact htokens _ htext specifier rfl
  · cases List.mem_singleton.mp hmark

/-- Silence can be tried out: one letter behind the line tells whether all in it has come to its end. -/
theorem isSilent_of_letter {statement : Statement}
    (hclosed : (tokenize (statement.line ++ ['a'])).length = (tokenize statement.line).length + 1)
    (hopen : Import.specifiersIn false true (tokenize statement.line) = [])
    (hshut : Import.specifiersIn false false (tokenize statement.line) = [])
    (hdot : (tokenize statement.line).getLast? ≠ some (.mark '.')) : IsSilent statement.line := by
  obtain ⟨body, c, hline, hc⟩ := statement.exists_line_eq
  refine ⟨?_, fun declaring => ?_, hdot⟩
  · rw [hline] at hclosed ⊢
    exact (isClosed_of_letter hc hclosed).tokenize_append (by simpa using hc)
  · cases declaring with
    | true => exact hopen
    | false => exact hshut

end Silent

section Loud
variable {next : Mode} {text : List Char} {statement : Statement} {declaring : Bool}

theorem exists_length_lt (tokens : List Token) :
    ∃ n, ∀ value, .text value ∈ tokens → value.length < n := by
  induction tokens with
  | nil => exact ⟨0, by simp⟩
  | cons token tokens ih =>
    obtain ⟨n, hn⟩ := ih
    cases token with
    | text value =>
      refine ⟨max n (value.length + 1), fun other hother => ?_⟩
      rcases List.mem_cons.mp hother with heq | hmem
      · obtain rfl : other = value := by injection heq
        omega
      · exact Nat.lt_of_lt_of_le (hn other hmem) (Nat.le_max_left ..)
    | word | mark => exact ⟨n, fun value hvalue => hn value (by simpa using hvalue)⟩

/-- An import of a module with a name of this length, between double quotes or single ones. -/
def longImport (quote : Char) (hquote : quote = '"' ∨ quote = '\'') (length : Nat) : Declaration where
  opening := .bare
  gap := []
  quote := quote
  specifier := List.replicate length 'a'
  close := []
  spacing_gap := .nil
  quote_eq := hquote
  isPlain_specifier := by
    intro c hc
    rw [List.eq_of_mem_replicate hc]
    rcases hquote with rfl | rfl <;> decide
  spacing_close := .nil

/-- A statement whose literal leaves a declaration open. -/
def openingStatement : Statement where
  name := ['x']
  literal := "/import\\//".toList
  lineBreak := ['\n']
  isName := by decide
  isLineBreak := by decide

theorem longImport_chars {quote : Char} {hquote : quote = '"' ∨ quote = '\''} {length : Nat}
    {c : Char} (hc : c ∈ (longImport quote hquote length).toChars) :
    c = quote ∨ isQuote c = false ∧ c ≠ '\n' ∧ c ≠ '/' ∧ c ≠ '\\' := by
  have hwords : ∀ d ∈ (Opening.keyword false).toList ++ ['a', ';'],
      isQuote d = false ∧ d ≠ '\n' ∧ d ≠ '/' ∧ d ≠ '\\' :=
    List.all_iff_forall_prop.mp (by decide +kernel)
  by_cases heq : c = quote
  · exact .inl heq
  · refine .inr (hwords c ?_)
    simp [longImport, Declaration.toChars, Opening.toChars, heq] at hc ⊢
    grind

theorem exists_other_quote (next : Mode) : ∃ quote,
    (quote = '"' ∨ quote = '\'') ∧ quote ∉ next.quote? := by
  by_cases hdouble : '"' ∈ next.quote?
  · refine ⟨'\'', .inr rfl, fun hsingle => ?_⟩
    exact absurd (Option.mem_unique hdouble hsingle) (by decide)
  · exact ⟨'"', .inl rfl, hdouble⟩

/-- A literal that is not read to its end takes in a declaration behind it. -/
theorem exists_hidden (h : ¬∀ rest, tokenize (statement.line ++ rest) =
    tokenize statement.line ++ tokenize rest) :
    ∃ declaration : Declaration, declaration.specifier ∉
      Import.specifiers (statement.toChars ++ declaration.toChars) := by
  obtain ⟨body, c, hline, hc⟩ := statement.exists_line_eq
  obtain ⟨tokens, next, hreads, hnext, -⟩ := exists_reads hc body
  rw [← hline] at hreads
  have hcode : next ≠ .code := by
    rintro rfl
    exact h hreads.tokenize_append
  obtain ⟨n, hn⟩ := exists_length_lt tokens
  obtain ⟨quote, hquote, hother⟩ := exists_other_quote next
  refine ⟨longImport quote hquote n, fun hmem => ?_⟩
  rw [Import.specifiers, statement.specifiersIn_toChars, tokenize, hreads] at hmem
  -- the name is longer than those in the literal, and what takes it in is longer still
  rcases List.mem_append.mp (Import.mem_of_mem_specifiersIn hmem) with hearly | hlate
  · exact absurd (hn _ hearly) (by simp [longImport])
  · have hlength := length_of_text_mem_tokensIn hcode hnext ?_ hlate
    · simp [longImport, Declaration.toChars, Opening.toChars] at hlength
      omega
    · intro d hd
      rcases longImport_chars hd with rfl | ⟨hother, hbreak, hslash, hback⟩
      · rcases hquote with rfl | rfl <;> exact ⟨by decide, by decide, by decide, by assumption⟩
      · refine ⟨hbreak, hslash, hback, fun hd => ?_⟩
        rw [hnext.quoted d hd] at hother
        cases hother

theorem isSilent_openingStatement : IsSilent openingStatement.line :=
  isSilent_of_letter (by decide +kernel) (by decide +kernel) (by decide +kernel) (by decide +kernel)

/-- Behind the opening statement a declaration is taken for open. -/
theorem specifiersIn_openingStatement (rest : List Char) :
    Import.specifiersIn false declaring (tokenize (openingStatement.toChars ++ rest)) =
      Import.specifiersIn false true (tokenize rest) := by
  have hline : tokenize openingStatement.line =
      [.mark '/', .word "import".toList, .mark '\\'] := by decide +kernel
  rw [openingStatement.specifiersIn_toChars, isSilent_openingStatement.closed, hline]
  simp only [List.cons_append, List.nil_append]
  rw [Import.specifiersIn_cons, Import.specifiersIn_cons, Import.specifiersIn_cons]
  simp [Import.step, Import.isWord, Import.imported?]

/-- The statement of the same literal under a name that the search takes no notice of. -/
def Statement.plain (statement : Statement) : Statement :=
  { statement with name := ['x'], isName := by decide }

theorem Statement.specifiersIn_plain (statement : Statement) (rest : List Char) :
    Import.specifiersIn false declaring (tokenize (statement.plain.toChars ++ rest)) =
      Import.specifiersIn false declaring (tokenize (statement.line ++ rest)) := by
  have hname : tokenize statement.plain.name = [.word ['x']] := by
    rw [show statement.plain.name = ['x'] from rfl]
    decide +kernel
  have hdeclaring : statement.plain.declaringAt declaring = declaring := by
    rw [declaringAt, hname]
    rfl
  rw [statement.plain.specifiersIn_toChars, hdeclaring]
  rfl

/-- A literal that names modules adds them, perhaps only where a declaration is open. -/
theorem exists_added (h : Import.specifiersIn false declaring (tokenize statement.line) ≠ []) :
    Import.specifiers statement.plain.toChars ≠ [] ∨
      Import.specifiers (openingStatement.toChars ++ statement.plain.toChars) ≠ [] := by
  have hread (declaring : Bool) : Import.specifiersIn false declaring (tokenize statement.plain.toChars) =
      Import.specifiersIn false declaring (tokenize statement.line) := by
    simpa using statement.specifiersIn_plain []
  cases declaring with
  | false =>
    refine .inl ?_
    rwa [Import.specifiers, hread]
  | true =>
    refine .inr ?_
    rwa [Import.specifiers, specifiersIn_openingStatement, hread]

/-- A literal that ends with a dot hides an import behind it. -/
theorem hidden_of_dot (hclosed : ∀ rest, tokenize (statement.line ++ rest) =
      tokenize statement.line ++ tokenize rest)
    (hnone : ∀ declaring, Import.specifiersIn false declaring (tokenize statement.line) = [])
    (hdot : (tokenize statement.line).getLast? = some (.mark '.')) :
    Import.specifiers (statement.plain.toChars ++ (longImport '"' (.inl rfl) 1).toChars) = [] := by
  have himport : tokenize (longImport '"' (.inl rfl) 1).toChars =
      [.word "import".toList, .text ['a'], .mark ';'] := by decide +kernel
  obtain ⟨declaring', hsplit⟩ :=
    Import.exists_specifiersIn_append false false (tokenize statement.line)
  rw [Import.specifiers, statement.specifiersIn_plain, hclosed, himport,
    hsplit _ (.inr ⟨_, _, rfl⟩), hnone, foldl_isDot, decide_eq_true hdot]
  simp [Import.specifiersIn, Import.isWord]

/-- All literals of a module are silent but those that end a line in this way. -/
def OthersSilent (line : List Char) (items : List Item) : Prop :=
  ∀ statement, .stated statement ∈ items → statement.line ≠ line → IsSilent statement.line

/-- A literal that is not silent goes wrong in some module whose other literals are. -/
theorem exists_wrong (h : ¬IsSilent statement.line) :
    ∃ items text, IsModule items text ∧ .stated statement.plain ∈ items ∧
      OthersSilent statement.line items ∧
      Import.specifiers text ≠ items.filterMap Item.specifier? := by
  have hothers (declarations : List Declaration) :
      OthersSilent statement.line (.stated statement.plain :: declarations.map .declared) := by
    intro other hother hne
    rcases List.mem_cons.mp hother with heq | hdeclared
    · exact absurd (congrArg Statement.line (Item.stated.inj heq)) hne
    · simp at hdeclared
  by_cases hclosed : ∀ rest, tokenize (statement.line ++ rest) =
      tokenize statement.line ++ tokenize rest
  case neg =>
    obtain ⟨declaration, hhidden⟩ := @exists_hidden statement.plain hclosed
    refine ⟨_, _, isModule_pair (.stated statement.plain) (.declared declaration),
      List.mem_cons_self, hothers [declaration], fun heq => hhidden ?_⟩
    exact heq ▸ List.mem_singleton_self _
  by_cases hnone : ∀ declaring, Import.specifiersIn false declaring (tokenize statement.line) = []
  case neg =>
    obtain ⟨declaring, hfound⟩ := Classical.not_forall.mp hnone
    rcases exists_added hfound with hadded | hadded
    · exact ⟨_, _, isModule_single (.stated statement.plain), List.mem_cons_self, hothers [], hadded⟩
    · refine ⟨_, _, isModule_pair (.stated openingStatement) (.stated statement.plain), by simp,
        fun other hother hne => ?_, hadded⟩
      rcases List.mem_cons.mp hother with heq | hlast
      · rw [Item.stated.inj heq]
        exact isSilent_openingStatement
      · exact hothers [] other hlast hne
  have hdot : (tokenize statement.line).getLast? = some (.mark '.') :=
    Classical.not_not.mp fun hdot => h ⟨hclosed, hnone, hdot⟩
  refine ⟨_, _, isModule_pair (.stated statement.plain) (.declared (longImport '"' (.inl rfl) 1)),
    List.mem_cons_self, hothers [_], fun heq => ?_⟩
  exact absurd ((hidden_of_dot hclosed hnone hdot).symm.trans heq) (List.cons_ne_nil _ _).symm

end Loud

/-- Where all literals are silent, exactly the declarations are found. No less will do: a literal that is
not silent makes some module go wrong all of whose other literals are. A literal is silent if its quote
stands in it only behind a backslash, so a string or a template without templates, and if it holds
neither quotes nor the opening of a comment. -/
theorem specifiers_interleaved (items : List Item) (text : List Char) (h : IsModule items text) :
    ((∀ statement, .stated statement ∈ items → IsSilent statement.line) →
      Import.specifiers text = items.filterMap Item.specifier?) ∧
    (∀ statement : Statement, ¬IsSilent statement.line →
      ∃ items text other, IsModule items text ∧ .stated other ∈ items ∧
        other.line = statement.line ∧ OthersSilent statement.line items ∧
        Import.specifiers text ≠ items.filterMap Item.specifier?) ∧
    (∀ lineBreak ∈ lineBreaks,
      (∀ quote body, isQuote quote = true → Inside quote body →
        IsSilent (quote :: (body ++ [quote]) ++ ';' :: lineBreak)) ∧
      ∀ literal, IsUnquoted literal → IsSilent (literal ++ ';' :: lineBreak)) := by
  refine ⟨fun hsilent => h.specifiersIn hsilent, fun statement hloud => ?_,
    fun lineBreak hbreak => ⟨fun quote body hquote hbody => ?_, fun literal hliteral => ?_⟩⟩
  · obtain ⟨items, text, hmodule, hmem, hothers, hwrong⟩ := exists_wrong hloud
    exact ⟨items, text, statement.plain, hmodule, hmem, rfl, hothers, hwrong⟩
  · exact isSilent_literal hquote hbody hbreak
  · exact isSilent_unquoted hliteral hbreak

section Modules

private def namesClause : Clause where
  text := " a, \x7b b as c \x7d ".toList
  isApart := ⟨⟨' ', by decide +kernel, by decide⟩, ⟨' ', by decide +kernel, by decide⟩⟩
  isInert := List.all_eq_true.mp (by decide +kernel)
  staysOpen := by decide +kernel

private def namesImport : Declaration where
  opening := .naming false namesClause
  gap := [' ']
  quote := '"'
  specifier := "./a".toList
  close := []
  spacing_gap := .blank (by decide) .nil
  quote_eq := .inl rfl
  isPlain_specifier := List.all_iff_forall_prop.mp (by decide +kernel)
  spacing_close := .nil

private def starClause : Clause where
  text := "*".toList
  isApart := ⟨⟨'*', by decide +kernel, by decide⟩, ⟨'*', by decide +kernel, by decide⟩⟩
  isInert := List.all_eq_true.mp (by decide +kernel)
  staysOpen := by decide +kernel

private def starExport : Declaration where
  opening := .naming true starClause
  gap := []
  quote := '\''
  specifier := "./b".toList
  close := []
  spacing_gap := .nil
  quote_eq := .inr rfl
  isPlain_specifier := List.all_iff_forall_prop.mp (by decide +kernel)
  spacing_close := .nil

/-- A statement of a literal under the name `x`. -/
private def stating (literal : List Char) : Statement where
  name := ['x']
  literal := literal
  lineBreak := ['\n']
  isName := by decide
  isLineBreak := by decide

private def templateStatement : Statement := stating "`it's $\x7ba\x7d\\``".toList

private def slashesStatement : Statement := stating "/^['\"]https?:\\/\\//".toList

private theorem isSilent_template : IsSilent templateStatement.line :=
  isSilent_of_letter (by decide +kernel) (by decide +kernel) (by decide +kernel) (by decide +kernel)

private theorem isSilent_slashes : IsSilent slashesStatement.line :=
  isSilent_of_letter (by decide +kernel) (by decide +kernel) (by decide +kernel) (by decide +kernel)

private def items : List Item :=
  [.declared namesImport, .stated templateStatement, .stated slashesStatement, .declared starExport]

private def literalsText : List Char :=
  "import a, \x7b b as c \x7d from \"./a\";\nconst x = `it's $\x7ba\x7d\\``;\nconst x = /^['\"]https?:\\/\\//;\nexport*from'./b';".toList

private theorem isModule_literalsText : IsModule items literalsText := by
  have hmodule : IsModule items ([] ++ (namesImport.toChars ++ (['\n'] ++
      (templateStatement.toChars ++ ([] ++ (slashesStatement.toChars ++ ([] ++
        (starExport.toChars ++ [])))))))) :=
    .cons .nil (.cons (.blank (by decide) .nil) (.cons .nil (.cons .nil (.nil .nil))))
  have htext : [] ++ (namesImport.toChars ++ (['\n'] ++ (templateStatement.toChars ++ ([] ++
      (slashesStatement.toChars ++ ([] ++ (starExport.toChars ++ []))))))) = literalsText := by
    decide +kernel
  rwa [htext] at hmodule

/-- A template with a quote and an escaped backtick, and a regular expression with quotes that ends as if
a comment began, stand between declarations. -/
theorem specifiers_interleaved_literals :
    IsModule items literalsText ∧ (∀ statement, .stated statement ∈ items → IsSilent statement.line) ∧
    Import.specifiers literalsText = ["./a".toList, "./b".toList] := by
  have hsilent : ∀ statement, .stated statement ∈ items → IsSilent statement.line := by
    intro statement hmem
    simp only [items, List.mem_cons, Item.stated.injEq, reduceCtorEq, List.not_mem_nil, or_false,
      false_or] at hmem
    rcases hmem with rfl | rfl
    · exact isSilent_template
    · exact isSilent_slashes
  obtain ⟨hfound, -⟩ := specifiers_interleaved items literalsText isModule_literalsText
  exact ⟨isModule_literalsText, hsilent, hfound hsilent⟩

private def nameClause : Clause where
  text := " c ".toList
  isApart := ⟨⟨' ', by decide +kernel, by decide⟩, ⟨' ', by decide +kernel, by decide⟩⟩
  isInert := List.all_eq_true.mp (by decide +kernel)
  staysOpen := by decide +kernel

private def nameImport : Declaration :=
  { starExport with
    opening := .naming false nameClause
    gap := [' ']
    spacing_gap := .blank (by decide) .nil }

/-- A template in a template names a module, a backtick in a regular expression takes in the import behind
it, and what a string goes on with behind a carriage return and a line feed names a module. -/
theorem specifiers_misread :
    (∀ literal, IsModule [.stated (stating literal), .declared nameImport]
      ((stating literal).toChars ++ nameImport.toChars)) ∧
    (stating "`$\x7b`import 'a'`\x7d`".toList).toChars ++ nameImport.toChars =
      "const x = `$\x7b`import 'a'`\x7d`;\nimport c from './b';".toList ∧
    Import.specifiers "const x = `$\x7b`import 'a'`\x7d`;\nimport c from './b';".toList =
      ["a".toList, "./b".toList] ∧
    (stating "/`/".toList).toChars ++ nameImport.toChars =
      "const x = /`/;\nimport c from './b';".toList ∧
    Import.specifiers "const x = /`/;\nimport c from './b';".toList = [] ∧
    (stating "'\\\r\nimport \"a\"'".toList).toChars ++ nameImport.toChars =
      "const x = '\\\r\nimport \"a\"';\nimport c from './b';".toList ∧
    Import.specifiers "const x = '\\\r\nimport \"a\"';\nimport c from './b';".toList =
      ["a".toList, "./b".toList] := by
  refine ⟨fun literal => isModule_pair _ _, ?_⟩
  decide +kernel

end Modules
end Tsconfig.Source
