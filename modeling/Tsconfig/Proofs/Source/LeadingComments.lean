import Mathlib.Data.List.Basic
import Tsconfig.Proofs.Text.Lines
import Tsconfig.Source.ModuleReference

/-!
The comments at the top of a source and the reference directives among them. A line comment may stand above
a directive. A block comment ends the search: the directives behind it are lost.
-/
namespace Tsconfig.Source.Directive
open Text

/-- What can stand on lines of its own at the top of a source. -/
inductive Part
  | blank
  /-- A line comment, by the text behind its two slashes. -/
  | line (text : List Char)
  /-- A block comment, by the text between its ends. -/
  | block (text : List Char)
  /-- A reference directive, to a file or to a package of types. -/
  | directive (types : Bool) (specifier : List Char)

namespace Part

def opening (types : Bool) : String :=
  if types then "/// <reference types=\"" else "/// <reference path=\""

def closing : String := "\" />"

def toChars : Part → List Char
  | .blank => []
  | .line text => '/' :: '/' :: text
  | .block text => '/' :: '*' :: text ++ ['*', '/']
  | .directive types specifier => (opening types).toList ++ (specifier ++ closing.toList)

/-- The text of a part ends where the part does. -/
def IsWellFormed : Part → Prop
  | .blank => True
  | .line text => '\n' ∉ text
  | .block text => contains ['*', '/'] text = false
  | .directive _ specifier => '"' ∉ specifier ∧ '\'' ∉ specifier ∧ '\n' ∉ specifier

instance : (part : Part) → Decidable part.IsWellFormed
  | .blank => inferInstanceAs (Decidable True)
  | .line text => inferInstanceAs (Decidable ('\n' ∉ text))
  | .block text => inferInstanceAs (Decidable (contains ['*', '/'] text = false))
  | .directive _ specifier =>
    inferInstanceAs (Decidable ('"' ∉ specifier ∧ '\'' ∉ specifier ∧ '\n' ∉ specifier))

def isBlock : Part → Bool
  | .block _ => true
  | _ => false

/-- What a directive refers to. -/
def directive? : Part → Option ModuleReference
  | .directive types specifier => some ⟨if types then .types else .path, String.ofList specifier⟩
  | _ => none

/-- What a line comment is taken to refer to. -/
def mistaken? : Part → Option ModuleReference
  | .line text => ofLine? ('/' :: '/' :: trimEnd text)
  | _ => none

def found? (part : Part) : Option ModuleReference := part.directive?.or part.mistaken?

end Part

/-- White space within a line. -/
def IsMargin (text : List Char) : Prop := ∀ c ∈ text, isBlank c = true ∧ c ≠ '\n'

instance (text : List Char) : Decidable (IsMargin text) :=
  List.decidableBAll (fun c => isBlank c = true ∧ c ≠ '\n') text

/-- A part on lines of its own, with the white space around it. -/
structure Row where
  indent : List Char
  part : Part
  trail : List Char
  isMargin_indent : IsMargin indent
  isWellFormed : part.IsWellFormed
  isMargin_trail : IsMargin trail

def Row.toChars (row : Row) : List Char :=
  row.indent ++ (row.part.toChars ++ (row.trail ++ ['\n']))

/-- Code starts on a line that is neither empty nor a line comment. -/
def StartsCode (code : List Char) : Prop :=
  code = [] ∨ ∃ indent c rest, code = indent ++ c :: rest ∧ IsMargin indent ∧ isBlank c = false ∧
    ¬['/', '/'] <+: c :: rest

section Margins
variable {indent trail : List Char}

theorem IsMargin.isBlank (h : IsMargin indent) : ∀ c ∈ indent, Text.isBlank c = true :=
  fun c hc => (h c hc).1

theorem IsMargin.notMem (h : IsMargin indent) : '\n' ∉ indent := fun hmem => (h '\n' hmem).2 rfl

end Margins

section Lines
variable {line code : List Char}

/-- One line is judged after the other. -/
theorem all_line (h : '\n' ∉ line) (rest : List Char) :
    all (line ++ '\n' :: rest) =
      if isHeader (trim line) then (ofLine? (trim line)).toList ++ all rest else [] := by
  rw [all, lines_append h, List.map_cons, trim_dropReturn, List.takeWhile_cons]
  split
  · rw [List.filterMap_cons, all]
    split <;> simp_all
  · rfl

theorem all_lastLine (h : '\n' ∉ line) :
    all line = if isHeader (trim line) then (ofLine? (trim line)).toList else [] := by
  by_cases hne : line = []
  · rw [hne]
    rfl
  · rw [all, lines_of_notMem h hne, List.map_cons, List.map_nil, List.takeWhile_cons]
    split
    · cases hfound : ofLine? (trim line) <;> simp [hfound]
    · rfl

theorem all_of_notMem (h : '\n' ∉ line) (hheader : isHeader (trim line) = false) : all line = [] := by
  rw [all_lastLine h, hheader, if_neg Bool.false_ne_true]

/-- Nothing is found from the first line of code on. -/
theorem all_of_startsCode (h : StartsCode code) : all code = [] := by
  rcases h with rfl | ⟨indent, c, rest, rfl, hindent, hc, hslashes⟩
  · rfl
  have hother (tail : List Char) (htail : tail <+: rest) :
      isHeader (trim (indent ++ c :: tail)) = false := by
    have hnone : ∀ c ∈ ([] : List Char), Text.isBlank c = true := nofun
    have htrim := trim_margins hindent.isBlank hnone (c :: tail)
    rw [List.append_nil] at htrim
    rw [htrim, trim_cons hc, isHeader, Bool.or_eq_false_iff]
    refine ⟨by simp, Bool.eq_false_iff.mpr fun hlead => hslashes ?_⟩
    exact (List.isPrefixOf_iff_prefix.mp hlead).trans
      (List.cons_prefix_cons.mpr ⟨rfl, (dropEndWhile_prefix_self _ _).trans htail⟩)
  have hbreak : '\n' ≠ c := by
    rintro rfl
    cases hc
  -- the line of code ends with a line break or with the text
  by_cases hmem : '\n' ∈ rest
  · obtain ⟨tail, more, rfl, htail⟩ := List.eq_append_cons_of_mem hmem
    have hline : '\n' ∉ indent ++ c :: tail := by simp [hindent.notMem, hbreak, htail]
    have hall := all_line hline more
    rw [hother tail (List.prefix_append _ _)] at hall
    simpa using hall
  · have hline : '\n' ∉ indent ++ c :: rest := by simp [hindent.notMem, hbreak, hmem]
    exact all_of_notMem hline (hother rest (List.prefix_refl _))

end Lines

section Attributes
variable {name : List Char} {opening before specifier : List Char}

/-- A value is read up to its second quote. -/
theorem attribute?_of_cutAt? (h : cutAt? (name ++ ['=']) opening = some (before, ['"']))
    (hspecifier : '"' ∉ specifier) (rest : List Char) :
    attribute? name (opening ++ (specifier ++ '"' :: rest)) = some specifier := by
  have hend : cutAt? ['"'] (specifier ++ '"' :: rest) = some (specifier, rest) :=
    cutAt?_singleton_eq_some_iff.mpr ⟨rfl, hspecifier⟩
  rw [attribute?, cutAt?_append h, List.singleton_append]
  simp [hend]

/-- Of two quotes, the one that has a quote behind it is the first. -/
theorem eq_of_quote_behind {lead value tail before rest : List Char} {quote : Char}
    (h : lead ++ quote :: (value ++ quote :: tail) = before ++ quote :: rest) (hlead : quote ∉ lead)
    (hvalue : quote ∉ value) (htail : quote ∉ tail) (hrest : quote ∈ rest) : before = lead := by
  have hcount := congrArg (List.count quote) h
  have hpositive := List.count_pos_iff.mpr hrest
  simp only [List.count_append, List.count_cons_self, List.count_eq_zero_of_not_mem hlead,
    List.count_eq_zero_of_not_mem hvalue, List.count_eq_zero_of_not_mem htail] at hcount
  have hbefore : quote ∉ before := List.count_eq_zero.mp (by omega)
  have hcut := cutAt?_singleton_eq_some_iff.mpr ⟨h, hbefore⟩
  rw [cutAt?_singleton_eq_some_iff.mpr ⟨rfl, hlead⟩] at hcut
  exact (Prod.mk.inj (Option.some.inj hcut)).1.symm

/-- In a directive for types no path is read, whatever the specifier holds. -/
theorem attribute?_path_of_types (hdouble : '"' ∉ specifier) (hsingle : '\'' ∉ specifier) :
    attribute? "path".toList (Part.directive true specifier).toChars = none := by
  obtain ⟨lead, hlead, hdoubleLead, hsingleLead, hname⟩ :
      ∃ lead, (Part.opening true).toList = lead ++ ['"'] ∧ '"' ∉ lead ∧ '\'' ∉ lead ∧
        ¬"path".toList ++ ['='] <:+ lead :=
    ⟨"/// <reference types=".toList, by decide +kernel⟩
  obtain ⟨tail, htail, hdoubleTail, hsingleTail⟩ :
      ∃ tail, Part.closing.toList = '"' :: tail ∧ '"' ∉ tail ∧ '\'' ∉ tail :=
    ⟨" />".toList, by decide +kernel⟩
  have hchars : (Part.directive true specifier).toChars =
      lead ++ '"' :: (specifier ++ '"' :: tail) := by
    rw [Part.toChars, hlead, htail, List.append_assoc, List.singleton_append]
  rw [hchars, attribute?]
  split
  · rename_i before quote rest hcut
    have hline := eq_append_of_cutAt? hcut
    split
    · rename_i hquote
      rw [Option.map_eq_none_iff, cutAt?_singleton_eq_none_iff]
      intro hrest
      rcases hquote with rfl | rfl
      · -- the opening quote would stand behind `path=`
        have hbefore := eq_of_quote_behind hline hdoubleLead hdouble hdoubleTail hrest
        exact hname ⟨before, hbefore⟩
      · have hmem : '\'' ∈ lead ++ '"' :: (specifier ++ '"' :: tail) := by simp [hline]
        simp [hsingleLead, hsingle, hsingleTail] at hmem
    · rfl
  · rfl

end Attributes

section Parts
variable {parts : List Part} {text indent trail code specifier : List Char} {part : Part} {types : Bool}

theorem trim_slashes (text : List Char) : trim ('/' :: '/' :: text) = '/' :: '/' :: trimEnd text := by
  have hslash : ∀ c, ['/'].getLast? = some c → isBlank c = false := by
    rintro c ⟨⟩
    decide
  rw [trim_cons (by decide)]
  exact congrArg _ (dropEndWhile_append hslash text)

theorem opening_eq (types : Bool) : ∃ name, (Part.opening types).toList = '/' :: '/' :: '/' :: name ∧
    '\n' ∉ name ∧ contains "<reference".toList (Part.opening types).toList = true := by
  cases types with
  | false => exact ⟨" <reference path=\"".toList, by decide +kernel⟩
  | true => exact ⟨" <reference types=\"".toList, by decide +kernel⟩

theorem closing_eq : Part.closing.toList = '"' :: " /".toList ++ ['>'] := by decide +kernel

/-- Nothing is cut off a directive. -/
theorem trim_directive : trim (Part.directive types specifier).toChars =
    (Part.directive types specifier).toChars := by
  obtain ⟨name, hopening, -⟩ := opening_eq types
  have hend (body : List Char) : trimEnd (body ++ ['>']) = body ++ ['>'] :=
    dropEndWhile_concat (by decide)
  rw [Part.toChars, hopening, closing_eq, List.cons_append, List.cons_append, trim_slashes,
    ← List.append_assoc, ← List.append_assoc, hend]

theorem ofLine?_directive (h : (Part.directive types specifier).IsWellFormed) :
    ofLine? (Part.directive types specifier).toChars = (Part.directive types specifier).directive? := by
  obtain ⟨hdouble, hsingle, -⟩ := h
  obtain ⟨name, hopening, -, hreference⟩ := opening_eq types
  have hslashes : ['/', '/', '/'].isPrefixOf (Part.directive types specifier).toChars = true := by
    rw [Part.toChars, hopening]
    rfl
  rw [ofLine?, hslashes, Part.toChars, contains_append hreference, Bool.and_self, if_pos rfl,
    ← Part.toChars]
  cases types with
  | false =>
    have hcut : cutAt? ("path".toList ++ ['=']) (Part.opening false).toList =
        some ("/// <reference ".toList, ['"']) := by decide +kernel
    rw [Part.toChars, closing_eq, List.cons_append, attribute?_of_cutAt? hcut hdouble]
    rfl
  | true =>
    have hcut : cutAt? ("types".toList ++ ['=']) (Part.opening true).toList =
        some ("/// <reference ".toList, ['"']) := by decide +kernel
    rw [attribute?_path_of_types hdouble hsingle, Part.toChars, closing_eq, List.cons_append,
      attribute?_of_cutAt? hcut hdouble]
    rfl

theorem notMem_toChars (h : part.IsWellFormed) (hblock : part.isBlock = false) :
    '\n' ∉ part.toChars := by
  cases part with
  | blank => exact List.not_mem_nil
  | line text =>
    have htext : '\n' ∉ text := h
    simpa [Part.toChars] using htext
  | block text => cases hblock
  | directive types specifier =>
    obtain ⟨name, hopening, hname, -⟩ := opening_eq types
    have hclosing : '\n' ∉ Part.closing.toList := by decide +kernel
    simp [Part.toChars, hopening, hname, hclosing, h.2.2]

theorem isHeader_toChars (hblock : part.isBlock = false) : isHeader (trim part.toChars) = true := by
  cases part with
  | blank => rfl
  | line text =>
    rw [Part.toChars, trim_slashes]
    rfl
  | block text => cases hblock
  | directive types specifier =>
    obtain ⟨name, hopening, -⟩ := opening_eq types
    rw [trim_directive, Part.toChars, hopening]
    rfl

theorem ofLine?_toChars (h : part.IsWellFormed) (hblock : part.isBlock = false) :
    ofLine? (trim part.toChars) = part.found? := by
  cases part with
  | blank => rfl
  | line text =>
    rw [Part.toChars, trim_slashes]
    rfl
  | block text => cases hblock
  | directive types specifier =>
    rw [trim_directive, ofLine?_directive h]
    rfl

/-- A row gives what its part is found to be, and a block comment ends all. -/
theorem all_row (row : Row) (rest : List Char) :
    all (row.toChars ++ rest) =
      if row.part.isBlock then [] else row.part.found?.toList ++ all rest := by
  obtain ⟨indent, part, trail, hindent, hpart, htrail⟩ := row
  split
  · rename_i hblock
    cases part with
    | block text =>
      refine all_of_startsCode (.inr ⟨indent, '/', '*' :: (text ++ ['*', '/'] ++ (trail ++ '\n' :: rest)),
        by simp [Row.toChars, Part.toChars], hindent, by decide, by simp⟩)
    | blank | line | directive => cases hblock
  · rename_i hblock
    rw [Bool.not_eq_true] at hblock
    have hline : '\n' ∉ indent ++ (part.toChars ++ trail) := by
      simp [hindent.notMem, htrail.notMem, notMem_toChars hpart hblock]
    have hall := all_line hline rest
    rw [trim_margins hindent.isBlank htrail.isBlank, isHeader_toChars hblock, if_pos rfl,
      ofLine?_toChars hpart hblock] at hall
    rw [← hall]
    simp [Row.toChars]

/-- What is found in the rows at the top of a source, as far as the first block comment. -/
theorem all_rows (rows : List Row) (hcode : StartsCode code) :
    all (rows.flatMap Row.toChars ++ code) =
      ((rows.map Row.part).takeWhile fun part => !part.isBlock).filterMap Part.found? := by
  induction rows with
  | nil => exact all_of_startsCode hcode
  | cons row rows ih =>
    rw [List.flatMap_cons, List.append_assoc, all_row, ih, List.map_cons, List.takeWhile_cons]
    cases row.part.isBlock with
    | true => rfl
    | false =>
      cases hfound : row.part.found? with
      | none => exact (List.filterMap_cons_none hfound).symm
      | some reference => exact (List.filterMap_cons_some hfound).symm

/-- The first block comment hides nothing if no directive stands behind any. -/
theorem filterMap_takeWhile_eq_iff :
    (parts.takeWhile fun part => !part.isBlock).filterMap Part.directive? =
        parts.filterMap Part.directive? ↔
      parts.Pairwise fun part later => part.isBlock = true → later.directive? = none := by
  induction parts with
  | nil => simp
  | cons part parts ih =>
    rw [List.pairwise_cons, ← ih, List.takeWhile_cons]
    cases hblock : part.isBlock with
    | true =>
      have hnone : part.directive? = none := by
        cases part with
        | block text => rfl
        | blank | line | directive => cases hblock
      rw [List.filterMap_cons_none hnone]
      constructor
      · intro hnil
        have hlater := List.filterMap_eq_nil_iff.mp hnil.symm
        refine ⟨fun later hmem _ => hlater later hmem, Eq.trans ?_ hnil⟩
        rw [Bool.not_true, if_neg Bool.false_ne_true, List.filterMap_nil, List.filterMap_eq_nil_iff]
        exact fun later hmem => hlater later ((List.takeWhile_sublist _).subset hmem)
      · rintro ⟨hlater, -⟩
        exact (List.filterMap_eq_nil_iff.mpr fun later hmem => hlater later hmem rfl).symm
    | false => cases hfound : part.directive? <;> simp [hfound]

theorem filterMap_found? {parts : List Part} (h : ∀ part ∈ parts, part.mistaken? = none) :
    parts.filterMap Part.found? = parts.filterMap Part.directive? :=
  List.filterMap_congr fun part hmem => by rw [Part.found?, h part hmem, Option.or_none]

/-- A line comment is not taken for a directive if it has no third slash or no reference in it. -/
theorem mistaken?_line (h : ¬['/'] <+: text ∨ contains "<reference".toList text = false) :
    (Part.line text).mistaken? = none := by
  refine if_neg fun hdirective => ?_
  obtain ⟨hslashes, hreference⟩ := Bool.and_eq_true_iff.mp hdirective
  rcases h with hslash | hnone
  · have hlead : ['/'] <+: trimEnd text := by
      simpa using List.isPrefixOf_iff_prefix.mp hslashes
    exact hslash (hlead.trans (dropEndWhile_prefix_self _ _))
  · have hbehind (rest : List Char) :
        contains "<reference".toList ('/' :: rest) = contains "<reference".toList rest := by
      obtain ⟨word, hword⟩ : ∃ word, "<reference".toList = '<' :: word :=
        ⟨"reference".toList, by decide +kernel⟩
      have hother : stripStart? ('<' :: word) ('/' :: rest) = none := if_neg (by decide)
      rw [hword, contains, cutAt?, hother, Option.isSome_map, contains]
    rw [hbehind, hbehind] at hreference
    obtain ⟨tail, htail, -⟩ := exists_dropEndWhile_append isBlank text
    have htrim : text = trimEnd text ++ tail := htail
    rw [htrim, contains_append hreference] at hnone
    cases hnone

end Parts

/-- The directives at the top of a source are found as far as the first block comment, with the line
comments that are taken for directives. Where there are none of these, exactly the directives are found if
no block comment stands above any of them, and only then. -/
theorem all_leading (rows : List Row) {code : List Char} (hcode : StartsCode code) :
    all (rows.flatMap Row.toChars ++ code) =
      ((rows.map Row.part).takeWhile fun part => !part.isBlock).filterMap Part.found? ∧
    ((∀ part ∈ rows.map Row.part, part.mistaken? = none) →
      (all (rows.flatMap Row.toChars ++ code) = (rows.map Row.part).filterMap Part.directive? ↔
        (rows.map Row.part).Pairwise fun part later =>
          part.isBlock = true → later.directive? = none)) ∧
    ∀ comment, ¬['/'] <+: comment ∨ contains "<reference".toList comment = false →
      (Part.line comment).mistaken? = none := by
  refine ⟨all_rows rows hcode, fun hmistaken => ?_, fun comment => mistaken?_line⟩
  rw [all_rows rows hcode, filterMap_found?, filterMap_takeWhile_eq_iff]
  exact fun part hmem => hmistaken part ((List.takeWhile_sublist _).subset hmem)

section Sources

private theorem isMargin_nil : IsMargin [] := nofun

private def row (part : Part) (h : part.IsWellFormed) : Row :=
  ⟨[], part, [], isMargin_nil, h, isMargin_nil⟩

private theorem startsCode_of_letter (rest : List Char) : StartsCode ('l' :: rest) :=
  .inr ⟨[], 'l', rest, rfl, isMargin_nil, by decide, by simp⟩

private def described : List Row :=
  [row (.line " see <reference path=\"x\" />".toList) (by decide +kernel),
    ⟨[' '], .blank, ['\t'], by decide, trivial, by decide⟩,
    ⟨[], .directive false "./a.d.ts".toList, ['\r'], isMargin_nil, by decide +kernel, by decide⟩,
    ⟨[' '], .directive true "path=".toList, [], by decide, by decide +kernel, isMargin_nil⟩,
    row (.block " a\n * b".toList) (by decide +kernel)]

/-- A comment about a directive stands above two directives, the specifier of one of them reads like an
attribute, and a comment and code stand between them and a third. -/
theorem all_leading_described :
    StartsCode "let c;\n/// <reference path=\"d\" />".toList ∧
    (∀ part ∈ described.map Row.part, part.mistaken? = none) ∧
    all "// see <reference path=\"x\" />\n \t\n/// <reference path=\"./a.d.ts\" />\r\n /// <reference types=\"path=\" />\n/* a\n * b*/\nlet c;\n/// <reference path=\"d\" />".toList =
      [⟨.path, "./a.d.ts"⟩, ⟨.types, "path="⟩] := by
  have hchars : "let c;\n/// <reference path=\"d\" />".toList =
      'l' :: "et c;\n/// <reference path=\"d\" />".toList := by decide +kernel
  have hcode : StartsCode "let c;\n/// <reference path=\"d\" />".toList := by
    rw [hchars]
    exact startsCode_of_letter _
  have hmistaken : ∀ part ∈ described.map Row.part, part.mistaken? = none := by decide +kernel
  have htext : described.flatMap Row.toChars ++ "let c;\n/// <reference path=\"d\" />".toList =
    "// see <reference path=\"x\" />\n \t\n/// <reference path=\"./a.d.ts\" />\r\n /// <reference types=\"path=\" />\n/* a\n * b*/\nlet c;\n/// <reference path=\"d\" />".toList := by
    decide +kernel
  have hall := ((all_leading described hcode).2.1 hmistaken).mpr (by decide +kernel)
  rw [htext] at hall
  refine ⟨hcode, hmistaken, hall.trans ?_⟩
  decide +kernel

private def licensed : List Row :=
  [row (.block " license ".toList) (by decide +kernel),
    row (.directive false "a.d.ts".toList) (by decide +kernel)]

/-- A block comment hides the directive below it. -/
theorem directive_hidden :
    StartsCode "let c;".toList ∧
    licensed.flatMap Row.toChars ++ "let c;".toList =
      "/* license */\n/// <reference path=\"a.d.ts\" />\nlet c;".toList ∧
    (licensed.map Row.part).filterMap Part.directive? = [⟨.path, "a.d.ts"⟩] ∧
    all "/* license */\n/// <reference path=\"a.d.ts\" />\nlet c;".toList = [] := by
  have hchars : "let c;".toList = 'l' :: "et c;".toList := by decide +kernel
  refine ⟨?_, by decide +kernel, by decide +kernel, by decide +kernel⟩
  rw [hchars]
  exact startsCode_of_letter _

end Sources
end Tsconfig.Source.Directive
