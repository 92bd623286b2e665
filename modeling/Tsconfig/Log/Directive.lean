import Tsconfig.Log.Event
import Tsconfig.OrderedMap
import Tsconfig.Regex.Parser
import Tsconfig.Text.Bytes

/-!
Directives of a filter for the log, as they are written: a level; or what events have to be about, with
or without a level behind an equals sign. What they are about is a source, a span in brackets, a field
in braces within the brackets, or several of these in that order.
-/
namespace Tsconfig.Log
open Text

/-- A field that has to be there. -/
structure FieldTest where
  name : String
  /-- What its text has to be like. -/
  value : Option String
  deriving DecidableEq, Repr

/-- What a directive is about; what is left out does not matter. -/
structure Subject where
  /-- What the source starts with. -/
  source : Option String := none
  /-- The name of a span. -/
  span : Option String := none
  field : Option FieldTest := none
  deriving DecidableEq, Repr

/-- One directive of a filter. -/
structure Directive where
  subject : Subject
  /-- The rank of the last level that is let through. -/
  limit : Nat
  deriving DecidableEq, Repr

/-- Why a text is no directive. -/
inductive DirectiveError
  | malformed
  /-- A part of it would begin or end within a character. -/
  | dividesCharacter
  deriving DecidableEq, Repr

/-- The words of a level: its number or its name in any case. -/
def limits : List (String × Nat) :=
  [("off", 0), ("error", 1), ("warn", 2), ("info", 3), ("debug", 4), ("trace", 5)]

/-- The rank when no level is given: everything is let through. -/
def unlimited : Nat := 5

/-- The number that digits stand for, behind a plus or not. -/
def number? (word : List Char) : Option Nat :=
  let digits := match word with
    | '+' :: digits => digits
    | digits => digits
  if digits ≠ [] ∧ digits.all Char.isDigit then
    some (digits.foldl (fun n c => 10 * n + (c.toNat - '0'.toNat)) 0)
  else none

/-- The rank that a word stands for: the name of a level in any case, or a number up to five. -/
def limit? (word : List Char) : Option Nat :=
  match number? word with
  | some n => if n ≤ unlimited then some n else none
  | none => OrderedMap.find? (String.ofList (lower word)) limits

def isDecimal (text : List Char) : Bool :=
  let whole := text.takeWhile Char.isDigit
  let rest := text.drop whole.length
  let (part, rest) := match rest with
    | '.' :: rest => (rest.takeWhile Char.isDigit, rest.dropWhile Char.isDigit)
    | rest => ([], rest)
  let exponent := match rest with
    | [] => true
    | c :: '+' :: digits | c :: '-' :: digits | c :: digits =>
      c.toLower = 'e' && digits ≠ [] && digits.all Char.isDigit
  (whole ≠ [] || part ≠ []) && exponent

/-- Whether a text stands for a number: a decimal, or what lies beyond all decimals. -/
def isNumber (text : List Char) : Bool :=
  let unsigned := match text with
    | '+' :: rest | '-' :: rest => rest
    | rest => rest
  isDecimal unsigned || String.ofList (lower unsigned) ∈ ["inf", "infinity", "nan"]

/-- Whether a value is a number or a truth value. No text is equal to one. -/
def isPlain (value : List Char) : Bool :=
  String.ofList value ∈ ["true", "false"] || isNumber value

namespace FieldTest

/-- A name, with or without a value behind an equals sign, up to the next one. The value is plain or
a regular expression. -/
def parse? (text : List Char) : Option FieldTest :=
  if text = [] then none
  else match splitOn '=' text with
    | name :: value :: _ =>
      if isPlain value || (Regex.parse? value).isSome then
        some ⟨String.ofList name, some (String.ofList value)⟩
      else none
    | _ => some ⟨String.ofList text, none⟩

/-- Whether a text is as the value says: the first match of the expression in it reaches its end. -/
def accepts (test : FieldTest) (text : String) : Bool :=
  match test.value with
  | none => true
  | some value => !isPlain value.toList &&
      (Regex.parse? value.toList).any (·.reachesEnd text.toList)

end FieldTest

namespace Directive

def startsName (c : Char) : Bool := c = '-' || c = ':' || c = '_' || isLetter c || isNumeral c

def part (text : List Char) (start stop : Nat) : Except DirectiveError (List Char) :=
  match between? start stop text with
  | some part => .ok part
  | none => .error .dividesCharacter

/-- A directive whose limit starts at a place; there is none, if nothing is there. -/
def ofLimit (text : List Char) (subject : Subject) (start : Nat) : Except DirectiveError Directive := do
  let word ← part text start (byteSize text)
  if word = [] then return ⟨subject, unlimited⟩
  else match limit? word with
    | some limit => return ⟨subject, limit⟩
    | none => throw .malformed

/-- A directive after the closing bracket. -/
def afterBrackets (text : List Char) (subject : Subject) (start : Nat) :
    (marks : List Char) → Except DirectiveError Directive
  | [] => .ok ⟨subject, unlimited⟩
  | '=' :: _ => ofLimit text subject (start + 1)
  | _ => .error .malformed

/-- A directive after the opening brace. -/
def ofField (text : List Char) (subject : Subject) (start : Nat) (marks : List Char) :
    Except DirectiveError Directive := do
  let inner := marks.takeWhile (· ≠ '\x7D')
  let stop := start + byteSize inner
  match marks.drop inner.length with
  | [] => throw .malformed
  | _ :: marks =>
    match FieldTest.parse? (← part text start stop) with
    | none => throw .malformed
    | some field =>
      match marks with
      | ']' :: marks => afterBrackets text { subject with field } (stop + 2) marks
      | _ => throw .malformed

/-- A directive after the opening bracket. -/
def ofSpan (text : List Char) (subject : Subject) (start : Nat) (marks : List Char) :
    Except DirectiveError Directive := do
  let inner := marks.takeWhile fun c => c ≠ ']' && c ≠ '\x7B'
  let stop := start + byteSize inner
  match marks.drop inner.length with
  | [] => throw .malformed
  | c :: marks =>
    let name ← part text start stop
    let span := if c ≠ ']' ∧ name = [] then none else some (String.ofList name)
    let subject := { subject with span }
    if c = ']' then afterBrackets text subject (stop + 1) marks
    else ofField text subject (stop + 1) marks

/-- A directive as it is written. The marks between its parts are found in the text without the blanks
at its ends. The parts are what the whole text has at these places; so a directive does not mean the
same behind a blank. -/
def parse (text : List Char) : Except DirectiveError Directive := do
  match trim text with
  | [] => throw .malformed
  | '[' :: marks => ofSpan text {} 1 marks
  | first :: marks =>
    if !startsName first then throw .malformed
    let marks := first :: marks
    let name := marks.takeWhile fun c => c ≠ '=' && c ≠ '['
    let stop := byteSize name
    match marks.drop name.length with
    | [] =>
      match limit? text with
      | some limit => return ⟨{}, limit⟩
      | none => return ⟨{ source := some (String.ofList text) }, unlimited⟩
    | c :: marks =>
      let subject : Subject := { source := some (String.ofList (← part text 0 stop)) }
      if c = '[' then ofSpan text subject (stop + 1) marks else ofLimit text subject (stop + 1)

end Directive
end Tsconfig.Log
