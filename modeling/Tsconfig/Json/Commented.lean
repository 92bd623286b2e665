import Tsconfig.Json.Parser
import Tsconfig.Text.Blank

/-!
JSON with comments and trailing commas. Comments and commas in front of a closing bracket are turned
into blanks, one for each character, and the strict reader does the rest.
-/
namespace Tsconfig.Json.Commented

/-- Where in a text a character stands, as far as comments and strings go. -/
inductive Place
  | plain
  | string
  | escape
  | lineComment
  | blockComment
  deriving DecidableEq

/-- The place after a character of a string or between tokens. -/
def Place.next : Place → Char → Place
  | .string, c => if c = '\\' then .escape else if c = '"' then .plain else .string
  | .escape, _ => .string
  | place, c => if c = '"' then .string else place

/-- Comments as blanks. Line breaks in block comments stay, and so does the one that ends a line
comment. A comment that nothing ends reaches to the end of the text. -/
def blankComments : Place → List Char → List Char
  | _, [] => []
  | .lineComment, c :: rest =>
    if c = '\n' then c :: blankComments .plain rest else ' ' :: blankComments .lineComment rest
  | .blockComment, '*' :: '/' :: rest => ' ' :: ' ' :: blankComments .plain rest
  | .blockComment, c :: rest =>
    (if c = '\n' ∨ c = '\r' then c else ' ') :: blankComments .blockComment rest
  | .plain, '/' :: '/' :: rest => ' ' :: ' ' :: blankComments .lineComment rest
  | .plain, '/' :: '*' :: rest => ' ' :: ' ' :: blankComments .blockComment rest
  | place, c :: rest => c :: blankComments (place.next c) rest

/-- Whether the next character that is no white space closes a list or an object. -/
def closesNext (text : List Char) : Bool :=
  match text.dropWhile Text.isBlank with
  | c :: _ => c = '}' || c = ']'
  | [] => false

/-- Commas in front of a closing bracket as blanks. -/
def blankCommas : Place → List Char → List Char
  | _, [] => []
  | .plain, ',' :: rest => (if closesNext rest then ' ' else ',') :: blankCommas .plain rest
  | place, c :: rest => c :: blankCommas (place.next c) rest

/-- The strict JSON that a text stands for, character for character. -/
def strict (text : List Char) : List Char := blankCommas .plain (blankComments .plain text)

/-- A text without the byte order mark that may open it. -/
def dropMark : List Char → List Char
  | '\uFEFF' :: rest => rest
  | text => text

/-- Why a text is no object. -/
inductive Fault
  | malformed (diagnostic : Diagnostic)
  | notObject
  deriving DecidableEq

/-- The object a text stands for. White space alone stands for the empty object. -/
def parseObject (text : List Char) : Except Fault Object :=
  let text := dropMark text
  if text.all Text.isBlank then .ok []
  else match parse (strict text) with
    | .ok (.obj fields) => .ok fields
    | .ok _ => .error .notObject
    | .error diagnostic => .error (.malformed diagnostic)

end Tsconfig.Json.Commented
