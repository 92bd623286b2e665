/-! What can be wrong with a JSON text, and where: line and byte column. -/
namespace Tsconfig.Json

/-- The ways in which a text fails to be JSON. -/
inductive Issue
  | endInList
  | endInObject
  | endInString
  | endInValue
  | noColon
  | noCommaOrBracket
  | noCommaOrBrace
  | noIdent
  | noValue
  | badEscape
  | badNumber
  | numberOutOfRange
  | controlCharacter
  | keyNotString
  | loneSurrogate
  | trailingComma
  | trailingCharacters
  | endOfHexEscape
  | tooDeep
  deriving DecidableEq, Repr

def Issue.message : Issue → String
  | endInList => "EOF while parsing a list"
  | endInObject => "EOF while parsing an object"
  | endInString => "EOF while parsing a string"
  | endInValue => "EOF while parsing a value"
  | noColon => "expected `:`"
  | noCommaOrBracket => "expected `,` or `]`"
  | noCommaOrBrace => "expected `,` or `\x7d`"
  | noIdent => "expected ident"
  | noValue => "expected value"
  | badEscape => "invalid escape"
  | badNumber => "invalid number"
  | numberOutOfRange => "number out of range"
  | controlCharacter => "control character (\\u0000-\\u001F) found while parsing a string"
  | keyNotString => "key must be a string"
  | loneSurrogate => "lone leading surrogate in hex escape"
  | trailingComma => "trailing comma"
  | trailingCharacters => "trailing characters"
  | endOfHexEscape => "unexpected end of hex escape"
  | tooDeep => "recursion limit exceeded"

/-- A place where reading stopped: the text from there on, of which `seen` bytes count as read. -/
structure Stop where
  issue : Issue
  rest : List Char
  seen : Nat
  deriving DecidableEq

namespace Stop

/-- Stopped in front of `rest`. -/
def before (issue : Issue) (rest : List Char) : Stop := ⟨issue, rest, 0⟩

/-- Stopped after the first byte of `rest`, as far as there is one. -/
def on (issue : Issue) (rest : List Char) : Stop := ⟨issue, rest, 1⟩

end Stop

/-- A line, counted from one, and the number of bytes of it that were read. -/
structure Position where
  line : Nat
  column : Nat
  deriving DecidableEq, Repr

def utf8 (text : List Char) : List UInt8 := text.flatMap String.utf8EncodeChar

def Position.after (bytes : List UInt8) : Position :=
  ⟨1 + bytes.count 10, (bytes.reverse.takeWhile (· ≠ 10)).length⟩

/-- A fault of a text with its position. -/
structure Diagnostic where
  issue : Issue
  position : Position
  deriving DecidableEq, Repr

def Stop.diagnostic (text : List Char) (stop : Stop) : Diagnostic :=
  let bytes := utf8 text
  let read := bytes.length - (utf8 stop.rest).length + stop.seen
  ⟨stop.issue, Position.after (bytes.take read)⟩

def Diagnostic.message (d : Diagnostic) : String :=
  d.issue.message ++ " at line " ++ toString d.position.line ++ " column "
    ++ toString d.position.column

end Tsconfig.Json
