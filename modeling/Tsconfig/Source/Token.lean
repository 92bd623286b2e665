import Tsconfig.Text.Blank
import Tsconfig.Text.Letter

/-!
Source texts as tokens: words, string literals and punctuation. Comments and blanks separate tokens
and are dropped. A template is one token, whatever it holds. Texts are not parsed, so a slash is
punctuation unless it opens a comment.
-/
namespace Tsconfig.Source
open Text

inductive Token
  | word (letters : List Char)
  | text (value : List Char)
  | mark (c : Char)
  deriving DecidableEq, Repr

/-- Where in a source text a character stands. -/
inductive Mode
  /-- Between tokens. -/
  | code
  /-- In a word with these letters so far, last first. -/
  | word (letters : List Char)
  | lineComment
  /-- In a block comment, after a star or not. -/
  | blockComment (star : Bool)
  /-- In a literal with this quote and these characters so far, last first, after a backslash or
  not. -/
  | literal (quote : Char) (value : List Char) (escaped : Bool)
  deriving DecidableEq

def isWordStart (c : Char) : Bool := isLetter c || c = '_' || c = '$'

def isWordPart (c : Char) : Bool := isLetter c || isNumeral c || c = '_' || c = '$'

def isQuote (c : Char) : Bool := c = '"' || c = '\'' || c = '`'

/-- The token of a literal; the text of a template is dropped. -/
def literalToken (quote : Char) (value : List Char) : Token :=
  if quote = '`' then .mark '`' else .text value.reverse

/-- Whether a character ends a literal: its quote does, and a line break unless it is a template. -/
def endsLiteral (quote c : Char) : Bool := c = quote || (quote ≠ '`' && c = '\n')

/-- The tokens that a mode still holds at the end of the text. -/
def Mode.pending : Mode → List Token
  | word letters => [.word letters.reverse]
  | literal quote value _ => [literalToken quote value]
  | _ => []

/-- The mode after a character between tokens, and the token that the character is. -/
def Mode.start (c : Char) : Mode × List Token :=
  if isQuote c then (.literal c [] false, [])
  else if isWordStart c then (.word [c], [])
  else if isBlank c then (.code, [])
  else (.code, [.mark c])

/-- The tokens of a text that starts in a mode. -/
def tokensIn : Mode → List Char → List Token
  | mode, [] => mode.pending
  | .lineComment, c :: rest => tokensIn (if c = '\n' then .code else .lineComment) rest
  | .blockComment star, c :: rest =>
    tokensIn (if star && c = '/' then .code else .blockComment (c = '*')) rest
  | .literal quote value true, c :: rest => tokensIn (.literal quote (c :: value) false) rest
  | .literal quote value false, c :: rest =>
    if c = '\\' then tokensIn (.literal quote value true) rest
    else if endsLiteral quote c then literalToken quote value :: tokensIn .code rest
    else tokensIn (.literal quote (c :: value) false) rest
  | .code, '/' :: '/' :: rest => tokensIn .lineComment rest
  | .code, '/' :: '*' :: rest => tokensIn (.blockComment false) rest
  | .code, c :: rest => (Mode.start c).2 ++ tokensIn (Mode.start c).1 rest
  | .word letters, c :: rest =>
    if isWordPart c then tokensIn (.word (c :: letters)) rest
    else .word letters.reverse :: match c, rest with
      | '/', '/' :: rest => tokensIn .lineComment rest
      | '/', '*' :: rest => tokensIn (.blockComment false) rest
      | c, rest => (Mode.start c).2 ++ tokensIn (Mode.start c).1 rest

def tokenize (text : List Char) : List Token := tokensIn .code text

end Tsconfig.Source
