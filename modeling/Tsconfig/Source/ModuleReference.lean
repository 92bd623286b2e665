import Tsconfig.Source.Token
import Tsconfig.Text.Cut

/-!
The modules that a source text refers to: by reference directives at its top, and by import and
export declarations, dynamic imports and calls of `require`. The text is not parsed; the tokens of
well-formed sources are enough to tell.
-/
namespace Tsconfig.Source
open Text

inductive ReferenceKind
  | imported
  | path
  | types
  deriving DecidableEq, Repr

/-- A module as a source text names it. -/
structure ModuleReference where
  kind : ReferenceKind
  specifier : String
  deriving DecidableEq, Repr

namespace Directive

/-- The quoted text after the first `name=`. -/
def attribute? (name line : List Char) : Option (List Char) :=
  match cutAt? (name ++ ['=']) line with
  | some (_, quote :: rest) =>
    if quote = '"' ∨ quote = '\'' then (cutAt? [quote] rest).map Prod.fst else none
  | _ => none

/-- The reference a trimmed line is a directive for. -/
def ofLine? (line : List Char) : Option ModuleReference :=
  if ['/', '/', '/'].isPrefixOf line && contains "<reference".toList line then
    match attribute? "path".toList line with
    | some path => some ⟨.path, String.ofList path⟩
    | none => (attribute? "types".toList line).map fun types => ⟨.types, String.ofList types⟩
  else none

/-- Whether a trimmed line can stand above or between directives: it is empty or a line comment. -/
def isHeader (line : List Char) : Bool := line = [] || ['/', '/'].isPrefixOf line

/-- The directives in the lines at the top of a text, as far as these are empty or line comments. -/
def all (text : List Char) : List ModuleReference :=
  (((lines text).map trim).takeWhile isHeader).filterMap ofLine?

end Directive

namespace Import

def isWord (word : String) (token : Token) : Bool := token = .word word.toList

/-- The specifiers in a list of tokens. `afterDot` tells that a dot comes before them, and
`declaring` that they are in a declaration which may still name its module. -/
def specifiersIn (afterDot declaring : Bool) : List Token → List (List Char)
  | [] => []
  | token :: rest =>
    let afterDot' := token = .mark '.'
    if isWord "import" token && !afterDot then
      match rest with
      | .text specifier :: _ => specifier :: specifiersIn afterDot' declaring rest
      | .mark '(' :: .text specifier :: _ => specifier :: specifiersIn afterDot' declaring rest
      | _ => specifiersIn afterDot' true rest
    else if isWord "export" token && !afterDot then specifiersIn afterDot' true rest
    else if isWord "from" token && declaring then
      match rest with
      | .text specifier :: _ => specifier :: specifiersIn afterDot' false rest
      | _ => specifiersIn afterDot' declaring rest
    else if isWord "require" token && !afterDot then
      match rest with
      | .mark '(' :: .text specifier :: .mark ')' :: _ =>
        specifier :: specifiersIn afterDot' declaring rest
      | _ => specifiersIn afterDot' declaring rest
    else if token = .mark ';' || isWord "function" token || isWord "class" token then
      specifiersIn afterDot' false rest
    else specifiersIn afterDot' declaring rest

/-- The specifiers of declarations, dynamic imports and calls of `require`, in order. -/
def specifiers (text : List Char) : List (List Char) := specifiersIn false false (tokenize text)

end Import

namespace ModuleReference

/-- The references of a text: directives first, then imports. -/
def all (text : String) : List ModuleReference :=
  Directive.all text.toList ++
    (Import.specifiers text.toList).map fun specifier => ⟨.imported, String.ofList specifier⟩

end ModuleReference
end Tsconfig.Source
