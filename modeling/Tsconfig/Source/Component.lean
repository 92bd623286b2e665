import Tsconfig.Text.Blank
import Tsconfig.Text.Cut

/-!
The scripts of single-file components. Everything outside the scripts is blanked byte for byte, so
that offsets and lines are those of the component.
-/
namespace Tsconfig.Source.Component
open Text

/-- What a character of a component belongs to. -/
inductive Region
  | markup
  /-- The opening tag of a script, with the text between its name and its end. -/
  | tag (attributes : List Char)
  | script
  /-- What follows the name of an opening tag that does not end. -/
  | lost
  deriving DecidableEq

/-- Whether a text starts with a word in lower case, whatever the case of its ASCII letters. -/
def startsWith (word text : List Char) : Bool := word.isPrefixOf (lower (text.take word.length))

def openingName : List Char := "<script".toList

def closingName : List Char := "</script".toList

/-- The characters that can follow the name of a tag. -/
def endsName (c : Char) : Bool :=
  c = '>' || c = ' ' || c = '\t' || c = '\n' || c = '\r' || c = '/'

/-- Whether an opening tag of a script starts here. -/
def opensScript (text : List Char) : Bool :=
  startsWith openingName text && (text.drop openingName.length).head?.any endsName

/-- Whether a tag with these attributes has no content. -/
def isEmptyTag (attributes : List Char) : Bool := (trimEnd attributes).getLast? = some '/'

/-- The region that starts with an opening tag. -/
def tagRegion (text : List Char) : Region :=
  match cutAt? ['>'] (text.drop openingName.length) with
  | some (attributes, _) => .tag attributes
  | none => .lost

/-- The region of a character, given the region of the one before it, its own text on, and whether
the one before ended its region. -/
def Region.next : Region → List Char → Region
  | .markup, text => if opensScript text then tagRegion text else .markup
  | .script, text => if startsWith closingName text then .markup else .script
  | region, _ => region

def Region.after : Region → Char → Region
  | .tag attributes, c =>
    if c = '>' then if isEmptyTag attributes then .markup else .script else .tag attributes
  | region, _ => region

/-- Each character with its region. -/
def regionsFrom : Region → List Char → List (Char × Region)
  | _, [] => []
  | before, c :: rest =>
    let region := before.next (c :: rest)
    (c, region) :: regionsFrom (region.after c) rest

def regions (text : List Char) : List (Char × Region) := regionsFrom .markup text

/-- What is left of a character: all of it in a script and in a line break, else a blank for each
byte. -/
def keepOrBlank : Char × Region → List Char
  | (c, region) =>
    if region = .script ∨ c = '\n' ∨ c = '\r' then [c] else List.replicate c.utf8Size ' '

/-- The first word of an unquoted value. -/
def unquoted (value : List Char) : List Char := value.takeWhile fun c => !isBlank c && c ≠ '/'

/-- The value of the attribute `lang` in what follows its name. The outer option tells whether an
equals sign follows, the inner one whether there is a value behind it. -/
def valueAfter (text : List Char) : Option (Option (List Char)) :=
  match trimStart text with
  | '=' :: value =>
    match trimStart value with
    | [] => some none
    | quote :: rest =>
      if quote = '"' ∨ quote = '\'' then some ((cutAt? [quote] rest).map Prod.fst)
      else some (some (unquoted (quote :: rest)))
  | _ => none

/-- The value of the first occurrence of `lang` that stands at the start or after a blank and has an
equals sign behind it. `apart` tells whether the text starts so. -/
def langIn (apart : Bool) : List Char → Option (List Char)
  | [] => none
  | 'l' :: 'a' :: 'n' :: 'g' :: rest =>
    match if apart then valueAfter rest else none with
    | some value => value
    | none => langIn true rest
  | c :: rest => langIn (isBlank c) rest

/-- The script of a component in its place, and the language its first tag with one names. -/
structure Script where
  text : String
  lang : Option String
  deriving DecidableEq, Repr

/-- The language that the tag a character belongs to names. -/
def langOf : Char × Region → Option (List Char)
  | (_, .tag attributes) => langIn true attributes
  | _ => none

def extract (text : String) : Script :=
  let regions := regions text.toList
  ⟨String.ofList (regions.flatMap keepOrBlank), (regions.findSome? langOf).map String.ofList⟩

end Tsconfig.Source.Component
