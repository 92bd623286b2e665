import Tsconfig.Regex.Basic
import Tsconfig.Text.Blank

/-!
The settings of regular expressions, and what depends on them.

An expression is about all characters or, if it says so, about those of ASCII. Digits, blanks, words and
the two cases of a letter are known for ASCII only. So an expression about all characters cannot name
them. Nor can one about ASCII name a set that has other characters: a dot or the complement of a set.
-/
namespace Tsconfig
namespace Regex
open Text

/-- The settings that an expression can change as it goes on. -/
structure Settings where
  anyCase : Bool := false
  /-- Anchors are about lines. -/
  lines : Bool := false
  /-- A carriage return also breaks a line. -/
  carriageReturns : Bool := false
  /-- A dot also stands for a line break. -/
  dotAll : Bool := false
  /-- Repetitions are greedy only with a question mark. -/
  lazy : Bool := false
  /-- Sets and words are of ASCII. -/
  ascii : Bool := false
  /-- Blanks and comments do not count. -/
  spaced : Bool := false
  deriving DecidableEq, Repr

/-- The text after characters that satisfy `p` and after comments. A comment starts with a hash and
ends with its line. -/
def dropCommented (p : Char → Bool) (inComment : Bool) : List Char → List Char
  | [] => []
  | c :: rest =>
    if inComment then dropCommented p (c ≠ '\n') rest
    else if p c then dropCommented p false rest
    else if c = '#' then dropCommented p true rest
    else c :: rest

namespace Settings

/-- The settings after the letter of one of them. -/
def set? (settings : Settings) (letter : Char) (value : Bool) : Option Settings :=
  match letter with
  | 'i' => some { settings with anyCase := value }
  | 'm' => some { settings with lines := value }
  | 'R' => some { settings with carriageReturns := value }
  | 's' => some { settings with dotAll := value }
  | 'U' => some { settings with lazy := value }
  | 'u' => some { settings with ascii := !value }
  | 'x' => some { settings with spaced := value }
  | _ => none

/-- Letters of settings, a hyphen in front of those that are turned off, up to a closing parenthesis
or to the colon in front of the text that they are for. -/
def read (settings : Settings) (seen : List Char) : List Char → Option (Settings × Bool × List Char)
  | [] => none
  | c :: rest =>
    if c = ')' ∨ c = ':' then
      if seen.head? = some '-' ∨ (c = ')' ∧ seen = []) then none
      else some (settings, c = ':', rest)
    else if c ∈ seen then none
    else if c = '-' then settings.read (c :: seen) rest
    else do read (← settings.set? c ('-' ∉ seen)) (c :: seen) rest

/-- The text after characters that satisfy `p` and after what does not count. -/
def dropWhile (settings : Settings) (p : Char → Bool) (text : List Char) : List Char :=
  if settings.spaced then dropCommented (fun c => isBlank c || p c) false text else text.dropWhile p

/-- The text after what does not count. -/
def skip (settings : Settings) (text : List Char) : List Char := settings.dropWhile (fun _ => false) text

/-- Whether a hyphen in a set makes a range, by the text after it. In front of the closing bracket or
of another hyphen it does not. Of a comment only the hash is passed over here. -/
def makesRange (settings : Settings) (text : List Char) : Bool :=
  let next := if settings.spaced then
      match text.dropWhile isBlank with
      | '#' :: rest => rest.dropWhile isBlank
      | text => text
    else text
  next.head? ∉ [some ']', some '-']

def range? (settings : Settings) (first last : Char) : Option CharSet :=
  if last < first ∨ (settings.ascii ∧ 0x80 ≤ last.toNat) then none else some (.range first last)

/-- The complement of a set, where it may be negated. -/
def complement? (settings : Settings) (set : CharSet) : Option CharSet :=
  if settings.ascii then none else some (.complement set)

/-- A character of a set, as the expression for it. -/
def one? (settings : Settings) (set : CharSet) : Option Regex :=
  if settings.anyCase && !settings.ascii && set.hasRange then none
  else some (.one settings.anyCase set)

/-- What a dot stands for. -/
def dot? (settings : Settings) : Option Regex :=
  if settings.ascii then none
  else
    let breaks := if settings.carriageReturns then ['\n', '\r'] else ['\n']
    some (.one false (if settings.dotAll then .all
      else .complement (.ofRanges (breaks.map fun c => (c, c)))))

/-- What a circumflex stands for. -/
def start (settings : Settings) : Anchor :=
  if settings.lines then .lineStart settings.carriageReturns else .textStart

/-- What a dollar sign stands for. -/
def stop (settings : Settings) : Anchor :=
  if settings.lines then .lineEnd settings.carriageReturns else .textEnd

@[simp] theorem skip_of_not_spaced {settings : Settings} (h : settings.spaced = false)
    (text : List Char) : settings.skip text = text := by
  cases text <;> simp [skip, dropWhile, h]

end Settings
end Regex
end Tsconfig
