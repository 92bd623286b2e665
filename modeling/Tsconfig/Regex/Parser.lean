import Tsconfig.Regex.Settings
import Tsconfig.Text.Hex
import Tsconfig.Text.Letter

/-!
Reading regular expressions: literals, sets, anchors, groups, alternatives and repetitions. They are
written within braces, and the first closing brace is theirs no more. So there are no forms that need
one, and an opening brace outside a set is a mistake. So is an expression that is nested too deep.
-/
namespace Tsconfig
namespace Regex
open Text

/-- What has been read, and how many levels are nested in it. -/
structure Nested (α : Type) where
  value : α
  depth : Nat := 0
  deriving DecidableEq, Repr

/-- Things side by side, made into one. Two or more of them are a level of their own. -/
def Nested.join {α β : Type} (parts : List (Nested α)) (value : List α → β) : Nested β :=
  let level := if 2 ≤ parts.length then 1 else 0
  ⟨value (parts.map (·.value)), parts.foldl (fun depth part => max depth part.depth) 0 + level⟩

/-- A thing with a level around it. -/
def Nested.wrap {α β : Type} (part : Nested α) (value : α → β) : Nested β :=
  ⟨value part.value, part.depth + 1⟩

/-- How deep an expression may be nested. -/
def maxDepth : Nat := 250

/-- What a backslash makes of the text after it. -/
inductive Escape
  | literal (c : Char)
  | set (set : CharSet)
  | anchor (condition : Anchor)
  deriving DecidableEq, Repr

/-- The control characters that have a letter. -/
def controls : List (Char × Char) :=
  [('a', '\x07'), ('f', '\x0C'), ('t', '\t'), ('n', '\n'), ('r', '\r'), ('v', '\x0B')]

/-- The letters for the ends of the text. -/
def textAnchors : List (Char × Anchor) := [('A', .textStart), ('z', .textEnd)]

/-- What else stands for something in ASCII only. -/
def asciiEscapes : List (Char × Escape) :=
  [('d', .set .digit), ('s', .set .space), ('w', .set .word), ('b', .anchor .wordBound),
   ('B', .anchor .noWordBound), ('<', .anchor .wordStart), ('>', .anchor .wordEnd)]

/-- The letters in front of the code of a character, and the number of its digits. -/
def codes : List (Char × Nat) := [('x', 2), ('u', 4), ('U', 8)]

/-- As many digits as a number says, and the rest. -/
def readDigits (settings : Settings) : Nat → List Char → Option (List Nat × List Char)
  | 0, text => some ([], text)
  | count + 1, text =>
    match settings.skip text with
    | [] => none
    | c :: rest => do
      let digit ← hexDigit? c
      let (digits, rest) ← readDigits settings count rest
      return (digit :: digits, rest)

/-- The character that has a code, after the letter in front of it. In ASCII a code of two digits is
one of ASCII. -/
def readCode (settings : Settings) (letter : Char) (width : Nat) (text : List Char) :
    Option (Char × List Char) := do
  let (digits, rest) ← readDigits settings width text
  let code := digits.foldl (fun n digit => 16 * n + digit) 0
  if code.isValidChar ∧ ¬(settings.ascii ∧ letter = 'x' ∧ 0x80 ≤ code) then
    some (Char.ofNat code, rest)
  else none

/-- What follows a backslash, and the rest. Any other punctuation of ASCII stands for itself there. -/
def readEscape (settings : Settings) : List Char → Option (Escape × List Char)
  | [] => none
  | c :: rest =>
    if let some control := controls.lookup c then some (.literal control, rest)
    else if let some condition := textAnchors.lookup c then some (.anchor condition, rest)
    else if let some escape := asciiEscapes.lookup c then
      if settings.ascii then some (escape, rest) else none
    else if let some width := codes.lookup c then
      (readCode settings c width rest).map fun (c, rest) => (.literal c, rest)
    else if c.isAlphanum ∨ 0x80 ≤ c.toNat then none
    else some (.literal c, rest)

/-- A set with a name, after its opening bracket, and whether it is its complement that is meant. -/
def readNamedSet : List Char → Option (CharSet × Bool × List Char)
  | ':' :: rest =>
    let (negated, rest) := match rest with
      | '^' :: rest => (true, rest)
      | rest => (false, rest)
    let name := rest.takeWhile (· ≠ ':')
    match rest.drop name.length with
    | ':' :: ']' :: rest => (CharSet.named.lookup (String.ofList name)).map (·, negated, rest)
    | _ => none
  | _ => none

/-- A character of a set or an escape. -/
def readMember (settings : Settings) : List Char → Option (Escape × List Char)
  | [] => none
  | '\\' :: rest => readEscape settings rest
  | c :: rest => some (.literal c, rest)

/-- What an escape stands for in a set, where there are no anchors. -/
def Escape.set? (settings : Settings) : Escape → Option CharSet
  | literal c => settings.range? c c
  | set s => some s
  | anchor _ => none

def readRange (settings : Settings) (text : List Char) : Option (CharSet × List Char) := do
  let (member, rest) ← readMember settings text
  let rest := settings.skip rest
  if rest.head? = some '-' ∧ settings.makesRange rest.tail then
    match member, ← readMember settings (settings.skip rest.tail) with
    | .literal first, (.literal last, rest) => return (← settings.range? first last, rest)
    | _, _ => none
  else return (← member.set? settings, rest)

/-- The operators between sets. -/
inductive SetOperator
  | inter
  | difference
  | symmetricDifference
  deriving DecidableEq, Repr

def SetOperator.apply : SetOperator → CharSet → CharSet → CharSet
  | inter, left, right => .inter left right
  | difference, left, right => left.difference right
  | symmetricDifference, left, right => left.symmetricDifference right

/-- Part of a set up to its end or to the next operator: its members, last first, behind what stands
to the left of the last operator. -/
structure Segment where
  left : Option (Nested CharSet × SetOperator) := none
  members : List (Nested CharSet) := []

namespace Segment

def add (segment : Segment) (member : Nested CharSet) : Segment :=
  { segment with members := member :: segment.members }

def set (segment : Segment) : Nested CharSet :=
  let right := Nested.join segment.members (·.foldr .union .none)
  match segment.left with
  | none => right
  | some (left, operator) =>
    Nested.join [left, right] fun _ => operator.apply left.value right.value

/-- After an operator. -/
def operate (segment : Segment) (operator : SetOperator) : Segment :=
  { left := some (segment.set, operator) }

end Segment

mutual

/-- The members of a set, up to its closing bracket. -/
def readMembers (settings : Settings) :
    Nat → Segment → List Char → Option (Nested CharSet × List Char)
  | 0, _, _ => none
  | fuel + 1, segment, text =>
    match settings.skip text with
    | [] => none
    | ']' :: rest => some (segment.set, rest)
    | '[' :: rest =>
      match readNamedSet rest with
      | some (set, negated, rest) => do
        let set ← if negated then settings.complement? set else some set
        readMembers settings fuel (segment.add ⟨set, 0⟩) rest
      | none => do
        let (set, rest) ← readSet settings fuel rest
        readMembers settings fuel (segment.add set) rest
    | '&' :: '&' :: rest => readMembers settings fuel (segment.operate .inter) rest
    | '-' :: '-' :: rest => readMembers settings fuel (segment.operate .difference) rest
    | '~' :: '~' :: rest => readMembers settings fuel (segment.operate .symmetricDifference) rest
    | text => do
      let (set, rest) ← readRange settings text
      readMembers settings fuel (segment.add ⟨set, 0⟩) rest

/-- A set after its opening bracket. Hyphens that come first are members, and a closing bracket that
comes first is one. -/
def readSet (settings : Settings) : Nat → List Char → Option (Nested CharSet × List Char)
  | 0, _ => none
  | fuel + 1, text => do
    let (negated, text) := match settings.skip text with
      | '^' :: rest => (true, settings.skip rest)
      | text => (false, text)
    let (segment, text) : Segment × List Char := match text with
      | '-' :: rest => (Segment.add {} ⟨.single '-', 0⟩, settings.dropWhile (· = '-') rest)
      | ']' :: rest => (Segment.add {} ⟨.single ']', 0⟩, rest)
      | text => ({}, text)
    let (set, rest) ← readMembers settings fuel segment text
    let value ← if negated then settings.complement? set.value else some set.value
    return (set.wrap fun _ => value, rest)

end

/-- The name of a group, up to the bracket that closes it. -/
def readName (text : List Char) : Option (List Char × List Char) :=
  let name := text.takeWhile (· ≠ '>')
  match name, text.drop name.length with
  | first :: others, _ :: rest =>
    if (first = '_' || isLetter first) &&
        others.all (fun c => c ∈ ['_', '.', '[', ']'] || isLetter c || isNumeral c) then
      some (name, rest)
    else none
  | _, _ => none

/-- A group that is not closed yet: what there is of it, last first. An item without an expression
is a change of settings. -/
structure Group where
  /-- The settings in force where it was opened. -/
  before : Settings := {}
  alternatives : List (Nested Regex) := []
  items : List (Nested (Option Regex)) := []

namespace Group

def add (group : Group) (item : Nested (Option Regex)) : Group :=
  { group with items := item :: group.items }

def sequence (group : Group) : Nested Regex :=
  Nested.join group.items (·.foldl (fun rest item => (item.map (.seq · rest)).getD rest) .empty)

/-- After a sign for an alternative. -/
def endAlternative (group : Group) : Group :=
  { group with alternatives := group.sequence :: group.alternatives, items := [] }

def regex (group : Group) : Nested Regex :=
  Nested.join (group.sequence :: group.alternatives) fun
    | [] => .empty
    | last :: others => others.foldl (fun rest first => .alt first rest) last

end Group

/-- How far reading has come. -/
structure Progress where
  settings : Settings := {}
  /-- The innermost group; the expression itself, outside all groups. -/
  group : Group := {}
  /-- The groups around it, innermost first. -/
  outer : List Group := []
  /-- The names of groups so far. -/
  names : List (List Char) := []

namespace Progress

def add (progress : Progress) (item : Regex) : Progress :=
  { progress with group := progress.group.add ⟨some item, 0⟩ }

def addSet? (progress : Progress) (set : CharSet) : Option Progress :=
  (progress.settings.one? set).map progress.add

def openGroup (progress : Progress) (settings : Settings) : Progress :=
  { progress with settings, group := { before := progress.settings },
                  outer := progress.group :: progress.outer }

def closeGroup? (progress : Progress) : Option Progress :=
  match progress.outer with
  | [] => none
  | group :: outer =>
    some { progress with settings := progress.group.before,
                         group := group.add (progress.group.regex.wrap some), outer }

/-- With the last item repeated, as a function on it says. -/
def repeatLast? (progress : Progress) (repetition : Regex → Regex) : Option Progress :=
  match progress.group.items with
  | item :: items =>
    if item.value.isNone then none
    else
      let items := item.wrap (·.map repetition) :: items
      some { progress with group := { progress.group with items } }
  | [] => none

/-- After a parenthesis. -/
def afterParenthesis? (progress : Progress) (text : List Char) : Option (Progress × List Char) :=
  match progress.settings.skip text with
  | '?' :: 'P' :: '<' :: rest | '?' :: '<' :: rest => do
    let (name, rest) ← readName rest
    if name ∈ progress.names then none
    else
      some ({ progress.openGroup progress.settings with names := name :: progress.names }, rest)
  | '?' :: rest => do
    let (settings, isGroup, rest) ← progress.settings.read [] rest
    if isGroup then some (progress.openGroup settings, rest)
    else some ({ progress with settings, group := progress.group.add ⟨none, 0⟩ }, rest)
  | rest => some (progress.openGroup progress.settings, rest)

/-- After a sign of repetition. A question mark right behind it turns greed round. -/
def afterRepetition? (progress : Progress) (repetition : Bool → Regex → Regex) (rest : List Char) :
    Option (Progress × List Char) :=
  let (marked, rest) := match rest with
    | '?' :: rest => (true, rest)
    | rest => (false, rest)
  (progress.repeatLast? (repetition (marked = progress.settings.lazy))).map (·, rest)

def addEscape? (progress : Progress) : Escape → Option Progress
  | .literal c => progress.addSet? (.single c)
  | .set set => progress.addSet? set
  | .anchor condition => some (progress.add (.anchor condition))

def step? (progress : Progress) (c : Char) (rest : List Char) : Option (Progress × List Char) :=
  match c with
  | '(' => progress.afterParenthesis? rest
  | ')' => progress.closeGroup?.map (·, rest)
  | '|' => some ({ progress with group := progress.group.endAlternative }, rest)
  | '[' => do
    let (set, rest) ← readSet progress.settings (2 * rest.length + 1) rest
    let regex ← progress.settings.one? set.value
    return ({ progress with group := progress.group.add ⟨some regex, set.depth⟩ }, rest)
  | '?' => progress.afterRepetition? Regex.optional rest
  | '*' => progress.afterRepetition? Regex.many rest
  | '+' => progress.afterRepetition? Regex.oneOrMore rest
  | '\x7B' => none
  | '\\' => do
    let (escape, rest) ← readEscape progress.settings rest
    return (← progress.addEscape? escape, rest)
  | '.' => progress.settings.dot?.map (progress.add ·, rest)
  | '^' => some (progress.add (.anchor progress.settings.start), rest)
  | '$' => some (progress.add (.anchor progress.settings.stop), rest)
  | c => (progress.addSet? (.single c)).map (·, rest)

/-- The expression in the end, if every group is closed by then and none is nested too deep. Every step
takes a character. -/
def finish? : Nat → Progress → List Char → Option Regex
  | 0, _, _ => none
  | fuel + 1, progress, text =>
    match progress.settings.skip text with
    | [] =>
      let regex := progress.group.regex
      if progress.outer.isEmpty && regex.depth ≤ maxDepth then some regex.value else none
    | c :: rest => do
      let (progress, rest) ← progress.step? c rest
      finish? fuel progress rest

end Progress

def parse? (text : List Char) : Option Regex := ({} : Progress).finish? (text.length + 1) text

end Regex
end Tsconfig
