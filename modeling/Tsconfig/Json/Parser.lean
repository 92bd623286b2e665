import Tsconfig.Json.NumberReader
import Tsconfig.Json.StringReader

/-!
Reading JSON. The reader keeps the fields of an object in the order in which their names first
occur, with the last value of each name, and refuses containers nested deeper than a limit.
-/
namespace Tsconfig.Json

def isSpace (c : Char) : Bool := c = ' ' || c = '\n' || c = '\t' || c = '\r'

def skipSpace (text : List Char) : List Char := text.dropWhile isSpace

theorem length_skipSpace_le (text : List Char) : (skipSpace text).length ≤ text.length :=
  (List.dropWhile_sublist _).length_le

/-- The rest of a literal name. -/
def readName {α : Type} (value : α) : (name text : List Char) → Except Stop (α × List Char)
  | [], text => .ok (value, text)
  | _ :: _, [] => .error (.before .endInValue [])
  | n :: name, c :: text =>
    if c = n then readName value name text else .error (.on .noIdent (c :: text))

theorem length_readName_le {α : Type} {value : α} {name text : List Char} {read : α × List Char}
    (h : readName value name text = .ok read) : read.2.length ≤ text.length := by
  induction name generalizing text with
  | nil => simp [readName] at h; simp [← h]
  | cons n name ih =>
    cases text with
    | nil => simp [readName] at h
    | cons c text =>
      simp only [readName] at h
      split at h
      · exact Nat.le_trans (ih h) (by simp)
      · simp at h

abbrev Reader := (text : List Char) → Read Value text

/-- The items of a list after its first. -/
def readItems (item : Reader) (text : List Char) : Read (List Value) text :=
  match hs : skipSpace text with
  | [] => .error (.before .endInList [])
  | ']' :: rest => .ok ⟨([], rest), by
      have := length_skipSpace_le text; simp [hs] at this ⊢; omega⟩
  | ',' :: rest =>
    match skipSpace rest with
    | [] => .error (.before .endInValue [])
    | ']' :: rest => .error (.on .trailingComma (']' :: rest))
    | _ => do
      let ⟨(value, rest'), h⟩ ← item rest
      have hlt : rest'.length < text.length := by
        have := length_skipSpace_le text; simp [hs] at this h; omega
      let ⟨(values, rest''), h'⟩ ← readItems item rest'
      return ⟨(value :: values, rest''), Nat.lt_trans h' hlt⟩
  | rest => .error (.on .noCommaOrBracket rest)
termination_by text.length

/-- A list after its opening bracket. -/
def readList (item : Reader) (text : List Char) : Read (List Value) text :=
  match hs : skipSpace text with
  | [] => .error (.before .endInList [])
  | ']' :: rest => .ok ⟨([], rest), by
      have := length_skipSpace_le text; simp [hs] at this ⊢; omega⟩
  | _ => do
    let ⟨(value, rest), h⟩ ← item text
    let ⟨(values, rest'), h'⟩ ← readItems item rest
    return ⟨(value :: values, rest'), Nat.lt_trans h' h⟩

/-- A field after the opening quote of its name. -/
def readField (item : Reader) (text : List Char) : Read (String × Value) text := do
  let ⟨(name, rest), h⟩ ← readString text
  match hs : skipSpace rest with
  | [] => .error (.before .endInObject [])
  | ':' :: rest' =>
    let ⟨(value, rest''), h'⟩ ← item rest'
    return ⟨((String.ofList name, value), rest''), by
      have := length_skipSpace_le rest; simp [hs] at this h h' ⊢; omega⟩
  | rest' => .error (.on .noColon rest')

/-- The fields of an object after its first. -/
def readFields (item : Reader) (text : List Char) : Read (List (String × Value)) text :=
  match hs : skipSpace text with
  | [] => .error (.before .endInObject [])
  | '}' :: rest => .ok ⟨([], rest), by
      have := length_skipSpace_le text; simp [hs] at this ⊢; omega⟩
  | ',' :: rest =>
    match hs' : skipSpace rest with
    | [] => .error (.before .endInValue [])
    | '}' :: rest => .error (.on .trailingComma ('}' :: rest))
    | '"' :: rest' => do
      let ⟨(field, rest''), h⟩ ← readField item rest'
      have hlt : rest''.length < text.length := by
        have := length_skipSpace_le text
        have := length_skipSpace_le rest
        simp [hs, hs'] at *; omega
      let ⟨(fields, rest'''), h'⟩ ← readFields item rest''
      return ⟨(field :: fields, rest'''), Nat.lt_trans h' hlt⟩
    | rest => .error (.on .keyNotString rest)
  | rest => .error (.on .noCommaOrBrace rest)
termination_by text.length

/-- An object after its opening brace. -/
def readObject (item : Reader) (text : List Char) : Read (List (String × Value)) text :=
  match hs : skipSpace text with
  | [] => .error (.before .endInObject [])
  | '}' :: rest => .ok ⟨([], rest), by
      have := length_skipSpace_le text; simp [hs] at this ⊢; omega⟩
  | '"' :: rest => do
    let ⟨(field, rest'), h⟩ ← readField item rest
    let ⟨(fields, rest''), h'⟩ ← readFields item rest'
    return ⟨(field :: fields, rest''), by
      have := length_skipSpace_le text; simp [hs] at *; omega⟩
  | rest => .error (.on .keyNotString rest)

/-- The object that the fields make, inserted one after the other. -/
def collectFields (fields : List (String × Value)) : Object :=
  fields.foldl (fun object field => OrderedMap.put field.1 field.2 object) []

theorem length_lt_of_skipSpace {text rest rest' : List Char} {c : Char}
    (hs : skipSpace text = c :: rest) (h : rest'.length ≤ rest.length) :
    rest'.length < text.length := by
  have := length_skipSpace_le text
  simp [hs] at this
  omega

/-- A value with white space before it, in which containers may be nested `room` deep. -/
def readValue (room : Nat) (text : List Char) : Read Value text :=
  match hs : skipSpace text with
  | [] => .error (.before .endInValue [])
  | 'n' :: rest =>
    match h : readName Value.null ['u', 'l', 'l'] rest with
    | .ok read => .ok ⟨read, length_lt_of_skipSpace hs (length_readName_le h)⟩
    | .error stop => .error stop
  | 't' :: rest =>
    match h : readName (Value.bool true) ['r', 'u', 'e'] rest with
    | .ok read => .ok ⟨read, length_lt_of_skipSpace hs (length_readName_le h)⟩
    | .error stop => .error stop
  | 'f' :: rest =>
    match h : readName (Value.bool false) ['a', 'l', 's', 'e'] rest with
    | .ok read => .ok ⟨read, length_lt_of_skipSpace hs (length_readName_le h)⟩
    | .error stop => .error stop
  | '"' :: rest => do
    let ⟨(chars, rest'), h⟩ ← readString rest
    return ⟨(.str (String.ofList chars), rest'), length_lt_of_skipSpace hs (Nat.le_of_lt h)⟩
  | '[' :: rest =>
    match room with
    | 0 => .error (.on .tooDeep ('[' :: rest))
    | room + 1 => do
      let ⟨(items, rest'), h⟩ ← readList (readValue room) rest
      return ⟨(.arr items, rest'), length_lt_of_skipSpace hs (Nat.le_of_lt h)⟩
  | '{' :: rest =>
    match room with
    | 0 => .error (.on .tooDeep ('{' :: rest))
    | room + 1 => do
      let ⟨(fields, rest'), h⟩ ← readObject (readValue room) rest
      return ⟨(.obj (collectFields fields), rest'), length_lt_of_skipSpace hs (Nat.le_of_lt h)⟩
  | '-' :: rest =>
    match h : Number.readUnsigned true rest with
    | .ok (n, rest') => .ok ⟨(.num n, rest'),
        length_lt_of_skipSpace hs (Nat.le_of_lt (Number.length_readUnsigned h))⟩
    | .error stop => .error stop
  | c :: rest =>
    if c.isDigit then
      match h : Number.readUnsigned false (c :: rest) with
      | .ok (n, rest') => .ok ⟨(.num n, rest'),
          length_lt_of_skipSpace hs (Nat.le_of_lt_succ (Number.length_readUnsigned h))⟩
      | .error stop => .error stop
    else .error (.on .noValue (c :: rest))

/-- How deep containers may be nested. -/
def maxDepth : Nat := 127

/-- A value and nothing but white space around it. -/
def readDocument (text : List Char) : Except Stop Value := do
  let ⟨(value, rest), _⟩ ← readValue maxDepth text
  match skipSpace rest with
  | [] => return value
  | rest => .error (.on .trailingCharacters rest)

/-- The value of a JSON text, or what is wrong with it. -/
def parse (text : List Char) : Except Diagnostic Value :=
  match readDocument text with
  | .ok value => .ok value
  | .error stop => .error (stop.diagnostic text)

end Tsconfig.Json
