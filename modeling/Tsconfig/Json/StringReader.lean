import Tsconfig.Json.Issue
import Tsconfig.Text.Hex

/-! Reading string literals: escapes, pairs of surrogates, and no control characters. -/
namespace Tsconfig.Json
open Text (hexDigit?)

/-- What was read, and a rest that is shorter than the text. -/
abbrev Read (α : Type) (text : List Char) :=
  Except Stop { read : α × List Char // read.2.length < text.length }

def hexNumber? (a b c d : Char) : Option Nat := do
  return (((← hexDigit? a) * 16 + (← hexDigit? b)) * 16 + (← hexDigit? c)) * 16 + (← hexDigit? d)

/-- Four bytes that are hexadecimal digits. -/
def readHex (text : List Char) : Read Nat text :=
  match text with
  | a :: b :: c :: d :: rest =>
    match hexNumber? a b c d with
    | some n => .ok ⟨(n, rest), by simp; omega⟩
    | none => .error ⟨.badEscape, text, 4⟩
  | _ => .error (if 4 ≤ (utf8 text).length then ⟨.badEscape, text, 4⟩ else .before .endInString [])

def isHighSurrogate (n : Nat) : Bool := 0xD800 ≤ n && n ≤ 0xDBFF

def isLowSurrogate (n : Nat) : Bool := 0xDC00 ≤ n && n ≤ 0xDFFF

/-- The rest of a hexadecimal escape: a character, or two halves of one. -/
def readUnicode (text : List Char) : Read Char text := do
  let ⟨(high, rest), h⟩ ← readHex text
  if isLowSurrogate high then .error (.before .loneSurrogate rest)
  else if isHighSurrogate high then
    match rest, h with
    | '\\' :: 'u' :: rest, h => do
      let ⟨(low, rest), h'⟩ ← readHex rest
      if isLowSurrogate low then
        return ⟨(Char.ofNat (0x10000 + (high - 0xD800) * 0x400 + (low - 0xDC00)), rest),
          by simp at h h' ⊢; omega⟩
      else .error (.before .loneSurrogate rest)
    | [], _ => .error (.before .endInString [])
    | ['\\'], _ => .error (.before .endInString [])
    | '\\' :: rest, _ => .error (.on .endOfHexEscape rest)
    | rest, _ => .error (.on .endOfHexEscape rest)
  else return ⟨(Char.ofNat high, rest), h⟩

/-- What follows the backslash of an escape. -/
def readEscape (text : List Char) : Read Char text :=
  match text with
  | [] => .error (.before .endInString [])
  | 'u' :: rest => do
    let ⟨(c, rest), h⟩ ← readUnicode rest
    return ⟨(c, rest), by simp at h ⊢; omega⟩
  | c :: rest =>
    let plain (c : Char) : Read Char (c :: rest) := .ok ⟨(c, rest), by simp⟩
    match c with
    | '"' => plain '"'
    | '\\' => plain '\\'
    | '/' => plain '/'
    | 'b' => plain '\x08'
    | 'f' => plain '\x0c'
    | 'n' => plain '\n'
    | 'r' => plain '\r'
    | 't' => plain '\t'
    | _ => .error (.on .badEscape text)

/-- The characters of a string literal after its opening quote. -/
def readString (text : List Char) : Read (List Char) text :=
  match text with
  | [] => .error (.before .endInString [])
  | '"' :: rest => .ok ⟨([], rest), by simp⟩
  | '\\' :: rest => do
    let ⟨(c, rest), _⟩ ← readEscape rest
    let ⟨(cs, rest), _⟩ ← readString rest
    return ⟨(c :: cs, rest), by simp at *; omega⟩
  | c :: rest =>
    if c.toNat < 0x20 then .error (.before .controlCharacter rest)
    else do
      let ⟨(cs, rest), _⟩ ← readString rest
      return ⟨(c :: cs, rest), by simp at *; omega⟩
termination_by text.length
decreasing_by all_goals simp only [List.length_cons] at *; omega

end Tsconfig.Json
