import Tsconfig.Json.Issue
import Tsconfig.Json.Value

/-!
Reading numbers. The digits go into a significand of 64 bits for as long as they fit; digits beyond
only count towards the exponent, or not at all behind the point. A number with a point, with an
exponent or out of the range of integers is the double that the significand and one power of ten
give, each rounded.
-/
namespace Tsconfig.Json

namespace Number

def digit (c : Char) : Nat := c.toNat - '0'.toNat

/-- The significand after as many of the digits as fit, and the digits that do not. -/
def accumulate (limit significand : Nat) : List Char → Nat × List Char
  | [] => (significand, [])
  | d :: digits =>
    if limit < significand * 10 + digit d then (significand, d :: digits)
    else accumulate limit (significand * 10 + digit d) digits

/-- The largest integer of 64 bits. -/
def maxSignificand : Nat := 0xFFFFFFFFFFFFFFFF

/-- The largest power of ten that is a double. -/
def maxPower : Nat := 308

def powerOfTen (n : Nat) : Double := Double.ofNat (Nat.pow 10 n)

/-- `x` divided by the largest power of ten until the exponent is in reach, and then by the rest. -/
def scaleDown (x : Double) (exponent : Nat) : Option Double :=
  if exponent ≤ maxPower then x.div? (powerOfTen exponent)
  else if x.significand = 0 then some x
  else do scaleDown (← x.div? (powerOfTen maxPower)) (exponent - maxPower)
termination_by exponent
decreasing_by exact Nat.sub_lt (by omega) (by decide)

def ofParts? (negative : Bool) (significand : Nat) (exponent : Int) : Option Double :=
  let x := Double.ofNat significand
  let scaled :=
    if exponent < 0 then scaleDown x exponent.natAbs
    else if exponent ≤ maxPower then x.mul? (powerOfTen exponent.natAbs)
    else if significand = 0 then some x else none
  scaled.map fun y => { y with negative }

def isExponentMark (c : Char) : Bool := c = 'e' || c = 'E'

/-- The number with these parts, read up to `rest`. -/
def close (negative : Bool) (significand : Nat) (exponent : Int) (rest : List Char) :
    Except Stop (Number × List Char) :=
  match ofParts? negative significand exponent with
  | some x => .ok (.double x, rest)
  | none => .error (.before .numberOutOfRange rest)

def maxExponentDigits : Nat := 0x7FFFFFFF

def exponentDigits (negative : Bool) (significand : Nat) (exponent : Int) (down : Bool)
    (text : List Char) : Except Stop (Number × List Char) :=
  match text with
  | [] => .error (.before .endInValue [])
  | c :: _ =>
    if c.isDigit then
      let digits := text.takeWhile Char.isDigit
      let rest := text.dropWhile Char.isDigit
      match accumulate maxExponentDigits 0 digits with
      | (power, []) =>
        close negative significand (if down then exponent - power else exponent + power) rest
      | (_, unread) =>
        if significand ≠ 0 ∧ down = false then
          .error (.before .numberOutOfRange (unread.drop 1 ++ rest))
        else .ok (.double ⟨negative, 0, Double.minExponent⟩, rest)
    else .error (.on .badNumber text)

/-- An exponent after its mark: a sign, if any, and digits. -/
def exponentPart (negative : Bool) (significand : Nat) (exponent : Int) (text : List Char) :
    Except Stop (Number × List Char) :=
  match text with
  | '+' :: rest => exponentDigits negative significand exponent false rest
  | '-' :: rest => exponentDigits negative significand exponent true rest
  | rest => exponentDigits negative significand exponent false rest

/-- What may follow the digits: an exponent, or the end of the number. -/
def afterDigits (negative : Bool) (significand : Nat) (exponent : Int) (text : List Char) :
    Except Stop (Number × List Char) :=
  match text with
  | c :: rest =>
    if isExponentMark c then exponentPart negative significand exponent rest
    else close negative significand exponent text
  | [] => close negative significand exponent []

/-- The digits behind a point, of which there is at least one. -/
def fraction (negative : Bool) (significand : Nat) (exponent : Int) (text : List Char) :
    Except Stop (Number × List Char) :=
  let digits := text.takeWhile Char.isDigit
  let rest := text.dropWhile Char.isDigit
  if digits = [] then
    match rest with
    | [] => .error (.before .endInValue [])
    | _ => .error (.on .badNumber rest)
  else
    let (value, unread) := accumulate maxSignificand significand digits
    afterDigits negative value (exponent - (digits.length - unread.length : Nat)) rest

/-- The number that ends with its integer part: an integer where it fits, else a double. -/
def whole (negative : Bool) (significand : Nat) : Number :=
  if negative then
    if h : 0 < significand ∧ significand ≤ 0x8000000000000000 then
      .int (-(significand : Int)) (by omega)
    else .double { Double.ofNat significand with negative := true }
  else if h : significand ≤ maxSignificand then
    .int significand (by simp only [maxSignificand] at h; omega)
  else .double (Double.ofNat significand)

/-- What may follow an integer part of which `beyond` digits did not fit. -/
def afterWhole (negative : Bool) (significand beyond : Nat) (text : List Char) :
    Except Stop (Number × List Char) :=
  match text with
  | '.' :: rest => fraction negative significand beyond rest
  | _ =>
    if beyond = 0 ∧ text.head?.all (fun c => !isExponentMark c) then
      .ok (whole negative significand, text)
    else afterDigits negative significand beyond text

/-- A number without its sign. A zero is not followed by a digit. -/
def readUnsigned (negative : Bool) (text : List Char) : Except Stop (Number × List Char) :=
  match text with
  | [] => .error (.before .endInValue [])
  | '0' :: rest =>
    if rest.head?.any Char.isDigit then .error (.on .badNumber rest)
    else afterWhole negative 0 0 rest
  | c :: _ =>
    if c.isDigit then
      let (significand, unread) := accumulate maxSignificand 0 (text.takeWhile Char.isDigit)
      afterWhole negative significand unread.length (text.dropWhile Char.isDigit)
    else .error (.on .badNumber text)

theorem length_close {negative : Bool} {significand : Nat} {exponent : Int} {rest : List Char}
    {read : Number × List Char} (h : close negative significand exponent rest = .ok read) :
    read.2.length ≤ rest.length := by
  unfold close at h
  split at h <;> simp at h
  simp [← h]

theorem length_dropWhile_le (p : Char → Bool) (text : List Char) :
    (text.dropWhile p).length ≤ text.length :=
  (List.dropWhile_sublist p).length_le

theorem length_exponentDigits {negative down : Bool} {significand : Nat} {exponent : Int}
    {text : List Char} {read : Number × List Char}
    (h : exponentDigits negative significand exponent down text = .ok read) :
    read.2.length ≤ text.length := by
  unfold exponentDigits at h
  split at h
  · simp at h
  · split at h
    · dsimp only at h
      split at h
      · exact Nat.le_trans (length_close h) (length_dropWhile_le ..)
      · split at h
        · simp at h
        · simp only [Except.ok.injEq] at h
          exact h ▸ length_dropWhile_le ..
    · simp at h

theorem length_exponentPart {negative : Bool} {significand : Nat} {exponent : Int}
    {text : List Char} {read : Number × List Char}
    (h : exponentPart negative significand exponent text = .ok read) :
    read.2.length ≤ text.length := by
  unfold exponentPart at h
  split at h
  · exact Nat.le_trans (length_exponentDigits h) (by simp)
  · exact Nat.le_trans (length_exponentDigits h) (by simp)
  · exact length_exponentDigits h

theorem length_afterDigits {negative : Bool} {significand : Nat} {exponent : Int}
    {text : List Char} {read : Number × List Char}
    (h : afterDigits negative significand exponent text = .ok read) :
    read.2.length ≤ text.length := by
  unfold afterDigits at h
  split at h
  · split at h
    · exact Nat.le_trans (length_exponentPart h) (by simp)
    · exact length_close h
  · exact length_close h

theorem length_fraction {negative : Bool} {significand : Nat} {exponent : Int}
    {text : List Char} {read : Number × List Char}
    (h : fraction negative significand exponent text = .ok read) :
    read.2.length ≤ text.length := by
  unfold fraction at h
  simp only at h
  split at h
  · split at h <;> simp at h
  · exact Nat.le_trans (length_afterDigits h) (length_dropWhile_le ..)

theorem length_afterWhole {negative : Bool} {significand beyond : Nat}
    {text : List Char} {read : Number × List Char}
    (h : afterWhole negative significand beyond text = .ok read) :
    read.2.length ≤ text.length := by
  unfold afterWhole at h
  split at h
  · exact Nat.le_trans (length_fraction h) (by simp)
  · split at h
    · simp only [Except.ok.injEq] at h
      exact h ▸ Nat.le_refl _
    · exact length_afterDigits h

/-- A number takes at least one character. -/
theorem length_readUnsigned {negative : Bool} {text : List Char} {read : Number × List Char}
    (h : readUnsigned negative text = .ok read) : read.2.length < text.length := by
  unfold readUnsigned at h
  split at h
  · simp at h
  · split at h
    · simp at h
    · exact Nat.lt_of_le_of_lt (length_afterWhole h) (by simp)
  · rename_i c rest _
    split at h
    · rename_i hc
      refine Nat.lt_of_le_of_lt (length_afterWhole h) ?_
      rw [List.dropWhile_cons_of_pos hc]
      exact Nat.lt_of_le_of_lt (length_dropWhile_le ..) (by simp)
    · simp at h

end Number
end Tsconfig.Json
