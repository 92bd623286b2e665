import Tsconfig.Json.Double

/-!
The text of a double: the fewest decimal digits that read back as the same double, of those the
nearest, written positionally or with an exponent.
-/
namespace Tsconfig.Json.Double

/-- Whether `digits · 10^power` rounds to the double: it lies between the middles towards the two
neighbours, which count when the significand is even. -/
def readsBack (x : Double) (digits : Nat) (power : Int) : Bool :=
  let m := x.significand
  -- a quarter of the unit is the scale, because below a power of two the step is half as long
  let below := if m = leastWide ∧ minExponent < x.exponent then 4 * m - 1 else 4 * m - 2
  let above := 4 * m + 2
  let e := x.exponent - 2
  let candidate := digits * powerOf 10 power * powerOf 2 (-e)
  let scale := powerOf 10 (-power) * powerOf 2 e
  if m % 2 = 0 then below * scale ≤ candidate && candidate ≤ above * scale
  else below * scale < candidate && candidate < above * scale

/-- The distance of `digits · 10^power` from the double, in a unit that depends on `power` only. -/
def distance (x : Double) (digits : Nat) (power : Int) : Nat :=
  let candidate := digits * powerOf 10 power * x.den
  let value := x.num * powerOf 10 (-power)
  if candidate ≤ value then value - candidate else candidate - value

/-- The multiple of `10^power` that reads back as the double and is nearest to it; of two that are
equally near the even one. -/
def onGrid? (x : Double) (power : Int) : Option Nat :=
  let low := x.num * powerOf 10 (-power) / (x.den * powerOf 10 power)
  let high := low + 1
  match readsBack x low power, readsBack x high power with
  | true, true =>
    let toLow := distance x low power
    let toHigh := distance x high power
    if toLow < toHigh ∨ (toLow = toHigh ∧ low % 2 = 0) then some low else some high
  | true, false => some low
  | false, true => some high
  | false, false => none

/-- The power of ten of the first digit of a double that is not zero. -/
def leadingPower (x : Double) : Int :=
  let scaled := x.num * powerOf 10 400 / x.den
  ((Nat.toDigits 10 scaled).length : Int) - 401

/-- Digits without the zeros at their end, which go into the power. -/
def stripZeros (fuel digits : Nat) (power : Int) : Nat × Int :=
  match fuel with
  | 0 => (digits, power)
  | fuel + 1 =>
    if digits % 10 = 0 ∧ digits ≠ 0 then stripZeros fuel (digits / 10) (power + 1)
    else (digits, power)

/-- The fewest digits that read back, as a number and a power of ten: the coarsest grid with a
candidate decides. Seventeen digits always suffice. -/
def shortest (x : Double) : Nat × Int :=
  let lead := leadingPower x
  let grids := (List.range 18).map fun (i : Nat) => lead - (i : Int)
  match grids.findSome? fun power => (onGrid? x power).map fun digits => (digits, power) with
  | some (digits, power) => stripZeros 20 digits power
  | none => (0, 0)

/-- The layout decisions for a double. -/
structure Layout where
  /-- The least power of ten of the first digit that is written positionally. -/
  fromPower : Int
  /-- The least power of ten of the first digit that is not any more. -/
  untilPower : Int

/-- Positional from 0.00001 up to below 10^16, else with a signed exponent. -/
def layout : Layout := ⟨-5, 16⟩

/-- Digits with a point so that the first has the given power of ten; there is always a digit on
both sides. -/
def positional (digits : List Char) (first : Int) : List Char :=
  if first < 0 then
    '0' :: '.' :: (List.replicate (-first - 1).toNat '0' ++ digits)
  else
    let whole := first.toNat + 1
    let padded := digits ++ List.replicate (whole - digits.length) '0'
    let fraction := padded.drop whole
    padded.take whole ++ '.' :: (if fraction = [] then ['0'] else fraction)

/-- One digit, the others behind a point, and the exponent with its sign. -/
def scientific (digits : List Char) (first : Int) : List Char :=
  let fraction := digits.drop 1
  digits.take 1 ++ (if fraction = [] then [] else '.' :: fraction)
    ++ 'e' :: (if first < 0 then '-' else '+') :: Nat.toDigits 10 first.natAbs

def toChars (x : Double) : List Char :=
  let sign := if x.negative then ['-'] else []
  if x.significand = 0 then sign ++ ['0', '.', '0']
  else
    let (digits, power) := shortest x
    let digits := Nat.toDigits 10 digits
    let first := power + (digits.length : Int) - 1
    sign ++ (if layout.fromPower ≤ first ∧ first < layout.untilPower then positional digits first
      else scientific digits first)

end Tsconfig.Json.Double
