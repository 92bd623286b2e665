/-!
Double-precision numbers in exact arithmetic: a sign, a significand below 2^53 and an exponent of
two. Results are rounded to the nearest double, ties to the even significand. There is no infinity:
where a result would be one, there is no result.
-/
namespace Tsconfig.Json

/-- The number ±(significand · 2^exponent). -/
structure Double where
  negative : Bool
  significand : Nat
  exponent : Int
  deriving DecidableEq, Repr, Inhabited

namespace Double

/-- The exponent of the least positive double. -/
def minExponent : Int := -1074

/-- The exponent of the largest double. -/
def maxExponent : Int := 971

/-- The least significand of 53 binary digits. -/
def leastWide : Nat := 0x10000000000000

/-- A power of `base`; one where the exponent is below zero. -/
def powerOf (base : Nat) (exponent : Int) : Nat := base.pow exponent.toNat

/-- The integer nearest to `num / den`; a tie goes to the even one. -/
def roundDiv (num den : Nat) : Nat :=
  let quotient := num / den
  let twice := 2 * (num % den)
  if den < twice ∨ (twice = den ∧ quotient % 2 = 1) then quotient + 1 else quotient

/-- `num / den` in units of 2^exponent, rounded. -/
def inUnits (num den : Nat) (exponent : Int) : Nat :=
  roundDiv (num * powerOf 2 (-exponent)) (den * powerOf 2 exponent)

/-- The exponent at which `num / den` has 53 binary digits before the point, as far as there is
one: no less than the least. -/
def exponentOf (num den : Nat) : Int :=
  let e : Int := (num.log2 : Int) - (den.log2 : Int) - 52
  let wide := num * powerOf 2 (-e) / (den * powerOf 2 e)
  max minExponent (if wide < leastWide then e - 1 else e)

/-- The double nearest to `num / den`, without its sign, or nothing when it would be infinite. -/
def ofRatio? (negative : Bool) (num den : Nat) : Option Double :=
  if num = 0 then some ⟨negative, 0, minExponent⟩
  else
    let e := exponentOf num den
    let m := inUnits num den e
    let (m, e) := if m = 2 * leastWide then (leastWide, e + 1) else (m, e)
    if maxExponent < e then none else some ⟨negative, m, e⟩

def ofNat (n : Nat) : Double := (ofRatio? false n 1).getD default

/-- The numerator of the value without its sign, over `den`. -/
def num (x : Double) : Nat := x.significand * powerOf 2 x.exponent

/-- The denominator of the value. -/
def den (x : Double) : Nat := powerOf 2 (-x.exponent)

/-- The product of two values without sign. -/
def mul? (x y : Double) : Option Double := ofRatio? false (x.num * y.num) (x.den * y.den)

/-- The quotient of two values without sign; the divisor is not zero. -/
def div? (x y : Double) : Option Double := ofRatio? false (x.num * y.den) (x.den * y.num)

/-- Zero has two signs and is one number. -/
def eq (x y : Double) : Bool :=
  x = y || (x.significand = 0 && y.significand = 0)

end Double
end Tsconfig.Json
