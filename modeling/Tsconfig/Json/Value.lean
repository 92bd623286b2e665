import Tsconfig.Json.Double
import Tsconfig.OrderedMap

/-! JSON values. Objects keep the order of their fields; numbers are integers of 64 bits or doubles. -/
namespace Tsconfig.Json

/-- A number: an integer that fits 64 bits, signed or unsigned, or a double. -/
inductive Number
  | int (value : Int)
    -- without the instance the bounds would be other terms where a library brings its own powers
    (fits : letI : Pow Int Nat := instPowNat; -2 ^ (63 : Nat) ≤ value ∧ value < 2 ^ (64 : Nat))
  | double (value : Double)
  deriving DecidableEq

/-- Integers equal integers and doubles equal doubles, never one the other. -/
def Number.eq : Number → Number → Bool
  | .int m _, .int n _ => m = n
  | .double x, .double y => x.eq y
  | _, _ => false

inductive Value
  | null
  | bool (value : Bool)
  | num (value : Number)
  | str (value : String)
  | arr (items : List Value)
  | obj (fields : List (String × Value))
  deriving Inhabited

/-- The fields of an object, in order. -/
abbrev Object := List (String × Value)

namespace Value

def isNull : Value → Bool
  | null => true
  | _ => false

def bool? : Value → Option Bool
  | bool b => some b
  | _ => none

def str? : Value → Option String
  | str s => some s
  | _ => none

def arr? : Value → Option (List Value)
  | arr items => some items
  | _ => none

def field? (name : String) : Value → Option Value
  | obj fields => OrderedMap.find? name fields
  | _ => none

mutual

/-- Equality of values. The order of fields does not count. -/
def eq : Value → Value → Bool
  | null, null => true
  | bool a, bool b => a = b
  | num a, num b => a.eq b
  | str a, str b => a = b
  | arr a, arr b => eqItems a b
  | obj a, obj b => a.length = b.length && eqFields a b
  | _, _ => false

def eqItems : List Value → List Value → Bool
  | [], [] => true
  | a :: as, b :: bs => eq a b && eqItems as bs
  | _, _ => false

/-- Whether each field on the left has an equal one on the right. -/
def eqFields : List (String × Value) → List (String × Value) → Bool
  | [], _ => true
  | (name, a) :: as, bs =>
    (match OrderedMap.find? name bs with
      | some b => eq a b
      | none => false) && eqFields as bs

end

end Value
end Tsconfig.Json
