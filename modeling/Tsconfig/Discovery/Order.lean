import Tsconfig.Path.Basic

/-! The order of discovered files: the files of a directory come before its subdirectories, and
names ascend. -/
namespace Tsconfig.Discovery
open Text

/-- Compares two paths by their segments. At the first difference a last segment comes before one
that is not; else the segments decide. -/
def compareSegments : List (List Char) → List (List Char) → Ordering
  | [], [] => .eq
  | [], _ :: _ => .lt
  | _ :: _, [] => .gt
  | a :: as, b :: bs =>
    if a = b then compareSegments as bs
    else match as.isEmpty, bs.isEmpty with
      | true, false => .lt
      | false, true => .gt
      | _, _ => if a < b then .lt else .gt

def compare (a b : String) : Ordering :=
  compareSegments (splitOn '/' a.toList) (splitOn '/' b.toList)

def le (a b : String) : Bool := compare a b ≠ .gt

end Tsconfig.Discovery
