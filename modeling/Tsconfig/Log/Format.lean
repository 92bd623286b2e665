import Tsconfig.CompilerOptions.Choice

/-! Layouts of log lines. -/
namespace Tsconfig.Log

/-- How log lines are laid out: flat, as an indented tree, or one object a line. -/
inductive Format
  | text
  | tree
  | json
  deriving DecidableEq, Repr

/-- The layout that a setting names; flat text if it names none. -/
def Format.parse (value : String) : Format :=
  (choose? [("tree", tree), ("json", json)] value).getD text

end Tsconfig.Log
