import Tsconfig.Path.Basic

/-! Climbing from a directory towards the root, and the folder of packages at the top. -/
namespace Tsconfig.Path
open Text

/-- A directory and everything above it, nearest first, for as long as the parent is shorter. -/
def ancestors (dir : String) : List String :=
  if (parent dir).length < dir.length then dir :: ancestors (parent dir) else [dir]
termination_by dir.length

theorem ancestors_ne_nil (dir : String) : ancestors dir ≠ [] := by
  rw [ancestors]; split <;> simp

theorem mem_ancestors_self (dir : String) : dir ∈ ancestors dir := by
  rw [ancestors]; split <;> simp

/-- The folder that holds the packages of a directory. -/
def packageFolder : String := "node_modules"

/-- Whether a path is the package folder at the top of the file system, or lies in it. -/
def isTopPackage (path : String) : Bool :=
  let path := slashedChars path.toList
  let drive := match path with
    | c :: ':' :: _ => if c.utf8Size = 1 ∧ c ≠ ':' then [c, ':'] else []
    | _ => []
  let top := drive ++ '/' :: packageFolder.toList
  path = top || (top ++ ['/']).isPrefixOf path

end Tsconfig.Path
