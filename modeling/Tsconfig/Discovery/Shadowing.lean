import Tsconfig.Path.Basic

/-! Which extensions are sources, and which of several files of one stem is kept. -/
namespace Tsconfig.Discovery

def tsExtensions : List String := [".ts", ".tsx", ".d.ts", ".mts", ".d.mts", ".cts", ".d.cts"]

def jsExtensions : List String := [".js", ".jsx", ".mjs", ".cjs"]

def componentExtension : String := ".vue"

def supportedExtensions (allowJs : Bool) : List String :=
  tsExtensions ++ (if allowJs then jsExtensions else []) ++ [componentExtension]

/-- Extensions that stand in for each other, best first. -/
def families : List (List String) :=
  [[".ts", ".tsx", ".d.ts", ".js", ".jsx"], [".mts", ".d.mts", ".mjs"],
   [".cts", ".d.cts", ".cjs"]]

/-- The extensions that are better than the given one, within its family. -/
def betterExtensions (extension : String) : List String :=
  match families.find? (extension ∈ ·) with
  | some family => family.takeWhile (· ≠ extension)
  | none => []

/-- Whether a file of the same stem with a better extension is there. -/
def isShadowed (present : List String) (file : String) : Bool :=
  (betterExtensions (Path.extension file)).any fun better =>
    Path.dropExtension file ++ better ∈ present

def dropShadowed (files : List String) : List String :=
  files.filter fun file => !isShadowed files file

end Tsconfig.Discovery
