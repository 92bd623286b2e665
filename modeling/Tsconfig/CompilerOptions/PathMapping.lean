import Tsconfig.CompilerOptions.Basic
import Tsconfig.Text.Blank

/-! The `paths` option: patterns for specifiers, and the files to look for instead. -/
namespace Tsconfig
open Text Json

/-- A pattern for specifiers: a text, or what stands before and after one star. -/
inductive PathKey
  | exact (specifier : String)
  | wildcard (before after : String)
  deriving DecidableEq

namespace PathKey

/-- A key as it is written, less the white space around it. More than one star makes no key. -/
def parse? (key : String) : Option PathKey :=
  let key := Path.slashedChars (trim key.toList)
  match cutAt? ['*'] key with
  | none => some (exact (String.ofList key))
  | some (before, after) =>
    if '*' ∈ after then none else some (wildcard (String.ofList before) (String.ofList after))

/-- What the star stands for in a specifier that the key matches; nothing for a key without star. -/
def capture? : PathKey → String → Option String
  | exact key, specifier => if key = specifier then some "" else none
  | wildcard before after, specifier =>
    ((stripStart? before.toList specifier.toList).bind (stripEnd? after.toList)).map String.ofList

/-- Whether a key comes before or beside another: exact keys first, then by the bytes in front of
the star, most first. -/
def le : PathKey → PathKey → Bool
  | exact _, _ => true
  | wildcard _ _, exact _ => false
  | wildcard before _, wildcard before' _ => before'.utf8ByteSize ≤ before.utf8ByteSize

end PathKey

/-- A key with the absolute paths it stands for, of which each may hold a star. -/
structure PathMapping where
  key : PathKey
  targets : List String
  deriving DecidableEq

namespace PathMapping

/-- What the star stands for in a specifier. -/
def capture? (mapping : PathMapping) (specifier : String) : Option String :=
  mapping.key.capture? specifier

/-- A target with the first star replaced. -/
def substitute (captured target : String) : String :=
  match cutAt? ['*'] target.toList with
  | none => target
  | some (before, after) => String.ofList (before ++ captured.toList ++ after)

def targetsFor (mapping : PathMapping) (captured : String) : List String :=
  mapping.targets.map (substitute captured)

/-- The mapping of one entry of `paths`. Entries without targets and keys with several stars make
none. -/
def ofEntry? (base : String) (entry : String × Value) : Option PathMapping := do
  let items ← entry.2.arr?
  let targets := (items.filterMap Value.str?).map (Path.resolve base)
  if targets = [] then none
  else return ⟨← PathKey.parse? entry.1, targets⟩

end PathMapping

namespace CompilerOptions

def pathsBase? (options : CompilerOptions) : Option String :=
  (text? options "baseUrl").or (text? options "pathsBasePath")

/-- The mappings of `paths`, most specific first; those alike keep the order of their
declaration. -/
def pathMappings (options : CompilerOptions) : List PathMapping :=
  match options.get? "paths", pathsBase? options with
  | some (.obj entries), some base =>
    (entries.filterMap (PathMapping.ofEntry? base)).mergeSort fun a b => a.key.le b.key
  | _, _ => []

end CompilerOptions
end Tsconfig
