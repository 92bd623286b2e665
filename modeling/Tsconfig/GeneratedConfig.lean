import Tsconfig.Json.Printer

/-! Configs that are written for projects without one. -/
namespace Tsconfig
open Json

/-- The usual contents of a generated config: options, and patterns for the files. -/
structure GeneratedConfig where
  options : Object
  included : List String

namespace GeneratedConfig

def toValue (config : GeneratedConfig) : Value :=
  .obj [("compilerOptions", .obj config.options), ("include", .arr (config.included.map .str))]

def ofParts? : Value → Value → Option GeneratedConfig
  | .obj options, .arr patterns => (patterns.mapM Value.str?).map (⟨options, ·⟩)
  | _, _ => none

/-- The contents that a value stands for: an object with the two fields, or a list of their values.
Other fields are left out. -/
def ofValue? : Value → Option GeneratedConfig
  | .arr [options, included] => ofParts? options included
  | .arr _ => none
  | value => do ofParts? (← value.field? "compilerOptions") (← value.field? "include")

def text (config : GeneratedConfig) : String := config.toValue.compact

/-- The name of a file, told from others by a tag. -/
def fileName (tag : String) : String := s!"tsconfig-{tag}.json"

end GeneratedConfig
end Tsconfig
