import Tsconfig.Json.Value
import Tsconfig.Path.Basic

/-! Compiler options: values under the names of options, in the order of their declaration. -/
namespace Tsconfig
open Json

/-- Options by name. Options with a fixed choice of values hold the canonical name of the choice,
options that name files hold absolute paths. -/
abbrev CompilerOptions := OrderedMap Value

namespace CompilerOptions

/-- Whether an option holds true; no other value counts as true. -/
def flag (options : CompilerOptions) (name : String) : Bool :=
  ((options.get? name).bind Value.bool?).getD false

def text? (options : CompilerOptions) (name : String) : Option String :=
  (options.get? name).bind Value.str?

/-- The options on which every config is laid. -/
def base : CompilerOptions := OrderedMap.insert ∅ "noEmit" (.bool true)

/-- The options in effect when no config says anything. -/
def defaults (configPath : String) : CompilerOptions :=
  (base.insert "allowNonTsExtensions" (.bool true)).insert
    "configFilePath" (.str (Path.slashed configPath))

/-- Equality that does not look at the order of the options. -/
def eq (options other : CompilerOptions) : Bool :=
  Value.eq (.obj options.entries) (.obj other.entries)

def allowsJs (options : CompilerOptions) : Bool :=
  flag options "allowJs" || flag options "checkJs"

end CompilerOptions
end Tsconfig
