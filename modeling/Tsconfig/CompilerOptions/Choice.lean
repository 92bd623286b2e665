import Tsconfig.CompilerOptions.Basic
import Tsconfig.Text.Blank

/-!
Options with a fixed choice of values: which names are accepted, and which one is canonical. Names
are compared without the white space around them and without regard to ASCII case.
-/
namespace Tsconfig
open Text

def choose? {α : Type} (choices : List (String × α)) (value : String) : Option α :=
  OrderedMap.find? (String.ofList (lower (trim value.toList))) choices

/-- Language versions a program is compiled for, oldest first. -/
inductive ScriptTarget
  | es3 | es5 | es2015 | es2016 | es2017 | es2018 | es2019 | es2020 | es2021 | es2022 | es2023
  | es2024 | esNext
  deriving DecidableEq, Repr

namespace ScriptTarget

def name : ScriptTarget → String
  | es3 => "es3"
  | es5 => "es5"
  | es2015 => "es2015"
  | es2016 => "es2016"
  | es2017 => "es2017"
  | es2018 => "es2018"
  | es2019 => "es2019"
  | es2020 => "es2020"
  | es2021 => "es2021"
  | es2022 => "es2022"
  | es2023 => "es2023"
  | es2024 => "es2024"
  | esNext => "esnext"

def choices : List (String × ScriptTarget) :=
  [("es3", es3), ("es5", es5), ("es6", es2015), ("es2015", es2015), ("es2016", es2016),
   ("es2017", es2017), ("es2018", es2018), ("es2019", es2019), ("es2020", es2020),
   ("es2021", es2021), ("es2022", es2022), ("es2023", es2023), ("es2024", es2024),
   ("esnext", esNext)]

def parse? (value : String) : Option ScriptTarget := choose? choices value

def atLeast (target other : ScriptTarget) : Bool := other.ctorIdx ≤ target.ctorIdx

end ScriptTarget

/-- Module systems. -/
inductive ModuleKind
  | none | commonJs | amd | umd | system | es2015 | es2020 | es2022 | esNext | node16 | node18
  | nodeNext | preserve
  deriving DecidableEq, Repr

namespace ModuleKind

def name : ModuleKind → String
  | none => "none"
  | commonJs => "commonjs"
  | amd => "amd"
  | umd => "umd"
  | system => "system"
  | es2015 => "es2015"
  | es2020 => "es2020"
  | es2022 => "es2022"
  | esNext => "esnext"
  | node16 => "node16"
  | node18 => "node18"
  | nodeNext => "nodenext"
  | preserve => "preserve"

def choices : List (String × ModuleKind) :=
  [("none", none), ("commonjs", commonJs), ("amd", amd), ("umd", umd), ("system", system),
   ("es6", es2015), ("es2015", es2015), ("es2020", es2020), ("es2022", es2022),
   ("esnext", esNext), ("node16", node16), ("node18", node18), ("nodenext", nodeNext),
   ("preserve", preserve)]

def parse? (value : String) : Option ModuleKind := choose? choices value

end ModuleKind

/-- Ways of looking for modules. -/
inductive ResolutionKind
  | classic | node10 | node16 | nodeNext | bundler
  deriving DecidableEq, Repr

namespace ResolutionKind

def name : ResolutionKind → String
  | classic => "classic"
  | node10 => "node10"
  | node16 => "node16"
  | nodeNext => "nodenext"
  | bundler => "bundler"

def choices : List (String × ResolutionKind) :=
  [("classic", classic), ("node", node10), ("node10", node10), ("node16", node16),
   ("nodenext", nodeNext), ("bundler", bundler)]

def parse? (value : String) : Option ResolutionKind := choose? choices value

def ofModuleKind : Option ModuleKind → ResolutionKind
  | some .node16 => node16
  | some .nodeNext => nodeNext
  | some .preserve => bundler
  | some .none | some .amd | some .umd | some .system => classic
  | _ => node10

end ResolutionKind

namespace CompilerOptions

def target? (options : CompilerOptions) : Option ScriptTarget :=
  (text? options "target").bind ScriptTarget.parse?

def module? (options : CompilerOptions) : Option ModuleKind :=
  (text? options "module").bind ModuleKind.parse?

def moduleResolution? (options : CompilerOptions) : Option ResolutionKind :=
  (text? options "moduleResolution").bind ResolutionKind.parse?

/-- The way of looking for modules in effect: the declared one, else the one that goes with the
module system. -/
def resolutionKind (options : CompilerOptions) : ResolutionKind :=
  (moduleResolution? options).getD (.ofModuleKind (module? options))

end CompilerOptions
end Tsconfig
