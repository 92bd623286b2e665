import Tsconfig.CompilerOptions.Convert
import Tsconfig.Json.Commented

/-! What can be wrong with a config, and the messages about it. -/
namespace Tsconfig
open Json

/-- The faults of one config file, apart from its name. -/
inductive ConfigFault
  | unreadable
  | malformed (diagnostic : Diagnostic)
  | notObject
  | extendsNoText
  /-- The config extends itself by way of these files; the first is also the last. -/
  | circular (files : List String)
  | option (name : String) (fault : OptionFault)
  | noList (field : String)
  | referenceWithoutPath
  /-- An include pattern that ends in `**`. -/
  | openEnd (pattern : String)
  | noFiles

/-- A fault of the config that goes by `config`. -/
structure ConfigError where
  config : String
  fault : ConfigFault

/-- Faults by what has to be mended: the text, the setting of one name, or the list of files. -/
inductive FaultKind
  | text
  | setting (name : String)
  | files
  deriving DecidableEq

namespace ConfigFault

def kind : ConfigFault → FaultKind
  | unreadable | malformed _ | notObject => .text
  | extendsNoText | circular _ => .setting "extends"
  | option name _ => .setting name
  | noList field => .setting field
  | referenceWithoutPath => .setting "references"
  | openEnd _ => .setting "include"
  | noFiles => .files

def message (config : String) : ConfigFault → String
  | unreadable => s!"Cannot read file '{config}'."
  | malformed diagnostic => s!"Failed to parse tsconfig {config}: {diagnostic.message}"
  | notObject => s!"Failed to parse tsconfig {config}: the root value must be an object"
  | extendsNoText => "Compiler option 'extends' requires a value of type string."
  | circular files =>
    "Circularity detected while resolving configuration: " ++ " -> ".intercalate files
  | option name fault => fault.message name
  | noList field => s!"Compiler option '{field}' requires a value of type Array."
  | referenceWithoutPath => "Reference entries require a 'path' of type string."
  | openEnd pattern =>
    s!"File specification cannot end in a recursive directory wildcard ('**'): '{pattern}'."
  | noFiles => s!"The 'files' list in config file '{config}' is empty."

end ConfigFault

namespace ConfigError

def kind (error : ConfigError) : FaultKind := error.fault.kind

def message (error : ConfigError) : String := error.fault.message error.config

end ConfigError
end Tsconfig
