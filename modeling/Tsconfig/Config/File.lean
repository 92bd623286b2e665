import Tsconfig.Config.Fault

/-! One config file: the fields it holds, checked and read as declarations. -/
namespace Tsconfig
open Json

/-- Another project that a config refers to, by its config file or its directory. -/
structure ProjectReference where
  path : String
  prepend : Bool
  circular : Bool
  deriving DecidableEq, Repr

/-- What configs declare besides references. Files are absolute paths, the rest absolute patterns;
a field that nobody declares is absent. -/
structure Layer where
  options : CompilerOptions := ∅
  files : Option (List String) := none
  included : Option (List String) := none
  excluded : Option (List String) := none

/-- `upper` on top of `lower`: options are laid over each other, and of the rest each field is taken
from above if it is declared there. -/
def Layer.overlay (lower upper : Layer) : Layer where
  options := lower.options.overlay upper.options
  files := upper.files.or lower.files
  included := upper.included.or lower.included
  excluded := upper.excluded.or lower.excluded

/-- A config file that was read. -/
structure ConfigFile where
  path : String
  /-- The name it goes by in messages. -/
  name : String
  fields : Object

namespace ConfigFile

def field? (file : ConfigFile) (name : String) : Option Value :=
  OrderedMap.find? name file.fields

/-- What relative paths in the file start from. -/
def dir (file : ConfigFile) : String := Path.parent file.path

def texts? (items : List Value) : Option (List String) := items.mapM Value.str?

/-- The configs the file extends, as it names them. -/
def bases (file : ConfigFile) : Except ConfigFault (List String) :=
  match file.field? "extends" with
  | none | some .null => .ok []
  | some (.str specifier) => .ok [specifier]
  | some (.arr items) =>
    match texts? items with
    | some specifiers => .ok specifiers
    | none => .error .extendsNoText
  | some _ => .error .extendsNoText

def options (file : ConfigFile) : Except ConfigFault CompilerOptions :=
  match file.field? "compilerOptions" with
  | none | some .null => .ok ∅
  | some declared =>
    match CompilerOptions.convert file.dir declared with
    | .ok options => .ok options
    | .error (name, fault) => .error (.option name fault)

/-- A field that lists paths or patterns, made absolute. -/
def pathList (file : ConfigFile) (name : String) : Except ConfigFault (Option (List String)) :=
  match file.field? name with
  | none | some .null => .ok none
  | some (.arr items) =>
    match texts? items with
    | some paths => .ok (some (paths.map (Path.resolve file.dir)))
    | none => .error (.noList name)
  | some _ => .error (.noList name)

def entryFlag (entry : Object) (name : String) : Bool :=
  ((OrderedMap.find? name entry).bind Value.bool?).getD false

/-- One entry of the references of a config in `dir`. -/
def referenceOf (dir : String) (item : Value) : Except ConfigFault ProjectReference :=
  match item with
  | .obj entry =>
    match (OrderedMap.find? "path" entry).bind Value.str? with
    | some path => .ok
        ⟨Path.resolve dir path, entryFlag entry "prepend", entryFlag entry "circular"⟩
    | none => .error .referenceWithoutPath
  | _ => .error (.noList "references")

def references (file : ConfigFile) : Except ConfigFault (List ProjectReference) :=
  match file.field? "references" with
  | none | some .null => .ok []
  | some (.arr items) => items.mapM (referenceOf file.dir)
  | some _ => .error (.noList "references")

/-- What the file declares itself, apart from its references. -/
def layer (file : ConfigFile) : Except ConfigFault Layer := do
  return {
    options := ← file.options
    files := ← file.pathList "files"
    included := ← file.pathList "include"
    excluded := ← file.pathList "exclude" }

/-- Whether the file declares that it has no files. -/
def declaresNoFiles (file : ConfigFile) : Bool :=
  match file.field? "files" with
  | some (.arr []) => true
  | _ => false

end ConfigFile
end Tsconfig
