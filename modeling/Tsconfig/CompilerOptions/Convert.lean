import Tsconfig.CompilerOptions.Kind
import Tsconfig.Json.Printer

/-!
Checking the options that a config declares, and bringing their values into canonical form: booleans
written as texts become booleans, paths absolute, choices and libraries canonical names.
-/
namespace Tsconfig
open Text Json

/-- What a value should have been. -/
inductive Expected
  | boolean | text | number | list | texts | object
  deriving DecidableEq, Repr

def Expected.name : Expected → String
  | boolean => "boolean"
  | text => "string"
  | number => "number"
  | list => "list"
  | texts => "list of strings"
  | object => "object"

/-- What can be wrong with a declared option. -/
inductive OptionFault
  | notObject
  | unknown
  | wrongType (expected : Expected) (got : Value)
  | noChoice (written : String) (choices : List String)
  | noLibrary (written : String)
  | substitutionsNoList (pattern : String)
  | substitutionNoText (pattern : String)

def OptionFault.message (name : String) : OptionFault → String
  | notObject => s!"Compiler option '{name}' requires a value of type object."
  | unknown => s!"Unknown compiler option '{name}'."
  | wrongType expected got =>
    s!"Compiler option '{name}' requires a value of type {expected.name}; got {got.compact}."
  | noChoice written choices =>
    let quoted := choices.map fun choice => s!"'{choice}'"
    s!"Invalid value '{written}' for compiler option '{name}'. Argument for '--{name}' option must be: "
      ++ ", ".intercalate quoted ++ "."
  | noLibrary written => s!"Invalid value '{written}' for compiler option 'lib'."
  | substitutionsNoList pattern => s!"Substitutions for pattern '{pattern}' should be an array."
  | substitutionNoText pattern => s!"Substitution for pattern '{pattern}' must be a string."

namespace CompilerOptions

/-- Whether a lower-case name is one of a library: it starts with a known name, or with `es` and a
year, up to the first dot. -/
def isLibrary (name : List Char) : Bool :=
  let head := name.takeWhile (· ≠ '.')
  ["dom", "webworker", "scripthost", "decorators", "esnext"].any (fun known => known.toList = head)
    || match stripStart? ['e', 's'] head with
      | some year => year ≠ [] && year.all Char.isDigit
      | none => false

def convertBoolean (value : Value) : Except OptionFault Value :=
  match value with
  | .bool b => .ok (.bool b)
  | .str s =>
    let word := lower (trim s.toList)
    if word = ['t', 'r', 'u', 'e'] then .ok (.bool true)
    else if word = ['f', 'a', 'l', 's', 'e'] then .ok (.bool false)
    else .error (.wrongType .boolean value)
  | _ => .error (.wrongType .boolean value)

def convertTexts (value : Value) (convert : String → Except OptionFault String) :
    Except OptionFault Value :=
  match value with
  | .arr items => do
    let texts ← items.mapM fun item =>
      match item with
      | .str s => return .str (← convert s)
      | _ => .error (.wrongType .texts value)
    return .arr texts
  | _ => .error (.wrongType .list value)

def convertLibrary (written : String) : Except OptionFault String :=
  let name := lower (trim written.toList)
  if isLibrary name then .ok (String.ofList name) else .error (.noLibrary written)

/-- The targets of one pattern, which are texts. -/
def checkSubstitutions (entry : String × Value) : Except OptionFault Unit :=
  match entry.2 with
  | .arr targets =>
    if targets.all fun target => target.str?.isSome then .ok ()
    else .error (.substitutionNoText entry.1)
  | _ => .error (.substitutionsNoList entry.1)

/-- The canonical form of a value that is not null, for an option declared in `dir`. -/
def convertValue (dir : String) (kind : OptionKind) (value : Value) : Except OptionFault Value :=
  match kind with
  | .boolean => convertBoolean value
  | .text =>
    match value with
    | .str s => .ok (.str s)
    | _ => .error (.wrongType .text value)
  | .number =>
    match value with
    | .num n => .ok (.num n)
    | _ => .error (.wrongType .number value)
  | .path =>
    match value with
    | .str s => .ok (.str (Path.resolve dir s))
    | _ => .error (.wrongType .text value)
  | .texts => convertTexts value .ok
  | .paths => convertTexts value fun s => .ok (Path.resolve dir s)
  | .choice choices =>
    match value with
    | .str s =>
      match choose? choices s with
      | some canonical => .ok (.str canonical)
      | none => .error (.noChoice s (choices.map Prod.fst))
    | _ => .error (.wrongType .text value)
  | .libraries => convertTexts value convertLibrary
  | .pathMap =>
    match value with
    | .obj entries => do
      entries.forM checkSubstitutions
      return .obj entries
    | _ => .error (.wrongType .object value)
  | .anything => .ok value

/-- The canonical form of one declared option. Null stays: it takes back what another config set. -/
def convertOption (dir : String) (name : String) (value : Value) : Except OptionFault Value :=
  match OptionKind.ofName? name with
  | none => .error .unknown
  | some kind => if value.isNull then .ok .null else convertValue dir kind value

/-- Where `paths` is declared, its directory goes with it, unless one is declared too. -/
def anchorPaths (dir : String) (options : CompilerOptions) : CompilerOptions :=
  if options.contains "paths" ∧ ¬ options.contains "pathsBasePath" then
    options.insert "pathsBasePath" (.str dir)
  else options

/-- The declared options in canonical form, or the first fault with the option it is about. -/
def convert (dir : String) (declared : Value) : Except (String × OptionFault) CompilerOptions :=
  match declared with
  | .obj fields => do
    let converted ← fields.mapM fun (name, value) =>
      match convertOption dir name value with
      | .ok value => Except.ok (name, value)
      | .error fault => .error (name, fault)
    return anchorPaths dir (OrderedMap.ofList converted)
  | _ => .error ("compilerOptions", .notObject)

end CompilerOptions
end Tsconfig
