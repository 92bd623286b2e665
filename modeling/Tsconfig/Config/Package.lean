import Tsconfig.Host.Basic
import Tsconfig.Json.Parser
import Tsconfig.Text.Cut

/-!
Configs that packages provide. A package is looked for in the package folders of a directory and of
the directories above it. Each level is asked for the same few files in the same order.
-/
namespace Tsconfig
open Text Json

/-- A package and a path inside it. -/
structure PackageSpecifier where
  package : String
  subpath : Option String
  deriving DecidableEq

/-- The package takes one segment, or two when the first starts with an at sign. -/
def PackageSpecifier.ofText (specifier : String) : PackageSpecifier :=
  let joined (segments : List (List Char)) := String.ofList (joinWith '/' segments)
  let inside (segments : List (List Char)) :=
    if segments = [] then none else some (joined segments)
  match splitOn '/' (Path.slashedChars specifier.toList) with
  | [] => ⟨"", none⟩
  | first :: rest =>
    if first.head? = some '@' then
      ⟨joined [first, rest.headD []], inside (rest.drop 1)⟩
    else ⟨String.ofList first, inside rest⟩

/-- What a search found, and the files it asked for, in order. -/
structure Lookup where
  found : Option String
  asked : List String
  deriving DecidableEq, Repr

namespace Lookup

def nothing : Lookup := ⟨none, []⟩

def file (host : Host) (path : String) : Lookup :=
  ⟨if host.isFile path then some path else none, [path]⟩

/-- A second search, for when the first finds nothing. -/
def orElse (first : Lookup) (second : Unit → Lookup) : Lookup :=
  match first.found with
  | some _ => first
  | none => ⟨(second ()).found, first.asked ++ (second ()).asked⟩

end Lookup

namespace Package

def manifestName : String := "package.json"

def configName : String := "tsconfig.json"

/-- A path without the steps to its own directory that it starts with. -/
def dropDotSlash : List Char → List Char
  | '.' :: '/' :: rest => dropDotSlash rest
  | path => path

/-- The config a manifest names. -/
def manifestConfig? (host : Host) (manifest : String) : Option String := do
  let value ← (parse (← host.read manifest).toList).toOption
  let target ← (← value.field? "tsconfig").str?
  return String.ofList (dropDotSlash target.toList)

/-- Ask for the manifest of a folder and, if it is to be used, for the config it names. -/
def viaManifest (host : Host) (folder : String) (used : Bool) : Lookup :=
  let manifest := Path.join folder manifestName
  let target? := if host.isFile manifest && used then manifestConfig? host manifest else none
  match target? with
  | some target =>
    let config := Path.join folder target
    ⟨if host.isFile config then some config else none, [manifest, config]⟩
  | none => ⟨none, [manifest]⟩

def withExtension (subpath : String) : String :=
  if Path.extension subpath = ".json" then subpath else subpath ++ ".json"

/-- Ask one folder of a package. The manifest at its top only counts without a subpath. -/
def lookupIn (host : Host) (folder : String) (subpath : Option String) : Lookup :=
  let inside := subpath.getD configName
  let subfolder := Path.join folder inside
  (viaManifest host subfolder true)
    |>.orElse (fun _ => viaManifest host folder subpath.isNone)
    |>.orElse (fun _ => .file host (Path.join folder (withExtension inside)))
    |>.orElse (fun _ => .file host (Path.join subfolder configName))

/-- The list up to and with the first element that satisfies `p`. -/
def throughFirst {α : Type} (p : α → Bool) : List α → List α
  | [] => []
  | a :: rest => if p a then [a] else a :: throughFirst p rest

/-- The directories in whose package folders a package is looked for: from `dir` to the root. -/
def levels (dir : String) : List String :=
  throughFirst (fun d => Path.isRoot d || d = "") (Path.ancestors (Path.slashed dir))

def folderAt (dir package : String) : String :=
  Path.join (Path.join dir Path.packageFolder) package

/-- Ask level by level. Package folders themselves are no levels, and nothing lies above the package
folder at the top. -/
def climb (host : Host) (specifier : PackageSpecifier) : List String → Lookup
  | [] => .nothing
  | dir :: above =>
    if Path.baseName dir = Path.packageFolder then climb host specifier above
    else
      let folder := folderAt dir specifier.package
      (lookupIn host folder specifier.subpath).orElse fun _ =>
        if Path.isTopPackage folder then .nothing else climb host specifier above

/-- The config that a package specifier means in a directory. -/
def lookupConfig (host : Host) (dir specifier : String) : Lookup :=
  climb host (.ofText specifier) (levels dir)

end Package
end Tsconfig
