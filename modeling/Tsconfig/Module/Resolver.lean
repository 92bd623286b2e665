import Tsconfig.CompilerOptions.Choice
import Tsconfig.CompilerOptions.PathMapping
import Tsconfig.Config.Package
import Tsconfig.Source.ModuleReference

/-!
Looking for the file that a module reference means: beside the file that refers to it, through the
`paths` option, from `baseUrl`, and in packages. Main statement: a file that is found exists.
-/
namespace Tsconfig
open Text Json Source

/-- What the options say about looking for modules. -/
structure Resolver where
  allowJs : Bool
  resolveJson : Bool
  baseUrl : Option String
  mappings : List PathMapping
  typeRoots : Option (List String)
  /-- Modules are files only: no directories, and of packages just the declarations. -/
  classic : Bool

namespace Resolver

def ofOptions (options : CompilerOptions) : Resolver where
  allowJs := CompilerOptions.allowsJs options
  resolveJson := CompilerOptions.flag options "resolveJsonModule"
  baseUrl := CompilerOptions.text? options "baseUrl"
  mappings := CompilerOptions.pathMappings options
  typeRoots := ((options.get? "typeRoots").bind Value.arr?).map (·.filterMap Value.str?)
  classic := CompilerOptions.resolutionKind options = .classic

def tsExtensions : List String := [".ts", ".tsx", ".d.ts"]

/-- The extensions that a module may leave out, in the order in which they are tried. -/
def extensions (resolver : Resolver) : List String :=
  tsExtensions ++ if resolver.allowJs then [".js", ".jsx"] else []

/-- The extensions of the sources that a compiled file may stand for. -/
def sourcesOf (extension : String) : List String :=
  match extension with
  | ".mjs" => [".mts", ".d.mts"]
  | ".cjs" => [".cts", ".d.cts"]
  | ".jsx" => [".tsx", ".d.ts"]
  | ".js" => tsExtensions
  | _ => []

def isJs (extension : String) : Bool := extension ∈ [".js", ".jsx", ".mjs", ".cjs"]

def isTs (extension : String) : Bool :=
  extension ∈ [".ts", ".tsx", ".d.ts", ".mts", ".cts", ".d.mts", ".d.cts", ".vue"]

/-- Whether a file of this extension can be a module under its full name. -/
def isModule (resolver : Resolver) (extension : String) : Bool :=
  isTs extension || (isJs extension && resolver.allowJs)
    || (extension = ".json" && resolver.resolveJson)

/-- The files that a path may stand for: the sources of a compiled file, the file itself, and the
path with an extension added. -/
def candidates (resolver : Resolver) (path : String) : List String :=
  let extension := Path.extension path
  (sourcesOf extension).map (Path.dropExtension path ++ ·)
    ++ (if resolver.isModule extension then [path] else [])
    ++ resolver.extensions.map (path ++ ·)

def file? (resolver : Resolver) (host : Host) (path : String) : Option String :=
  (resolver.candidates path).find? host.isFile

def fileOrIndex? (resolver : Resolver) (host : Host) (path : String) : Option String :=
  (resolver.file? host path).or (resolver.file? host (Path.join path "index"))

/-- What a path alone can mean. -/
def load? (resolver : Resolver) (host : Host) (path : String) : Option String :=
  if resolver.classic then resolver.file? host path else resolver.fileOrIndex? host path

def entryFields (resolver : Resolver) : List String :=
  ["types", "typings"] ++ if resolver.allowJs then ["main"] else []

def manifestModule? (resolver : Resolver) (host : Host) (package : String) : Option String := do
  let manifest ← (parse (← host.read (Path.join package "package.json")).toList).toOption
  resolver.entryFields.findSome? fun field => do
    resolver.fileOrIndex? host (Path.join package (← (← manifest.field? field).str?))

/-- The module in the folder of a package: a path inside it, or what its manifest names, or its
index. -/
def package? (resolver : Resolver) (host : Host) (package : String) (subpath : Option String) :
    Option String :=
  match subpath with
  | some subpath => resolver.fileOrIndex? host (Path.join package subpath)
  | none =>
    (resolver.manifestModule? host package).or (resolver.file? host (Path.join package "index"))

/-- The directories that are climbed from a directory; nothing lies above a relative one. -/
def levels (dir : String) : List String :=
  match Path.ancestors dir with
  | [] => []
  | first :: above => first :: above.filter (· ≠ "")

def typesPackage (package : String) : String :=
  let name := package.toList.dropWhile (· = '@')
  "@types/" ++ String.ofList (name.flatMap fun c => if c = '/' then ['_', '_'] else [c])

def packageAt? (resolver : Resolver) (host : Host) (packages : List String)
    (subpath : Option String) (dir : String) : Option String :=
  let folder := Path.join dir Path.packageFolder
  if host.isDir folder then
    packages.findSome? fun package =>
      let package := Path.join folder package
      if host.isDir package then resolver.package? host package subpath else none
  else none

/-- The module in the package folders of a directory and of those above it: in each the package
itself, unless only declarations count, and then its declarations. -/
def inPackages? (resolver : Resolver) (host : Host) (dir specifier : String) (typesOnly : Bool) :
    Option String :=
  let split := PackageSpecifier.ofText specifier
  let packages := (if typesOnly then [] else [split.package]) ++ [typesPackage split.package]
  (levels dir).findSome? (resolver.packageAt? host packages split.subpath)

/-- The file of that name in a directory or above it. -/
def inAncestors? (resolver : Resolver) (host : Host) (dir specifier : String) : Option String :=
  (levels dir).findSome? fun dir => resolver.file? host (Path.join dir specifier)

/-- The first mapping that matches a specifier, with what its star stands for. -/
def mapping? (resolver : Resolver) (specifier : String) : Option (PathMapping × String) :=
  resolver.mappings.findSome? fun mapping =>
    (mapping.capture? specifier).map fun captured => (mapping, captured)

/-- The module that the first matching mapping leads to. -/
def mapped? (resolver : Resolver) (host : Host) (specifier : String) : Option String := do
  let (mapping, captured) ← resolver.mapping? specifier
  (mapping.targetsFor captured).findSome? (resolver.load? host)

def isRelative (specifier : String) : Bool :=
  let chars := specifier.toList
  chars = ['.'] || chars = ['.', '.'] || ['.', '/'].isPrefixOf chars
    || ['.', '.', '/'].isPrefixOf chars

def imported? (resolver : Resolver) (host : Host) (dir specifier : String) : Option String :=
  if isRelative specifier || Path.isAbsolute specifier then
    resolver.load? host (Path.resolve dir specifier)
  else
    (resolver.mapped? host specifier)
      |>.or (resolver.baseUrl.bind fun base => resolver.load? host (Path.resolve base specifier))
      |>.or (if resolver.classic then
          (resolver.inAncestors? host dir specifier).or
            (resolver.inPackages? host dir specifier true)
        else resolver.inPackages? host dir specifier false)

/-- The file that a path directive in a directory means. -/
def path? (host : Host) (dir specifier : String) : Option String :=
  let direct := Path.resolve dir specifier
  (direct :: if Path.extension direct = "" then tsExtensions.map (direct ++ ·) else []).find?
    host.isFile

/-- The declarations that a types directive in a directory means. -/
def types? (resolver : Resolver) (host : Host) (dir name : String) : Option String :=
  match resolver.typeRoots with
  | some roots => roots.findSome? fun root => resolver.package? host (Path.join root name) none
  | none => resolver.inPackages? host dir name false

/-- The file that a reference in a file means. -/
def resolve? (resolver : Resolver) (host : Host) (file : String) (reference : ModuleReference) :
    Option String :=
  let dir := Path.parent file
  match reference.kind with
  | .path => path? host dir reference.specifier
  | .types => resolver.types? host dir reference.specifier
  | .imported => resolver.imported? host dir reference.specifier

section Found
variable {resolver : Resolver} {host : Host} {found : String}

theorem exists_file?_of_fileOrIndex? {path : String}
    (h : resolver.fileOrIndex? host path = some found) :
    ∃ stem, resolver.file? host stem = some found := by
  rcases Option.or_eq_some_iff.1 h with h | ⟨-, h⟩ <;> exact ⟨_, h⟩

theorem exists_file?_of_load? {path : String} (h : resolver.load? host path = some found) :
    ∃ stem, resolver.file? host stem = some found := by
  unfold load? at h
  split at h
  · exact ⟨path, h⟩
  · exact exists_file?_of_fileOrIndex? h

theorem exists_file?_of_manifestModule? {package : String}
    (h : resolver.manifestModule? host package = some found) :
    ∃ stem, resolver.file? host stem = some found := by
  simp only [manifestModule?, Option.bind_eq_bind, Option.bind_eq_some_iff] at h
  obtain ⟨_, _, _, _, h⟩ := h
  obtain ⟨_, _, h⟩ := List.exists_of_findSome?_eq_some h
  simp only [Option.bind_eq_some_iff] at h
  obtain ⟨_, _, _, _, h⟩ := h
  exact exists_file?_of_fileOrIndex? h

theorem exists_file?_of_package? {package : String} {subpath : Option String}
    (h : resolver.package? host package subpath = some found) :
    ∃ stem, resolver.file? host stem = some found := by
  unfold package? at h
  split at h
  · exact exists_file?_of_fileOrIndex? h
  · rcases Option.or_eq_some_iff.1 h with h | ⟨-, h⟩
    · exact exists_file?_of_manifestModule? h
    · exact ⟨_, h⟩

theorem exists_file?_of_inPackages? {dir specifier : String} {typesOnly : Bool}
    (h : resolver.inPackages? host dir specifier typesOnly = some found) :
    ∃ stem, resolver.file? host stem = some found := by
  obtain ⟨dir, -, h⟩ := List.exists_of_findSome?_eq_some h
  unfold packageAt? at h
  dsimp only at h
  split at h
  · obtain ⟨package, -, h⟩ := List.exists_of_findSome?_eq_some h
    split at h
    · exact exists_file?_of_package? h
    · simp at h
  · simp at h

theorem exists_file?_of_mapped? {specifier : String}
    (h : resolver.mapped? host specifier = some found) :
    ∃ stem, resolver.file? host stem = some found := by
  simp only [mapped?, Option.bind_eq_bind, Option.bind_eq_some_iff] at h
  obtain ⟨_, -, h⟩ := h
  obtain ⟨_, -, h⟩ := List.exists_of_findSome?_eq_some h
  exact exists_file?_of_load? h

theorem exists_file?_of_imported? {dir specifier : String}
    (h : resolver.imported? host dir specifier = some found) :
    ∃ stem, resolver.file? host stem = some found := by
  unfold imported? at h
  split at h
  · exact exists_file?_of_load? h
  · rcases Option.or_eq_some_iff.1 h with h | ⟨-, h⟩
    · rcases Option.or_eq_some_iff.1 h with h | ⟨-, h⟩
      · exact exists_file?_of_mapped? h
      · obtain ⟨_, -, h⟩ := Option.bind_eq_some_iff.1 h
        exact exists_file?_of_load? h
    · split at h
      · rcases Option.or_eq_some_iff.1 h with h | ⟨-, h⟩
        · obtain ⟨_, -, h⟩ := List.exists_of_findSome?_eq_some h
          exact ⟨_, h⟩
        · exact exists_file?_of_inPackages? h
      · exact exists_file?_of_inPackages? h

theorem exists_file?_of_types? {dir name : String} (h : resolver.types? host dir name = some found) :
    ∃ stem, resolver.file? host stem = some found := by
  unfold types? at h
  split at h
  · obtain ⟨_, -, h⟩ := List.exists_of_findSome?_eq_some h
    exact exists_file?_of_package? h
  · exact exists_file?_of_inPackages? h

/-- All ways of looking for a module end in the same question, that for the candidates of some path.
Only path directives ask for files themselves. -/
theorem exists_file?_of_resolve? {file : String} {reference : ModuleReference}
    (hkind : reference.kind ≠ .path) (h : resolver.resolve? host file reference = some found) :
    ∃ stem, resolver.file? host stem = some found := by
  unfold resolve? at h
  dsimp only at h
  split at h
  · contradiction
  · exact exists_file?_of_types? h
  · exact exists_file?_of_imported? h

/-- A file that a reference resolves to exists. -/
theorem isFile_of_resolve? {file : String} {reference : ModuleReference}
    (h : resolver.resolve? host file reference = some found) : host.isFile found = true := by
  by_cases hkind : reference.kind = .path
  · simp only [resolve?, hkind] at h
    exact List.find?_some h
  · obtain ⟨stem, h⟩ := exists_file?_of_resolve? hkind h
    exact List.find?_some h

end Found

end Resolver
end Tsconfig
