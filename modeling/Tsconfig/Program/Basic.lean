import Tsconfig.Config.Resolve
import Tsconfig.Module.Resolver
import Tsconfig.Source.Component
import Tsconfig.Source.Kind
import Tsconfig.Walk.BreadthFirst

/-!
Programs: the root files of a config with everything they import, directly or through others.
-/
namespace Tsconfig
open Source

/-- A file of a program. -/
structure SourceFile where
  name : String
  text : String
  kind : Kind
  /-- The language of the script in a component; nothing for other files. -/
  embedded : Option Kind
  /-- The files that the file refers to, each once, in the order of the references. -/
  imports : List String

/-- The root files of a config and what they import. -/
structure Program where
  options : CompilerOptions
  roots : List String
  /-- The roots that can be read, then what is imported, nearest first. -/
  files : List SourceFile
  /-- The references to configs that exist, by the paths of the configs. -/
  references : List ProjectReference
  /-- The roots that cannot be read. -/
  missingFiles : List String
  missingBase : Bool

/-- What finds the references in the text of a file of the given name. -/
abbrev ReferenceFinder := String → String → List ModuleReference

/-- References by the tokens of a text, whatever the name of the file. -/
def ReferenceFinder.lexical : ReferenceFinder := fun _ text => ModuleReference.all text

namespace SourceFile

/-- The text in which references are looked for, and the language of a script in a component. -/
def scanned (kind : Kind) (text : String) : String × Option Kind :=
  if kind = .component then
    let script := Component.extract text
    (script.text, some (.ofLang script.lang))
  else (text, none)

/-- The files that a text refers to. Data files refer to nothing. -/
def importsOf (host : Host) (resolver : Resolver) (finder : ReferenceFinder) (name text : String) :
    List String :=
  let kind := Kind.ofPath name
  if kind = .json then []
  else distinct ((finder name (scanned kind text).1).filterMap (resolver.resolve? host name))

/-- The file of the given name, if it can be read. -/
def load? (host : Host) (resolver : Resolver) (finder : ReferenceFinder) (name : String) :
    Option SourceFile :=
  (host.read name).map fun text => {
    name, text
    kind := Kind.ofPath name
    embedded := (scanned (Kind.ofPath name) text).2
    imports := importsOf host resolver finder name text }

/-- The files that a file leads to, if it could be read. -/
def importsOf? (file : Option SourceFile) : List String := (file.map (·.imports)).getD []

/-- Imports are files. -/
theorem isFile_of_mem_imports {host : Host} {resolver : Resolver} {finder : ReferenceFinder}
    {name path : String} {file : SourceFile} (h : load? host resolver finder name = some file)
    (hp : path ∈ file.imports) : host.isFile path = true := by
  obtain ⟨text, -, rfl⟩ := Option.map_eq_some_iff.1 h
  simp only [importsOf] at hp
  split at hp
  · simp at hp
  · obtain ⟨_, -, h⟩ := List.mem_filterMap.1 (mem_distinct.1 hp)
    exact Resolver.isFile_of_resolve? h

/-- Files with their imports. -/
def web (host : Host) (resolver : Resolver) (finder : ReferenceFinder) :
    Web (Option SourceFile) where
  read := load? host resolver finder
  next := importsOf?
  finite := by
    refine ⟨host.spellings, fun name path h => ?_⟩
    unfold importsOf? at h
    cases hf : load? host resolver finder name with
    | none => simp [hf] at h
    | some file =>
      refine Host.mem_spellings_of_isFile (isFile_of_mem_imports hf ?_)
      simpa [hf] using h

end SourceFile

namespace ProjectReference

/-- The config that a reference means: one in the directory, if it names a directory. -/
def target (host : Host) (path : String) : String :=
  if host.isDir path && !host.isFile path then Path.join path Package.configName else path

end ProjectReference

namespace Program

def fileNames (program : Program) : List String := program.files.map (·.name)

def file? (program : Program) (name : String) : Option SourceFile :=
  program.files.find? (·.name = name)

/-- The references whose configs exist, by the paths of the configs. -/
def existing (host : Host) (references : List ProjectReference) : List ProjectReference :=
  (references.map fun reference =>
    { reference with path := ProjectReference.target host reference.path }).filter
      fun reference => host.isFile reference.path

def build (host : Host) (finder : ReferenceFinder) (config : ResolvedConfig) : Program where
  options := config.options
  roots := config.roots
  files :=
    let web := SourceFile.web host (.ofOptions config.options) finder
    (web.reach config.roots).filterMap Prod.snd
  references := existing host config.references
  missingFiles := (distinct config.roots).filter fun root => (host.read root).isNone
  missingBase := config.missingBase

end Program
end Tsconfig
