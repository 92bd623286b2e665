import Tsconfig.Log.Event
import Tsconfig.Project
import Tsconfig.Program.Registry

/-!
What there is to log about work that went well: about resolving a config, building its program, and
following the references of a project.
-/
namespace Tsconfig.Log
open Discovery

/-- A part of the library as a source. -/
def within (part : String) : String := "tsbridge::" ++ part

/-- The name under which an event has its message. -/
def messageField : String := "message"

/-- An event in a part of the library, and the names of what it tells besides its message. -/
def report (level : Level) (part : String) (fields : List String) (message : String) : Event :=
  { level, source := within part, message, fields := messageField :: fields }

def during (span : Span) (events : List Event) : List Event := events.map (·.inside span)

def workOn (config part name : String) : Span :=
  { level := .info, source := within part, name, fields := [("tsconfig", config)] }

/-- The work of resolving a config. -/
def resolving (config : String) : Span := workOn config "config" "create_program_options"

/-- The work of building and keeping the program of a config. -/
def creating (config : String) : Span := workOn config "program" "create_program"

/-- Looking for the config of a package, asking one file after the other. -/
def lookupEvents (host : Host) (dir specifier : String) : List Event :=
  if ExtendsTree.isPathLike specifier then []
  else
    let lookup := ExtendsTree.lookup host dir specifier
    let result := if lookup.found.isSome then
        report .debug "config::fallback" ["specifier", "resolved"] s!"resolved package config {specifier}"
      else
        report .debug "config::fallback" ["specifier", "probes"] s!"no package config {specifier}"
    lookup.asked.map (fun path => report .trace "config::fallback" ["path"] s!"probe {path}") ++ [result]

/-- An extended config, found or not. -/
def baseEvent (specifier : String) : ExtendsTree → Event
  | .missing =>
    report .warn "config::extends" ["config", "extends"] s!"extended config {specifier} not found"
  | _ => report .debug "config::extends" ["config", "base"] s!"loading extended config {specifier}"

mutual

/-- The configs that a tree was built from. -/
def treeEvents (host : Host) : ExtendsTree → List Event
  | .missing => []
  | .faulty _ => []
  | .config file bases => basesEvents host file.dir (file.bases.toOption.getD []) bases

/-- The specifiers in a directory, and the trees they led to. -/
def basesEvents (host : Host) (dir : String) : List String → List ExtendsTree → List Event
  | specifier :: specifiers, tree :: trees =>
    lookupEvents host dir specifier ++ baseEvent specifier tree :: treeEvents host tree ++
      basesEvents host dir specifiers trees
  | _, _ => []

end

/-- What events tell that come by way of plain records. -/
def recordFields : List String :=
  [messageField, "log.target", "log.module_path", "log.file", "log.line"]

/-- Searching for files. Patterns are compiled by a part with a source of its own, which keeps plain
records. -/
def searchEvents (host : Host) (request : Request) : List Event :=
  let compiled (pattern : String) : Event :=
    { level := .debug, source := "globset", message := s!"compiled {pattern}", fields := recordFields }
  let found := (collect host request).map Prod.snd
  (request.included ++ request.excluded).map compiled ++
    found.map (fun file => report .trace "config::discovery" ["file", "include"] s!"matched {file}") ++
    [report .debug "config::discovery" ["config", "count"] "searched for root files"] ++
    if found = [] then
      [report .warn "config" ["config", "include"] "no files match the include patterns"]
    else []

def configEvents (host : Host) (config : String) : List Event :=
  let tree := ResolvedConfig.treeOf host config
  let search := match tree.layer with
    | .ok layer =>
      if layer.isSearching then
        searchEvents host (layer.request (Path.parent (ResolvedConfig.pathOf host config))
          (layer.effectiveOptions config))
      else []
    | .error _ => []
  during (resolving config) (treeEvents host tree ++ search ++
    [report .debug "config" ["config", "roots", "references", "missing_tsconfig"] s!"resolved {config}"])

def referenceEvents (host : Host) (resolver : Resolver) (file : String)
    (reference : Source.ModuleReference) : List Event :=
  let specifier := reference.specifier
  report .trace "program::backend" ["specifier", "containing_file", "resolved"]
      s!"looked for {specifier}" ::
    if (resolver.resolve? host file reference).isNone then
      [report .trace "program::builder" ["file", "specifier"] s!"did not find {specifier}"]
    else []

def fileEvents (host : Host) (resolver : Resolver) (file : SourceFile) : List Event :=
  if file.kind = .json then []
  else
    let scanned := (SourceFile.scanned file.kind file.text).1
    (Source.ModuleReference.all scanned).flatMap (referenceEvents host resolver file.name)

def programEvents (host : Host) (config : ResolvedConfig) (program : Program) : List Event :=
  let missing (root : String) : Event := report .warn "program::builder" ["file"] s!"cannot read {root}"
  let gone := config.references.length - program.references.length
  program.missingFiles.map missing ++
    program.files.flatMap (fileEvents host (.ofOptions program.options)) ++
    List.replicate gone (report .warn "program::builder" ["reference"] "a referenced config is missing") ++
    [report .debug "program::builder" ["roots", "files", "missing", "references"] "built program"]

/-- Building the program of a config, keeping it, and giving it back. -/
def createdEvents (host : Host) (name : String) (config : ResolvedConfig) (program : Program) :
    List Event :=
  during (creating name) (configEvents host name ++ programEvents host config program ++
      [report .info "program::registry" ["program_id", "files"] "registered program"]) ++
    [report .info "program::registry" ["program_id"] "deleted program"]

def projectEvents (host : Host) (requested : List String) (project : Project) : List Event :=
  let reached := project.configs.map Prod.fst ++ project.skipped.map Prod.fst
  let followed := reached.filter (· ∉ Project.requested host requested)
  (project.configs.map Prod.fst).flatMap (configEvents host) ++
    followed.map (fun path =>
      report .debug "project" ["config", "reference"] s!"following reference to {path}") ++
    (project.skipped.map Prod.fst).map fun path =>
      report .warn "project" ["config", "error"] s!"skipping {path}"

def writingEvents (file : String) : List Event :=
  [report .debug "config::writer" ["filename", "bytes"] s!"wrote {file}"]

end Tsconfig.Log
