import Tsconfig.CommandLine.Arguments
import Tsconfig.Log.Account
import Tsconfig.Log.Filter

/-! What the command line does for its arguments: what it prints, writes and logs. -/
namespace Tsconfig.CommandLine
open Json

/-- What comes of a run. -/
structure Outcome where
  code : UInt8 := 0
  out : String := ""
  err : String := ""
  /-- The contents of the new file, if one is to be written. -/
  written : Option String := none
  /-- What there is to log. -/
  events : List Log.Event := []

def programName : String := "tsbridge"

def programVersion : String := "0.1.0"

def usage : String :=
  s!"Usage: {programName} [--pretty] <command>

Commands:
  options <config>                          print options, root files and references
  files <config>                            print the files of the program
  groups <config>... [--file <file>]...     print which config each file belongs to
  write-config <json>                       write a config to a new file
"

/-- A line of JSON. -/
def line (pretty : Bool) (value : Value) : String :=
  (if pretty then value.pretty else value.compact) ++ "\n"

def warning (text : String) : String := s!"warning: {text}\n"

/-- A message with all but its first line indented. -/
def indented (message : String) : String :=
  String.ofList (message.toList.flatMap fun c => if c = '\n' then '\n' :: List.replicate 4 ' ' else [c])

/-- A run that fails with an error, after trying something. -/
def failure (attempt cause : String) : Outcome where
  code := 1
  err :=
    let cause := indented cause
    s!"Error: {attempt}\n\nCaused by:\n    {cause}\n"

def missingBaseWarning (config : String) (missing : Bool) : String :=
  if missing then
    warning s!"{config} extends a config that could not be found; defaults were used for it"
  else ""

def strings (items : List String) : Value := .arr (items.map .str)

def referenceValue (reference : ProjectReference) : Value :=
  .obj [("path", .str reference.path), ("prepend", .bool reference.prepend),
    ("circular", .bool reference.circular)]

def configValue (config : ResolvedConfig) : Value :=
  .obj [("options", .obj config.options.entries), ("rootNames", strings config.roots),
    ("projectReferences", .arr (config.references.map referenceValue)),
    ("missingTsConfig", .bool config.missingBase)]

def programValue (id : String) (program : Program) : Value :=
  .obj [("programId", .str id), ("files", strings program.fileNames),
    ("projectReferences", strings (program.references.map (·.path))),
    ("missingTsConfig", .bool program.missingBase)]

def skippedValue (skipped : String × ConfigError) : Value :=
  .obj [("path", .str skipped.1), ("reason", .str skipped.2.message)]

def groupingValue (project : Project) (grouping : Project.Grouping) : Value :=
  .obj [("groups", .obj (grouping.groups.map fun group => (group.1, strings group.2))),
    ("unmatched", strings grouping.unmatched),
    ("skipped", .arr (project.skipped.map skippedValue))]

def runOptions (host : Host) (pretty : Bool) (config : String) : Outcome :=
  match ResolvedConfig.resolve host config with
  | .error error => failure s!"failed to resolve {config}" error.message
  | .ok resolved => {
      out := line pretty (configValue resolved)
      err := missingBaseWarning config resolved.missingBase
      events := Log.configEvents host config }

def runFiles (host : Host) (pretty : Bool) (config : String) : Outcome :=
  match ResolvedConfig.resolve host config with
  | .error error => failure s!"failed to create program for {config}" error.message
  | .ok resolved =>
    let program := Program.build host .lexical resolved
    let missing := program.missingFiles.map fun file => warning s!"cannot read root file {file}"
    { out := line pretty (programValue (({} : Registry).insert program).1 program)
      err := missingBaseWarning config program.missingBase ++ String.join missing
      events := Log.createdEvents host config resolved program }

def runGroups (host : Host) (pretty : Bool) (configs files : List String) : Outcome :=
  match Project.collect host configs with
  | .error error => failure "failed to resolve project configs" error.message
  | .ok project =>
    let skipped := project.skipped.map fun (path, error) =>
      let reason := error.message
      warning s!"skipped {path}: {reason}"
    { out := line pretty (groupingValue project (project.group files))
      err := String.join skipped
      events := Log.projectEvents host configs project }

def runWriteConfig (file : String) (pretty : Bool) (contents : String) : Outcome :=
  match parse contents.toList with
  | .error diagnostic => failure "config contents are not valid JSON" diagnostic.message
  | .ok value => {
      out := line pretty (.obj [("filename", .str file)])
      written := some value.compact
      events := Log.writingEvents file }

/-- Run with arguments. A file that is written gets the name `newFile`. -/
def run (host : Host) (newFile : String) (args : List String) : Outcome :=
  match Request.ofArguments args with
  | .error error =>
    let message := error.message
    { code := 2, err := s!"error: {message}\n\n{usage}" }
  | .ok .help => { out := usage }
  | .ok .version => { out := s!"{programName} {programVersion}\n" }
  | .ok (.run pretty command) =>
    match command with
    | .options config => runOptions host pretty config
    | .files config => runFiles host pretty config
    | .groups configs files => runGroups host pretty configs files
    | .writeConfig contents => runWriteConfig newFile pretty contents

/-- The lines logged about a run under a filter: directives that are none, then what passes. -/
def logLines (filter : Log.Filter) (format : Log.Format) (outcome : Outcome) : List String :=
  filter.ignored.map Log.Filter.ignoredLine ++
    (outcome.events.filter filter.passes).map (·.line format)

/-- The settings for the log. -/
structure LogSettings where
  /-- The filter for this program. -/
  own : Option String := none
  /-- The filter for all programs. -/
  general : Option String := none
  format : Option String := none

/-- The exit code when a filter divides a character. -/
def brokenFilterCode : UInt8 := 101

/-- A run, and the lines that are logged about it. The filter of this program comes first; without any
there is no log. Nothing is done if the filter divides a character. -/
def runLogged (settings : LogSettings) (host : Host) (newFile : String) (args : List String) :
    Outcome × List String :=
  match settings.own.or settings.general with
  | none => (run host newFile args, [])
  | some text =>
    match Log.Filter.parse? text with
    | none =>
      ({ code := brokenFilterCode, err := "the filter \x60" ++ text ++ "\x60 divides a character\n" }, [])
    | some filter =>
      let outcome := run host newFile args
      (outcome, logLines filter (.parse (settings.format.getD "")) outcome)

end Tsconfig.CommandLine
