import Tsconfig.CommandLine.Run
import Tsconfig.GeneratedConfig
import Tsconfig.Host.Disk

/-!
The program. It reads the directories it is about into memory, runs, prints, and writes the file that
a run asks for.
-/
namespace Tsconfig.Main

/-- What tells that a directory is part of a workspace. -/
def workspaceMarks : List String := [Path.packageFolder, Package.manifestName, Package.configName]

def attempt {α : Type} (action : IO α) : IO (Option α) := try some <$> action catch _ => return none

def item (dir name : String) : IO.FS.DirEntry := ⟨dir, name⟩

def holdsMark (dir : String) : IO Bool :=
  workspaceMarks.anyM fun name => (item dir name).path.pathExists

/-- The highest directory above that is part of a workspace, or the directory itself. -/
def workspaceOf (dir : String) : IO String := do
  return ((← (Path.ancestors dir).filterM holdsMark).getLast?).getD dir

/-- What an item is, if it is there. Links are not followed. -/
def kindOf (item : IO.FS.DirEntry) : IO (Option IO.FS.FileType) := do
  return (← attempt item.path.symlinkMetadata).map (·.type)

/-- An entry with everything below it. The targets of links are noted. -/
partial def readEntry (item : IO.FS.DirEntry) : StateT (List String) IO (Option Disk.Entry) := do
  match ← kindOf item with
  | some .dir =>
    let items := ((← attempt item.path.readDir).getD #[]).toList
    let entries ← items.filterMapM fun inner => do
      return (← readEntry inner).map (inner.fileName, ·)
    return some (.dir entries)
  | some .file =>
    return some (.file ((← attempt (IO.FS.readBinFile item.path)).bind String.fromUTF8?))
  | some .symlink =>
    let target := (← IO.FS.realPath item.path).toString
    modify (target :: ·)
    return some (.link target)
  | _ => return none

/-- Read one path after the other, and what links lead to. -/
partial def readPaths (done : List String) (disk : Disk) : List String → IO Disk
  | [] => return disk
  | path :: pending => do
    if done.any (Discovery.isWithin · path) then readPaths done disk pending
    else
      let (entry, targets) ← (readEntry (item (Path.parent path) (Path.baseName path))).run []
      let disk := match entry with
        | some entry => disk.insert path entry
        | none => disk
      readPaths (path :: done) disk (pending ++ targets)

/-- The disk as far as a run with some arguments is concerned: the workspaces of the current directory
and of the configs that are named. -/
def readDisk (args : List String) : IO Disk := do
  let cwd := (← IO.currentDir).toString
  let named := (args.filter fun arg => CommandLine.Argument.ofText arg = .operand).map fun arg =>
    Path.parent (Path.resolve cwd arg)
  let here := (Disk.segments cwd).filter (· ≠ "")
  readPaths [] ⟨.dir [], here⟩ (← (cwd :: named).mapM workspaceOf)

def newFileName : IO String := do
  let dir := (← IO.getEnv "TMPDIR").getD "/tmp"
  let number ← IO.rand 0 999999999
  return Disk.childPath dir (GeneratedConfig.fileName (toString number))

/-- Write a new file; a file of that name must not be there. -/
def writeNew (name contents : String) : IO Unit := do
  let file ← IO.FS.Handle.mk name .writeNew
  file.putStr contents

def run (args : List String) : IO UInt32 := do
  let following := ((← IO.getEnv "TSBRIDGE_FOLLOW_SYMLINKS").map Disk.followsLinks).getD false
  let settings : CommandLine.LogSettings := {
    own := ← IO.getEnv "TSBRIDGE_LOG"
    general := ← IO.getEnv "RUST_LOG"
    format := ← IO.getEnv "TSBRIDGE_LOG_FORMAT" }
  let newFile ← newFileName
  let (outcome, logged) :=
    CommandLine.runLogged settings ((← readDisk args).host following) newFile args
  outcome.written.forM (writeNew newFile)
  logged.forM IO.eprintln
  IO.eprint outcome.err
  IO.print outcome.out
  return outcome.code.toUInt32

end Tsconfig.Main

def main (args : List String) : IO UInt32 := Tsconfig.Main.run args
