import Tsconfig.Config.File
import Tsconfig.Config.Package

/-!
The configs that a config extends, as a tree, and the layer that the tree adds up to. The tree is
read first, with faults as leaves; adding it up goes through it depth first, bases before the config
that extends them, so that later layers lie on top and the first fault on the way is the one that
counts.
-/
namespace Tsconfig
open Json

/-- A config with the configs it extends, in order. -/
inductive ExtendsTree
  /-- A config that could not be found. -/
  | missing
  /-- A config that cannot be read as one. -/
  | faulty (error : ConfigError)
  | config (file : ConfigFile) (bases : List ExtendsTree)

namespace ExtendsTree

/-- Whether a specifier is a path and not the name of a package. -/
def isPathLike (specifier : String) : Bool :=
  let slashed := Path.slashedChars specifier.toList
  Path.isAbsoluteChars slashed || ['.', '/'].isPrefixOf slashed
    || ['.', '.', '/'].isPrefixOf slashed || slashed = ['.'] || slashed = ['.', '.']

/-- The config at a path, or at the path with the extension of configs. -/
def lookupPath (host : Host) (path : String) : Lookup :=
  (Lookup.file host path).orElse fun _ =>
    if Path.extension path = ".json" then .nothing else .file host (path ++ ".json")

/-- The config that is meant by a specifier in a directory. -/
def lookup (host : Host) (dir specifier : String) : Lookup :=
  if isPathLike specifier then lookupPath host (Path.resolve dir specifier)
  else Package.lookupConfig host dir (Path.slashed specifier)

/-- The config file at a path and the specifiers of its bases, or the fault that is in the way. -/
def readConfig (host : Host) (path name : String) :
    Except ConfigFault (ConfigFile × List String) :=
  match host.read path with
  | none => .error .unreadable
  | some text =>
    match Commented.parseObject text.toList with
    | .error (.malformed diagnostic) => .error (.malformed diagnostic)
    | .error .notObject => .error .notObject
    | .ok fields => do
      let file : ConfigFile := ⟨path, name, fields⟩
      return (file, ← file.bases)

/-- The way from a file on the stack, innermost first, back to itself. -/
def cycle (stack : List String) (path : String) : List String :=
  path :: ((stack.takeWhile (· ≠ path)).reverse ++ [path])

theorem isSome_read_of_readConfig {host : Host} {path name : String}
    {read : ConfigFile × List String} (h : readConfig host path name = .ok read) :
    (host.read path).isSome := by
  unfold readConfig at h
  split at h
  · simp at h
  · simp [*]

/-- The tree of the config at `path`, which goes by `name` and is extended by the configs on the
stack. -/
def build (host : Host) (stack : List String) (path name : String) : ExtendsTree :=
  if _hs : path ∈ stack then .faulty ⟨name, .circular (cycle stack path)⟩
  else match _h : readConfig host path name with
    | .error fault => .faulty ⟨name, fault⟩
    | .ok (file, specifiers) =>
      .config file (specifiers.map fun specifier =>
        match (lookup host file.dir specifier).found with
        | none => .missing
        | some base => build host (path :: stack) base base)
termination_by countUnseen host.spellings stack
decreasing_by
  exact countUnseen_cons_lt (Host.mem_spellings_of_read (isSome_read_of_readConfig _h)) _hs

mutual

/-- The layers of the tree laid over each other. -/
def layer : ExtendsTree → Except ConfigError Layer
  | missing => .ok {}
  | faulty error => .error error
  | config file bases => do
    let below ← layerOn {} bases
    match file.layer with
    | .error fault => .error ⟨file.name, fault⟩
    | .ok own =>
      match file.references with
      | .error fault => .error ⟨file.name, fault⟩
      | .ok _ => return below.overlay own

/-- The layers of several trees, one after the other on top of a layer. -/
def layerOn (below : Layer) : List ExtendsTree → Except ConfigError Layer
  | [] => .ok below
  | tree :: trees => do layerOn (below.overlay (← layer tree)) trees

end

mutual

def hasMissing : ExtendsTree → Bool
  | missing => true
  | faulty _ => false
  | config _ bases => anyMissing bases

def anyMissing : List ExtendsTree → Bool
  | [] => false
  | tree :: trees => hasMissing tree || anyMissing trees

end

mutual

/-- The files that were asked for to find the configs of the tree, in order. -/
def asked (host : Host) : ExtendsTree → List String
  | missing => []
  | faulty _ => []
  | config file bases => askedFor host file.dir (file.bases.toOption.getD []) bases

/-- The files that were asked for along a list of specifiers and the trees they led to. -/
def askedFor (host : Host) (dir : String) : List String → List ExtendsTree → List String
  | specifier :: specifiers, tree :: trees =>
    (lookup host dir specifier).asked ++ tree.asked host ++ askedFor host dir specifiers trees
  | _, _ => []

end

end ExtendsTree
end Tsconfig
