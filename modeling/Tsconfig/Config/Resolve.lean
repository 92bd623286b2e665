import Tsconfig.Config.Extends
import Tsconfig.Discovery.Search

/-! From the name of a config to its options, its root files and its references. -/
namespace Tsconfig
open Json

/-- What a config comes to with everything it extends. -/
structure ResolvedConfig where
  options : CompilerOptions
  /-- The root files, each once: those listed, then those found. -/
  roots : List String
  references : List ProjectReference
  /-- Whether some extended config could not be found. -/
  missingBase : Bool

namespace ResolvedConfig

def referencePaths (config : ResolvedConfig) : List String := config.references.map (·.path)

end ResolvedConfig

namespace ExtendsTree

/-- The references of the config at the top; those of extended configs do not count. -/
def references : ExtendsTree → List ProjectReference
  | config file _ => file.references.toOption.getD []
  | _ => []

/-- Whether the config at the top says that there are no files, and nothing else could bring any. -/
def isEmpty : ExtendsTree → Bool
  | config file [] => file.declaresNoFiles && (config file []).references.isEmpty
  | _ => false

end ExtendsTree

namespace Layer

/-- The options in effect under a layer, for the config that was asked for by `config`. -/
def effectiveOptions (layer : Layer) (config : String) : CompilerOptions :=
  (((CompilerOptions.base.overlay layer.options).filter fun entry => !entry.2.isNull).insert
    "configFilePath" (.str (Path.slashed config))).insert "allowNonTsExtensions" (.bool true)

/-- Whether files are searched for: there are patterns, or there is no list of files. -/
def isSearching (layer : Layer) : Bool := layer.included.isSome || layer.files.isNone

/-- What is searched for under a layer, in the directory of the config. -/
def request (layer : Layer) (dir : String) (options : CompilerOptions) : Discovery.Request where
  included := layer.included.getD [Path.resolve dir "**/*"]
  excluded := layer.excluded.getD
    (Discovery.defaultExcluded dir (CompilerOptions.text? options "outDir"))
  allowJs := CompilerOptions.allowsJs options

end Layer

namespace ResolvedConfig

def pathOf (host : Host) (config : String) : String := Path.resolve host.cwd config

/-- A config with everything it extends, as a tree. -/
def treeOf (host : Host) (config : String) : ExtendsTree :=
  ExtendsTree.build host [] (pathOf host config) config

def discovered (host : Host) (config : String) (layer : Layer) :
    Except ConfigFault (List String) :=
  if layer.isSearching then
    Discovery.discover host
      (layer.request (Path.parent (pathOf host config)) (layer.effectiveOptions config))
  else .ok []

/-- Resolve the config that is asked for by `config`, from the current directory. -/
def resolve (host : Host) (config : String) : Except ConfigError ResolvedConfig := do
  let tree := treeOf host config
  let layer ← tree.layer
  if tree.isEmpty then .error ⟨config, .noFiles⟩
  else match discovered host config layer with
    | .error fault => .error ⟨config, fault⟩
    | .ok found =>
      return {
        options := layer.effectiveOptions config
        roots := distinct (layer.files.getD [] ++ found)
        references := tree.references
        missingBase := tree.hasMissing }

/-- The files that are asked for on the way, in order. -/
def asked (host : Host) (config : String) : List String := (treeOf host config).asked host

end ResolvedConfig
end Tsconfig
