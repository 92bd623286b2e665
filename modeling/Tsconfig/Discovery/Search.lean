import Tsconfig.Config.Fault
import Tsconfig.Discovery.Glob
import Tsconfig.Discovery.Order
import Tsconfig.Discovery.Shadowing
import Tsconfig.Host.Basic
import Tsconfig.Walk.Unseen

/-! Finding the files that include patterns stand for. -/
namespace Tsconfig.Discovery
open Text

/-- Folders of packages, which no search enters. -/
def packageFolders : List String := ["node_modules", "bower_components", "jspm_packages"]

/-- What is excluded from a config in `dir` that does not say: packages, and what is compiled. -/
def defaultExcluded (dir : String) (outDir : Option String) : List String :=
  packageFolders.map (Path.join dir) ++ (outDir.map Path.slashed).toList

def hasWildcard (segment : List Char) : Bool := '*' ∈ segment || '?' ∈ segment

/-- A pattern without slashes at its end. -/
def trimmed (pattern : String) : String :=
  String.ofList (dropEndWhile (· = '/') (Path.slashedChars pattern.toList))

/-- An include pattern whose last segment has neither a wildcard nor an extension names a directory,
and stands for everything below it. -/
def expandIncluded (pattern : String) : String :=
  let pattern := trimmed pattern
  let last := Path.baseNameChars pattern.toList
  if hasWildcard last || Path.extensionOfName last ≠ [] then pattern else pattern ++ "/**/*"

/-- An excluded pattern stands for a path and for everything below it. -/
def expandExcluded (pattern : String) : List String :=
  let pattern := trimmed pattern
  [pattern ++ "/**", pattern]

/-- The directory in front of the first segment with a wildcard, or of the last segment. -/
def literalBase (pattern : String) : String :=
  let segments := splitOn '/' pattern.toList
  let count := (segments.findIdx? hasWildcard).getD (segments.length - 1)
  let base := joinWith '/' (segments.take count)
  if base = [] then "/" else String.ofList base

/-- Whether a directory is another one or lies below it. -/
def isWithin (root dir : String) : Bool :=
  dir = root || (dropEndWhile (· = '/') root.toList ++ ['/']).isPrefixOf dir.toList

/-- One more directory to search, unless it lies within another. -/
def addRoot (roots : List String) (dir : String) : List String :=
  if roots.any (isWithin · dir) then roots else roots ++ [dir]

/-- The directories to search for some patterns: none lies within another. -/
def walkRoots (patterns : List String) : List String :=
  ((patterns.map literalBase).mergeSort fun a b => a ≤ b).foldl addRoot []

/-- What to look for. -/
structure Request where
  included : List String
  excluded : List String
  allowJs : Bool

namespace Request

/-- The include patterns as they are matched. -/
def patterns (request : Request) : List String := request.included.map expandIncluded

def excludedGlobs (request : Request) : List Glob :=
  (request.excluded.flatMap expandExcluded).map Glob.ofText

end Request

def anyAccepts (globs : List Glob) (path : String) : Bool := globs.any (·.accepts path)

def isHidden (name : String) : Bool := name.toList.head? = some '.'

/-- Directories that are not entered: hidden ones, packages and excluded ones. -/
def isPruned (excluded : List Glob) (dir : String) : Bool :=
  let name := Path.baseName dir
  isHidden name || name ∈ packageFolders || anyAccepts excluded dir

/-- Files that are sources: not hidden, of a supported extension, and not excluded. -/
def isSource (allowJs : Bool) (excluded : List Glob) (file : String) : Bool :=
  !isHidden (Path.baseName file) && Path.extension file ∈ supportedExtensions allowJs
    && !anyAccepts excluded file

/-- The sources that are found, each with the index of the first pattern that stands for it. -/
def collect (host : Host) (request : Request) : List (Nat × String) :=
  let excluded := request.excludedGlobs
  let globs := request.patterns.map Glob.ofText
  let files := (walkRoots request.patterns).flatMap fun root => host.list root (isPruned excluded)
  distinct (files.filterMap fun file =>
    if isSource request.allowJs excluded file then
      (globs.findIdx? (·.accepts file)).map fun index => (index, file)
    else none)

/-- The found sources, pattern by pattern, and in order within each. -/
def arrange (count : Nat) (found : List (Nat × String)) : List String :=
  (List.range count).flatMap fun index =>
    ((found.filter (·.1 = index)).map Prod.snd).mergeSort le

def isOpenEnded (pattern : String) : Bool := ['*', '*'].isSuffixOf pattern.toList

/-- The files that a request stands for. A pattern that ends in two stars is refused. -/
def discover (host : Host) (request : Request) : Except ConfigFault (List String) :=
  match request.patterns.find? isOpenEnded with
  | some pattern => .error (.openEnd pattern)
  | none => .ok (dropShadowed (arrange request.patterns.length (collect host request)))

end Tsconfig.Discovery
