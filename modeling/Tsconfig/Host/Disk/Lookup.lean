import Tsconfig.Host.Disk.Entry
import Tsconfig.Path.Ancestors

/-!
Looking up paths on a disk. Only slashes separate. Two dots lead to the directory above, wherever
links have led; a path that goes on after a name needs a directory there.
-/
namespace Tsconfig

/-- A directory tree, and a place in it that relative paths start from. -/
structure Disk where
  top : Disk.Entry
  here : Disk.Location

namespace Disk
open Text

def maxLinks : Nat := 40

/-- Paths have fewer bytes than this. -/
def pathLimit : Nat := 4096

def segments (path : String) : List String := (splitOn '/' path.toList).map String.ofList

def startsAtTop (path : String) : Bool := path.toList.head? = some '/'

/-- How far a way leads. -/
inductive Progress
  | arrived (place : Location)
  /-- A link in a directory, and the way that is left after it. -/
  | link (place : Location) (target : String) (rest : List String)
  | lost

/-- Go from a directory until the end of the way or the first link. -/
def advance (disk : Disk) (place : Location) : List String → Progress
  | [] => .arrived place
  | name :: rest =>
    if name = "" ∨ name = "." then advance disk place rest
    else if name = ".." then advance disk place.dropLast rest
    else match disk.top.get? (place ++ [name]) with
      | some (.dir _) => advance disk (place ++ [name]) rest
      | some (.file _) => if rest = [] then .arrived (place ++ [name]) else .lost
      | some (.link target) => .link place target rest
      | none => .lost

/-- Go from a directory to the end of the way, along so many links at most. -/
def follow (disk : Disk) (links : Nat) (place : Location) (way : List String) : Option Location :=
  match disk.advance place way with
  | .arrived place => some place
  | .lost => none
  | .link place target rest =>
    match links with
    | 0 => none
    | links + 1 =>
      disk.follow links (if startsAtTop target then [] else place) (segments target ++ rest)

/-- The directory that a path starts from. -/
def start (disk : Disk) (path : String) : Location := if startsAtTop path then [] else disk.here

/-- The place that a path leads to, at the end of all links. -/
def locate (disk : Disk) (path : String) : Option Location :=
  if path = "" ∨ pathLimit ≤ path.utf8ByteSize then none
  else disk.follow maxLinks (disk.start path) (segments path)

def entry? (disk : Disk) (path : String) : Option Entry := (disk.locate path).bind disk.top.get?

/-- Whether a path names a link: its last segment does, after all links before it. -/
def isLink (disk : Disk) (path : String) : Bool :=
  let way := segments path
  let parent := disk.follow maxLinks (disk.start path) way.dropLast
  match parent.bind fun place => disk.top.get? (place ++ way.getLast?.toList) with
  | some (.link _) => true
  | _ => false

def read (disk : Disk) (path : String) : Option String :=
  match disk.entry? path with
  | some (.file text) => text
  | _ => none

def isFile (disk : Disk) (path : String) : Bool :=
  match disk.entry? path with
  | some (.file _) => true
  | _ => false

def isDir (disk : Disk) (path : String) : Bool :=
  match disk.entry? path with
  | some (.dir _) => true
  | _ => false

def cwd (disk : Disk) : String := Path.slashed ("/" ++ "/".intercalate disk.here)

/-- The disk with an entry at a path, which is taken by its names alone. -/
def insert (disk : Disk) (path : String) (entry : Entry) : Disk :=
  let place := disk.start path ++ (segments path).filter fun name => name ≠ "" && name ≠ "."
  { disk with top := entry.insert place disk.top }

end Disk
end Tsconfig
