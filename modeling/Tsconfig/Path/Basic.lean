import Tsconfig.Text.Blank
import Tsconfig.Text.Cut

/-!
Paths as they are written: roots, resolution, and the parts of a path. A path is a text in which
both slashes separate; every function that cuts a path first turns backslashes into slashes.
Case and links are left alone.
-/
namespace Tsconfig.Path
open Text

/-- Every separator as a slash. -/
def slashedChars (path : List Char) : List Char :=
  path.map fun c => if c = '\\' then '/' else c

def isSeparator (c : Char) : Bool := c = '/' || c = '\\'

/-- The root a slashed path starts with: `//server/` with whatever of it is there, `/`, or a drive
letter with its colon. A drive counts when nothing or a slash follows it. Empty for other paths. -/
def rootChars : List Char → List Char
  | '/' :: '/' :: rest =>
    '/' :: '/' :: (rest.takeWhile (· ≠ '/') ++ (rest.dropWhile (· ≠ '/')).take 1)
  | '/' :: _ => ['/']
  | [drive, ':'] => if drive.isAlpha then [drive, ':'] else []
  | drive :: ':' :: '/' :: _ => if drive.isAlpha then [drive, ':', '/'] else []
  | _ => []

/-- A path and a segment with one slash between them. An empty side adds nothing. -/
def joinChars (base segment : List Char) : List Char :=
  if base = [] then segment
  else if segment = [] then base
  else if base.getLast? = some '/' then base ++ segment
  else base ++ '/' :: segment

/-- One more segment on the stack of segments, innermost first. Empty segments and single dots say
nothing; two dots take back the segment before them, and stay only where there is neither such a
segment nor a root. -/
def pushSegment (rooted : Bool) (stack : List (List Char)) (segment : List Char) :
    List (List Char) :=
  if segment = [] ∨ segment = ['.'] then stack
  else if segment = ['.', '.'] then
    match stack with
    | [] => if rooted then [] else [segment]
    | top :: below =>
      if top = ['.', '.'] then if rooted then stack else segment :: stack else below
  else segment :: stack

/-- The segments that are left of a path below its root once the dots are worked off. -/
def collapseSegments (rooted : Bool) (below : List Char) : List (List Char) :=
  ((splitOn '/' below).foldl (pushSegment rooted) []).reverse

/-- A slashed path with its dots worked off. What is left of nothing is a single dot. -/
def collapseChars (path : List Char) : List Char :=
  let root := rootChars path
  let below := joinWith '/' (collapseSegments (root ≠ []) (path.drop root.length))
  if root = [] ∧ below = [] then ['.'] else root ++ below

def isAbsoluteChars (path : List Char) : Bool := rootChars (slashedChars path) ≠ []

def resolveChars (base relative : List Char) : List Char :=
  let relative := slashedChars relative
  collapseChars
    (if isAbsoluteChars relative then relative else joinChars (slashedChars base) relative)

/-- The parent of a slashed path: what stands before its last segment. -/
def parentSlashed (path : List Char) : List Char :=
  let root := rootChars path
  let trimmed := dropEndWhile (· = '/') path
  if trimmed.length ≤ root.length then root
  else
    let kept := dropEndWhile (· ≠ '/') trimmed
    if kept = [] then [] else if kept.length ≤ root.length then root else kept.dropLast

def parentChars (path : List Char) : List Char := parentSlashed (slashedChars path)

def baseNameChars (path : List Char) : List Char :=
  takeEndWhile (fun c => !isSeparator c) (dropEndWhile isSeparator path)

def isRootChars (path : List Char) : Bool :=
  let path := slashedChars path
  let root := rootChars path
  root ≠ [] && (dropEndWhile (· = '/') path).length ≤ root.length

/-- The extensions of declaration files, which hold a dot inside. -/
def declarationExtensions : List String := [".d.ts", ".d.mts", ".d.cts"]

/-- The extension in a file name: a declaration extension, else the last dot and what follows. A
name that is nothing but the extension has none. -/
def extensionOfName (name : List Char) : List Char :=
  let ends (e : String) : Bool := e.length < name.length && e.toList.isSuffixOf name
  match declarationExtensions.find? ends with
  | some e => e.toList
  | none =>
    if (dropEndWhile (· ≠ '.') name).length ≤ 1 then []
    else '.' :: takeEndWhile (· ≠ '.') name

/-- Every separator as a slash, and nothing else changed. -/
def slashed (path : String) : String := String.ofList (slashedChars path.toList)

def isAbsolute (path : String) : Bool := isAbsoluteChars path.toList

def isRoot (path : String) : Bool := isRootChars path.toList

/-- A path and a segment with one slash between them. -/
def join (base segment : String) : String :=
  String.ofList (joinChars base.toList segment.toList)

/-- `relative` as seen from `base`, or by itself when it is absolute, with its dots worked off. Two
dots never climb above a root. -/
def resolve (base relative : String) : String :=
  String.ofList (resolveChars base.toList relative.toList)

/-- The directory that holds the last segment. A root is its own parent. -/
def parent (path : String) : String := String.ofList (parentChars path.toList)

def baseName (path : String) : String := String.ofList (baseNameChars path.toList)

def extension (path : String) : String :=
  String.ofList (extensionOfName (baseNameChars path.toList))

/-- A path less as many characters at its end as its extension has: the stem, unless separators
follow the extension. -/
def dropExtension (path : String) : String :=
  String.ofList (path.toList.take (path.length - (extension path).length))

end Tsconfig.Path
