import Tsconfig.Host.Disk.Lookup
import Tsconfig.Walk.Unseen

/-!
The files below a directory of a disk. Links count as what they lead to if links are followed, and
else not at all; the directory that is asked for may be a link either way. A link to a directory
that the walk is inside of is not entered again.
-/
namespace Tsconfig.Disk

def childPath (dir name : String) : String :=
  if dir.toList.getLast? = some '/' then dir ++ name else dir ++ "/" ++ name

/-- How a listing walks. -/
structure Walking where
  /-- Whether links are followed. -/
  following : Bool
  /-- Directories that are not entered, by their slashed paths. -/
  pruned : String → Bool

def dirs (disk : Disk) : List Location := disk.top.dirs []

theorem mem_dirs {disk : Disk} {place : Location} {entries : List (String × Entry)}
    (h : disk.top.get? place = some (.dir entries)) : place ∈ disk.dirs :=
  Entry.mem_dirs_of_get? h []

/-- The files among the entries of the directory at a place, which goes by the path `dir`, and below
them. `inside` are the places of the directories that the walk is inside of. -/
def filesAmong (disk : Disk) (walking : Walking) (inside : List Location) (dir : String)
    (place : Location) : List (String × Entry) → List String
  | [] => []
  | (name, .file _) :: rest =>
    childPath dir name :: filesAmong disk walking inside dir place rest
  | (name, .dir entries) :: rest =>
    let path := childPath dir name
    (if walking.pruned (Path.slashed path) then []
      else filesAmong disk walking ((place ++ [name]) :: inside) path (place ++ [name]) entries)
      ++ filesAmong disk walking inside dir place rest
  | (name, .link _) :: rest =>
    let path := childPath dir name
    (match disk.follow maxLinks place [name] with
      | none => []
      | some found =>
        match _h : disk.top.get? found with
        | some (.file _) => if walking.following then [path] else []
        | some (.dir entries) =>
          if walking.following && !walking.pruned (Path.slashed path) then
            if _hn : found ∈ inside then []
            else filesAmong disk walking (found :: inside) path found entries
          else []
        | _ => [])
      ++ filesAmong disk walking inside dir place rest
termination_by entries => (countUnseen disk.dirs inside, sizeOf entries)
decreasing_by
  · exact Prod.Lex.right _ (by simp only [List.cons.sizeOf_spec]; omega)
  · refine Prod.Lex.right' _ (countUnseen_cons_le ..) ?_
    simp only [List.cons.sizeOf_spec, Prod.mk.sizeOf_spec, Entry.dir.sizeOf_spec]
    omega
  · exact Prod.Lex.right _ (by simp only [List.cons.sizeOf_spec]; omega)
  · exact Prod.Lex.left _ _ (countUnseen_cons_lt (mem_dirs _h) _hn)
  · exact Prod.Lex.right _ (by simp only [List.cons.sizeOf_spec]; omega)

/-- All files below a directory, or the file itself that is asked for. -/
def list (disk : Disk) (following : Bool) (path : String) (pruned : String → Bool) : List String :=
  let files := match disk.locate path with
    | none => []
    | some place =>
      match disk.top.get? place with
      | some (.dir entries) => disk.filesAmong ⟨following, pruned⟩ [place] path place entries
      | some (.file _) => if following || !disk.isLink path then [path] else []
      | _ => []
  files.map Path.slashed

end Tsconfig.Disk
