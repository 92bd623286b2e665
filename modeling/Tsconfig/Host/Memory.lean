import Tsconfig.Host.Basic
import Tsconfig.OrderedMap

/-!
A file system held in memory: texts by slashed path. Directories are there by virtue of the files
below them.
-/
namespace Tsconfig
open Text

/-- Files in ascending order of their slashed paths, and a current directory. -/
structure Memory where
  files : List (String × String) := []
  cwd : String := "/"
  sorted : (files.map Prod.fst).Pairwise (· < ·) := by simp
  slashed : ∀ path ∈ files.map Prod.fst, Path.slashed path = path := by simp

namespace Memory

instance : Inhabited Memory := ⟨{}⟩

/-- A text under a path, in its place in the order. -/
def put (path text : String) : List (String × String) → List (String × String)
  | [] => [(path, text)]
  | file :: rest =>
    if path < file.1 then (path, text) :: file :: rest
    else if file.1 = path then (path, text) :: rest
    else file :: put path text rest

theorem mem_keys_put {path text other : String} {files : List (String × String)} :
    other ∈ (put path text files).map Prod.fst ↔ other = path ∨ other ∈ files.map Prod.fst := by
  induction files with
  | nil => simp [put]
  | cons file rest ih =>
    simp only [put]
    split
    · simp
    · split
      · rename_i h; simp [← h]
      · simp only [List.map_cons, List.mem_cons] at ih ⊢
        rw [ih]; simp only [or_left_comm]

theorem sorted_put {path text : String} {files : List (String × String)}
    (h : (files.map Prod.fst).Pairwise (· < ·)) :
    ((put path text files).map Prod.fst).Pairwise (· < ·) := by
  induction files with
  | nil => simp [put]
  | cons file rest ih =>
    simp only [List.map_cons, List.pairwise_cons] at h
    simp only [put]
    split
    · rename_i hlt
      simp only [List.map_cons, List.pairwise_cons, List.mem_cons]
      refine ⟨?_, h⟩
      rintro other (rfl | ho)
      · exact hlt
      · exact String.lt_trans hlt (h.1 _ ho)
    · split
      · rename_i heq
        simp only [List.map_cons, List.pairwise_cons]
        exact ⟨heq ▸ h.1, h.2⟩
      · rename_i hge hne
        simp only [List.map_cons, List.pairwise_cons]
        refine ⟨fun other ho => ?_, ih h.2⟩
        rcases mem_keys_put.1 ho with rfl | ho
        · exact Std.lt_of_le_of_ne (String.not_lt.1 hge) hne
        · exact h.1 _ ho

theorem slashedChars_slashedChars (path : List Char) :
    Path.slashedChars (Path.slashedChars path) = Path.slashedChars path := by
  simp only [Path.slashedChars, List.map_map]
  refine List.map_congr_left fun c _ => ?_
  simp only [Function.comp_apply]
  split <;> simp_all

theorem slashed_slashed (path : String) : Path.slashed (Path.slashed path) = Path.slashed path := by
  simp [Path.slashed, slashedChars_slashedChars]

/-- A text under the slashed path; it replaces what was there. -/
def insert (memory : Memory) (path text : String) : Memory where
  files := put (Path.slashed path) text memory.files
  cwd := memory.cwd
  sorted := sorted_put memory.sorted
  slashed := by
    intro other ho
    rcases mem_keys_put.1 ho with rfl | ho
    · exact slashed_slashed path
    · exact memory.slashed other ho

def changeDir (memory : Memory) (dir : String) : Memory :=
  { memory with cwd := Path.slashed dir }

def ofFiles (files : List (String × String)) : Memory :=
  files.foldl (fun memory file => memory.insert file.1 file.2) {}

def paths (memory : Memory) : List String := memory.files.map Prod.fst

def read (memory : Memory) (path : String) : Option String :=
  OrderedMap.find? (Path.slashed path) memory.files

def isFile (memory : Memory) (path : String) : Bool := Path.slashed path ∈ memory.paths

/-- A directory without slashes at its end. -/
def trimmedDir (dir : String) : List Char := dropEndWhile (· = '/') (Path.slashedChars dir.toList)

def isBelow (dir path : String) : Bool := (trimmedDir dir ++ ['/']).isPrefixOf path.toList

def isDir (memory : Memory) (dir : String) : Bool := memory.paths.any (isBelow dir)

/-- The directories between a directory and a file below it, given by its segments. -/
def dirsBetween (dir : List Char) : List (List Char) → List (List Char)
  | [] => []
  | [_] => []
  | segment :: rest =>
    let inner := dir ++ '/' :: segment
    inner :: dirsBetween inner rest

/-- Whether no directory on the way from `dir` down to a file is picked out. -/
def isReached (dir : String) (pruned : String → Bool) (path : String) : Bool :=
  let top := trimmedDir dir
  let below := path.toList.drop (top.length + 1)
  (dirsBetween top (splitOn '/' below)).all fun inner => !pruned (String.ofList inner)

/-- The files below a directory, in ascending order. -/
def list (memory : Memory) (dir : String) (pruned : String → Bool) : List String :=
  memory.paths.filter fun path => isBelow dir path && isReached dir pruned path

/-- All ways of writing a slashed path. -/
def spellingsOf : List Char → List (List Char)
  | [] => [[]]
  | c :: rest =>
    (spellingsOf rest).map (c :: ·) ++
      if c = '/' then (spellingsOf rest).map ('\\' :: ·) else []

theorem mem_spellingsOf (path : List Char) : path ∈ spellingsOf (Path.slashedChars path) := by
  induction path with
  | nil => simp [spellingsOf, Path.slashedChars]
  | cons c rest ih =>
    simp only [Path.slashedChars, List.map_cons, spellingsOf] at ih ⊢
    by_cases hc : c = '\\'
    · simp [hc, ih]
    · simp [hc, ih]

theorem mem_paths_of_read {memory : Memory} {path : String} (h : (memory.read path).isSome) :
    Path.slashed path ∈ memory.paths :=
  (OrderedMap.find?_isSome _ _).1 h

theorem isSome_read_of_isFile (memory : Memory) {path : String} (h : memory.isFile path = true) :
    (memory.read path).isSome :=
  (OrderedMap.find?_isSome _ _).2 (of_decide_eq_true h)

def host (memory : Memory) : Host where
  read := memory.read
  isFile := memory.isFile
  isDir := memory.isDir
  list := memory.list
  cwd := memory.cwd
  finite := by
    refine ⟨memory.paths.flatMap fun path => (spellingsOf path.toList).map String.ofList, ?_⟩
    intro path h
    have hm : Path.slashed path ∈ memory.paths := by
      rcases h with h | h
      · simpa [isFile] using h
      · exact mem_paths_of_read h
    refine List.mem_flatMap.2 ⟨_, hm, List.mem_map.2 ⟨path.toList, ?_, by simp⟩⟩
    simpa [Path.slashed] using mem_spellingsOf path.toList

end Memory
end Tsconfig
