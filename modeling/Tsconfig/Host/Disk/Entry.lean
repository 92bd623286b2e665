import Tsconfig.OrderedMap

/-! Directory trees as a disk holds them: files, symbolic links and directories. -/
namespace Tsconfig.Disk

/-- What a name in a directory stands for. -/
inductive Entry
  /-- A file with its text; nothing if its bytes are no text. -/
  | file (text : Option String)
  /-- A symbolic link with the path it holds. -/
  | link (target : String)
  | dir (entries : List (String × Entry))

/-- A place in a tree: the names on the way to it from the top. -/
abbrev Location := List String

namespace Entry

/-- The entry at a place below. Links are not followed. -/
def get? (entry : Entry) : Location → Option Entry
  | [] => some entry
  | name :: rest =>
    match entry with
    | dir entries => (OrderedMap.find? name entries).bind (·.get? rest)
    | _ => none

/-- An entry put at a place below; directories on the way come into being. What is there already is
replaced, unless both are directories. Nothing lies below files and links. -/
def insert (new : Entry) : Location → Entry → Entry
  | [], old =>
    match new, old with
    | dir [], dir entries => dir entries
    | _, _ => new
  | name :: rest, dir entries =>
    dir (OrderedMap.put name (insert new rest ((OrderedMap.find? name entries).getD (dir []))) entries)
  | _, old => old

mutual

/-- The places of all directories, given the place of the entry. -/
def dirs (here : Location) : Entry → List Location
  | dir entries => here :: dirsAmong here entries
  | _ => []

def dirsAmong (here : Location) : List (String × Entry) → List Location
  | [] => []
  | (name, entry) :: rest => dirs (here ++ [name]) entry ++ dirsAmong here rest

end

theorem dirs_subset_dirsAmong {here place : Location} {name : String} {entry : Entry}
    {entries : List (String × Entry)} (h : OrderedMap.find? name entries = some entry)
    (hp : place ∈ dirs (here ++ [name]) entry) : place ∈ dirsAmong here entries := by
  induction entries with
  | nil => simp [OrderedMap.find?] at h
  | cons first rest ih =>
    obtain ⟨other, found⟩ := first
    simp only [OrderedMap.find?] at h
    simp only [dirsAmong, List.mem_append]
    split at h
    · rename_i hn
      cases h
      exact .inl (by simpa [hn] using hp)
    · exact .inr (ih h)

theorem mem_dirs_of_get? {entry : Entry} {place : Location} {entries : List (String × Entry)}
    (h : entry.get? place = some (dir entries)) (here : Location) :
    here ++ place ∈ dirs here entry := by
  induction place generalizing entry here with
  | nil =>
    simp only [get?, Option.some.injEq] at h
    subst h
    simp [dirs]
  | cons name rest ih =>
    simp only [get?] at h
    split at h
    · obtain ⟨inner, hf, h⟩ := Option.bind_eq_some_iff.1 h
      have := ih h (here ++ [name])
      rw [List.append_assoc, List.singleton_append] at this
      exact List.mem_cons_of_mem _ (dirs_subset_dirsAmong hf this)
    · simp at h

end Entry
end Tsconfig.Disk
