import Tsconfig.Path.Ancestors
import Tsconfig.Walk.Unseen

/-! What the library asks of a file system. -/
namespace Tsconfig

/-- A file system as it answers questions about paths. Only finitely many spellings name something
that is a file or can be read; this is what ends every search that follows file contents. -/
structure Host where
  /-- The text of a file; nothing when it cannot be read. -/
  read : String → Option String
  isFile : String → Bool
  isDir : String → Bool
  /-- All files below a directory. Directories that the test picks out are not entered. -/
  list : String → (String → Bool) → List String
  /-- The directory that relative paths start from. -/
  cwd : String
  finite : ∃ spellings : List String,
    ∀ path, isFile path = true ∨ (read path).isSome → path ∈ spellings

namespace Host

/-- Spellings among which are all that name something. -/
noncomputable def spellings (host : Host) : List String := host.finite.choose

theorem mem_spellings_of_isFile {host : Host} {path : String} (h : host.isFile path = true) :
    path ∈ host.spellings :=
  host.finite.choose_spec path (.inl h)

theorem mem_spellings_of_read {host : Host} {path : String} (h : (host.read path).isSome) :
    path ∈ host.spellings :=
  host.finite.choose_spec path (.inr h)

end Host

end Tsconfig
