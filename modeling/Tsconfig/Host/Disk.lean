import Tsconfig.CompilerOptions.Choice
import Tsconfig.Host.Basic
import Tsconfig.Host.Disk.Listing

/-! A disk as a host. -/
namespace Tsconfig.Disk

/-- Whether a setting says that links are followed. -/
def followsLinks (setting : String) : Bool :=
  (choose? [("1", true), ("true", true), ("yes", true), ("on", true)] setting).getD false

def allChars : List Char := (List.range 0x110000).map Char.ofNat

theorem mem_allChars (c : Char) : c ∈ allChars := by
  refine List.mem_map.2 ⟨c.toNat, List.mem_range.2 ?_, Char.ofNat_toNat c⟩
  have := c.valid
  simp only [UInt32.isValidChar, Nat.isValidChar] at this
  simp only [Char.toNat]
  omega

def textsOfLength : Nat → List (List Char)
  | 0 => [[]]
  | n + 1 => (textsOfLength n).flatMap fun text => allChars.map (· :: text)

theorem mem_textsOfLength (text : List Char) : text ∈ textsOfLength text.length := by
  induction text with
  | nil => simp [textsOfLength]
  | cons c rest ih =>
    exact List.mem_flatMap.2 ⟨rest, ih, List.mem_map.2 ⟨c, mem_allChars c, rfl⟩⟩

theorem length_le_utf8ByteSize (text : List Char) :
    text.length ≤ (String.ofList text).utf8ByteSize := by
  induction text with
  | nil => simp
  | cons c rest ih =>
    have := c.utf8Size_pos
    rw [String.ofList_cons, String.utf8ByteSize_append, String.utf8ByteSize_singleton]
    simp only [List.length_cons]
    omega

/-- There are finitely many paths of admissible length. -/
theorem finite_paths : ∃ paths : List String,
    ∀ path : String, path.utf8ByteSize < pathLimit → path ∈ paths := by
  refine ⟨(List.range pathLimit).flatMap fun n => (textsOfLength n).map String.ofList, ?_⟩
  intro path h
  refine List.mem_flatMap.2 ⟨path.toList.length, List.mem_range.2 ?_, ?_⟩
  · have := length_le_utf8ByteSize path.toList
    rw [String.ofList_toList] at this
    omega
  · exact List.mem_map.2 ⟨path.toList, mem_textsOfLength path.toList, by simp⟩

theorem lt_pathLimit (disk : Disk) {path : String} (h : disk.entry? path ≠ none) :
    path.utf8ByteSize < pathLimit := by
  unfold entry? locate at h
  split at h
  · simp at h
  · omega

def host (disk : Disk) (following : Bool) : Host where
  read := disk.read
  isFile := disk.isFile
  isDir := disk.isDir
  list := disk.list following
  cwd := disk.cwd
  finite := by
    obtain ⟨paths, h⟩ := finite_paths
    refine ⟨paths, fun path hp => h path (lt_pathLimit disk fun hn => ?_)⟩
    simp [isFile, read, hn] at hp

end Tsconfig.Disk
