/-! Places in a text as numbers of bytes of UTF-8 in front of them. -/
namespace Tsconfig.Text

def byteSize : List Char → Nat
  | [] => 0
  | c :: text => c.utf8Size + byteSize text

/-- The text behind a number of bytes. None if the number ends within a character or past the end. -/
def dropBytes? : Nat → List Char → Option (List Char)
  | 0, text => some text
  | _ + 1, [] => none
  | n + 1, c :: rest => if c.utf8Size ≤ n + 1 then dropBytes? (n + 1 - c.utf8Size) rest else none

/-- The first bytes of a text. None if their number ends within a character or past the end. -/
def takeBytes? : Nat → List Char → Option (List Char)
  | 0, _ => some []
  | _ + 1, [] => none
  | n + 1, c :: rest =>
    if c.utf8Size ≤ n + 1 then (takeBytes? (n + 1 - c.utf8Size) rest).map (c :: ·) else none

/-- The text between two places. -/
def between? (start stop : Nat) (text : List Char) : Option (List Char) :=
  (dropBytes? start text).bind (takeBytes? (stop - start))

/-- A text with a character in it takes at least one byte. -/
theorem exists_byteSize_cons (c : Char) (lead : List Char) :
    ∃ n, byteSize (c :: lead) = n + 1 ∧ n + 1 = c.utf8Size + byteSize lead := by
  obtain ⟨n, hn⟩ := Nat.exists_eq_add_one.mpr (Nat.add_pos_left c.utf8Size_pos (byteSize lead))
  exact ⟨n, hn, hn.symm⟩

theorem dropBytes?_append (lead text : List Char) :
    dropBytes? (byteSize lead) (lead ++ text) = some text := by
  induction lead with
  | nil => simp [byteSize, dropBytes?]
  | cons c lead ih =>
    obtain ⟨n, hn, hsize⟩ := exists_byteSize_cons c lead
    rw [hn, List.cons_append, dropBytes?, if_pos (by omega), hsize, Nat.add_sub_cancel_left, ih]

theorem takeBytes?_append (lead text : List Char) :
    takeBytes? (byteSize lead) (lead ++ text) = some lead := by
  induction lead with
  | nil => simp [byteSize, takeBytes?]
  | cons c lead ih =>
    obtain ⟨n, hn, hsize⟩ := exists_byteSize_cons c lead
    rw [hn, List.cons_append, takeBytes?, if_pos (by omega), hsize, Nat.add_sub_cancel_left, ih]
    rfl

end Tsconfig.Text
