/-! Cutting a text at separators and at the first place where a word occurs. -/
namespace Tsconfig.Text

/-- The pieces between the separators: one more than there are separators. -/
def splitOn (separator : Char) : List Char → List (List Char)
  | [] => [[]]
  | c :: rest =>
    if c = separator then [] :: splitOn separator rest
    else match splitOn separator rest with
      | [] => [[c]]
      | piece :: pieces => (c :: piece) :: pieces

/-- The pieces with the separator between neighbours. -/
def joinWith (separator : Char) (pieces : List (List Char)) : List Char :=
  List.intercalate [separator] pieces

/-- What follows `lead`, if the text starts with it. -/
def stripStart? : (lead text : List Char) → Option (List Char)
  | [], text => some text
  | _ :: _, [] => none
  | l :: lead, c :: text => if l = c then stripStart? lead text else none

/-- What precedes `tail`, if the text ends with it. -/
def stripEnd? (tail text : List Char) : Option (List Char) :=
  (stripStart? tail.reverse text.reverse).map List.reverse

/-- The text before and after the first occurrence of `word`. -/
def cutAt? (word : List Char) : List Char → Option (List Char × List Char)
  | [] => if word = [] then some ([], []) else none
  | c :: rest =>
    match stripStart? word (c :: rest) with
    | some after => some ([], after)
    | none => (cutAt? word rest).map fun (before, after) => (c :: before, after)

def contains (word text : List Char) : Bool := (cutAt? word text).isSome

/-- A line without the carriage return that may end it. -/
def dropReturn (line : List Char) : List Char :=
  if line.getLast? = some '\r' then line.dropLast else line

/-- The lines of a text. A line break at the very end opens no further line, and a carriage return
before a line break belongs to the break. -/
def lines (text : List Char) : List (List Char) :=
  let pieces := splitOn '\n' text
  match pieces.getLast? with
  | some [] => pieces.dropLast.map dropReturn
  | some last => pieces.dropLast.map dropReturn ++ [last]
  | none => []

theorem splitOn_ne_nil (separator : Char) (text : List Char) : splitOn separator text ≠ [] := by
  cases text with
  | nil => simp [splitOn]
  | cons c rest =>
    simp only [splitOn]
    split
    · simp
    · split <;> simp

/-- The pieces joined again are the text. -/
theorem joinWith_splitOn (separator : Char) (text : List Char) :
    joinWith separator (splitOn separator text) = text := by
  induction text with
  | nil => rfl
  | cons c rest ih =>
    simp only [splitOn]
    have hne := splitOn_ne_nil separator rest
    split
    · rename_i h
      subst h
      revert ih hne
      cases splitOn c rest with
      | nil => simp
      | cons piece pieces =>
        intro ih _
        simpa [joinWith, List.intercalate] using ih
    · revert ih hne
      cases splitOn separator rest with
      | nil => simp
      | cons piece pieces =>
        intro ih _
        revert ih
        cases pieces <;> simp [joinWith, List.intercalate]

end Tsconfig.Text
