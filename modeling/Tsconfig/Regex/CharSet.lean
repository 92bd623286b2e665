/-! Sets of characters as regular expressions write them. -/
namespace Tsconfig

/-- A set of characters. -/
inductive CharSet
  | none
  /-- From one character to another, both included. -/
  | range (first last : Char)
  | complement (set : CharSet)
  | union (left right : CharSet)
  | inter (left right : CharSet)
  deriving DecidableEq, Repr

namespace CharSet

def single (c : Char) : CharSet := range c c

def all : CharSet := complement none

def difference (left right : CharSet) : CharSet := inter left (complement right)

def symmetricDifference (left right : CharSet) : CharSet :=
  union (difference left right) (difference right left)

def ofRanges (ranges : List (Char × Char)) : CharSet :=
  ranges.foldr (fun (first, last) set => union (range first last) set) none

def digit : CharSet := range '0' '9'

/-- The blanks of ASCII. -/
def space : CharSet := ofRanges [('\t', '\r'), (' ', ' ')]

/-- The letters, digits and the underscore of ASCII. -/
def word : CharSet := ofRanges [('0', '9'), ('A', 'Z'), ('_', '_'), ('a', 'z')]

/-- The sets that have a name. All their characters are of ASCII. -/
def named : List (String × CharSet) :=
  [("alnum", ofRanges [('0', '9'), ('A', 'Z'), ('a', 'z')]),
   ("alpha", ofRanges [('A', 'Z'), ('a', 'z')]),
   ("ascii", range '\x00' '\x7F'),
   ("blank", ofRanges [('\t', '\t'), (' ', ' ')]),
   ("cntrl", ofRanges [('\x00', '\x1F'), ('\x7F', '\x7F')]),
   ("digit", digit),
   ("graph", range '!' '~'),
   ("lower", range 'a' 'z'),
   ("print", range ' ' '~'),
   ("punct", ofRanges [('!', '/'), (':', '@'), ('[', '\x60'), ('\x7B', '~')]),
   ("space", space),
   ("upper", range 'A' 'Z'),
   ("word", word),
   ("xdigit", ofRanges [('0', '9'), ('A', 'F'), ('a', 'f')])]

/-- Whether a character is in a set. If case does not count, a range also has the letters of ASCII
that differ in case from one of its own. -/
def has (anyCase : Bool) : CharSet → Char → Bool
  | none, _ => false
  | range first last, c =>
    (if anyCase then [c, c.toLower, c.toUpper] else [c]).any fun c => first ≤ c && c ≤ last
  | complement set, c => !set.has anyCase c
  | union left right, c => left.has anyCase c || right.has anyCase c
  | inter left right, c => left.has anyCase c && right.has anyCase c

/-- Whether a character or a range takes part in a set. -/
def hasRange : CharSet → Bool
  | none => false
  | range _ _ => true
  | complement set => set.hasRange
  | union left right => left.hasRange || right.hasRange
  | inter left right => left.hasRange || right.hasRange

@[simp] theorem has_single (c d : Char) : (single c).has false d ↔ c = d := by
  simp only [single, has, Bool.false_eq_true, if_false, List.any_cons, List.any_nil, Bool.or_false,
    Bool.and_eq_true, decide_eq_true_eq]
  exact ⟨fun h => Char.le_antisymm h.1 h.2, fun h => h ▸ ⟨Char.le_refl c, Char.le_refl c⟩⟩

@[simp] theorem has_all (anyCase : Bool) (c : Char) : all.has anyCase c := by simp [all, has]

theorem has_difference (anyCase : Bool) (left right : CharSet) (c : Char) :
    (difference left right).has anyCase c = (left.has anyCase c && !right.has anyCase c) := by
  simp [difference, has]

theorem has_symmetricDifference (anyCase : Bool) (left right : CharSet) (c : Char) :
    (symmetricDifference left right).has anyCase c = (left.has anyCase c ^^ right.has anyCase c) := by
  simp only [symmetricDifference, has, has_difference]
  cases left.has anyCase c <;> cases right.has anyCase c <;> rfl

/-- Case makes no difference to a set that no range takes part in. -/
theorem has_eq_of_not_hasRange {set : CharSet} (h : set.hasRange = false) (anyCase : Bool) (c : Char) :
    set.has anyCase c = set.has false c := by
  induction set with
  | none => rfl
  | range => simp [hasRange] at h
  | complement set ih => simp only [has, ih h]
  | union left right ihl ihr | inter left right ihl ihr =>
    simp only [hasRange, Bool.or_eq_false_iff] at h
    simp only [has, ihl h.1, ihr h.2]

end CharSet
end Tsconfig
