import Tsconfig.Regex.CharSet
import Tsconfig.Walk.Unseen

/-!
Regular expressions whose alternatives have an order. Where several matches start at a place, the one
that the expression prefers is taken: the first of two alternatives, and more repetitions or fewer, as
the repetition says. Of matches that start at different places, the first is taken.
-/
namespace Tsconfig

/-- A condition on a place in a text. Lines end with line feeds. They also end with carriage returns, if
these count; a line feed behind one of them then ends no other line. Words are of ASCII. -/
inductive Anchor
  | textStart
  | textEnd
  | lineStart (carriageReturns : Bool)
  | lineEnd (carriageReturns : Bool)
  | wordStart
  | wordEnd
  /-- The start or the end of a word. -/
  | wordBound
  | noWordBound
  deriving DecidableEq, Repr

/-- Whether a place between two characters satisfies a condition. There is no character in front of
the start of a text and none behind its end. -/
def Anchor.holdsBetween (before after : Option Char) : Anchor → Bool
  | textStart => before = none
  | textEnd => after = none
  | lineStart carriageReturns =>
    before = none || before = some '\n' ||
      (carriageReturns && before = some '\r' && after ≠ some '\n')
  | lineEnd carriageReturns =>
    after = none ||
      if carriageReturns then after = some '\r' || (after = some '\n' && before ≠ some '\r')
      else after = some '\n'
  | wordStart => !before.any isWord && after.any isWord
  | wordEnd => before.any isWord && !after.any isWord
  | wordBound => before.any isWord != after.any isWord
  | noWordBound => before.any isWord == after.any isWord
where
  isWord : Char → Bool := CharSet.word.has false

def Anchor.holds (anchor : Anchor) (text : Array Char) (place : Nat) : Bool :=
  anchor.holdsBetween (if place = 0 then none else text[place - 1]?) text[place]?

/-- A word is bounded by its start and its end. -/
theorem Anchor.holdsBetween_wordBound (before after : Option Char) :
    wordBound.holdsBetween before after =
      (wordStart.holdsBetween before after || wordEnd.holdsBetween before after) := by
  simp only [holdsBetween]
  cases before.any holdsBetween.isWord <;> cases after.any holdsBetween.isWord <;> rfl

theorem Anchor.holdsBetween_noWordBound (before after : Option Char) :
    noWordBound.holdsBetween before after = !wordBound.holdsBetween before after := by
  simp [holdsBetween, bne]

/-- A regular expression. -/
inductive Regex
  | empty
  /-- A character of a set. -/
  | one (anyCase : Bool) (set : CharSet)
  | anchor (condition : Anchor)
  | seq (first second : Regex)
  /-- Either of two, rather the first. -/
  | alt (first second : Regex)
  /-- Any number of repetitions, rather more if it is greedy, else rather fewer. -/
  | many (greedy : Bool) (body : Regex)
  deriving DecidableEq, Repr

namespace Regex

def optional (greedy : Bool) (body : Regex) : Regex :=
  if greedy then alt body empty else alt empty body

def oneOrMore (greedy : Bool) (body : Regex) : Regex := seq body (many greedy body)

/-- One more place behind those that were found, unless it is one of them. -/
def note (place : Nat) (found : List Nat) : List Nat :=
  if place ∈ found then found else found ++ [place]

/-- The places that repetitions lead to, behind those that were found before. A repetition that
gets no further ends them. -/
def repeated (step : Nat → List Nat) (greedy : Bool) : Nat → Nat → List Nat → List Nat
  | 0, place, found => note place found
  | fuel + 1, place, found =>
    if place ∈ found then found
    else
      let onward (found : List Nat) : List Nat := (step place).foldl (fun found next =>
        if place < next then repeated step greedy fuel next found else note place found) found
      if greedy then note place (onward found) else onward (note place found)

/-- The places at which matches from a place end, those that are preferred first. -/
def ends (text : Array Char) : Regex → Nat → List Nat
  | empty, place => [place]
  | one anyCase set, place =>
    match text[place]? with
    | some c => if set.has anyCase c then [place + 1] else []
    | none => []
  | anchor condition, place => if condition.holds text place then [place] else []
  | seq first second, place => distinct ((first.ends text place).flatMap (second.ends text))
  | alt first second, place => distinct (first.ends text place ++ second.ends text place)
  | many greedy body, place => repeated (body.ends text) greedy (text.size - place) place []

def firstEnd? (regex : Regex) (text : Array Char) : Option Nat :=
  (List.range (text.size + 1)).findSome? fun start => (regex.ends text start).head?

/-- Whether the first match in a text ends where the text ends. -/
def reachesEnd (regex : Regex) (text : List Char) : Bool :=
  regex.firstEnd? text.toArray = some text.length

theorem mem_note {place other : Nat} {found : List Nat} :
    other ∈ note place found ↔ other ∈ found ∨ other = place := by
  simp only [note]
  split
  · rename_i h
    exact ⟨Or.inl, fun | .inl h' => h' | .inr h' => h' ▸ h⟩
  · simp

/-- What a fold over steps adds has a property if what every step adds has it. -/
theorem mem_foldl_imp {p : Nat → Prop} {next : List Nat → Nat → List Nat} {places found : List Nat}
    (h : ∀ place ∈ places, ∀ found, ∀ other ∈ next found place, other ∈ found ∨ p other) :
    ∀ other ∈ places.foldl next found, other ∈ found ∨ p other := by
  induction places generalizing found with
  | nil => exact fun _ h => .inl h
  | cons place places ih =>
    intro other hother
    rcases ih (fun place hplace => h place (.tail _ hplace)) other hother with h' | h'
    · exact h place (.head _) found other h'
    · exact .inr h'

theorem within_repeated {step : Nat → List Nat} {size : Nat} {greedy : Bool}
    (h : ∀ place ≤ size, ∀ other ∈ step place, place ≤ other ∧ other ≤ size) (fuel : Nat) :
    ∀ place ≤ size, ∀ found, ∀ other ∈ repeated step greedy fuel place found,
      other ∈ found ∨ (place ≤ other ∧ other ≤ size) := by
  induction fuel with
  | zero =>
    intro place hplace found other hother
    rcases mem_note.1 hother with h' | rfl
    · exact .inl h'
    · exact .inr ⟨Nat.le_refl _, hplace⟩
  | succ fuel ih =>
    intro place hplace found other hother
    have hnote : ∀ found, ∀ other ∈ note place found, other ∈ found ∨ (place ≤ other ∧ other ≤ size) := by
      intro found other hother
      rcases mem_note.1 hother with h' | rfl
      · exact .inl h'
      · exact .inr ⟨Nat.le_refl _, hplace⟩
    have hfold : ∀ found, ∀ other ∈ (step place).foldl (fun found next =>
        if place < next then repeated step greedy fuel next found else note place found) found,
        other ∈ found ∨ (place ≤ other ∧ other ≤ size) := by
      intro found
      refine mem_foldl_imp fun next hnext found other hother => ?_
      have hle := h place hplace next hnext
      split at hother
      · rcases ih next hle.2 found other hother with h' | h'
        · exact .inl h'
        · exact .inr ⟨Nat.le_trans hle.1 h'.1, h'.2⟩
      · exact hnote found other hother
    simp only [repeated] at hother
    split at hother
    · exact .inl hother
    · split at hother
      · rcases hnote _ other hother with h' | h'
        · exact hfold found other h'
        · exact .inr h'
      · rcases hfold _ other hother with h' | h'
        · exact hnote found other h'
        · exact .inr h'

/-- A match ends in the text, and not before it starts. -/
theorem within_ends (text : Array Char) (regex : Regex) :
    ∀ place ≤ text.size, ∀ other ∈ regex.ends text place, place ≤ other ∧ other ≤ text.size := by
  induction regex with
  | empty => simp [ends]
  | one anyCase set =>
    intro place hplace other hother
    simp only [ends] at hother
    split at hother
    · rename_i c hc
      have := (Array.getElem?_eq_some_iff.1 hc).1
      split at hother <;> simp at hother
      omega
    · simp at hother
  | anchor condition =>
    intro place hplace other hother
    simp only [ends] at hother
    split at hother <;> simp at hother
    omega
  | seq first second ihf ihs =>
    intro place hplace other hother
    simp only [ends, mem_distinct, List.mem_flatMap] at hother
    obtain ⟨middle, hmiddle, hother⟩ := hother
    have hf := ihf place hplace middle hmiddle
    have hs := ihs middle hf.2 other hother
    omega
  | alt first second ihf ihs =>
    intro place hplace other hother
    simp only [ends, mem_distinct, List.mem_append] at hother
    exact hother.elim (ihf place hplace other) (ihs place hplace other)
  | many greedy body ih =>
    intro place hplace other hother
    simpa using within_repeated ih _ place hplace [] other hother

end Regex
end Tsconfig
