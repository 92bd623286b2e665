import Mathlib.Data.List.Basic
import Tsconfig.Json.Parser
import Tsconfig.Proofs.Success

/-! What the readers accept, as statements about the text: which character comes next, what is read
after it, and where reading stops. -/
namespace Tsconfig.Json
variable {α β : Type}

/-- The reader gives the value, and reading goes on at the rest. -/
def Gives {text : List Char} (outcome : Read α text) (value : α) (rest : List Char) : Prop :=
  ∃ h, outcome = .ok ⟨(value, rest), h⟩

theorem Gives.length_lt {text rest : List Char} {outcome : Read α text} {value : α}
    (h : Gives outcome value rest) : rest.length < text.length := h.1

@[simp] theorem not_gives_error {text rest : List Char} {value : α} {stop : Stop} :
    ¬ Gives (.error stop : Read α text) value rest := by
  rintro ⟨_, h⟩
  cases h

@[simp] theorem gives_ok {text rest : List Char} {value : α}
    {read : { read : α × List Char // read.2.length < text.length }} :
    Gives (.ok read : Read α text) value rest ↔ read.1 = (value, rest) := by
  constructor
  · rintro ⟨_, h⟩
    cases h
    rfl
  · intro h
    obtain ⟨pair, hlt⟩ := read
    cases h
    exact ⟨hlt, rfl⟩

@[simp] theorem gives_pure {text rest : List Char} {value : α}
    {read : { read : α × List Char // read.2.length < text.length }} :
    Gives (pure read : Read α text) value rest ↔ read.1 = (value, rest) := gives_ok

theorem gives_bind {text text' rest : List Char} {value : β} {first : Read α text}
    {next : { read : α × List Char // read.2.length < text.length } → Read β text'} :
    Gives (first >>= next) value rest ↔
      ∃ value' rest', ∃ h : Gives first value' rest',
        Gives (next ⟨(value', rest'), h.length_lt⟩) value rest := by
  constructor
  · rintro ⟨hlt, h⟩
    obtain ⟨⟨⟨value', rest'⟩, hlt'⟩, hfirst, hnext⟩ := bind_eq_ok_iff.mp h
    exact ⟨value', rest', ⟨hlt', hfirst⟩, hlt, hnext⟩
  · rintro ⟨value', rest', ⟨_, hfirst⟩, hlt, hnext⟩
    exact ⟨hlt, bind_eq_ok_iff.mpr ⟨_, hfirst, hnext⟩⟩

/-- What is read first is made into the value, and reading goes on behind it. -/
theorem gives_map {text text' rest : List Char} {value : β} {first : Read α text}
    {next : { read : α × List Char // read.2.length < text.length } → Read β text'} (f : α → β)
    (hnext : ∀ value' rest' h, ∃ hlt, next ⟨(value', rest'), h⟩ = .ok ⟨(f value', rest'), hlt⟩) :
    Gives (first >>= next) value rest ↔ ∃ value', Gives first value' rest ∧ value = f value' := by
  rw [gives_bind]
  constructor
  · rintro ⟨value', rest', hfirst, h⟩
    obtain ⟨hlt, heq⟩ := hnext value' rest' hfirst.length_lt
    rw [heq, gives_ok] at h
    cases h
    exact ⟨value', hfirst, rfl⟩
  · rintro ⟨value', hfirst, rfl⟩
    obtain ⟨hlt, heq⟩ := hnext value' rest hfirst.length_lt
    exact ⟨value', rest, hfirst, by rw [heq, gives_ok]⟩

/-- An item is read, and then the others behind it. -/
theorem gives_cons {text text' rest : List Char} {values : List α} {first : Read α text}
    {next : { read : α × List Char // read.2.length < text.length } → Read (List α) text'}
    {more : (text : List Char) → Read (List α) text}
    (hnext : ∀ value after h, Gives (next ⟨(value, after), h⟩) values rest ↔
      ∃ others, Gives (more after) others rest ∧ values = value :: others) :
    Gives (first >>= next) values rest ↔ ∃ value after others,
      Gives first value after ∧ Gives (more after) others rest ∧ values = value :: others := by
  rw [gives_bind]
  constructor
  · rintro ⟨value, after, hfirst, h⟩
    obtain ⟨others, hmore, heq⟩ := (hnext value after hfirst.length_lt).mp h
    exact ⟨value, after, others, hfirst, hmore, heq⟩
  · rintro ⟨value, after, others, hfirst, hmore, heq⟩
    exact ⟨value, after, hfirst, (hnext value after hfirst.length_lt).mpr ⟨others, hmore, heq⟩⟩

/-- Something comes next that does not close a list. -/
def StartsItem (text : List Char) : Prop := ∃ c rest, skipSpace text = c :: rest ∧ c ≠ ']'

theorem startsItem_of_ne {text : List Char} (hnil : skipSpace text ≠ [])
    (hclose : ∀ rest, skipSpace text ≠ ']' :: rest) : StartsItem text := by
  cases hs : skipSpace text with
  | nil => exact absurd hs hnil
  | cons c rest =>
    refine ⟨c, rest, hs, ?_⟩
    rintro rfl
    exact hclose rest hs

section Containers
variable {item : Reader} {text rest : List Char}

theorem readItems_gives {values : List Value} :
    Gives (readItems item text) values rest ↔
      skipSpace text = ']' :: rest ∧ values = [] ∨
      ∃ next value after others, skipSpace text = ',' :: next ∧ StartsItem next ∧
        Gives (item next) value after ∧ Gives (readItems item after) others rest ∧
        values = value :: others := by
  rw [readItems]
  split
  · rename_i hs
    simp [hs]
  · rename_i next hs
    simp [hs, eq_comm, and_comm]
  · rename_i next hs
    split
    · rename_i hnext
      simp [hs, StartsItem, hnext]
    · rename_i hnext
      simp [hs, StartsItem, hnext]
    · rename_i hnil hclose
      rw [gives_cons fun value _ _ => gives_map (value :: ·) fun _ _ _ => ⟨_, rfl⟩]
      simp [hs, startsItem_of_ne hnil hclose]
  · rename_i hclose hcomma
    change ∀ rest, skipSpace text ≠ ']' :: rest at hclose
    change ∀ next, skipSpace text ≠ ',' :: next at hcomma
    simp [hclose, hcomma]

theorem readList_gives {values : List Value} :
    Gives (readList item text) values rest ↔
      skipSpace text = ']' :: rest ∧ values = [] ∨
      ∃ value after others, StartsItem text ∧ Gives (item text) value after ∧
        Gives (readItems item after) others rest ∧ values = value :: others := by
  rw [readList]
  split
  · rename_i hs
    simp [hs, StartsItem]
  · rename_i next hs
    simp [hs, StartsItem, eq_comm, and_comm]
  · rename_i hnil hclose
    have hstarts : StartsItem text := startsItem_of_ne hnil hclose
    change ∀ rest, skipSpace text ≠ ']' :: rest at hclose
    rw [gives_cons fun value _ _ => gives_map (value :: ·) fun _ _ _ => ⟨_, rfl⟩]
    simp [hclose, hstarts]

theorem readField_gives {field : String × Value} :
    Gives (readField item text) field rest ↔
      ∃ name after next value, Gives (readString text) name after ∧ skipSpace after = ':' :: next ∧
        Gives (item next) value rest ∧ field = (String.ofList name, value) := by
  rw [readField, gives_bind]
  constructor
  · rintro ⟨name, after, hname, h⟩
    dsimp only at h
    split at h
    · cases not_gives_error h
    · rename_i next hs
      obtain ⟨value, hitem, heq⟩ :=
        (gives_map (String.ofList name, ·) fun _ _ _ => ⟨_, rfl⟩).mp h
      exact ⟨name, after, next, value, hname, hs, hitem, heq⟩
    · cases not_gives_error h
  · rintro ⟨name, after, next, value, hname, hs, hitem, rfl⟩
    refine ⟨name, after, hname, ?_⟩
    dsimp only
    split
    · rename_i hs'
      rw [hs] at hs'
      cases hs'
    · rename_i hs'
      rw [hs] at hs'
      cases hs'
      exact (gives_map (String.ofList name, ·) fun _ _ _ => ⟨_, rfl⟩).mpr ⟨value, hitem, rfl⟩
    · rename_i hcolon
      exact absurd hs (hcolon _)

theorem readFields_gives {fields : List (String × Value)} :
    Gives (readFields item text) fields rest ↔
      skipSpace text = '}' :: rest ∧ fields = [] ∨
      ∃ next name field after others, skipSpace text = ',' :: next ∧
        skipSpace next = '"' :: name ∧ Gives (readField item name) field after ∧
        Gives (readFields item after) others rest ∧ fields = field :: others := by
  rw [readFields]
  split
  · rename_i hs
    simp [hs]
  · rename_i next hs
    simp [hs, eq_comm, and_comm]
  · rename_i next hs
    split
    · rename_i hnext
      simp [hs, hnext]
    · rename_i hnext
      simp [hs, hnext]
    · rename_i name hnext
      rw [gives_cons fun field _ _ => gives_map (field :: ·) fun _ _ _ => ⟨_, rfl⟩]
      simp [hs, hnext]
    · rename_i hquote
      change ∀ name, skipSpace next ≠ '"' :: name at hquote
      simp [hs, hquote]
  · rename_i hclose hcomma
    change ∀ rest, skipSpace text ≠ '}' :: rest at hclose
    change ∀ next, skipSpace text ≠ ',' :: next at hcomma
    simp [hclose, hcomma]

theorem readObject_gives {fields : List (String × Value)} :
    Gives (readObject item text) fields rest ↔
      skipSpace text = '}' :: rest ∧ fields = [] ∨
      ∃ name field after others, skipSpace text = '"' :: name ∧
        Gives (readField item name) field after ∧ Gives (readFields item after) others rest ∧
        fields = field :: others := by
  rw [readObject]
  split
  · rename_i hs
    simp [hs]
  · rename_i next hs
    simp [hs, eq_comm, and_comm]
  · rename_i name hs
    rw [gives_cons fun field _ _ => gives_map (field :: ·) fun _ _ _ => ⟨_, rfl⟩]
    simp [hs]
  · rename_i hclose hquote
    change ∀ rest, skipSpace text ≠ '}' :: rest at hclose
    change ∀ name, skipSpace text ≠ '"' :: name at hquote
    simp [hclose, hquote]

end Containers

theorem readName_eq_ok_iff {value : α} {name text : List Char} {read : α × List Char} :
    readName value name text = .ok read ↔ read.1 = value ∧ text = name ++ read.2 := by
  induction name generalizing text with
  | nil =>
    simp only [readName, Except.ok.injEq, List.nil_append, Prod.ext_iff]
    tauto
  | cons n name ih =>
    cases text with
    | nil => simp [readName]
    | cons c text =>
      by_cases hc : c = n
      · simp [readName, hc, ih]
      · simp [readName, hc]

theorem readName_append (value : α) (name rest : List Char) :
    readName value name (name ++ rest) = .ok (value, rest) :=
  readName_eq_ok_iff.mpr ⟨rfl, rfl⟩

/-- The values that go by a name. -/
def named : List (List Char × Value) :=
  [(['n', 'u', 'l', 'l'], .null), (['t', 'r', 'u', 'e'], .bool true),
    (['f', 'a', 'l', 's', 'e'], .bool false)]

/-- What is read as a value, by the character that comes next. -/
inductive ReadsValue (room : Nat) (text : List Char) : Value → List Char → Prop
  | name {word rest : List Char} {value : Value} (hword : (word, value) ∈ named)
      (h : skipSpace text = word ++ rest) : ReadsValue room text value rest
  | string {body chars rest : List Char} (h : skipSpace text = '"' :: body)
      (hread : Gives (readString body) chars rest) :
      ReadsValue room text (.str (String.ofList chars)) rest
  | list {inner : Nat} {body rest : List Char} {items : List Value} (hroom : room = inner + 1)
      (h : skipSpace text = '[' :: body) (hread : Gives (readList (readValue inner) body) items rest) :
      ReadsValue room text (.arr items) rest
  | object {inner : Nat} {body rest : List Char} {fields : List (String × Value)}
      (hroom : room = inner + 1) (h : skipSpace text = '{' :: body)
      (hread : Gives (readObject (readValue inner) body) fields rest) :
      ReadsValue room text (.obj (collectFields fields)) rest
  | negative {body rest : List Char} {n : Number} (h : skipSpace text = '-' :: body)
      (hread : Number.readUnsigned true body = .ok (n, rest)) : ReadsValue room text (.num n) rest
  | number {c : Char} {body rest : List Char} {n : Number} (h : skipSpace text = c :: body)
      (hc : c.isDigit = true) (hread : Number.readUnsigned false (c :: body) = .ok (n, rest)) :
      ReadsValue room text (.num n) rest

private theorem readsValue_of_name {room : Nat} {text name body rest : List Char} {c : Char}
    {value value' : Value} (hword : (c :: name, value) ∈ named) (hs : skipSpace text = c :: body)
    (hread : readName value name body = .ok (value', rest)) : ReadsValue room text value' rest := by
  obtain ⟨hvalue, hbody⟩ := readName_eq_ok_iff.mp hread
  cases hvalue
  exact .name hword (by rw [hs, hbody]; rfl)

theorem readsValue_of_gives {room : Nat} {text rest : List Char} {value : Value}
    (h : Gives (readValue room text) value rest) : ReadsValue room text value rest := by
  rw [readValue.eq_def] at h
  split at h
  · cases not_gives_error h
  · rename_i body hs
    split at h
    · rename_i read hread
      cases gives_ok.mp h
      exact readsValue_of_name (by simp [named]) hs hread
    · cases not_gives_error h
  · rename_i body hs
    split at h
    · rename_i read hread
      cases gives_ok.mp h
      exact readsValue_of_name (by simp [named]) hs hread
    · cases not_gives_error h
  · rename_i body hs
    split at h
    · rename_i read hread
      cases gives_ok.mp h
      exact readsValue_of_name (by simp [named]) hs hread
    · cases not_gives_error h
  · rename_i body hs
    obtain ⟨chars, after, hread, h⟩ := gives_bind.mp h
    cases gives_pure.mp h
    exact .string hs hread
  · rename_i body hs
    cases room with
    | zero => cases not_gives_error h
    | succ room =>
      obtain ⟨items, after, hread, h⟩ := gives_bind.mp h
      cases gives_pure.mp h
      exact .list rfl hs hread
  · rename_i body hs
    cases room with
    | zero => cases not_gives_error h
    | succ room =>
      obtain ⟨fields, after, hread, h⟩ := gives_bind.mp h
      cases gives_pure.mp h
      exact .object rfl hs hread
  · rename_i body hs
    split at h
    · rename_i n after hread
      cases gives_ok.mp h
      exact .negative hs hread
    · cases not_gives_error h
  · rename_i c body _ _ _ _ _ _ _ hs
    split at h
    · rename_i hc
      split at h
      · rename_i n after hread
        cases gives_ok.mp h
        exact .number hs hc hread
      · cases not_gives_error h
    · cases not_gives_error h

-- In each case the other branches of the reader start with another character.
theorem gives_of_readsValue {room : Nat} {text rest : List Char} {value : Value}
    (h : ReadsValue room text value rest) : Gives (readValue room text) value rest := by
  rw [readValue.eq_def]
  cases h with
  | @name word _ _ hword h =>
    simp only [named, List.mem_cons, List.not_mem_nil, or_false, Prod.mk.injEq] at hword
    obtain ⟨rfl, rfl⟩ | ⟨rfl, rfl⟩ | ⟨rfl, rfl⟩ := hword
    all_goals
      split <;> rename_i hs <;> rw [h] at hs <;> cases hs
      · split
        · rename_i hread
          obtain ⟨hvalue, hrest⟩ := readName_eq_ok_iff.mp hread
          exact gives_ok.mpr (Prod.ext hvalue (List.append_cancel_left hrest.symm))
        · rename_i hread
          cases hread.symm.trans (readName_append _ _ rest)
      · contradiction
  | string h hread =>
    split <;> rename_i hs <;> rw [h] at hs <;> cases hs
    · exact gives_bind.mpr ⟨_, _, hread, gives_pure.mpr rfl⟩
    · contradiction
  | list hroom h hread =>
    subst hroom
    split <;> rename_i hs <;> rw [h] at hs <;> cases hs
    · exact gives_bind.mpr ⟨_, _, hread, gives_pure.mpr rfl⟩
    · contradiction
  | object hroom h hread =>
    subst hroom
    split <;> rename_i hs <;> rw [h] at hs <;> cases hs
    · exact gives_bind.mpr ⟨_, _, hread, gives_pure.mpr rfl⟩
    · contradiction
  | negative h hread =>
    split <;> rename_i hs <;> rw [h] at hs <;> cases hs
    · split
      · rename_i hread'
        cases hread.symm.trans hread'
        exact gives_ok.mpr rfl
      · rename_i hread'
        cases hread.symm.trans hread'
    · contradiction
  | number h hc hread =>
    split <;> rename_i hs <;> rw [h] at hs <;> cases hs
    case h_9 =>
      rw [if_pos hc]
      split
      · rename_i hread'
        cases hread.symm.trans hread'
        exact gives_ok.mpr rfl
      · rename_i hread'
        cases hread.symm.trans hread'
    all_goals exact absurd hc (by decide)

theorem readValue_gives {room : Nat} {text rest : List Char} {value : Value} :
    Gives (readValue room text) value rest ↔ ReadsValue room text value rest :=
  ⟨readsValue_of_gives, gives_of_readsValue⟩

theorem parse_eq_ok_iff {text : List Char} {value : Value} :
    parse text = .ok value ↔
      ∃ rest, Gives (readValue maxDepth text) value rest ∧ skipSpace rest = [] := by
  have hparse : parse text = .ok value ↔ readDocument text = .ok value := by
    rw [parse]
    split
    · rename_i hread
      rw [hread, Except.ok.injEq, Except.ok.injEq]
    · rename_i hread
      simp [hread]
  rw [hparse, readDocument, bind_eq_ok_iff]
  constructor
  · rintro ⟨⟨⟨value', rest⟩, hlt⟩, hread, h⟩
    dsimp only at h
    split at h
    · rename_i hs
      cases h
      exact ⟨rest, ⟨hlt, hread⟩, hs⟩
    · cases h
  · rintro ⟨rest, ⟨hlt, hread⟩, hs⟩
    refine ⟨_, hread, ?_⟩
    dsimp only
    rw [hs]
    rfl

theorem skipSpace_ne_nil_of_gives {room : Nat} {text rest : List Char} {value : Value}
    (h : Gives (readValue room text) value rest) : skipSpace text ≠ [] := by
  intro hnil
  rw [readValue.eq_def] at h
  split at h
  · cases not_gives_error h
  all_goals
    rename_i hs
    rw [hnil] at hs
    cases hs

end Tsconfig.Json
