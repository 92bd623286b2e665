/-! Maps from names to values that keep the order in which the names came in. -/
namespace Tsconfig

/-- Entries under distinct names, in the order of their first insertion. -/
structure OrderedMap (α : Type) where
  entries : List (String × α)
  nodup : (entries.map Prod.fst).Nodup := by simp

namespace OrderedMap
variable {α : Type}

/-- A value under a name: in place of the value that was there, else at the end. -/
def put (name : String) (value : α) : List (String × α) → List (String × α)
  | [] => [(name, value)]
  | entry :: rest =>
    if entry.1 = name then (name, value) :: rest else entry :: put name value rest

/-- The entries under other names. -/
def drop (name : String) (entries : List (String × α)) : List (String × α) :=
  entries.filter fun entry => entry.1 ≠ name

def find? (name : String) : List (String × α) → Option α
  | [] => none
  | entry :: rest => if entry.1 = name then some entry.2 else find? name rest

theorem keys_put (name : String) (value : α) (entries : List (String × α)) :
    (put name value entries).map Prod.fst =
      if name ∈ entries.map Prod.fst then entries.map Prod.fst
      else entries.map Prod.fst ++ [name] := by
  induction entries with
  | nil => simp [put]
  | cons entry rest ih =>
    by_cases h : entry.1 = name
    · simp [put, h]
    · simp only [put, h, if_false, List.map_cons, ih, List.mem_cons, Ne.symm h, false_or]
      split <;> simp

theorem nodup_put {name : String} {value : α} {entries : List (String × α)}
    (h : (entries.map Prod.fst).Nodup) : ((put name value entries).map Prod.fst).Nodup := by
  rw [keys_put]
  split
  · exact h
  · rename_i hn
    refine List.nodup_append.2 ⟨h, by simp, ?_⟩
    intro a ha b hb hab
    simp only [List.mem_singleton] at hb
    exact hn (hb ▸ hab ▸ ha)

theorem nodup_filter {p : String × α → Bool} {entries : List (String × α)}
    (h : (entries.map Prod.fst).Nodup) : ((entries.filter p).map Prod.fst).Nodup :=
  h.sublist (List.filter_sublist.map _)

theorem find?_put (name other : String) (value : α) (entries : List (String × α)) :
    find? other (put name value entries) =
      if other = name then some value else find? other entries := by
  induction entries with
  | nil => simp [put, find?, eq_comm]
  | cons entry rest ih => grind [put, find?]

theorem find?_drop (name other : String) (entries : List (String × α)) :
    find? other (drop name entries) = if other = name then none else find? other entries := by
  induction entries with
  | nil => simp [drop, find?]
  | cons entry rest ih => grind [drop, find?]

theorem find?_isSome (name : String) (entries : List (String × α)) :
    (find? name entries).isSome ↔ name ∈ entries.map Prod.fst := by
  induction entries with
  | nil => simp [find?]
  | cons entry rest ih => grind [find?]

def empty : OrderedMap α := ⟨[], List.nodup_nil⟩

instance : EmptyCollection (OrderedMap α) := ⟨empty⟩
instance : Inhabited (OrderedMap α) := ⟨empty⟩

@[ext] theorem ext {m n : OrderedMap α} (h : m.entries = n.entries) : m = n := by
  cases m; cases n; cases h; rfl

def keys (m : OrderedMap α) : List String := m.entries.map Prod.fst

def values (m : OrderedMap α) : List α := m.entries.map Prod.snd

def size (m : OrderedMap α) : Nat := m.entries.length

def get? (m : OrderedMap α) (name : String) : Option α := find? name m.entries

def contains (m : OrderedMap α) (name : String) : Bool := (m.get? name).isSome

/-- A value under a name; a name that is there keeps its place. -/
def insert (m : OrderedMap α) (name : String) (value : α) : OrderedMap α :=
  ⟨put name value m.entries, nodup_put m.nodup⟩

/-- Without a name; the other entries move up. -/
def erase (m : OrderedMap α) (name : String) : OrderedMap α :=
  ⟨drop name m.entries, nodup_filter m.nodup⟩

def filter (m : OrderedMap α) (p : String × α → Bool) : OrderedMap α :=
  ⟨m.entries.filter p, nodup_filter m.nodup⟩

/-- Entries inserted one after the other. -/
def insertAll (m : OrderedMap α) (entries : List (String × α)) : OrderedMap α :=
  entries.foldl (fun m entry => m.insert entry.1 entry.2) m

/-- `other` on top of `m`: its values win, its new names come last. -/
def overlay (m other : OrderedMap α) : OrderedMap α := m.insertAll other.entries

def ofList (entries : List (String × α)) : OrderedMap α := insertAll ∅ entries

@[simp] theorem get?_insert (m : OrderedMap α) (name other : String) (value : α) :
    (m.insert name value).get? other = if other = name then some value else m.get? other :=
  find?_put ..

@[simp] theorem get?_erase (m : OrderedMap α) (name other : String) :
    (m.erase name).get? other = if other = name then none else m.get? other :=
  find?_drop ..

@[simp] theorem get?_empty (name : String) : (∅ : OrderedMap α).get? name = none := rfl

@[simp] theorem entries_empty : (∅ : OrderedMap α).entries = [] := rfl

theorem contains_iff (m : OrderedMap α) (name : String) : m.contains name ↔ name ∈ m.keys :=
  find?_isSome ..

end OrderedMap
end Tsconfig
