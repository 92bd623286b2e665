import Tsconfig.Json.Commented
import Tsconfig.Proofs.Json.Reading

/-! An object that is read has distinct names, and so have the objects in it: of two fields under one
name the second has replaced the first. -/
namespace Tsconfig

namespace OrderedMap
variable {α : Type}

theorem mem_of_mem_put {entry : String × α} {name : String} {value : α}
    {entries : List (String × α)} (h : entry ∈ put name value entries) :
    entry = (name, value) ∨ entry ∈ entries := by
  induction entries with
  | nil => exact .inl (List.mem_singleton.mp h)
  | cons first rest ih =>
    rw [put] at h
    split at h
    · exact (List.mem_cons.mp h).imp_right (List.mem_cons_of_mem _)
    · rcases List.mem_cons.mp h with rfl | h
      · exact .inr List.mem_cons_self
      · exact (ih h).imp_right (List.mem_cons_of_mem _)

theorem mem_of_find? {name : String} {value : α} {entries : List (String × α)}
    (h : find? name entries = some value) : (name, value) ∈ entries := by
  induction entries with
  | nil => cases h
  | cons first rest ih =>
    rw [find?] at h
    split at h
    · rename_i hname
      cases h
      exact hname ▸ List.mem_cons_self
    · exact List.mem_cons_of_mem _ (ih h)

end OrderedMap

namespace Json

theorem nodup_collectFields (fields : List (String × Value)) :
    ((collectFields fields).map Prod.fst).Nodup :=
  List.foldlRecOn (motive := fun object : Object => (object.map Prod.fst).Nodup) fields _
    List.nodup_nil fun _ h _ _ => OrderedMap.nodup_put h

theorem mem_of_mem_collectFields {fields : List (String × Value)} {field : String × Value} :
    field ∈ collectFields fields → field ∈ fields := by
  refine List.foldlRecOn (motive := fun object => field ∈ object → field ∈ fields) fields _
    (fun h => absurd h List.not_mem_nil) ?_
  intro object ih other hother h
  rcases OrderedMap.mem_of_mem_put h with rfl | h
  · exact hother
  · exact ih h

theorem nodup_of_readValue {room : Nat} {text rest : List Char} {fields : Object}
    (h : Gives (readValue room text) (.obj fields) rest) : (fields.map Prod.fst).Nodup := by
  cases readValue_gives.mp h with
  | name hword => simp [named] at hword
  | object => exact nodup_collectFields _

section Containers
variable {item : Reader} {text rest : List Char} {fields : List (String × Value)}
  {field : String × Value}

theorem exists_gives_of_readField (h : Gives (readField item text) field rest) :
    ∃ next after, Gives (item next) field.2 after := by
  obtain ⟨_, _, next, value, -, -, hvalue, rfl⟩ := readField_gives.mp h
  exact ⟨next, rest, hvalue⟩

theorem exists_gives_of_readFields (h : Gives (readFields item text) fields rest)
    (hmem : field ∈ fields) : ∃ next after, Gives (item next) field.2 after := by
  induction fields generalizing text with
  | nil => cases hmem
  | cons first others ih =>
    rcases readFields_gives.mp h with ⟨-, hnil⟩ | ⟨_, _, _, _, _, -, -, hfirst, hothers, heq⟩
    · cases hnil
    · cases heq
      rcases List.mem_cons.mp hmem with rfl | hmem
      · exact exists_gives_of_readField hfirst
      · exact ih hothers hmem

theorem exists_gives_of_readObject (h : Gives (readObject item text) fields rest)
    (hmem : field ∈ fields) : ∃ next after, Gives (item next) field.2 after := by
  rcases readObject_gives.mp h with ⟨-, rfl⟩ | ⟨_, _, _, _, -, hfirst, hothers, rfl⟩
  · cases hmem
  · rcases List.mem_cons.mp hmem with rfl | hmem
    · exact exists_gives_of_readField hfirst
    · exact exists_gives_of_readFields hothers hmem

end Containers

/-- The object that a name of a config stands for has distinct names itself. -/
theorem Commented.nodup_of_parseObject {text : List Char} {fields inner : Object} {name : String}
    (h : parseObject text = .ok fields) (hinner : OrderedMap.find? name fields = some (.obj inner)) :
    (inner.map Prod.fst).Nodup := by
  rw [parseObject] at h
  split at h
  · cases h
    cases hinner
  · split at h
    · rename_i hparse
      cases h
      obtain ⟨_, hread, -⟩ := parse_eq_ok_iff.mp hparse
      cases readValue_gives.mp hread with
      | name hword => simp [named] at hword
      | object _ _ hfields =>
        have hmem := mem_of_mem_collectFields (OrderedMap.mem_of_find? hinner)
        obtain ⟨_, _, hvalue⟩ := exists_gives_of_readObject hfields hmem
        exact nodup_of_readValue hvalue
    · cases h
    · cases h

end Json
end Tsconfig
