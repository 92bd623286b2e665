import Tsconfig.Config.File

/-! Overlays of maps and of layers are associative, order of the names included. A run of overlays
may then be grouped in any way, and a name holds the last value that it got. -/
namespace Tsconfig

namespace OrderedMap
variable {α : Type}

private theorem put_put (name : String) (first second : α) (entries : List (String × α)) :
    put name second (put name first entries) = put name second entries := by
  induction entries with
  | nil => simp [put]
  | cons entry rest ih =>
    by_cases h : entry.1 = name
    · simp [put, h]
    · simp [put, h, ih]

/-- A name that is there keeps its place, so it does not matter when it gets its value. -/
private theorem put_comm {name other : String} (hne : other ≠ name) (value value' : α)
    {entries : List (String × α)} (h : name ∈ entries.map Prod.fst) :
    put name value (put other value' entries) = put other value' (put name value entries) := by
  induction entries with
  | nil => simp at h
  | cons entry rest ih =>
    by_cases hn : entry.1 = name
    · have ho : entry.1 ≠ other := fun h => hne (h.symm.trans hn)
      simp [put, hn, hne.symm]
    · have hrest : name ∈ rest.map Prod.fst := by simpa [Ne.symm hn] using h
      by_cases ho : entry.1 = other
      · simp [put, ho, hne]
      · simp [put, hn, ho, ih hrest]

theorem insert_insert (m : OrderedMap α) (name : String) (first second : α) :
    (m.insert name first).insert name second = m.insert name second := by
  apply ext
  exact put_put ..

theorem insert_comm {m : OrderedMap α} {name other : String} (hne : other ≠ name) (value value' : α)
    (h : name ∈ m.keys) :
    (m.insert other value').insert name value = (m.insert name value).insert other value' := by
  apply ext
  exact put_comm hne _ _ h

theorem mem_keys_insert {m : OrderedMap α} {name other : String} {value : α} :
    other ∈ (m.insert name value).keys ↔ other = name ∨ other ∈ m.keys := by
  rw [← contains_iff, ← contains_iff, contains, contains, get?_insert]
  by_cases h : other = name <;> simp [h]

theorem insertAll_cons (m : OrderedMap α) (entry : String × α) (entries : List (String × α)) :
    m.insertAll (entry :: entries) = (m.insert entry.1 entry.2).insertAll entries := rfl

private theorem insert_insertAll {m : OrderedMap α} {name : String} (value : α)
    {entries : List (String × α)} (hm : name ∈ m.keys) (hn : name ∉ entries.map Prod.fst) :
    (m.insertAll entries).insert name value = (m.insert name value).insertAll entries := by
  induction entries generalizing m with
  | nil => rfl
  | cons entry rest ih =>
    simp only [List.map_cons, List.mem_cons, not_or] at hn
    rw [insertAll_cons, ih (mem_keys_insert.mpr (.inr hm)) hn.2,
      insert_comm (Ne.symm hn.1) _ _ hm, insertAll_cons]

private theorem insertAll_put (m : OrderedMap α) (name : String) (value : α)
    {entries : List (String × α)} (h : (entries.map Prod.fst).Nodup) :
    m.insertAll (put name value entries) = (m.insertAll entries).insert name value := by
  induction entries generalizing m with
  | nil => rfl
  | cons entry rest ih =>
    obtain ⟨hfresh, hrest⟩ := List.nodup_cons.mp h
    by_cases hn : entry.1 = name
    · subst hn
      have hput : put entry.1 value (entry :: rest) = (entry.1, value) :: rest := by simp [put]
      have hmem : entry.1 ∈ (m.insert entry.1 entry.2).keys := mem_keys_insert.mpr (.inl rfl)
      rw [hput, insertAll_cons, insertAll_cons, insert_insertAll value hmem hfresh, insert_insert]
    · have hput : put name value (entry :: rest) = entry :: put name value rest := by simp [put, hn]
      rw [hput, insertAll_cons, ih _ hrest, insertAll_cons]

/-- Names keep the place of their first insertion under either grouping. -/
theorem overlay_assoc (a b c : OrderedMap α) :
    (a.overlay b).overlay c = a.overlay (b.overlay c) := by
  suffices h : ∀ entries : List (String × α), ∀ b : OrderedMap α,
      (a.overlay b).insertAll entries = a.overlay (b.insertAll entries) from h c.entries b
  intro entries
  induction entries with
  | nil => intro b; rfl
  | cons entry rest ih =>
    intro b
    have hstep : (a.overlay b).insert entry.1 entry.2 = a.overlay (b.insert entry.1 entry.2) :=
      (insertAll_put a entry.1 entry.2 b.nodup).symm
    rw [insertAll_cons, insertAll_cons, hstep, ih]

@[simp] theorem overlay_empty (m : OrderedMap α) : m.overlay ∅ = m := rfl

private theorem put_of_notMem {name : String} (value : α) {entries : List (String × α)}
    (h : name ∉ entries.map Prod.fst) : put name value entries = entries ++ [(name, value)] := by
  induction entries with
  | nil => rfl
  | cons entry rest ih =>
    simp only [List.map_cons, List.mem_cons, not_or] at h
    rw [put, if_neg (Ne.symm h.1), ih h.2, List.cons_append]

/-- New names go to the end, in their order. -/
theorem entries_insertAll (m : OrderedMap α) {entries : List (String × α)}
    (h : ((m.entries ++ entries).map Prod.fst).Nodup) :
    (m.insertAll entries).entries = m.entries ++ entries := by
  induction entries generalizing m with
  | nil => exact (List.append_nil _).symm
  | cons entry rest ih =>
    have hfresh : entry.1 ∉ m.entries.map Prod.fst := by
      rw [List.map_append, List.nodup_append] at h
      exact fun hmem => h.2.2 entry.1 hmem entry.1 (by simp) rfl
    have hput : (m.insert entry.1 entry.2).entries = m.entries ++ [entry] :=
      put_of_notMem entry.2 hfresh
    rw [insertAll_cons, ih _ (by rwa [hput, List.append_assoc]), hput, List.append_assoc,
      List.singleton_append]

theorem ofList_entries (m : OrderedMap α) : ofList m.entries = m :=
  ext (entries_insertAll ∅ m.nodup)

theorem get?_insertAll (m : OrderedMap α) {entries : List (String × α)} (name : String)
    (h : (entries.map Prod.fst).Nodup) :
    (m.insertAll entries).get? name = (find? name entries).or (m.get? name) := by
  induction entries generalizing m with
  | nil => rfl
  | cons entry rest ih =>
    obtain ⟨hfresh, hrest⟩ := List.nodup_cons.mp h
    rw [insertAll_cons, ih _ hrest, get?_insert]
    by_cases hn : entry.1 = name
    · subst hn
      have hnone : find? entry.1 rest = none :=
        Option.not_isSome_iff_eq_none.mp (mt (find?_isSome entry.1 rest).mp hfresh)
      simp [find?, hnone]
    · simp [find?, hn, Ne.symm hn]

@[simp] theorem get?_overlay (m other : OrderedMap α) (name : String) :
    (m.overlay other).get? name = (other.get? name).or (m.get? name) :=
  get?_insertAll m name other.nodup

/-- Behind a run of overlays a name holds the last value it got. -/
theorem get?_foldl_overlay (m : OrderedMap α) (others : List (OrderedMap α)) (name : String) :
    (others.foldl overlay m).get? name =
      ((others.filterMap (·.get? name)).getLast?).or (m.get? name) := by
  induction others generalizing m with
  | nil => rfl
  | cons other rest ih =>
    rw [List.foldl_cons, ih, get?_overlay]
    cases h : other.get? name with
    | none => simp [h]
    | some value => cases h' : (rest.filterMap (·.get? name)).getLast? <;> simp [h, h', List.getLast?_cons]

private theorem find?_filter (p : String × α → Bool) {entries : List (String × α)} (name : String)
    (h : (entries.map Prod.fst).Nodup) :
    find? name (entries.filter p) = (find? name entries).filter fun value => p (name, value) := by
  induction entries with
  | nil => rfl
  | cons entry rest ih =>
    obtain ⟨key, held⟩ := entry
    obtain ⟨hfresh, hrest⟩ := List.nodup_cons.mp h
    rw [List.filter_cons]
    by_cases hn : key = name
    · subst hn
      have hnone : find? key rest = none :=
        Option.not_isSome_iff_eq_none.mp (mt (find?_isSome key rest).mp hfresh)
      by_cases hp : p (key, held)
      · simp [find?, hp, Option.filter]
      · simp [find?, hp, ih hrest, hnone, Option.filter]
    · by_cases hp : p (key, held) <;> simp [find?, hp, hn, ih hrest]

theorem get?_filter (m : OrderedMap α) (p : String × α → Bool) (name : String) :
    (m.filter p).get? name = (m.get? name).filter fun value => p (name, value) :=
  find?_filter p name m.nodup

end OrderedMap

namespace Layer

theorem overlay_assoc (a b c : Layer) : (a.overlay b).overlay c = a.overlay (b.overlay c) := by
  simp only [overlay, OrderedMap.overlay_assoc, Option.or_assoc]

@[simp] theorem overlay_empty (layer : Layer) : layer.overlay {} = layer := by
  simp [overlay]

/-- What lies on top may be added up first. -/
theorem overlay_foldl (below above : Layer) (layers : List Layer) :
    below.overlay (layers.foldl overlay above) = layers.foldl overlay (below.overlay above) := by
  induction layers generalizing above with
  | nil => rfl
  | cons layer rest ih => rw [List.foldl_cons, List.foldl_cons, ih, overlay_assoc]

theorem options_foldl (below : Layer) (layers : List Layer) :
    (layers.foldl overlay below).options =
      (layers.map (·.options)).foldl OrderedMap.overlay below.options := by
  induction layers generalizing below with
  | nil => rfl
  | cons layer rest ih => rw [List.foldl_cons, ih]; rfl

/-- Of a field that layers take from each other as a whole, the last declaration counts. -/
theorem last_foldl {β : Type} (field : Layer → Option β)
    (hfield : ∀ lower upper, field (overlay lower upper) = (field upper).or (field lower))
    (below : Layer) (layers : List Layer) :
    field (layers.foldl overlay below) =
      ((layers.filterMap field).getLast?).or (field below) := by
  induction layers generalizing below with
  | nil => rfl
  | cons layer rest ih =>
    rw [List.foldl_cons, ih, hfield]
    cases h : field layer with
    | none => simp [h]
    | some value => cases h' : (rest.filterMap field).getLast? <;> simp [h, h', List.getLast?_cons]

end Layer
end Tsconfig
