import Tsconfig.Proofs.CompilerOptions.Declared

/-! A config that leaves out one of its compiler options, and what it declares then. The other
options stay as they are, but for the directory that goes with `paths`. -/
namespace Tsconfig
open Json

namespace OrderedMap
variable {α β ε : Type}

theorem get?_insertAll_congr {m m' : OrderedMap α} {name : String} (h : m.get? name = m'.get? name)
    (entries : List (String × α)) :
    (m.insertAll entries).get? name = (m'.insertAll entries).get? name := by
  induction entries generalizing m m' with
  | nil => exact h
  | cons entry rest ih =>
    rw [insertAll_cons, insertAll_cons]
    apply ih
    rw [get?_insert, get?_insert, h]

theorem get?_insertAll_drop (m : OrderedMap α) (name other : String) (entries : List (String × α)) :
    (m.insertAll (drop name entries)).get? other =
      if other = name then m.get? other else (m.insertAll entries).get? other := by
  induction entries generalizing m with
  | nil => exact (ite_self _).symm
  | cons entry rest ih =>
    by_cases hentry : entry.1 = name
    · have hdrop : drop name (entry :: rest) = drop name rest := by simp [drop, hentry]
      rw [hdrop, ih]
      split
      · rfl
      · rename_i hother
        rw [insertAll_cons]
        apply get?_insertAll_congr
        rw [get?_insert, if_neg (hentry ▸ hother)]
    · have hdrop : drop name (entry :: rest) = entry :: drop name rest := by simp [drop, hentry]
      rw [hdrop, insertAll_cons, insertAll_cons, ih]
      split
      · rename_i hother
        rw [get?_insert, if_neg (hother ▸ Ne.symm hentry)]
      · rfl

section Computed
variable {compute : String × α → Except ε (String × β)} {entries : List (String × α)}
  {results : List (String × β)}

theorem names_of_mapM (hnames : ∀ {entry result}, compute entry = .ok result → result.1 = entry.1)
    (h : entries.mapM compute = .ok results) : results.map Prod.fst = entries.map Prod.fst := by
  replace h := forall₂_of_mapM h
  induction h with
  | nil => rfl
  | cons hfirst _ ih => rw [List.map_cons, List.map_cons, hnames hfirst, ih]

theorem exists_find?_of_mapM
    (hnames : ∀ {entry result}, compute entry = .ok result → result.1 = entry.1)
    (h : entries.mapM compute = .ok results) {name : String} {value : α}
    (hvalue : find? name entries = some value) :
    ∃ result, find? name results = some result ∧ compute (name, value) = .ok (name, result) := by
  replace h := forall₂_of_mapM h
  induction h with
  | nil => cases hvalue
  | @cons entry first _ _ hfirst _ ih =>
    obtain ⟨key, written⟩ := entry
    obtain ⟨_, result⟩ := first
    cases hnames hfirst
    rw [find?] at hvalue ⊢
    split at hvalue
    · rename_i hkey
      cases hkey
      cases hvalue
      exact ⟨result, if_pos rfl, hfirst⟩
    · rename_i hkey
      rw [if_neg hkey]
      exact ih hvalue

/-- What is done to entries one by one, their names kept, does not depend on those left out. -/
theorem mapM_drop (hnames : ∀ {entry result}, compute entry = .ok result → result.1 = entry.1)
    (name : String) (h : entries.mapM compute = .ok results) :
    (drop name entries).mapM compute = .ok (drop name results) := by
  replace h := forall₂_of_mapM h
  induction h with
  | nil => rfl
  | @cons entry first rest others hfirst _ ih =>
    have hname := hnames hfirst
    by_cases hentry : entry.1 = name
    · simpa [drop, hname, hentry] using ih
    · have hdrop : drop name (entry :: rest) = entry :: drop name rest := by simp [drop, hentry]
      have hdrop' : drop name (first :: others) = first :: drop name others := by
        simp [drop, hname, hentry]
      rw [hdrop, hdrop', List.mapM_cons]
      exact bind_eq_ok_iff.mpr ⟨_, hfirst, bind_eq_ok_iff.mpr ⟨_, ih, rfl⟩⟩

end Computed

end OrderedMap

namespace CompilerOptions

theorem get?_anchorPaths_eq (dir : String) (options : CompilerOptions) (name : String) :
    (anchorPaths dir options).get? name = (options.get? name).or
      (if name = "pathsBasePath" ∧ (options.get? "paths").isSome then some (.str dir) else none) := by
  by_cases hname : name = "pathsBasePath"
  · subst hname
    rw [anchorPaths, OrderedMap.contains, OrderedMap.contains]
    cases hanchor : options.get? "pathsBasePath" <;> cases options.get? "paths" <;> simp [hanchor]
  · rw [get?_anchorPaths hname, if_neg fun h => hname h.1, Option.or_none]

/-- `bare` is `options` without the option `name`. What is not said is whether the directory that
goes with `paths` is there when `paths` is left out; and where this directory itself is left out, it
may come back by way of `paths`, which is what `anchored` says. -/
structure LeavesOut (name : String) (anchored : Prop) (options bare : CompilerOptions) : Prop where
  others : ∀ option, option ≠ name → (option = "pathsBasePath" → name ≠ "paths") →
    bare.get? option = options.get? option
  gone : ¬ anchored → bare.get? name = none

namespace LeavesOut
variable {name : String} {anchored anchored' : Prop} {options bare lower lowerBare : CompilerOptions}

theorem empty : LeavesOut name anchored ∅ ∅ := ⟨fun _ _ _ => rfl, fun _ => rfl⟩

theorem mono (h : LeavesOut name anchored options bare) (himp : anchored → anchored') :
    LeavesOut name anchored' options bare :=
  ⟨h.others, fun hanchored => h.gone (mt himp hanchored)⟩

theorem overlay (hlower : LeavesOut name anchored lower lowerBare)
    (h : LeavesOut name anchored options bare) :
    LeavesOut name anchored (lower.overlay options) (lowerBare.overlay bare) where
  others option hne hpaths := by
    rw [OrderedMap.get?_overlay, OrderedMap.get?_overlay, h.others option hne hpaths,
      hlower.others option hne hpaths]
  gone hanchored := by
    rw [OrderedMap.get?_overlay, h.gone hanchored, hlower.gone hanchored, Option.or_none]

end LeavesOut

/-- Names are kept, whatever the values become. -/
theorem name_of_convertField {dir : String} {field result : String × Value}
    (h : convertField dir field = .ok result) : result.1 = field.1 := by
  obtain ⟨_, -, rfl⟩ := convertField_eq_ok_iff.mp h
  rfl

theorem exists_convert_drop {dir : String} (name : String) {fields : Object}
    {options : CompilerOptions} (h : convert dir (.obj fields) = .ok options) :
    ∃ bare, convert dir (.obj (OrderedMap.drop name fields)) = .ok bare ∧
      LeavesOut name (name = "pathsBasePath" ∧ (OrderedMap.find? "paths" fields).isSome)
        options bare := by
  obtain ⟨_, converted, ⟨⟩, hconverted, rfl⟩ := convert_eq_ok_iff.mp h
  have hdrop := OrderedMap.mapM_drop name_of_convertField name hconverted
  refine ⟨_, convert_eq_ok_iff.mpr ⟨_, _, rfl, hdrop, rfl⟩, ?_, ?_⟩
  · intro option hne hpaths
    rw [get?_anchorPaths_eq, get?_anchorPaths_eq, OrderedMap.ofList, OrderedMap.ofList,
      OrderedMap.get?_insertAll_drop, if_neg hne]
    by_cases hanchor : option = "pathsBasePath"
    · rw [OrderedMap.get?_insertAll_drop, if_neg (hpaths hanchor).symm]
    · rw [if_neg fun h => hanchor h.1, if_neg fun h => hanchor h.1]
  · intro hanchored
    rw [get?_anchorPaths_eq, OrderedMap.ofList, OrderedMap.get?_insertAll_drop, if_pos rfl,
      OrderedMap.get?_empty, Option.none_or, if_neg]
    rintro ⟨rfl, hpaths⟩
    rw [OrderedMap.get?_insertAll_drop, if_neg (by decide)] at hpaths
    obtain ⟨value, hvalue⟩ := Option.isSome_iff_exists.mp hpaths
    have hmem := (OrderedMap.mem_of_get?_insertAll hvalue).resolve_right (by simp)
    obtain ⟨⟨field, written⟩, hwritten, hfield⟩ :=
      exists_item_of_mem (forall₂_of_mapM hconverted) hmem
    cases name_of_convertField hfield
    exact hanchored ⟨rfl, (OrderedMap.find?_isSome _ _).mpr (List.mem_map_of_mem hwritten)⟩

/-- Null stays null. -/
theorem get?_of_null {dir name : String} {fields : Object} {options : CompilerOptions}
    (h : convert dir (.obj fields) = .ok options) (hnames : (fields.map Prod.fst).Nodup)
    (hnull : OrderedMap.find? name fields = some .null) : options.get? name = some .null := by
  obtain ⟨_, converted, ⟨⟩, hconverted, rfl⟩ := convert_eq_ok_iff.mp h
  obtain ⟨result, hresult, hfield⟩ :=
    OrderedMap.exists_find?_of_mapM name_of_convertField hconverted hnull
  have hnull : result = .null := by
    obtain ⟨value, hvalue, heq⟩ := convertField_eq_ok_iff.mp hfield
    cases heq
    unfold convertOption at hvalue
    split at hvalue <;> cases hvalue
    rfl
  have hdistinct : (converted.map Prod.fst).Nodup := by
    rw [OrderedMap.names_of_mapM name_of_convertField hconverted]
    exact hnames
  rw [get?_anchorPaths_eq, OrderedMap.ofList, OrderedMap.get?_insertAll _ _ hdistinct, hresult,
    hnull, Option.some_or, Option.some_or]

end CompilerOptions

/-- The layer `bare` is the layer without the option `name`. -/
structure Layer.LeavesOut (name : String) (anchored : Prop) (layer bare : Layer) : Prop where
  options : CompilerOptions.LeavesOut name anchored layer.options bare.options
  files : bare.files = layer.files
  included : bare.included = layer.included
  excluded : bare.excluded = layer.excluded

namespace Layer.LeavesOut
variable {name : String} {anchored anchored' : Prop} {layer bare lower lowerBare : Layer}

theorem empty : LeavesOut name anchored {} {} := ⟨.empty, rfl, rfl, rfl⟩

theorem mono (h : LeavesOut name anchored layer bare) (himp : anchored → anchored') :
    LeavesOut name anchored' layer bare :=
  ⟨h.options.mono himp, h.files, h.included, h.excluded⟩

theorem overlay (hlower : LeavesOut name anchored lower lowerBare)
    (h : LeavesOut name anchored layer bare) :
    LeavesOut name anchored (lower.overlay layer) (lowerBare.overlay bare) where
  options := hlower.options.overlay h.options
  files := by rw [Layer.overlay, Layer.overlay, h.files, hlower.files]
  included := by rw [Layer.overlay, Layer.overlay, h.included, hlower.included]
  excluded := by rw [Layer.overlay, Layer.overlay, h.excluded, hlower.excluded]

end Layer.LeavesOut

namespace Json

/-- An object without the fields of a name. -/
def Value.dropField (name : String) : Value → Value
  | .obj fields => .obj (OrderedMap.drop name fields)
  | value => value

/-- What the fields of a config hold for a compiler option. -/
def option? (name : String) (fields : Object) : Option Value :=
  (OrderedMap.find? "compilerOptions" fields).bind (Value.field? name)

/-- The fields of a config without one of its compiler options. -/
def dropOption (name : String) (fields : Object) : Object :=
  fields.map fun field =>
    (field.1, if field.1 = "compilerOptions" then field.2.dropField name else field.2)

theorem find?_dropOption (name field : String) (fields : Object) :
    OrderedMap.find? field (dropOption name fields) =
      if field = "compilerOptions" then (OrderedMap.find? field fields).map (Value.dropField name)
      else OrderedMap.find? field fields := by
  induction fields with
  | nil => exact (ite_self _).symm
  | cons first rest ih =>
    obtain ⟨key, value⟩ := first
    rw [dropOption, List.map_cons, OrderedMap.find?, OrderedMap.find?]
    by_cases hkey : key = field
    · subst hkey
      rw [if_pos rfl, if_pos rfl]
      exact (apply_ite some ..)
    · rw [if_neg hkey, if_neg hkey]
      exact ih

theorem option?_dropOption (name other : String) (fields : Object) :
    option? other (dropOption name fields) = if other = name then none else option? other fields := by
  rw [option?, option?, find?_dropOption, if_pos rfl, Option.bind_map]
  cases OrderedMap.find? "compilerOptions" fields with
  | none => exact (ite_self _).symm
  | some value =>
    cases value with
    | obj entries => exact OrderedMap.find?_drop name other entries
    | _ => exact (ite_self _).symm

end Json

namespace ConfigFile

/-- The file without one of its compiler options. -/
def without (name : String) (file : ConfigFile) : ConfigFile :=
  { file with fields := dropOption name file.fields }

variable {name field : String} {file : ConfigFile}

theorem field?_without (hfield : field ≠ "compilerOptions") :
    (file.without name).field? field = file.field? field :=
  (find?_dropOption name field file.fields).trans (if_neg hfield)

@[simp] theorem bases_without : (file.without name).bases = file.bases := by
  rw [bases, bases, field?_without (by decide)]

@[simp] theorem references_without : (file.without name).references = file.references := by
  rw [references, references, field?_without (by decide)]
  rfl

@[simp] theorem declaresNoFiles_without :
    (file.without name).declaresNoFiles = file.declaresNoFiles := by
  rw [declaresNoFiles, declaresNoFiles, field?_without (by decide)]

theorem pathList_without (hfield : field ≠ "compilerOptions") :
    (file.without name).pathList field = file.pathList field := by
  rw [pathList, pathList, field?_without hfield]
  rfl

theorem exists_options_without (name : String) {options : CompilerOptions}
    (h : file.options = .ok options) :
    ∃ bare, (file.without name).options = .ok bare ∧ CompilerOptions.LeavesOut name
      (name = "pathsBasePath" ∧ (option? "paths" file.fields).isSome) options bare := by
  have hbare : (file.without name).field? "compilerOptions" =
      (file.field? "compilerOptions").map (Value.dropField name) :=
    (find?_dropOption name "compilerOptions" file.fields).trans (if_pos rfl)
  unfold ConfigFile.options at h ⊢
  rw [hbare]
  split at h
  · rename_i hnone
    cases h
    rw [hnone]
    exact ⟨∅, rfl, .empty⟩
  · rename_i hnull
    cases h
    rw [hnull]
    exact ⟨∅, rfl, .empty⟩
  · rename_i declared _ hdeclared
    split at h
    · rename_i hconvert
      cases h
      obtain ⟨fields, _, rfl, -⟩ := CompilerOptions.convert_eq_ok_iff.mp hconvert
      obtain ⟨bare, hdrop, hleaves⟩ := CompilerOptions.exists_convert_drop name hconvert
      rw [hdeclared]
      refine ⟨bare, ?_, hleaves.mono ?_⟩
      · simp only [Option.map_some, Value.dropField]
        rw [show (file.without name).dir = file.dir from rfl, hdrop]
      · rw [option?, ← field?, hdeclared]
        exact id
    · cases h

theorem get?_options_of_null {options : CompilerOptions} (h : file.options = .ok options)
    (hnames : ∀ {entries}, file.field? "compilerOptions" = some (.obj entries) →
      (entries.map Prod.fst).Nodup)
    (hnull : option? name file.fields = some .null) : options.get? name = some .null := by
  rw [option?, ← field?] at hnull
  obtain ⟨declared, hdeclared, hfield⟩ := Option.bind_eq_some_iff.mp hnull
  cases declared with
  | obj entries =>
    rw [ConfigFile.options, hdeclared] at h
    dsimp only at h
    split at h
    · rename_i hconvert
      cases h
      exact CompilerOptions.get?_of_null hconvert (hnames hdeclared) hfield
    · cases h
  | _ => cases hfield

/-- The file without an option declares the same, up to this option. -/
theorem exists_layer_without (name : String) {layer : Layer} (h : file.layer = .ok layer) :
    ∃ bare, (file.without name).layer = .ok bare ∧ Layer.LeavesOut name
      (name = "pathsBasePath" ∧ (option? "paths" file.fields).isSome) layer bare := by
  obtain ⟨hoptions, hfiles, hincluded, hexcluded⟩ := layer_eq_ok_iff.mp h
  obtain ⟨bare, hbare, hleaves⟩ := exists_options_without name hoptions
  refine ⟨{ layer with options := bare }, layer_eq_ok_iff.mpr ⟨hbare, ?_, ?_, ?_⟩,
    hleaves, rfl, rfl, rfl⟩
  · rw [pathList_without (by decide), hfiles]
  · rw [pathList_without (by decide), hincluded]
  · rw [pathList_without (by decide), hexcluded]

end ConfigFile

end Tsconfig
