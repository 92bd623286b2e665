import Tsconfig.Proofs.FlatOverlay
import Tsconfig.Proofs.Path.Slashes

/-! Options in effect go back to a declaration: some config wrote a value, and it was converted in the
directory of that config. Paths among the options are therefore written with slashes. -/
namespace Tsconfig
open Json

namespace OrderedMap
variable {α : Type}

theorem mem_of_get?_insertAll {m : OrderedMap α} {entries : List (String × α)} {name : String}
    {value : α} (h : (m.insertAll entries).get? name = some value) :
    (name, value) ∈ entries ∨ m.get? name = some value := by
  induction entries generalizing m with
  | nil => exact .inr h
  | cons entry rest ih =>
    rcases ih (insertAll_cons m entry rest ▸ h) with hrest | hfirst
    · exact .inl (List.mem_cons_of_mem _ hrest)
    · rw [get?_insert] at hfirst
      split at hfirst
      · rename_i hname
        cases hfirst
        exact .inl (hname ▸ List.mem_cons_self)
      · exact .inr hfirst

end OrderedMap

namespace CompilerOptions

theorem get?_anchorPaths {dir name : String} {options : CompilerOptions}
    (hanchor : name ≠ "pathsBasePath") :
    (anchorPaths dir options).get? name = options.get? name := by
  unfold anchorPaths
  split
  · rw [OrderedMap.get?_insert, if_neg hanchor]
  · rfl

/-- One field of the options that a config declares, in canonical form. -/
def convertField (dir : String) : String × Value → Except (String × OptionFault) (String × Value)
  | (name, value) =>
    match convertOption dir name value with
    | .ok value => .ok (name, value)
    | .error fault => .error (name, fault)

theorem convertField_eq_ok_iff {dir : String} {field result : String × Value} :
    convertField dir field = .ok result ↔
      ∃ value, convertOption dir field.1 field.2 = .ok value ∧ result = (field.1, value) := by
  obtain ⟨name, value⟩ := field
  rw [convertField]
  split
  · rename_i hvalue
    simp [hvalue, eq_comm]
  · rename_i hvalue
    simp [hvalue]

theorem convert_eq_ok_iff {dir : String} {declared : Value} {options : CompilerOptions} :
    convert dir declared = .ok options ↔ ∃ fields converted, declared = .obj fields ∧
      fields.mapM (convertField dir) = .ok converted ∧
      options = anchorPaths dir (OrderedMap.ofList converted) := by
  constructor
  · intro h
    unfold convert at h
    split at h
    · rename_i fields
      obtain ⟨converted, hconverted, h⟩ := bind_eq_ok_iff.mp h
      cases h
      exact ⟨fields, converted, rfl, hconverted, rfl⟩
    · cases h
  · rintro ⟨fields, converted, rfl, hconverted, rfl⟩
    exact bind_eq_ok_iff.mpr ⟨converted, hconverted, rfl⟩

/-- A converted option has been written, under the same name. -/
theorem exists_convertOption_of_convert {dir name : String} {declared value : Value}
    {options : CompilerOptions} (hanchor : name ≠ "pathsBasePath")
    (h : convert dir declared = .ok options) (hget : options.get? name = some value) :
    ∃ written, convertOption dir name written = .ok value := by
  obtain ⟨fields, converted, rfl, hconverted, rfl⟩ := convert_eq_ok_iff.mp h
  rw [get?_anchorPaths hanchor] at hget
  have hmem := (OrderedMap.mem_of_get?_insertAll hget).resolve_right (by simp)
  obtain ⟨field, -, hfield⟩ := exists_item_of_mem (forall₂_of_mapM hconverted) hmem
  obtain ⟨_, hvalue, heq⟩ := convertField_eq_ok_iff.mp hfield
  cases heq
  exact ⟨field.2, hvalue⟩

theorem exists_convert_of_mem_convertTexts {convert : String → Except OptionFault String}
    {value : Value} {texts : List Value} {text : String}
    (h : convertTexts value convert = .ok (.arr texts)) (hmem : .str text ∈ texts) :
    ∃ written, convert written = .ok text := by
  unfold convertTexts at h
  split at h
  · obtain ⟨converted, hconverted, h⟩ := bind_eq_ok_iff.mp h
    cases h
    obtain ⟨item, -, hitem⟩ := exists_item_of_mem (forall₂_of_mapM hconverted) hmem
    split at hitem
    · rename_i written
      obtain ⟨text', htext, hitem⟩ := bind_eq_ok_iff.mp hitem
      cases hitem
      exact ⟨written, htext⟩
    · cases hitem
  · cases h

/-- Lists of paths hold what resolving has made of the written paths. -/
theorem exists_resolve_of_mem_convertOption {dir name text : String} {written : Value}
    {texts : List Value} (hkind : OptionKind.ofName? name = some .paths)
    (h : convertOption dir name written = .ok (.arr texts)) (hmem : .str text ∈ texts) :
    ∃ path, text = Path.resolve dir path := by
  rw [convertOption, hkind] at h
  dsimp only at h
  split at h
  · cases h
  · obtain ⟨path, hpath⟩ := exists_convert_of_mem_convertTexts h hmem
    cases hpath
    exact ⟨path, rfl⟩

end CompilerOptions

theorem ConfigFile.exists_convertOption_of_options {file : ConfigFile} {options : CompilerOptions}
    {name : String} {value : Value} (hanchor : name ≠ "pathsBasePath")
    (h : file.options = .ok options) (hget : options.get? name = some value) :
    ∃ written, CompilerOptions.convertOption file.dir name written = .ok value := by
  unfold ConfigFile.options at h
  split at h
  · cases h
    cases hget
  · cases h
    cases hget
  · split at h
    · rename_i hconvert
      cases h
      exact CompilerOptions.exists_convertOption_of_convert hanchor hconvert hget
    · cases h

namespace ResolvedConfig

/-- The names under which options are set without being declared. -/
def setNames : List String :=
  CompilerOptions.base.keys ++ ["configFilePath", "allowNonTsExtensions", "pathsBasePath"]

/-- All other options in effect have been declared by a config, and converted in its directory. -/
theorem exists_convertOption_of_get? {host : Host} {config : String} {resolved : ResolvedConfig}
    (h : resolve host config = .ok resolved) {name : String} {value : Value}
    (hset : name ∉ setNames) (hget : resolved.options.get? name = some value) :
    ∃ dir written, CompilerOptions.convertOption dir name written = .ok value := by
  simp only [setNames, List.mem_append, List.mem_cons, List.not_mem_nil, or_false, not_or] at hset
  obtain ⟨hbase, hpath, hallow, hanchor⟩ := hset
  obtain ⟨layer, hlayer, hoptions, -, -⟩ := resolve_eq_ok h
  obtain ⟨files, own, hflat⟩ := ExtendsTree.exists_flatOverlay hlayer
  have hnone : CompilerOptions.base.get? name = none := by
    rw [← OrderedMap.contains_iff, OrderedMap.contains] at hbase
    exact Option.not_isSome_iff_eq_none.mp hbase
  rw [hoptions, Layer.get?_effectiveOptions layer config hpath hallow, hflat.options,
    OrderedMap.get?_foldl_overlay, OrderedMap.get?_empty, Option.or_none, hnone, Option.or_none]
    at hget
  obtain ⟨options, hmem, hvalue⟩ := List.mem_filterMap.mp
    (List.mem_of_getLast? (Option.filter_eq_some_iff.mp hget).1)
  obtain ⟨file, -, hfile⟩ := exists_item_of_mem hflat.converted hmem
  exact ⟨file.dir, ConfigFile.exists_convertOption_of_options hanchor hfile hvalue⟩

/-- The directories that declarations are looked for in are written with slashes. -/
theorem isSlashed_of_mem_typeRoots {host : Host} {config : String} {resolved : ResolvedConfig}
    (h : resolve host config = .ok resolved) {items : List Value} {root : String}
    (hget : resolved.options.get? "typeRoots" = some (.arr items)) (hroot : .str root ∈ items) :
    Path.IsSlashed root := by
  obtain ⟨dir, written, hconvert⟩ := exists_convertOption_of_get? h (by decide) hget
  obtain ⟨path, rfl⟩ := CompilerOptions.exists_resolve_of_mem_convertOption rfl hconvert hroot
  exact Path.isSlashed_resolve dir path

end ResolvedConfig
end Tsconfig
