import Tsconfig.Proofs.CompilerOptions.Admitted
import Tsconfig.Proofs.CompilerOptions.LeftOut
import Tsconfig.Proofs.Json.Names
import Tsconfig.Proofs.Path.Resolution
import Tsconfig.Proofs.Text.Trimmed

/-!
Converted options are in canonical form, and canonical options are converted to themselves, in
whatever directory. So converting a second time changes nothing, the order of the options included.
-/
namespace Tsconfig
open Text Json

namespace OrderedMap
variable {α : Type} {name : String} {value : α} {entries : List (String × α)}

theorem find?_eq_some_of_mem (hnodup : (entries.map Prod.fst).Nodup) (h : (name, value) ∈ entries) :
    find? name entries = some value := by
  induction entries with
  | nil => cases h
  | cons entry rest ih =>
    obtain ⟨hfresh, hrest⟩ := List.nodup_cons.mp hnodup
    rw [find?]
    rcases List.mem_cons.mp h with rfl | hmem
    · exact if_pos rfl
    · rw [if_neg, ih hrest hmem]
      rintro rfl
      exact hfresh (List.mem_map.mpr ⟨_, hmem, rfl⟩)

end OrderedMap

namespace OptionKind

/-- Whether a value other than null is in the canonical form of an option's kind. -/
def isCanonical : OptionKind → Value → Bool
  | boolean, .bool _ => true
  | text, .str _ => true
  | number, .num _ => true
  | path, .str file => Path.IsNormal file
  | texts, value => value.isTexts
  | paths, value => value.allTexts fun file => Path.IsNormal file
  | choice choices, .str name => name ∈ choices.map Prod.snd
  | libraries, value => value.allTexts fun name =>
    CompilerOptions.isLibrary name.toList && lower (trim name.toList) = name.toList
  | pathMap, .obj entries => entries.all fun entry => entry.2.isTexts
  | anything, _ => true
  | _, _ => false

/-- Whether every canonical name of a choice is accepted, and stands for itself. -/
def isClosed : OptionKind → Bool
  | choice choices => choices.all fun entry => choose? choices entry.2 = some entry.2
  | _ => true

theorem isClosed_of_ofName? {name : String} {kind : OptionKind} (h : ofName? name = some kind) :
    kind.isClosed = true := by
  have hothers : others.all (fun entry => entry.2.isClosed) = true := by decide +kernel
  unfold ofName? at h
  split at h
  · cases h
    rfl
  split at h
  · cases h
    rfl
  split at h
  · cases h
    rfl
  · exact List.all_eq_true.mp hothers _ (OrderedMap.mem_of_find? h)

end OptionKind

namespace CompilerOptions

section Texts
variable {p : String → Bool} {convert : String → Except OptionFault String} {value result : Value}

theorem allTexts_of_convertTexts (hp : ∀ written text, convert written = .ok text → p text = true)
    (h : convertTexts value convert = .ok result) : result.allTexts p = true := by
  unfold convertTexts at h
  split at h
  · obtain ⟨texts, htexts, h⟩ := bind_eq_ok_iff.mp h
    cases h
    refine List.all_eq_true.mpr fun item hitem => ?_
    obtain ⟨source, -, hwritten⟩ := exists_item_of_mem (forall₂_of_mapM htexts) hitem
    split at hwritten
    · rename_i written
      obtain ⟨text, htext, hwritten⟩ := bind_eq_ok_iff.mp hwritten
      cases hwritten
      exact hp written text htext
    · cases hwritten
  · cases h

theorem convertTexts_eq_self (hp : ∀ text, p text = true → convert text = .ok text)
    (h : value.allTexts p = true) : convertTexts value convert = .ok value := by
  cases value with
  | arr items =>
    refine bind_eq_ok_iff.mpr ⟨items, mapM_eq_self fun item hitem => ?_, rfl⟩
    have hitem := List.all_eq_true.mp h item hitem
    cases item with
    | str text => exact bind_eq_ok_iff.mpr ⟨text, hp text hitem, rfl⟩
    | _ => cases hitem
  | _ => cases h

theorem isLibrary_of_convertLibrary {written text : String} (h : convertLibrary written = .ok text) :
    (isLibrary text.toList && lower (trim text.toList) = text.toList) = true := by
  unfold convertLibrary at h
  dsimp only at h
  split at h
  · rename_i hlibrary
    cases h
    simp [hlibrary, lower_trim_lower_trim]
  · cases h

theorem convertLibrary_eq_self {text : String}
    (h : (isLibrary text.toList && lower (trim text.toList) = text.toList) = true) :
    convertLibrary text = .ok text := by
  rw [Bool.and_eq_true, decide_eq_true_eq] at h
  rw [convertLibrary, h.2, if_pos h.1, String.ofList_toList]

end Texts

section Values
variable {dir : String} {kind : OptionKind} {value result : Value}

theorem exists_bool_of_convertBoolean (h : convertBoolean value = .ok result) :
    ∃ b, result = .bool b := by
  unfold convertBoolean at h
  split at h
  · cases h
    exact ⟨_, rfl⟩
  · dsimp only at h
    split at h
    · cases h
      exact ⟨true, rfl⟩
    split at h
    · cases h
      exact ⟨false, rfl⟩
    · cases h
  · cases h

/-- A choice is converted to one of its canonical names. -/
theorem isCanonical_of_choice {choices : List (String × String)}
    (h : convertValue dir (.choice choices) value = .ok result) :
    (OptionKind.choice choices).isCanonical result = true := by
  cases value with
  | str written =>
    simp only [convertValue] at h
    split at h
    · rename_i name hname
      cases h
      exact decide_eq_true (List.mem_map.mpr ⟨_, OrderedMap.mem_of_find? hname, rfl⟩)
    · cases h
  | _ => cases h

/-- Mappings are only checked, and stay as they are. -/
theorem convertValue_pathMap_eq_ok_iff :
    convertValue dir .pathMap value = .ok result ↔
      OptionKind.pathMap.isCanonical value = true ∧ result = value := by
  have hok : (convertValue dir .pathMap value).isOk = OptionKind.pathMap.isCanonical value := by
    rw [isOk_convertValue]
    cases value <;> rfl
  cases value with
  | obj entries =>
    rw [← hok]
    constructor
    · intro h
      refine ⟨by rw [h]; rfl, ?_⟩
      obtain ⟨_, -, h⟩ := bind_eq_ok_iff.mp h
      cases h
      rfl
    · rintro ⟨h, rfl⟩
      obtain ⟨converted, hconverted⟩ := exists_of_isOk h
      obtain ⟨_, -, heq⟩ := bind_eq_ok_iff.mp hconverted
      cases heq
      exact hconverted
  | _ => exact ⟨nofun, fun h => nomatch h.1⟩

/-- What a value is converted to is in canonical form. -/
theorem isCanonical_of_convertValue (hdir : Path.IsNormal dir)
    (h : convertValue dir kind value = .ok result) : kind.isCanonical result = true := by
  have hresolve (file : String) : decide (Path.IsNormal (Path.resolve dir file)) = true :=
    decide_eq_true (Path.isNormal_resolve (.inl (Path.isAbsolute_of_normal hdir)))
  cases kind with
  | boolean =>
    obtain ⟨b, rfl⟩ := exists_bool_of_convertBoolean h
    rfl
  | text =>
    cases value <;> cases h
    rfl
  | number =>
    cases value <;> cases h
    rfl
  | path =>
    cases value <;> cases h
    exact hresolve _
  | texts => exact allTexts_of_convertTexts (fun _ _ _ => rfl) h
  | paths =>
    refine allTexts_of_convertTexts (fun written text hconvert => ?_) h
    cases hconvert
    exact hresolve written
  | choice choices => exact isCanonical_of_choice h
  | libraries => exact allTexts_of_convertTexts (fun _ _ => isLibrary_of_convertLibrary) h
  | pathMap =>
    obtain ⟨hcanonical, rfl⟩ := convertValue_pathMap_eq_ok_iff.mp h
    exact hcanonical
  | anything => rfl

/-- Canonical values are converted to themselves, whatever the directory. -/
theorem convertValue_eq_self (dir : String) (hclosed : kind.isClosed = true)
    (h : kind.isCanonical value = true) : convertValue dir kind value = .ok value := by
  cases kind with
  | boolean =>
    cases value with
    | bool => rfl
    | _ => cases h
  | text =>
    cases value with
    | str => rfl
    | _ => cases h
  | number =>
    cases value with
    | num => rfl
    | _ => cases h
  | path =>
    cases value with
    | str file =>
      have hnormal : Path.IsNormal file := of_decide_eq_true h
      rw [convertValue, Path.resolve_of_normal hnormal]
    | _ => cases h
  | texts => exact convertTexts_eq_self (fun _ _ => rfl) h
  | paths =>
    refine convertTexts_eq_self (fun file hnormal => ?_) h
    rw [Path.resolve_of_normal (of_decide_eq_true hnormal)]
  | choice choices =>
    cases value with
    | str name =>
      obtain ⟨entry, hentry, rfl⟩ := List.mem_map.mp (of_decide_eq_true h)
      have hself := of_decide_eq_true (List.all_eq_true.mp hclosed entry hentry)
      rw [convertValue, hself]
    | _ => cases h
  | libraries => exact convertTexts_eq_self (fun _ => convertLibrary_eq_self) h
  | pathMap => exact convertValue_pathMap_eq_ok_iff.mpr ⟨h, rfl⟩
  | anything => rfl

end Values

section Options
variable {dir name : String} {value : Value} {options : CompilerOptions}

/-- Whether an option is known and its value is null or in canonical form. -/
def isCanonical (name : String) (value : Value) : Bool :=
  (OptionKind.ofName? name).any fun kind => value.isNull || kind.isCanonical value

theorem isCanonical_of_convertOption (hdir : Path.IsNormal dir) {written : Value}
    (h : convertOption dir name written = .ok value) : isCanonical name value = true := by
  unfold convertOption at h
  rw [isCanonical]
  split at h
  · cases h
  · rename_i kind hkind
    rw [hkind, Option.any_some]
    split at h
    · cases h
      rfl
    · rw [isCanonical_of_convertValue hdir h, Bool.or_true]

theorem convertOption_eq_self (dir : String) (h : isCanonical name value = true) :
    convertOption dir name value = .ok value := by
  rw [isCanonical] at h
  cases hkind : OptionKind.ofName? name with
  | none =>
    rw [hkind] at h
    cases h
  | some kind =>
    rw [hkind, Option.any_some, Bool.or_eq_true] at h
    rw [convertOption, hkind]
    dsimp only
    split
    · rename_i hnull
      cases value <;> cases hnull
      rfl
    · rename_i hnull
      exact convertValue_eq_self dir (OptionKind.isClosed_of_ofName? hkind) (h.resolve_left hnull)

/-- The directory that goes with `paths` is canonical, too. -/
theorem isCanonical_of_convert (hdir : Path.IsNormal dir) {declared : Value}
    (h : convert dir declared = .ok options) (hget : options.get? name = some value) :
    isCanonical name value = true := by
  obtain ⟨fields, converted, rfl, hconverted, rfl⟩ := convert_eq_ok_iff.mp h
  rw [get?_anchorPaths_eq, Option.or_eq_some_iff] at hget
  rcases hget with hget | ⟨-, hget⟩
  · have hmem := (OrderedMap.mem_of_get?_insertAll hget).resolve_right (by simp)
    obtain ⟨field, -, hfield⟩ := exists_item_of_mem (forall₂_of_mapM hconverted) hmem
    obtain ⟨_, hvalue, heq⟩ := convertField_eq_ok_iff.mp hfield
    cases heq
    exact isCanonical_of_convertOption hdir hvalue
  · split at hget
    · rename_i hanchor
      obtain ⟨rfl, -⟩ := hanchor
      cases hget
      exact decide_eq_true hdir
    · cases hget

theorem contains_anchor {declared : Value} (h : convert dir declared = .ok options)
    (hpaths : options.contains "paths" = true) : options.contains "pathsBasePath" = true := by
  obtain ⟨fields, converted, rfl, -, rfl⟩ := convert_eq_ok_iff.mp h
  rw [OrderedMap.contains, get?_anchorPaths (by decide)] at hpaths
  rw [OrderedMap.contains, get?_anchorPaths_eq, if_pos ⟨rfl, hpaths⟩, Option.isSome_or,
    Option.isSome_some, Bool.or_true]

end Options

/-- Converted options are null or in the canonical form of their kind, and they are what they are
converted to when they are declared again, in any directory. -/
theorem convert_canonical {dir : String} {declared : Value} {options : CompilerOptions}
    (hdir : Path.IsNormal dir) (h : convert dir declared = .ok options) :
    (∀ name value, options.get? name = some value → isCanonical name value = true) ∧
      ∀ other, convert other (.obj options.entries) = .ok options := by
  have hcanonical (name : String) (value : Value) (hget : options.get? name = some value) :
      isCanonical name value = true := isCanonical_of_convert hdir h hget
  refine ⟨hcanonical, fun other => convert_eq_ok_iff.mpr
    ⟨options.entries, options.entries, rfl, mapM_eq_self fun field hfield => ?_, ?_⟩⟩
  · have hget := OrderedMap.find?_eq_some_of_mem options.nodup hfield
    exact convertField_eq_ok_iff.mpr
      ⟨field.2, convertOption_eq_self other (hcanonical _ _ hget), rfl⟩
  · rw [OrderedMap.ofList_entries, anchorPaths, if_neg]
    rintro ⟨hpaths, hanchor⟩
    exact hanchor (contains_anchor h hpaths)

private def spelledOptions : Value :=
  .obj [("target", .str "ES6"), ("outDir", .str ".\\a/../dist"),
    ("paths", .obj [("~/*", .arr [.str "./src/*"])])]

private def canonicalOptions : CompilerOptions where
  entries :=
    [("target", .str "es2015"), ("outDir", .str "/p/dist"),
      ("paths", .obj [("~/*", .arr [.str "./src/*"])]), ("pathsBasePath", .str "/p")]

/-- The directory goes with `paths` in the first conversion, and stays in the second. -/
theorem convert_canonical_respelled :
    Path.IsNormal "/p" ∧ convert "/p" spelledOptions = .ok canonicalOptions ∧
      isCanonical "outDir" (.str "/p/dist") = true ∧
      convert "/elsewhere" (.obj canonicalOptions.entries) = .ok canonicalOptions := by
  have hdir : Path.IsNormal "/p" := by decide +kernel
  have hconvert : convert "/p" spelledOptions = .ok canonicalOptions := by
    have htarget : convertField "/p" ("target", .str "ES6") = .ok ("target", .str "es2015") := by
      rfl
    have houtDir : convertField "/p" ("outDir", .str ".\\a/../dist") =
        .ok ("outDir", .str "/p/dist") := by
      rfl
    have hpaths : convertField "/p" ("paths", .obj [("~/*", .arr [.str "./src/*"])]) =
        .ok ("paths", .obj [("~/*", .arr [.str "./src/*"])]) := by
      rfl
    refine convert_eq_ok_iff.mpr ⟨_,
      [("target", .str "es2015"), ("outDir", .str "/p/dist"),
        ("paths", .obj [("~/*", .arr [.str "./src/*"])])], rfl, ?_, rfl⟩
    rw [List.mapM_cons, htarget, List.mapM_cons, houtDir, List.mapM_cons, hpaths]
    rfl
  have hout : canonicalOptions.get? "outDir" = some (.str "/p/dist") := rfl
  obtain ⟨hcanonical, hagain⟩ := convert_canonical hdir hconvert
  exact ⟨hdir, hconvert, hcanonical "outDir" _ hout, hagain "/elsewhere"⟩

end CompilerOptions
end Tsconfig
