import Tsconfig.Config.File
import Tsconfig.Proofs.CompilerOptions.Admitted

/-! What is wrong with the declarations of one config, fault by fault. The config is sound when
nothing is. -/
namespace Tsconfig
open Json

namespace ConfigFile

/-- Whether a field is left out, null or of a form. -/
def admits (fields : Object) (name : String) (form : Value → Bool) : Bool :=
  (OrderedMap.find? name fields).all fun value => value.isNull || form value

def isBases (value : Value) : Bool := value.str?.isSome || value.isTexts

def isOptions : Value → Bool
  | .obj fields => fields.all fun field => CompilerOptions.isDeclarable field.1 field.2
  | _ => false

def isReference : Value → Bool
  | .obj entry => ((OrderedMap.find? "path" entry).bind Value.str?).isSome
  | _ => false

def isReferences : Value → Bool
  | .arr items => items.all isReference
  | _ => false

/-- The fields that list paths or patterns, in the order in which they are read. -/
def listNames : List String := ["files", "include", "exclude"]

/-- Fields of a config of which each is left out, null or of its form. -/
structure IsSound (fields : Object) : Prop where
  bases : admits fields "extends" isBases = true
  options : admits fields "compilerOptions" isOptions = true
  lists : ∀ name ∈ listNames, admits fields name Value.isTexts = true
  references : admits fields "references" isReferences = true

/-- What is wrong with the options, in the order of their names in the file. -/
def optionFaults (file : ConfigFile) : List ConfigFault :=
  match file.field? "compilerOptions" with
  | none | some .null => []
  | some (.obj fields) => fields.filterMap fun field =>
    (fault? (CompilerOptions.convertOption file.dir field.1 field.2)).map (.option field.1)
  | some _ => [.option "compilerOptions" .notObject]

def listFaults (file : ConfigFile) (name : String) : List ConfigFault :=
  if admits file.fields name Value.isTexts then [] else [.noList name]

def referenceFault (item : Value) : ConfigFault :=
  match item with
  | .obj _ => .referenceWithoutPath
  | _ => .noList "references"

def referenceFaults (file : ConfigFile) : List ConfigFault :=
  match file.field? "references" with
  | none | some .null => []
  | some (.arr items) => (items.filter fun item => !isReference item).map referenceFault
  | some _ => [.noList "references"]

/-- What is wrong with the declarations of the file itself, in the order in which they are read. -/
def faults (file : ConfigFile) : List ConfigFault :=
  file.optionFaults ++ listNames.flatMap file.listFaults ++ file.referenceFaults

variable {file : ConfigFile}

theorem isSome_texts? (items : List Value) : (texts? items).isSome = (Value.arr items).isTexts := by
  rw [Value.isTexts_arr, texts?]
  induction items with
  | nil => rfl
  | cons item rest ih =>
    rw [List.mapM_cons, List.all_cons, ← ih]
    cases item.str? with
    | none => rfl
    | some text => cases rest.mapM Value.str? <;> rfl

theorem fault?_bases : fault? file.bases =
    if admits file.fields "extends" isBases then none else some .extendsNoText := by
  rw [bases, admits, field?]
  cases OrderedMap.find? "extends" file.fields with
  | none => rfl
  | some value =>
    cases value with
    | arr items =>
      have hbases : isBases (.arr items) = (texts? items).isSome := (isSome_texts? items).symm
      simp only [Option.all_some, Value.isNull, Bool.false_or, hbases]
      cases texts? items <;> rfl
    | _ => rfl

theorem fault?_options : fault? file.options = file.optionFaults.head? := by
  rw [options, optionFaults]
  cases file.field? "compilerOptions" with
  | none => rfl
  | some value =>
    cases value with
    | obj fields =>
      have hconvert := CompilerOptions.fault?_convert file.dir fields
      have hfaults : (fields.filterMap fun field =>
          (fault? (CompilerOptions.convertOption file.dir field.1 field.2)).map
            (ConfigFault.option field.1)) =
          (fields.filterMap fun field =>
            (fault? (CompilerOptions.convertOption file.dir field.1 field.2)).map
              (Prod.mk field.1)).map fun fault => ConfigFault.option fault.1 fault.2 := by
        rw [List.map_filterMap]
        simp only [Option.map_map]
        rfl
      simp only [hfaults, List.head?_map, ← hconvert]
      cases CompilerOptions.convert file.dir (.obj fields) <;> rfl
    | _ => rfl

theorem fault?_pathList (name : String) :
    fault? (file.pathList name) = (file.listFaults name).head? := by
  rw [pathList, listFaults, admits, field?]
  cases OrderedMap.find? name file.fields with
  | none => rfl
  | some value =>
    cases value with
    | arr items =>
      simp only [Option.all_some, Value.isNull, Bool.false_or, ← isSome_texts?]
      cases texts? items <;> rfl
    | _ => rfl

theorem fault?_referenceOf (dir : String) (item : Value) :
    fault? (referenceOf dir item) = if isReference item then none else some (referenceFault item) := by
  cases item with
  | obj entry =>
    cases hpath : (OrderedMap.find? "path" entry).bind Value.str? with
    | none => simp [referenceOf, isReference, hpath, fault?, referenceFault]
    | some path => simp [referenceOf, isReference, hpath, fault?]
  | _ => rfl

theorem fault?_references : fault? file.references = file.referenceFaults.head? := by
  rw [references, referenceFaults]
  cases file.field? "references" with
  | none => rfl
  | some value =>
    cases value with
    | arr items =>
      simp only [fault?_mapM, fault?_referenceOf, ← List.filterMap_eq_map, List.filterMap_filter]
      congr 2
      funext item
      cases isReference item <;> rfl
    | _ => rfl

theorem fault?_layer :
    fault? file.layer = (file.optionFaults ++ listNames.flatMap file.listFaults).head? := by
  have hexclude (files included : Option (List String)) (options : CompilerOptions) :
      fault? (do return (⟨options, files, included, ← file.pathList "exclude"⟩ : Layer)) =
        (file.listFaults "exclude").head? := by
    rw [fault?_bind none fun _ => rfl, Option.or_none, fault?_pathList]
  rw [layer, fault?_bind ((listNames.flatMap file.listFaults).head?), fault?_options,
    List.head?_append]
  intro options
  rw [fault?_bind ((file.listFaults "include" ++ file.listFaults "exclude").head?)]
  · rw [fault?_pathList]
    simp [listNames, List.head?_append]
  intro files
  rw [fault?_bind ((file.listFaults "exclude").head?) fun included => hexclude files included options,
    fault?_pathList, List.head?_append]

theorem head?_faults : file.faults.head? = (fault? file.layer).or (fault? file.references) := by
  rw [faults, List.head?_append, ← fault?_layer, ← fault?_references]

theorem faults_eq_nil {own : Layer} {refs : List ProjectReference} (hown : file.layer = .ok own)
    (hrefs : file.references = .ok refs) : file.faults = [] := by
  rw [← List.head?_eq_none_iff, head?_faults, hown, hrefs]
  rfl

theorem optionFaults_eq_nil_iff :
    file.optionFaults = [] ↔ admits file.fields "compilerOptions" isOptions = true := by
  rw [optionFaults, admits, field?]
  cases OrderedMap.find? "compilerOptions" file.fields with
  | none => simp
  | some value =>
    cases value with
    | obj fields =>
      simp [isOptions, Value.isNull, List.filterMap_eq_nil_iff, fault?_eq_none_iff,
        CompilerOptions.isOk_convertOption]
    | null => simp [Value.isNull]
    | _ => simp [isOptions, Value.isNull]

theorem listFaults_eq_nil_iff {name : String} :
    file.listFaults name = [] ↔ admits file.fields name Value.isTexts = true := by
  rw [listFaults]
  split <;> simp [*]

theorem referenceFaults_eq_nil_iff :
    file.referenceFaults = [] ↔ admits file.fields "references" isReferences = true := by
  rw [referenceFaults, admits, field?]
  cases OrderedMap.find? "references" file.fields with
  | none => simp
  | some value =>
    cases value with
    | arr items => simp [isReferences, Value.isNull]
    | null => simp [Value.isNull]
    | _ => simp [isReferences, Value.isNull]

/-- A config is sound when its bases can be read and nothing is wrong with the rest. -/
theorem isSound_iff (file : ConfigFile) :
    IsSound file.fields ↔ file.bases.isOk = true ∧ file.faults = [] := by
  have hbases : file.bases.isOk = true ↔ admits file.fields "extends" isBases = true := by
    rw [← fault?_eq_none_iff, fault?_bases]
    split <;> simp [*]
  simp only [faults, List.append_eq_nil_iff, List.flatMap_eq_nil_iff, optionFaults_eq_nil_iff,
    listFaults_eq_nil_iff, referenceFaults_eq_nil_iff, hbases]
  constructor
  · rintro ⟨hbases, hoptions, hlists, hreferences⟩
    exact ⟨hbases, ⟨hoptions, hlists⟩, hreferences⟩
  · rintro ⟨hbases, ⟨hoptions, hlists⟩, hreferences⟩
    exact ⟨hbases, hoptions, hlists, hreferences⟩

end ConfigFile
end Tsconfig
