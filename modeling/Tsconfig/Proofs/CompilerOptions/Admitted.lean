import Tsconfig.Proofs.CompilerOptions.Declared

/-! Which values an option admits. Whether a declaration is taken depends on its name and its value
alone, not on the directory of the config. -/
namespace Tsconfig
open Text Json

/-- Whether a value is a list of texts that all pass a test. -/
def Json.Value.allTexts (p : String → Bool) : Value → Bool
  | .arr items => items.all fun item => item.str?.any p
  | _ => false

def Json.Value.isTexts : Value → Bool := Value.allTexts fun _ => true

theorem Json.Value.isTexts_arr (items : List Value) :
    (Value.arr items).isTexts = items.all fun item => item.str?.isSome := by
  simp [isTexts, allTexts, Option.any_true]

namespace OptionKind

/-- Whether a value other than null is one for options of a kind. -/
def admits : OptionKind → Value → Bool
  | boolean, .bool _ => true
  | boolean, .str word =>
    lower (trim word.toList) = "true".toList || lower (trim word.toList) = "false".toList
  | text, .str _ => true
  | number, .num _ => true
  | path, .str _ => true
  | texts, value => value.isTexts
  | paths, value => value.isTexts
  | choice choices, .str word => (choose? choices word).isSome
  | libraries, value =>
    value.allTexts fun name => CompilerOptions.isLibrary (lower (trim name.toList))
  | pathMap, .obj entries => entries.all fun entry => entry.2.isTexts
  | anything, _ => true
  | _, _ => false

end OptionKind

namespace CompilerOptions

/-- Whether an option is known and the value is null or admitted by it. -/
def isDeclarable (name : String) (value : Value) : Bool :=
  (OptionKind.ofName? name).any fun kind => value.isNull || kind.admits value

theorem isOk_convertTexts (value : Value) (convert : String → Except OptionFault String) :
    (convertTexts value convert).isOk = value.allTexts fun text => (convert text).isOk := by
  cases value with
  | arr items =>
    rw [convertTexts, isOk_bind true fun _ => rfl, Bool.and_true, isOk_mapM, Value.allTexts]
    congr 1
    funext item
    cases item with
    | str text => exact (isOk_bind true fun _ => rfl).trans (Bool.and_true _)
    | _ => rfl
  | _ => rfl

theorem isOk_checkSubstitutions (entry : String × Value) :
    (checkSubstitutions entry).isOk = entry.2.isTexts := by
  obtain ⟨pattern, value⟩ := entry
  cases value with
  | arr targets =>
    rw [Value.isTexts_arr]
    exact isOk_ite _ _ _
  | _ => rfl

theorem isOk_forM_checkSubstitutions (entries : Object) :
    (entries.forM checkSubstitutions).isOk = entries.all fun entry => entry.2.isTexts := by
  induction entries with
  | nil => rfl
  | cons entry rest ih =>
    rw [List.all_cons, ← isOk_checkSubstitutions, ← ih]
    exact isOk_bind _ fun _ => rfl

theorem isOk_convertBoolean (value : Value) :
    (convertBoolean value).isOk = OptionKind.boolean.admits value := by
  cases value with
  | str word =>
    simp only [convertBoolean, OptionKind.admits]
    split
    · simp [*, Except.isOk, Except.toBool]
    · split
      · simp [*, Except.isOk, Except.toBool]
      · simp [*, Except.isOk, Except.toBool]
  | _ => rfl

theorem isOk_convertValue (dir : String) (kind : OptionKind) (value : Value) :
    (convertValue dir kind value).isOk = kind.admits value := by
  cases kind with
  | boolean => exact isOk_convertBoolean value
  | text => cases value <;> rfl
  | number => cases value <;> rfl
  | path => cases value <;> rfl
  | texts => exact isOk_convertTexts value _
  | paths => exact isOk_convertTexts value _
  | choice choices =>
    cases value with
    | str word =>
      simp only [convertValue, OptionKind.admits]
      cases choose? choices word <;> rfl
    | _ => rfl
  | libraries =>
    refine (isOk_convertTexts value _).trans ?_
    simp only [OptionKind.admits]
    congr 1
    funext name
    exact isOk_ite _ _ _
  | pathMap =>
    cases value with
    | obj entries =>
      refine (isOk_bind true fun _ => rfl).trans ?_
      rw [Bool.and_true]
      exact isOk_forM_checkSubstitutions entries
    | _ => rfl
  | anything => rfl

theorem isOk_convertOption (dir name : String) (value : Value) :
    (convertOption dir name value).isOk = isDeclarable name value := by
  rw [convertOption, isDeclarable]
  cases OptionKind.ofName? name with
  | none => rfl
  | some kind =>
    rw [Option.any_some, ← isOk_convertValue dir]
    cases value <;> rfl

theorem fault?_convertField (dir : String) (field : String × Value) :
    fault? (convertField dir field) =
      (fault? (convertOption dir field.1 field.2)).map (Prod.mk field.1) := by
  obtain ⟨name, value⟩ := field
  rw [convertField]
  cases convertOption dir name value <;> rfl

/-- Of the faulty options the first one is reported. -/
theorem fault?_convert (dir : String) (fields : Object) :
    fault? (convert dir (.obj fields)) = (fields.filterMap fun field =>
      (fault? (convertOption dir field.1 field.2)).map (Prod.mk field.1)).head? := by
  have hconvert : convert dir (.obj fields) = fields.mapM (convertField dir) >>= fun converted =>
      .ok (anchorPaths dir (OrderedMap.ofList converted)) := rfl
  rw [hconvert, fault?_bind none fun _ => rfl, Option.or_none, fault?_mapM]
  simp only [fault?_convertField]

end CompilerOptions
end Tsconfig
