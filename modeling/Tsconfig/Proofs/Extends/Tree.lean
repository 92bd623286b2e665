import Mathlib.Data.List.Basic
import Tsconfig.Config.Extends
import Tsconfig.Proofs.Success

/-! One level of the tree of configs: what a config that can be read adds to the trees of its bases,
and when its layer comes through. -/
namespace Tsconfig
open Json

namespace ExtendsTree

/-- The fields of the config at a path, if there is one that can be read. -/
def fieldsAt? (host : Host) (path : String) : Option Object :=
  (host.read path).bind fun text => (Commented.parseObject text.toList).toOption

theorem fieldsAt?_eq_some_iff {host : Host} {path : String} {fields : Object} :
    fieldsAt? host path = some fields ↔
      ∃ text, host.read path = some text ∧ Commented.parseObject text.toList = .ok fields := by
  rw [fieldsAt?, Option.bind_eq_some_iff]
  refine exists_congr fun text => and_congr_right fun _ => ?_
  cases Commented.parseObject text.toList <;> simp [Except.toOption]

theorem readConfig_eq_ok_iff {host : Host} {path name : String} {file : ConfigFile}
    {specifiers : List String} :
    readConfig host path name = .ok (file, specifiers) ↔ ∃ fields,
      fieldsAt? host path = some fields ∧ file = ⟨path, name, fields⟩ ∧
      file.bases = .ok specifiers := by
  constructor
  · intro h
    unfold readConfig at h
    split at h
    · cases h
    · rename_i text htext
      split at h
      · cases h
      · cases h
      · rename_i fields hfields
        obtain ⟨bases, hbases, hpair⟩ := bind_eq_ok_iff.mp h
        cases hpair
        exact ⟨fields, fieldsAt?_eq_some_iff.mpr ⟨text, htext, hfields⟩, rfl, hbases⟩
  · rintro ⟨fields, hfields, rfl, hbases⟩
    obtain ⟨text, htext, hparse⟩ := fieldsAt?_eq_some_iff.mp hfields
    simp only [readConfig, htext, hparse]
    exact bind_eq_ok_iff.mpr ⟨specifiers, hbases, rfl⟩

theorem readConfig_eq_ok {host : Host} {path name : String} {file : ConfigFile}
    {specifiers : List String} (h : readConfig host path name = .ok (file, specifiers)) :
    file.path = path ∧ file.name = name ∧ file.bases = .ok specifiers := by
  obtain ⟨_, -, rfl, hbases⟩ := readConfig_eq_ok_iff.mp h
  exact ⟨rfl, rfl, hbases⟩

/-- The tree that one specifier of a config in `dir` leads to. -/
def branch (host : Host) (stack : List String) (dir specifier : String) : ExtendsTree :=
  match (lookup host dir specifier).found with
  | none => .missing
  | some base => build host stack base base

theorem branch_eq_missing {host : Host} {stack : List String} {dir specifier : String}
    (h : (lookup host dir specifier).found = none) :
    branch host stack dir specifier = .missing := by
  delta branch
  split
  · rfl
  · rename_i heq
    rw [h] at heq
    cases heq

theorem branch_eq_build {host : Host} {stack : List String} {dir specifier base : String}
    (h : (lookup host dir specifier).found = some base) :
    branch host stack dir specifier = build host stack base base := by
  delta branch
  split
  · rename_i heq
    rw [h] at heq
    cases heq
  · rename_i heq
    rw [h] at heq
    cases heq
    rfl

theorem build_eq_circular {host : Host} {stack : List String} {path name : String}
    (hs : path ∈ stack) :
    build host stack path name = .faulty ⟨name, .circular (cycle stack path)⟩ := by
  rw [build, dif_pos hs]

theorem build_eq_faulty {host : Host} {stack : List String} {path name : String}
    {fault : ConfigFault} (hs : path ∉ stack) (h : readConfig host path name = .error fault) :
    build host stack path name = .faulty ⟨name, fault⟩ := by
  rw [build, dif_neg hs]
  split
  · rename_i heq
    rw [h] at heq
    cases heq
    rfl
  · rename_i heq
    rw [h] at heq
    cases heq

theorem build_eq_config {host : Host} {stack : List String} {path name : String}
    {file : ConfigFile} {specifiers : List String} (hs : path ∉ stack)
    (h : readConfig host path name = .ok (file, specifiers)) :
    build host stack path name =
      .config file (specifiers.map (branch host (path :: stack) file.dir)) := by
  rw [build, dif_neg hs]
  split
  · rename_i heq
    rw [h] at heq
    cases heq
  · rename_i heq
    rw [h] at heq
    cases heq
    rfl

theorem layer_config_eq_ok {file : ConfigFile} {bases : List ExtendsTree} {layer : Layer}
    (h : (config file bases).layer = .ok layer) :
    ∃ below own, layerOn {} bases = .ok below ∧ file.layer = .ok own ∧
      (∃ references, file.references = .ok references) ∧ layer = below.overlay own := by
  obtain ⟨below, hbelow, h⟩ := bind_eq_ok_iff.mp h
  cases hown : file.layer with
  | error fault => simp [hown] at h
  | ok own =>
    cases hreferences : file.references with
    | error fault => simp [hown, hreferences] at h
    | ok references =>
      simp only [hown, hreferences] at h
      cases h
      exact ⟨below, own, hbelow, rfl, ⟨references, rfl⟩, rfl⟩

theorem layer_config_of_ok {file : ConfigFile} {bases : List ExtendsTree} {below own : Layer}
    {references : List ProjectReference} (hbelow : layerOn {} bases = .ok below)
    (hown : file.layer = .ok own) (hreferences : file.references = .ok references) :
    (config file bases).layer = .ok (below.overlay own) := by
  refine bind_eq_ok_iff.mpr ⟨below, hbelow, ?_⟩
  simp only [hown, hreferences]
  rfl

/-- An error comes from the trees of the bases, or it is the first fault in the declarations of the
config itself. -/
theorem layer_config_eq_error_iff {file : ConfigFile} {bases : List ExtendsTree}
    {error : ConfigError} :
    (config file bases).layer = .error error ↔
      layerOn {} bases = .error error ∨
      ∃ below fault, layerOn {} bases = .ok below ∧ error = ⟨file.name, fault⟩ ∧
        (file.layer = .error fault ∨ ∃ own, file.layer = .ok own ∧ file.references = .error fault) := by
  rw [layer, bind_eq_error_iff]
  refine or_congr_right (exists_congr fun below => ?_)
  cases hown : file.layer with
  | error fault => simp [eq_comm]
  | ok own =>
    cases hreferences : file.references with
    | error fault => simp [eq_comm]
    | ok references => simp [pure, Except.pure]

theorem layer_config_eq_error {file : ConfigFile} {bases : List ExtendsTree} {error : ConfigError}
    (h : (config file bases).layer = .error error) :
    layerOn {} bases = .error error ∨
      file.layer = .error error.fault ∨ file.references = .error error.fault := by
  rcases layer_config_eq_error_iff.mp h with hbelow | ⟨_, _, -, rfl, hown | ⟨_, -, hreferences⟩⟩
  · exact .inl hbelow
  · exact .inr (.inl hown)
  · exact .inr (.inr hreferences)

theorem exists_ok_of_mem_layerOn {below layer : Layer} {trees : List ExtendsTree}
    {tree : ExtendsTree} (h : layerOn below trees = .ok layer) (hmem : tree ∈ trees) :
    ∃ own, tree.layer = .ok own := by
  induction trees generalizing below with
  | nil => cases hmem
  | cons first rest ih =>
    obtain ⟨own, hfirst, hrest⟩ := bind_eq_ok_iff.mp h
    rcases List.mem_cons.mp hmem with rfl | hmem
    · exact ⟨own, hfirst⟩
    · exact ih hrest hmem

theorem exists_error_of_layerOn {below : Layer} {trees : List ExtendsTree} {error : ConfigError}
    (h : layerOn below trees = .error error) : ∃ tree ∈ trees, tree.layer = .error error := by
  induction trees generalizing below with
  | nil => cases h
  | cons first rest ih =>
    rcases bind_eq_error_iff.mp h with hfirst | ⟨own, -, hrest⟩
    · exact ⟨first, List.mem_cons_self, hfirst⟩
    · obtain ⟨tree, hmem, htree⟩ := ih hrest
      exact ⟨tree, List.mem_cons_of_mem _ hmem, htree⟩

end ExtendsTree
end Tsconfig
