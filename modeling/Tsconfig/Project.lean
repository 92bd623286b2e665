import Tsconfig.Program.Basic

/-!
Projects of several configs: those that are asked for and those they refer to, directly or through
others. Files are assigned to the first config that has them as roots.
-/
namespace Tsconfig
open Json

namespace ExtendsTree

/-- The references that the config at a path declares. -/
def referencesAt (host : Host) (path : String) : List ProjectReference :=
  match readConfig host path path with
  | .ok (file, _) => file.references.toOption.getD []
  | .error _ => []

/-- The name of a config is nothing to its fields. -/
theorem readConfig_name {host : Host} {path name : String} {file : ConfigFile}
    {specifiers : List String} (h : readConfig host path name = .ok (file, specifiers)) :
    readConfig host path path = .ok ({ file with name := path }, specifiers) := by
  unfold readConfig at h ⊢
  split at h
  · simp at h
  · split at h
    · simp at h
    · simp at h
    · rename_i fields _
      cases hb : ConfigFile.bases ⟨path, name, fields⟩ with
      | error fault => simp [hb, bind, Except.bind] at h
      | ok specifiers' =>
        simp only [hb, bind, Except.bind, pure, Except.pure, Except.ok.injEq, Prod.mk.injEq] at h
        obtain ⟨rfl, rfl⟩ := h
        have hb' : ConfigFile.bases ⟨path, path, fields⟩ = .ok specifiers' := hb
        simp [hb', bind, Except.bind, pure, Except.pure]

theorem references_build {host : Host} {stack : List String} {path name : String}
    {reference : ProjectReference} (h : reference ∈ (build host stack path name).references) :
    reference ∈ referencesAt host path ∧ path ∈ host.spellings := by
  rw [build] at h
  split at h
  · simp [references] at h
  · split at h
    · simp [references] at h
    · rename_i file specifiers hr
      refine ⟨?_, Host.mem_spellings_of_read (isSome_read_of_readConfig hr)⟩
      simp only [referencesAt, readConfig_name hr]
      exact h

end ExtendsTree

namespace ResolvedConfig

/-- What comes of resolving a config: the config or an error. -/
abbrev Outcome := Except ConfigError ResolvedConfig

/-- The configs that a resolved config leads to. -/
def targets (host : Host) : Outcome → List String
  | .ok config => config.referencePaths.map (ProjectReference.target host)
  | .error _ => []

theorem references_resolve {host : Host} {name : String} {config : ResolvedConfig}
    (h : resolve host name = .ok config) : config.references = (treeOf host name).references := by
  unfold resolve at h
  cases hl : (treeOf host name).layer with
  | error error => simp [hl, bind, Except.bind] at h
  | ok layer =>
    simp only [hl, bind, Except.bind] at h
    split at h
    · simp at h
    · split at h
      · simp at h
      · simp only [pure, Except.pure, Except.ok.injEq] at h
        rw [← h]

/-- Configs with the configs they refer to. -/
def web (host : Host) : Web Outcome where
  read := resolve host
  next := targets host
  finite := by
    refine ⟨host.spellings.flatMap fun path =>
      (ExtendsTree.referencesAt host path).map fun reference =>
        ProjectReference.target host reference.path, fun name path h => ?_⟩
    cases hr : resolve host name with
    | error error => simp [hr, targets] at h
    | ok config =>
      simp only [hr, targets, referencePaths, references_resolve hr, List.map_map, List.mem_map,
        treeOf] at h
      obtain ⟨reference, hm, rfl⟩ := h
      have := ExtendsTree.references_build hm
      exact List.mem_flatMap.2 ⟨_, this.2, List.mem_map.2 ⟨reference, this.1, rfl⟩⟩

end ResolvedConfig

/-- Configs by path, in the order in which they came up. -/
structure Project where
  configs : List (String × ResolvedConfig)
  /-- Configs that others refer to and that cannot be resolved. -/
  skipped : List (String × ConfigError)

namespace Project

/-- The configs that are asked for by `configs`, by path. -/
def requested (host : Host) (configs : List String) : List String :=
  configs.map (Path.resolve host.cwd)

/-- The error in an outcome, under the name of its config. -/
def errorOf? (outcome : String × ResolvedConfig.Outcome) : Option (String × ConfigError) :=
  match outcome.2 with
  | .ok _ => none
  | .error error => some (outcome.1, error)

/-- The configs that are asked for and what they refer to. An error of one that is asked for is an
error of the whole; others with errors are skipped. -/
def collect (host : Host) (configs : List String) : Except ConfigError Project :=
  let requested := requested host configs
  let outcomes := (ResolvedConfig.web host).reach requested
  let errors := outcomes.filterMap errorOf?
  match errors.find? fun error => error.1 ∈ requested with
  | some error => .error error.2
  | none => .ok {
      configs := outcomes.filterMap fun outcome => outcome.2.toOption.map (outcome.1, ·)
      skipped := errors }

/-- The first config that has a file as a root. -/
def owner? (project : Project) (file : String) : Option String :=
  (project.configs.find? fun config => file ∈ config.2.roots).map Prod.fst

/-- Files by the config that they belong to. -/
structure Grouping where
  /-- An entry for each config, even without files. -/
  groups : List (String × List String)
  unmatched : List String
  deriving DecidableEq, Repr

/-- Each file goes to the first config that has it as a root. -/
def group (project : Project) (files : List String) : Grouping :=
  let files := files.map Path.slashed
  { groups := project.configs.map fun config =>
      (config.1, files.filter fun file => project.owner? file = some config.1)
    unmatched := files.filter fun file => project.owner? file = none }

end Project
end Tsconfig
