import Tsconfig.Project
import Tsconfig.Proofs.Walk.BreadthFirst

/-! A project is the closure of the configs that are asked for under references: each is resolved
once, and those that cannot be are skipped, or end the whole if they were asked for. -/
namespace Tsconfig.Project

/-- What each config of a project leads to. -/
def targets (host : Host) (project : Project) : List (List String) :=
  project.configs.map fun entry => ResolvedConfig.targets host (.ok entry.2)

section Outcomes
variable {host : Host} {configs names : List String} {path : String}

/-- The configs that the walk comes by, in order. -/
def met (host : Host) (configs : List String) : List String :=
  ((ResolvedConfig.web host).reach (requested host configs)).map Prod.fst

/-- What is picked from the outcomes of some configs, by the paths of the configs. -/
def entries {β : Type} (select : ResolvedConfig.Outcome → Option β) (host : Host)
    (names : List String) : List (String × β) :=
  names.filterMap fun name => (select (ResolvedConfig.resolve host name)).map (name, ·)

def resolved (host : Host) (names : List String) : List (String × ResolvedConfig) :=
  entries Except.toOption host names

theorem mem_leads {other : String} :
    other ∈ (ResolvedConfig.web host).leads path ↔
      ∃ config, ResolvedConfig.resolve host path = .ok config ∧
        ∃ reference ∈ config.references, ProjectReference.target host reference.path = other := by
  change other ∈ ResolvedConfig.targets host (ResolvedConfig.resolve host path) ↔ _
  cases hresolve : ResolvedConfig.resolve host path with
  | error error => simp [ResolvedConfig.targets]
  | ok config => simp [ResolvedConfig.targets, ResolvedConfig.referencePaths]

end Outcomes

section Collect
variable {host : Host} {configs : List String}

variable (h : ∀ path ∈ requested host configs, (ResolvedConfig.resolve host path).isOk = true)
include h

end Collect

end Tsconfig.Project
