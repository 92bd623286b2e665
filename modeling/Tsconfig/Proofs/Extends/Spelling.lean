import Tsconfig.Host.Memory
import Tsconfig.Proofs.FlatOverlay

/-! The name that a config is asked for by goes into messages and into one option. Nothing else
depends on it: names of one path lead to the same result or to the same fault. -/
namespace Tsconfig
open ExtendsTree

/-- The same fault, found in the same config. Its name differs only where it is the config that was
asked for by `config` and by `other`. -/
structure ConfigError.Corresponds (config other : String) (error error' : ConfigError) : Prop where
  fault : error'.fault = error.fault
  name : error'.config = error.config ∨ error.config = config ∧ error'.config = other

theorem ConfigError.Corresponds.kind {config other : String} {error error' : ConfigError}
    (h : error.Corresponds config other error') : error'.kind = error.kind :=
  congrArg ConfigFault.kind h.fault

namespace ExtendsTree
variable {host : Host} {stack : List String} {path name other : String}

/-- The tree with another name for the config at its top. -/
def renamed (name : String) : ExtendsTree → ExtendsTree
  | missing => missing
  | faulty error => faulty ⟨name, error.fault⟩
  | config file bases => config { file with name := name } bases

theorem readConfig_rename_ok {file : ConfigFile} {specifiers : List String}
    (h : readConfig host path name = .ok (file, specifiers)) (other : String) :
    readConfig host path other = .ok ({ file with name := other }, specifiers) := by
  obtain ⟨fields, hfields, rfl, hbases⟩ := readConfig_eq_ok_iff.mp h
  exact readConfig_eq_ok_iff.mpr ⟨fields, hfields, rfl, hbases⟩

theorem readConfig_rename_error {fault : ConfigFault}
    (h : readConfig host path name = .error fault) (other : String) :
    readConfig host path other = .error fault := by
  unfold readConfig at h ⊢
  cases hread : host.read path with
  | none => simpa only [hread] using h
  | some text =>
    simp only [hread] at h ⊢
    split at h
    · exact h
    · exact h
    · rcases bind_eq_error_iff.mp h with hbases | ⟨specifiers, -, hpair⟩
      · exact bind_eq_error_iff.mpr (.inl hbases)
      · cases hpair

theorem build_rename (host : Host) (stack : List String) (path name other : String) :
    build host stack path other = (build host stack path name).renamed other := by
  by_cases hs : path ∈ stack
  · rw [build_eq_circular hs, build_eq_circular hs]
    rfl
  · cases hread : readConfig host path name with
    | error fault =>
      rw [build_eq_faulty hs hread, build_eq_faulty hs (readConfig_rename_error hread other)]
      rfl
    | ok read =>
      obtain ⟨file, specifiers⟩ := read
      rw [build_eq_config hs hread, build_eq_config hs (readConfig_rename_ok hread other)]
      rfl

/-- A name takes no part in the declarations of its config. -/
theorem layer_renamed_of_ok {tree : ExtendsTree} {layer : Layer} (h : tree.layer = .ok layer) :
    (tree.renamed other).layer = .ok layer := by
  cases tree with
  | missing => exact h
  | faulty error => cases h
  | config file bases =>
    obtain ⟨below, own, hbelow, hown, ⟨references, hreferences⟩, rfl⟩ := layer_config_eq_ok h
    exact layer_config_of_ok hbelow hown hreferences

theorem exists_layer_build_rename {error : ConfigError}
    (h : (build host stack path name).layer = .error error) (other : String) :
    ∃ error', (build host stack path other).layer = .error error' ∧
      error.Corresponds name other error' := by
  by_cases hs : path ∈ stack
  · rw [build_eq_circular hs] at h ⊢
    cases h
    exact ⟨_, rfl, rfl, .inr ⟨rfl, rfl⟩⟩
  cases hread : readConfig host path name with
  | error fault =>
    rw [build_eq_faulty hs hread] at h
    rw [build_eq_faulty hs (readConfig_rename_error hread other)]
    cases h
    exact ⟨_, rfl, rfl, .inr ⟨rfl, rfl⟩⟩
  | ok read =>
    obtain ⟨file, specifiers⟩ := read
    have hname := (readConfig_eq_ok hread).2.1
    rw [build_eq_config hs hread] at h
    rw [build_eq_config hs (readConfig_rename_ok hread other)]
    rcases layer_config_eq_error_iff.mp h with hbelow | ⟨below, fault, hbelow, rfl, hown⟩
    · exact ⟨error, layer_config_eq_error_iff.mpr (.inl hbelow), rfl, .inl rfl⟩
    · exact ⟨⟨other, fault⟩, layer_config_eq_error_iff.mpr (.inr ⟨below, fault, hbelow, rfl, hown⟩),
        rfl, .inr ⟨hname, rfl⟩⟩

theorem references_renamed (tree : ExtendsTree) :
    (tree.renamed other).references = tree.references := by
  cases tree <;> rfl

theorem hasMissing_renamed (tree : ExtendsTree) :
    (tree.renamed other).hasMissing = tree.hasMissing := by
  cases tree <;> rfl

theorem isEmpty_renamed (tree : ExtendsTree) : (tree.renamed other).isEmpty = tree.isEmpty := by
  cases tree with
  | config file bases => cases bases <;> rfl
  | _ => rfl

end ExtendsTree

namespace Layer

theorem effectiveOptions_rename (layer : Layer) (config other : String) :
    layer.effectiveOptions other = (layer.effectiveOptions config).insert "configFilePath"
      (.str (Path.slashed other)) := by
  rw [effectiveOptions, effectiveOptions, OrderedMap.insert_comm (by decide) _ _
    (OrderedMap.mem_keys_insert.mpr (.inl rfl)), OrderedMap.insert_insert]

/-- The search for files does not look at the option that holds the name. -/
theorem request_effectiveOptions (layer : Layer) (dir config other : String) :
    layer.request dir (layer.effectiveOptions other) =
      layer.request dir (layer.effectiveOptions config) := by
  rw [effectiveOptions_rename layer config other]
  simp [request, CompilerOptions.text?, CompilerOptions.allowsJs, CompilerOptions.flag]

end Layer

namespace ResolvedConfig
variable {host : Host} {config other : String}

theorem resolve_eq_error_iff {error : ConfigError} :
    resolve host config = .error error ↔
      (treeOf host config).layer = .error error ∨
      ∃ layer fault, (treeOf host config).layer = .ok layer ∧ error = ⟨config, fault⟩ ∧
        ((treeOf host config).isEmpty = true ∧ fault = .noFiles ∨
          (treeOf host config).isEmpty = false ∧ discovered host config layer = .error fault) := by
  rw [resolve, bind_eq_error_iff]
  refine or_congr_right (exists_congr fun layer => ?_)
  cases (treeOf host config).isEmpty with
  | true => simp [eq_comm]
  | false =>
    cases hfound : discovered host config layer with
    | error fault => simp [eq_comm]
    | ok found => simp [pure, Except.pure]

theorem treeOf_rename (h : pathOf host config = pathOf host other) :
    treeOf host other = (treeOf host config).renamed other := by
  rw [treeOf, treeOf, ← h]
  exact build_rename ..

theorem discovered_rename (h : pathOf host config = pathOf host other) (layer : Layer) :
    discovered host other layer = discovered host config layer := by
  rw [discovered, discovered, ← h, layer.request_effectiveOptions _ config other]

theorem resolve_rename_of_ok (h : pathOf host config = pathOf host other) {resolved : ResolvedConfig}
    (hresolve : resolve host config = .ok resolved) :
    resolve host other = .ok { resolved with
      options := resolved.options.insert "configFilePath" (.str (Path.slashed other)) } := by
  obtain ⟨layer, found, hlayer, hempty, hfound, rfl⟩ := resolve_eq_ok_iff.mp hresolve
  refine resolve_eq_ok_iff.mpr ⟨layer, found, ?_, ?_, ?_, ?_⟩
  · rw [treeOf_rename h]
    exact layer_renamed_of_ok hlayer
  · rw [treeOf_rename h, isEmpty_renamed, hempty]
  · rw [discovered_rename h, hfound]
  · rw [treeOf_rename h, references_renamed, hasMissing_renamed,
      layer.effectiveOptions_rename config other]

theorem exists_resolve_rename_error (h : pathOf host config = pathOf host other)
    {error : ConfigError} (hresolve : resolve host config = .error error) :
    ∃ error', resolve host other = .error error' ∧ error.Corresponds config other error' := by
  rcases resolve_eq_error_iff.mp hresolve with hlayer | ⟨layer, fault, hlayer, rfl, hfault⟩
  · obtain ⟨error', hlayer', hsame⟩ := exists_layer_build_rename hlayer other
    rw [h] at hlayer'
    exact ⟨error', resolve_eq_error_iff.mpr (.inl hlayer'), hsame⟩
  · refine ⟨⟨other, fault⟩, resolve_eq_error_iff.mpr (.inr ⟨layer, fault, ?_, rfl, ?_⟩),
      rfl, .inr ⟨rfl, rfl⟩⟩
    · rw [treeOf_rename h]
      exact layer_renamed_of_ok hlayer
    · rwa [treeOf_rename h, isEmpty_renamed, discovered_rename h]

/-- Two names of one path: the config resolves under both or under neither. The results differ in the
option that holds the name, and errors in the name of the config itself. -/
theorem resolve_of_samePath (h : pathOf host config = pathOf host other) :
    ((∃ resolved, resolve host config = .ok resolved) ↔
      ∃ resolved, resolve host other = .ok resolved) ∧
    (∀ resolved, resolve host config = .ok resolved →
      resolved.options.get? "configFilePath" = some (.str (Path.slashed config)) ∧
      resolve host other = .ok { resolved with
        options := resolved.options.insert "configFilePath" (.str (Path.slashed other)) }) ∧
    ∀ error, resolve host config = .error error →
      ∃ error', resolve host other = .error error' ∧ error'.kind = error.kind ∧
        error.Corresponds config other error' := by
  refine ⟨⟨fun ⟨_, hresolve⟩ => ⟨_, resolve_rename_of_ok h hresolve⟩,
    fun ⟨_, hresolve⟩ => ⟨_, resolve_rename_of_ok h.symm hresolve⟩⟩, ?_, ?_⟩
  · intro resolved hresolve
    refine ⟨?_, resolve_rename_of_ok h hresolve⟩
    obtain ⟨layer, -, hoptions, -⟩ := resolve_eq_ok hresolve
    rw [hoptions, Layer.effectiveOptions, OrderedMap.get?_insert, if_neg (by decide),
      OrderedMap.get?_insert, if_pos rfl]
  · intro error hresolve
    obtain ⟨error', hother, hsame⟩ := exists_resolve_rename_error h hresolve
    exact ⟨error', hother, hsame.kind, hsame⟩

private def spelled : Host :=
  ((Memory.ofFiles [("/p/t.json", "\x7b\"files\": [\"a.ts\"]\x7d")]).changeDir "/p").host

private theorem treeOf_spelled : treeOf spelled "t.json" =
    .config ⟨"/p/t.json", "t.json", [("files", .arr [.str "a.ts"])]⟩ [] := by
  have hpath : pathOf spelled "t.json" = "/p/t.json" := by decide +kernel
  have hread : readConfig spelled "/p/t.json" "t.json" =
    .ok (⟨"/p/t.json", "t.json", [("files", .arr [.str "a.ts"])]⟩, []) := by cbv
  rw [treeOf, hpath, build_eq_config List.not_mem_nil hread, List.map_nil]

theorem resolve_of_samePath_spelled :
    pathOf spelled "t.json" = pathOf spelled ".\\q\\../t.json" ∧
    ∃ resolved, resolve spelled "t.json" = .ok resolved ∧
      resolve spelled ".\\q\\../t.json" = .ok { resolved with
        options := resolved.options.insert "configFilePath" (.str "./q/../t.json") } := by
  have hpath : pathOf spelled "t.json" = pathOf spelled ".\\q\\../t.json" := by decide +kernel
  have hresolves : (resolve spelled "t.json").isOk = true := by
    rw [resolve, treeOf_spelled]
    cbv
  obtain ⟨resolved, hresolved⟩ := exists_of_isOk hresolves
  obtain ⟨-, hresults, -⟩ := resolve_of_samePath hpath
  have hslashed : Path.slashed ".\\q\\../t.json" = "./q/../t.json" := by decide +kernel
  rw [hslashed] at hresults
  exact ⟨hpath, resolved, hresolved, (hresults resolved hresolved).2⟩

end ResolvedConfig
end Tsconfig
