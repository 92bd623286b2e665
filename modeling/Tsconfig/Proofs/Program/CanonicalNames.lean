import Tsconfig.Proofs.CompilerOptions.Declared
import Tsconfig.Proofs.Module.Spliced
import Tsconfig.Proofs.Program.Closure

/-! A program names each file of the host in one way only, the normal one, unless a backslash gets
into a path as it is. -/
namespace Tsconfig
open Json Source Tsconfig.Path

/-- In the options of a config that has been resolved, all paths that modules are looked for under
are written with slashes. -/
theorem Resolver.hasSlashedPaths_ofOptions {host : Host} {config : String}
    {resolved : ResolvedConfig} (h : ResolvedConfig.resolve host config = .ok resolved) :
    (ofOptions resolved.options).HasSlashedPaths where
  roots := by
    intro roots hroots root hroot
    obtain ⟨items, hitems, rfl⟩ := Option.map_eq_some_iff.mp hroots
    obtain ⟨value, hget, harr⟩ := Option.bind_eq_some_iff.mp hitems
    obtain ⟨item, hitem, hstr⟩ := List.mem_filterMap.mp hroot
    cases value <;> cases harr
    cases item <;> cases hstr
    exact ResolvedConfig.isSlashed_of_mem_typeRoots h hget hitem
  targets := fun _ hmapping _ htarget => PathMapping.isSlashed_of_mem_pathMappings hmapping htarget

namespace SourceFile

/-- The references in the text of a file. Data files have none. -/
def references (file : SourceFile) : List ModuleReference :=
  if file.kind = .json then [] else ModuleReference.all (scanned file.kind file.text).1

theorem references_of_load? {host : Host} {resolver : Resolver} {name text : String}
    {file : SourceFile} (h : load? host resolver .lexical name = some file)
    (hread : host.read name = some text) :
    file.references = if Kind.ofPath name = .json then []
      else ModuleReference.all (scanned (Kind.ofPath name) text).1 := by
  obtain ⟨read, hsome, rfl⟩ := Option.map_eq_some_iff.mp h
  obtain rfl : text = read := Option.some.inj (hread.symm.trans hsome)
  rw [references]

theorem mem_imports_iff {host : Host} {resolver : Resolver} {name path : String} {file : SourceFile}
    (h : load? host resolver .lexical name = some file) :
    path ∈ file.imports ↔
      ∃ reference ∈ file.references, resolver.resolve? host file.name reference = some path := by
  obtain ⟨text, -, rfl⟩ := Option.map_eq_some_iff.mp h
  simp only [importsOf, references]
  split
  · simp
  · rw [mem_distinct, List.mem_filterMap]
    rfl

end SourceFile

namespace Program

/-- The names of the files of a program, and those that their imports go by. -/
def names (program : Program) : List String :=
  program.fileNames ++ program.files.flatMap (·.imports)

/-- No reference of the program takes a backslash into a path as it is. -/
def SplicesSlashes (host : Host) (program : Program) : Prop :=
  ∀ file ∈ program.files, ∀ reference ∈ file.references,
    ∀ text ∈ (Resolver.ofOptions program.options).spliced host (Path.parent file.name) reference,
      IsSlashed text

/-- How the names of a program relate to the keys of the memory it was built from. -/
structure CanonicalNames (memory : Memory) (program : Program) : Prop where
  keys : ∀ name ∈ program.names, slashed name ∈ memory.paths
  normal_iff : ∀ name ∈ program.names, IsNormal name ↔ IsSlashed name
  /-- Where a name that is not normal comes from. -/
  spliced : ∀ file ∈ program.files, ∀ name ∈ file.imports, ¬IsNormal name →
    ∃ reference ∈ file.references,
      (Resolver.ofOptions program.options).resolve? memory.host file.name reference = some name ∧
      ∃ text ∈ (Resolver.ofOptions program.options).spliced memory.host (Path.parent file.name)
        reference, ¬IsSlashed text
  normal : program.SplicesSlashes memory.host → ∀ name ∈ program.names, IsNormal name
  /-- No file of the memory appears twice. -/
  unique : program.SplicesSlashes memory.host → ∀ first ∈ program.files, ∀ second ∈ program.files,
    slashed first.name = slashed second.name → first = second

section Build
variable {memory : Memory} {config : ResolvedConfig}

private theorem importClosure_memory (memory : Memory) (config : ResolvedConfig) :
    ImportClosure memory.host config (build memory.host .lexical config) :=
  build_importClosure (fun _ hfile => memory.isSome_read_of_isFile hfile) config

private theorem mem_fileNames_of_mem_names {name : String}
    (h : name ∈ (build memory.host .lexical config).names) :
    name ∈ (build memory.host .lexical config).fileNames := by
  rcases List.mem_append.mp h with hfile | himport
  · exact hfile
  · obtain ⟨file, hfile, hname⟩ := List.mem_flatMap.mp himport
    exact (importClosure_memory memory config).closed file hfile name hname

private theorem mem_names_of_mem_imports {file : SourceFile} {name : String}
    (hfile : file ∈ (build memory.host .lexical config).files) (hname : name ∈ file.imports) :
    name ∈ (build memory.host .lexical config).names :=
  List.mem_append_right _ (List.mem_flatMap.mpr ⟨file, hfile, hname⟩)

private theorem slashed_mem_paths {name : String}
    (h : name ∈ (build memory.host .lexical config).names) : slashed name ∈ memory.paths := by
  obtain ⟨file, hfile, rfl⟩ := List.mem_map.mp (mem_fileNames_of_mem_names h)
  have hload := (importClosure_memory memory config).loaded file hfile
  refine Memory.mem_paths_of_read ?_
  change (memory.host.read file.name).isSome
  rw [← SourceFile.isSome_load?, hload, Option.isSome_some]

private theorem exists_spliced_of_not_isSlashed {file : SourceFile} {name : String}
    (hpaths : (Resolver.ofOptions config.options).HasSlashedPaths)
    (hfile : file ∈ (build memory.host .lexical config).files) (hname : name ∈ file.imports)
    (hnot : ¬IsSlashed name) :
    ∃ reference ∈ file.references,
      (Resolver.ofOptions config.options).resolve? memory.host file.name reference = some name ∧
      ∃ text ∈ (Resolver.ofOptions config.options).spliced memory.host (Path.parent file.name)
        reference, ¬IsSlashed text := by
  have hload := (importClosure_memory memory config).loaded file hfile
  obtain ⟨reference, hreference, hresolve⟩ := (SourceFile.mem_imports_iff hload).mp hname
  refine ⟨reference, hreference, hresolve, ?_⟩
  by_contra hall
  push Not at hall
  exact hnot (Resolver.isSlashed_of_resolve? hpaths hall hresolve)

-- The names are closed under imports, so what roots and imports have in common goes for all.
private theorem isSlashed_of_mem_names
    (hpaths : (Resolver.ofOptions config.options).HasSlashedPaths)
    (hroots : ∀ root ∈ config.roots, IsSlashed root)
    (hslashes : (build memory.host .lexical config).SplicesSlashes memory.host) {name : String}
    (h : name ∈ (build memory.host .lexical config).names) : IsSlashed name := by
  refine (importClosure_memory memory config).least IsSlashed
    (fun root hroot _ => hroots root hroot) ?_ name (mem_fileNames_of_mem_names h)
  intro file hfile _ imported himported
  by_contra hnot
  obtain ⟨reference, hreference, -, text, htext, hbackslash⟩ :=
    exists_spliced_of_not_isSlashed hpaths hfile himported hnot
  exact hbackslash (hslashes file hfile reference hreference text htext)

/-- From normal keys, normal roots and the options of a resolved config. -/
theorem canonicalNames_build {host : Host} {path : String} {resolved : ResolvedConfig}
    (hkeys : ∀ key ∈ memory.paths, IsNormal key) (hroots : ∀ root ∈ config.roots, IsNormal root)
    (hresolved : ResolvedConfig.resolve host path = .ok resolved)
    (hoptions : config.options = resolved.options) :
    CanonicalNames memory (build memory.host .lexical config) := by
  have hpaths : (Resolver.ofOptions config.options).HasSlashedPaths :=
    hoptions ▸ Resolver.hasSlashedPaths_ofOptions hresolved
  have hiff : ∀ name ∈ (build memory.host .lexical config).names, IsNormal name ↔ IsSlashed name :=
    fun name hname => isNormal_iff_isSlashed (hkeys _ (slashed_mem_paths hname))
  have hslashed (hslashes : (build memory.host .lexical config).SplicesSlashes memory.host) :
      ∀ name ∈ (build memory.host .lexical config).names, IsSlashed name :=
    fun name => isSlashed_of_mem_names hpaths (fun root hroot => (hroots root hroot).2.1) hslashes
  constructor
  · exact fun name hname => slashed_mem_paths hname
  · exact hiff
  · intro file hfile name hname hnot
    rw [hiff name (mem_names_of_mem_imports hfile hname)] at hnot
    exact exists_spliced_of_not_isSlashed hpaths hfile hname hnot
  · exact fun hslashes name hname => (hiff name hname).mpr (hslashed hslashes name hname)
  · intro hslashes first hfirst second hsecond heq
    have hname : ∀ file ∈ (build memory.host .lexical config).files,
        slashed file.name = file.name := fun file hfile => IsSlashed.slashed_eq
      (hslashed hslashes file.name (List.mem_append_left _ (List.mem_map_of_mem hfile)))
    rw [hname first hfirst, hname second hsecond] at heq
    have hload := (importClosure_memory memory config).loaded first hfirst
    rw [heq, (importClosure_memory memory config).loaded second hsecond] at hload
    exact (Option.some.inj hload).symm

end Build

section Manifest

private def packaged (entry : String) : Memory := Memory.ofFiles [
  ("/p/tsconfig.json", "\x7b\"files\": [\"a.ts\"]\x7d"),
  ("/p/a.ts", "import 'pkg'; import 'pkg/lib/index';"),
  ("/p/node_modules/pkg/package.json", "\x7b\"types\": \"" ++ entry ++ "\"\x7d"),
  ("/p/node_modules/pkg/lib/index.d.ts", "")]

private def packagedFile : ConfigFile :=
  ⟨"/p/tsconfig.json", "/p/tsconfig.json", [("files", .arr [.str "a.ts"])]⟩

private def packagedConfig : ResolvedConfig where
  options := Layer.effectiveOptions {} "/p/tsconfig.json"
  roots := ["/p/a.ts"]
  references := []
  missingBase := false

private def packagedResolver : Resolver := ⟨false, false, none, [], none, false⟩

private theorem ofOptions_packaged :
    Resolver.ofOptions packagedConfig.options = packagedResolver := rfl

private def packagedReferences : List ModuleReference :=
  [⟨.imported, "pkg"⟩, ⟨.imported, "pkg/lib/index"⟩]

private theorem resolve_packaged (entry : String) :
    ResolvedConfig.resolve (packaged entry).host "/p/tsconfig.json" = .ok packagedConfig := by
  have hpath : ResolvedConfig.pathOf (packaged entry).host "/p/tsconfig.json" =
      "/p/tsconfig.json" := by cbv
  have hread : ExtendsTree.readConfig (packaged entry).host "/p/tsconfig.json"
      "/p/tsconfig.json" = .ok (packagedFile, []) := by cbv
  have htree : ResolvedConfig.treeOf (packaged entry).host "/p/tsconfig.json" =
      .config packagedFile [] := by
    rw [ResolvedConfig.treeOf, hpath, ExtendsTree.build_eq_config List.not_mem_nil hread]
    rfl
  rw [ResolvedConfig.resolve, htree]
  cbv

private theorem keys_packaged (entry : String) : ∀ key ∈ (packaged entry).paths, IsNormal key := by
  have hpaths : (packaged entry).paths =
      ["/p/a.ts", "/p/node_modules/pkg/lib/index.d.ts", "/p/node_modules/pkg/package.json",
        "/p/tsconfig.json"] := by cbv
  rw [hpaths]
  decide +kernel

private theorem roots_packaged : ∀ root ∈ packagedConfig.roots, IsNormal root := by
  decide +kernel

private theorem references_packaged {entry : String} {file : SourceFile}
    (h : file ∈ (build (packaged entry).host .lexical packagedConfig).files)
    (hname : file.name = "/p/a.ts") : file.references = packagedReferences := by
  have hload := (importClosure_memory (packaged entry) packagedConfig).loaded file h
  have hread : (packaged entry).host.read "/p/a.ts" =
      some "import 'pkg'; import 'pkg/lib/index';" := by cbv
  rw [SourceFile.references_of_load? hload (hname ▸ hread), hname]
  decide +kernel

private theorem references_packaged_declarations {entry : String} {file : SourceFile}
    (h : file ∈ (build (packaged entry).host .lexical packagedConfig).files)
    (hname : file.name = "/p/node_modules/pkg/lib/index.d.ts") : file.references = [] := by
  have hload := (importClosure_memory (packaged entry) packagedConfig).loaded file h
  have hread : (packaged entry).host.read "/p/node_modules/pkg/lib/index.d.ts" = some "" := by cbv
  rw [SourceFile.references_of_load? hload (hname ▸ hread), hname]
  decide +kernel

private theorem levels_packaged : Resolver.levels (Path.parent "/p/a.ts") = ["/p", "/"] := by
  have hparent : Path.parent "/p/a.ts" = "/p" := by decide +kernel
  rw [hparent, Resolver.levels, Path.ancestors_eq (by decide +kernel)]
  decide +kernel

-- The climb is taken out of the search, since it does not compute; what is left does.
private theorem resolve?_packaged (entry : String) {specifier : String}
    (hbare : Resolver.isBare specifier = true) :
    packagedResolver.resolve? (packaged entry).host "/p/a.ts" ⟨.imported, specifier⟩ =
      ["/p", "/"].findSome? (packagedResolver.packageAt? (packaged entry).host
        (Resolver.packageNames (PackageSpecifier.ofText specifier).package false)
        (PackageSpecifier.ofText specifier).subpath) := by
  rw [Resolver.resolve?_of_isBare hbare rfl rfl rfl, levels_packaged]

private theorem mem_fileNames_packaged {entry name : String} (reference : ModuleReference)
    (hreference : reference ∈ packagedReferences)
    (h : packagedResolver.resolve? (packaged entry).host "/p/a.ts" reference = some name) :
    name ∈ (build (packaged entry).host .lexical packagedConfig).fileNames := by
  have hclosure := importClosure_memory (packaged entry) packagedConfig
  have hread : ((packaged entry).host.read "/p/a.ts").isSome = true := by cbv
  obtain ⟨file, hfile, hname⟩ := List.mem_map.mp
    (hclosure.roots "/p/a.ts" List.mem_cons_self hread)
  refine hclosure.closed file hfile name
    ((SourceFile.mem_imports_iff (hclosure.loaded file hfile)).mpr ⟨reference, ?_, ?_⟩)
  · rw [references_packaged hfile hname]
    exact hreference
  · rw [ofOptions_packaged, hname]
    exact h

private theorem resolve?_packaged_slashed : ∀ reference ∈ packagedReferences,
    packagedResolver.resolve? (packaged "lib/index.d.ts").host "/p/a.ts" reference =
      some "/p/node_modules/pkg/lib/index.d.ts" := by
  refine List.forall_mem_cons.mpr ⟨?_, List.forall_mem_singleton.mpr ?_⟩
  all_goals
    rw [resolve?_packaged _ (by decide +kernel)]
    decide +kernel

private theorem spliced_packaged_slashed : ∀ reference ∈ packagedReferences,
    ∀ text ∈ packagedResolver.spliced (packaged "lib/index.d.ts").host (Path.parent "/p/a.ts")
      reference, IsSlashed text := by
  simp only [Resolver.spliced, Resolver.packagesFor, Resolver.packagesAbove, levels_packaged]
  decide +kernel

private theorem fileNames_packaged_slashed {name : String}
    (h : name ∈ (build (packaged "lib/index.d.ts").host .lexical packagedConfig).fileNames) :
    name = "/p/a.ts" ∨ name = "/p/node_modules/pkg/lib/index.d.ts" := by
  have hclosure := importClosure_memory (packaged "lib/index.d.ts") packagedConfig
  refine hclosure.least (fun name => name = "/p/a.ts" ∨ name = "/p/node_modules/pkg/lib/index.d.ts")
    (fun root hroot _ => .inl (List.mem_singleton.mp hroot)) ?_ name h
  intro file hfile hname imported himported
  obtain ⟨reference, hreference, hresolve⟩ :=
    (SourceFile.mem_imports_iff (hclosure.loaded file hfile)).mp himported
  rcases hname with hname | hname
  · rw [references_packaged hfile hname] at hreference
    rw [ofOptions_packaged, hname, resolve?_packaged_slashed reference hreference] at hresolve
    exact .inr (Option.some.inj hresolve).symm
  · rw [references_packaged_declarations hfile hname] at hreference
    cases hreference

theorem canonicalNames_build_slashed :
    "/p/node_modules/pkg/lib/index.d.ts" ∈
        (build (packaged "lib/index.d.ts").host .lexical packagedConfig).fileNames ∧
      ∀ name ∈ (build (packaged "lib/index.d.ts").host .lexical packagedConfig).names,
        IsNormal name := by
  have hmem : ⟨.imported, "pkg"⟩ ∈ packagedReferences := List.mem_cons_self
  refine ⟨mem_fileNames_packaged _ hmem (resolve?_packaged_slashed _ hmem), ?_⟩
  refine (canonicalNames_build (keys_packaged _) roots_packaged (resolve_packaged "lib/index.d.ts")
    rfl).normal ?_
  intro file hfile reference hreference
  rcases fileNames_packaged_slashed (List.mem_map_of_mem hfile) with hname | hname
  · rw [references_packaged hfile hname] at hreference
    rw [hname]
    exact spliced_packaged_slashed reference hreference
  · rw [references_packaged_declarations hfile hname] at hreference
    cases hreference

/-- A backslash in the manifest of a package gets into the name of a file, which is then there
twice. -/
theorem not_canonical_backslashed :
    (∀ key ∈ (packaged "lib\\\\index.d.ts").paths, IsNormal key) ∧
    (∀ root ∈ packagedConfig.roots, IsNormal root) ∧
    ResolvedConfig.resolve (packaged "lib\\\\index.d.ts").host "/p/tsconfig.json" =
      .ok packagedConfig ∧
    ∃ name ∈ (build (packaged "lib\\\\index.d.ts").host .lexical packagedConfig).fileNames,
      ∃ other ∈ (build (packaged "lib\\\\index.d.ts").host .lexical packagedConfig).fileNames,
        ¬IsNormal name ∧ name ≠ other ∧ slashed name = slashed other := by
  refine ⟨keys_packaged _, roots_packaged, resolve_packaged _,
    "/p/node_modules/pkg/lib\\index.d.ts", ?_, "/p/node_modules/pkg/lib/index.d.ts", ?_,
    by decide +kernel, by decide +kernel, by decide +kernel⟩
  · refine mem_fileNames_packaged ⟨.imported, "pkg"⟩ (by decide +kernel) ?_
    rw [resolve?_packaged _ (by decide +kernel)]
    decide +kernel
  · refine mem_fileNames_packaged ⟨.imported, "pkg/lib/index"⟩ (by decide +kernel) ?_
    rw [resolve?_packaged _ (by decide +kernel)]
    decide +kernel

end Manifest
end Program
end Tsconfig
