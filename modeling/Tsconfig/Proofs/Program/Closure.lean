import Tsconfig.Host.Memory
import Tsconfig.Program.Basic
import Tsconfig.Proofs.Walk.BreadthFirst

/-! A program is the closure of its readable roots under imports, and its files are in the order in
which the imports first name them. -/
namespace Tsconfig

namespace SourceFile
variable {host : Host} {resolver : Resolver} {finder : ReferenceFinder}

theorem name_of_load? {name : String} {file : SourceFile}
    (h : load? host resolver finder name = some file) : file.name = name := by
  obtain ⟨text, -, rfl⟩ := Option.map_eq_some_iff.mp h
  rfl

theorem isSome_load? (name : String) :
    (load? host resolver finder name).isSome = (host.read name).isSome := by
  rw [load?, Option.isSome_map]

theorem nodup_imports {name : String} {file : SourceFile}
    (h : load? host resolver finder name = some file) : file.imports.Nodup := by
  obtain ⟨text, -, rfl⟩ := Option.map_eq_some_iff.mp h
  simp only [importsOf]
  split
  · exact List.nodup_nil
  · exact nodup_distinct _

theorem names_filterMap_load? (names : List String) :
    (names.filterMap (load? host resolver finder)).map (·.name) =
      names.filter fun name => (host.read name).isSome := by
  induction names with
  | nil => rfl
  | cons name rest ih =>
    have hsome : (load? host resolver finder name).isSome = _ := isSome_load? name
    rw [List.filterMap_cons, List.filter_cons, ← hsome]
    cases hload : load? host resolver finder name with
    | none => exact ih
    | some file => simp [ih, name_of_load? hload]

theorem mem_leads {name other : String} :
    other ∈ (web host resolver finder).leads name ↔
      ∃ file, load? host resolver finder name = some file ∧ other ∈ file.imports := by
  change other ∈ importsOf? (load? host resolver finder name) ↔ _
  cases hload : load? host resolver finder name with
  | none => simp [importsOf?]
  | some file => simp [importsOf?]

theorem imports_filterMap_load? (names : List String) :
    (names.filterMap (load? host resolver finder)).flatMap (·.imports) =
      names.flatMap (web host resolver finder).leads := by
  induction names with
  | nil => rfl
  | cons name rest ih =>
    rw [List.filterMap_cons, List.flatMap_cons, ← ih, Web.leads]
    cases hload : load? host resolver finder name with
    | none => simp [web, hload, importsOf?]
    | some file => simp [web, hload, importsOf?]

end SourceFile

namespace Program

/-- What a program is to the roots of its config, when every file can be read. Files are what their
texts make them. `least` needs no more than the imports of the files of the program, so it also
holds of the imports of all that can be read. -/
structure ImportClosure (host : Host) (config : ResolvedConfig) (program : Program) : Prop where
  loaded : ∀ file ∈ program.files,
    SourceFile.load? host (.ofOptions config.options) .lexical file.name = some file
  nodup : program.fileNames.Nodup
  roots : ∀ root ∈ config.roots, (host.read root).isSome → root ∈ program.fileNames
  closed : ∀ file ∈ program.files, ∀ name ∈ file.imports, name ∈ program.fileNames
  least : ∀ S : String → Prop, (∀ root ∈ config.roots, (host.read root).isSome → S root) →
    (∀ file ∈ program.files, S file.name → ∀ name ∈ file.imports, S name) →
    ∀ name ∈ program.fileNames, S name
  order : ∃ imported,
    program.fileNames =
      (distinct config.roots).filter (fun root => (host.read root).isSome) ++ imported ∧
    (∀ name ∈ imported, ∃ file ∈ program.files, name ∈ file.imports) ∧
    imported.Pairwise fun a b =>
      (firstPlace (program.files.map (·.imports)) a).lexLt
        (firstPlace (program.files.map (·.imports)) b)
  importsNodup : ∀ file ∈ program.files, file.imports.Nodup
  missing : program.missingFiles =
    (distinct config.roots).filter fun root => (host.read root).isNone
  unread : program.missingFiles =
    (((SourceFile.web host (.ofOptions config.options) .lexical).reach config.roots).filter
      (·.2.isNone)).map Prod.fst
  disjoint : ∀ name ∈ program.missingFiles, name ∉ program.fileNames

section Build
variable {host : Host} {config : ResolvedConfig}

/-- The names that the walk from the roots comes by. -/
private def met (host : Host) (config : ResolvedConfig) : List String :=
  ((SourceFile.web host (.ofOptions config.options) .lexical).reach config.roots).map Prod.fst

private theorem files_build (host : Host) (config : ResolvedConfig) :
    (build host .lexical config).files =
      (met host config).filterMap (SourceFile.load? host (.ofOptions config.options) .lexical) := by
  change (((SourceFile.web host (.ofOptions config.options) .lexical).reach config.roots).filterMap
    Prod.snd) = _
  rw [Web.reach_eq, List.filterMap_map]
  rfl

private theorem fileNames_build (host : Host) (config : ResolvedConfig) :
    (build host .lexical config).fileNames =
      (met host config).filter fun name => (host.read name).isSome := by
  rw [fileNames, files_build, SourceFile.names_filterMap_load?]

private theorem load?_of_mem_files {file : SourceFile}
    (h : file ∈ (build host .lexical config).files) :
    SourceFile.load? host (.ofOptions config.options) .lexical file.name = some file := by
  rw [files_build] at h
  obtain ⟨name, -, hload⟩ := List.mem_filterMap.mp h
  rwa [SourceFile.name_of_load? hload]

private theorem flatten_imports (host : Host) (config : ResolvedConfig) :
    ((build host .lexical config).files.map (·.imports)).flatten =
      (met host config).flatMap (SourceFile.web host (.ofOptions config.options) .lexical).leads := by
  rw [← List.flatMap_def, files_build, SourceFile.imports_filterMap_load?]

/-- The walk stays among the names that satisfy `S`, those aside that cannot be read. -/
private theorem met_least {S : String → Prop}
    (hroots : ∀ root ∈ config.roots, (host.read root).isSome → S root)
    (hclosed : ∀ file ∈ (build host .lexical config).files, S file.name →
      ∀ name ∈ file.imports, S name) :
    ∀ name ∈ met host config, (host.read name).isSome → S name := by
  refine Web.reach_induction hroots fun name hname hS other hother _ => ?_
  obtain ⟨file, hload, hother⟩ := SourceFile.mem_leads.mp hother
  have hmem : file ∈ (build host .lexical config).files := by
    rw [files_build]
    exact List.mem_filterMap.mpr ⟨name, hname, hload⟩
  have hread : (host.read name).isSome := by
    rw [← SourceFile.isSome_load?, hload, Option.isSome_some]
  refine hclosed file hmem ?_ other hother
  rw [SourceFile.name_of_load? hload]
  exact hS hread

variable (hread : ∀ path, host.isFile path = true → (host.read path).isSome)
include hread

private theorem isSome_read_of_leads {name other : String}
    (h : other ∈ (SourceFile.web host (.ofOptions config.options) .lexical).leads name) :
    (host.read other).isSome := by
  obtain ⟨file, hload, hother⟩ := SourceFile.mem_leads.mp h
  exact hread other (SourceFile.isFile_of_mem_imports hload hother)

/-- The names of the files are the readable roots and the imports, each once and where it comes up
first. -/
theorem fileNames_eq (config : ResolvedConfig) :
    (build host .lexical config).fileNames =
      distinct (config.roots.filter (fun root => (host.read root).isSome) ++
        ((build host .lexical config).files.map (·.imports)).flatten) := by
  rw [fileNames_build, flatten_imports]
  conv => lhs; rw [met, Web.names_reach, filter_distinct, List.filter_append]
  refine congrArg (fun names => distinct (_ ++ names)) (List.filter_eq_self.mpr ?_)
  intro other hother
  obtain ⟨name, -, hleads⟩ := List.mem_flatMap.mp hother
  exact isSome_read_of_leads hread hleads

private theorem unread_eq (config : ResolvedConfig) :
    (met host config).filter (fun name => (host.read name).isNone) =
      (distinct config.roots).filter fun root => (host.read root).isNone := by
  conv => lhs; rw [met, Web.names_reach, distinct_append, List.filter_append]
  refine List.append_right_eq_self.mpr (List.filter_eq_nil_iff.mpr fun other hother => ?_)
  obtain ⟨name, -, hleads⟩ := List.mem_flatMap.mp (mem_distinct.mp (List.mem_filter.mp hother).1)
  have hsome := isSome_read_of_leads hread hleads
  simpa [Option.isSome_iff_ne_none] using hsome

theorem build_importClosure (config : ResolvedConfig) :
    ImportClosure host config (build host .lexical config) where
  loaded := fun _ hfile => load?_of_mem_files hfile
  nodup := by
    rw [fileNames_eq hread]
    exact nodup_distinct _
  roots := by
    intro root hroot hsome
    rw [fileNames_eq hread, mem_distinct, List.mem_append, List.mem_filter]
    exact .inl ⟨hroot, hsome⟩
  closed := by
    intro file hfile name hname
    rw [fileNames_eq hread, mem_distinct, List.mem_append, List.mem_flatten]
    exact .inr ⟨file.imports, List.mem_map_of_mem hfile, hname⟩
  least := by
    intro S hroots hclosed name hname
    rw [fileNames_build, List.mem_filter] at hname
    exact met_least hroots hclosed name hname.1 hname.2
  order := by
    rw [fileNames_eq hread, distinct_append, ← filter_distinct]
    refine ⟨_, rfl, ?_, (pairwise_firstPlace _).filter _⟩
    intro name hname
    obtain ⟨list, hlist, hmem⟩ :=
      List.mem_flatten.mp (mem_distinct.mp (List.mem_filter.mp hname).1)
    obtain ⟨file, hfile, rfl⟩ := List.mem_map.mp hlist
    exact ⟨file, hfile, hmem⟩
  importsNodup := fun _ hfile => SourceFile.nodup_imports (load?_of_mem_files hfile)
  missing := rfl
  unread := by
    change (distinct config.roots).filter (fun root => (host.read root).isNone) = _
    rw [← unread_eq hread, Web.reach_eq, List.filter_map, List.map_map]
    refine (List.filter_congr fun name _ => ?_).trans (List.map_id _).symm
    change _ = (SourceFile.load? host _ _ name).isNone
    rw [SourceFile.load?, Option.isNone_map]
  disjoint := by
    intro name hmissing hname
    rw [fileNames_build, List.mem_filter] at hname
    have hnone := (List.mem_filter.mp hmissing).2
    simp_all

end Build

/-- Memories read all their files, so that what they build is closed under imports. -/
theorem build_memory_importClosure (memory : Memory) (config : ResolvedConfig) :
    ImportClosure memory.host config (build memory.host .lexical config) :=
  build_importClosure (fun _ hfile => memory.isSome_read_of_isFile hfile) config

end Program
end Tsconfig
