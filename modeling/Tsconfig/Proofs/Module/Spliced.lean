import Tsconfig.Module.Resolver
import Tsconfig.Proofs.Path.Slashes

/-! Where backslashes in the names of modules come from. Most texts are brought to slashes before
they are looked for; those that are not are listed here, and a file is found under a name with a
backslash only through one of them. -/
namespace Tsconfig
open Text Json Source

namespace PathMapping
open Tsconfig.Path

theorem isSlashed_substitute {captured target : String} (hcaptured : IsSlashed captured)
    (htarget : IsSlashed target) : IsSlashed (substitute captured target) := by
  unfold substitute
  split
  · exact htarget
  · rename_i before after hcut
    have hparts := eq_append_of_cutAt? hcut
    rw [IsSlashed, hparts] at htarget
    rw [IsSlashed, String.toList_ofList]
    simp only [List.mem_append, not_or] at htarget ⊢
    exact ⟨⟨htarget.1.1, hcaptured⟩, htarget.2⟩

theorem isSlashed_of_mem_targetsFor {mapping : PathMapping} {captured path : String}
    (hcaptured : IsSlashed captured) (htargets : ∀ target ∈ mapping.targets, IsSlashed target)
    (h : path ∈ mapping.targetsFor captured) : IsSlashed path := by
  obtain ⟨target, hmem, rfl⟩ := List.mem_map.mp h
  exact isSlashed_substitute hcaptured (htargets target hmem)

/-- Targets are resolved when they are declared. -/
theorem isSlashed_of_mem_pathMappings {options : CompilerOptions} {mapping : PathMapping}
    {target : String} (h : mapping ∈ CompilerOptions.pathMappings options)
    (htarget : target ∈ mapping.targets) : IsSlashed target := by
  unfold CompilerOptions.pathMappings at h
  split at h
  · rename_i base _ _
    obtain ⟨entry, -, hentry⟩ := List.mem_filterMap.mp (List.mem_mergeSort.mp h)
    unfold ofEntry? at hentry
    simp only [Option.bind_eq_bind, Option.bind_eq_some_iff, Option.ite_none_left_eq_some] at hentry
    obtain ⟨items, -, -, key, -, hkey⟩ := hentry
    cases hkey
    obtain ⟨written, -, rfl⟩ := List.mem_map.mp htarget
    exact isSlashed_resolve base written
  · cases h

end PathMapping

namespace Resolver
open Tsconfig.Path

/-- Neither relative nor absolute: the path of the importing file does not tell the module. -/
def isBare (specifier : String) : Bool := !(isRelative specifier || Path.isAbsolute specifier)

/-- The files that the manifest of a package names, in the order in which they are tried. -/
def entries (resolver : Resolver) (host : Host) (package : String) : List String :=
  match (host.read (Path.join package "package.json")).bind fun text =>
      (parse text.toList).toOption with
  | some manifest => resolver.entryFields.filterMap fun field =>
      (manifest.field? field).bind Value.str?
  | none => []

/-- The names that a package goes by: its own, unless only declarations count, and the one of its
declarations. -/
def packageNames (package : String) (typesOnly : Bool) : List String :=
  (if typesOnly then [] else [package]) ++ [typesPackage package]

/-- The packages above a directory whose manifests a specifier may be looked for in. A path inside a
package is found without its manifest. -/
def packagesAbove (dir specifier : String) (typesOnly : Bool) : List String :=
  match (PackageSpecifier.ofText specifier).subpath with
  | some _ => []
  | none => (levels dir).flatMap fun level =>
      (packageNames (PackageSpecifier.ofText specifier).package typesOnly).map
        (Path.join (Path.join level Path.packageFolder))

/-- The packages whose manifests may tell the module of a reference in a directory. -/
def packagesFor (resolver : Resolver) (dir : String) (reference : ModuleReference) : List String :=
  match reference.kind with
  | .path => []
  | .types =>
    match resolver.typeRoots with
    | some roots => roots.map (Path.join · reference.specifier)
    | none => packagesAbove dir reference.specifier false
  | .imported =>
    if isBare reference.specifier then packagesAbove dir reference.specifier resolver.classic
    else []

/-- The parts of a reference that go into a path as they are: the name of declarations below a root
of theirs, what the star of a mapping stands for, and a specifier that is looked for in the
directories above. -/
def splicedParts (resolver : Resolver) (reference : ModuleReference) : List String :=
  match reference.kind with
  | .path => []
  | .types => if resolver.typeRoots.isSome then [reference.specifier] else []
  | .imported =>
    if isBare reference.specifier then
      ((resolver.mapping? reference.specifier).map Prod.snd).toList
        ++ if resolver.classic then [reference.specifier] else []
    else []

/-- The texts that go into a path as they are when a reference in a directory is resolved. -/
def spliced (resolver : Resolver) (host : Host) (dir : String) (reference : ModuleReference) :
    List String :=
  resolver.splicedParts reference
    ++ (resolver.packagesFor dir reference).flatMap (resolver.entries host)

/-- The directories and targets that the options name hold no backslash. -/
structure HasSlashedPaths (resolver : Resolver) : Prop where
  roots : ∀ roots, resolver.typeRoots = some roots → ∀ root ∈ roots, IsSlashed root
  targets : ∀ mapping ∈ resolver.mappings, ∀ target ∈ mapping.targets, IsSlashed target

section Files
variable {resolver : Resolver} {host : Host}

private theorem isSlashed_of_mem_sourcesOf (extension : String) :
    ∀ source ∈ sourcesOf extension, IsSlashed source := by
  unfold sourcesOf
  split
  all_goals decide

private theorem isSlashed_of_mem_tsExtensions :
    ∀ extension ∈ tsExtensions, IsSlashed extension := by
  decide

private theorem isSlashed_of_mem_extensions (resolver : Resolver) :
    ∀ extension ∈ resolver.extensions, IsSlashed extension := by
  refine List.forall_mem_append.mpr ⟨isSlashed_of_mem_tsExtensions, ?_⟩
  split
  all_goals decide

theorem isSlashed_of_mem_candidates {path candidate : String} (hpath : IsSlashed path)
    (h : candidate ∈ resolver.candidates path) : IsSlashed candidate := by
  simp only [candidates, List.mem_append, List.mem_map] at h
  rcases h with (⟨source, hsource, rfl⟩ | hself) | ⟨extension, hextension, rfl⟩
  · exact hpath.dropExtension.append (isSlashed_of_mem_sourcesOf _ source hsource)
  · split at hself
    · exact List.mem_singleton.mp hself ▸ hpath
    · cases hself
  · exact hpath.append (isSlashed_of_mem_extensions resolver extension hextension)

theorem isSlashed_of_file? {path found : String} (hpath : IsSlashed path)
    (h : resolver.file? host path = some found) : IsSlashed found := by
  rw [file?] at h
  exact isSlashed_of_mem_candidates hpath (List.mem_of_find?_eq_some h)

theorem isSlashed_of_fileOrIndex? {path found : String} (hpath : IsSlashed path)
    (h : resolver.fileOrIndex? host path = some found) : IsSlashed found := by
  rcases Option.or_eq_some_iff.mp h with hfile | ⟨-, hindex⟩
  · exact isSlashed_of_file? hpath hfile
  · exact isSlashed_of_file? (hpath.join (by decide)) hindex

theorem isSlashed_of_load? {path found : String} (hpath : IsSlashed path)
    (h : resolver.load? host path = some found) : IsSlashed found := by
  unfold load? at h
  split at h
  · exact isSlashed_of_file? hpath h
  · exact isSlashed_of_fileOrIndex? hpath h

/-- A manifest leads to the first of its entries that is a module. -/
theorem manifestModule?_eq (resolver : Resolver) (host : Host) (package : String) :
    resolver.manifestModule? host package =
      (resolver.entries host package).findSome? fun entry =>
        resolver.fileOrIndex? host (Path.join package entry) := by
  unfold manifestModule? entries
  cases host.read (Path.join package "package.json") with
  | none => rfl
  | some text =>
    simp only [Option.bind_eq_bind, Option.bind_some]
    cases (parse text.toList).toOption with
    | none => rfl
    | some manifest =>
      simp only [Option.bind_some, ← List.head?_filterMap, List.filterMap_filterMap,
        Option.bind_assoc]

/-- Inside a package only its manifest can bring in a backslash. -/
theorem isSlashed_of_package? {package found : String} {subpath : Option String}
    (hpackage : IsSlashed package) (hsubpath : ∀ inner, subpath = some inner → IsSlashed inner)
    (hentries : subpath = none → ∀ entry ∈ resolver.entries host package, IsSlashed entry)
    (h : resolver.package? host package subpath = some found) : IsSlashed found := by
  unfold package? at h
  split at h
  · rename_i inner
    exact isSlashed_of_fileOrIndex? (hpackage.join (hsubpath inner rfl)) h
  · rcases Option.or_eq_some_iff.mp h with hmanifest | ⟨-, hindex⟩
    · rw [manifestModule?_eq] at hmanifest
      obtain ⟨entry, hentry, hfound⟩ := List.exists_of_findSome?_eq_some hmanifest
      exact isSlashed_of_fileOrIndex? (hpackage.join (hentries rfl entry hentry)) hfound
    · exact isSlashed_of_file? (hpackage.join (by decide)) hindex

end Files

section Packages
variable {resolver : Resolver} {host : Host}

theorem isSlashed_of_mem_levels {dir level : String} (hdir : IsSlashed dir)
    (h : level ∈ levels dir) : IsSlashed level := by
  refine isSlashed_of_mem_ancestors hdir ?_
  unfold levels at h
  split at h
  · cases h
  · rename_i first above heq
    rw [heq]
    exact List.cons_subset_cons first List.filter_sublist.subset h

private theorem isSlashed_joined {segments : List (List Char)}
    (h : ∀ segment ∈ segments, '\\' ∉ segment) :
    IsSlashed (String.ofList (joinWith '/' segments)) := by
  rw [IsSlashed, String.toList_ofList]
  intro hmem
  rcases mem_joinWith hmem with hslash | ⟨segment, hsegment, hc⟩
  · exact absurd hslash (by decide)
  · exact h segment hsegment hc

/-- Specifiers of packages are brought to slashes before they are taken apart. -/
theorem isSlashed_ofText (specifier : String) :
    IsSlashed (PackageSpecifier.ofText specifier).package ∧
      ∀ inner, (PackageSpecifier.ofText specifier).subpath = some inner → IsSlashed inner := by
  have hsegments : ∀ segment ∈ splitOn '/' (slashedChars specifier.toList), '\\' ∉ segment :=
    fun segment hsegment hmem => notMem_slashedChars _ (mem_of_mem_splitOn hsegment hmem)
  unfold PackageSpecifier.ofText
  dsimp only
  split
  · exact ⟨by decide, fun inner h => by cases h⟩
  · rename_i first rest hsplit
    rw [hsplit, List.forall_mem_cons] at hsegments
    obtain ⟨hfirst, hrest⟩ := hsegments
    split
    · constructor
      · refine isSlashed_joined (List.forall_mem_cons.mpr ⟨hfirst, ?_⟩)
        cases rest with
        | nil => simp
        | cons second rest => simpa using (List.forall_mem_cons.mp hrest).1
      · intro inner h
        split at h
        · cases h
        · cases h
          exact isSlashed_joined fun segment hmem => hrest segment (List.mem_of_mem_drop hmem)
    · constructor
      · rw [IsSlashed, String.toList_ofList]
        exact hfirst
      · intro inner h
        split at h
        · cases h
        · cases h
          exact isSlashed_joined hrest

theorem isSlashed_typesPackage {package : String} (h : IsSlashed package) :
    IsSlashed (typesPackage package) := by
  refine IsSlashed.append (by decide) ?_
  rw [IsSlashed, String.toList_ofList]
  intro hmem
  obtain ⟨c, hc, hmem⟩ := List.mem_flatMap.mp hmem
  split at hmem
  · exact absurd hmem (by decide)
  · rw [← List.mem_singleton.mp hmem] at hc
    exact h ((List.dropWhile_suffix _).subset hc)

theorem isSlashed_of_mem_packageNames {package name : String} {typesOnly : Bool}
    (hpackage : IsSlashed package) (h : name ∈ packageNames package typesOnly) :
    IsSlashed name := by
  rcases List.mem_append.mp h with hown | htypes
  · split at hown
    · cases hown
    · exact List.mem_singleton.mp hown ▸ hpackage
  · exact List.mem_singleton.mp htypes ▸ isSlashed_typesPackage hpackage

theorem exists_package?_of_inPackages? {dir specifier found : String} {typesOnly : Bool}
    (h : resolver.inPackages? host dir specifier typesOnly = some found) :
    ∃ level ∈ levels dir,
      ∃ name ∈ packageNames (PackageSpecifier.ofText specifier).package typesOnly,
        resolver.package? host (Path.join (Path.join level Path.packageFolder) name)
          (PackageSpecifier.ofText specifier).subpath = some found := by
  obtain ⟨level, hlevel, h⟩ := List.exists_of_findSome?_eq_some h
  unfold packageAt? at h
  dsimp only at h
  split at h
  · obtain ⟨name, hname, h⟩ := List.exists_of_findSome?_eq_some h
    split at h
    · exact ⟨level, hlevel, name, hname, h⟩
    · cases h
  · cases h

/-- Without mappings and a base, packages are all that a bare specifier is looked for in. -/
theorem resolve?_of_isBare {file specifier : String} (hbare : isBare specifier = true)
    (hmappings : resolver.mappings = []) (hbase : resolver.baseUrl = none)
    (hclassic : resolver.classic = false) :
    resolver.resolve? host file ⟨.imported, specifier⟩ =
      (levels (Path.parent file)).findSome? (resolver.packageAt? host
        (packageNames (PackageSpecifier.ofText specifier).package false)
        (PackageSpecifier.ofText specifier).subpath) := by
  have hnot : ¬(isRelative specifier || Path.isAbsolute specifier) = true := by
    simpa [isBare] using hbare
  have hmapped : resolver.mapped? host specifier = none := by
    simp [mapped?, mapping?, hmappings]
  change resolver.imported? host (Path.parent file) specifier = _
  rw [imported?, if_neg hnot, hmapped, hbase, hclassic, Option.bind_none, Option.none_or,
    Option.none_or, if_neg Bool.false_ne_true]
  rfl

theorem isSlashed_of_inPackages? {dir specifier found : String} {typesOnly : Bool}
    (hdir : IsSlashed dir)
    (hentries : ∀ package ∈ packagesAbove dir specifier typesOnly,
      ∀ entry ∈ resolver.entries host package, IsSlashed entry)
    (h : resolver.inPackages? host dir specifier typesOnly = some found) : IsSlashed found := by
  obtain ⟨level, hlevel, name, hname, hfound⟩ := exists_package?_of_inPackages? h
  obtain ⟨hpackage, hsubpath⟩ := isSlashed_ofText specifier
  refine isSlashed_of_package? ?_ hsubpath (fun hnone => hentries _ ?_) hfound
  · exact ((isSlashed_of_mem_levels hdir hlevel).join (by decide)).join
      (isSlashed_of_mem_packageNames hpackage hname)
  · rw [packagesAbove, hnone]
    exact List.mem_flatMap.mpr ⟨level, hlevel, List.mem_map_of_mem hname⟩

end Packages

section References
variable {resolver : Resolver} {host : Host}

private theorem isSlashed_of_path? {dir specifier found : String}
    (h : path? host dir specifier = some found) : IsSlashed found := by
  have hdirect := isSlashed_resolve dir specifier
  rcases List.mem_cons.mp (List.mem_of_find?_eq_some h) with rfl | hwith
  · exact hdirect
  · split at hwith
    · obtain ⟨extension, hextension, rfl⟩ := List.mem_map.mp hwith
      exact hdirect.append (isSlashed_of_mem_tsExtensions extension hextension)
    · cases hwith

private theorem isSlashed_of_mapped? {specifier found : String}
    (htargets : ∀ mapping ∈ resolver.mappings, ∀ target ∈ mapping.targets, IsSlashed target)
    (hstar : ∀ mapping captured, resolver.mapping? specifier = some (mapping, captured) →
      IsSlashed captured)
    (h : resolver.mapped? host specifier = some found) : IsSlashed found := by
  simp only [mapped?, Option.bind_eq_bind, Option.bind_eq_some_iff] at h
  obtain ⟨⟨mapping, captured⟩, hmapping, h⟩ := h
  obtain ⟨path, hpath, h⟩ := List.exists_of_findSome?_eq_some h
  obtain ⟨candidate, hcandidate, hsome⟩ := List.exists_of_findSome?_eq_some hmapping
  obtain ⟨text, -, heq⟩ := Option.map_eq_some_iff.mp hsome
  cases heq
  exact isSlashed_of_load? (PathMapping.isSlashed_of_mem_targetsFor (hstar _ _ hmapping)
    (htargets mapping hcandidate) hpath) h

private theorem isSlashed_of_inAncestors? {dir specifier found : String} (hdir : IsSlashed dir)
    (hspecifier : IsSlashed specifier)
    (h : resolver.inAncestors? host dir specifier = some found) : IsSlashed found := by
  obtain ⟨level, hlevel, h⟩ := List.exists_of_findSome?_eq_some h
  exact isSlashed_of_file? ((isSlashed_of_mem_levels hdir hlevel).join hspecifier) h

private theorem isSlashed_of_types? {dir name found : String} (hpaths : resolver.HasSlashedPaths)
    (hdir : IsSlashed dir)
    (hspliced : ∀ text ∈ resolver.spliced host dir ⟨.types, name⟩, IsSlashed text)
    (h : resolver.types? host dir name = some found) : IsSlashed found := by
  obtain ⟨hparts, hentries⟩ := List.forall_mem_append.mp hspliced
  rw [List.forall_mem_flatMap] at hentries
  unfold types? at h
  split at h
  · rename_i roots hroots
    obtain ⟨root, hroot, h⟩ := List.exists_of_findSome?_eq_some h
    have hname : IsSlashed name := hparts name (by simp [splicedParts, hroots])
    refine isSlashed_of_package? ((hpaths.roots roots hroots root hroot).join hname)
      (fun inner hinner => by cases hinner) (fun _ => hentries _ ?_) h
    simp only [packagesFor, hroots]
    exact List.mem_map_of_mem hroot
  · rename_i hroots
    refine isSlashed_of_inPackages? hdir (fun package hpackage => hentries package ?_) h
    simpa only [packagesFor, hroots] using hpackage

/-- An import does not look below the roots of declarations, so they may hold anything. -/
theorem isSlashed_of_imported? {dir specifier found : String}
    (htargets : ∀ mapping ∈ resolver.mappings, ∀ target ∈ mapping.targets, IsSlashed target)
    (hdir : IsSlashed dir)
    (hspliced : ∀ text ∈ resolver.spliced host dir ⟨.imported, specifier⟩, IsSlashed text)
    (h : resolver.imported? host dir specifier = some found) : IsSlashed found := by
  obtain ⟨hparts, hentries⟩ := List.forall_mem_append.mp hspliced
  rw [List.forall_mem_flatMap] at hentries
  unfold imported? at h
  split at h
  · exact isSlashed_of_load? (isSlashed_resolve dir specifier) h
  rename_i hnot
  have hbare : isBare specifier = true := by simpa [isBare] using hnot
  have hpackages (typesOnly : Bool) (hclassic : resolver.classic = typesOnly)
      (h : resolver.inPackages? host dir specifier typesOnly = some found) : IsSlashed found := by
    refine isSlashed_of_inPackages? hdir (fun package hpackage => hentries package ?_) h
    simpa only [packagesFor, hbare, if_true, hclassic] using hpackage
  rcases Option.or_eq_some_iff.mp h with h | ⟨-, h⟩
  · rcases Option.or_eq_some_iff.mp h with hmapped | ⟨-, hbase⟩
    · refine isSlashed_of_mapped? htargets (fun mapping captured hmapping => ?_) hmapped
      exact hparts captured (by simp [splicedParts, hbare, hmapping])
    · obtain ⟨base, -, hload⟩ := Option.bind_eq_some_iff.mp hbase
      exact isSlashed_of_load? (isSlashed_resolve base specifier) hload
  · split at h
    · rename_i hclassic
      rcases Option.or_eq_some_iff.mp h with habove | ⟨-, hdeclarations⟩
      · exact isSlashed_of_inAncestors? hdir
          (hparts specifier (by simp [splicedParts, hbare, hclassic])) habove
      · exact hpackages true hclassic hdeclarations
    · rename_i hclassic
      exact hpackages false (by simpa using hclassic) h

/-- Resolution takes no backslash into the name of a file but from the spliced texts. -/
theorem isSlashed_of_resolve? {file found : String} {reference : ModuleReference}
    (hpaths : resolver.HasSlashedPaths)
    (hspliced : ∀ text ∈ resolver.spliced host (Path.parent file) reference, IsSlashed text)
    (h : resolver.resolve? host file reference = some found) : IsSlashed found := by
  obtain ⟨kind, specifier⟩ := reference
  have hdir := isSlashed_parent file
  cases kind with
  | path => exact isSlashed_of_path? h
  | types => exact isSlashed_of_types? hpaths hdir hspliced h
  | imported => exact isSlashed_of_imported? hpaths.targets hdir hspliced h

end References
end Resolver
end Tsconfig
