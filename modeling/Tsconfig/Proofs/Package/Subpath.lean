import Tsconfig.Proofs.Package.Log

/-!
Packages that are asked for a subpath. Manifests at the top of package folders make no difference then;
those in the folders that the subpath names do, and they alone.
-/
namespace Tsconfig

theorem Path.pairwise_length_ancestors (dir : String) :
    (ancestors dir).Pairwise fun near far => far.length < near.length := by
  induction dir using ancestors.induct with
  | case1 dir hshorter ih =>
    rw [ancestors, if_pos hshorter]
    refine List.pairwise_cons.mpr ⟨fun far hfar => ?_, ih⟩
    have hle : far.length ≤ (parent dir).length := by
      rw [ancestors] at hfar ih
      split at hfar
      · rename_i hparent
        rw [if_pos hparent] at ih
        rcases List.mem_cons.mp hfar with rfl | hfar
        · exact Nat.le_refl _
        · exact Nat.le_of_lt ((List.pairwise_cons.mp ih).1 far hfar)
      · rw [List.mem_singleton.mp hfar]
    omega
  | case2 dir hlonger =>
    rw [ancestors, if_neg hlonger]
    exact List.pairwise_singleton _ _

namespace Memory

/-- The same files, with another text in every manifest. -/
def fillManifests (memory : Memory) (text : String) : Memory where
  files := memory.files.map fun file =>
    (file.1, if Path.baseName file.1 = Package.manifestName then text else file.2)
  cwd := memory.cwd
  sorted := by simpa [Function.comp_def] using memory.sorted
  slashed := by simpa [Function.comp_def] using memory.slashed

variable {memory other : Memory} {text path : String}

theorem paths_fillManifests : (memory.fillManifests text).paths = memory.paths := by
  simp [paths, fillManifests, Function.comp_def]

theorem read_fillManifests : (memory.fillManifests text).read path =
    (memory.read path).map fun old =>
      if Path.baseName path = Package.manifestName then text else old := by
  rw [read, read, ← Path.baseName_slashed path]
  generalize Path.slashed path = key
  change OrderedMap.find? key (memory.files.map fun file => _) = _
  induction memory.files with
  | nil => rfl
  | cons file rest ih =>
    rw [List.map_cons, OrderedMap.find?, OrderedMap.find?, ih]
    by_cases hkey : file.1 = key
    · rw [if_pos hkey, if_pos hkey, Option.map_some, hkey]
    · rw [if_neg hkey, if_neg hkey]

theorem isFile_eq_of_paths (h : other.paths = memory.paths) : other.isFile = memory.isFile := by
  funext path
  rw [isFile, isFile, h]

end Memory

namespace Package
variable {host : Host} {memory other : Memory} {specifier : PackageSpecifier} {dir inside : String}

section Levels

/-- The folder that a subpath names, if it names a folder. -/
def subfolderAt (specifier : PackageSpecifier) (dir : String) : String :=
  Path.join (folderAt dir specifier.package) (specifier.subpath.getD configName)

/-- The config that the manifest in that folder leads to. -/
def ledTo (host : Host) (specifier : PackageSpecifier) (dir : String) : Option String :=
  (viaManifest host (subfolderAt specifier dir) true).found

/-- The config that is where the subpath says, whatever manifests say. -/
def plainAt (host : Host) (specifier : PackageSpecifier) (dir : String) : Option String :=
  [Path.join (folderAt dir specifier.package) (withExtension (specifier.subpath.getD configName)),
    Path.join (subfolderAt specifier dir) configName].find? host.isFile

/-- The directories that the search comes to when no manifest leads anywhere. -/
def openDirs (host : Host) (specifier : PackageSpecifier) (dirs : List String) : List String :=
  throughFirst (fun dir => (plainAt host specifier dir).isSome) (askedDirs specifier.package dirs)

theorem found_viaManifest_unused (folder : String) : (viaManifest host folder false).found = none := by
  simp [viaManifest]

theorem found_lookupIn_subpath (h : specifier.subpath = some inside) :
    (lookupIn host (folderAt dir specifier.package) specifier.subpath).found =
      (ledTo host specifier dir).or (plainAt host specifier dir) := by
  rw [ledTo, plainAt, subfolderAt, h, Option.getD_some, lookupIn, Option.getD_some]
  simp only [Lookup.found_orElse, Lookup.found_file, Option.isNone_some, found_viaManifest_unused,
    Option.or_none, Option.or_assoc]
  congr 1
  cases hfile : host.isFile (Path.join (folderAt dir specifier.package) (withExtension inside)) <;>
    simp [hfile, List.find?_cons]
  split <;> simp_all

theorem found_climb_subpath (h : specifier.subpath = some inside) (dirs : List String) :
    (climb host specifier dirs).found =
      (askedDirs specifier.package dirs).findSome? fun dir =>
        (ledTo host specifier dir).or (plainAt host specifier dir) := by
  induction dirs with
  | nil => rfl
  | cons dir above ih =>
    rw [climb, askedDirs_cons]
    split
    · exact ih
    · rw [Lookup.found_orElse, found_lookupIn_subpath h, List.findSome?_cons]
      cases (ledTo host specifier dir).or (plainAt host specifier dir) with
      | some path => rfl
      | none =>
        rw [Option.none_or]
        split
        · rfl
        · exact ih

end Levels

section Manifests
variable {path : String}

/-- The manifest that the search asks for in the folder of a subpath. -/
def subManifest (specifier : PackageSpecifier) (dir : String) : String :=
  Path.join (subfolderAt specifier dir) manifestName

theorem baseName_subManifest : Path.baseName (subManifest specifier dir) = manifestName :=
  Path.baseName_join (by decide) (by decide) _

theorem ledTo_of_no_file (h : host.isFile (subManifest specifier dir) = false) :
    ledTo host specifier dir = none := by
  rw [subManifest] at h
  simp [ledTo, viaManifest, h]

/-- A manifest leads where it says, if there is a file. -/
theorem ledTo_of_file {target : String} (h : host.isFile (subManifest specifier dir) = true)
    (htarget : manifestConfig? host (subManifest specifier dir) = some target)
    (hconfig : host.isFile (Path.join (subfolderAt specifier dir) target) = true) :
    ledTo host specifier dir = some (Path.join (subfolderAt specifier dir) target) := by
  rw [subManifest] at h htarget
  simp [ledTo, viaManifest, h, htarget, hconfig]

theorem ledTo_of_silent (h : manifestConfig? host (subManifest specifier dir) = none) :
    ledTo host specifier dir = none := by
  rw [subManifest] at h
  simp [ledTo, viaManifest, h]

/-- A text that names no config. -/
def silentText : String := "\x7b\x7d"

/-- A text by which a manifest names itself. -/
def selfText : String := "\x7b\"tsconfig\": \"package.json\"\x7d"

theorem read_subManifest {text : String} (h : memory.isFile (subManifest specifier dir) = true) :
    (memory.fillManifests text).host.read (subManifest specifier dir) = some text := by
  obtain ⟨old, hold⟩ := Option.isSome_iff_exists.mp (memory.isSome_read_of_isFile h)
  change (memory.fillManifests text).read _ = _
  rw [Memory.read_fillManifests, hold, Option.map_some, if_pos baseName_subManifest]

theorem ledTo_silent : ledTo (memory.fillManifests silentText).host specifier dir = none := by
  have hpaths : (memory.fillManifests silentText).isFile = memory.isFile :=
    Memory.isFile_eq_of_paths Memory.paths_fillManifests
  cases hfile : memory.isFile (subManifest specifier dir) with
  | false => exact ledTo_of_no_file ((congrFun hpaths _).trans hfile)
  | true =>
    apply ledTo_of_silent
    rw [manifestConfig?, read_subManifest hfile]
    decide +kernel

theorem ledTo_self (h : memory.isFile (subManifest specifier dir) = true) :
    ledTo (memory.fillManifests selfText).host specifier dir = some (subManifest specifier dir) := by
  have hfile : (memory.fillManifests selfText).isFile (subManifest specifier dir) = true :=
    (congrFun (Memory.isFile_eq_of_paths Memory.paths_fillManifests) _).trans h
  refine ledTo_of_file hfile ?_ hfile
  rw [manifestConfig?, read_subManifest h]
  decide +kernel

theorem length_withExtension_le (subpath : String) :
    (withExtension subpath).length ≤ subpath.length + 5 := by
  have hjson : ".json".length = 5 := by decide
  rw [withExtension]
  split
  · omega
  · rw [String.length_append]
    omega

theorem exists_length_folderAt (dir package : String) : ∃ slashes ≤ 2, (folderAt dir package).length =
    dir.length + slashes + (Path.packageFolder.length + package.length) := by
  obtain ⟨a, ha, hfolder⟩ := Path.exists_length_join dir Path.packageFolder
  obtain ⟨b, hb, hpackage⟩ := Path.exists_length_join (Path.join dir Path.packageFolder) package
  exact ⟨a + b, by omega, by rw [folderAt]; omega⟩

/-- No config that is where the subpath says, in a directory or above it, is the manifest in the folder
of the subpath: one is too short, the other has another name. -/
theorem plainAt_ne_subManifest {far : String} (hfar : far.length ≤ dir.length) :
    plainAt host specifier far ≠ some (subManifest specifier dir) := by
  intro hplain
  have hmem := List.mem_of_find?_eq_some hplain
  simp only [List.mem_cons, List.not_mem_nil, or_false] at hmem
  rcases hmem with hplace | hplace
  · have hlength := congrArg String.length hplace
    rw [subManifest, subfolderAt] at hlength
    have hextension := length_withExtension_le (specifier.subpath.getD configName)
    have hname : manifestName.length = 12 := by decide
    obtain ⟨a, ha, hfar_folder⟩ := exists_length_folderAt far specifier.package
    obtain ⟨b, hb, hfar_config⟩ := Path.exists_length_join (folderAt far specifier.package)
      (withExtension (specifier.subpath.getD configName))
    obtain ⟨c, -, hfolder⟩ := exists_length_folderAt dir specifier.package
    obtain ⟨d, -, hsubfolder⟩ := Path.exists_length_join (folderAt dir specifier.package)
      (specifier.subpath.getD configName)
    obtain ⟨e, -, hmanifest⟩ := Path.exists_length_join
      (Path.join (folderAt dir specifier.package) (specifier.subpath.getD configName)) manifestName
    omega
  · have hnames := congrArg Path.baseName hplace
    rw [baseName_subManifest, Path.baseName_join (by decide) (by decide)] at hnames
    exact absurd hnames (by decide)

end Manifests

section Runs

/-- Two searches that differ only in where manifests lead them come to the same, or differ first in a
directory where one of the manifests decides. -/
theorem exists_led_of_ne {led led' plain : String → Option String} {dirs : List String}
    (h : (dirs.findSome? fun dir => (led dir).or (plain dir)) ≠
      dirs.findSome? fun dir => (led' dir).or (plain dir)) :
    ∃ dir ∈ throughFirst (fun dir => (plain dir).isSome) dirs, led dir ≠ led' dir ∧ ∃ path,
      led dir = some path ∧ (dirs.findSome? fun dir => (led dir).or (plain dir)) = some path ∨
      led' dir = some path ∧ (dirs.findSome? fun dir => (led' dir).or (plain dir)) = some path := by
  induction dirs with
  | nil => exact absurd rfl h
  | cons first rest ih =>
    have hmem : first ∈ throughFirst (fun dir => (plain dir).isSome) (first :: rest) := by
      rw [throughFirst]
      split <;> exact List.mem_cons_self
    simp only [List.findSome?_cons] at h ⊢
    cases hled : led first with
    | some path =>
      refine ⟨first, hmem, ?_, path, .inl ⟨hled, by simp⟩⟩
      intro hsame
      simp [← hsame, hled] at h
    | none =>
      cases hled' : led' first with
      | some path =>
        exact ⟨first, hmem, by simp [hled, hled'], path, .inr ⟨hled', by simp⟩⟩
      | none =>
        simp only [hled, hled', Option.none_or] at h ⊢
        cases hplain : plain first with
        | some path => simp [hplain] at h
        | none =>
          rw [hplain] at h
          obtain ⟨dir, hdir, hdecides⟩ := ih h
          refine ⟨dir, ?_, ?_⟩
          · rw [throughFirst, hplain]
            exact List.mem_cons_of_mem _ hdir
          · simpa [hplain] using hdecides

/-- Where manifests that name themselves change nothing, there are none on the way. -/
theorem no_subManifest_of_same {dirs : List String}
    (hdirs : dirs.Pairwise fun near far => far.length < near.length)
    (h : (dirs.findSome? fun dir =>
      (ledTo (memory.fillManifests selfText).host specifier dir).or
        (plainAt memory.host specifier dir)) =
      dirs.findSome? (plainAt memory.host specifier)) :
    ∀ dir ∈ throughFirst (fun dir => (plainAt memory.host specifier dir).isSome) dirs,
      memory.isFile (subManifest specifier dir) = false := by
  induction dirs with
  | nil => simp [throughFirst]
  | cons first rest ih =>
    obtain ⟨hfirst, hrest⟩ := List.pairwise_cons.mp hdirs
    have hnone : memory.isFile (subManifest specifier first) = false := by
      rw [Bool.eq_false_iff]
      intro hfile
      rw [List.findSome?_cons, ledTo_self hfile, Option.some_or] at h
      obtain ⟨far, hfar, hplain⟩ := List.exists_of_findSome?_eq_some h.symm
      refine plainAt_ne_subManifest ?_ hplain
      rcases List.mem_cons.mp hfar with rfl | hfar
      · exact Nat.le_refl _
      · exact Nat.le_of_lt (hfirst far hfar)
    have hled : ledTo (memory.fillManifests selfText).host specifier first = none :=
      ledTo_of_no_file
        ((congrFun (Memory.isFile_eq_of_paths Memory.paths_fillManifests) _).trans hnone)
    rw [throughFirst]
    cases hplain : plainAt memory.host specifier first with
    | some path => simpa using hnone
    | none =>
      rw [List.findSome?_cons, List.findSome?_cons, hled, hplain] at h
      exact List.forall_mem_cons.mpr ⟨hnone, ih hrest h⟩

theorem pairwise_length_askedDirs (package start : String) :
    (askedDirs package (levels start)).Pairwise fun near far => far.length < near.length :=
  (Path.pairwise_length_ancestors (Path.slashed start)).sublist
    (List.filter_sublist.trans ((throughFirst_sublist _ _).trans (throughFirst_sublist _ _)))

theorem plainAt_of_paths (h : other.paths = memory.paths) :
    plainAt other.host specifier = plainAt memory.host specifier := by
  funext dir
  rw [plainAt, plainAt]
  exact congrArg (List.find? · _) (Memory.isFile_eq_of_paths h)

section Searches
variable {start text : String} (h : (PackageSpecifier.ofText text).subpath = some inside)
include h

/-- Among the same files, searches differ only in where manifests lead them. -/
theorem found_lookupConfig_of_paths (hpaths : other.paths = memory.paths) :
    (lookupConfig other.host start text).found =
      (askedDirs (PackageSpecifier.ofText text).package (levels start)).findSome? fun dir =>
        (ledTo other.host (PackageSpecifier.ofText text) dir).or
          (plainAt memory.host (PackageSpecifier.ofText text) dir) := by
  rw [← plainAt_of_paths hpaths]
  exact found_climb_subpath h _

theorem exists_led_of_found_ne (hpaths : other.paths = memory.paths)
    (hne : (lookupConfig other.host start text).found ≠
      (lookupConfig memory.host start text).found) :
    ∃ dir ∈ openDirs memory.host (PackageSpecifier.ofText text) (levels start),
      ledTo other.host (PackageSpecifier.ofText text) dir ≠
        ledTo memory.host (PackageSpecifier.ofText text) dir ∧ ∃ path,
      ledTo other.host (PackageSpecifier.ofText text) dir = some path ∧
        (lookupConfig other.host start text).found = some path ∨
      ledTo memory.host (PackageSpecifier.ofText text) dir = some path ∧
        (lookupConfig memory.host start text).found = some path := by
  rw [found_lookupConfig_of_paths h hpaths, found_lookupConfig_of_paths h rfl] at hne ⊢
  exact exists_led_of_ne hne

theorem found_eq_of_no_subManifest (hpaths : other.paths = memory.paths)
    (hnone : ∀ dir ∈ openDirs memory.host (PackageSpecifier.ofText text) (levels start),
      memory.isFile (subManifest (PackageSpecifier.ofText text) dir) = false) :
    (lookupConfig other.host start text).found = (lookupConfig memory.host start text).found := by
  by_contra hne
  obtain ⟨dir, hdir, hdiffers, -⟩ := exists_led_of_found_ne h hpaths hne
  have hother : other.isFile (subManifest (PackageSpecifier.ofText text) dir) = false :=
    (congrFun (Memory.isFile_eq_of_paths hpaths) _).trans (hnone dir hdir)
  exact hdiffers ((ledTo_of_no_file hother).trans (ledTo_of_no_file (hnone dir hdir)).symm)

theorem no_subManifest_of_found_eq
    (hsame : ∀ filling, (lookupConfig (memory.fillManifests filling).host start text).found =
      (lookupConfig memory.host start text).found) :
    ∀ dir ∈ openDirs memory.host (PackageSpecifier.ofText text) (levels start),
      memory.isFile (subManifest (PackageSpecifier.ofText text) dir) = false := by
  apply no_subManifest_of_same (pairwise_length_askedDirs _ _)
  rw [← found_lookupConfig_of_paths h Memory.paths_fillManifests, hsame, ← hsame silentText,
    found_lookupConfig_of_paths h Memory.paths_fillManifests]
  simp only [ledTo_silent, Option.none_or]

end Searches

/-- Under a subpath, a search of the same files comes to another config only where the manifest in the
folder of the subpath leads elsewhere, and then one of the two configs is the one it leads to. What is
in manifests makes no difference exactly when there are none of these on the way to the first config
that is where the subpath says. -/
theorem lookupConfig_subpath {memory : Memory} {start specifier inside : String}
    (h : (PackageSpecifier.ofText specifier).subpath = some inside) :
    let split := PackageSpecifier.ofText specifier
    let found (memory : Memory) := (lookupConfig memory.host start specifier).found
    let dirs := openDirs memory.host split (levels start)
    (∀ other : Memory, other.paths = memory.paths → found other ≠ found memory →
      ∃ dir ∈ dirs, ledTo other.host split dir ≠ ledTo memory.host split dir ∧ ∃ path,
        ledTo other.host split dir = some path ∧ found other = some path ∨
        ledTo memory.host split dir = some path ∧ found memory = some path) ∧
    ((∀ other : Memory, other.paths = memory.paths →
        (∀ path, Path.baseName path ≠ manifestName → other.read path = memory.read path) →
        found other = found memory) ↔
      ∀ dir ∈ dirs, memory.isFile (subManifest split dir) = false) := by
  intro split found dirs
  refine ⟨fun other => exists_led_of_found_ne h, fun hsame => ?_, fun hnone other hpaths _ => ?_⟩
  · apply no_subManifest_of_found_eq h
    intro text
    apply hsame _ Memory.paths_fillManifests
    intro path hname
    simp [Memory.read_fillManifests, hname]
  · exact found_eq_of_no_subManifest h hpaths hnone

end Runs

section Based

private def topManifest : Memory := .ofFiles [("/p/node_modules/b/package.json", selfText),
  ("/p/node_modules/b/x.json", "\x7b\x7d")]

private theorem levels_p : levels "/p" = ["/p", "/"] := by
  rw [levels_of_normal (by decide +kernel), Path.ancestors_eq (by decide +kernel)]
  decide +kernel

/-- The manifest at the top names itself, and the config is found where the subpath says, whatever
manifests say. -/
theorem lookupConfig_subpath_topManifest :
    (PackageSpecifier.ofText "b/x").subpath = some "x" ∧
    (lookupConfig topManifest.host "/p" "b/x").found = some "/p/node_modules/b/x.json" ∧
    ∀ text, (lookupConfig (topManifest.fillManifests text).host "/p" "b/x").found =
      some "/p/node_modules/b/x.json" := by
  have hsubpath : (PackageSpecifier.ofText "b/x").subpath = some "x" := by decide +kernel
  have hfound : (lookupConfig topManifest.host "/p" "b/x").found =
      some "/p/node_modules/b/x.json" := by
    rw [lookupConfig, levels_p]
    decide +kernel
  obtain ⟨-, hsame⟩ := @lookupConfig_subpath topManifest "/p" "b/x" "x" hsubpath
  refine ⟨hsubpath, hfound, fun text => ?_⟩
  rw [← hfound]
  apply hsame.mpr
  · rw [levels_p]
    decide +kernel
  · exact Memory.paths_fillManifests
  · intro path hname
    simp [Memory.read_fillManifests, hname]

private def subfolderManifest : Memory :=
  .ofFiles [("/p/node_modules/b/x/package.json", "\x7b\"tsconfig\": \"t.json\"\x7d"),
    ("/p/node_modules/b/x/t.json", "\x7b\x7d")]

/-- A manifest in the folder of the subpath is followed: with another text in it, nothing is found. -/
theorem found_differs_of_subManifest :
    let silent := subfolderManifest.fillManifests silentText
    (PackageSpecifier.ofText "b/x").subpath = some "x" ∧
    silent.paths = subfolderManifest.paths ∧
    (∀ path, Path.baseName path ≠ manifestName → silent.read path = subfolderManifest.read path) ∧
    (lookupConfig subfolderManifest.host "/p" "b/x").found = some "/p/node_modules/b/x/t.json" ∧
    (lookupConfig silent.host "/p" "b/x").found = none := by
  intro silent
  refine ⟨by decide +kernel, Memory.paths_fillManifests, ?_, ?_, ?_⟩
  · intro path hname
    simp [silent, Memory.read_fillManifests, hname]
  · rw [lookupConfig, levels_p]
    decide +kernel
  · rw [lookupConfig, levels_p]
    decide +kernel

end Based

end Package
end Tsconfig
