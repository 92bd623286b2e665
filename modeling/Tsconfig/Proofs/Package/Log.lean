import Tsconfig.Proofs.Package.Climb
import Tsconfig.Proofs.Path.Absolute
import Tsconfig.Proofs.Path.Dots

/-!
The files that the search for the config of a package asks for. They form one list, which the
manifests that are there have a say in, and the search goes through it up to the first config that is
there.
-/
namespace Tsconfig

namespace Package
variable {host : Host}

section Ask

/-- A file that is asked for. A manifest never ends the search, a config does where it is there. -/
inductive Probe
  | manifest (path : String)
  | config (path : String)

namespace Probe

def path : Probe → String
  | manifest path => path
  | config path => path

def ends (host : Host) : Probe → Bool
  | manifest _ => false
  | config path => host.isFile path

end Probe

/-- Ask for one file after the other, through the first that ends the search. -/
def ask (host : Host) (probes : List Probe) : Lookup where
  found := (probes.find? (Probe.ends host)).map Probe.path
  asked := (throughFirst (Probe.ends host) probes).map Probe.path

theorem ask_cons (probe : Probe) (rest : List Probe) :
    ask host (probe :: rest) =
      if probe.ends host then ⟨some probe.path, [probe.path]⟩
      else ⟨(ask host rest).found, probe.path :: (ask host rest).asked⟩ := by
  cases hends : probe.ends host <;> simp [ask, throughFirst, hends]

theorem ask_append (first second : List Probe) :
    ask host (first ++ second) = (ask host first).orElse fun _ => ask host second := by
  induction first with
  | nil => rfl
  | cons probe rest ih =>
    rw [List.cons_append, ask_cons, ask_cons, ih]
    split
    · rfl
    · cases hfound : (ask host rest).found <;> simp [Lookup.orElse, hfound]

theorem file_eq_ask (path : String) : Lookup.file host path = ask host [.config path] := by
  cases hfile : host.isFile path <;>
    simp [Lookup.file, ask, throughFirst, Probe.ends, Probe.path, hfile]

theorem throughFirst_append_cons {α : Type} {p : α → Bool} {before after : List α} {item : α}
    (hbefore : ∀ other ∈ before, p other = false) (hitem : p item = true) :
    throughFirst p (before ++ item :: after) = before ++ [item] := by
  induction before with
  | nil => rw [List.nil_append, throughFirst, if_pos hitem, List.nil_append]
  | cons first rest ih =>
    obtain ⟨hfirst, hrest⟩ := List.forall_mem_cons.mp hbefore
    rw [List.cons_append, throughFirst, if_neg (by simp [hfirst]), ih hrest, List.cons_append]

/-- Where no manifest is there, every file ends the search that is. -/
theorem ask_eq_paths {probes : List Probe}
    (h : ∀ path, .manifest path ∈ probes → host.isFile path = false) :
    ask host probes = ⟨(probes.map Probe.path).find? host.isFile,
      throughFirst host.isFile (probes.map Probe.path)⟩ := by
  induction probes with
  | nil => rfl
  | cons probe rest ih =>
    have hends : probe.ends host = host.isFile probe.path := by
      cases probe with
      | manifest path => exact (h path List.mem_cons_self).symm
      | config => rfl
    rw [ask_cons, ih fun path hpath => h path (List.mem_cons_of_mem _ hpath), hends]
    cases hfile : host.isFile probe.path <;> simp [throughFirst, hfile]

theorem asked_of_found {probes : List Probe} {path : String}
    (h : (ask host probes).found = some path) : host.isFile path = true ∧
      ∃ earlier, (ask host probes).asked = earlier ++ [path] ∧
        ∀ other ∈ earlier, host.isFile other = true → .manifest other ∈ probes := by
  obtain ⟨probe, hprobe, rfl⟩ := Option.map_eq_some_iff.mp h
  obtain ⟨hends, before, after, rfl, hbefore⟩ := List.find?_eq_some_iff_append.mp hprobe
  simp only [Bool.not_eq_true'] at hbefore
  refine ⟨?_, before.map Probe.path, ?_, ?_⟩
  · cases probe with
    | manifest => cases hends
    | config => exact hends
  · rw [ask, throughFirst_append_cons hbefore hends, List.map_append, List.map_singleton]
  · rintro _ hother hfile
    obtain ⟨other, hmem, rfl⟩ := List.mem_map.mp hother
    cases other with
    | manifest => exact List.mem_append_left _ hmem
    | config => exact absurd hfile (Bool.eq_false_iff.mp (hbefore _ hmem))

theorem asked_of_not_found {probes : List Probe} (h : (ask host probes).found = none)
    {other : String} (hother : other ∈ (ask host probes).asked) (hfile : host.isFile other = true) :
    .manifest other ∈ probes := by
  obtain ⟨probe, hmem, rfl⟩ := List.mem_map.mp hother
  have hprobe := mem_of_mem_throughFirst hmem
  have hends := List.find?_eq_none.mp (Option.map_eq_none_iff.mp h) probe hprobe
  cases probe with
  | manifest => exact hprobe
  | config => exact absurd hfile hends

end Ask

section Asked
variable {folder : String} {subpath : Option String} {specifier : PackageSpecifier}

/-- The manifest of a folder, and the config it names if it is to be used. -/
def viaProbes (host : Host) (folder : String) (used : Bool) : List Probe :=
  let manifest := Path.join folder manifestName
  let target? := if host.isFile manifest && used then manifestConfig? host manifest else none
  .manifest manifest :: (target?.map fun target => .config (Path.join folder target)).toList

/-- What the folder of a package is asked for. -/
def folderProbes (host : Host) (folder : String) (subpath : Option String) : List Probe :=
  let inside := subpath.getD configName
  let subfolder := Path.join folder inside
  viaProbes host subfolder true ++ viaProbes host folder subpath.isNone ++
    [.config (Path.join folder (withExtension inside)), .config (Path.join subfolder configName)]

/-- The directories whose package folders are asked, of those on the way to the root. -/
def askedDirs (package : String) (dirs : List String) : List String :=
  (throughFirst (EndsClimb package ·) dirs).filter (Path.baseName · ≠ Path.packageFolder)

def climbProbes (host : Host) (specifier : PackageSpecifier) (dirs : List String) : List Probe :=
  (askedDirs specifier.package dirs).flatMap fun dir =>
    folderProbes host (folderAt dir specifier.package) specifier.subpath

theorem viaManifest_eq_ask (used : Bool) :
    viaManifest host folder used = ask host (viaProbes host folder used) := by
  rw [viaManifest, viaProbes]
  generalize (if host.isFile (Path.join folder manifestName) && used
    then manifestConfig? host (Path.join folder manifestName) else none) = target?
  cases target? with
  | none => rfl
  | some target =>
    change _ = ask host [.manifest _, .config _]
    rw [ask_cons, if_neg (by simp [Probe.ends]), ← file_eq_ask]
    rfl

theorem lookupIn_eq_ask :
    lookupIn host folder subpath = ask host (folderProbes host folder subpath) := by
  simp only [lookupIn, folderProbes, viaManifest_eq_ask, file_eq_ask, ← ask_append,
    List.append_assoc, List.singleton_append]

theorem askedDirs_cons (package dir : String) (above : List String) :
    askedDirs package (dir :: above) =
      if Path.baseName dir = Path.packageFolder then askedDirs package above
      else dir :: if Path.isTopPackage (folderAt dir package) then [] else askedDirs package above := by
  by_cases hname : Path.baseName dir = Path.packageFolder
  · simp [askedDirs, throughFirst, EndsClimb, hname]
  · by_cases htop : Path.isTopPackage (folderAt dir package) = true <;>
      simp [askedDirs, throughFirst, EndsClimb, hname, htop]

theorem climb_eq_ask (dirs : List String) :
    climb host specifier dirs = ask host (climbProbes host specifier dirs) := by
  induction dirs with
  | nil => rfl
  | cons dir above ih =>
    rw [climb, climbProbes, askedDirs_cons]
    split
    · exact ih
    · have habove : (if Path.isTopPackage (folderAt dir specifier.package) then .nothing
          else climb host specifier above) =
          ask host ((if Path.isTopPackage (folderAt dir specifier.package) then []
            else askedDirs specifier.package above).flatMap fun dir =>
              folderProbes host (folderAt dir specifier.package) specifier.subpath) := by
        split
        · rfl
        · exact ih
      rw [List.flatMap_cons, ask_append, ← lookupIn_eq_ask, ← habove]

/-- The manifests that the package folder of a directory is asked for. -/
def manifestFiles (specifier : PackageSpecifier) (dir : String) : List String :=
  let folder := folderAt dir specifier.package
  let subfolder := Path.join folder (specifier.subpath.getD configName)
  [Path.join subfolder manifestName, Path.join folder manifestName]

theorem eq_of_manifest_mem_viaProbes {path : String} {used : Bool}
    (h : .manifest path ∈ viaProbes host folder used) : path = Path.join folder manifestName := by
  rw [viaProbes] at h
  rcases List.mem_cons.mp h with heq | hconfig
  · cases heq
    rfl
  · simp at hconfig

theorem mem_manifestFiles_of_mem_climbProbes {dirs : List String} {path : String}
    (h : .manifest path ∈ climbProbes host specifier dirs) :
    path ∈ (askedDirs specifier.package dirs).flatMap (manifestFiles specifier) := by
  obtain ⟨dir, hdir, hpath⟩ := List.mem_flatMap.mp h
  refine List.mem_flatMap.mpr ⟨dir, hdir, ?_⟩
  simp only [folderProbes, List.mem_append] at hpath
  rcases hpath with (hsub | htop) | hconfigs
  · simp [manifestFiles, eq_of_manifest_mem_viaProbes hsub]
  · simp [manifestFiles, eq_of_manifest_mem_viaProbes htop]
  · simp at hconfigs

end Asked

section Log
variable {specifier : PackageSpecifier}

/-- The log of a search ends with the config that it found, and of the other files in it only manifests
are there. -/
structure IsFaithful (host : Host) (manifests : List String) (lookup : Lookup) : Prop where
  found : ∀ path, lookup.found = some path → host.isFile path = true ∧
    ∃ earlier, lookup.asked = earlier ++ [path] ∧
      ∀ other ∈ earlier, host.isFile other = true → other ∈ manifests
  nothing : lookup.found = none →
    ∀ other ∈ lookup.asked, host.isFile other = true → other ∈ manifests

theorem isFaithful_climb (dirs : List String) :
    IsFaithful host ((askedDirs specifier.package dirs).flatMap (manifestFiles specifier))
      (climb host specifier dirs) := by
  rw [climb_eq_ask]
  constructor
  · intro path hpath
    obtain ⟨hfile, earlier, hasked, hearlier⟩ := asked_of_found hpath
    exact ⟨hfile, earlier, hasked, fun other hother hfile =>
      mem_manifestFiles_of_mem_climbProbes (hearlier other hother hfile)⟩
  · exact fun hnone other hother hfile =>
      mem_manifestFiles_of_mem_climbProbes (asked_of_not_found hnone hother hfile)

/-- The files that a directory is asked for where no manifest leads further. -/
def levelFiles (specifier : PackageSpecifier) (dir : String) : List String :=
  let folder := folderAt dir specifier.package
  let inside := specifier.subpath.getD configName
  let subfolder := Path.join folder inside
  [Path.join subfolder manifestName, Path.join folder manifestName,
    Path.join folder (withExtension inside), Path.join subfolder configName]

/-- Without manifests, the same files are asked for whatever is there, up to the first that is. -/
theorem climb_of_no_manifest (dirs : List String)
    (h : ∀ path, host.isFile path = true → Path.baseName path ≠ manifestName) :
    climb host specifier dirs =
      let files := (askedDirs specifier.package dirs).flatMap (levelFiles specifier)
      ⟨files.find? host.isFile, throughFirst host.isFile files⟩ := by
  have hnone (folder : String) : host.isFile (Path.join folder manifestName) = false :=
    Bool.eq_false_iff.mpr fun hfile =>
      h _ hfile (Path.baseName_join (by decide) (by decide) folder)
  have hvia (folder : String) (used : Bool) :
      viaProbes host folder used = [.manifest (Path.join folder manifestName)] := by
    simp [viaProbes, hnone]
  have hpaths : (climbProbes host specifier dirs).map Probe.path =
      (askedDirs specifier.package dirs).flatMap (levelFiles specifier) := by
    rw [climbProbes, List.map_flatMap]
    refine congrArg (List.flatMap · _) (funext fun dir => ?_)
    rw [folderProbes, hvia, hvia]
    rfl
  rw [climb_eq_ask, ask_eq_paths fun path hpath => ?_, hpaths]
  obtain ⟨dir, -, hdir⟩ := List.mem_flatMap.mp (mem_manifestFiles_of_mem_climbProbes hpath)
  simp only [manifestFiles, List.mem_cons, List.not_mem_nil, or_false] at hdir
  rcases hdir with rfl | rfl
  all_goals exact hnone _

theorem isClimb_levels {start : String} (h : Path.isAbsolute start = true) :
    Path.IsClimb (Path.slashed start) (levels start) := by
  have hempty : ∀ dir, Path.isAbsolute dir = true → dir ≠ "" := by
    rintro _ habsolute rfl
    exact absurd habsolute (by decide)
  have habsolute := Path.isAbsolute_slashed h
  rw [levels]
  generalize Path.slashed start = dir at habsolute
  induction dir using Path.ancestors.induct with
  | case1 dir hshorter ih =>
    rw [Path.ancestors, if_pos hshorter, throughFirst, decide_eq_false (hempty dir habsolute),
      Bool.or_false]
    split
    · rename_i hroot
      exact .root hroot
    · rename_i hroot
      exact .up (Bool.eq_false_iff.mpr hroot) (ih (Path.isAbsolute_parent habsolute))
  | case2 dir hlonger =>
    have hroot : Path.isRoot dir = true := by
      by_contra hroot
      exact hlonger (Path.length_parent_lt (hempty dir habsolute) (Bool.eq_false_iff.mpr hroot))
    rw [Path.ancestors, if_neg hlonger, throughFirst, hroot, Bool.true_or, if_pos rfl]
    exact .root hroot

/-- From an absolute directory the package folders on the way to the root are asked, and the log is
faithful. Without manifests in memory it holds the same files for each level, up to the one that is
found. -/
theorem lookupConfig_log {memory : Memory} {start specifier : String}
    (hstart : Path.isAbsolute start = true) :
    let lookup := lookupConfig memory.host start specifier
    let split := PackageSpecifier.ofText specifier
    ∃ dirs, Path.IsClimb (Path.slashed start) dirs ∧
      IsFaithful memory.host ((askedDirs split.package dirs).flatMap (manifestFiles split)) lookup ∧
      ((∀ path ∈ memory.paths, Path.baseName path ≠ manifestName) →
        let files := (askedDirs split.package dirs).flatMap (levelFiles split)
        lookup.found = files.find? memory.isFile ∧
          lookup.asked = throughFirst memory.isFile files) := by
  refine ⟨_, isClimb_levels hstart, isFaithful_climb _, fun hpaths => ?_⟩
  have hnone (path : String) (hfile : memory.isFile path = true) :
      Path.baseName path ≠ manifestName := by
    rw [← Path.baseName_slashed]
    exact hpaths _ (of_decide_eq_true hfile)
  rw [lookupConfig, climb_of_no_manifest _ hnone]
  exact ⟨rfl, rfl⟩

section Climbed

private def climbed : Memory := .ofFiles [("/node_modules/b/x.json", "\x7b\x7d")]

/-- The start is a package folder, which is passed over. The second level is the last one. -/
theorem lookupConfig_log_climbed :
    let lookup := lookupConfig climbed.host "/p/node_modules" "b/x"
    lookup.found = some "/node_modules/b/x.json" ∧
    lookup.asked = ["/p/node_modules/b/x/package.json", "/p/node_modules/b/package.json",
      "/p/node_modules/b/x.json", "/p/node_modules/b/x/tsconfig.json",
      "/node_modules/b/x/package.json", "/node_modules/b/package.json", "/node_modules/b/x.json"] := by
  intro lookup
  obtain ⟨dirs, hdirs, -, hlog⟩ :=
    @lookupConfig_log climbed "/p/node_modules" "b/x" (by decide +kernel)
  obtain ⟨hfound, hasked⟩ := hlog (by decide +kernel)
  obtain rfl := hdirs.unique
    (.up (by decide +kernel) (.up (by decide +kernel) (.root (by decide +kernel))))
  rw [hfound, hasked]
  decide +kernel

end Climbed

end Log

end Package
end Tsconfig
