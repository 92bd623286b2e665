import Tsconfig.Config.Package
import Tsconfig.Host.Memory
import Tsconfig.Proofs.Path.Slashes

/-! The search for the config of a package finds the nearest one, unless the package folder at the
top of the file system has ended it before. -/
namespace Tsconfig
open Text

namespace Path

/-- Text below the top package folder continues with its name and a slash. -/
private theorem not_below_packageFolder {first : List Char} (hslash : '/' ∉ first)
    (hname : first ≠ packageFolder.toList) (rest : List Char) :
    first ++ '/' :: rest ≠ packageFolder.toList ∧
      ¬packageFolder.toList ++ ['/'] <+: first ++ '/' :: rest := by
  have hfolder : '/' ∉ packageFolder.toList := by decide
  refine ⟨fun heq => hfolder (heq ▸ by simp), fun hlead => ?_⟩
  rcases concat_prefix_cases hslash hlead with heq | hinside
  · exact hname heq.symm
  · exact hfolder (hinside.subset (by simp))

theorem isTopPackage_eq_false {root first rest : List Char} {path : String}
    (hpath : slashedChars path.toList = root ++ (first ++ '/' :: rest)) (hroot : OpenRoot root)
    (hne : first ≠ []) (hslash : '/' ∉ first) (hname : first ≠ packageFolder.toList)
    (hdrive : first ≠ [':']) : isTopPackage path = false := by
  obtain ⟨hshort, hlong⟩ := not_below_packageFolder hslash hname rest
  rw [← Bool.not_eq_true, isTopPackage, hpath]
  simp only [Bool.or_eq_true, decide_eq_true_eq, List.isPrefixOf_iff_prefix, not_or]
  cases hroot with
  | top =>
    obtain ⟨c, first, rfl⟩ := List.exists_cons_of_ne_nil hne
    simp only [List.cons_append, List.nil_append]
    by_cases hc : c = ':'
    · -- The colon makes a drive of the slash, and a segment follows it that is not empty.
      subst hc
      obtain ⟨d, first, rfl⟩ := List.exists_cons_of_ne_nil fun hnil => hdrive (hnil ▸ rfl)
      have hd : '/' ≠ d := by
        rintro rfl
        exact hslash (by simp)
      simp [hd, hd.symm, show '/'.utf8Size = 1 by decide]
    · split
      · rename_i heq
        exact absurd (List.cons.inj (List.cons.inj heq).2).1 hc
      · rw [List.nil_append, List.cons_append, List.prefix_cons_inj]
        exact ⟨fun heq => hshort (List.cons.inj heq).2, hlong⟩
  | @drive letter halpha =>
    have hletter : letter ≠ '/' := by
      rintro rfl
      exact absurd halpha (by decide)
    simp only [List.cons_append, List.nil_append]
    split
    · simpa using ⟨hshort, hlong⟩
    · simp [hletter, hletter.symm]
  | @server name hname => simp [packageFolder]

end Path

theorem Lookup.found_orElse (first : Lookup) (second : Unit → Lookup) :
    (first.orElse second).found = first.found.or (second ()).found := by
  rw [Lookup.orElse]
  cases hfirst : first.found with
  | some path => rw [Option.some_or]; exact hfirst
  | none => rw [Option.none_or]

theorem Lookup.found_file {host : Host} {path : String} :
    (Lookup.file host path).found = if host.isFile path then some path else none := rfl

namespace Package
variable {host : Host} {folder found : String} {subpath : Option String}

/-- The config found for a package folder is a file, and its path goes through that folder. -/
def IsInside (host : Host) (folder found : String) : Prop :=
  host.isFile found = true ∧ ∃ inner, found = Path.join folder inner

theorem isInside_of_file {inner : String}
    (h : (Lookup.file host (Path.join folder inner)).found = some found) :
    IsInside host folder found := by
  rw [Lookup.found_file, Option.ite_none_right_eq_some] at h
  obtain ⟨hfile, heq⟩ := h
  rw [Option.some_inj] at heq
  exact ⟨heq ▸ hfile, inner, heq.symm⟩

theorem isInside_of_viaManifest {used : Bool} (h : (viaManifest host folder used).found = some found) :
    IsInside host folder found := by
  rw [viaManifest] at h
  split at h
  · exact isInside_of_file h
  · cases h

theorem IsInside.of_join {inner : String} (h : IsInside host (Path.join folder inner) found) :
    IsInside host folder found := by
  obtain ⟨hfile, target, rfl⟩ := h
  exact ⟨hfile, Path.join inner target, Path.join_assoc folder inner target⟩

theorem isInside_of_lookupIn (h : (lookupIn host folder subpath).found = some found) :
    IsInside host folder found := by
  simp only [lookupIn, Lookup.found_orElse, Option.or_eq_some_iff] at h
  rcases h with ((h | ⟨-, h⟩) | ⟨-, h⟩) | ⟨-, h⟩
  · exact (isInside_of_viaManifest h).of_join
  · exact isInside_of_viaManifest h
  · exact isInside_of_file h
  · exact IsInside.of_join (isInside_of_file h)

theorem exists_lookupIn
    (h : host.isFile (Path.join folder (withExtension (subpath.getD configName))) = true) :
    ∃ found, (lookupIn host folder subpath).found = some found := by
  rw [← Option.isSome_iff_exists]
  simp [lookupIn, Lookup.found_orElse, Lookup.found_file, h]

section Climb
variable {specifier : PackageSpecifier}

/-- Whether nothing above a directory is searched: its package folder is the one at the top, or lies
in it. Directories that are package folders are passed over. -/
def EndsClimb (package dir : String) : Prop :=
  Path.baseName dir ≠ Path.packageFolder ∧ Path.isTopPackage (folderAt dir package) = true

instance (package dir : String) : Decidable (EndsClimb package dir) :=
  inferInstanceAs (Decidable (_ ∧ _))

/-- The package folder of a directory below a root goes through the directory. -/
theorem slashedChars_folderAt {dir : String} (package : String) (h : Path.IsNormal dir)
    (hbelow : Path.segments dir.toList ≠ []) :
    ∃ below, Path.slashedChars (folderAt dir package).toList = dir.toList ++ '/' :: below := by
  have hdir : dir.toList ≠ [] := fun hnil => absurd (congrArg Path.rootChars hnil) h.1
  have hjoin : Path.joinChars dir.toList Path.packageFolder.toList =
      dir.toList ++ '/' :: Path.packageFolder.toList :=
    Path.joinChars_of_ne_slash hdir (by decide) (Path.getLast?_ne_of_segments h hbelow)
  obtain ⟨more, hmore⟩ : dir.toList ++ '/' :: Path.packageFolder.toList <+:
      (folderAt dir package).toList := by
    rw [← hjoin, folderAt, Path.join, Path.join, String.toList_ofList, String.toList_ofList]
    exact Path.prefix_joinChars (Path.joinChars_ne_nil _ (by decide)) _
  rw [← hmore, Path.slashedChars, List.map_append, List.map_append, List.append_assoc]
  exact ⟨_, congrArg (· ++ _) (Path.slashedChars_eq_self h.2.1)⟩

/-- Outside the package folder at the top, a climb only ends at a root. A colon for a name makes a
drive of the root before it. -/
theorem not_endsClimb {package dir : String} {first : List Char} {rest : List (List Char)}
    (h : Path.IsNormal dir) (hsegments : Path.segments dir.toList = first :: rest)
    (hname : first ≠ Path.packageFolder.toList) (hdrive : first ≠ [':']) :
    ¬EndsClimb package dir := by
  have hbelow : Path.segments dir.toList ≠ [] := by simp [hsegments]
  have hroot := Path.openRoot_of_segments h hbelow
  obtain ⟨hne, hslash⟩ := Path.mem_segments h (show first ∈ _ by simp [hsegments])
  obtain ⟨below, hslashed⟩ := slashedChars_folderAt package h hbelow
  obtain ⟨rest, hfirst⟩ : ∃ rest, Path.slashedChars (folderAt dir package).toList =
      Path.rootChars dir.toList ++ (first ++ '/' :: rest) := by
    have hpath := (Path.root_append_segments dir.toList).symm
    rw [hsegments] at hpath
    have hsplit := hslashed.trans (congrArg (· ++ '/' :: below) hpath)
    by_cases hrest : rest = []
    · rw [hrest, joinWith_singleton] at hsplit
      exact ⟨below, hsplit.trans (List.append_assoc _ _ _)⟩
    · rw [joinWith_cons first hrest] at hsplit
      refine ⟨joinWith '/' rest ++ '/' :: below, hsplit.trans ?_⟩
      simp only [List.append_assoc, List.cons_append]
  rintro ⟨-, htop⟩
  rw [Path.isTopPackage_eq_false hfirst hroot hne hslash hname hdrive] at htop
  cases htop

/-- What the level of a directory finds. -/
def foundAt (host : Host) (specifier : PackageSpecifier) (dir : String) : Option String :=
  if Path.baseName dir = Path.packageFolder then none
  else (lookupIn host (folderAt dir specifier.package) specifier.subpath).found

theorem found_climb_cons (dir : String) (above : List String) :
    (climb host specifier (dir :: above)).found =
      (foundAt host specifier dir).or
        (if EndsClimb specifier.package dir then none else (climb host specifier above).found) := by
  rw [climb, foundAt]
  by_cases hname : Path.baseName dir = Path.packageFolder
  · simp [hname, EndsClimb]
  · by_cases htop : Path.isTopPackage (folderAt dir specifier.package) = true <;>
      simp [hname, htop, EndsClimb, Lookup.found_orElse, Lookup.nothing]

/-- The climb finds what the first level finds that finds anything, if no level before it is the
last one. -/
theorem found_climb_iff {dirs : List String} {path : String} :
    (climb host specifier dirs).found = some path ↔
      ∃ nearer dir farther, dirs = nearer ++ dir :: farther ∧
        foundAt host specifier dir = some path ∧
        ∀ other ∈ nearer, ¬EndsClimb specifier.package other ∧ foundAt host specifier other = none := by
  induction dirs with
  | nil => simp [climb, Lookup.nothing]
  | cons first above ih =>
    rw [found_climb_cons, Option.or_eq_some_iff]
    constructor
    · rintro (hfirst | ⟨hnone, hrest⟩)
      · exact ⟨[], first, above, rfl, hfirst, by simp⟩
      · rw [Option.ite_none_left_eq_some] at hrest
        obtain ⟨hends, hrest⟩ := hrest
        obtain ⟨nearer, dir, farther, rfl, hdir, hnearer⟩ := ih.mp hrest
        exact ⟨first :: nearer, dir, farther, rfl, hdir,
          List.forall_mem_cons.mpr ⟨⟨hends, hnone⟩, hnearer⟩⟩
    · rintro ⟨nearer, dir, farther, hsplit, hdir, hnearer⟩
      cases nearer with
      | nil =>
        obtain ⟨rfl, rfl⟩ := List.cons.inj hsplit
        exact .inl hdir
      | cons other nearer =>
        obtain ⟨rfl, rfl⟩ := List.cons.inj hsplit
        obtain ⟨⟨hends, hnone⟩, hnearer⟩ := List.forall_mem_cons.mp hnearer
        rw [if_neg hends]
        exact .inr ⟨hnone, ih.mpr ⟨nearer, dir, farther, rfl, hdir, hnearer⟩⟩

end Climb

section Levels

theorem throughFirst_sublist {α : Type} (p : α → Bool) (items : List α) :
    (throughFirst p items).Sublist items := by
  induction items with
  | nil => exact List.Sublist.refl _
  | cons first rest ih =>
    rw [throughFirst]
    split
    · exact List.singleton_sublist.mpr List.mem_cons_self
    · exact ih.cons_cons first

theorem mem_of_mem_throughFirst {α : Type} {p : α → Bool} {items : List α} {item : α}
    (h : item ∈ throughFirst p items) : item ∈ items :=
  (throughFirst_sublist p items).subset h

theorem throughFirst_eq_self {α : Type} {p : α → Bool} {items : List α}
    (h : items.Pairwise fun near _ => p near = false) : throughFirst p items = items := by
  induction items with
  | nil => rfl
  | cons first rest ih =>
    obtain ⟨hfirst, hrest⟩ := List.pairwise_cons.mp h
    rw [throughFirst]
    split
    · rename_i hp
      cases rest with
      | nil => rfl
      | cons next rest => exact absurd hp (by simp [hfirst next List.mem_cons_self])
    · rw [ih hrest]

theorem levels_of_normal {dir : String} (h : Path.IsNormal dir) : levels dir = Path.ancestors dir := by
  rw [levels, Path.slashed_of_normal h]
  refine throughFirst_eq_self ?_
  refine (Path.pairwise_ancestors h).imp_of_mem fun {near far} hnear _ hfar => ?_
  obtain ⟨hnormal, -, -⟩ := (Path.mem_ancestors_iff h).mp hnear
  obtain ⟨⟨-, hroot, hsegments⟩, hne⟩ := hfar
  have hbelow : Path.segments near.toList ≠ [] := by
    intro hnil
    rw [hnil, List.prefix_nil, ← hnil] at hsegments
    exact hne (Path.eq_of_segments_eq hroot hsegments)
  have hempty : near ≠ "" := by
    rintro rfl
    exact hbelow rfl
  rw [Path.isRoot_eq_false hnormal hbelow, decide_eq_false hempty, Bool.or_false]

/-- From a normal path, the search finds what the nearest directory finds that finds anything, and
nothing when the climb has ended before. -/
theorem found_lookupConfig_iff {start specifier path : String} (h : Path.IsNormal start) :
    (lookupConfig host start specifier).found = some path ↔
      ∃ dir, Path.IsAncestor dir start ∧ foundAt host (.ofText specifier) dir = some path ∧
        ∀ nearer, Path.IsAncestor nearer start → Path.IsAncestor dir nearer → dir ≠ nearer →
          ¬EndsClimb (PackageSpecifier.ofText specifier).package nearer ∧
            foundAt host (.ofText specifier) nearer = none := by
  rw [lookupConfig, levels_of_normal h, found_climb_iff]
  constructor
  · rintro ⟨before, dir, farther, hsplit, hdir, hbefore⟩
    refine ⟨dir, (Path.mem_ancestors_iff h).mp (by simp [hsplit]), hdir, ?_⟩
    intro nearer hstart hnearer hne
    exact hbefore nearer ((Path.mem_split_ancestors h hsplit).1.mpr ⟨hstart, hnearer, hne⟩)
  · rintro ⟨dir, hstart, hdir, hnearest⟩
    obtain ⟨before, farther, hsplit⟩ := List.append_of_mem ((Path.mem_ancestors_iff h).mpr hstart)
    refine ⟨before, dir, farther, hsplit, hdir, fun nearer hbefore => ?_⟩
    obtain ⟨hstart, hnearer, hne⟩ := (Path.mem_split_ancestors h hsplit).1.mp hbefore
    exact hnearest nearer hstart hnearer hne

theorem exists_foundAt {specifier : PackageSpecifier} {dir : String}
    (hname : Path.baseName dir ≠ Path.packageFolder)
    (hfile : host.isFile (Path.join (folderAt dir specifier.package)
      (withExtension (specifier.subpath.getD configName))) = true) :
    (foundAt host specifier dir).isSome = true := by
  obtain ⟨path, hpath⟩ := exists_lookupIn hfile
  rw [foundAt, if_neg hname, hpath, Option.isSome_some]

theorem isInside_of_foundAt {specifier : PackageSpecifier} {dir path : String}
    (h : foundAt host specifier dir = some path) :
    IsInside host (folderAt dir specifier.package) path := by
  rw [foundAt, Option.ite_none_left_eq_some] at h
  exact isInside_of_lookupIn h.2

/-- A config in the package folder of a directory is found, or one that is nearer to the start,
unless the climb ends below that directory. -/
theorem lookupConfig_nearest {start specifier dir : String} (hstart : Path.IsNormal start)
    (hdir : Path.IsAncestor dir start) (hname : Path.baseName dir ≠ Path.packageFolder)
    (hfile : host.isFile (Path.join (folderAt dir (PackageSpecifier.ofText specifier).package)
      (withExtension ((PackageSpecifier.ofText specifier).subpath.getD configName))) = true)
    (hclimb : ∀ nearer, Path.IsAncestor nearer start → Path.IsAncestor dir nearer → dir ≠ nearer →
      ¬EndsClimb (PackageSpecifier.ofText specifier).package nearer) :
    ∃ path nearest, (lookupConfig host start specifier).found = some path ∧
      Path.IsAncestor nearest start ∧ Path.IsAncestor dir nearest ∧
      IsInside host (folderAt nearest (PackageSpecifier.ofText specifier).package) path := by
  have hsome : (foundAt host (.ofText specifier) dir).isSome = true := exists_foundAt hname hfile
  obtain ⟨nearest, path, hnearest, hpath⟩ := Path.exists_isNearest hstart hdir hsome
  have hbetween : Path.IsAncestor dir nearest := hnearest.nearest dir hdir hsome
  refine ⟨path, nearest, ?_, hnearest.above, hbetween, isInside_of_foundAt hpath⟩
  refine (found_lookupConfig_iff hstart).mpr ⟨nearest, hnearest.above, hpath, ?_⟩
  intro nearer hs hn hne
  refine ⟨hclimb nearer hs (hbetween.trans hn) ?_,
    Option.not_isSome_iff_eq_none.mp (hnearest.not_nearer hs hn hne)⟩
  rintro rfl
  exact hne (hn.antisymm hbetween)

theorem lookupConfig_nearest_below_top :
    ∃ path nearest, (lookupConfig
        (Memory.ofFiles [("/p/node_modules/@s/base/tsconfig.json", "\x7b\x7d")]).host
        "/p/node_modules/q" "@s/base").found = some path ∧
      Path.IsAncestor nearest "/p/node_modules/q" ∧ Path.IsAncestor "/p" nearest ∧
      IsInside (Memory.ofFiles [("/p/node_modules/@s/base/tsconfig.json", "\x7b\x7d")]).host
        (folderAt nearest (PackageSpecifier.ofText "@s/base").package) path := by
  have hstart : Path.IsNormal "/p/node_modules/q" := by decide +kernel
  refine lookupConfig_nearest hstart (show Path.IsAncestor "/p" _ by decide +kernel) (by decide +kernel)
    (by decide +kernel) ?_
  intro nearer habove
  rw [← Path.mem_ancestors_iff hstart, Path.ancestors_eq hstart] at habove
  revert nearer
  decide +kernel

/-- Below the package folder at the top the climb ends before the top itself is searched. -/
theorem lookupConfig_inside_top :
    Path.IsNormal "/node_modules/x" ∧ Path.IsAncestor "/" "/node_modules/x" ∧
      Path.baseName "/" ≠ Path.packageFolder ∧
      (Memory.ofFiles [("/node_modules/P/tsconfig.json", "\x7b\x7d")]).host.isFile
        (Path.join (folderAt "/" (PackageSpecifier.ofText "P").package)
          (withExtension ((PackageSpecifier.ofText "P").subpath.getD configName))) = true ∧
      (lookupConfig (Memory.ofFiles [("/node_modules/P/tsconfig.json", "\x7b\x7d")]).host
        "/node_modules/x" "P").found = none := by
  refine ⟨by decide +kernel, by decide +kernel, by decide +kernel, by decide +kernel, ?_⟩
  rw [lookupConfig, levels_of_normal (by decide +kernel), Path.ancestors_eq (by decide +kernel)]
  decide +kernel

end Levels
end Package
end Tsconfig
