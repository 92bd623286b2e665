import Tsconfig.Config.Resolve
import Tsconfig.Host.Memory
import Tsconfig.Proofs.Extends.Cycle
import Tsconfig.Proofs.Extends.Declarations
import Tsconfig.Proofs.Package.Climb
import Tsconfig.Proofs.Path.Absolute

/-! Loading a config hides no fault of the configs behind it: it succeeds when all of them are sound
and none of them comes round to itself, and otherwise it reports the fault that is met first. -/
namespace Tsconfig
open Json Relation

namespace ExtendsTree

section Trees

mutual

/-- The faults in a tree, those of the bases before those of the config that extends them. -/
def faults : ExtendsTree → List ConfigError
  | missing => []
  | faulty error => [error]
  | config file bases => faultsOf bases ++ file.faults.map (ConfigError.mk file.name)

def faultsOf : List ExtendsTree → List ConfigError
  | [] => []
  | tree :: trees => faults tree ++ faultsOf trees

end

mutual

/-- The layers of a tree fail with the first fault in it. -/
theorem fault?_layer : ∀ tree : ExtendsTree, fault? tree.layer = tree.faults.head?
  | missing => rfl
  | faulty error => rfl
  | config file bases => by
    rw [layer, faults, List.head?_append, ← fault?_layerOn {} bases]
    refine fault?_bind _ fun below => ?_
    rw [List.head?_map, ConfigFile.head?_faults]
    cases file.layer with
    | error fault => rfl
    | ok own => cases file.references <;> rfl

theorem fault?_layerOn : ∀ (below : Layer) (trees : List ExtendsTree),
    fault? (layerOn below trees) = (faultsOf trees).head?
  | below, [] => rfl
  | below, tree :: trees => by
    rw [layerOn, faultsOf, List.head?_append, ← fault?_layer tree]
    exact fault?_bind _ fun own => fault?_layerOn (below.overlay own) trees

end

end Trees

section Order

/-- The configs that specifiers in a directory lead to, as far as there are any. -/
def foundBases (host : Host) (dir : String) (specifiers : List String) : List String :=
  specifiers.filterMap fun specifier => (lookup host dir specifier).found

/-- What keeps the config at a path from being read as far as its bases. -/
inductive Unusable (host : Host) (path : String) : ConfigFault → Prop
  | unreadable (hread : host.read path = none) : Unusable host path .unreadable
  | malformed {text : String} {diagnostic : Diagnostic} (hread : host.read path = some text)
      (hparse : Commented.parseObject text.toList = .error (.malformed diagnostic)) :
      Unusable host path (.malformed diagnostic)
  | notObject {text : String} (hread : host.read path = some text)
      (hparse : Commented.parseObject text.toList = .error .notObject) :
      Unusable host path .notObject
  | extendsNoText {fields : Object} (hfields : fieldsAt? host path = some fields)
      (hbases : ConfigFile.admits fields "extends" ConfigFile.isBases = false) :
      Unusable host path .extendsNoText

/-- The faults that are met on loading the config at `path`, which goes by `name`, on behalf of the
configs on the stack. A config in its own stack is not read again, and one that is unusable has no
other fault. Of all others the faults behind the bases come first, base by base, and then those of
the declarations. -/
inductive Met (host : Host) : List String → String → String → List ConfigError → Prop
  | circular {stack : List String} {path name : String} (hs : path ∈ stack) :
      Met host stack path name [⟨name, .circular (cycle stack path)⟩]
  | unusable {stack : List String} {path name : String} {fault : ConfigFault} (hs : path ∉ stack)
      (h : Unusable host path fault) : Met host stack path name [⟨name, fault⟩]
  | config {stack : List String} {path name : String} {file : ConfigFile}
      {specifiers : List String} {below : String → List ConfigError} (hs : path ∉ stack)
      (hread : readConfig host path name = .ok (file, specifiers))
      (hbelow : ∀ base ∈ foundBases host file.dir specifiers,
        Met host (path :: stack) base base (below base)) :
      Met host stack path name ((foundBases host file.dir specifiers).flatMap below ++
        file.faults.map (ConfigError.mk name))

variable {host : Host} {stack : List String} {path name : String}

theorem fault?_readConfig {fields : Object} (hfields : fieldsAt? host path = some fields) :
    fault? (readConfig host path name) =
      if ConfigFile.admits fields "extends" ConfigFile.isBases then none else some .extendsNoText := by
  obtain ⟨text, hread, hparse⟩ := fieldsAt?_eq_some_iff.mp hfields
  have hbases : fault? (ConfigFile.bases ⟨path, name, fields⟩) = _ := ConfigFile.fault?_bases
  simp only [readConfig, hread, hparse]
  rw [fault?_bind none fun _ => rfl, Option.or_none, hbases]

theorem readConfig_eq_error_iff {fault : ConfigFault} :
    readConfig host path name = .error fault ↔ Unusable host path fault := by
  constructor
  · intro h
    cases hread : host.read path with
    | none =>
      simp only [readConfig, hread] at h
      cases h
      exact .unreadable hread
    | some text =>
      cases hparse : Commented.parseObject text.toList with
      | error wrong =>
        cases wrong with
        | malformed diagnostic =>
          simp only [readConfig, hread, hparse] at h
          cases h
          exact .malformed hread hparse
        | notObject =>
          simp only [readConfig, hread, hparse] at h
          cases h
          exact .notObject hread hparse
      | ok fields =>
        have hfields := fieldsAt?_eq_some_iff.mpr ⟨text, hread, hparse⟩
        rw [← fault?_eq_some_iff, fault?_readConfig hfields, Option.ite_none_left_eq_some,
          Option.some_inj, Bool.not_eq_true] at h
        obtain ⟨hbases, rfl⟩ := h
        exact .extendsNoText hfields hbases
  · rintro (hread | ⟨hread, hparse⟩ | ⟨hread, hparse⟩ | ⟨hfields, hbases⟩)
    · simp only [readConfig, hread]
    · simp only [readConfig, hread, hparse]
    · simp only [readConfig, hread, hparse]
    · rw [← fault?_eq_some_iff, fault?_readConfig hfields, hbases]
      rfl

theorem faultsOf_branches (host : Host) (stack : List String) (dir : String)
    (specifiers : List String) :
    faultsOf (specifiers.map (branch host stack dir)) =
      (foundBases host dir specifiers).flatMap fun base => (build host stack base base).faults := by
  induction specifiers with
  | nil => rfl
  | cons specifier rest ih =>
    rw [List.map_cons, faultsOf, ih, foundBases, foundBases, List.filterMap_cons]
    cases hfound : (lookup host dir specifier).found with
    | none =>
      rw [branch_eq_missing hfound]
      rfl
    | some base =>
      rw [branch_eq_build hfound]
      rfl

theorem met_build (host : Host) (stack : List String) (path name : String) :
    Met host stack path name (build host stack path name).faults := by
  induction stack, path, name using build.induct host with
  | case1 stack path name hs =>
    rw [build_eq_circular hs]
    exact .circular hs
  | case2 stack path name hs fault hread =>
    rw [build_eq_faulty hs hread]
    exact .unusable hs (readConfig_eq_error_iff.mp hread)
  | case3 stack path name hs file specifiers hread ih =>
    obtain ⟨-, hname, -⟩ := readConfig_eq_ok hread
    rw [build_eq_config hs hread, faults, faultsOf_branches, hname]
    exact .config hs hread fun base _ => ih base

/-- What is met is met in one order only. -/
theorem Met.eq_faults {met : List ConfigError} (h : Met host stack path name met) :
    met = (build host stack path name).faults := by
  induction h with
  | circular hs =>
    rw [build_eq_circular hs]
    rfl
  | unusable hs h =>
    rw [build_eq_faulty hs (readConfig_eq_error_iff.mpr h)]
    rfl
  | config hs hread _ ih =>
    obtain ⟨-, hname, -⟩ := readConfig_eq_ok hread
    rw [build_eq_config hs hread, faults, faultsOf_branches, hname]
    congr 1
    exact List.flatMap_congr ih

/-- A load fails with the fault that is met first. -/
theorem layer_eq_error_iff {error : ConfigError} :
    (build host stack path name).layer = .error error ↔
      ∃ later, Met host stack path name (error :: later) := by
  rw [← fault?_eq_some_iff, fault?_layer, List.head?_eq_some_iff]
  constructor
  · rintro ⟨later, hfaults⟩
    exact ⟨later, hfaults ▸ met_build host stack path name⟩
  · rintro ⟨later, hmet⟩
    exact ⟨later, hmet.eq_faults.symm⟩

end Order

section Sound
variable {host : Host} {stack : List String} {path name : String}

/-- The config at a path can be read, and its fields are in order. -/
def SoundAt (host : Host) (path : String) : Prop :=
  ∃ fields, fieldsAt? host path = some fields ∧ ConfigFile.IsSound fields

theorem Unusable.not_soundAt {fault : ConfigFault} (h : Unusable host path fault) :
    ¬SoundAt host path := by
  rintro ⟨fields, hfields, hsound⟩
  obtain ⟨text, hread, hparse⟩ := fieldsAt?_eq_some_iff.mp hfields
  cases h <;> simp_all [hsound.bases]

theorem soundAt_iff_of_read {file : ConfigFile} {specifiers : List String}
    (h : readConfig host path name = .ok (file, specifiers)) :
    SoundAt host path ↔ file.faults = [] := by
  obtain ⟨fields, hfields, rfl, hbases⟩ := readConfig_eq_ok_iff.mp h
  have hsound : SoundAt host path ↔ ConfigFile.IsSound fields := by
    simp [SoundAt, hfields]
  rw [hsound]
  have hparts : ConfigFile.IsSound fields ↔ (ConfigFile.bases ⟨path, name, fields⟩).isOk = true ∧
    ConfigFile.faults ⟨path, name, fields⟩ = [] := ConfigFile.isSound_iff ⟨path, name, fields⟩
  rw [hparts, hbases]
  simp [Except.isOk, Except.toBool]

theorem extends_iff_mem_foundBases {base : String} {file : ConfigFile} {specifiers : List String}
    (h : readConfig host path name = .ok (file, specifiers)) :
    Extends host path base ↔ base ∈ foundBases host file.dir specifiers := by
  rw [extends_iff_of_read h, foundBases, List.mem_filterMap]

/-- Behind each fault that is met there is a config that is not sound or comes round to itself, and
the fault bears its name: that of the config at the top, or the path that a base was found at. -/
theorem Met.exists_culprit {met : List ConfigError} (h : Met host stack path name met)
    {error : ConfigError} (hmem : error ∈ met) : ∃ culprit,
      (culprit = path ∧ error.config = name ∨
        TransGen (Extends host) path culprit ∧ error.config = culprit) ∧
      (error.ReportsCircularity ∨ ¬SoundAt host culprit) := by
  induction h with
  | circular hs =>
    obtain rfl := List.mem_singleton.mp hmem
    exact ⟨_, .inl ⟨rfl, rfl⟩, .inl (ConfigError.reportsCircularity_iff.mpr ⟨_, rfl⟩)⟩
  | unusable hs h =>
    obtain rfl := List.mem_singleton.mp hmem
    exact ⟨_, .inl ⟨rfl, rfl⟩, .inr h.not_soundAt⟩
  | config hs hread _ ih =>
    rcases List.mem_append.mp hmem with hbelow | hown
    · obtain ⟨base, hbase, herror⟩ := List.mem_flatMap.mp hbelow
      have hextends := (extends_iff_mem_foundBases hread).mpr hbase
      obtain ⟨culprit, hculprit, hfault⟩ := ih base hbase herror
      refine ⟨culprit, .inr ?_, hfault⟩
      rcases hculprit with ⟨rfl, hname⟩ | ⟨hreach, hname⟩
      · exact ⟨.single hextends, hname⟩
      · exact ⟨.head hextends hreach, hname⟩
    · obtain ⟨fault, hfault, rfl⟩ := List.mem_map.mp hown
      refine ⟨_, .inl ⟨rfl, rfl⟩, .inr ?_⟩
      rw [soundAt_iff_of_read hread]
      exact List.ne_nil_of_mem hfault

theorem exists_read_of_layer {layer : Layer} (h : (build host stack path name).layer = .ok layer) :
    ∃ file specifiers below, readConfig host path name = .ok (file, specifiers) ∧
      layerOn {} (specifiers.map (branch host (path :: stack) file.dir)) = .ok below ∧
      file.faults = [] := by
  have hs : path ∉ stack := by
    intro hs
    rw [build_eq_circular hs] at h
    cases h
  cases hread : readConfig host path name with
  | error fault =>
    rw [build_eq_faulty hs hread] at h
    cases h
  | ok read =>
    obtain ⟨file, specifiers⟩ := read
    rw [build_eq_config hs hread] at h
    obtain ⟨below, own, hbelow, hown, ⟨references, hreferences⟩, -⟩ := layer_config_eq_ok h
    exact ⟨file, specifiers, below, rfl, hbelow, ConfigFile.faults_eq_nil hown hreferences⟩

/-- All configs behind one that loads load themselves, on its behalf. -/
theorem exists_layer_of_reaches {layer : Layer} {base : String}
    (h : (build host stack path name).layer = .ok layer)
    (hreach : ReflTransGen (Extends host) path base) :
    ∃ stack name own, (build host stack base name).layer = .ok own := by
  induction hreach with
  | refl => exact ⟨stack, name, layer, h⟩
  | @tail middle base _ hbase ih =>
    obtain ⟨inner, _, _, hmiddle⟩ := ih
    obtain ⟨file, specifiers, below, hread, hbelow, -⟩ := exists_read_of_layer hmiddle
    obtain ⟨specifier, hmem, hfound⟩ := (extends_iff_of_read hread).mp hbase
    obtain ⟨own, hown⟩ := exists_ok_of_mem_layerOn hbelow (List.mem_map_of_mem hmem)
    rw [branch_eq_build hfound] at hown
    exact ⟨middle :: inner, base, own, hown⟩

theorem soundAt_of_reaches {layer : Layer} {base : String}
    (h : (build host stack path name).layer = .ok layer)
    (hreach : ReflTransGen (Extends host) path base) : SoundAt host base := by
  obtain ⟨_, _, _, hbase⟩ := exists_layer_of_reaches h hreach
  obtain ⟨file, specifiers, _, hread, -, hfaults⟩ := exists_read_of_layer hbase
  exact (soundAt_iff_of_read hread).mpr hfaults

theorem reachesCycle_of_circular {error : ConfigError}
    (h : (build host [] path name).layer = .error error) (hcircular : error.ReportsCircularity) :
    ReachesCycle host path := by
  obtain ⟨files, hfault⟩ := ConfigError.reportsCircularity_iff.mp hcircular
  obtain ⟨config, fault⟩ := error
  subst hfault
  have hself : ∀ file ∈ [path], ReflTransGen (Extends host) path file := by
    intro file hfile
    rw [List.mem_singleton.mp hfile]
  obtain ⟨hwalk, hreach⟩ := closedWalk_of_circular (List.isChain_singleton path) hself h
  cases files with
  | nil => simpa using hwalk.moves
  | cons start rest => exact ⟨start, hreach start List.mem_cons_self, hwalk.transGen⟩

end Sound

section Named
variable {host : Host}

/-- No file goes by a drive letter and the extension of configs with only the colon between. -/
def HasNoDriveConfig (host : Host) : Prop :=
  ∀ letter : Char, letter.isAlpha = true →
    host.isFile (String.ofList [letter, ':'] ++ ".json") = false

theorem hasNoDriveConfig_of_paths {memory : Memory}
    (h : ∀ path ∈ memory.paths, path.toList[1]? ≠ some ':') : HasNoDriveConfig memory.host := by
  intro letter _
  refine decide_eq_false fun hmem => h _ hmem ?_
  simp [Path.slashed, Path.slashedChars]

theorem isAbsolute_of_lookupPath {path base : String} (hdrive : HasNoDriveConfig host)
    (hpath : Path.IsNormal path) (h : (lookupPath host path).found = some base) :
    Path.isAbsolute base = true := by
  have habsolute := Path.isAbsolute_of_normal hpath
  rw [lookupPath, Lookup.found_orElse, Option.or_eq_some_iff] at h
  rcases h with h | ⟨-, h⟩
  · rw [Lookup.found_file, Option.ite_none_right_eq_some, Option.some_inj] at h
    exact h.2 ▸ habsolute
  · split at h
    · cases h
    · rw [Lookup.found_file, Option.ite_none_right_eq_some, Option.some_inj] at h
      obtain ⟨hfile, rfl⟩ := h
      refine Path.isAbsolute_append habsolute ?_ _
      rintro ⟨letter, halpha, hbare⟩
      rw [Path.slashedChars_eq_self hpath.2.1] at hbare
      rw [← String.ofList_toList (s := path), hbare, hdrive letter halpha] at hfile
      cases hfile

theorem isAbsolute_of_extends {path base : String} (hdrive : HasNoDriveConfig host)
    (hpath : Path.isAbsolute path = true) (h : Extends host path base) :
    Path.isAbsolute base = true := by
  obtain ⟨file, specifiers, hread, specifier, -, hfound⟩ := h
  have hdir : Path.isAbsolute file.dir = true := by
    rw [ConfigFile.dir, (readConfig_eq_ok hread).1]
    exact Path.isAbsolute_parent hpath
  rw [lookup] at hfound
  split at hfound
  · exact isAbsolute_of_lookupPath hdrive (Path.isNormal_resolve (.inl hdir)) hfound
  · obtain ⟨nearer, level, farther, hlevels, hlevel, -⟩ := Package.found_climb_iff.mp hfound
    obtain ⟨-, inner, rfl⟩ := Package.isInside_of_foundAt hlevel
    have hmem : level ∈ Package.levels file.dir := hlevels ▸ List.mem_append_cons_self
    have hlevel := Path.isAbsolute_of_mem_ancestors (Path.isAbsolute_slashed hdir)
      (Package.mem_of_mem_throughFirst hmem)
    exact Path.isAbsolute_join (Path.isAbsolute_join (Path.isAbsolute_join hlevel _) _) _

end Named

/-- A config loads exactly when no circle is reached from it and all configs it comes to are sound.
Otherwise the load fails with the fault that is met first, under the name of the config behind it.
Bases of absolute configs have absolute names, as long as no file is a drive letter, a colon and the
extension of configs. -/
theorem first_fault (host : Host) (path name : String) :
    ((∃ layer, (build host [] path name).layer = .ok layer) ↔
      ¬ReachesCycle host path ∧
        ∀ base, ReflTransGen (Extends host) path base → SoundAt host base) ∧
    (∀ error, (build host [] path name).layer = .error error ↔
      ∃ later, Met host [] path name (error :: later)) ∧
    (∀ error, (build host [] path name).layer = .error error → ∃ culprit,
      (culprit = path ∧ error.config = name ∨
        TransGen (Extends host) path culprit ∧ error.config = culprit) ∧
      (error.ReportsCircularity ∨ ¬SoundAt host culprit)) ∧
    (Path.isAbsolute path = true → HasNoDriveConfig host →
      ∀ base, TransGen (Extends host) path base → Path.isAbsolute base = true) := by
  have hculprit (error : ConfigError) (h : (build host [] path name).layer = .error error) :
      ∃ culprit, (culprit = path ∧ error.config = name ∨
        TransGen (Extends host) path culprit ∧ error.config = culprit) ∧
      (error.ReportsCircularity ∨ ¬SoundAt host culprit) := by
    obtain ⟨later, hmet⟩ := layer_eq_error_iff.mp h
    exact hmet.exists_culprit List.mem_cons_self
  refine ⟨⟨?_, ?_⟩, fun error => layer_eq_error_iff, hculprit, ?_⟩
  · rintro ⟨layer, h⟩
    exact ⟨not_reachesCycle_of_acc (acc_of_layer_build h), fun base => soundAt_of_reaches h⟩
  · rintro ⟨hcycle, hsound⟩
    cases h : (build host [] path name).layer with
    | ok layer => exact ⟨layer, rfl⟩
    | error error =>
      obtain ⟨culprit, hname, hcircular | hunsound⟩ := hculprit error h
      · exact absurd (reachesCycle_of_circular h hcircular) hcycle
      · refine absurd (hsound culprit ?_) hunsound
        rcases hname with ⟨rfl, -⟩ | ⟨hreach, -⟩
        · exact .refl
        · exact hreach.to_reflTransGen
  · intro hpath hdrive base hreach
    induction hreach with
    | single h => exact isAbsolute_of_extends hdrive hpath h
    | tail _ h ih => exact isAbsolute_of_extends hdrive ih h

private def shaky : Memory := Memory.ofFiles [
  ("/t.json", "\x7b\"extends\": [\"./a\", \"./no\", \"./b\"], " ++
    "\"compilerOptions\": \x7b\"strict\": true\x7d, \"files\": true\x7d"),
  ("/a.json", "\x7b\x7d"),
  ("/b.json", "\x7b\"compilerOptions\": \x7b\"strict\": \"maybe\", \"nope\": true\x7d\x7d")]

private def shakyTop : ConfigFile := ⟨"/t.json", "t.json",
  [("extends", .arr [.str "./a", .str "./no", .str "./b"]),
    ("compilerOptions", .obj [("strict", .bool true)]), ("files", .bool true)]⟩

private def shakyBase : ConfigFile := ⟨"/b.json", "/b.json",
  [("compilerOptions", .obj [("strict", .str "maybe"), ("nope", .bool true)])]⟩

private theorem read_shakyTop :
    readConfig shaky.host "/t.json" "t.json" = .ok (shakyTop, ["./a", "./no", "./b"]) := by cbv

private theorem found_shakyBase :
    (lookup shaky.host shakyTop.dir "./b").found = some "/b.json" := by
  decide +kernel

private theorem build_shakyPlain {stack : List String} {name : String} (h : "/a.json" ∉ stack) :
    build shaky.host stack "/a.json" name = .config ⟨"/a.json", name, []⟩ [] := by
  have hread : readConfig shaky.host "/a.json" name = .ok (⟨"/a.json", name, []⟩, []) := by cbv
  exact build_eq_config h hread

private theorem build_shaky : build shaky.host [] "/t.json" "t.json" =
    .config shakyTop [.config ⟨"/a.json", "/a.json", []⟩ [], .missing, .config shakyBase []] := by
  have hbase : readConfig shaky.host "/b.json" "/b.json" = .ok (shakyBase, []) := by cbv
  have hplain : (lookup shaky.host shakyTop.dir "./a").found = some "/a.json" := by decide +kernel
  have hno : (lookup shaky.host shakyTop.dir "./no").found = none := by decide +kernel
  rw [build_eq_config (by decide) read_shakyTop]
  simp only [List.map_cons, List.map_nil, branch_eq_build hplain, branch_eq_missing hno,
    branch_eq_build found_shakyBase, build_shakyPlain (by decide : "/a.json" ∉ ["/t.json"]),
    build_eq_config (by decide : "/b.json" ∉ ["/t.json"]) hbase]

private theorem hasNoDriveConfig_shaky : HasNoDriveConfig shaky.host :=
  hasNoDriveConfig_of_paths (by decide +kernel)

/-- One config that loads, and one with a fault of its own over a base with two faults, of which the
first is in an option that is set again. -/
theorem first_fault_overridden :
    SoundAt shaky.host "/a.json" ∧
    (∃ later, Met shaky.host [] "/t.json" "t.json"
      (⟨"/b.json", .option "strict" (.wrongType .boolean (.str "maybe"))⟩ :: later)) ∧
    Path.isAbsolute "/b.json" = true := by
  refine ⟨?_, ?_, ?_⟩
  · have hloads : ∃ layer, (build shaky.host [] "/a.json" "a.json").layer = .ok layer := by
      rw [build_shakyPlain (by decide)]
      exact ⟨_, rfl⟩
    exact ((first_fault shaky.host "/a.json" "a.json").1.mp hloads).2 _ .refl
  · refine ((first_fault shaky.host "/t.json" "t.json").2.1 _).mp ?_
    rw [build_shaky]
    rfl
  · have hbase : Extends shaky.host "/t.json" "/b.json" :=
      (extends_iff_of_read read_shakyTop).mpr ⟨"./b", by simp, found_shakyBase⟩
    exact (first_fault shaky.host "/t.json" "t.json").2.2.2 (by decide +kernel)
      hasNoDriveConfig_shaky _ (.single hbase)

private def relative : Memory := (Memory.ofFiles [
  ("w/t.json", "\x7b\"extends\": \"./b\"\x7d"),
  ("w/b.json", "5")]).changeDir "w"

/-- Below a relative current directory the names of bases are relative too. -/
theorem fault_of_base_relative :
    ∃ error, (build relative.host [] (ResolvedConfig.pathOf relative.host "t.json") "t.json").layer =
        .error error ∧
      error.config ≠ "t.json" ∧ Path.isAbsolute error.config = false := by
  have hpath : ResolvedConfig.pathOf relative.host "t.json" = "w/t.json" := by decide +kernel
  have hread : readConfig relative.host "w/t.json" "t.json" =
    .ok (⟨"w/t.json", "t.json", [("extends", .str "./b")]⟩, ["./b"]) := by cbv
  have hfound : (lookup relative.host
    (ConfigFile.dir ⟨"w/t.json", "t.json", [("extends", .str "./b")]⟩) "./b").found =
      some "w/b.json" := by decide +kernel
  have hbase : readConfig relative.host "w/b.json" "w/b.json" = .error .notObject := by cbv
  refine ⟨⟨"w/b.json", .notObject⟩, ?_, by decide, by decide +kernel⟩
  rw [hpath, build_eq_config (by decide) hread, List.map_singleton, branch_eq_build hfound,
    build_eq_faulty (by decide) hbase]
  rfl

end ExtendsTree
end Tsconfig
