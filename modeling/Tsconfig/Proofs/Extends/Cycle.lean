import Mathlib
import Tsconfig.Host.Memory
import Tsconfig.Project
import Tsconfig.Proofs.Extends.Tree

/-! Loading a config comes to an end, and it reports a circularity only when the configs behind it go
round in a circle: being reached along several ways is no circle. -/
namespace Tsconfig
open Json Relation

namespace ConfigError

/-- The error is about `extends`, and its message says that configs go round in a circle. -/
def ReportsCircularity (error : ConfigError) : Prop :=
  error.kind = .setting "extends" ∧ "Circularity".toList <+: error.message.toList

-- The first two letters tell the message about a circularity from all others about `extends`.
private def NoCircle (text : String) : Prop :=
  (text.toList.take 2).length = 2 ∧ text.toList.take 2 ≠ ['C', 'i']

private theorem NoCircle.append {lead : String} (h : NoCircle lead) (rest : String) :
    NoCircle (lead ++ rest) := by
  have htake : (lead ++ rest).toList.take 2 = lead.toList.take 2 := by
    rw [String.toList_append]
    apply List.take_append_of_le_length
    have hlength := h.1
    rw [List.length_take] at hlength
    omega
  rwa [NoCircle, htake]

private theorem NoCircle.notCircularity {text : String} (h : NoCircle text) :
    ¬ "Circularity".toList <+: text.toList := by
  intro hprefix
  have hlead : ['C', 'i'] <+: text.toList := List.IsPrefix.trans (by decide) hprefix
  exact h.2 (List.prefix_iff_eq_take.mp hlead).symm

private theorem noCircle_option (name : String) (fault : OptionFault) :
    NoCircle (fault.message name) := by
  have hoption : NoCircle "Compiler option '" := by constructor <;> decide
  have hunknown : NoCircle "Unknown compiler option '" := by constructor <;> decide
  have hinvalid : NoCircle "Invalid value '" := by constructor <;> decide
  have hsubstitutions : NoCircle "Substitutions for pattern '" := by constructor <;> decide
  have hsubstitution : NoCircle "Substitution for pattern '" := by constructor <;> decide
  delta OptionFault.message
  cases fault with
  | notObject => exact (hoption.append _).append _
  | unknown => exact (hunknown.append _).append _
  | wrongType => exact (((((hoption.append _).append _).append _).append _).append _).append _
  | noChoice =>
    refine NoCircle.append (NoCircle.append ?_ _) _
    exact (((((hinvalid.append _).append _).append _).append _).append _).append _
  | noLibrary => exact (hinvalid.append _).append _
  | substitutionsNoList => exact (hsubstitutions.append _).append _
  | substitutionNoText => exact (hsubstitution.append _).append _

theorem reportsCircularity_iff {error : ConfigError} :
    error.ReportsCircularity ↔ ∃ files, error.fault = .circular files := by
  obtain ⟨config, fault⟩ := error
  constructor
  · rintro ⟨hkind, hmessage⟩
    cases fault with
    | circular files => exact ⟨files, rfl⟩
    | extendsNoText =>
      have hother : NoCircle "Compiler option 'extends' requires a value of type string." := by
        constructor <;> decide
      exact absurd hmessage hother.notCircularity
    | option name fault => exact absurd hmessage (noCircle_option name fault).notCircularity
    | noList field =>
      have hoption : NoCircle "Compiler option '" := by constructor <;> decide
      exact absurd hmessage ((hoption.append _).append _).notCircularity
    | unreadable => cases hkind
    | malformed diagnostic => cases hkind
    | notObject => cases hkind
    | referenceWithoutPath => simp [kind, ConfigFault.kind] at hkind
    | openEnd pattern => simp [kind, ConfigFault.kind] at hkind
    | noFiles => cases hkind
  · rintro ⟨files, rfl⟩
    refine ⟨rfl, ?_⟩
    change "Circularity".toList <+:
      ("Circularity detected while resolving configuration: " ++ " -> ".intercalate files).toList
    rw [String.toList_append]
    exact List.IsPrefix.trans (by decide +kernel) (List.prefix_append _ _)

end ConfigError

namespace ConfigFile

private theorem pathList_ne_circular {file : ConfigFile} {name : String} {files : List String} :
    file.pathList name ≠ .error (.circular files) := by
  intro h
  unfold pathList at h
  repeat' split at h
  all_goals cases h

private theorem options_ne_circular {file : ConfigFile} {files : List String} :
    file.options ≠ .error (.circular files) := by
  intro h
  unfold options at h
  repeat' split at h
  all_goals cases h

theorem layer_ne_circular {file : ConfigFile} {files : List String} :
    file.layer ≠ .error (.circular files) := by
  intro h
  simp only [layer, bind_eq_error_iff] at h
  rcases h with h | ⟨_, -, h | ⟨_, -, h | ⟨_, -, h | ⟨_, -, h⟩⟩⟩⟩
  · exact options_ne_circular h
  · exact pathList_ne_circular h
  · exact pathList_ne_circular h
  · exact pathList_ne_circular h
  · cases h

theorem references_ne_circular {file : ConfigFile} {files : List String} :
    file.references ≠ .error (.circular files) := by
  intro h
  unfold references at h
  split at h
  · cases h
  · cases h
  · obtain ⟨item, -, hitem⟩ := exists_error_of_mapM h
    unfold referenceOf at hitem
    repeat' split at hitem
    all_goals cases hitem
  · cases h

theorem bases_ne_circular {file : ConfigFile} {files : List String} :
    file.bases ≠ .error (.circular files) := by
  intro h
  unfold bases at h
  repeat' split at h
  all_goals cases h

end ConfigFile

namespace ExtendsTree

theorem readConfig_ne_circular {host : Host} {path name : String} {files : List String} :
    readConfig host path name ≠ .error (.circular files) := by
  intro h
  unfold readConfig at h
  split at h
  · cases h
  · split at h
    · cases h
    · cases h
    · rcases bind_eq_error_iff.mp h with h | ⟨_, -, h⟩
      · exact ConfigFile.bases_ne_circular h
      · cases h

/-- The config at `path` can be read, and one of its specifiers leads to `base`. -/
def Extends (host : Host) (path base : String) : Prop :=
  ∃ file specifiers, readConfig host path path = .ok (file, specifiers) ∧
    ∃ specifier ∈ specifiers, (lookup host file.dir specifier).found = some base

theorem extends_iff_of_read {host : Host} {path name base : String} {file : ConfigFile}
    {specifiers : List String} (h : readConfig host path name = .ok (file, specifiers)) :
    Extends host path base ↔
      ∃ specifier ∈ specifiers, (lookup host file.dir specifier).found = some base := by
  have hpath := readConfig_name h
  constructor
  · rintro ⟨_, _, hread, specifier, hmem, hfound⟩
    rw [hpath] at hread
    cases hread
    exact ⟨specifier, hmem, hfound⟩
  · rintro ⟨specifier, hmem, hfound⟩
    exact ⟨_, _, hpath, specifier, hmem, hfound⟩

theorem isSome_read_of_extends {host : Host} {path base : String} (h : Extends host path base) :
    (host.read path).isSome := by
  obtain ⟨_, _, hread, -⟩ := h
  exact isSome_read_of_readConfig hread

/-- From `path` one comes to a config that extends itself in one or more steps. -/
def ReachesCycle (host : Host) (path : String) : Prop :=
  ∃ start, ReflTransGen (Extends host) path start ∧ TransGen (Extends host) start start

/-- Configs of which each extends the next; the last is the first again. -/
structure ClosedWalk (host : Host) (files : List String) : Prop where
  walk : files.IsChain (Extends host)
  closed : files.head? = files.getLast?
  moves : 2 ≤ files.length

/-- From the load of a config, with the configs on whose behalf it is loaded, innermost first, to
the loads of its bases. There are none when the config is being loaded already. -/
inductive Nested (host : Host) : List String × String → List String × String → Prop
  | base {stack : List String} {path base : String} (hs : path ∉ stack)
      (h : Extends host path base) : Nested host (path :: stack, base) (stack, path)

theorem wellFounded_nested (host : Host) : WellFounded (Nested host) := by
  refine Subrelation.wf (r := InvImage (· < ·) fun load => countUnseen host.spellings load.1) ?_
    (InvImage.wf _ Nat.lt_wfRel.wf)
  rintro _ _ ⟨hs, h⟩
  exact countUnseen_cons_lt (Host.mem_spellings_of_read (isSome_read_of_extends h)) hs

/-- A config that loads has no endless ways below it. -/
theorem acc_of_layer_build {host : Host} {stack : List String} {path name : String} {layer : Layer}
    (h : (build host stack path name).layer = .ok layer) :
    Acc (fun base path => Extends host path base) path := by
  induction stack, path, name using build.induct host generalizing layer with
  | case1 stack path name hs =>
    rw [build_eq_circular hs] at h
    cases h
  | case2 stack path name hs fault hread =>
    rw [build_eq_faulty hs hread] at h
    cases h
  | case3 stack path name hs file specifiers hread ih =>
    rw [build_eq_config hs hread] at h
    obtain ⟨below, -, hbelow, -⟩ := layer_config_eq_ok h
    constructor
    intro base hbase
    obtain ⟨specifier, hmem, hfound⟩ := (extends_iff_of_read hread).mp hbase
    obtain ⟨own, hown⟩ := exists_ok_of_mem_layerOn hbelow (List.mem_map_of_mem hmem)
    rw [branch_eq_build hfound] at hown
    exact ih base hown

theorem not_reachesCycle_of_acc {host : Host} {path : String}
    (h : Acc (fun base path => Extends host path base) path) : ¬ ReachesCycle host path := by
  rintro ⟨start, hreach, hcycle⟩
  induction h with
  | intro path _ ih =>
    rcases hreach.cases_head with rfl | ⟨base, hbase, hreach⟩
    · -- One step along the cycle, which then also starts from there.
      obtain ⟨base, hbase, hback⟩ := TransGen.head'_iff.mp hcycle
      exact ih base hbase hback
    · exact ih base hbase hreach

theorem ClosedWalk.transGen {host : Host} {start : String} {files : List String}
    (h : ClosedWalk host (start :: files)) : TransGen (Extends host) start start := by
  obtain ⟨hwalk, hclosed, hmoves⟩ := h
  cases files with
  | nil => simp at hmoves
  | cons next rest =>
    obtain ⟨hfirst, hrest⟩ := List.isChain_cons_cons.mp hwalk
    have hlast : (next :: rest).getLast (List.cons_ne_nil _ _) = start := by
      rw [List.head?_cons, List.getLast?_cons_cons, List.getLast?_eq_some_getLast
        (List.cons_ne_nil _ _), Option.some_inj] at hclosed
      exact hclosed.symm
    exact TransGen.head' hfirst (List.relationReflTransGen_of_exists_isChain_cons rest hrest hlast)

theorem mem_of_mem_cycle {stack : List String} {path file : String} (h : file ∈ cycle stack path) :
    file ∈ path :: stack := by
  simp only [cycle, List.mem_cons, List.mem_append, List.mem_reverse, List.not_mem_nil,
    or_false] at h
  rcases h with rfl | h | rfl
  · exact List.mem_cons_self
  · exact List.mem_cons_of_mem _ ((List.takeWhile_sublist _).mem h)
  · exact List.mem_cons_self

theorem closedWalk_cycle {host : Host} {stack : List String} {path : String} (hs : path ∈ stack)
    (hstack : (path :: stack).IsChain fun inner outer => Extends host outer inner) :
    ClosedWalk host (cycle stack path) := by
  obtain ⟨inner, outer, rfl, hinner⟩ := List.eq_append_cons_of_mem hs
  have htake : (inner ++ path :: outer).takeWhile (· ≠ path) = inner := by
    rw [List.takeWhile_append_of_pos, List.takeWhile_cons_of_neg (by simp), List.append_nil]
    intro file hfile
    simpa using ne_of_mem_of_not_mem hfile hinner
  have hcycle : cycle (inner ++ path :: outer) path = (path :: inner ++ [path]).reverse := by
    rw [cycle, htake]
    simp
  constructor
  · rw [hcycle, List.isChain_reverse]
    exact hstack.prefix ⟨outer, by simp⟩
  · rw [cycle, ← List.cons_append, List.getLast?_concat]
    rfl
  · simp [hcycle]

/-- The circularity that a load reports: the invariant is that each config on the stack extends the
one further in, and that all of them are reached from `top`. -/
theorem closedWalk_of_circular {host : Host} {top : String} {stack : List String}
    {path name config : String} {files : List String}
    (hstack : (path :: stack).IsChain fun inner outer => Extends host outer inner)
    (hreach : ∀ file ∈ path :: stack, ReflTransGen (Extends host) top file)
    (h : (build host stack path name).layer = .error ⟨config, .circular files⟩) :
    ClosedWalk host files ∧ ∀ file ∈ files, ReflTransGen (Extends host) top file := by
  induction stack, path, name using build.induct host with
  | case1 stack path name hs =>
    rw [build_eq_circular hs] at h
    cases h
    exact ⟨closedWalk_cycle hs hstack, fun file hfile => hreach file (mem_of_mem_cycle hfile)⟩
  | case2 stack path name hs fault hread =>
    rw [build_eq_faulty hs hread] at h
    cases h
    exact absurd hread readConfig_ne_circular
  | case3 stack path name hs file specifiers hread ih =>
    rw [build_eq_config hs hread] at h
    rcases layer_config_eq_error h with hbelow | hown | hreferences
    · obtain ⟨tree, htree, herror⟩ := exists_error_of_layerOn hbelow
      obtain ⟨specifier, hmem, rfl⟩ := List.mem_map.mp htree
      cases hfound : (lookup host file.dir specifier).found with
      | none =>
        rw [branch_eq_missing hfound] at herror
        cases herror
      | some base =>
        rw [branch_eq_build hfound] at herror
        have hbase : Extends host path base :=
          (extends_iff_of_read hread).mpr ⟨specifier, hmem, hfound⟩
        apply ih base (List.isChain_cons_cons.mpr ⟨hbase, hstack⟩) ?_ herror
        intro file hfile
        rcases List.mem_cons.mp hfile with rfl | hfile
        · exact (hreach path List.mem_cons_self).tail hbase
        · exact hreach file hfile
    · exact absurd hown ConfigFile.layer_ne_circular
    · exact absurd hreferences ConfigFile.references_ne_circular

/-- Nested loads come to an end. A config that loads reaches no cycle, and one that reaches no cycle
reports no circularity. What is reported is a walk from a config that is reached back to itself. -/
theorem circularity_exact (host : Host) :
    WellFounded (Nested host) ∧
    ∀ path name,
      (∀ layer, (build host [] path name).layer = .ok layer → ¬ ReachesCycle host path) ∧
      (¬ ReachesCycle host path → ∀ error, (build host [] path name).layer = .error error →
        ¬ error.ReportsCircularity) ∧
      ∀ error, (build host [] path name).layer = .error error → error.ReportsCircularity →
        ∃ files, error.message = "Circularity detected while resolving configuration: " ++
            " -> ".intercalate files ∧
          ClosedWalk host files ∧ ∀ file ∈ files, ReflTransGen (Extends host) path file := by
  have hreported : ∀ path name error, (build host [] path name).layer = .error error →
      error.ReportsCircularity → ∃ files, error.fault = .circular files ∧
        ClosedWalk host files ∧ ∀ file ∈ files, ReflTransGen (Extends host) path file := by
    intro path name error h hcircular
    obtain ⟨files, hfault⟩ := ConfigError.reportsCircularity_iff.mp hcircular
    obtain ⟨config, fault⟩ := error
    subst hfault
    have hreach : ∀ file ∈ [path], ReflTransGen (Extends host) path file := by
      intro file hfile
      rw [List.mem_singleton.mp hfile]
    exact ⟨files, rfl, closedWalk_of_circular (List.isChain_singleton path) hreach h⟩
  refine ⟨wellFounded_nested host, fun path name => ⟨?_, ?_, ?_⟩⟩
  · intro layer h
    exact not_reachesCycle_of_acc (acc_of_layer_build h)
  · intro hno error h hcircular
    obtain ⟨files, -, hwalk, hreach⟩ := hreported path name error h hcircular
    cases files with
    | nil => simpa using hwalk.moves
    | cons start rest =>
      exact hno ⟨start, hreach start List.mem_cons_self, hwalk.transGen⟩
  · intro error h hcircular
    obtain ⟨files, hfault, hwalk⟩ := hreported path name error h hcircular
    refine ⟨files, ?_, hwalk⟩
    rw [ConfigError.message, hfault]
    rfl

private def ring : Host := (Memory.ofFiles [
  ("/a.json", "\x7b\"extends\": \"./b\"\x7d"),
  ("/b.json", "\x7b\"extends\": \"./a\"\x7d"),
  ("/left.json", "\x7b\"extends\": \"./low\"\x7d"),
  ("/low.json", "\x7b\x7d"),
  ("/right.json", "\x7b\"extends\": \"./low\"\x7d"),
  ("/top.json", "\x7b\"extends\": [\"./left\", \"./right\"], \"files\": 5\x7d")]).host

private def chained (path name base : String) : ConfigFile := ⟨path, name, [("extends", .str base)]⟩

private def low : ExtendsTree := .config ⟨"/low.json", "/low.json", []⟩ []

private def top : ConfigFile := ⟨"/top.json", "/top.json",
  [("extends", .arr [.str "./left", .str "./right"]), ("files", .num (.int 5 (by decide)))]⟩

private theorem build_chained {stack : List String} {path name specifier base : String}
    (h : path ∉ stack)
    (hread : readConfig ring path name = .ok (chained path name specifier, [specifier]))
    (hfound : (lookup ring (chained path name specifier).dir specifier).found = some base) :
    build ring stack path name =
      .config (chained path name specifier) [build ring (path :: stack) base base] := by
  rw [build_eq_config h hread, List.map_singleton, branch_eq_build hfound]

private theorem build_ring : build ring [] "/a.json" "a.json" =
    .config (chained "/a.json" "a.json" "./b") [.config (chained "/b.json" "/b.json" "./a")
      [.faulty ⟨"/a.json", .circular ["/a.json", "/b.json", "/a.json"]⟩]] := by
  rw [build_chained (by decide) (by cbv) (by decide +kernel : _ = some "/b.json"),
    build_chained (by decide) (by cbv) (by decide +kernel : _ = some "/a.json"),
    build_eq_circular (by decide)]
  rfl

private theorem build_low {stack : List String} (h : "/low.json" ∉ stack) :
    build ring stack "/low.json" "/low.json" = low := by
  have hread : readConfig ring "/low.json" "/low.json" =
    .ok (⟨"/low.json", "/low.json", []⟩, []) := by cbv
  exact build_eq_config h hread

private def sides : List String := ["/left.json", "/right.json"]

private theorem build_side {stack : List String} {path : String} (hside : path ∈ sides)
    (h : path ∉ stack) (hlow : "/low.json" ∉ stack) :
    build ring stack path path = .config (chained path path "./low") [low] := by
  have hread : readConfig ring path path = .ok (chained path path "./low", ["./low"]) ∧
      (lookup ring (chained path path "./low").dir "./low").found = some "/low.json" := by
    simp only [sides, List.mem_cons, List.not_mem_nil, or_false] at hside
    rcases hside with rfl | rfl
    all_goals exact ⟨by cbv, by decide +kernel⟩
  have hne : "/low.json" ≠ path := by
    rintro rfl
    exact absurd hside (by decide)
  rw [build_chained h hread.1 hread.2, build_low (List.not_mem_cons_of_ne_of_not_mem hne hlow)]

private theorem exists_layer_side {path : String} (hside : path ∈ sides) :
    ∃ layer, (build ring [] path path).layer = .ok layer := by
  rw [build_side hside List.not_mem_nil List.not_mem_nil]
  exact ⟨_, rfl⟩

private theorem read_top :
    readConfig ring "/top.json" "/top.json" = .ok (top, ["./left", "./right"]) := by cbv

private theorem found_left : (lookup ring top.dir "./left").found = some "/left.json" := by
  decide +kernel

private theorem found_right : (lookup ring top.dir "./right").found = some "/right.json" := by
  decide +kernel

private theorem build_top : build ring [] "/top.json" "/top.json" = .config top
    [.config (chained "/left.json" "/left.json" "./low") [low],
      .config (chained "/right.json" "/right.json" "./low") [low]] := by
  have hleft := build_side (by decide : "/left.json" ∈ sides)
    (by decide : "/left.json" ∉ ["/top.json"]) (by decide)
  have hright := build_side (by decide : "/right.json" ∈ sides)
    (by decide : "/right.json" ∉ ["/top.json"]) (by decide)
  rw [build_eq_config (by decide) read_top]
  simp only [List.map_cons, List.map_nil, branch_eq_build found_left, branch_eq_build found_right,
    hleft, hright]

private theorem not_reachesCycle_top : ¬ ReachesCycle ring "/top.json" := by
  apply not_reachesCycle_of_acc
  constructor
  intro base hbase
  obtain ⟨specifier, hmem, hfound⟩ := (extends_iff_of_read read_top).mp hbase
  have hside : base ∈ sides := by
    simp only [List.mem_cons, List.not_mem_nil, or_false] at hmem
    rcases hmem with rfl | rfl
    · rw [found_left] at hfound
      cases hfound
      exact List.mem_cons_self
    · rw [found_right] at hfound
      cases hfound
      exact List.mem_cons_of_mem _ List.mem_cons_self
  obtain ⟨layer, hlayer⟩ := exists_layer_side hside
  exact acc_of_layer_build hlayer

/-- Two configs in a circle; a config that loads; and one that is faulty over two others that share
their base. -/
theorem circularity_exact_ring :
    (∃ error, (build ring [] "/a.json" "a.json").layer = .error error ∧
      error.message =
        "Circularity detected while resolving configuration: /a.json -> /b.json -> /a.json" ∧
      ∃ files, error.message = "Circularity detected while resolving configuration: " ++
          " -> ".intercalate files ∧ ClosedWalk ring files) ∧
    ¬ ReachesCycle ring "/left.json" ∧
    ∃ error, (build ring [] "/top.json" "/top.json").layer = .error error ∧
      ¬ error.ReportsCircularity := by
  obtain ⟨-, hexact⟩ := circularity_exact ring
  refine ⟨?_, ?_, ?_⟩
  · have hlayer : (build ring [] "/a.json" "a.json").layer =
        .error ⟨"/a.json", .circular ["/a.json", "/b.json", "/a.json"]⟩ := by
      rw [build_ring]
      rfl
    obtain ⟨files, hmessage, hwalk, -⟩ := (hexact "/a.json" "a.json").2.2 _ hlayer
      (ConfigError.reportsCircularity_iff.mpr ⟨_, rfl⟩)
    exact ⟨_, hlayer, rfl, files, hmessage, hwalk⟩
  · obtain ⟨layer, hlayer⟩ := exists_layer_side (by decide : "/left.json" ∈ sides)
    exact (hexact _ _).1 layer hlayer
  · have hlayer : (build ring [] "/top.json" "/top.json").layer =
        .error ⟨"/top.json", .noList "files"⟩ := by
      rw [build_top]
      rfl
    exact ⟨_, hlayer, (hexact _ _).2.1 not_reachesCycle_top _ hlayer⟩

end ExtendsTree
end Tsconfig
