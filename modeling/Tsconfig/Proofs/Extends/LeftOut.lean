import Mathlib
import Tsconfig.Host.Memory
import Tsconfig.Proofs.CompilerOptions.LeftOut
import Tsconfig.Proofs.Extends.Cycle
import Tsconfig.Proofs.FlatOverlay
import Tsconfig.Proofs.Json.Names

/-! Null takes an option back: with a null at the top, a config comes to what it comes to when none
of the configs behind it declares the option. -/
namespace Tsconfig
open Json Relation ExtendsTree

/-- The option `name` is left out of every config behind the one at `path`. Nothing else changes:
the files are the same, and manifests name the same configs. -/
structure Host.LeavesOut (name path : String) (before after : Host) : Prop where
  cwd : after.cwd = before.cwd
  isFile : after.isFile = before.isFile
  list : after.list = before.list
  configs : ∀ base, ReflTransGen (Extends before) path base → ∀ fields,
    fieldsAt? before base = some fields → fieldsAt? after base = some (dropOption name fields)
  manifests : ∀ folder, Package.manifestConfig? after (Path.join folder Package.manifestName) =
    Package.manifestConfig? before (Path.join folder Package.manifestName)

namespace Host.LeavesOut
variable {name path : String} {before after : Host}

theorem base (h : LeavesOut name path before after) {base : String}
    (hbase : Extends before path base) : LeavesOut name base before after :=
  { h with configs := fun inner hinner => h.configs inner (.head hbase hinner) }

private theorem file_eq (h : LeavesOut name path before after) (file : String) :
    Lookup.file after file = Lookup.file before file := by
  rw [Lookup.file, Lookup.file, h.isFile]

private theorem lookupIn_eq (h : LeavesOut name path before after) (folder : String)
    (subpath : Option String) :
    Package.lookupIn after folder subpath = Package.lookupIn before folder subpath := by
  have hvia (folder : String) (used : Bool) :
      Package.viaManifest after folder used = Package.viaManifest before folder used := by
    simp only [Package.viaManifest, h.isFile, h.manifests]
  simp only [Package.lookupIn, hvia, h.file_eq]

private theorem climb_eq (h : LeavesOut name path before after) (specifier : PackageSpecifier)
    (dirs : List String) :
    Package.climb after specifier dirs = Package.climb before specifier dirs := by
  induction dirs with
  | nil => rfl
  | cons dir above ih => simp only [Package.climb, h.lookupIn_eq, ih]

theorem lookup_eq (h : LeavesOut name path before after) (dir specifier : String) :
    lookup after dir specifier = lookup before dir specifier := by
  simp only [lookup, lookupPath, Package.lookupConfig, h.file_eq, h.climb_eq]

theorem readConfig_eq_ok (h : LeavesOut name path before after) {config : String}
    {file : ConfigFile} {specifiers : List String}
    (hread : readConfig before path config = .ok (file, specifiers)) :
    readConfig after path config = .ok (file.without name, specifiers) := by
  obtain ⟨fields, hfields, rfl, hbases⟩ := readConfig_eq_ok_iff.mp hread
  refine readConfig_eq_ok_iff.mpr ⟨_, h.configs path .refl fields hfields, rfl, ?_⟩
  rw [ConfigFile.bases_without, hbases]

end Host.LeavesOut

/-- Some config behind the one at `path` declares `paths`. -/
def DeclaresPaths (host : Host) (path : String) : Prop :=
  ∃ base fields, ReflTransGen (Extends host) path base ∧ fieldsAt? host base = some fields ∧
    (option? "paths" fields).isSome

theorem DeclaresPaths.of_base {host : Host} {path base : String} (hbase : Extends host path base) :
    DeclaresPaths host base → DeclaresPaths host path := by
  rintro ⟨inner, fields, hinner, hfields, hpaths⟩
  exact ⟨inner, fields, .head hbase hinner, hfields, hpaths⟩

namespace ExtendsTree
variable {name : String} {before after : Host}

-- The bases one by one: both runs add the same layers up, each without the option on the right.
private theorem exists_layerOn_leavesOut {anchored : Prop} {stack specifiers : List String}
    {dir : String} (hlookup : ∀ specifier, lookup after dir specifier = lookup before dir specifier)
    (ih : ∀ specifier ∈ specifiers, ∀ base, (lookup before dir specifier).found = some base →
      ∀ layer, (build before stack base base).layer = .ok layer →
      ∃ bare, (build after stack base base).layer = .ok bare ∧
        Layer.LeavesOut name anchored layer bare)
    {lower lowerBare layer : Layer} (hlower : Layer.LeavesOut name anchored lower lowerBare)
    (h : layerOn lower (specifiers.map (branch before stack dir)) = .ok layer) :
    ∃ bare, layerOn lowerBare (specifiers.map (branch after stack dir)) = .ok bare ∧
      Layer.LeavesOut name anchored layer bare := by
  induction specifiers generalizing lower lowerBare with
  | nil =>
    cases h
    exact ⟨lowerBare, rfl, hlower⟩
  | cons specifier rest ihrest =>
    obtain ⟨first, hfirst, h⟩ := bind_eq_ok_iff.mp h
    have hbranch : ∃ bare, (branch after stack dir specifier).layer = .ok bare ∧
        Layer.LeavesOut name anchored first bare := by
      cases hfound : (lookup before dir specifier).found with
      | none =>
        rw [branch_eq_missing hfound] at hfirst
        cases hfirst
        rw [branch_eq_missing (hlookup specifier ▸ hfound)]
        exact ⟨{}, rfl, .empty⟩
      | some base =>
        rw [branch_eq_build hfound] at hfirst
        rw [branch_eq_build (hlookup specifier ▸ hfound)]
        exact ih specifier List.mem_cons_self base hfound first hfirst
    obtain ⟨firstBare, hfirstBare, hleaves⟩ := hbranch
    obtain ⟨bare, hbare, hrest⟩ :=
      ihrest (fun specifier hmem => ih specifier (List.mem_cons_of_mem _ hmem))
        (hlower.overlay hleaves) h
    exact ⟨bare, bind_eq_ok_iff.mpr ⟨firstBare, hfirstBare, hbare⟩, hrest⟩

/-- A tree that comes through does so without the option as well. -/
theorem exists_layer_build_leavesOut {stack : List String} {path config : String} {layer : Layer}
    (hleft : Host.LeavesOut name path before after)
    (h : (build before stack path config).layer = .ok layer) :
    ∃ bare, (build after stack path config).layer = .ok bare ∧
      Layer.LeavesOut name (name = "pathsBasePath" ∧ DeclaresPaths before path) layer bare := by
  -- Along the first tree. What is behind a base is behind the config, so `hleft` passes downwards and
  -- a config that declares `paths` upwards.
  induction stack, path, config using build.induct before generalizing layer with
  | case1 stack path config hs =>
    rw [build_eq_circular hs] at h
    cases h
  | case2 stack path config hs fault hread =>
    rw [build_eq_faulty hs hread] at h
    cases h
  | case3 stack path config hs file specifiers hread ih =>
    rw [build_eq_config hs hread] at h
    rw [build_eq_config hs (hleft.readConfig_eq_ok hread)]
    obtain ⟨below, own, hbelow, hown, ⟨references, hreferences⟩, rfl⟩ := layer_config_eq_ok h
    have hbases : ∀ specifier ∈ specifiers, ∀ base,
        (lookup before file.dir specifier).found = some base → ∀ layer,
        (build before (path :: stack) base base).layer = .ok layer →
        ∃ bare, (build after (path :: stack) base base).layer = .ok bare ∧
          Layer.LeavesOut name (name = "pathsBasePath" ∧ DeclaresPaths before path) layer bare := by
      intro specifier hmem base hfound layer hlayer
      have hbase : Extends before path base :=
        (extends_iff_of_read hread).mpr ⟨specifier, hmem, hfound⟩
      obtain ⟨bare, hbare, hleaves⟩ := ih base (hleft.base hbase) hlayer
      exact ⟨bare, hbare, hleaves.mono (And.imp_right (.of_base hbase))⟩
    obtain ⟨belowBare, hbelowBare, hleaves⟩ :=
      exists_layerOn_leavesOut (hleft.lookup_eq file.dir) hbases .empty hbelow
    obtain ⟨ownBare, hownBare, hleavesOwn⟩ := ConfigFile.exists_layer_without name hown
    refine ⟨_, layer_config_of_ok hbelowBare hownBare (file.references_without.trans hreferences),
      hleaves.overlay (hleavesOwn.mono ?_)⟩
    rintro ⟨hname, hpaths⟩
    obtain ⟨fields, hfields, rfl, -⟩ := readConfig_eq_ok_iff.mp hread
    exact ⟨hname, path, fields, .refl, hfields, hpaths⟩

theorem exists_readConfig_of_layer {host : Host} {path config : String} {layer : Layer}
    (h : (build host [] path config).layer = .ok layer) :
    ∃ file specifiers, readConfig host path config = .ok (file, specifiers) := by
  cases hread : readConfig host path config with
  | error fault =>
    rw [build_eq_faulty List.not_mem_nil hread] at h
    cases h
  | ok read => exact ⟨read.1, read.2, rfl⟩

/-- What the config at the top says about files without patterns stays. -/
private theorem isEmpty_leavesOut {path config : String} {layer : Layer}
    (hleft : Host.LeavesOut name path before after)
    (h : (build before [] path config).layer = .ok layer) :
    (build after [] path config).isEmpty = (build before [] path config).isEmpty := by
  obtain ⟨file, specifiers, hread⟩ := exists_readConfig_of_layer h
  rw [build_eq_config List.not_mem_nil hread,
    build_eq_config List.not_mem_nil (hleft.readConfig_eq_ok hread)]
  cases specifiers with
  | nil => simp [isEmpty, references]
  | cons first rest => rfl

/-- A null at the top is what the layer of the whole tree holds. -/
private theorem get?_layer_of_null {host : Host} {path config : String} {layer : Layer}
    {fields : Object} (h : (build host [] path config).layer = .ok layer)
    (hfields : fieldsAt? host path = some fields) (hnull : option? name fields = some .null) :
    layer.options.get? name = some .null := by
  obtain ⟨file, specifiers, hread⟩ := exists_readConfig_of_layer h
  rw [build_eq_config List.not_mem_nil hread] at h
  obtain ⟨below, own, -, hown, -, rfl⟩ := layer_config_eq_ok h
  obtain ⟨_, hfields', rfl, -⟩ := readConfig_eq_ok_iff.mp hread
  cases hfields.symm.trans hfields'
  have hnames {entries : Object} (hentries : OrderedMap.find? "compilerOptions" fields =
      some (.obj entries)) : (entries.map Prod.fst).Nodup := by
    obtain ⟨_, -, hparse⟩ := fieldsAt?_eq_some_iff.mp hfields
    exact Commented.nodup_of_parseObject hparse hentries
  have hget := ConfigFile.get?_options_of_null (ConfigFile.layer_eq_ok_iff.mp hown).1 hnames hnull
  exact (OrderedMap.get?_overlay _ _ _).trans (by rw [hget, Option.some_or])

end ExtendsTree

theorem Discovery.discover_congr_list {before after : Host} (h : after.list = before.list)
    (request : Request) : discover after request = discover before request := by
  rw [discover, discover, collect, collect, h]

namespace Layer
variable {name : String} {anchored : Prop} {layer bare : Layer}

theorem get?_effectiveOptions_of_null (hallow : name ≠ "allowNonTsExtensions")
    (hpath : name ≠ "configFilePath") (hnull : layer.options.get? name = some .null)
    (config : String) : (layer.effectiveOptions config).get? name = none := by
  rw [Layer.get?_effectiveOptions layer config hpath hallow, hnull]
  rfl

/-- Where an option is null, leaving it out makes no difference. -/
theorem LeavesOut.get?_effectiveOptions (h : layer.LeavesOut name anchored bare)
    (hname : name ∉ ["noEmit", "allowNonTsExtensions", "configFilePath"])
    (hnull : layer.options.get? name = some .null) (config : String) {option : String}
    (hpaths : option = "pathsBasePath" → name ≠ "paths")
    (hanchored : option = name → ¬ anchored) :
    (bare.effectiveOptions config).get? option = (layer.effectiveOptions config).get? option := by
  simp only [List.mem_cons, List.not_mem_nil, or_false, not_or] at hname
  obtain ⟨hbase, hallow, hpath⟩ := hname
  by_cases hset : option = "configFilePath" ∨ option = "allowNonTsExtensions"
  · rcases hset with rfl | rfl <;> simp [effectiveOptions]
  · rw [not_or] at hset
    by_cases hoption : option = name
    · subst hoption
      have hnone : CompilerOptions.base.get? option = none := by
        rw [CompilerOptions.base, OrderedMap.get?_insert, if_neg hbase, OrderedMap.get?_empty]
      rw [get?_effectiveOptions_of_null hallow hpath hnull,
        Layer.get?_effectiveOptions bare config hset.1 hset.2, h.options.gone (hanchored rfl), hnone]
      rfl
    · rw [Layer.get?_effectiveOptions bare config hset.1 hset.2,
        Layer.get?_effectiveOptions layer config hset.1 hset.2,
        h.options.others option hoption hpaths]

/-- Of the options, what is searched for depends on three. -/
theorem LeavesOut.request_eq (h : layer.LeavesOut name anchored bare) (dir : String)
    {options bareOptions : CompilerOptions}
    (houtDir : bareOptions.get? "outDir" = options.get? "outDir")
    (hallowJs : bareOptions.get? "allowJs" = options.get? "allowJs")
    (hcheckJs : bareOptions.get? "checkJs" = options.get? "checkJs") :
    bare.request dir bareOptions = layer.request dir options := by
  simp only [request, CompilerOptions.text?, CompilerOptions.allowsJs, CompilerOptions.flag,
    houtDir, hallowJs, hcheckJs, h.included, h.excluded]

end Layer

namespace ResolvedConfig

/-- A null at the top takes an option back: the config comes to what it comes to when no config
behind it declares the option. Only the directory that goes with `paths` makes an exception. When it
is taken back itself, it is gone, whereas without the null a config that declares `paths` brings it;
and it may outlast `paths`. -/
theorem null_resets {before after : Host} {name config : String} {fields : Object}
    {resolved : ResolvedConfig}
    (hname : name ∉ ["noEmit", "allowNonTsExtensions", "configFilePath"])
    (hfields : fieldsAt? before (pathOf before config) = some fields)
    (hnull : option? name fields = some .null)
    (hleft : Host.LeavesOut name (pathOf before config) before after)
    (h : resolve before config = .ok resolved) :
    resolved.options.get? name = none ∧
      ∃ bare, resolve after config = .ok bare ∧ bare.roots = resolved.roots ∧
        (∀ option, option ≠ "pathsBasePath" →
          bare.options.get? option = resolved.options.get? option) ∧
        (name ≠ "paths" →
          (name = "pathsBasePath" → ¬ DeclaresPaths before (pathOf before config)) →
          bare.options.get? "pathsBasePath" = resolved.options.get? "pathsBasePath") := by
  obtain ⟨layer, found, hlayer, hempty, hfound, rfl⟩ := resolve_eq_ok_iff.mp h
  have hpath : pathOf after config = pathOf before config := by rw [pathOf, pathOf, hleft.cwd]
  have hnullLayer := get?_layer_of_null hlayer hfields hnull
  obtain ⟨bare, hbare, hleaves⟩ := exists_layer_build_leavesOut hleft hlayer
  have hoptions {option : String} (hpaths : option ≠ "pathsBasePath") :
      (bare.effectiveOptions config).get? option = (layer.effectiveOptions config).get? option :=
    hleaves.get?_effectiveOptions hname hnullLayer config (absurd · hpaths)
      fun hoption hanchored => hpaths (hoption.trans hanchored.1)
  have hsame : discovered after config bare = discovered before config layer := by
    have hrequest := hleaves.request_eq (Path.parent (pathOf before config))
      (hoptions (by decide)) (hoptions (by decide)) (hoptions (by decide))
    rw [discovered, discovered, hpath, hrequest, Discovery.discover_congr_list hleft.list,
      Layer.isSearching, Layer.isSearching, hleaves.included, hleaves.files]
  have hgone : (layer.effectiveOptions config).get? name = none := by
    simp only [List.mem_cons, not_or] at hname
    exact Layer.get?_effectiveOptions_of_null hname.2.1 hname.2.2.1 hnullLayer config
  refine ⟨hgone, _, resolve_eq_ok_iff.mpr ⟨bare, found, ?_, ?_, ?_, rfl⟩, ?_, ?_, ?_⟩
  · rw [treeOf, hpath, hbare]
  · rw [treeOf, hpath, isEmpty_leavesOut hleft hlayer]
    exact hempty
  · rw [hsame, hfound]
  · dsimp only
    rw [hleaves.files]
  · exact fun option hpaths => hoptions hpaths
  · intro hpaths hanchored
    exact hleaves.get?_effectiveOptions hname hnullLayer config (fun _ => hpaths)
      fun _ h => hanchored h.1 h.2

section Pair

private def lowerPath : String := "/p/base.json"

private def upperPath : String := "/p/q/tsconfig.json"

private theorem slashed_lowerPath : Path.slashed lowerPath = lowerPath := by decide +kernel

private theorem slashed_upperPath : Path.slashed upperPath = upperPath := by decide +kernel

private theorem lowerPath_lt : lowerPath < upperPath := by decide +kernel

-- A config and the one that it extends, by the options that they declare.
private def pair (lower upper : String) : Memory where
  files := [(lowerPath, "\x7b\"compilerOptions\": " ++ lower ++ "\x7d"),
    (upperPath, "\x7b\"extends\": \"../base\", \"files\": [\"a.ts\"], \"compilerOptions\": " ++
      upper ++ "\x7d")]
  sorted := List.pairwise_pair.mpr lowerPath_lt
  slashed := by simp [slashed_lowerPath, slashed_upperPath]

private def lowerFile (declared : Object) : ConfigFile :=
  ⟨lowerPath, lowerPath, [("compilerOptions", .obj declared)]⟩

private def upperFile (declared : Object) : ConfigFile :=
  ⟨upperPath, upperPath, [("extends", .str "../base"), ("files", .arr [.str "a.ts"]),
    ("compilerOptions", .obj declared)]⟩

private structure Holds (host : Host) (lower upper : Object) : Prop where
  path : pathOf host upperPath = upperPath
  lowerRead : readConfig host lowerPath lowerPath = .ok (lowerFile lower, [])
  upperRead : readConfig host upperPath upperPath = .ok (upperFile upper, ["../base"])
  found : (lookup host (upperFile upper).dir "../base").found = some lowerPath
  lowerManifest : Package.manifestConfig? host lowerPath = none
  upperManifest : Package.manifestConfig? host upperPath = none

private theorem treeOf_pair {host : Host} {lower upper : Object} (h : Holds host lower upper) :
    treeOf host upperPath = .config (upperFile upper) [.config (lowerFile lower) []] := by
  rw [treeOf, h.path, build_eq_config List.not_mem_nil h.upperRead, List.map_singleton,
    branch_eq_build h.found, build_eq_config (by decide) h.lowerRead, List.map_nil]

private theorem fieldsAt?_upperPath {host : Host} {lower upper : Object}
    (h : Holds host lower upper) :
    fieldsAt? host (pathOf host upperPath) = some (upperFile upper).fields := by
  obtain ⟨_, hfields, heq, -⟩ := readConfig_eq_ok_iff.mp h.upperRead
  cases heq
  rw [h.path]
  exact hfields

private theorem reached_pair {host : Host} {lower upper : Object} (h : Holds host lower upper)
    {path : String} (hreach : ReflTransGen (Extends host) upperPath path) :
    path = upperPath ∨ path = lowerPath := by
  induction hreach with
  | refl => exact .inl rfl
  | tail _ hstep ih =>
    rcases ih with rfl | rfl
    · obtain ⟨specifier, hmem, hfound⟩ := (extends_iff_of_read h.upperRead).mp hstep
      cases List.mem_singleton.mp hmem
      rw [h.found] at hfound
      cases hfound
      exact .inr rfl
    · obtain ⟨specifier, hmem, -⟩ := (extends_iff_of_read h.lowerRead).mp hstep
      cases hmem

private theorem manifestConfig?_pair {lower upper : String} {lowerFields upperFields : Object}
    (h : Holds (pair lower upper).host lowerFields upperFields) (path : String) :
    Package.manifestConfig? (pair lower upper).host path = none := by
  have hread (known : String) (hslashed : Path.slashed known = known)
      (hknown : known = Path.slashed path) :
      (pair lower upper).host.read path = (pair lower upper).host.read known := by
    rw [Memory.host]
    dsimp only
    rw [Memory.read, Memory.read, hslashed, hknown]
  by_cases hlower : lowerPath = Path.slashed path
  · rw [Package.manifestConfig?, hread lowerPath slashed_lowerPath hlower]
    exact h.lowerManifest
  · by_cases hupper : upperPath = Path.slashed path
    · rw [Package.manifestConfig?, hread upperPath slashed_upperPath hupper]
      exact h.upperManifest
    · have hnone : (pair lower upper).host.read path = none := by
        simp [Memory.host, Memory.read, pair, OrderedMap.find?, hlower, hupper]
      rw [Package.manifestConfig?, hnone]
      rfl

private theorem leavesOut_pair {lower upper lowerBare upperBare name : String}
    {lowerFields upperFields : Object} (h : Holds (pair lower upper).host lowerFields upperFields)
    (hbare : Holds (pair lowerBare upperBare).host (OrderedMap.drop name lowerFields)
      (OrderedMap.drop name upperFields)) :
    Host.LeavesOut name upperPath (pair lower upper).host (pair lowerBare upperBare).host where
  cwd := rfl
  isFile := rfl
  list := rfl
  configs base hbase fields hfields := by
    rcases reached_pair h hbase with rfl | rfl
    · obtain ⟨_, hupper, heq, -⟩ := readConfig_eq_ok_iff.mp h.upperRead
      obtain ⟨_, hupperBare, heqBare, -⟩ := readConfig_eq_ok_iff.mp hbare.upperRead
      cases heq
      cases heqBare
      cases hupper.symm.trans hfields
      exact hupperBare
    · obtain ⟨_, hlower, heq, -⟩ := readConfig_eq_ok_iff.mp h.lowerRead
      obtain ⟨_, hlowerBare, heqBare, -⟩ := readConfig_eq_ok_iff.mp hbare.lowerRead
      cases heq
      cases heqBare
      cases hlower.symm.trans hfields
      exact hlowerBare
  manifests folder := by rw [manifestConfig?_pair h, manifestConfig?_pair hbare]

private def mapped : Object := [("paths", .obj [("a", .arr [.str "b"])]), ("strict", .bool true)]

private def nulls : Object := [("strict", .null), ("pathsBasePath", .null)]

private def before : Memory :=
  pair "\x7b\"paths\": \x7b\"a\": [\"b\"]\x7d, \"strict\": true\x7d"
    "\x7b\"strict\": null, \"pathsBasePath\": null\x7d"

private theorem holds_before : Holds before.host mapped nulls := by
  constructor
  · decide +kernel
  · cbv
  · cbv
  · decide +kernel
  · cbv
  · cbv

private def withoutStrict : Memory :=
  pair "\x7b\"paths\": \x7b\"a\": [\"b\"]\x7d\x7d" "\x7b\"pathsBasePath\": null\x7d"

private theorem holds_withoutStrict :
    Holds withoutStrict.host (OrderedMap.drop "strict" mapped) (OrderedMap.drop "strict" nulls) := by
  constructor
  · decide +kernel
  · cbv
  · cbv
  · decide +kernel
  · cbv
  · cbv

private def withoutAnchor : Memory :=
  pair "\x7b\"paths\": \x7b\"a\": [\"b\"]\x7d, \"strict\": true\x7d" "\x7b\"strict\": null\x7d"

private theorem holds_withoutAnchor : Holds withoutAnchor.host
    (OrderedMap.drop "pathsBasePath" mapped) (OrderedMap.drop "pathsBasePath" nulls) := by
  constructor
  · decide +kernel
  · cbv
  · cbv
  · decide +kernel
  · cbv
  · cbv

theorem null_resets_strict :
    fieldsAt? before.host (pathOf before.host upperPath) = some (upperFile nulls).fields ∧
    option? "strict" (upperFile nulls).fields = some .null ∧
    Host.LeavesOut "strict" (pathOf before.host upperPath) before.host withoutStrict.host ∧
    ∃ resolved bare, resolve before.host upperPath = .ok resolved ∧
      resolve withoutStrict.host upperPath = .ok bare ∧ bare.roots = resolved.roots ∧
      ∀ option, bare.options.get? option = resolved.options.get? option := by
  have hfields := fieldsAt?_upperPath holds_before
  have hleft : Host.LeavesOut "strict" (pathOf before.host upperPath) before.host
      withoutStrict.host := by
    rw [holds_before.path]
    exact leavesOut_pair holds_before holds_withoutStrict
  have hresolves : (resolve before.host upperPath).isOk = true := by
    rw [resolve, treeOf_pair holds_before]
    cbv
  obtain ⟨resolved, hresolved⟩ := exists_of_isOk hresolves
  obtain ⟨-, bare, hbare, hroots, hothers, hanchor⟩ :=
    null_resets (by decide) hfields rfl hleft hresolved
  refine ⟨hfields, rfl, hleft, resolved, bare, hresolved, hbare, hroots, fun option => ?_⟩
  by_cases hoption : option = "pathsBasePath"
  · rw [hoption]
    exact hanchor (by decide) fun hname => absurd hname (by decide)
  · exact hothers option hoption

/-- A null in place of the directory that goes with `paths` takes it away, although the base would
bring it: the base declares `paths`. -/
theorem pathsBasePath_differs_of_null :
    fieldsAt? before.host (pathOf before.host upperPath) = some (upperFile nulls).fields ∧
    option? "pathsBasePath" (upperFile nulls).fields = some .null ∧
    Host.LeavesOut "pathsBasePath" (pathOf before.host upperPath) before.host withoutAnchor.host ∧
    ∃ resolved bare, resolve before.host upperPath = .ok resolved ∧
      resolve withoutAnchor.host upperPath = .ok bare ∧
      resolved.options.get? "pathsBasePath" = none ∧
      bare.options.get? "pathsBasePath" = some (.str "/p") := by
  have hbefore : (resolve before.host upperPath).map (·.options.get? "pathsBasePath") = .ok none := by
    rw [resolve, treeOf_pair holds_before]
    cbv
  have hafter : (resolve withoutAnchor.host upperPath).map (·.options.get? "pathsBasePath") =
      .ok (some (.str "/p")) := by
    rw [resolve, treeOf_pair holds_withoutAnchor]
    cbv
  obtain ⟨resolved, hresolved, hnone⟩ := exists_of_map_eq_ok hbefore
  obtain ⟨bare, hbare, hsome⟩ := exists_of_map_eq_ok hafter
  refine ⟨fieldsAt?_upperPath holds_before, rfl, ?_, resolved, bare, hresolved, hbare, hnone, hsome⟩
  rw [holds_before.path]
  exact leavesOut_pair holds_before holds_withoutAnchor

end Pair

end ResolvedConfig
end Tsconfig
