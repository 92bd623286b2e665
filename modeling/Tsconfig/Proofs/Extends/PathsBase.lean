import Tsconfig.Proofs.CompilerOptions.LeftOut
import Tsconfig.Proofs.Json.Names
import Tsconfig.Proofs.Module.MostSpecific

/-!
The targets of `paths` stay relative to the config that declares them. A config that declares `paths`
sets their directory along with them and no other config does, so behind any run of overlays both come
from one config, the last that declares `paths`.
-/
namespace Tsconfig
open Json

namespace ExtendsTree
variable {host : Host} {path name : String} {files : List ConfigFile}

/-- What holds of the configs behind every base holds of the configs behind a config. -/
theorem PostOrder.induct
    {motive : (path name : String) → (files : List ConfigFile) → PostOrder host path name files → Prop}
    (config : ∀ {path name : String} {file : ConfigFile} {specifiers : List String}
      {below : List (List ConfigFile)} (hread : readConfig host path name = .ok (file, specifiers))
      (hbelow : List.Forall₂ (fun base files => PostOrder host base base files)
        (specifiers.filterMap fun specifier => (lookup host file.dir specifier).found) below),
      List.Forall₂ (fun base files => ∃ h, motive base base files h)
        (specifiers.filterMap fun specifier => (lookup host file.dir specifier).found) below →
      motive path name (below.flatten ++ [file]) (.config hread hbelow))
    (h : PostOrder host path name files) : motive path name files h :=
  -- The type is nested in that of two lists side by side, so its recursor has a second motive.
  @PostOrder.rec host motive
    (fun bases below _ => List.Forall₂ (fun base files => ∃ h, motive base base files h) bases below)
    config .nil (fun h _ hfirst hrest => .cons ⟨h, hfirst⟩ hrest) path name files h

/-- There is one list of configs behind a path. -/
theorem PostOrder.unique {others : List ConfigFile} (h : PostOrder host path name files)
    (h' : PostOrder host path name others) : files = others := by
  induction h using PostOrder.induct generalizing others with
  | config hread hbelow ih =>
    obtain ⟨hread', hbelow'⟩ := h'
    cases hread.symm.trans hread'
    rw [eq_of_forall₂ (ih.imp fun _ _ hbase _ => hbase.2) hbelow']

theorem PostOrder.fieldsAt?_eq (h : PostOrder host path name files) :
    ∀ file ∈ files, fieldsAt? host file.path = some file.fields := by
  induction h using PostOrder.induct with
  | config hread hbelow ih =>
    intro file hfile
    rcases List.mem_append.mp hfile with hbase | htop
    · obtain ⟨_, hfiles, hfile⟩ := List.mem_flatten.mp hbase
      obtain ⟨_, -, _, hfields⟩ := exists_item_of_mem ih hfiles
      exact hfields file hfile
    · obtain ⟨_, hfields, rfl, -⟩ := readConfig_eq_ok_iff.mp hread
      rw [List.mem_singleton.mp htop]
      exact hfields

end ExtendsTree

namespace CompilerOptions
variable {dir name : String} {written value : Value}

/-- Converting keeps the names, and a value is what its own declaration comes to. -/
theorem exists_converted {fields : Object} {options : CompilerOptions}
    (h : convert dir (.obj fields) = .ok options) (hnames : (fields.map Prod.fst).Nodup) :
    ∃ converted : CompilerOptions, options = anchorPaths dir converted ∧
      ∀ name, Option.Rel (fun written value => convertOption dir name written = .ok value)
        (OrderedMap.find? name fields) (converted.get? name) := by
  obtain ⟨_, converted, ⟨⟩, hconverted, rfl⟩ := convert_eq_ok_iff.mp h
  have hsame := OrderedMap.names_of_mapM name_of_convertField hconverted
  refine ⟨_, rfl, fun name => ?_⟩
  rw [OrderedMap.ofList, OrderedMap.get?_insertAll _ _ (hsame ▸ hnames), OrderedMap.get?_empty,
    Option.or_none]
  cases hwritten : OrderedMap.find? name fields with
  | none =>
    have hnone : OrderedMap.find? name converted = none := by
      rw [← Option.not_isSome_iff_eq_none, OrderedMap.find?_isSome, hsame,
        ← OrderedMap.find?_isSome, hwritten]
      exact Bool.false_ne_true
    rw [hnone]
    exact .none
  | some written =>
    obtain ⟨value, hvalue, hfield⟩ :=
      OrderedMap.exists_find?_of_mapM name_of_convertField hconverted hwritten
    obtain ⟨_, hconvert, heq⟩ := convertField_eq_ok_iff.mp hfield
    cases heq
    rw [hvalue]
    exact .some hconvert

/-- Unless null, `paths` stays as it is declared: lists of texts by pattern. -/
theorem exists_entries_of_convertOption (h : convertOption dir "paths" written = .ok value)
    (hvalue : value ≠ .null) :
    ∃ entries, written = .obj entries ∧ value = .obj entries ∧
      ∀ entry ∈ entries, entry.2.isTexts = true := by
  have hok : (convertOption dir "paths" written).isOk = true := by
    rw [h]
    rfl
  rw [isOk_convertOption, isDeclarable, show OptionKind.ofName? "paths" = some .pathMap from rfl]
    at hok
  rw [convertOption, show OptionKind.ofName? "paths" = some .pathMap from rfl] at h
  cases written with
  | null =>
    cases h
    exact absurd rfl hvalue
  | obj entries =>
    obtain ⟨_, -, h⟩ := bind_eq_ok_iff.mp h
    cases h
    exact ⟨entries, rfl, rfl, List.all_eq_true.mp hok⟩
  | _ => cases hok

/-- There is a mapping for each entry of `paths` with a key and targets, and the targets are as seen
from the directory of `paths`. -/
theorem mem_pathMappings_iff {options : CompilerOptions} {entries : Object} {base : String}
    {mapping : PathMapping} (hpaths : options.get? "paths" = some (.obj entries))
    (hbase : pathsBase? options = some base)
    (htexts : ∀ entry ∈ entries, entry.2.isTexts = true) :
    mapping ∈ pathMappings options ↔ ∃ entry ∈ entries, entry.2 ≠ .arr [] ∧
      PathKey.parse? entry.1 = some mapping.key ∧
      mapping.targets = (PathMapping.writtenTargets entry).map (Path.resolve base) := by
  rw [pathMappings, hpaths, hbase]
  simp only [List.mem_mergeSort, List.mem_filterMap]
  exact exists_congr fun entry => and_congr_right fun hentry =>
    PathMapping.ofEntry?_eq_some_iff (htexts entry hentry)

end CompilerOptions

namespace ConfigFile
variable {file : ConfigFile} {options : CompilerOptions}

theorem exists_converted (h : file.options = .ok options)
    (hnames : ∀ {entries}, file.field? "compilerOptions" = some (.obj entries) →
      (entries.map Prod.fst).Nodup) :
    ∃ converted : CompilerOptions, options = CompilerOptions.anchorPaths file.dir converted ∧
      ∀ name, Option.Rel
        (fun written value => CompilerOptions.convertOption file.dir name written = .ok value)
        (option? name file.fields) (converted.get? name) := by
  have hoption (name : String) : option? name file.fields =
      (file.field? "compilerOptions").bind (Value.field? name) := rfl
  unfold ConfigFile.options at h
  split at h
  · rename_i hnone
    cases h
    exact ⟨∅, rfl, fun name => by rw [hoption, hnone]; exact .none⟩
  · rename_i hnull
    cases h
    exact ⟨∅, rfl, fun name => by rw [hoption, hnull]; exact .none⟩
  · rename_i declared _ hdeclared
    split at h
    · rename_i hconvert
      cases h
      obtain ⟨fields, _, rfl, -⟩ := CompilerOptions.convert_eq_ok_iff.mp hconvert
      obtain ⟨converted, hanchor, hrel⟩ :=
        CompilerOptions.exists_converted hconvert (hnames hdeclared)
      exact ⟨converted, hanchor, fun name => by rw [hoption, hdeclared]; exact hrel name⟩
    · cases h

/-- Without a directory declared for it, `paths` brings that of the config, and nothing else does. -/
theorem get?_pathsBasePath (h : file.options = .ok options)
    (hnames : ∀ {entries}, file.field? "compilerOptions" = some (.obj entries) →
      (entries.map Prod.fst).Nodup)
    (hfree : option? "pathsBasePath" file.fields = none) :
    Option.Rel (fun written value => CompilerOptions.convertOption file.dir "paths" written = .ok value)
        (option? "paths" file.fields) (options.get? "paths") ∧
      options.get? "pathsBasePath" =
        (option? "paths" file.fields).map fun _ => .str file.dir := by
  obtain ⟨converted, rfl, hrel⟩ := exists_converted h hnames
  have hnone : converted.get? "pathsBasePath" = none := by
    have hanchor := hrel "pathsBasePath"
    rw [hfree] at hanchor
    cases hget : converted.get? "pathsBasePath" with
    | none => rfl
    | some value =>
      rw [hget] at hanchor
      cases hanchor
  have hpaths := hrel "paths"
  rw [CompilerOptions.get?_anchorPaths (by decide), CompilerOptions.get?_anchorPaths_eq, hnone,
    Option.none_or]
  refine ⟨hpaths, ?_⟩
  revert hpaths
  cases option? "paths" file.fields <;> cases converted.get? "paths" <;>
    simp

end ConfigFile

/-- Of some configs, the last one that declares an option, and what it declares. -/
structure LastDeclares (name : String) (files : List ConfigFile) (file : ConfigFile)
    (written : Value) : Prop where
  split : ∃ below above, files = below ++ file :: above ∧
    ∀ other ∈ above, option? name other.fields = none
  declared : option? name file.fields = some written

/-- What overlays of the options of some configs hold: `paths` as the last config that declares it has
it, and next to it the directory of that config. -/
inductive Anchored (files : List ConfigFile) (options : CompilerOptions) : Prop
  | undeclared (hfiles : ∀ file ∈ files, option? "paths" file.fields = none)
      (hpaths : options.get? "paths" = none) (hbase : options.get? "pathsBasePath" = none)
  | declared {file : ConfigFile} {written value : Value}
      (hlast : LastDeclares "paths" files file written)
      (hvalue : CompilerOptions.convertOption file.dir "paths" written = .ok value)
      (hpaths : options.get? "paths" = some value)
      (hbase : options.get? "pathsBasePath" = some (.str file.dir))

section Anchored
variable {files more : List ConfigFile} {file : ConfigFile} {options own : CompilerOptions}
  {layers : List CompilerOptions}

theorem LastDeclares.concat {name : String} {written : Value} {other : ConfigFile}
    (h : LastDeclares name files file written) (hother : option? name other.fields = none) :
    LastDeclares name (files ++ [other]) file written := by
  obtain ⟨⟨below, above, rfl, habove⟩, hdeclared⟩ := h
  refine ⟨⟨below, above ++ [other], by simp, fun config hconfig => ?_⟩, hdeclared⟩
  rcases List.mem_append.mp hconfig with hconfig | hconfig
  · exact habove config hconfig
  · rw [List.mem_singleton.mp hconfig]
    exact hother

/-- One more config on top either declares `paths` and sets both options, or touches neither. -/
theorem Anchored.overlay (h : Anchored files options) (hown : file.options = .ok own)
    (hnames : ∀ {entries}, file.field? "compilerOptions" = some (.obj entries) →
      (entries.map Prod.fst).Nodup)
    (hfree : option? "pathsBasePath" file.fields = none) :
    Anchored (files ++ [file]) (options.overlay own) := by
  obtain ⟨hpaths, hbase⟩ := ConfigFile.get?_pathsBasePath hown hnames hfree
  cases hwritten : option? "paths" file.fields with
  | some written =>
    rw [hwritten] at hpaths hbase
    cases hvalue : own.get? "paths" with
    | none =>
      rw [hvalue] at hpaths
      cases hpaths
    | some value =>
      rw [hvalue] at hpaths
      cases hpaths with
      | some hconvert =>
        refine .declared ⟨⟨files, [], rfl, by simp⟩, hwritten⟩ hconvert ?_ ?_
        · rw [OrderedMap.get?_overlay, hvalue, Option.some_or]
        · rw [OrderedMap.get?_overlay, hbase, Option.map_some, Option.some_or]
  | none =>
    rw [hwritten] at hpaths hbase
    have hkept : (options.overlay own).get? "paths" = options.get? "paths" := by
      cases hvalue : own.get? "paths" with
      | none => rw [OrderedMap.get?_overlay, hvalue, Option.none_or]
      | some value =>
        rw [hvalue] at hpaths
        cases hpaths
    have hkept' : (options.overlay own).get? "pathsBasePath" = options.get? "pathsBasePath" := by
      rw [OrderedMap.get?_overlay, hbase, Option.map_none, Option.none_or]
    cases h with
    | undeclared hfiles hpaths hbase =>
      refine .undeclared (fun other hother => ?_) (hkept.trans hpaths) (hkept'.trans hbase)
      rcases List.mem_append.mp hother with hother | hother
      · exact hfiles other hother
      · rw [List.mem_singleton.mp hother]
        exact hwritten
    | declared hlast hvalue hpaths hbase =>
      exact .declared (hlast.concat hwritten) hvalue (hkept.trans hpaths) (hkept'.trans hbase)

theorem Anchored.foldl (h : Anchored files options)
    (hown : List.Forall₂ (fun file options => ConfigFile.options file = .ok options) more layers)
    (hnames : ∀ file ∈ more, ∀ {entries}, file.field? "compilerOptions" = some (.obj entries) →
      (entries.map Prod.fst).Nodup)
    (hfree : ∀ file ∈ more, option? "pathsBasePath" file.fields = none) :
    Anchored (files ++ more) (layers.foldl OrderedMap.overlay options) := by
  induction hown generalizing files options with
  | nil =>
    rw [List.append_nil]
    exact h
  | @cons file own rest _ hfirst _ ih =>
    obtain ⟨hnames, hrestnames⟩ := List.forall_mem_cons.mp hnames
    obtain ⟨hfree, hrestfree⟩ := List.forall_mem_cons.mp hfree
    rw [List.append_cons]
    exact ih (h.overlay hfirst hnames hfree) hrestnames hrestfree

open ExtendsTree in
/-- The options that the configs behind a config come to are overlays, in their order. -/
theorem Anchored.of_layer {host : Host} {path name : String} {layer : Layer}
    (h : (build host [] path name).layer = .ok layer) (horder : PostOrder host path name files)
    (hfree : ∀ file ∈ files, option? "pathsBasePath" file.fields = none) :
    Anchored files layer.options := by
  obtain ⟨_, own, hflat⟩ := exists_flatOverlay h
  obtain rfl := horder.unique hflat.order
  have hnames (file : ConfigFile) (hfile : file ∈ files) {entries : Object}
      (hentries : file.field? "compilerOptions" = some (.obj entries)) :
      (entries.map Prod.fst).Nodup := by
    obtain ⟨_, -, hparse⟩ := fieldsAt?_eq_some_iff.mp (horder.fieldsAt?_eq file hfile)
    exact Commented.nodup_of_parseObject hparse hentries
  have hempty : Anchored [] ∅ := .undeclared (fun _ hfile => absurd hfile List.not_mem_nil) rfl rfl
  rw [hflat.options]
  exact hempty.foldl hflat.converted hnames hfree

end Anchored

namespace ResolvedConfig
open ExtendsTree CompilerOptions

/-- Where no config declares a directory for `paths`, the options in effect hold the `paths` of the last
config that declares it, together with its directory. So without a `baseUrl` the mappings are those of
the entries of that config, with their targets as seen from there. -/
theorem paths_anchored {host : Host} {config : String} {resolved : ResolvedConfig}
    {files : List ConfigFile} {value : Value} (h : resolve host config = .ok resolved)
    (horder : PostOrder host (pathOf host config) config files)
    (hfree : ∀ file ∈ files, option? "pathsBasePath" file.fields = none)
    (hpaths : resolved.options.get? "paths" = some value) :
    ∃ file entries, value = .obj entries ∧ LastDeclares "paths" files file value ∧
      resolved.options.get? "pathsBasePath" = some (.str file.dir) ∧
      (text? resolved.options "baseUrl" = none → ∀ mapping,
        mapping ∈ pathMappings resolved.options ↔ ∃ entry ∈ entries, entry.2 ≠ .arr [] ∧
          PathKey.parse? entry.1 = some mapping.key ∧
          mapping.targets = (PathMapping.writtenTargets entry).map (Path.resolve file.dir)) := by
  obtain ⟨layer, hlayer, hoptions, -, -⟩ := resolve_eq_ok h
  have heffective (name : String) (hname : name ∈ ["paths", "pathsBasePath"]) :
      resolved.options.get? name = (layer.options.get? name).filter (!·.isNull) := by
    rw [hoptions]
    simp only [List.mem_cons, List.not_mem_nil, or_false] at hname
    rcases hname with rfl | rfl
    all_goals
      rw [Layer.get?_effectiveOptions layer config (by decide) (by decide)]
      exact congrArg (Option.filter _) (Option.or_none ..)
  obtain ⟨hdeclared, hnonnull⟩ :=
    Option.filter_eq_some_iff.mp ((heffective "paths" (by simp)).symm.trans hpaths)
  cases Anchored.of_layer hlayer horder hfree with
  | undeclared _ hnone _ =>
    rw [hnone] at hdeclared
    cases hdeclared
  | @declared file written _ hlast hconvert hvalue hbase =>
    cases hvalue.symm.trans hdeclared
    obtain ⟨entries, rfl, rfl, htexts⟩ :=
      exists_entries_of_convertOption hconvert (by rintro rfl; cases hnonnull)
    have hanchor : resolved.options.get? "pathsBasePath" = some (.str file.dir) := by
      rw [heffective "pathsBasePath" (by simp), hbase]
      rfl
    refine ⟨file, entries, rfl, hlast, hanchor, fun hurl mapping => ?_⟩
    refine mem_pathMappings_iff hpaths ?_ htexts
    rw [pathsBase?, hurl, Option.none_or, text?, hanchor]
    rfl

section Chain

private def chain : Host := (Memory.ofFiles [
  ("/p/t.json", "\x7b\"extends\": [\"./b/x\", \"./a/x\"], " ++
    "\"compilerOptions\": \x7b\"strict\": true\x7d, \"files\": [\"x.ts\"]\x7d"),
  ("/p/a/x.json", "\x7b\"compilerOptions\": \x7b\"paths\": \x7b\"@\": [\"../s\"]\x7d\x7d\x7d"),
  ("/p/b/x.json", "\x7b\"compilerOptions\": \x7b\"paths\": \x7b\"@\": [\"s\"]\x7d\x7d\x7d")]).host

private def chainTop : ConfigFile := ⟨"/p/t.json", "/p/t.json",
  [("extends", .arr [.str "./b/x", .str "./a/x"]), ("compilerOptions", .obj [("strict", .bool true)]),
    ("files", .arr [.str "x.ts"])]⟩

private def chainBase (path target : String) : ConfigFile := ⟨path, path,
  [("compilerOptions", .obj [("paths", .obj [("@", .arr [.str target])])])]⟩

private def chainFirst : ConfigFile := chainBase "/p/b/x.json" "s"

private def chainLast : ConfigFile := chainBase "/p/a/x.json" "../s"

private theorem read_chainTop :
    readConfig chain "/p/t.json" "/p/t.json" = .ok (chainTop, ["./b/x", "./a/x"]) := by cbv

private theorem read_chainFirst :
    readConfig chain "/p/b/x.json" "/p/b/x.json" = .ok (chainFirst, []) := by cbv

private theorem read_chainLast :
    readConfig chain "/p/a/x.json" "/p/a/x.json" = .ok (chainLast, []) := by cbv

private theorem found_chainFirst :
    (lookup chain chainTop.dir "./b/x").found = some "/p/b/x.json" := by decide +kernel

private theorem found_chainLast :
    (lookup chain chainTop.dir "./a/x").found = some "/p/a/x.json" := by decide +kernel

private theorem pathOf_chain : pathOf chain "/p/t.json" = "/p/t.json" := by decide +kernel

private theorem treeOf_chain :
    treeOf chain "/p/t.json" = .config chainTop [.config chainFirst [], .config chainLast []] := by
  rw [treeOf, pathOf_chain, build_eq_config List.not_mem_nil read_chainTop]
  simp only [List.map_cons, List.map_nil, branch_eq_build found_chainFirst,
    branch_eq_build found_chainLast, build_eq_config (show "/p/b/x.json" ∉ ["/p/t.json"] by decide)
      read_chainFirst, build_eq_config (show "/p/a/x.json" ∉ ["/p/t.json"] by decide) read_chainLast]

private theorem postOrder_chain :
    PostOrder chain (pathOf chain "/p/t.json") "/p/t.json" [chainFirst, chainLast, chainTop] := by
  have hfirst : PostOrder chain "/p/b/x.json" "/p/b/x.json" [chainFirst] :=
    .config read_chainFirst .nil
  have hlast : PostOrder chain "/p/a/x.json" "/p/a/x.json" [chainLast] :=
    .config read_chainLast .nil
  have hbelow : List.Forall₂ (fun base files => PostOrder chain base base files)
      (["./b/x", "./a/x"].filterMap fun specifier => (lookup chain chainTop.dir specifier).found)
      [[chainFirst], [chainLast]] := by
    simp only [List.filterMap_cons, List.filterMap_nil, found_chainFirst, found_chainLast]
    exact .cons hfirst (.cons hlast .nil)
  rw [pathOf_chain]
  exact .config read_chainTop hbelow

/-- Of two bases that declare `paths` the second one counts, and the config on top of them changes
nothing about it. -/
theorem paths_anchored_chain :
    ∃ resolved, resolve chain "/p/t.json" = .ok resolved ∧
      PostOrder chain (pathOf chain "/p/t.json") "/p/t.json" [chainFirst, chainLast, chainTop] ∧
      (∀ file ∈ [chainFirst, chainLast, chainTop], option? "pathsBasePath" file.fields = none) ∧
      resolved.options.get? "paths" = some (.obj [("@", .arr [.str "../s"])]) ∧
      resolved.options.get? "pathsBasePath" = some (.str "/p/a") ∧
      ⟨.exact "@", ["/p/s"]⟩ ∈ pathMappings resolved.options := by
  have hresolves : (resolve chain "/p/t.json").map
      (fun resolved => (resolved.options.get? "paths", text? resolved.options "baseUrl")) =
      .ok (some (.obj [("@", .arr [.str "../s"])]), none) := by
    rw [resolve, treeOf_chain]
    cbv
  obtain ⟨resolved, hresolved, hget⟩ := exists_of_map_eq_ok hresolves
  obtain ⟨hpaths, hurl⟩ := Prod.mk.inj hget
  have hfree : ∀ file ∈ [chainFirst, chainLast, chainTop],
      option? "pathsBasePath" file.fields = none := by
    simp only [List.forall_mem_cons]
    exact ⟨rfl, rfl, rfl, by simp⟩
  obtain ⟨file, entries, hentries, hlast, hanchor, hmappings⟩ :=
    paths_anchored hresolved postOrder_chain hfree hpaths
  cases hentries
  have hfile : file = chainLast := by
    obtain ⟨⟨below, above, hsplit, -⟩, hdeclared⟩ := hlast
    have hmem : file ∈ [chainFirst, chainLast, chainTop] := by simp [hsplit]
    simp only [List.mem_cons, List.not_mem_nil, or_false] at hmem
    rcases hmem with rfl | rfl | rfl
    · simp [option?, chainFirst, chainBase, OrderedMap.find?, Value.field?] at hdeclared
    · rfl
    · cases hdeclared
  subst hfile
  refine ⟨resolved, hresolved, postOrder_chain, hfree, hpaths, ?_, ?_⟩
  · rw [hanchor, show chainLast.dir = "/p/a" by decide +kernel]
  · refine (hmappings hurl _).mpr ⟨_, List.mem_singleton_self _, by simp, by decide +kernel, ?_⟩
    decide +kernel

end Chain

end ResolvedConfig
end Tsconfig
