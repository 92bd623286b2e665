import Mathlib
import Tsconfig.Config.Resolve
import Tsconfig.Host.Memory
import Tsconfig.Proofs.Extends.Tree
import Tsconfig.Proofs.Overlay
import Tsconfig.Proofs.Success

/-! A config with everything it extends is one flat overlay: the declarations of all configs behind
it, in post-order. The tree and its partial layers leave no trace in the result. -/
namespace Tsconfig
open Json

namespace ConfigFile

/-- A list of paths or patterns that the file declares under a name, made absolute. Null declares
nothing. -/
def declared? (name : String) (file : ConfigFile) : Option (List String) :=
  (file.pathList name).toOption.join

/-- Some config that the file extends cannot be found. -/
def LacksBase (host : Host) (file : ConfigFile) : Prop :=
  ∃ specifiers, file.bases = .ok specifiers ∧
    ∃ specifier ∈ specifiers, (ExtendsTree.lookup host file.dir specifier).found = none

theorem layer_eq_ok_iff {file : ConfigFile} {layer : Layer} :
    file.layer = .ok layer ↔ file.options = .ok layer.options ∧
      file.pathList "files" = .ok layer.files ∧ file.pathList "include" = .ok layer.included ∧
      file.pathList "exclude" = .ok layer.excluded := by
  simp only [ConfigFile.layer, bind_eq_ok_iff]
  constructor
  · rintro ⟨options, hoptions, files, hfiles, included, hincluded, excluded, hexcluded, h⟩
    cases h
    exact ⟨hoptions, hfiles, hincluded, hexcluded⟩
  · rintro ⟨hoptions, hfiles, hincluded, hexcluded⟩
    exact ⟨_, hoptions, _, hfiles, _, hincluded, _, hexcluded, rfl⟩

end ConfigFile

namespace ExtendsTree

/-- The configs behind a path in post-order: those behind each base that is found, in the order of
the bases, then the config itself. A config that is reached twice occurs twice. -/
inductive PostOrder (host : Host) : String → String → List ConfigFile → Prop
  | config {path name : String} {file : ConfigFile} {specifiers : List String}
      {below : List (List ConfigFile)}
      (hread : readConfig host path name = .ok (file, specifiers))
      (hbelow : List.Forall₂ (fun base files => PostOrder host base base files)
        (specifiers.filterMap fun specifier => (lookup host file.dir specifier).found) below) :
      PostOrder host path name (below.flatten ++ [file])

-- What the induction over a tree carries; `own` are the layers of the single files.
private structure Flat (host : Host) (path name : String) (tree : ExtendsTree) (layer : Layer)
    (files : List ConfigFile) (own : List Layer) : Prop where
  order : PostOrder host path name files
  declared : List.Forall₂ (fun file layer => ConfigFile.layer file = .ok layer) files own
  overlay : layer = own.foldl Layer.overlay {}
  missing : tree.hasMissing = true ↔ ∃ file ∈ files, file.LacksBase host
  top : ∃ below last, files = below ++ [last] ∧ last.path = path ∧ last.name = name ∧
    last.references = .ok tree.references

private theorem layerOn_flat {host : Host} {stack : List String} {dir : String}
    (ih : ∀ base layer, (build host stack base base).layer = .ok layer →
      ∃ files own, Flat host base base (build host stack base base) layer files own)
    {specifiers : List String} {lower layer : Layer}
    (h : layerOn lower (specifiers.map (branch host stack dir)) = .ok layer) :
    ∃ below own,
      List.Forall₂ (fun base files => PostOrder host base base files)
        (specifiers.filterMap fun specifier => (lookup host dir specifier).found) below ∧
      List.Forall₂ (fun file layer => ConfigFile.layer file = .ok layer) below.flatten own ∧
      layer = own.foldl Layer.overlay lower ∧
      (anyMissing (specifiers.map (branch host stack dir)) = true ↔
        (∃ specifier ∈ specifiers, (lookup host dir specifier).found = none) ∨
          ∃ file ∈ below.flatten, file.LacksBase host) := by
  induction specifiers generalizing lower with
  | nil =>
    simp only [List.map_nil, layerOn, Except.ok.injEq] at h
    exact ⟨[], [], .nil, .nil, h.symm, by simp [anyMissing]⟩
  | cons specifier rest ihrest =>
    simp only [List.map_cons, layerOn] at h ⊢
    cases hf : (lookup host dir specifier).found with
    | none =>
      have hb : branch host stack dir specifier = .missing := branch_eq_missing hf
      simp only [hb, ExtendsTree.layer, bind, Except.bind, Layer.overlay_empty] at h
      obtain ⟨below, own, horder, hown, hlayer, -⟩ := ihrest h
      refine ⟨below, own, ?_, hown, hlayer, ?_⟩
      · simpa [hf] using horder
      · simp [hb, anyMissing, hasMissing, hf]
    | some base =>
      have hb : branch host stack dir specifier = build host stack base base :=
        branch_eq_build hf
      obtain ⟨first, hfirst, h⟩ := bind_eq_ok_iff.mp h
      rw [hb] at hfirst
      obtain ⟨files, own₁, hflat⟩ := ih base first hfirst
      obtain ⟨below, own₂, horder, hown, hlayer, hmissing⟩ := ihrest h
      refine ⟨files :: below, own₁ ++ own₂, ?_, ?_, ?_, ?_⟩
      · simp only [List.filterMap_cons, hf]
        exact .cons hflat.order horder
      · exact List.rel_append hflat.declared hown
      · rw [hlayer, hflat.overlay, Layer.overlay_foldl, Layer.overlay_empty, List.foldl_append]
      · simp only [hb, anyMissing, Bool.or_eq_true, hflat.missing, hmissing, List.mem_cons,
          or_and_right, exists_or, exists_eq_left, hf, reduceCtorEq, false_or, List.flatten_cons,
          List.mem_append]
        exact or_left_comm

private theorem build_flat (host : Host) (stack : List String) (path name : String) (layer : Layer)
    (h : (build host stack path name).layer = .ok layer) :
    ∃ files own, Flat host path name (build host stack path name) layer files own := by
  induction stack, path, name using build.induct host generalizing layer with
  | case1 stack path name hs =>
    rw [build, dif_pos hs, ExtendsTree.layer] at h
    cases h
  | case2 stack path name hs fault hread =>
    rw [build, dif_neg hs] at h
    split at h
    · simp [ExtendsTree.layer] at h
    · rename_i heq
      rw [hread] at heq
      cases heq
  | case3 stack path name hs file specifiers hread ih =>
    have hbuild := build_eq_config hs hread
    rw [hbuild] at h ⊢
    obtain ⟨lower, own, hlower, hown, ⟨references, hrefs⟩, rfl⟩ := layer_config_eq_ok h
    obtain ⟨hpath, hname, hbases⟩ := readConfig_eq_ok hread
    obtain ⟨below, layers, horder, hdeclared, hlayer, hmissing⟩ := layerOn_flat ih hlower
    refine ⟨below.flatten ++ [file], layers ++ [own], ?_⟩
    constructor
    · exact .config hread horder
    · exact List.rel_append hdeclared (.cons hown .nil)
    · rw [hlayer, List.foldl_append]; rfl
    · simp only [hasMissing, hmissing, List.mem_append, List.mem_singleton, or_and_right, exists_or,
        exists_eq_left, ConfigFile.LacksBase, hbases, Except.ok.injEq, exists_eq_left']
      exact or_comm
    · refine ⟨below.flatten, file, rfl, hpath, hname, ?_⟩
      rw [ExtendsTree.references, hrefs]
      rfl

/-- A tree with its layer, read off the configs behind it. `files` are these configs in post-order,
`own` the options that each of them declares by itself. Maps are equal with the order of names. -/
structure FlatOverlay (host : Host) (path name : String) (tree : ExtendsTree) (layer : Layer)
    (files : List ConfigFile) (own : List CompilerOptions) : Prop where
  order : PostOrder host path name files
  converted : List.Forall₂ (fun file options => ConfigFile.options file = .ok options) files own
  options : layer.options = own.foldl OrderedMap.overlay ∅
  readable : ∀ file ∈ files, ∀ field ∈ ["files", "include", "exclude"],
    ∃ value, file.pathList field = .ok value
  listed : layer.files = (files.filterMap (·.declared? "files")).getLast?
  included : layer.included = (files.filterMap (·.declared? "include")).getLast?
  excluded : layer.excluded = (files.filterMap (·.declared? "exclude")).getLast?
  references : ∃ below top, files = below ++ [top] ∧ top.path = path ∧
    top.references = .ok tree.references
  missing : tree.hasMissing = true ↔ ∃ file ∈ files, file.LacksBase host

private theorem filterMap_declared {files : List ConfigFile} {own : List Layer} {name : String}
    {field : Layer → Option (List String)}
    (hfield : ∀ file layer, ConfigFile.layer file = .ok layer → file.pathList name = .ok (field layer))
    (h : List.Forall₂ (fun file layer => ConfigFile.layer file = .ok layer) files own) :
    own.filterMap field = files.filterMap (·.declared? name) := by
  induction h with
  | nil => rfl
  | @cons file layer files own hfile _ ih =>
    have hd : file.declared? name = field layer := by
      simp [ConfigFile.declared?, hfield file layer hfile, Except.toOption]
    rw [List.filterMap_cons, List.filterMap_cons, hd, ih]

private theorem Flat.flatOverlay {host : Host} {path name : String} {tree : ExtendsTree}
    {layer : Layer} {files : List ConfigFile} {own : List Layer}
    (h : Flat host path name tree layer files own) :
    FlatOverlay host path name tree layer files (own.map (·.options)) := by
  have hlast (field : Layer → Option (List String)) (key : String) (hnone : field {} = none)
      (hor : ∀ lower upper, field (Layer.overlay lower upper) = (field upper).or (field lower))
      (hfield : ∀ file layer, ConfigFile.layer file = .ok layer →
        file.pathList key = .ok (field layer)) :
      field layer = (files.filterMap (·.declared? key)).getLast? := by
    rw [h.overlay, Layer.last_foldl field hor, hnone, Option.or_none,
      filterMap_declared hfield h.declared]
  obtain ⟨below, top, hfiles, hpath, -, hreferences⟩ := h.top
  constructor
  · exact h.order
  · rw [List.forall₂_map_right_iff]
    exact h.declared.imp fun file layer hfile => (ConfigFile.layer_eq_ok_iff.mp hfile).1
  · rw [h.overlay, Layer.options_foldl]
  · intro file hfile field hmem
    obtain ⟨layer, hlayer⟩ := exists_ok_of_mem h.declared hfile
    obtain ⟨-, hlisted, hincluded, hexcluded⟩ := ConfigFile.layer_eq_ok_iff.mp hlayer
    simp only [List.mem_cons, List.not_mem_nil, or_false] at hmem
    rcases hmem with rfl | rfl | rfl
    · exact ⟨_, hlisted⟩
    · exact ⟨_, hincluded⟩
    · exact ⟨_, hexcluded⟩
  · exact hlast (·.files) "files" rfl (fun _ _ => rfl)
      fun _ _ hfile => (ConfigFile.layer_eq_ok_iff.mp hfile).2.1
  · exact hlast (·.included) "include" rfl (fun _ _ => rfl)
      fun _ _ hfile => (ConfigFile.layer_eq_ok_iff.mp hfile).2.2.1
  · exact hlast (·.excluded) "exclude" rfl (fun _ _ => rfl)
      fun _ _ hfile => (ConfigFile.layer_eq_ok_iff.mp hfile).2.2.2
  · exact ⟨below, top, hfiles, hpath, hreferences⟩
  · exact h.missing

theorem exists_flatOverlay {host : Host} {stack : List String} {path name : String} {layer : Layer}
    (h : (build host stack path name).layer = .ok layer) :
    ∃ files own, FlatOverlay host path name (build host stack path name) layer files own := by
  obtain ⟨files, own, hflat⟩ := build_flat host stack path name layer h
  exact ⟨files, own.map (·.options), hflat.flatOverlay⟩

end ExtendsTree

namespace ResolvedConfig

/-- A config is resolved when its layers come through, it may have files, and the search for them
succeeds. -/
theorem resolve_eq_ok_iff {host : Host} {config : String} {resolved : ResolvedConfig} :
    resolve host config = .ok resolved ↔
      ∃ layer found, (treeOf host config).layer = .ok layer ∧
        (treeOf host config).isEmpty = false ∧ discovered host config layer = .ok found ∧
        resolved = ⟨layer.effectiveOptions config, distinct (layer.files.getD [] ++ found),
          (treeOf host config).references, (treeOf host config).hasMissing⟩ := by
  constructor
  · intro h
    obtain ⟨layer, hlayer, h⟩ := bind_eq_ok_iff.mp h
    split at h
    · cases h
    · rename_i hempty
      split at h
      · cases h
      · rename_i found hfound
        cases h
        exact ⟨layer, found, hlayer, Bool.eq_false_of_not_eq_true hempty, hfound, rfl⟩
  · rintro ⟨layer, found, hlayer, hempty, hfound, rfl⟩
    refine bind_eq_ok_iff.mpr ⟨layer, hlayer, ?_⟩
    simp only [hempty, hfound]
    rfl

theorem resolve_eq_ok {host : Host} {config : String} {resolved : ResolvedConfig}
    (h : resolve host config = .ok resolved) :
    ∃ layer, (treeOf host config).layer = .ok layer ∧
      resolved.options = layer.effectiveOptions config ∧
      resolved.references = (treeOf host config).references ∧
      resolved.missingBase = (treeOf host config).hasMissing := by
  obtain ⟨layer, found, hlayer, -, -, rfl⟩ := resolve_eq_ok_iff.mp h
  exact ⟨layer, hlayer, rfl, rfl, rfl⟩

end ResolvedConfig

namespace Layer

/-- Apart from the two names that are set at the end, null takes an option away and anything else
stays. -/
theorem get?_effectiveOptions (layer : Layer) (config : String) {option : String}
    (hpath : option ≠ "configFilePath") (hallow : option ≠ "allowNonTsExtensions") :
    (layer.effectiveOptions config).get? option =
      ((layer.options.get? option).or (CompilerOptions.base.get? option)).filter (!·.isNull) := by
  rw [effectiveOptions, OrderedMap.get?_insert, if_neg hallow, OrderedMap.get?_insert,
    if_neg hpath, OrderedMap.get?_filter, OrderedMap.get?_overlay]

end Layer

namespace ResolvedConfig
open ExtendsTree

/-- Whatever loads is a flat overlay, and the options in effect are this overlay on the base options,
less those whose last value is null, under the path of the config. -/
theorem flat_overlay (host : Host) :
    (∀ path name layer, (build host [] path name).layer = .ok layer →
      ∃ files own, FlatOverlay host path name (build host [] path name) layer files own) ∧
    ∀ config resolved, resolve host config = .ok resolved → ∃ layer files own,
      FlatOverlay host (pathOf host config) config (treeOf host config) layer files own ∧
      resolved.options =
        (((CompilerOptions.base.overlay layer.options).filter fun entry => !entry.2.isNull).insert
          "configFilePath" (.str (Path.slashed config))).insert
          "allowNonTsExtensions" (.bool true) ∧
      (∀ option, option ≠ "configFilePath" → option ≠ "allowNonTsExtensions" →
        resolved.options.get? option =
          (((own.filterMap (·.get? option)).getLast?).or
            (CompilerOptions.base.get? option)).filter (!·.isNull)) ∧
      resolved.references = (treeOf host config).references ∧
      resolved.missingBase = (treeOf host config).hasMissing := by
  refine ⟨fun path name layer h => exists_flatOverlay h, fun config resolved h => ?_⟩
  obtain ⟨layer, hlayer, hoptions, hreferences, hmissing⟩ := resolve_eq_ok h
  obtain ⟨files, own, hflat⟩ := exists_flatOverlay hlayer
  refine ⟨layer, files, own, hflat, hoptions, ?_, hreferences, hmissing⟩
  intro option hpath hallow
  rw [hoptions, Layer.get?_effectiveOptions layer config hpath hallow, hflat.options,
    OrderedMap.get?_foldl_overlay, OrderedMap.get?_empty, Option.or_none]

private def diamond : Host := (Memory.ofFiles [
  ("/t.json", "\x7b\"extends\": [\"./a\", \"./no\", \"./b\"], " ++
    "\"compilerOptions\": \x7b\"strict\": null\x7d\x7d"),
  ("/a.json", "\x7b\"compilerOptions\": \x7b\"strict\": true, \"target\": \"es5\"\x7d, " ++
    "\"files\": [\"x.ts\"]\x7d"),
  ("/b.json", "\x7b\"extends\": \"./a\", " ++
    "\"compilerOptions\": \x7b\"target\": \"es2020\"\x7d, \"files\": null\x7d")]).host

private def diamondTop : ConfigFile := ⟨"/t.json", "t.json",
  [("extends", .arr [.str "./a", .str "./no", .str "./b"]),
    ("compilerOptions", .obj [("strict", .null)])]⟩

private def diamondLeft : ConfigFile := ⟨"/a.json", "/a.json",
  [("compilerOptions", .obj [("strict", .bool true), ("target", .str "es5")]),
    ("files", .arr [.str "x.ts"])]⟩

private def diamondRight : ConfigFile := ⟨"/b.json", "/b.json",
  [("extends", .str "./a"), ("compilerOptions", .obj [("target", .str "es2020")]),
    ("files", .null)]⟩

private theorem build_diamondLeft (stack : List String) (h : "/a.json" ∉ stack) :
    build diamond stack "/a.json" "/a.json" = .config diamondLeft [] := by
  have hread : readConfig diamond "/a.json" "/a.json" = .ok (diamondLeft, []) := by cbv
  exact build_eq_config h hread

private theorem build_diamondRight :
    build diamond ["/t.json"] "/b.json" "/b.json" =
      .config diamondRight [.config diamondLeft []] := by
  have hread : readConfig diamond "/b.json" "/b.json" = .ok (diamondRight, ["./a"]) := by cbv
  have hfound : (lookup diamond diamondRight.dir "./a").found = some "/a.json" := by
    decide +kernel
  rw [build_eq_config (by decide) hread, List.map_singleton, branch_eq_build hfound]
  simp only [build_diamondLeft ["/b.json", "/t.json"] (by decide)]

private theorem treeOf_diamond :
    treeOf diamond "t.json" = .config diamondTop
      [.config diamondLeft [], .missing, .config diamondRight [.config diamondLeft []]] := by
  have hread : readConfig diamond "/t.json" "t.json" =
    .ok (diamondTop, ["./a", "./no", "./b"]) := by cbv
  have hleft : (lookup diamond diamondTop.dir "./a").found = some "/a.json" := by decide +kernel
  have hno : (lookup diamond diamondTop.dir "./no").found = none := by decide +kernel
  have hright : (lookup diamond diamondTop.dir "./b").found = some "/b.json" := by decide +kernel
  have hpath : pathOf diamond "t.json" = "/t.json" := by decide +kernel
  rw [treeOf, hpath, build_eq_config (by decide) hread]
  simp only [List.map_cons, List.map_nil, branch_eq_build hleft, branch_eq_missing hno,
    branch_eq_build hright, build_diamondRight, build_diamondLeft ["/t.json"] (by decide)]

theorem flat_overlay_diamond :
    ∃ layer resolved, (build diamond [] (pathOf diamond "t.json") "t.json").layer = .ok layer ∧
      resolve diamond "t.json" = .ok resolved ∧
      (∃ files own, FlatOverlay diamond (pathOf diamond "t.json") "t.json"
        (build diamond [] (pathOf diamond "t.json") "t.json") layer files own) ∧
      resolved.missingBase = true := by
  have hloads : (treeOf diamond "t.json").layer.isOk = true := by
    rw [treeOf_diamond]
    cbv
  have hresolves : (resolve diamond "t.json").isOk = true := by
    rw [resolve, treeOf_diamond]
    cbv
  obtain ⟨layer, hlayer⟩ := exists_of_isOk hloads
  obtain ⟨resolved, hresolved⟩ := exists_of_isOk hresolves
  obtain ⟨_, _, _, _, _, _, _, hmissing⟩ := (flat_overlay diamond).2 _ _ hresolved
  refine ⟨layer, resolved, hlayer, hresolved, (flat_overlay diamond).1 _ _ _ hlayer, ?_⟩
  rw [hmissing, treeOf_diamond]
  decide

end ResolvedConfig
end Tsconfig
