import Tsconfig.Proofs.Discovery.Arrangement
import Tsconfig.Proofs.Discovery.Union
import Tsconfig.Proofs.FlatOverlay
import Tsconfig.Proofs.Path.Resolution

/-!
What is found for a config that says nothing about its files: everything that the directory of the
config stands for, with all below it. The name of the directory goes into the pattern as it is, so
that a star or a question mark in it stands for other names, too.
-/
namespace Tsconfig

namespace Discovery
open Text

/-- What is found for one pattern is what the pattern stands for, below the directory that it starts
from. -/
theorem of_mem_discover {memory : Memory} {request : Request} {pattern file : String}
    {files : List String} (hincluded : request.included = [pattern])
    (h : discover memory.host request = .ok files) (hfile : file ∈ files) :
    (Glob.ofText (expandIncluded pattern)).accepts file = true ∧
      Memory.isBelow (literalBase (expandIncluded pattern)) file = true := by
  rw [discover_eq_ok h] at hfile
  obtain ⟨index, -, hmem⟩ := mem_arrange.mp (List.mem_filter.mp hfile).1
  have hcollected : file ∈ collected memory.host { request with included := [pattern] } := by
    rw [← hincluded]
    exact List.mem_map_of_mem (f := Prod.snd) hmem
  obtain ⟨-, haccepts, hlist⟩ := (mem_collected_singleton request).mp hcollected
  exact ⟨haccepts, Memory.isBelow_of_mem_list hlist⟩

/-- Everything below a directory, as it is searched for when a config has no patterns. -/
def wholePattern (dir : String) : String := Path.join dir "**/*"

section Whole
variable {dir : String}

theorem isNormal_wholePattern (h : Path.IsNormal dir) : Path.IsNormal (wholePattern dir) :=
  Path.isNormal_join h (by decide) (by decide)

theorem wholePattern_eq (h : Path.IsNormal dir) : Path.resolve dir "**/*" = wholePattern dir :=
  Path.resolve_eq_join h (by decide) (by decide) (by decide)

theorem toList_wholePattern (h : Path.IsNormal dir) :
    ∃ lead, (wholePattern dir).toList = lead ++ ['/', '*', '*', '/', '*'] ∧
      (lead = dir.toList ∨ lead ++ ['/'] = dir.toList) := by
  have hdir : dir.toList ≠ [] := fun hnil => absurd (congrArg Path.rootChars hnil) h.1
  have hstars : "**/*".toList ≠ [] := by decide
  rw [wholePattern, Path.join, String.toList_ofList, Path.joinChars, if_neg hdir, if_neg hstars]
  split
  · rename_i hslash
    obtain ⟨lead, hlead⟩ := List.getLast?_eq_some_iff.mp hslash
    exact ⟨lead, by rw [hlead, List.append_assoc]; rfl, .inr hlead.symm⟩
  · exact ⟨dir.toList, rfl, .inl rfl⟩

theorem expandIncluded_wholePattern (h : Path.IsNormal dir) :
    expandIncluded (wholePattern dir) = wholePattern dir := by
  obtain ⟨lead, hlead, -⟩ := toList_wholePattern h
  have hstar : (wholePattern dir).toList = (lead ++ ['/', '*', '*', '/']) ++ ['*'] := by
    rw [hlead, List.append_assoc]
    rfl
  exact expandIncluded_of_star hstar (isNormal_wholePattern h).2.1

/-- Without wildcards in its name, a directory stands for what lies in it. -/
theorem isBelow_of_wholePattern (h : Path.IsNormal dir) (hdir : hasWildcard dir.toList = false)
    {path : String} (haccepts : (Glob.ofText (wholePattern dir)).accepts path = true) :
    Memory.isBelow dir path = true := by
  obtain ⟨lead, hlead, hend⟩ := toList_wholePattern h
  have hplain : hasWildcard lead = false := by
    have hsubset : lead ⊆ dir.toList := by
      rcases hend with rfl | heq
      · exact List.Subset.refl _
      · exact heq ▸ List.subset_append_left _ _
    simp only [hasWildcard, Bool.or_eq_false_iff, decide_eq_false_iff_not] at hdir ⊢
    exact ⟨fun hmem => hdir.1 (hsubset hmem), fun hmem => hdir.2 (hsubset hmem)⟩
  have hpath : lead ++ ['/'] <+: path.toList := by
    rw [Glob.ofText, Glob.accepts, hlead] at haccepts
    exact Glob.prefix_of_accepts hplain haccepts
  have htrimmed : Memory.trimmedDir dir = dropEndWhile (· = '/') lead := by
    rw [Memory.trimmedDir, Path.slashedChars_eq_self h.2.1]
    rcases hend with rfl | heq
    · rfl
    · rw [← heq, dropEndWhile_append_of_forall (List.forall_mem_singleton.mpr (by decide))]
  rw [Memory.isBelow_iff, htrimmed]
  exact (dropEndWhile_concat_prefix_concat '/' lead).trans hpath

end Whole

end Discovery

namespace ResolvedConfig
open Discovery ExtendsTree

/-- The roots of a config that declares no files, no patterns and no bases are those that the glob of
its directory stands for, below the part of the directory that holds no wildcards. They lie in the
directory itself if it holds none at all. -/
theorem roots_of_default {memory : Memory} {config : String}
    (habsolute : Path.isAbsolute config = true) {file : ConfigFile}
    (hread : readConfig memory.host (pathOf memory.host config) config = .ok (file, []))
    (hfiles : file.pathList "files" = .ok none) (hincluded : file.pathList "include" = .ok none)
    {resolved : ResolvedConfig} (h : resolve memory.host config = .ok resolved)
    {root : String} (hroot : root ∈ resolved.roots) :
    (Glob.ofText (wholePattern file.dir)).accepts root = true ∧
      Memory.isBelow (literalBase (wholePattern file.dir)) root = true ∧
      (hasWildcard file.dir.toList = false → Memory.isBelow file.dir root = true) := by
  obtain ⟨layer, found, hlayer, -, hfound, rfl⟩ := resolve_eq_ok_iff.mp h
  have hpath : Path.IsNormal (pathOf memory.host config) := Path.isNormal_resolve (.inr habsolute)
  have hfile : file.dir = Path.parent (pathOf memory.host config) := by
    rw [ConfigFile.dir, (readConfig_eq_ok hread).1]
  have hdir : Path.IsNormal file.dir := hfile ▸ Path.isNormal_parent hpath
  have htree : treeOf memory.host config = .config file [] :=
    build_eq_config List.not_mem_nil hread
  rw [htree] at hlayer
  obtain ⟨below, own, hbelow, hown, -, rfl⟩ := layer_config_eq_ok hlayer
  obtain ⟨-, hownFiles, hownIncluded, -⟩ := ConfigFile.layer_eq_ok_iff.mp hown
  obtain rfl : {} = below := Except.ok.inj hbelow
  have hnoFiles : own.files = none := Except.ok.inj (hownFiles.symm.trans hfiles)
  have hnoPatterns : own.included = none := Except.ok.inj (hownIncluded.symm.trans hincluded)
  have hsearching : (Layer.overlay {} own).isSearching = true := by
    simp [Layer.isSearching, Layer.overlay, hnoFiles]
  have hmem : root ∈ found := by
    simpa [mem_distinct, Layer.overlay, hnoFiles] using hroot
  rw [discovered, if_pos hsearching, ← hfile] at hfound
  have hpattern (options : CompilerOptions) :
      ((Layer.overlay {} own).request file.dir options).included = [wholePattern file.dir] := by
    simp [Layer.request, Layer.overlay, hnoPatterns, wholePattern_eq hdir]
  have hinside := of_mem_discover (hpattern _) hfound hmem
  rw [expandIncluded_wholePattern hdir] at hinside
  exact ⟨hinside.1, hinside.2, fun hplain => isBelow_of_wholePattern hdir hplain hinside.1⟩

section Bare

/-- A config without any fields. -/
private def bare (path : String) : ConfigFile := ⟨path, path, []⟩

private def bareRequest (path : String) : Request :=
  Layer.request {} (Path.parent path) (Layer.effectiveOptions {} path)

private theorem resolve_bare {memory : Memory} {path : String} {found : List String}
    (hpath : pathOf memory.host path = path)
    (hread : readConfig memory.host path path = .ok (bare path, []))
    (hfound : discover memory.host (bareRequest path) = .ok found) :
    ∃ resolved, resolve memory.host path = .ok resolved ∧ resolved.roots = distinct found := by
  have htree : treeOf memory.host path = .config (bare path) [] := by
    rw [treeOf, hpath, build_eq_config List.not_mem_nil hread]
    rfl
  have hlayer : (treeOf memory.host path).layer = .ok {} := by
    rw [htree]
    rfl
  have hempty : (treeOf memory.host path).isEmpty = false := by
    rw [htree]
    rfl
  have hsearching : Layer.isSearching {} = true := rfl
  have hdiscovered : discovered memory.host path {} = .ok found := by
    rw [discovered, if_pos hsearching, hpath]
    exact hfound
  exact ⟨_, resolve_eq_ok_iff.mpr ⟨{}, found, hlayer, hempty, hdiscovered, rfl⟩, rfl⟩

/-- A search that comes by one source finds it. -/
private theorem discover_single {memory : Memory} {request : Request} {pattern source : String}
    (hpatterns : request.patterns = [pattern]) (hopen : isOpenEnded pattern = false)
    (hcollect : collect memory.host request = [(0, source)])
    (hkept : dropShadowed [source] = [source]) :
    discover memory.host request = .ok [source] := by
  rw [discover, hpatterns, List.find?_cons_of_neg (by simp [hopen])]
  change Except.ok (dropShadowed (arrange 1 (collect memory.host request))) = _
  rw [hcollect]
  simpa [arrange, List.range_succ] using hkept

private def plain : Memory := .ofFiles [("/p/tsconfig.json", "\x7b\x7d"), ("/p/a.ts", "")]

theorem roots_of_default_plain :
    ∃ resolved, resolve plain.host "/p/tsconfig.json" = .ok resolved ∧
      resolved.roots = ["/p/a.ts"] ∧ Memory.isBelow "/p" "/p/a.ts" = true := by
  have hread : readConfig plain.host "/p/tsconfig.json" "/p/tsconfig.json" =
      .ok (bare "/p/tsconfig.json", []) := by cbv
  have hpatterns : (bareRequest "/p/tsconfig.json").patterns = ["/p/**/*"] := by decide +kernel
  have hcollect : collect plain.host (bareRequest "/p/tsconfig.json") = [(0, "/p/a.ts")] := by
    rw [collect, hpatterns, walkRoots_singleton]
    decide +kernel
  have hfound := discover_single hpatterns (by decide +kernel) hcollect (by decide +kernel)
  have hpath : pathOf plain.host "/p/tsconfig.json" = "/p/tsconfig.json" := by decide +kernel
  obtain ⟨resolved, hresolve, hroots⟩ := resolve_bare hpath hread hfound
  have hroot : "/p/a.ts" ∈ resolved.roots := by
    rw [hroots]
    decide
  have hdir : (bare "/p/tsconfig.json").dir = "/p" := by decide +kernel
  have habsolute : Path.isAbsolute "/p/tsconfig.json" = true := by decide +kernel
  have hnone (name : String) : (bare "/p/tsconfig.json").pathList name = .ok none := rfl
  obtain ⟨-, -, hinside⟩ :=
    roots_of_default habsolute hread (hnone "files") (hnone "include") hresolve hroot
  rw [hdir] at hinside
  exact ⟨resolved, hresolve, hroots, hinside (by decide)⟩

private def starred : Memory := .ofFiles [("/w/a*b/tsconfig.json", "\x7b\x7d"), ("/w/axb/x.ts", "")]

/-- The star in the name of its directory leads a config to the directory next to it. -/
theorem not_isBelow_of_default_starred :
    ∃ resolved, resolve starred.host "/w/a*b/tsconfig.json" = .ok resolved ∧
      "/w/axb/x.ts" ∈ resolved.roots ∧ Memory.isBelow "/w/a*b" "/w/axb/x.ts" = false := by
  have hread : readConfig starred.host "/w/a*b/tsconfig.json" "/w/a*b/tsconfig.json" =
      .ok (bare "/w/a*b/tsconfig.json", []) := by cbv
  have hpatterns : (bareRequest "/w/a*b/tsconfig.json").patterns = ["/w/a*b/**/*"] := by
    decide +kernel
  have hcollect : collect starred.host (bareRequest "/w/a*b/tsconfig.json") =
      [(0, "/w/axb/x.ts")] := by
    rw [collect, hpatterns, walkRoots_singleton]
    decide +kernel
  have hfound := discover_single hpatterns (by decide +kernel) hcollect (by decide +kernel)
  have hpath : pathOf starred.host "/w/a*b/tsconfig.json" = "/w/a*b/tsconfig.json" := by
    decide +kernel
  obtain ⟨resolved, hresolve, hroots⟩ := resolve_bare hpath hread hfound
  refine ⟨resolved, hresolve, ?_, by decide +kernel⟩
  rw [hroots]
  decide

end Bare

end ResolvedConfig
end Tsconfig
