import Tsconfig.Proofs.Discovery.Arrangement
import Tsconfig.Proofs.Discovery.Shadowing
import Tsconfig.Proofs.Path.Dots
import Tsconfig.Proofs.Success
import Tsconfig.Proofs.Walk.BreadthFirst

/-!
Allowing JavaScript adds JavaScript files to the discovered ones, and takes none away. No other file
gives way to a JavaScript file, since in every family JavaScript comes last; and where a file stands
is decided by its own path.
-/
namespace Tsconfig
open Text

namespace Discovery

def isJavaScript (file : String) : Bool := Path.extension file ∈ jsExtensions

section Shadowing
variable {files : List String} {file better : String}

/-- Whatever is glued to a stem in the search for better files names no JavaScript file, unless the
file at hand is one. -/
theorem not_isJavaScript_append (stem : String) (houtranks : Outranks better (Path.extension file))
    (hfile : isJavaScript file = false) : isJavaScript (stem ++ better) = false := by
  obtain ⟨family, hfamily, hbetter, hworse, hlt⟩ := houtranks
  have hlast : ∀ family ∈ families, ∀ better ∈ family, ∀ worse ∈ family,
      family.idxOf better < family.idxOf worse → worse ∉ jsExtensions →
        better.toList.getLast?.any (!Path.isSeparator ·) = true ∧
        ∀ script ∈ jsExtensions, ¬ script.toList <:+ better.toList ∧
          ¬ better.toList <:+ script.toList := by
    decide +kernel
  obtain ⟨hopen, hother⟩ :=
    hlast family hfamily better hbetter _ hworse hlt (of_decide_eq_false hfile)
  refine decide_eq_false fun hscript => ?_
  obtain ⟨hlong, hshort⟩ := hother _ hscript
  exact Path.extension_append_ne hopen hlong hshort stem rfl

theorem isShadowed_withoutJavaScript (hfile : isJavaScript file = false) :
    isShadowed (files.filter (!isJavaScript ·)) file = isShadowed files file := by
  rw [Bool.eq_iff_iff]
  simp only [isShadowed, List.any_eq_true, decide_eq_true_eq, mem_betterExtensions,
    List.mem_filter, Bool.not_eq_true']
  refine exists_congr fun better => and_congr_right fun houtranks => ?_
  exact and_iff_left (not_isJavaScript_append _ houtranks hfile)

theorem dropShadowed_withoutJavaScript (files : List String) :
    (dropShadowed files).filter (!isJavaScript ·) =
      dropShadowed (files.filter (!isJavaScript ·)) := by
  rw [dropShadowed, dropShadowed, List.filter_filter, List.filter_filter]
  refine List.filter_congr fun file _ => ?_
  cases hfile : isJavaScript file with
  | true => simp
  | false => rw [isShadowed_withoutJavaScript hfile, Bool.and_comm]

end Shadowing

section Found
variable {found : List (Nat × String)}

/-- Files that are sorted stay sorted when some are left out. -/
theorem filter_sorted (p : String → Bool) (files : List String) :
    (files.mergeSort le).filter p = (files.filter p).mergeSort le := by
  refine List.Perm.eq_of_pairwise ?_ ((pairwise_sorted files).filter p) (pairwise_sorted _) ?_
  · intro a b _ _ hab hba
    exact rank_injective (le_antisymm hab hba)
  · exact ((List.mergeSort_perm files le).filter p).trans (List.mergeSort_perm _ le).symm

theorem filter_arrange (p : String → Bool) (count : Nat) :
    (arrange count found).filter p = arrange count (found.filter fun entry => p entry.2) := by
  rw [arrange, List.filter_flatMap, arrange]
  refine congrArg List.flatten (List.map_congr_left fun index _ => ?_)
  rw [filter_sorted, List.filter_map, List.filter_filter, List.filter_filter]
  simp only [Function.comp_def, Bool.and_comm]

theorem isSource_withoutJavaScript (excluded : List Glob) (file : String) :
    isSource false excluded file = (isSource true excluded file && !isJavaScript file) := by
  have hsupported : ∀ extension ∈ supportedExtensions true,
      (extension ∈ supportedExtensions false ↔ extension ∉ jsExtensions) := by
    decide
  have hsubset : ∀ extension ∈ supportedExtensions false, extension ∈ supportedExtensions true := by
    decide
  rw [Bool.eq_iff_iff]
  simp only [isSource, isJavaScript, Bool.and_eq_true, decide_eq_true_eq, Bool.not_eq_true',
    decide_eq_false_iff_not]
  constructor
  · rintro ⟨⟨hhidden, hextension⟩, hexcluded⟩
    have hall := hsubset _ hextension
    exact ⟨⟨⟨hhidden, hall⟩, hexcluded⟩, (hsupported _ hall).mp hextension⟩
  · rintro ⟨⟨⟨hhidden, hextension⟩, hexcluded⟩, hscript⟩
    exact ⟨⟨hhidden, (hsupported _ hextension).mpr hscript⟩, hexcluded⟩

variable {host : Host} {included excluded : List String}

theorem collect_withoutJavaScript :
    collect host ⟨included, excluded, false⟩ =
      (collect host ⟨included, excluded, true⟩).filter (!isJavaScript ·.2) := by
  have hkept (excluded : List Glob) (file : String) (index : Option Nat) :
      (if isSource false excluded file then index.map fun index => (index, file) else none) =
        Option.filter (!isJavaScript ·.2)
          (if isSource true excluded file then index.map fun index => (index, file) else none) := by
    rw [isSource_withoutJavaScript]
    cases isSource true excluded file <;> cases index <;>
      cases hscript : isJavaScript file <;> simp [hscript, Option.filter]
  rw [collect, collect, filter_distinct, List.filter_filterMap]
  exact congrArg distinct (List.filterMap_congr fun file _ => hkept _ file _)

/-- Without JavaScript the same files are discovered, less the JavaScript ones. -/
theorem discover_withoutJavaScript (host : Host) (included excluded : List String) :
    discover host ⟨included, excluded, false⟩ =
      (discover host ⟨included, excluded, true⟩).map (List.filter (!isJavaScript ·)) := by
  have hpatterns : Request.patterns ⟨included, excluded, false⟩ =
      Request.patterns ⟨included, excluded, true⟩ := rfl
  rw [discover, discover, hpatterns]
  split
  · rfl
  · rw [Except.map, dropShadowed_withoutJavaScript, filter_arrange, collect_withoutJavaScript]

end Found

/-- Whether a search succeeds does not depend on JavaScript. Where it is allowed, the files that are
discovered without it come in the same order, and the others among them are JavaScript. -/
theorem discover_allowJs {host : Host} {included excluded : List String} {allowJs : Bool}
    (h : (discover host ⟨included, excluded, allowJs⟩).isOk = true) :
    ∃ fewer more, discover host ⟨included, excluded, false⟩ = .ok fewer ∧
      discover host ⟨included, excluded, true⟩ = .ok more ∧ fewer.Sublist more ∧
      ∀ file ∈ more, file ∉ fewer ↔ Path.extension file ∈ jsExtensions := by
  have hless := discover_withoutJavaScript host included excluded
  have hmore : ∃ more, discover host ⟨included, excluded, true⟩ = .ok more := by
    cases allowJs with
    | true => exact exists_of_isOk h
    | false =>
      obtain ⟨fewer, hfewer⟩ := exists_of_isOk h
      obtain ⟨more, hmore, -⟩ := exists_of_map_eq_ok (hless.symm.trans hfewer)
      exact ⟨more, hmore⟩
  obtain ⟨more, hmore⟩ := hmore
  rw [hmore] at hless
  refine ⟨_, more, hless, hmore, List.filter_sublist, fun file hfile => ?_⟩
  simp [isJavaScript, hfile]

section Added

private def mixedFolder : Memory :=
  .ofFiles [("/p/a.js", ""), ("/p/a.ts", ""), ("/p/b.js", ""), ("/p/b.jsx", ""), ("/p/c.vue", "")]

private theorem collect_mixedFolder : collect mixedFolder.host ⟨["/p/*"], [], true⟩ =
    [(0, "/p/a.js"), (0, "/p/a.ts"), (0, "/p/b.js"), (0, "/p/b.jsx"), (0, "/p/c.vue")] := by
  have hroots : walkRoots ["/p/*"] = ["/p"] := by
    rw [walkRoots, List.mergeSort_of_pairwise (by decide +kernel)]
    decide +kernel
  have hpatterns : Request.patterns ⟨["/p/*"], [], true⟩ = ["/p/*"] := by decide +kernel
  rw [collect, hpatterns, hroots]
  decide +kernel

private theorem discover_mixedFolder : discover mixedFolder.host ⟨["/p/*"], [], true⟩ =
    .ok ["/p/a.ts", "/p/b.js", "/p/c.vue"] := by
  have hopen : (Request.patterns ⟨["/p/*"], [], true⟩).find? isOpenEnded = none := by
    decide +kernel
  have hsorted : ["/p/a.js", "/p/a.ts", "/p/b.js", "/p/b.jsx", "/p/c.vue"].mergeSort le =
      ["/p/a.js", "/p/a.ts", "/p/b.js", "/p/b.jsx", "/p/c.vue"] :=
    List.mergeSort_of_pairwise (by decide +kernel)
  have harrange : arrange 1 (collect mixedFolder.host ⟨["/p/*"], [], true⟩) =
      ["/p/a.js", "/p/a.ts", "/p/b.js", "/p/b.jsx", "/p/c.vue"] := by
    rw [collect_mixedFolder]
    simp [arrange, hsorted]
  rw [discover, hopen]
  change Except.ok (dropShadowed (arrange 1 _)) = _
  rw [harrange]
  exact congrArg Except.ok (by decide +kernel)

/-- JavaScript gives way to other files, and to better JavaScript, but nothing gives way to it. -/
theorem discover_allowJs_added :
    (discover mixedFolder.host ⟨["/p/*"], [], true⟩).isOk = true ∧
      ∃ fewer, discover mixedFolder.host ⟨["/p/*"], [], false⟩ = .ok fewer ∧
        fewer.Sublist ["/p/a.ts", "/p/b.js", "/p/c.vue"] ∧
        "/p/a.ts" ∈ fewer ∧ "/p/b.js" ∉ fewer ∧ "/p/c.vue" ∈ fewer := by
  have hok : (discover mixedFolder.host ⟨["/p/*"], [], true⟩).isOk = true := by
    rw [discover_mixedFolder]
    rfl
  obtain ⟨fewer, more, hfewer, hmore, hsublist, hadded⟩ := discover_allowJs hok
  obtain rfl : ["/p/a.ts", "/p/b.js", "/p/c.vue"] = more :=
    Except.ok.inj (discover_mixedFolder.symm.trans hmore)
  refine ⟨hok, fewer, hfewer, hsublist, ?_, ?_, ?_⟩
  · exact not_not.mp (mt (hadded _ (by decide)).mp (by decide +kernel))
  · exact (hadded _ (by decide)).mpr (by decide +kernel)
  · exact not_not.mp (mt (hadded _ (by decide)).mp (by decide +kernel))

end Added
end Discovery
end Tsconfig
