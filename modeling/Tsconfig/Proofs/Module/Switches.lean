import Tsconfig.Host.Memory
import Tsconfig.Proofs.Module.Spliced
import Tsconfig.Proofs.Path.Dots

/-!
JavaScript and JSON are modules only where the options say so. All ways of looking for a module end in
the candidates of a path, and among the candidates no other extension lets such a file in.
-/
namespace Tsconfig
open Source

namespace Resolver
variable {resolver : Resolver} {host : Host}

/-- Whether the options allow the kind of file that an extension stands for. -/
structure Allows (resolver : Resolver) (extension : String) : Prop where
  js : isJs extension = true → resolver.allowJs = true
  json : extension = ".json" → resolver.resolveJson = true

theorem allows_of_isModule {extension : String} (h : resolver.isModule extension = true) :
    resolver.Allows extension := by
  have hdisjoint : ∀ other, isTs other = true → isJs other = false ∧ other ≠ ".json" := by
    intro other hother
    simp only [isTs, decide_eq_true_eq] at hother
    revert other
    decide
  simp only [isModule, Bool.or_eq_true, Bool.and_eq_true, decide_eq_true_eq] at h
  rcases h with (hts | ⟨hjs, hallow⟩) | ⟨rfl, hallow⟩
  · obtain ⟨hjs, hjson⟩ := hdisjoint _ hts
    exact ⟨fun h => absurd h (by simp [hjs]), fun h => absurd h hjson⟩
  · exact ⟨fun _ => hallow, by rintro rfl; cases hjs⟩
  · exact ⟨fun h => absurd h (by decide), fun _ => hallow⟩

/-- The extensions that the options decide about. -/
def switched : List String := [".js", ".jsx", ".mjs", ".cjs"] ++ [".json"]

theorem allows_of_notMem {extension : String} (h : extension ∉ switched) :
    resolver.Allows extension where
  js hjs := absurd (List.mem_append_left _ (of_decide_eq_true hjs)) h
  json hjson := absurd (List.mem_append_right _ (by simp [hjson])) h

/-- Whether no file comes by one of those extensions when this one is put behind its path. -/
private def isNeutral (behind : String) : Bool :=
  behind.toList.getLast?.any (!Path.isSeparator ·) && switched.all fun other =>
    !other.toList.isSuffixOf behind.toList && !behind.toList.isSuffixOf other.toList

private theorem extension_notMem_switched {behind : String} (h : isNeutral behind = true)
    (path : String) : Path.extension (path ++ behind) ∉ switched := by
  simp only [isNeutral, Bool.and_eq_true, List.all_eq_true, Bool.not_eq_true',
    ← Bool.not_eq_true, List.isSuffixOf_iff_suffix] at h
  obtain ⟨hlast, hother⟩ := h
  intro hmem
  obtain ⟨hlong, hshort⟩ := hother _ hmem
  exact Path.extension_append_ne hlast hlong hshort path rfl

private theorem isNeutral_of_mem_sourcesOf (extension : String) :
    ∀ source ∈ sourcesOf extension, isNeutral source = true := by
  unfold sourcesOf
  split
  all_goals decide

/-- What is put behind a path makes it a source, or JavaScript where that is allowed. -/
private theorem allows_of_mem_extensions {extension : String} (h : extension ∈ resolver.extensions)
    (path : String) : resolver.Allows (Path.extension (path ++ extension)) := by
  rcases List.mem_append.mp h with hts | hjs
  · have hneutral : ∀ other ∈ tsExtensions, isNeutral other = true := by decide
    exact allows_of_notMem (extension_notMem_switched (hneutral extension hts) path)
  · split at hjs
    · rename_i hallow
      refine ⟨fun _ => hallow, fun hjson => absurd hjson ?_⟩
      simp only [List.mem_cons, List.not_mem_nil, or_false] at hjs
      rcases hjs with rfl | rfl
      all_goals exact Path.extension_append_ne (by decide) (by decide) (by decide) path
    · cases hjs

theorem allows_of_mem_candidates {path candidate : String}
    (h : candidate ∈ resolver.candidates path) : resolver.Allows (Path.extension candidate) := by
  simp only [candidates, List.mem_append, List.mem_map] at h
  rcases h with (⟨source, hsource, rfl⟩ | hself) | ⟨extension, hextension, rfl⟩
  · exact allows_of_notMem
      (extension_notMem_switched (isNeutral_of_mem_sourcesOf _ source hsource) _)
  · split at hself
    · rename_i hmodule
      rw [List.mem_singleton.mp hself]
      exact allows_of_isModule hmodule
    · cases hself
  · exact allows_of_mem_extensions hextension path

theorem allows_of_resolve? {file found : String} {reference : ModuleReference}
    (hkind : reference.kind ≠ .path) (h : resolver.resolve? host file reference = some found) :
    resolver.Allows (Path.extension found) := by
  obtain ⟨stem, hstem⟩ := exists_file?_of_resolve? hkind h
  rw [file?] at hstem
  exact allows_of_mem_candidates (List.mem_of_find?_eq_some hstem)

/-- What a reference resolves to is a file. For imports and for declarations it is no JavaScript unless
`allowJs` or `checkJs` is true, and no JSON unless `resolveJsonModule` is. -/
theorem resolve?_switched {options : CompilerOptions} {file found : String}
    {reference : ModuleReference}
    (h : (ofOptions options).resolve? host file reference = some found) :
    host.isFile found = true ∧ (reference.kind ≠ .path →
      (isJs (Path.extension found) = true →
        CompilerOptions.flag options "allowJs" = true ∨
          CompilerOptions.flag options "checkJs" = true) ∧
      (Path.extension found = ".json" →
        CompilerOptions.flag options "resolveJsonModule" = true)) := by
  refine ⟨isFile_of_resolve? h, fun hkind => ?_⟩
  obtain ⟨hjs, hjson⟩ := allows_of_resolve? hkind h
  exact ⟨fun hfound => Bool.or_eq_true_iff.mp (hjs hfound), hjson⟩

section Scripted

private def scripted : Memory := .ofFiles [("/p/node_modules/m/package.json",
  "\x7b\"types\": \"m.json\", \"main\": \"m.mjs\"\x7d"), ("/p/node_modules/m/m.json", ""),
  ("/p/node_modules/m/m.mjs", "")]

private def checked : CompilerOptions := .ofList [("checkJs", .bool true)]

private theorem resolve?_scripted : (ofOptions checked).resolve? scripted.host "/p/a.ts"
    ⟨.imported, "m"⟩ = some "/p/node_modules/m/m.mjs" := by
  have hparent : Path.parent "/p/a.ts" = "/p" := by decide +kernel
  rw [resolve?_of_isBare (by decide +kernel) (by decide +kernel) (by decide +kernel)
    (by decide +kernel), hparent, levels, Path.ancestors_eq (by decide +kernel)]
  decide +kernel

/-- The manifest names a JSON file first, which is passed over, and then a script. -/
theorem resolve?_switched_scripted :
    (ofOptions checked).resolve? scripted.host "/p/a.ts" ⟨.imported, "m"⟩ =
        some "/p/node_modules/m/m.mjs" ∧
      scripted.host.isFile "/p/node_modules/m/m.json" = true ∧
      scripted.host.isFile "/p/node_modules/m/m.mjs" = true ∧
      (CompilerOptions.flag checked "allowJs" = true ∨
        CompilerOptions.flag checked "checkJs" = true) := by
  obtain ⟨hfile, hswitches⟩ := resolve?_switched resolve?_scripted
  refine ⟨resolve?_scripted, by decide +kernel, hfile, ?_⟩
  exact (hswitches (by decide)).1 (by decide +kernel)

end Scripted

end Resolver
end Tsconfig
