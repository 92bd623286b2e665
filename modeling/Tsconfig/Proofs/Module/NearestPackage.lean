import Tsconfig.Proofs.Host.Listing
import Tsconfig.Proofs.Module.Spliced
import Tsconfig.Proofs.Package.Climb

/-!
Packages are looked for from the directory of a file up to the root. The nearest directory whose
package folder has something decides, and in it the package itself goes before its declarations.
-/
namespace Tsconfig

namespace Resolver
variable {resolver : Resolver} {host : Host} {memory : Memory}

/-- The module of a package in the package folder of a directory, if the package is there. -/
def packageIn? (resolver : Resolver) (host : Host) (subpath : Option String) (dir package : String) :
    Option String :=
  let folder := Path.join (Path.join dir Path.packageFolder) package
  if host.isDir folder then resolver.package? host folder subpath else none

/-- What a specifier means in the package itself. -/
def ownModule? (resolver : Resolver) (host : Host) (specifier dir : String) : Option String :=
  let split := PackageSpecifier.ofText specifier
  resolver.packageIn? host split.subpath dir split.package

/-- What a specifier means in the package of the declarations. -/
def declaredModule? (resolver : Resolver) (host : Host) (specifier dir : String) : Option String :=
  let split := PackageSpecifier.ofText specifier
  resolver.packageIn? host split.subpath dir (typesPackage split.package)

/-- What a directory has for a specifier. -/
def moduleAt? (resolver : Resolver) (host : Host) (specifier dir : String) : Option String :=
  (resolver.ownModule? host specifier dir).or (resolver.declaredModule? host specifier dir)

/-- In memory a package folder is there if a package in it is, so asking for it changes nothing. -/
theorem packageAt?_memory (packages : List String) (subpath : Option String) (dir : String) :
    resolver.packageAt? memory.host packages subpath dir =
      packages.findSome? (resolver.packageIn? memory.host subpath dir) := by
  have hne : Path.join dir Path.packageFolder ≠ "" := by
    rw [ne_eq, ← String.toList_eq_nil_iff, Path.join, String.toList_ofList]
    exact Path.joinChars_ne_nil _ (by decide)
  rw [packageAt?]
  split
  · rfl
  · rename_i hfolder
    refine (List.findSome?_eq_none_iff.mpr fun package _ => if_neg fun hpackage => ?_).symm
    exact hfolder (Memory.isDir_of_isDir_join hne hpackage)

theorem packageAt?_packageNames (specifier dir : String) :
    resolver.packageAt? memory.host
        (packageNames (PackageSpecifier.ofText specifier).package false)
        (PackageSpecifier.ofText specifier).subpath dir =
      resolver.moduleAt? memory.host specifier dir := by
  rw [packageAt?_memory, moduleAt?, ownModule?, declaredModule?]
  change List.findSome? _ [_, _] = _
  rw [List.findSome?_cons, List.findSome?_singleton]
  cases resolver.packageIn? memory.host _ dir (PackageSpecifier.ofText specifier).package with
  | none => rw [Option.none_or]
  | some found => rw [Option.some_or]

/-- Nothing above a normal path is left out. -/
theorem levels_of_normal {dir : String} (h : Path.IsNormal dir) : levels dir = Path.ancestors dir := by
  rw [levels]
  split
  · rename_i hnil
    exact hnil.symm
  · rename_i first above heq
    rw [heq, List.filter_eq_self.mpr fun other hother => decide_eq_true ?_]
    rintro rfl
    obtain ⟨hnormal, -, -⟩ :=
      (Path.mem_ancestors_iff h).mp (heq ▸ List.mem_cons_of_mem first hother)
    exact hnormal.1 rfl

/-- Without mappings and a base, a bare specifier is a module if a directory from that of the file up
to the root has something for it, in the package or in its declarations. The module is the one of
the nearest such directory. -/
theorem resolve?_nearest {options : CompilerOptions} {file specifier : String}
    (hdir : Path.IsNormal (Path.parent file)) (hbare : isBare specifier = true)
    (hmappings : CompilerOptions.pathMappings options = [])
    (hbase : CompilerOptions.text? options "baseUrl" = none)
    (hkind : CompilerOptions.resolutionKind options ≠ .classic) :
    let resolver := ofOptions options
    let found? := resolver.resolve? memory.host file ⟨.imported, specifier⟩
    (found?.isSome = true ↔ ∃ dir, Path.IsAncestor dir (Path.parent file) ∧
      ((resolver.ownModule? memory.host specifier dir).isSome = true ∨
        (resolver.declaredModule? memory.host specifier dir).isSome = true)) ∧
    ∀ found, found? = some found ↔ ∃ dir,
      Path.IsNearest (fun dir => (resolver.moduleAt? memory.host specifier dir).isSome = true)
        (Path.parent file) dir ∧
      resolver.moduleAt? memory.host specifier dir = some found := by
  intro resolver found?
  have hfound : found? =
      (Path.ancestors (Path.parent file)).findSome? (resolver.moduleAt? memory.host specifier) := by
    rw [← levels_of_normal hdir, ← funext (packageAt?_packageNames specifier)]
    exact resolve?_of_isBare hbare hmappings hbase (decide_eq_false hkind)
  rw [hfound]
  constructor
  · simp only [List.findSome?_isSome_iff, Path.mem_ancestors_iff hdir, moduleAt?, Option.isSome_or,
      Bool.or_eq_true]
  · exact fun found => Path.findSome?_ancestors_eq_some_iff hdir

section Shadowed

private def shadowed : Memory := .ofFiles [("/node_modules/m/index.ts", ""),
  ("/p/node_modules/@types/m/index.d.ts", ""), ("/p/node_modules/m/lib.ts", "")]

/-- The declarations of a package shadow the package itself where that is further up. -/
theorem resolve?_nearest_declarations :
    (ofOptions ∅).ownModule? shadowed.host "m" "/" = some "/node_modules/m/index.ts" ∧
    (ofOptions ∅).resolve? shadowed.host "/p/q/a.ts" ⟨.imported, "m"⟩ =
      some "/p/node_modules/@types/m/index.d.ts" := by
  have hparent : Path.parent "/p/q/a.ts" = "/p/q" := by decide +kernel
  have hnormal : Path.IsNormal "/p/q" := by decide +kernel
  refine ⟨by decide +kernel, ?_⟩
  refine ((resolve?_nearest (hparent ▸ hnormal) (by decide +kernel) (by decide +kernel)
    (by decide +kernel) (by decide +kernel)).2 _).mpr ?_
  rw [hparent]
  refine ⟨"/p", ⟨by decide +kernel, by decide +kernel, fun other hother => ?_⟩, by decide +kernel⟩
  rw [← Path.mem_ancestors_iff hnormal, Path.ancestors_eq hnormal] at hother
  revert other
  decide +kernel

end Shadowed

end Resolver
end Tsconfig
