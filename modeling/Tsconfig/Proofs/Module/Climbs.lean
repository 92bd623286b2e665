import Tsconfig.Module.Resolver
import Tsconfig.Proofs.Module.Spliced
import Tsconfig.Proofs.Path.Climb

/-!
The searches that climb, as loops: for the config of a package, for a file in the directories above, and for
a module in their package folders. Each loop has its own test for where it ends. All of them end, with what
the search along the list of directories finds.
-/
namespace Tsconfig

namespace Path

theorem ancestors_eq_cons (dir : String) : ∃ above, ancestors dir = dir :: above := by
  rw [ancestors]
  split
  · exact ⟨_, rfl⟩
  · exact ⟨_, rfl⟩

theorem ancestors_empty : ancestors "" = [""] := by
  have hlength : ¬(parent "").length < "".length := Nat.not_lt_zero _
  rw [ancestors, if_neg hlength]

end Path

namespace Package
variable {host : Host} {specifier : PackageSpecifier}

/-- Nothing is looked for above a root. -/
def isLast (dir : String) : Bool := Path.isRoot dir || dir = ""

/-- The loop for the config of a package. It gathers the files that it asks for. -/
def loop (host : Host) (specifier : PackageSpecifier) : Path.Climb (List String) Lookup where
  round asked dir :=
    if Path.baseName dir = Path.packageFolder then .inl asked
    else
      let folder := folderAt dir specifier.package
      let lookup := lookupIn host folder specifier.subpath
      if lookup.found.isSome || Path.isTopPackage folder then .inr ⟨lookup.found, asked ++ lookup.asked⟩
      else .inl (asked ++ lookup.asked)
  isLast := isLast
  close asked := ⟨none, asked⟩

/-- What comes out of a search after other files have been asked for. -/
def after (asked : List String) (lookup : Lookup) : Lookup := ⟨lookup.found, asked ++ lookup.asked⟩

theorem parent_ne_of_not_isLast {dir : String} (h : isLast dir = false) : Path.parent dir ≠ dir := by
  rw [isLast, Bool.or_eq_false_iff, decide_eq_false_iff_not] at h
  have hshorter := Path.length_parent_lt h.2 h.1
  intro heq
  rw [heq] at hshorter
  exact Nat.lt_irrefl _ hshorter

/-- A round of the loop is a step of the search along a list of directories. -/
theorem after_climb (asked : List String) (dir : String) (above : List String) :
    after asked (climb host specifier (dir :: above)) =
      match (loop host specifier).round asked dir with
      | .inr result => result
      | .inl next => after next (climb host specifier above) := by
  rw [climb, loop]
  dsimp only
  split
  · rfl
  · cases hfound : (lookupIn host (folderAt dir specifier.package) specifier.subpath).found with
    | some config => simp [Lookup.orElse, hfound, after]
    | none =>
      cases htop : Path.isTopPackage (folderAt dir specifier.package) with
      | true => simp [Lookup.orElse, hfound, after, Lookup.nothing]
      | false => simp [Lookup.orElse, hfound, after]

theorem throughFirst_ancestors (dir : String) :
    throughFirst isLast (Path.ancestors dir) =
      dir :: if isLast dir then [] else throughFirst isLast (Path.ancestors (Path.parent dir)) := by
  cases hlast : isLast dir with
  | true =>
    obtain ⟨above, habove⟩ := Path.ancestors_eq_cons dir
    rw [habove, throughFirst, if_pos hlast, if_pos rfl]
  | false =>
    have hne := hlast
    rw [isLast, Bool.or_eq_false_iff, decide_eq_false_iff_not] at hne
    rw [Path.ancestors, if_pos (Path.length_parent_lt hne.2 hne.1), throughFirst]
    simp [hlast]

theorem ends_loop_iff {asked : List String} {dir : String} {result : Lookup} (h : Path.IsSlashed dir) :
    (loop host specifier).Ends asked dir result ↔
      result = after asked (climb host specifier (throughFirst isLast (Path.ancestors dir))) := by
  apply Path.Climb.ends_iff_of_unfolds (loop host specifier)
    (fun asked dir => after asked (climb host specifier (throughFirst isLast (Path.ancestors dir))))
    (fun _ => parent_ne_of_not_isLast) _ h
  intro asked dir _
  rw [throughFirst_ancestors, after_climb]
  cases (loop host specifier).round asked dir with
  | inr result => rfl
  | inl next =>
    cases hlast : isLast dir with
    | true => simp [loop, hlast, after, climb, Lookup.nothing]
    | false => simp [loop, hlast]

end Package

namespace Resolver
variable {look : String → Option String} {dir : String}

/-- A loop that looks for a module in one directory after the other. -/
def loop (look : String → Option String) : Path.Climb Unit (Option String) where
  round _ dir := match look dir with
    | some found => .inr (some found)
    | none => .inl ()
  isLast dir := Path.parent dir = dir || Path.parent dir = ""
  close _ := none

theorem isLast_loop_iff :
    (loop look).isLast dir = true ↔ Path.parent dir = dir ∨ Path.parent dir = "" := by
  simp [loop]

theorem parent_ne_of_not_isLast (h : (loop look).isLast dir = false) : Path.parent dir ≠ dir := by
  intro hself
  have hlast : (loop look).isLast dir = true := isLast_loop_iff.mpr (.inl hself)
  rw [h] at hlast
  cases hlast

/-- The empty directory that a relative one ends in is left out. -/
theorem levels_eq (h : Path.IsSlashed dir) :
    levels dir = dir ::
      if Path.parent dir = dir ∨ Path.parent dir = "" then [] else levels (Path.parent dir) := by
  obtain ⟨above, habove⟩ := Path.ancestors_eq_cons (Path.parent dir)
  have hparent := Path.parent_eq_or_length_lt dir
  rw [h.slashed_eq] at hparent
  rw [levels, levels, habove, Path.ancestors]
  rcases hparent with hself | hshorter
  · have hstays : ¬(Path.parent dir).length < dir.length := by
      rw [hself]
      exact Nat.lt_irrefl _
    rw [if_neg hstays, if_pos (.inl hself)]
    rfl
  · have hne : Path.parent dir ≠ dir := by
      intro hself
      rw [hself] at hshorter
      exact Nat.lt_irrefl _ hshorter
    rw [if_pos hshorter, habove]
    by_cases hempty : Path.parent dir = ""
    · rw [hempty, Path.ancestors_empty] at habove
      rw [← (List.cons.inj habove).2, hempty]
      simp
    · simp [hne, hempty]

theorem ends_loop_iff {result : Option String} (h : Path.IsSlashed dir) :
    (loop look).Ends () dir result ↔ result = (levels dir).findSome? look := by
  apply Path.Climb.ends_iff_of_unfolds (loop look) (fun _ dir => (levels dir).findSome? look)
    (fun _ => parent_ne_of_not_isLast) _ h
  intro _ dir hdir
  rw [levels_eq hdir, List.findSome?_cons]
  cases hlook : look dir with
  | some found =>
    have hround : (loop look).round () dir = .inr (some found) := by simp [loop, hlook]
    rw [hround]
  | none =>
    have hround : (loop look).round () dir = .inl () := by simp [loop, hlook]
    rw [hround]
    by_cases hlast : Path.parent dir = dir ∨ Path.parent dir = ""
    · simp [hlast, loop]
    · simp [hlast, isLast_loop_iff]

variable (resolver : Resolver) (host : Host) (specifier : String)

/-- The loop for the file of that name in the directories above. -/
def fileLoop : Path.Climb Unit (Option String) :=
  loop fun dir => resolver.file? host (Path.join dir specifier)

/-- The loop for a module in the package folders above. -/
def packageLoop (typesOnly : Bool) : Path.Climb Unit (Option String) :=
  let split := PackageSpecifier.ofText specifier
  loop (resolver.packageAt? host (packageNames split.package typesOnly) split.subpath)

end Resolver

open Tsconfig.Path in
/-- Every climb ends. A parent is its directory, brought to slashes, or shorter, which it is for all that is
neither empty nor a root. From a normal path the parents are its ancestors up to the root. So the loops end
from every start, with what the searches find; modules are only looked for from the parents of files, which
have no backslashes. -/
theorem climbs_end :
    (∀ dir, (parent dir).toList <+: (slashed dir).toList ∧
      (parent dir = slashed dir ∨ (parent dir).length < dir.length)) ∧
    (∀ dir, dir ≠ "" → isRoot dir = false → (parent dir).length < dir.length) ∧
    (∀ path, IsNormal path → VisitsAncestors path) ∧
    (∀ host start specifier result,
      (Package.loop host (.ofText specifier)).Ends [] (slashed start) result ↔
        result = Package.lookupConfig host start specifier) ∧
    ∀ (resolver : Resolver) (host : Host) (dir specifier : String),
      (∃! result, (resolver.fileLoop host specifier).Ends () dir result) ∧
      (∀ typesOnly, ∃! result, (resolver.packageLoop host specifier typesOnly).Ends () dir result) ∧
      (IsSlashed dir →
        (resolver.fileLoop host specifier).Ends () dir (resolver.inAncestors? host dir specifier) ∧
        ∀ typesOnly, (resolver.packageLoop host specifier typesOnly).Ends () dir
          (resolver.inPackages? host dir specifier typesOnly)) := by
  refine ⟨fun dir => ⟨parent_prefix_slashed dir, parent_eq_or_length_lt dir⟩,
    fun _ => length_parent_lt, fun _ => visitsAncestors, ?_, ?_⟩
  · intro host start specifier result
    exact Package.ends_loop_iff (isSlashed_slashed start)
  · intro resolver host dir specifier
    refine ⟨?_, fun typesOnly => ?_, fun hdir => ⟨?_, fun typesOnly => ?_⟩⟩
    · exact Climb.existsUnique_ends (fun _ => Resolver.parent_ne_of_not_isLast) () dir
    · exact Climb.existsUnique_ends (fun _ => Resolver.parent_ne_of_not_isLast) () dir
    · exact (Resolver.ends_loop_iff hdir).mpr rfl
    · exact (Resolver.ends_loop_iff hdir).mpr rfl

section Climbed
open Tsconfig.Path

private def above : Memory := .ofFiles [("m.ts", ""), ("a/node_modules/m.ts", "")]

/-- A relative directory with a slash at its end, and a share below the root of its server. -/
theorem climbs_end_relative :
    isRoot "C:\\a\\" = false ∧ (parent "C:\\a\\").length < "C:\\a\\".length ∧
    IsNormal "//s/a/b" ∧ isRoot (parent^[2] "//s/a/b") = true ∧
    IsSlashed "a/b/" ∧
    ((Resolver.ofOptions ∅).fileLoop above.host "node_modules/m").Ends () "a/b/"
      (some "a/node_modules/m.ts") := by
  obtain ⟨-, hshorter, hvisits, -, hloops⟩ := climbs_end
  have hroot : isRoot "C:\\a\\" = false := by decide +kernel
  have hnormal : IsNormal "//s/a/b" := by decide +kernel
  have hslashed : IsSlashed "a/b/" := by decide +kernel
  obtain ⟨-, -, hends⟩ := hloops (.ofOptions ∅) above.host "a/b/" "node_modules/m"
  have hfound : (Resolver.ofOptions ∅).inAncestors? above.host "a/b/" "node_modules/m" =
      some "a/node_modules/m.ts" := by decide +kernel
  refine ⟨hroot, hshorter _ (by decide) hroot, hnormal, ?_, hslashed, hfound ▸ (hends hslashed).1⟩
  exact ((hvisits _ hnormal).isRoot_iff 2).mpr (by decide +kernel)

end Climbed

end Tsconfig
