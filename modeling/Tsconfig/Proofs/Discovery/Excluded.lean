import Tsconfig.Proofs.Discovery.Arrangement
import Tsconfig.Proofs.Discovery.Below
import Tsconfig.Proofs.Discovery.Roots

/-! What is excluded is closed downwards: with a path, everything below it is excluded. Hence a
search that enters excluded directories finds no more than one that does not. -/
namespace Tsconfig.Discovery
open Text Glob

/-- Whether a directory, written with a slash at its end or without, lies above a path. -/
def IsAbove (dir path : String) : Prop :=
  dir.toList ++ ['/'] <+: path.toList ∨ ['/'] <:+ dir.toList ∧ dir.toList <+: path.toList

/-- The same search with another test for the directories that are not entered. -/
def discoverBy (pruned : String → Bool) (host : Host) (request : Request) :
    Except ConfigFault (List String) :=
  discover { host with list := fun dir _ => host.list dir pruned } request

theorem discoverBy_isPruned (host : Host) (request : Request) :
    discoverBy (isPruned request.excludedGlobs) host request = discover host request :=
  discover_congr fun _ _ => by rw [mem_collect, mem_collect]

section Exclusion
variable {request : Request} {dir path : String}

theorem not_slash_suffix_trimmed (pattern : String) : ¬ ['/'] <:+ (trimmed pattern).toList := by
  rintro ⟨text, htext⟩
  rw [trimmed, String.toList_ofList] at htext
  exact trim_getLast? '/' (by rw [← htext, List.getLast?_concat]) rfl

theorem anyAccepts_excludedGlobs :
    anyAccepts request.excludedGlobs path = true ↔
      ∃ pattern ∈ request.excluded, Covers (trimmed pattern).toList path.toList := by
  simp only [anyAccepts, Request.excludedGlobs, List.any_map, List.any_flatMap, List.any_eq_true,
    expandExcluded, List.any_cons, List.any_nil, Function.comp_apply, Bool.or_false, accepts,
    ofText, Bool.or_eq_true, String.toList_append, Covers, or_comm]
  rfl

/-- With a directory all that is below it is excluded. -/
theorem anyAccepts_of_isAbove (habove : IsAbove dir path)
    (h : anyAccepts request.excludedGlobs dir = true) :
    anyAccepts request.excludedGlobs path = true := by
  obtain ⟨pattern, hpattern, hcovers⟩ := anyAccepts_excludedGlobs.mp h
  refine anyAccepts_excludedGlobs.mpr ⟨pattern, hpattern, ?_⟩
  rcases habove with ⟨more, hmore⟩ | ⟨⟨lead, hlead⟩, more, hmore⟩
  · rw [← hmore, ← List.append_cons]
    exact hcovers.below more
  · rw [← hlead] at hcovers
    rw [← hmore, ← hlead, ← List.append_cons]
    exact hcovers.append (not_slash_suffix_trimmed pattern) more

theorem isPruned_of_not_anyAccepts (h : anyAccepts request.excludedGlobs dir = false) :
    isPruned request.excludedGlobs dir = isPruned [] dir := by
  rw [isPruned, isPruned, h]
  rfl

/-- No directory above a file that is not excluded is excluded, so it is entered or not for its name
alone. -/
theorem mem_list_isPruned {memory : Memory} {root file : String}
    (h : anyAccepts request.excludedGlobs file = false) :
    file ∈ memory.list root (isPruned request.excludedGlobs) ↔
      file ∈ memory.list root (isPruned []) := by
  simp only [Memory.list, List.mem_filter, Bool.and_eq_true]
  refine and_congr_right fun _ => and_congr_right fun hbelow => ?_
  rw [Memory.isReached_iff hbelow, Memory.isReached_iff hbelow]
  refine forall_congr' fun inner => imp_congr_right fun _ => imp_congr_right fun hinner => ?_
  have habove : IsAbove (String.ofList inner) file := .inl (by rwa [String.toList_ofList])
  have hinner : anyAccepts request.excludedGlobs (String.ofList inner) = false := by
    rw [← Bool.not_eq_true] at h ⊢
    exact fun haccepts => h (anyAccepts_of_isAbove habove haccepts)
  rw [isPruned_of_not_anyAccepts hinner]

theorem discoverBy_isPruned_nil (memory : Memory) (request : Request) :
    discoverBy (isPruned []) memory.host request = discover memory.host request := by
  refine discover_congr fun index file => ?_
  rw [mem_collect, mem_collect]
  refine and_congr_left fun ⟨hsource, _⟩ => exists_congr fun root => and_congr_right fun _ => ?_
  rw [isSource, Bool.and_eq_true, Bool.not_eq_true'] at hsource
  exact (mem_list_isPruned hsource.2).symm

theorem not_anyAccepts_of_discover {host : Host} {files : List String}
    (h : discover host request = .ok files) {file : String} (hfile : file ∈ files) :
    anyAccepts request.excludedGlobs file = false := by
  rw [discover_eq_ok h] at hfile
  obtain ⟨index, -, hmem⟩ := mem_arrange.mp (List.mem_filter.mp hfile).1
  obtain ⟨-, hsource, -⟩ := mem_collect.mp hmem
  rw [isSource, Bool.and_eq_true, Bool.not_eq_true'] at hsource
  exact hsource.2

/-- Not to enter what is excluded changes nothing but the work. No file that is found is excluded,
nor is a directory above it; a search that enters excluded directories finds the same. -/
theorem discover_excluded (memory : Memory) (request : Request) :
    (∀ files, discover memory.host request = .ok files → ∀ file ∈ files, ∀ dir,
      dir = file ∨ IsAbove dir file → anyAccepts request.excludedGlobs dir = false) ∧
    discoverBy (isPruned []) memory.host request = discover memory.host request ∧
    ∀ dir path, IsAbove dir path → anyAccepts request.excludedGlobs dir = true →
      anyAccepts request.excludedGlobs path = true := by
  refine ⟨fun files hfiles file hfile dir hdir => ?_, discoverBy_isPruned_nil memory request,
    fun _ _ => anyAccepts_of_isAbove⟩
  have hnone := not_anyAccepts_of_discover hfiles hfile
  rcases hdir with rfl | habove
  · exact hnone
  · rw [← Bool.not_eq_true] at hnone ⊢
    exact fun haccepts => hnone (anyAccepts_of_isAbove habove haccepts)

end Exclusion

section Compiled

private def compiled : Memory := .ofFiles [("/p/a.ts", ""), ("/p/dist/deep/out.ts", "")]

private def withoutDist : Request := ⟨["/p"], ["/p/d*st/"], false⟩

private theorem discover_withoutDist : discover compiled.host withoutDist = .ok ["/p/a.ts"] := by
  have hroots : walkRoots withoutDist.patterns = ["/p"] := by
    rw [walkRoots, List.mergeSort_of_pairwise (by decide +kernel)]
    decide +kernel
  have hcollect : collect compiled.host withoutDist = [(0, "/p/a.ts")] := by
    rw [collect, hroots]
    decide +kernel
  have hopen : withoutDist.patterns.find? isOpenEnded = none := by decide +kernel
  have harrange : arrange 1 (collect compiled.host withoutDist) = ["/p/a.ts"] := by
    rw [hcollect]
    simp [arrange, List.range_succ]
  rw [discover, hopen]
  change Except.ok (dropShadowed (arrange 1 _)) = _
  rw [harrange]
  exact congrArg Except.ok (by decide +kernel)

/-- A pattern with a star and a slash at its end is for a directory that is not looked for. -/
theorem discover_excluded_withoutDist :
    discover compiled.host withoutDist = .ok ["/p/a.ts"] ∧
      anyAccepts withoutDist.excludedGlobs "/p" = false ∧
      discoverBy (isPruned []) compiled.host withoutDist = .ok ["/p/a.ts"] ∧
      IsAbove "/p/dist" "/p/dist/deep/out.ts" ∧
      anyAccepts withoutDist.excludedGlobs "/p/dist/deep/out.ts" = true := by
  obtain ⟨hfiles, heq, hbelow⟩ := discover_excluded compiled withoutDist
  have habove : IsAbove "/p/dist" "/p/dist/deep/out.ts" := .inl (by decide +kernel)
  refine ⟨discover_withoutDist, ?_, heq.trans discover_withoutDist, habove, ?_⟩
  · have hroot : IsAbove "/p" "/p/a.ts" := .inl (by decide +kernel)
    exact hfiles _ discover_withoutDist _ (List.mem_singleton_self _) "/p" (.inr hroot)
  · exact hbelow _ _ habove (by decide +kernel)

end Compiled
end Tsconfig.Discovery
