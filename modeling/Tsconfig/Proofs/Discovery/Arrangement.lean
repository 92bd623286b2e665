import Mathlib
import Tsconfig.Discovery.Search
import Tsconfig.Host.Memory
import Tsconfig.Proofs.Discovery.Order

/-! Which files are discovered, and where each stands, is a matter of the set of files that a host
lists. In what order and how often it lists them is nothing to the result. -/
namespace Tsconfig

/-- Hosts that list the same files for every directory and whatever is picked out. -/
def Host.SameListings (host other : Host) : Prop :=
  ∀ dir pruned file, file ∈ host.list dir pruned ↔ file ∈ other.list dir pruned

namespace Discovery

/-- The index of the first pattern that stands for a file; the number of patterns if none does. -/
def firstPattern (request : Request) (file : String) : Nat :=
  (request.patterns.map Glob.ofText).findIdx (·.accepts file)

/-- Files of earlier patterns come first; those of one pattern are in order. -/
def Precedes (request : Request) (a b : String) : Prop :=
  firstPattern request a < firstPattern request b ∨
    firstPattern request a = firstPattern request b ∧ compare a b = .lt

theorem Precedes.ne {request : Request} {a b : String} (h : Precedes request a b) : a ≠ b := by
  rintro rfl
  rcases h with hlt | ⟨-, hlt⟩
  · exact Nat.lt_irrefl _ hlt
  · have hself : compare a a = .eq := Std.ReflCmp.compare_self
    rw [hself] at hlt
    cases hlt

section Collect
variable {host other : Host} {request : Request}

theorem mem_collect {index : Nat} {file : String} :
    (index, file) ∈ collect host request ↔
      (∃ root ∈ walkRoots request.patterns,
        file ∈ host.list root (isPruned request.excludedGlobs)) ∧
      isSource request.allowJs request.excludedGlobs file = true ∧
      (request.patterns.map Glob.ofText).findIdx? (·.accepts file) = some index := by
  simp only [collect, mem_distinct, List.mem_filterMap, List.mem_flatMap,
    Option.ite_none_right_eq_some, Option.map_eq_some_iff, Prod.mk.injEq]
  constructor
  · rintro ⟨_, hlisted, hsource, _, hindex, rfl, rfl⟩
    exact ⟨hlisted, hsource, hindex⟩
  · rintro ⟨hlisted, hsource, hindex⟩
    exact ⟨file, hlisted, hsource, index, hindex, rfl, rfl⟩

theorem nodup_collect (host : Host) (request : Request) : (collect host request).Nodup :=
  nodup_distinct _

theorem firstPattern_of_mem_collect {found : Nat × String} (h : found ∈ collect host request) :
    firstPattern request found.2 = found.1 ∧ found.1 < request.patterns.length := by
  obtain ⟨-, -, hindex⟩ := mem_collect.mp h
  obtain ⟨hlt, hfirst⟩ := List.findIdx?_eq_some_iff_findIdx_eq.mp hindex
  rw [List.length_map] at hlt
  exact ⟨hfirst, hlt⟩

end Collect

section Arrange
variable {request : Request} {found more : List (Nat × String)}

theorem arrange_eq_of_perm (count : Nat) (h : found.Perm more) :
    arrange count found = arrange count more := by
  refine congrArg List.flatten (List.map_congr_left fun index _ => ?_)
  exact sorted_eq_of_perm ((h.filter _).map _)

theorem mem_arrange {count : Nat} {file : String} :
    file ∈ arrange count found ↔ ∃ index < count, (index, file) ∈ found := by
  simp [arrange]

/-- Within one pattern the order decides, between two of them the pattern. -/
theorem pairwise_arrange (hnodup : found.Nodup)
    (h : ∀ entry ∈ found, firstPattern request entry.2 = entry.1) (count : Nat) :
    (arrange count found).Pairwise (Precedes request) := by
  have hindex {index : Nat} {file : String}
      (hfile : file ∈ ((found.filter (·.1 = index)).map Prod.snd).mergeSort le) :
      firstPattern request file = index := by
    obtain ⟨entry, hentry, rfl⟩ := List.mem_map.mp (List.mem_mergeSort.mp hfile)
    obtain ⟨hmem, heq⟩ := List.mem_filter.mp hentry
    rw [h entry hmem, of_decide_eq_true heq]
  rw [arrange, List.pairwise_flatMap]
  refine ⟨fun index _ => ?_, ?_⟩
  · have hfiles : ((found.filter (·.1 = index)).map Prod.snd).Nodup := by
      refine List.Nodup.map_on ?_ (hnodup.filter _)
      intro a ha b hb heq
      have hfirst := of_decide_eq_true (List.mem_filter.mp ha).2
      have hother := of_decide_eq_true (List.mem_filter.mp hb).2
      exact Prod.ext (hfirst.trans hother.symm) heq
    refine (pairwise_lt_sorted hfiles).imp_of_mem fun ha hb hlt => .inr ⟨?_, hlt⟩
    rw [hindex ha, hindex hb]
  · refine List.pairwise_lt_range.imp fun hlt a ha b hb => .inl ?_
    rwa [hindex ha, hindex hb]

end Arrange

section Discover
variable {host other : Host} {request : Request} {files : List String}

/-- The files that are found decide the result, in whatever order they are found. -/
theorem discover_congr
    (h : ∀ index file,
      (index, file) ∈ collect host request ↔ (index, file) ∈ collect other request) :
    discover host request = discover other request := by
  have hperm : (collect host request).Perm (collect other request) :=
    (List.perm_ext_iff_of_nodup (nodup_collect _ _) (nodup_collect _ _)).mpr
      fun entry => h entry.1 entry.2
  rw [discover, discover, arrange_eq_of_perm _ hperm]

theorem discover_eq_ok (h : discover host request = .ok files) :
    files = dropShadowed (arrange request.patterns.length (collect host request)) := by
  rw [discover] at h
  split at h
  · cases h
  · exact (Except.ok.inj h).symm

theorem pairwise_discover (h : discover host request = .ok files) :
    files.Pairwise (Precedes request) := by
  rw [discover_eq_ok h]
  refine List.Pairwise.filter _ (pairwise_arrange (nodup_collect host request) ?_ _)
  exact fun _ hentry => (firstPattern_of_mem_collect hentry).1

theorem firstPattern_lt_of_discover (h : discover host request = .ok files) {file : String}
    (hfile : file ∈ files) : firstPattern request file < request.patterns.length := by
  rw [discover_eq_ok h] at hfile
  obtain ⟨index, hlt, hmem⟩ := mem_arrange.mp (List.mem_filter.mp hfile).1
  rw [(firstPattern_of_mem_collect hmem).1]
  exact hlt

/-- Hosts that list the same files discover the same list or fail alike. The list ascends strictly:
by the first pattern that stands for a file, then in the order of discovered files. -/
theorem discover_of_sameListings (h : host.SameListings other) (request : Request) :
    discover host request = discover other request ∧
      ∀ files, discover host request = .ok files →
        files.Nodup ∧ files.Pairwise (Precedes request) ∧
          ∀ file ∈ files, firstPattern request file < request.patterns.length := by
  refine ⟨discover_congr fun index file => ?_, fun files hfiles => ?_⟩
  · simp only [mem_collect, h _ _ file]
  · exact ⟨(pairwise_discover hfiles).imp Precedes.ne, pairwise_discover hfiles,
      fun _ hfile => firstPattern_lt_of_discover hfiles hfile⟩

end Discover

section Shuffled

private def listing : Memory := .ofFiles [("/p/a/c.ts", ""), ("/p/b.ts", ""), ("/p/b.d.ts", "")]

/-- Lists the files backwards and forwards. -/
private def shuffled : Host :=
  { listing.host with
    list := fun dir pruned => (listing.list dir pruned).reverse ++ listing.list dir pruned }

private theorem sameListings_shuffled : listing.host.SameListings shuffled := by
  intro dir pruned file
  change _ ↔ file ∈ (listing.list dir pruned).reverse ++ listing.list dir pruned
  rw [List.mem_append, List.mem_reverse, or_self]
  rfl

private def sources : Request := ⟨["/p/*.ts", "/p"], [], false⟩

private theorem walkRoots_sources : walkRoots sources.patterns = ["/p"] := by
  rw [walkRoots, List.mergeSort_of_pairwise (by decide +kernel)]
  decide +kernel

private theorem collect_sources : collect listing.host sources =
    [(1, "/p/a/c.ts"), (0, "/p/b.d.ts"), (0, "/p/b.ts")] := by
  rw [collect, walkRoots_sources]
  decide +kernel

private theorem discover_sources :
    discover listing.host sources = .ok ["/p/b.ts", "/p/a/c.ts"] := by
  have hopen : sources.patterns.find? isOpenEnded = none := by decide +kernel
  have hsorted : ["/p/b.d.ts", "/p/b.ts"].mergeSort le = ["/p/b.d.ts", "/p/b.ts"] :=
    List.mergeSort_of_pairwise (by decide +kernel)
  have harrange : arrange 2 (collect listing.host sources) =
      ["/p/b.d.ts", "/p/b.ts", "/p/a/c.ts"] := by
    rw [collect_sources]
    simp [arrange, List.range_succ, hsorted]
  rw [discover, hopen]
  change Except.ok (dropShadowed (arrange 2 _)) = _
  rw [harrange]
  exact congrArg Except.ok (by decide +kernel)

/-- The later pattern stands for both files, the earlier one for the file at the top. -/
theorem discover_of_sameListings_shuffled :
    listing.host.SameListings shuffled ∧
      discover listing.host sources = .ok ["/p/b.ts", "/p/a/c.ts"] ∧
      discover shuffled sources = .ok ["/p/b.ts", "/p/a/c.ts"] ∧
      ["/p/b.ts", "/p/a/c.ts"].Pairwise (Precedes sources) := by
  obtain ⟨heq, hordered⟩ := discover_of_sameListings sameListings_shuffled sources
  refine ⟨sameListings_shuffled, discover_sources, ?_, ?_⟩
  · rw [← heq, discover_sources]
  · exact (hordered _ discover_sources).2.1

end Shuffled
end Discovery
end Tsconfig
