import Tsconfig.Proofs.Discovery.Roots
import Tsconfig.Proofs.Path.Normal

/-! A request finds what its patterns find one by one, as far as the searches that are left enter the
directories that the patterns start from. -/
namespace Tsconfig.Discovery
open Text

section Absolute
variable {pattern : String}

theorem expandIncluded_eq (pattern : String) :
    expandIncluded pattern = trimmed pattern ∨ expandIncluded pattern = trimmed pattern ++ "/**/*" := by
  rw [expandIncluded]
  split
  · exact .inl rfl
  · exact .inr rfl

theorem backslash_notMem_trimmed (pattern : String) : '\\' ∉ (trimmed pattern).toList := by
  intro hmem
  rw [trimmed, String.toList_ofList] at hmem
  have hslashed := (dropEndWhile_prefix_self _ _).subset hmem
  obtain ⟨c, -, hc⟩ := List.mem_map.mp hslashed
  split at hc
  · cases hc
  · rename_i hne
    exact hne hc

theorem backslash_notMem_expandIncluded (pattern : String) :
    '\\' ∉ (expandIncluded pattern).toList := by
  rcases expandIncluded_eq pattern with heq | heq
  · rw [heq]
    exact backslash_notMem_trimmed pattern
  · rw [heq, String.toList_append, List.mem_append, not_or]
    exact ⟨backslash_notMem_trimmed pattern, by decide⟩

/-- A pattern that ends in a star is matched as it is. -/
theorem expandIncluded_of_star {lead : List Char}
    (hpattern : pattern.toList = lead ++ ['*']) (hslashed : '\\' ∉ pattern.toList) :
    expandIncluded pattern = pattern := by
  have htrimmed : trimmed pattern = pattern := by
    rw [trimmed, Path.slashedChars_eq_self hslashed, hpattern, dropEndWhile_concat (by decide),
      ← hpattern, String.ofList_toList]
  have hstar : hasWildcard (Path.baseNameChars pattern.toList) = true := by
    rw [Path.baseNameChars, hpattern, dropEndWhile_concat (by decide)]
    simp [takeEndWhile, hasWildcard, Path.isSeparator]
  rw [expandIncluded, htrimmed]
  simp [hstar]

theorem trimmed_trimmed (pattern : String) : trimmed (trimmed pattern) = trimmed pattern := by
  rw [trimmed, Path.slashedChars_eq_self (backslash_notMem_trimmed pattern), trimmed,
    String.toList_ofList, dropEndWhile_eq_self fun c hc => getLast?_dropEndWhile hc]

/-- A pattern that was made ready to be matched is matched as it is. -/
theorem expandIncluded_expandIncluded (pattern : String) :
    expandIncluded (expandIncluded pattern) = expandIncluded pattern := by
  rcases expandIncluded_eq pattern with heq | heq
  · have hagain : expandIncluded (trimmed pattern) = expandIncluded pattern := by
      rw [expandIncluded, expandIncluded, trimmed_trimmed]
    rw [heq, hagain, heq]
  · have hstar : (expandIncluded pattern).toList =
        ((trimmed pattern).toList ++ ['/', '*', '*', '/']) ++ ['*'] := by
      rw [heq, String.toList_append, List.append_assoc]
      rfl
    exact expandIncluded_of_star hstar (backslash_notMem_expandIncluded pattern)

/-- A pattern that is no more than a name without a wildcard and an extension is a directory. -/
theorem expandIncluded_of_plain {first : List Char} (htrimmed : (trimmed pattern).toList = first)
    (hname : hasWildcard (Path.baseNameChars first) = false)
    (hextension : Path.extensionOfName (Path.baseNameChars first) = []) :
    (expandIncluded pattern).toList = first ++ '/' :: ['*', '*', '/', '*'] := by
  subst htrimmed
  simp [expandIncluded, hname, hextension]

/-- What an absolute pattern starts with, before its first slash. -/
def IsTop (first : List Char) : Prop :=
  first = [] ∨ ∃ letter : Char, letter.isAlpha = true ∧ first = [letter, ':']

private theorem exists_top {path : List Char} (h : Path.rootChars path ≠ []) :
    ∃ first below, IsTop first ∧ path = first ++ below ∧ (below = [] ∨ ∃ more, below = '/' :: more) := by
  revert h
  fun_cases Path.rootChars path
  case case1 => exact fun _ => ⟨[], _, .inl rfl, rfl, .inr ⟨_, rfl⟩⟩
  case case2 => exact fun _ => ⟨[], _, .inl rfl, rfl, .inr ⟨_, rfl⟩⟩
  case case3 halpha => exact fun _ => ⟨_, [], .inr ⟨_, halpha, rfl⟩, rfl, .inl rfl⟩
  case case5 halpha =>
    exact fun _ => ⟨[_, ':'], '/' :: _, .inr ⟨_, halpha, rfl⟩, rfl, .inr ⟨_, rfl⟩⟩
  all_goals exact fun h => absurd rfl h

/-- A top is a directory by name, without wildcards. -/
private theorem IsTop.plain {first : List Char} (h : IsTop first) :
    '/' ∉ first ∧ hasWildcard first = false ∧ Path.baseNameChars first = first ∧
      Path.extensionOfName first = [] := by
  rcases h with rfl | ⟨letter, halpha, rfl⟩
  · exact ⟨List.not_mem_nil, rfl, rfl, rfl⟩
  have hne (c : Char) (hc : c.isAlpha = false) : letter ≠ c := by
    rintro rfl
    rw [halpha] at hc
    cases hc
  have hslash := hne '/' rfl
  have hback := hne '\\' rfl
  have hstar := hne '*' rfl
  have hmark := hne '?' rfl
  have hdot := hne '.' rfl
  refine ⟨by simp [hslash.symm], by simp [hasWildcard, hstar.symm, hmark.symm], ?_, ?_⟩
  · simp [Path.baseNameChars, Path.isSeparator, takeEndWhile, dropEndWhile, hslash, hback]
  · have hlong : Path.declarationExtensions.find? (fun e =>
        decide (e.length < [letter, ':'].length) && e.toList.isSuffixOf [letter, ':']) = none := by
      rw [List.find?_eq_none]
      intro e he
      have : ∀ e ∈ Path.declarationExtensions, ¬e.length < 2 := by decide
      simp [this e he]
    simp only [Path.extensionOfName, hlong]
    simp [dropEndWhile, hdot]

/-- The first segment of an absolute pattern is empty or a drive. -/
theorem exists_first_segment (h : Path.isAbsolute pattern = true) :
    ∃ first tail, (expandIncluded pattern).toList = first ++ '/' :: tail ∧ '/' ∉ first ∧
      hasWildcard first = false := by
  rw [Path.isAbsolute, Path.isAbsoluteChars, decide_eq_true_eq] at h
  obtain ⟨first, below, htop, hpath, hbelow⟩ := exists_top h
  obtain ⟨hslash, hwild, hname, hextension⟩ := htop.plain
  have htrimmed : (trimmed pattern).toList = first ++ dropEndWhile (· = '/') below := by
    rw [trimmed, String.toList_ofList, hpath]
    refine dropEndWhile_append (fun c hc => decide_eq_false ?_) below
    rintro rfl
    exact hslash (List.mem_of_getLast? hc)
  have hlead := dropEndWhile_prefix_self (· = '/') below
  cases hcut : dropEndWhile (· = '/') below with
  | nil =>
    rw [hcut, List.append_nil] at htrimmed
    refine ⟨first, _, expandIncluded_of_plain htrimmed ?_ ?_, hslash, hwild⟩
    · rw [hname]
      exact hwild
    · rw [hname]
      exact hextension
  | cons c text =>
    rw [hcut] at htrimmed hlead
    obtain ⟨more, rfl⟩ : ∃ more, below = '/' :: more := by
      rcases hbelow with rfl | hmore
      · cases List.prefix_nil.mp hlead
      · exact hmore
    obtain ⟨rfl, -⟩ := List.cons_prefix_cons.mp hlead
    rcases expandIncluded_eq pattern with heq | heq
    · exact ⟨first, text, heq ▸ htrimmed, hslash, hwild⟩
    · refine ⟨first, text ++ "/**/*".toList, ?_, hslash, hwild⟩
      rw [heq, String.toList_append, htrimmed, List.append_assoc, List.cons_append]

theorem expandIncluded_absolute (h : Path.isAbsolute pattern = true) :
    ∃ rest, (expandIncluded pattern).toList =
      literalLead (expandIncluded pattern) ++ '/' :: rest := by
  obtain ⟨first, tail, hpattern, hslash, hfirst⟩ := exists_first_segment h
  exact eq_literalLead_append hpattern hslash hfirst

end Absolute

theorem trimmedDir_literalBase {pattern : String} (h : '\\' ∉ pattern.toList) :
    Memory.trimmedDir (literalBase pattern) = dropEndWhile (· = '/') (literalLead pattern) := by
  have hbase : '\\' ∉ (literalBase pattern).toList := by
    intro hmem
    rcases List.mem_append.mp ((literalBase_prefix_lead pattern).subset hmem) with hlead | hslash
    · exact h ((literalLead_prefix_self pattern).subset hlead)
    · cases List.mem_singleton.mp hslash
  rw [Memory.trimmedDir, Path.slashedChars_eq_self hbase, trim_literalBase]

/-- The files that are found, whatever pattern stands for them. -/
def collected (host : Host) (request : Request) : List String :=
  (collect host request).map Prod.snd

theorem mem_collected {host : Host} {request : Request} {file : String} :
    file ∈ collected host request ↔
      isSource request.allowJs request.excludedGlobs file = true ∧
      (∃ pattern ∈ request.patterns, (Glob.ofText pattern).accepts file = true) ∧
      ∃ root ∈ walkRoots request.patterns,
        file ∈ host.list root (isPruned request.excludedGlobs) := by
  have hany (other : String) :
      ((request.patterns.map Glob.ofText).findIdx? (·.accepts other)).isSome = true ↔
        ∃ pattern ∈ request.patterns, (Glob.ofText pattern).accepts other = true := by
    rw [List.findIdx?_isSome, List.any_map, List.any_eq_true]
    rfl
  simp only [collected, collect, List.mem_map, Prod.exists, exists_eq_right, mem_distinct,
    List.mem_filterMap, List.mem_flatMap]
  constructor
  · rintro ⟨index, other, hlisted, hfound⟩
    obtain ⟨hsource, hfound⟩ := Option.ite_none_right_eq_some.mp hfound
    obtain ⟨first, hfirst, heq⟩ := Option.map_eq_some_iff.mp hfound
    obtain ⟨rfl, rfl⟩ := Prod.mk.inj heq
    exact ⟨hsource, (hany other).mp (Option.isSome_of_mem hfirst), hlisted⟩
  · rintro ⟨hsource, haccepts, hlisted⟩
    obtain ⟨index, hindex⟩ := Option.isSome_iff_exists.mp ((hany file).mpr haccepts)
    refine ⟨index, file, hlisted, ?_⟩
    rw [if_pos hsource, hindex, Option.map_some]

theorem mem_collected_singleton {host : Host} (request : Request) {pattern file : String} :
    file ∈ collected host { request with included := [pattern] } ↔
      isSource request.allowJs request.excludedGlobs file = true ∧
      (Glob.ofText (expandIncluded pattern)).accepts file = true ∧
      file ∈ host.list (literalBase (expandIncluded pattern)) (isPruned request.excludedGlobs) := by
  rw [mem_collected, Request.patterns, List.map_singleton, walkRoots_singleton]
  simp only [List.mem_singleton, exists_eq_left]
  rfl

section Union
variable {memory : Memory} {request : Request} {file : String}

theorem backslash_notMem_patterns {pattern : String} (h : pattern ∈ request.patterns) :
    '\\' ∉ pattern.toList := by
  obtain ⟨included, -, rfl⟩ := List.mem_map.mp h
  exact backslash_notMem_expandIncluded included

theorem trimmedDir_walkRoot {root : String} (h : root ∈ walkRoots request.patterns) :
    Memory.trimmedDir root = dropEndWhile (· = '/') root.toList := by
  obtain ⟨pattern, hpattern, rfl⟩ := exists_literalBase h
  rw [trimmedDir_literalBase (backslash_notMem_patterns hpattern), trim_literalBase]

/-- A search that comes by a file which begins with what a pattern spells out starts no further down
than the pattern does. -/
theorem trimmedDir_prefix_of_lead {root pattern : String}
    (hroot : root ∈ walkRoots request.patterns) (hpattern : pattern ∈ request.patterns)
    (hlead : literalLead pattern ++ ['/'] <+: file.toList)
    (hbelow : Memory.isBelow root file = true) :
    Memory.trimmedDir root ++ ['/'] <+: Memory.trimmedDir (literalBase pattern) ++ ['/'] := by
  have htop := Memory.isBelow_iff.mp hbelow
  rw [trimmedDir_walkRoot hroot] at htop ⊢
  rw [trimmedDir_literalBase (backslash_notMem_patterns hpattern)]
  rcases List.prefix_or_prefix_of_prefix htop hlead with hshort | hlong
  · exact concat_prefix_dropEndWhile trim_getLast? hshort
  rcases List.prefix_concat_iff.mp hlong with heq | hlong
  · exact concat_prefix_dropEndWhile trim_getLast? (heq ▸ List.prefix_refl _)
  -- The root would lie within the directory of the pattern, and would not have been added.
  have hdir := hlong.trans (dropEndWhile_prefix_self _ root.toList)
  have hbase := (literalBase_prefix_lead pattern).trans hdir
  have hwithin : isWithin (literalBase pattern) root = true := by
    rw [isWithin_iff, trim_literalBase]
    exact .inr ((dropEndWhile_concat_prefix_concat '/' _).trans hdir)
  have heq := eq_of_isWithin_walkRoot hroot hpattern hbase hwithin
  have hlength := hlong.length_le
  rw [← heq, trim_literalBase] at hlength
  have hcut := (dropEndWhile_prefix_self (· = '/') (literalLead pattern)).length_le
  rw [List.length_append, List.length_singleton] at hlength
  omega

theorem isBelow_literalBase {pattern : String} (hpattern : pattern ∈ request.patterns)
    (hlead : literalLead pattern ++ ['/'] <+: file.toList) :
    Memory.isBelow (literalBase pattern) file = true := by
  rw [Memory.isBelow_iff, trimmedDir_literalBase (backslash_notMem_patterns hpattern)]
  exact (dropEndWhile_concat_prefix_concat '/' _).trans hlead

/-- The searches that are left come by a file of a pattern just if a search from the directory of the
pattern does and one of them enters that directory. -/
theorem mem_list_walkRoots {pattern : String} {pruned : String → Bool}
    (hpattern : pattern ∈ request.patterns)
    (hlead : literalLead pattern ++ ['/'] <+: file.toList) :
    (∃ root ∈ walkRoots request.patterns, file ∈ memory.list root pruned) ↔
      file ∈ memory.list (literalBase pattern) pruned ∧
      ∃ root ∈ walkRoots request.patterns,
        Memory.enters pruned root (literalBase pattern) = true := by
  have hbelow := isBelow_literalBase hpattern hlead
  constructor
  · rintro ⟨root, hroot, hlist⟩
    have habove := trimmedDir_prefix_of_lead hroot hpattern hlead (Memory.isBelow_of_mem_list hlist)
    obtain ⟨hbase, henters⟩ := (Memory.mem_list_of_isBelow habove hbelow).mp hlist
    exact ⟨hbase, root, hroot, henters⟩
  · rintro ⟨hbase, root, hroot, henters⟩
    have habove := Memory.prefix_of_enters henters
    exact ⟨root, hroot, (Memory.mem_list_of_isBelow habove hbelow).mpr ⟨hbase, henters⟩⟩

theorem lead_of_accepts {pattern : String} (h : Path.isAbsolute pattern = true)
    (haccepts : (Glob.ofText (expandIncluded pattern)).accepts file = true) :
    literalLead (expandIncluded pattern) ++ ['/'] <+: file.toList := by
  obtain ⟨rest, hrest⟩ := expandIncluded_absolute h
  rw [Glob.ofText, Glob.accepts, hrest] at haccepts
  exact Glob.prefix_of_accepts (hasWildcard_literalLead _) haccepts

/-- A file is found for several patterns just if it is found for one of them alone, and a search that
is left enters the directory which that pattern starts from. -/
theorem mem_collected_iff (h : ∀ pattern ∈ request.included, Path.isAbsolute pattern = true) :
    file ∈ collected memory.host request ↔
      ∃ pattern ∈ request.included,
        file ∈ collected memory.host { request with included := [pattern] } ∧
        ∃ root ∈ walkRoots request.patterns,
          Memory.enters (isPruned request.excludedGlobs) root
            (literalBase (expandIncluded pattern)) = true := by
  rw [mem_collected]
  simp only [mem_collected_singleton]
  constructor
  · rintro ⟨hsource, ⟨_, hpattern, haccepts⟩, hlisted⟩
    obtain ⟨pattern, hincluded, rfl⟩ := List.mem_map.mp hpattern
    have hlead := lead_of_accepts (h pattern hincluded) haccepts
    obtain ⟨hbase, hroot⟩ := (mem_list_walkRoots hpattern hlead).mp hlisted
    exact ⟨pattern, hincluded, ⟨hsource, haccepts, hbase⟩, hroot⟩
  · rintro ⟨pattern, hincluded, ⟨hsource, haccepts, hbase⟩, hroot⟩
    have hpattern : expandIncluded pattern ∈ request.patterns := List.mem_map_of_mem hincluded
    have hlead := lead_of_accepts (h pattern hincluded) haccepts
    exact ⟨hsource, ⟨_, hpattern, haccepts⟩, (mem_list_walkRoots hpattern hlead).mpr ⟨hbase, hroot⟩⟩

theorem mem_collected_nested :
    "/p/src/a.ts" ∈ collected (Memory.ofFiles [("/p/src/a.ts", "")]).host
      ⟨["/p/*.ts", "/p/src/**/*.ts"], [], false⟩ := by
  have hroots : walkRoots (Request.patterns ⟨["/p/*.ts", "/p/src/**/*.ts"], [], false⟩) = ["/p"] := by
    rw [walkRoots, List.mergeSort_of_pairwise (by decide +kernel)]
    decide +kernel
  refine (mem_collected_iff (by decide +kernel)).mpr
    ⟨"/p/src/**/*.ts", by decide +kernel, ?_, "/p", ?_, ?_⟩
  · exact (mem_collected_singleton _).mpr ⟨by decide +kernel, by decide +kernel, by decide +kernel⟩
  · rw [hroots]
    decide +kernel
  · decide +kernel

/-- The search below `/p` does not enter a hidden directory, although a pattern names it. -/
theorem not_mem_collected_hidden :
    ¬("/p/.next/types/a.ts" ∈ collected (Memory.ofFiles [("/p/.next/types/a.ts", "")]).host
        ⟨["/p/**/*", "/p/.next/types/**/*.ts"], [], false⟩ ↔
      ∃ pattern ∈ ["/p/**/*", "/p/.next/types/**/*.ts"],
        "/p/.next/types/a.ts" ∈ collected (Memory.ofFiles [("/p/.next/types/a.ts", "")]).host
          ⟨[pattern], [], false⟩) := by
  have hroots : walkRoots (Request.patterns
      ⟨["/p/**/*", "/p/.next/types/**/*.ts"], [], false⟩) = ["/p"] := by
    rw [walkRoots, List.mergeSort_of_pairwise (by decide +kernel)]
    decide +kernel
  intro hunion
  have halone := hunion.mpr ⟨"/p/.next/types/**/*.ts", by decide +kernel,
    (mem_collected_singleton ⟨[], [], false⟩).mpr
      ⟨by decide +kernel, by decide +kernel, by decide +kernel⟩⟩
  obtain ⟨-, -, root, hroot, hlist⟩ := mem_collected.mp halone
  rw [hroots, List.mem_singleton] at hroot
  subst hroot
  revert hlist
  decide +kernel

end Union
end Tsconfig.Discovery
