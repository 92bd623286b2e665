import Tsconfig.Proofs.Discovery.Union
import Tsconfig.Proofs.Path.Opening

/-!
The directories that are searched for some patterns are distinct, none lies below another, and what
a pattern stands for lies below one of them. The exception is the root of two slashes, from which a
pattern with three slashes in front starts: the search takes all that begins with a slash to lie
below it, although only what begins with two slashes does.
-/
namespace Tsconfig.Discovery
open Text Tsconfig.Path

/-- An absolute include pattern in normal form, as it is matched. -/
def IsExpanded (pattern : String) : Prop :=
  IsNormal pattern ∧ ∃ included, expandIncluded included = pattern

section Bases
variable {pattern path : String}

theorem isExpanded_iff :
    IsExpanded pattern ↔ IsNormal pattern ∧ expandIncluded pattern = pattern := by
  refine and_congr_right fun _ => ⟨?_, fun h => ⟨pattern, h⟩⟩
  rintro ⟨included, rfl⟩
  exact expandIncluded_expandIncluded included

instance (pattern : String) : Decidable (IsExpanded pattern) :=
  decidable_of_iff _ isExpanded_iff.symm

theorem literalBase_ne_empty (pattern : String) : literalBase pattern ≠ "" := by
  intro hempty
  have hbase := toList_literalBase pattern
  rw [hempty] at hbase
  split at hbase
  · cases hbase
  · rename_i hne
    exact hne hbase.symm

theorem opening_literalBase_prefix_lead (pattern : String) :
    opening (literalBase pattern) <+: literalLead pattern ++ ['/'] := by
  by_cases hlast : (literalBase pattern).toList.getLast? = some '/'
  · rw [opening_of_getLast? hlast]
    exact literalBase_prefix_lead pattern
  · have hbase := toList_literalBase pattern
    rw [opening_of_getLast?_ne (literalBase_ne_empty pattern) hlast]
    split at hbase
    · rw [hbase] at hlast
      exact absurd rfl hlast
    · exact hbase ▸ List.prefix_refl _

/-- A pattern stands for what lies below the directory in front of its first wildcard. -/
theorem IsExpanded.liesBelow (h : IsExpanded pattern)
    (haccepts : (Glob.ofText pattern).accepts path = true) :
    LiesBelow (literalBase pattern) path := by
  have hself := (isExpanded_iff.mp h).2
  have hlead := lead_of_accepts (isAbsolute_of_normal h.1) (hself.symm ▸ haccepts)
  rw [hself] at hlead
  exact (opening_literalBase_prefix_lead _).trans hlead

/-- Of the directories that such patterns start from, only one ends in more than one slash. -/
theorem IsExpanded.literalBase_eq_or (h : IsExpanded pattern) :
    literalBase pattern = "//" ∨
      opening (literalBase pattern) =
        dropEndWhile (· = '/') (literalBase pattern).toList ++ ['/'] := by
  have hbase := toList_literalBase pattern
  obtain ⟨rest, hrest⟩ := expandIncluded_absolute (isAbsolute_of_normal h.1)
  rw [(isExpanded_iff.mp h).2] at hrest
  by_cases hlast : (literalLead pattern).getLast? = some '/'
  · obtain ⟨lead, hlead⟩ := List.getLast?_eq_some_iff.mp hlast
    rw [hlead, List.append_assoc, List.singleton_append] at hrest
    rw [hlead, if_neg (by simp)] at hbase
    rcases eq_of_slashes h.1 hrest with rfl | rfl
    · right
      rw [opening_of_getLast? (by rw [hbase]; rfl), hbase]
      rfl
    · exact .inl (String.toList_inj.mp hbase)
  · right
    split at hbase
    · rw [opening_of_getLast? (by rw [hbase]; rfl), hbase]
      rfl
    · rw [← hbase] at hlast
      have htrimmed : dropEndWhile (· = '/') (literalBase pattern).toList =
          (literalBase pattern).toList := by
        refine dropEndWhile_eq_self fun c hc => decide_eq_false ?_
        rintro rfl
        exact hlast hc
      rw [opening_of_getLast?_ne (literalBase_ne_empty pattern) hlast, htrimmed]

end Bases

section Apart
variable {patterns : List String} {root other : String}

theorem dropEndWhile_prefix_opening {dir : String} (hne : dir ≠ "") :
    dropEndWhile (· = '/') dir.toList ++ ['/'] <+: opening dir := by
  have htrim := dropEndWhile_concat_prefix_concat '/' dir.toList
  by_cases hlast : dir.toList.getLast? = some '/'
  · obtain ⟨lead, hlead⟩ := List.getLast?_eq_some_iff.mp hlast
    have hslash : ∀ c ∈ ['/'], decide (c = '/') = true := by simp
    rw [opening_of_getLast? hlast, hlead, dropEndWhile_append_of_forall hslash]
    exact dropEndWhile_concat_prefix_concat '/' lead
  · rwa [opening_of_getLast?_ne hne hlast]

theorem walkRoot_ne_empty (h : root ∈ walkRoots patterns) : root ≠ "" := by
  obtain ⟨pattern, -, rfl⟩ := exists_literalBase h
  exact literalBase_ne_empty pattern

theorem eq_of_liesBelow (hroot : root ∈ walkRoots patterns) (hother : other ∈ walkRoots patterns)
    (h : LiesBelow root other) : root = other := by
  have hwithin : isWithin root other = true :=
    isWithin_iff.mpr (.inr ((dropEndWhile_prefix_opening (walkRoot_ne_empty hroot)).trans h))
  obtain ⟨pattern, hpattern, rfl⟩ := exists_literalBase hroot
  exact eq_of_isWithin_walkRoot hother hpattern ((toList_prefix_opening _).trans h) hwithin

/-- One root would lie below the other, also where both differ in a slash at the end. -/
theorem eq_of_prefix_opening (hroot : root ∈ walkRoots patterns)
    (hother : other ∈ walkRoots patterns) (h : opening root <+: opening other) : root = other := by
  by_cases hlast : other.toList.getLast? = some '/'
  · rw [opening_of_getLast? hlast] at h
    exact eq_of_liesBelow hroot hother h
  have hopening := opening_of_getLast?_ne (walkRoot_ne_empty hother) hlast
  rw [hopening] at h
  rcases List.prefix_concat_iff.mp h with heq | hshort
  · by_cases hrootLast : root.toList.getLast? = some '/'
    · rw [opening_of_getLast? hrootLast, ← hopening] at heq
      have hbelow : opening other <+: root.toList := heq ▸ List.prefix_refl (opening other)
      exact (eq_of_liesBelow hother hroot hbelow).symm
    · rw [opening_of_getLast?_ne (walkRoot_ne_empty hroot) hrootLast] at heq
      exact String.toList_inj.mp (List.append_cancel_right heq)
  · exact eq_of_liesBelow hroot hother hshort

theorem eq_of_liesBelow_both {path : String} (hroot : root ∈ walkRoots patterns)
    (hother : other ∈ walkRoots patterns) (h : LiesBelow root path) (h' : LiesBelow other path) :
    root = other := by
  rcases List.prefix_or_prefix_of_prefix h h' with hshort | hlong
  · exact eq_of_prefix_opening hroot hother hshort
  · exact (eq_of_prefix_opening hother hroot hlong).symm

end Apart

section Cover
variable {patterns : List String}

/-- What lies below the directory of a pattern lies below a root, unless it begins with one slash
and the root that takes it in with two. -/
theorem exists_liesBelow_walkRoot (h : ∀ pattern ∈ patterns, IsExpanded pattern)
    {pattern path : String} (hpattern : pattern ∈ patterns)
    (hpath : LiesBelow (literalBase pattern) path)
    (hslashes : "//" ∈ walkRoots patterns → LiesBelow "/" path → LiesBelow "//" path) :
    ∃ root ∈ walkRoots patterns, LiesBelow root path := by
  obtain ⟨root, hroot, hwithin⟩ := exists_walkRoot hpattern
  refine ⟨root, hroot, ?_⟩
  rcases isWithin_iff.mp hwithin with heq | hbase
  · rwa [← heq]
  have htop := hbase.trans ((toList_prefix_opening _).trans hpath)
  obtain ⟨first, hfirst, rfl⟩ := exists_literalBase hroot
  rcases (h first hfirst).literalBase_eq_or with heq | hopening
  · rw [heq] at hroot htop ⊢
    exact hslashes hroot htop
  · rwa [LiesBelow, hopening]

/-- What a pattern stands for lies below the directory in front of its first wildcard. The roots are
distinct, none lies below another, and what some pattern stands for lies below exactly one of them.
Only where two slashes are a root, a path that begins with one slash may lie below none. -/
theorem walkRoots_cover (h : ∀ pattern ∈ patterns, IsExpanded pattern) :
    (∀ pattern ∈ patterns, ∀ path, (Glob.ofText pattern).accepts path = true →
        LiesBelow (literalBase pattern) path) ∧
      (walkRoots patterns).Nodup ∧
      (∀ root ∈ walkRoots patterns, ∀ other ∈ walkRoots patterns,
        LiesBelow root other → root = other) ∧
      ∀ path, (∃ pattern ∈ patterns, (Glob.ofText pattern).accepts path = true) →
        ("//" ∈ walkRoots patterns → LiesBelow "/" path → LiesBelow "//" path) →
        ∃! root, root ∈ walkRoots patterns ∧ LiesBelow root path := by
  have hbelow (pattern : String) (hpattern : pattern ∈ patterns) (path : String)
      (haccepts : (Glob.ofText pattern).accepts path = true) :
      LiesBelow (literalBase pattern) path := (h pattern hpattern).liesBelow haccepts
  refine ⟨hbelow, nodup_walkRoots patterns, fun _ hroot _ hother => eq_of_liesBelow hroot hother,
    fun path haccepted hslashes => ?_⟩
  obtain ⟨pattern, hpattern, haccepts⟩ := haccepted
  have hpath := hbelow pattern hpattern path haccepts
  obtain ⟨root, hroot, hlies⟩ := exists_liesBelow_walkRoot h hpattern hpath hslashes
  exact ⟨root, ⟨hroot, hlies⟩,
    fun other ⟨hother, hlies'⟩ => eq_of_liesBelow_both hother hroot hlies' hlies⟩

/-- A name that begins like another one is no directory below it. -/
theorem walkRoots_cover_siblings :
    walkRoots ["/a/*.ts", "/a-b/*.ts", "/a/c/**/*"] = ["/a", "/a-b"] ∧
      (Glob.ofText "/a/c/**/*").accepts "/a/c/x.ts" = true ∧
      ∃! root, root ∈ walkRoots ["/a/*.ts", "/a-b/*.ts", "/a/c/**/*"] ∧
        LiesBelow root "/a/c/x.ts" := by
  have hexpanded : ∀ pattern ∈ ["/a/*.ts", "/a-b/*.ts", "/a/c/**/*"], IsExpanded pattern := by
    decide +kernel
  have hroots : walkRoots ["/a/*.ts", "/a-b/*.ts", "/a/c/**/*"] = ["/a", "/a-b"] := by
    rw [walkRoots, List.mergeSort_of_pairwise (by decide +kernel)]
    decide +kernel
  have haccepts : (Glob.ofText "/a/c/**/*").accepts "/a/c/x.ts" = true := by decide +kernel
  refine ⟨hroots, haccepts, ?_⟩
  refine (walkRoots_cover hexpanded).2.2.2 "/a/c/x.ts" ⟨_, by simp, haccepts⟩ ?_
  rw [hroots]
  decide +kernel

/-- Nothing that is searched has `/w/a.ts` below it as it is spelled. With the slashes at the end of
a root taken off, one of the two roots lies below the other. -/
theorem not_liesBelow_walkRoots_slashes :
    (∀ pattern ∈ ["/-w/*.ts", "///*.ts", "/w/*.ts"], IsExpanded pattern) ∧
      (Glob.ofText "/w/*.ts").accepts "/w/a.ts" = true ∧
      (¬∃! root, root ∈ walkRoots ["/-w/*.ts", "///*.ts", "/w/*.ts"] ∧ LiesBelow root "/w/a.ts") ∧
      "/-w" ∈ walkRoots ["/-w/*.ts", "///*.ts", "/w/*.ts"] ∧
      "//" ∈ walkRoots ["/-w/*.ts", "///*.ts", "/w/*.ts"] ∧
      Memory.isBelow "//" "/-w" = true := by
  have hroots : walkRoots ["/-w/*.ts", "///*.ts", "/w/*.ts"] = ["/-w", "//"] := by
    rw [walkRoots, List.mergeSort_of_pairwise (by decide +kernel)]
    decide +kernel
  rw [hroots]
  refine ⟨by decide +kernel, by decide +kernel, ?_, by decide, by decide, by decide +kernel⟩
  rintro ⟨root, ⟨hroot, hlies⟩, -⟩
  have hnone : ∀ root ∈ ["/-w", "//"], ¬LiesBelow root "/w/a.ts" := by decide +kernel
  exact hnone root hroot hlies

end Cover
end Tsconfig.Discovery
