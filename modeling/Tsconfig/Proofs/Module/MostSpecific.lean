import Tsconfig.Proofs.CompilerOptions.Admitted
import Tsconfig.Proofs.Module.Spliced
import Tsconfig.Proofs.StableSort

/-!
Of the patterns in `paths` that match a specifier, the most specific one is used and no other: a
pattern without a star, else the one with the most bytes in front of its star. Among those alike the
first declared counts. When its targets lead nowhere, the search goes on as if there was no `paths`.
-/
namespace Tsconfig
open Text Json

namespace PathKey

/-- A key of `paths` as it is compared: less the white space around it, with slashes only. -/
def pattern (key : String) : String := String.ofList (Path.slashedChars (trim key.toList))

section Parsed
variable {key specifier captured lead tail : String}

theorem toList_pattern (key : String) :
    (pattern key).toList = Path.slashedChars (trim key.toList) :=
  String.toList_ofList

theorem parse?_eq_exact_iff :
    parse? key = some (exact specifier) ↔ '*' ∉ (pattern key).toList ∧ pattern key = specifier := by
  rw [parse?, toList_pattern]
  split
  · rename_i hcut
    rw [cutAt?_singleton_eq_none_iff] at hcut
    simp [hcut, pattern]
  · rename_i hcut
    obtain ⟨hsplit, -⟩ := cutAt?_singleton_eq_some_iff.mp hcut
    simp [hsplit]

theorem parse?_eq_wildcard_iff :
    parse? key = some (wildcard lead tail) ↔
      pattern key = lead ++ "*" ++ tail ∧ '*' ∉ lead.toList ∧ '*' ∉ tail.toList := by
  have hpattern : pattern key = lead ++ "*" ++ tail ↔
      Path.slashedChars (trim key.toList) = lead.toList ++ '*' :: tail.toList := by
    rw [← String.toList_inj, toList_pattern, String.toList_append, String.toList_append,
      List.append_assoc]
    rfl
  rw [parse?, hpattern]
  split
  · rename_i hcut
    rw [cutAt?_singleton_eq_none_iff] at hcut
    simp only [Option.some.injEq, reduceCtorEq, false_iff, not_and]
    intro hsplit
    exact absurd (by simp [hsplit]) hcut
  · rename_i before after hcut
    have hsplit : ∀ lead tail : List Char,
        Path.slashedChars (trim key.toList) = lead ++ '*' :: tail ∧ '*' ∉ lead ↔
          before = lead ∧ after = tail := by
      intro lead tail
      rw [← cutAt?_singleton_eq_some_iff, hcut, Option.some.injEq, Prod.mk.injEq]
    rw [← and_assoc, hsplit]
    simp only [Option.ite_none_left_eq_some, Option.some.injEq, wildcard.injEq]
    constructor
    · rintro ⟨hafter, rfl, rfl⟩
      simp [hafter]
    · rintro ⟨⟨rfl, rfl⟩, htail⟩
      simp [htail]

theorem capture?_exact_iff :
    (exact key).capture? specifier = some captured ↔ key = specifier ∧ captured = "" := by
  rw [capture?]
  split <;> simp [*, eq_comm]

theorem capture?_wildcard_iff :
    (wildcard lead tail).capture? specifier = some captured ↔
      specifier = lead ++ captured ++ tail := by
  rw [capture?, Option.map_eq_some_iff]
  simp only [Option.bind_eq_some_iff, stripStart?_eq_some_iff, stripEnd?_eq_some_iff]
  rw [← String.toList_inj, String.toList_append, String.toList_append, List.append_assoc]
  constructor
  · rintro ⟨_, ⟨_, hlead, rfl⟩, rfl⟩
    rw [hlead, String.toList_ofList]
  · intro h
    exact ⟨captured.toList, ⟨_, h, rfl⟩, String.ofList_toList⟩

end Parsed

theorem le_trans (a b c : PathKey) (hab : a.le b = true) (hbc : b.le c = true) :
    a.le c = true := by
  cases a with
  | exact => rfl
  | wildcard =>
    cases b with
    | exact => cases hab
    | wildcard =>
      cases c with
      | exact => cases hbc
      | wildcard =>
        simp only [le, decide_eq_true_eq] at hab hbc ⊢
        exact hbc.trans hab

theorem le_total (a b : PathKey) : (a.le b || b.le a) = true := by
  cases a with
  | exact => rfl
  | wildcard =>
    cases b with
    | exact => rfl
    | wildcard =>
      simp only [le, Bool.or_eq_true, decide_eq_true_eq]
      exact Nat.le_total _ _

end PathKey

namespace PathMapping

/-- An entry of `paths` with targets, whose key is the specifier itself. -/
structure IsExact (specifier : String) (entry : String × Value) : Prop where
  targets : entry.2 ≠ .arr []
  starless : '*' ∉ (PathKey.pattern entry.1).toList
  pattern_eq : PathKey.pattern entry.1 = specifier

/-- An entry of `paths` with targets, whose key has one star and matches the specifier with
`captured` for it. -/
structure IsStarred (specifier : String) (entry : String × Value) (lead captured tail : String) :
    Prop where
  targets : entry.2 ≠ .arr []
  pattern_eq : PathKey.pattern entry.1 = lead ++ "*" ++ tail
  lead_starless : '*' ∉ lead.toList
  tail_starless : '*' ∉ tail.toList
  specifier_eq : specifier = lead ++ captured ++ tail

/-- The entry for a specifier and what its star stands for: the first one that is exact; where there
is none, the first of those with the most bytes in front of their star. -/
inductive MostSpecific (entries : Object) (specifier : String) : String × Value → String → Prop
  | exact {before after : Object} {entry : String × Value}
      (hsplit : entries = before ++ entry :: after) (hentry : IsExact specifier entry)
      (hbefore : ∀ other ∈ before, ¬ IsExact specifier other) :
      MostSpecific entries specifier entry ""
  | starred {before after : Object} {entry : String × Value} {lead captured tail : String}
      (hexact : ∀ other ∈ entries, ¬ IsExact specifier other)
      (hsplit : entries = before ++ entry :: after)
      (hentry : IsStarred specifier entry lead captured tail)
      (hbefore : ∀ other ∈ before, ∀ lead' captured' tail',
        IsStarred specifier other lead' captured' tail' →
          lead'.utf8ByteSize < lead.utf8ByteSize)
      (hafter : ∀ other ∈ after, ∀ lead' captured' tail',
        IsStarred specifier other lead' captured' tail' →
          lead'.utf8ByteSize ≤ lead.utf8ByteSize) :
      MostSpecific entries specifier entry captured

section Entries
variable {base specifier captured : String} {entry : String × Value} {mapping : PathMapping}

/-- The targets of an entry as they are written. -/
def writtenTargets (entry : String × Value) : List String :=
  (entry.2.arr?.getD []).filterMap Value.str?

theorem ofEntry?_eq_some_iff (htexts : entry.2.isTexts = true) :
    ofEntry? base entry = some mapping ↔ entry.2 ≠ .arr [] ∧
      PathKey.parse? entry.1 = some mapping.key ∧
      mapping.targets = (writtenTargets entry).map (Path.resolve base) := by
  obtain ⟨key, value⟩ := entry
  obtain ⟨parsed, targets⟩ := mapping
  cases value with
  | arr items =>
    have hnil : (items.filterMap Value.str?).map (Path.resolve base) = [] ↔ items = [] := by
      rw [List.map_eq_nil_iff, List.filterMap_eq_nil_iff]
      refine ⟨fun h => List.eq_nil_iff_forall_not_mem.mpr fun item hitem => ?_, by rintro rfl; simp⟩
      rw [Value.isTexts_arr] at htexts
      have hsome := List.all_eq_true.mp htexts item hitem
      rw [h item hitem] at hsome
      cases hsome
    simp only [Value.arr?, ofEntry?, writtenTargets, Option.bind_eq_bind, Option.bind_some,
      Option.ite_none_left_eq_some, hnil, Option.bind_eq_some_iff, Option.pure_def,
      Option.some.injEq, mk.injEq, Option.getD_some, ne_eq, Value.arr.injEq]
    constructor
    · rintro ⟨hitems, _, hkey, rfl, rfl⟩
      exact ⟨hitems, hkey, rfl⟩
    · rintro ⟨hitems, hkey, rfl⟩
      exact ⟨hitems, _, hkey, rfl, rfl⟩
  | _ => cases htexts

theorem exists_mapping_of_key (htexts : entry.2.isTexts = true) {key : PathKey}
    (htargets : entry.2 ≠ .arr []) (hkey : PathKey.parse? entry.1 = some key) :
    ∃ mapping, ofEntry? base entry = some mapping ∧ mapping.key = key :=
  ⟨⟨key, _⟩, (ofEntry?_eq_some_iff htexts).mpr ⟨htargets, hkey, rfl⟩, rfl⟩

/-- An entry is exact for a specifier if its mapping has the specifier for its key. -/
theorem isExact_iff (htexts : entry.2.isTexts = true) :
    IsExact specifier entry ↔
      ∃ mapping, ofEntry? base entry = some mapping ∧ mapping.key = .exact specifier := by
  constructor
  · rintro ⟨htargets, hstar, hpattern⟩
    exact exists_mapping_of_key htexts htargets (PathKey.parse?_eq_exact_iff.mpr ⟨hstar, hpattern⟩)
  · rintro ⟨mapping, hmapping, hkey⟩
    obtain ⟨htargets, hparse, -⟩ := (ofEntry?_eq_some_iff htexts).mp hmapping
    rw [hkey, PathKey.parse?_eq_exact_iff] at hparse
    exact ⟨htargets, hparse.1, hparse.2⟩

theorem isStarred_iff (htexts : entry.2.isTexts = true) {lead tail : String} :
    IsStarred specifier entry lead captured tail ↔
      (∃ mapping, ofEntry? base entry = some mapping ∧ mapping.key = .wildcard lead tail) ∧
        specifier = lead ++ captured ++ tail := by
  constructor
  · rintro ⟨htargets, hpattern, hlead, htail, hspecifier⟩
    exact ⟨exists_mapping_of_key htexts htargets
      (PathKey.parse?_eq_wildcard_iff.mpr ⟨hpattern, hlead, htail⟩), hspecifier⟩
  · rintro ⟨⟨mapping, hmapping, hkey⟩, hspecifier⟩
    obtain ⟨htargets, hparse, -⟩ := (ofEntry?_eq_some_iff htexts).mp hmapping
    rw [hkey, PathKey.parse?_eq_wildcard_iff] at hparse
    exact ⟨htargets, hparse.1, hparse.2.1, hparse.2.2, hspecifier⟩

end Entries

section Choice
variable {base specifier captured : String} {entries : Object} {mapping : PathMapping}

theorem findSome?_capture?_iff {mappings : List PathMapping} :
    mappings.findSome? (fun mapping =>
        (mapping.capture? specifier).map fun captured => (mapping, captured)) =
      some (mapping, captured) ↔
        mappings.find? (fun mapping => (mapping.capture? specifier).isSome) = some mapping ∧
          mapping.capture? specifier = some captured := by
  induction mappings with
  | nil => simp
  | cons first rest ih =>
    rw [List.findSome?_cons, List.find?_cons]
    cases hfirst : first.capture? specifier with
    | none => exact ih
    | some found =>
      simp only [Option.map_some, Option.isSome_some, Option.some.injEq, Prod.mk.injEq]
      constructor
      · rintro ⟨rfl, rfl⟩
        exact ⟨rfl, hfirst⟩
      · rintro ⟨rfl, hcaptured⟩
        exact ⟨rfl, Option.some.inj (hfirst.symm.trans hcaptured)⟩

/-- The first best of the mappings, told by the entries that they come from. -/
theorem isFirstBest_filterMap_iff {le : PathMapping → PathMapping → Bool}
    {p : PathMapping → Bool} :
    IsFirstBest le p (entries.filterMap (PathMapping.ofEntry? base)) mapping ↔
      ∃ before entry after, entries = before ++ entry :: after ∧
        ofEntry? base entry = some mapping ∧ p mapping = true ∧
        (∀ other ∈ before, ∀ found, ofEntry? base other = some found → p found = true →
          le found mapping = false) ∧
        ∀ other ∈ after, ∀ found, ofEntry? base other = some found → p found = true →
          le mapping found = true := by
  constructor
  · rintro ⟨before, after, hsplit, hp, hbefore, hafter⟩
    obtain ⟨start, rest, rfl, rfl, hrest⟩ := List.filterMap_eq_append_iff.mp hsplit
    obtain ⟨skipped, entry, stop, rfl, hskipped, hentry, rfl⟩ := List.filterMap_eq_cons_iff.mp hrest
    refine ⟨start ++ skipped, entry, stop, by simp, hentry, hp, ?_, ?_⟩
    · intro other hother found hfound
      rcases List.mem_append.mp hother with hstart | hskip
      · exact hbefore found (List.mem_filterMap.mpr ⟨other, hstart, hfound⟩)
      · cases (hskipped other hskip).symm.trans hfound
    · intro other hother found hfound
      exact hafter found (List.mem_filterMap.mpr ⟨other, hother, hfound⟩)
  · rintro ⟨before, entry, after, rfl, hentry, hp, hbefore, hafter⟩
    refine ⟨before.filterMap (PathMapping.ofEntry? base),
      after.filterMap (PathMapping.ofEntry? base), ?_, hp, ?_, ?_⟩
    · rw [List.filterMap_append, List.filterMap_cons_some hentry]
    · intro found hmem
      obtain ⟨other, hother, hfound⟩ := List.mem_filterMap.mp hmem
      exact hbefore other hother found hfound
    · intro found hmem
      obtain ⟨other, hother, hfound⟩ := List.mem_filterMap.mp hmem
      exact hafter other hother found hfound

/-- A mapping that captures something comes from an entry that matches. -/
theorem isExact_or_isStarred {entry : String × Value} (htexts : entry.2.isTexts = true)
    (hentry : ofEntry? base entry = some mapping)
    (hcapture : mapping.capture? specifier = some captured) :
    (mapping.key = .exact specifier ∧ IsExact specifier entry ∧ captured = "") ∨
      ∃ lead tail, mapping.key = .wildcard lead tail ∧
        IsStarred specifier entry lead captured tail := by
  rw [capture?] at hcapture
  cases hkey : mapping.key with
  | exact key =>
    rw [hkey, PathKey.capture?_exact_iff] at hcapture
    obtain ⟨rfl, rfl⟩ := hcapture
    exact .inl ⟨rfl, (isExact_iff htexts).mpr ⟨mapping, hentry, hkey⟩, rfl⟩
  | wildcard lead tail =>
    rw [hkey, PathKey.capture?_wildcard_iff] at hcapture
    exact .inr ⟨lead, tail, rfl, (isStarred_iff htexts).mpr ⟨⟨mapping, hentry, hkey⟩, hcapture⟩⟩

theorem capture?_of_key {lead tail : String} (hkey : mapping.key = .wildcard lead tail)
    (h : specifier = lead ++ captured ++ tail) : mapping.capture? specifier = some captured := by
  rw [capture?, hkey, PathKey.capture?_wildcard_iff]
  exact h

theorem capture?_of_exact (hkey : mapping.key = .exact specifier) :
    mapping.capture? specifier = some "" := by
  rw [capture?, hkey, PathKey.capture?_exact_iff]
  exact ⟨rfl, rfl⟩

/-- What holds of the key of an entry's mapping, if the mapping captures something. -/
theorem forall_captures_iff (base specifier : String) {entry : String × Value}
    (htexts : entry.2.isTexts = true) {P : PathKey → Prop} :
    (∀ found, ofEntry? base entry = some found → (found.capture? specifier).isSome = true →
        P found.key) ↔
      (IsExact specifier entry → P (.exact specifier)) ∧
        ∀ lead captured tail, IsStarred specifier entry lead captured tail →
          P (.wildcard lead tail) := by
  constructor
  · intro h
    refine ⟨fun hexact => ?_, fun lead captured tail hstarred => ?_⟩
    · obtain ⟨found, hfound, hkey⟩ := (isExact_iff htexts).mp hexact
      exact hkey ▸ h found hfound (by rw [capture?_of_exact hkey]; rfl)
    · obtain ⟨⟨found, hfound, hkey⟩, hspecifier⟩ := (isStarred_iff htexts).mp hstarred
      exact hkey ▸ h found hfound (by rw [capture?_of_key hkey hspecifier]; rfl)
  · rintro ⟨hexact, hstarred⟩ found hfound hcaptures
    obtain ⟨captured, hcapture⟩ := Option.isSome_iff_exists.mp hcaptures
    rcases isExact_or_isStarred htexts hfound hcapture with ⟨hkey, h, -⟩ | ⟨lead, tail, hkey, h⟩
    · exact hkey ▸ hexact h
    · exact hkey ▸ hstarred lead captured tail h

theorem IsStarred.not_isExact {entry : String × Value} {lead tail : String}
    (h : IsStarred specifier entry lead captured tail) : ¬ IsExact specifier entry := by
  intro hexact
  have hstarless := hexact.starless
  rw [h.pattern_eq] at hstarless
  simp at hstarless

/-- Of the entries that match, those before a key are worse than it, and those behind it not better. -/
structure Outranks (specifier : String) (key : PathKey) (before after : Object) : Prop where
  worse : ∀ other ∈ before, (IsExact specifier other → (PathKey.exact specifier).le key = false) ∧
    ∀ lead captured tail, IsStarred specifier other lead captured tail →
      (PathKey.wildcard lead tail).le key = false
  best : ∀ other ∈ after, (IsExact specifier other → key.le (.exact specifier) = true) ∧
    ∀ lead captured tail, IsStarred specifier other lead captured tail →
      key.le (.wildcard lead tail) = true

/-- A pattern without a star is only outranked by the same one declared earlier. -/
theorem outranks_exact_iff {before after : Object} :
    Outranks specifier (.exact specifier) before after ↔
      ∀ other ∈ before, ¬ IsExact specifier other := by
  constructor
  · intro h other hother hexact
    cases (h.worse other hother).1 hexact
  · intro h
    refine ⟨fun other hother => ⟨fun hexact => absurd hexact (h other hother), ?_⟩, ?_⟩
    · exact fun _ _ _ _ => rfl
    · exact fun _ _ => ⟨fun _ => rfl, fun _ _ _ _ => rfl⟩

/-- A starred pattern is outranked by every pattern without a star, and by a longer lead. -/
theorem outranks_wildcard_iff {before after : Object} {lead tail : String} :
    Outranks specifier (.wildcard lead tail) before after ↔
      (∀ other ∈ before ++ after, ¬ IsExact specifier other) ∧
      (∀ other ∈ before, ∀ lead' captured' tail', IsStarred specifier other lead' captured' tail' →
        lead'.utf8ByteSize < lead.utf8ByteSize) ∧
      ∀ other ∈ after, ∀ lead' captured' tail', IsStarred specifier other lead' captured' tail' →
        lead'.utf8ByteSize ≤ lead.utf8ByteSize := by
  constructor
  · rintro ⟨hworse, hbest⟩
    simp only [PathKey.le, decide_eq_false_iff_not, Nat.not_le, decide_eq_true_eq] at hworse hbest
    refine ⟨fun other hother hexact => ?_, fun other hother => (hworse other hother).2,
      fun other hother => (hbest other hother).2⟩
    rcases List.mem_append.mp hother with hother | hother
    · cases (hworse other hother).1 hexact
    · cases (hbest other hother).1 hexact
  · rintro ⟨hexact, hworse, hbest⟩
    rw [List.forall_mem_append] at hexact
    refine ⟨fun other hother => ⟨fun h => absurd h (hexact.1 other hother), ?_⟩,
      fun other hother => ⟨fun h => absurd h (hexact.2 other hother), ?_⟩⟩
    · simpa only [PathKey.le, decide_eq_false_iff_not, Nat.not_le] using hworse other hother
    · simpa only [PathKey.le, decide_eq_true_eq] using hbest other hother

/-- The first best of the mappings that capture something, told by what the entries match. -/
theorem isFirstBest_captures_iff (htexts : ∀ entry ∈ entries, entry.2.isTexts = true) :
    IsFirstBest (fun a b => a.key.le b.key) (fun mapping => (mapping.capture? specifier).isSome)
        (entries.filterMap (PathMapping.ofEntry? base)) mapping ↔
      ∃ before entry after, entries = before ++ entry :: after ∧
        ofEntry? base entry = some mapping ∧ (mapping.capture? specifier).isSome = true ∧
        Outranks specifier mapping.key before after := by
  rw [isFirstBest_filterMap_iff]
  constructor
  · rintro ⟨before, entry, after, rfl, hentry, hcaptures, hbefore, hafter⟩
    refine ⟨before, entry, after, rfl, hentry, hcaptures, fun other hother => ?_, fun other hother => ?_⟩
    · exact (forall_captures_iff base specifier (P := (·.le mapping.key = false))
        (htexts other (by simp [hother]))).mp (hbefore other hother)
    · exact (forall_captures_iff base specifier (P := (mapping.key.le · = true))
        (htexts other (by simp [hother]))).mp (hafter other hother)
  · rintro ⟨before, entry, after, rfl, hentry, hcaptures, hworse, hbest⟩
    refine ⟨before, entry, after, rfl, hentry, hcaptures, fun other hother => ?_, fun other hother => ?_⟩
    · exact (forall_captures_iff base specifier (P := (·.le mapping.key = false))
        (htexts other (by simp [hother]))).mpr (hworse other hother)
    · exact (forall_captures_iff base specifier (P := (mapping.key.le · = true))
        (htexts other (by simp [hother]))).mpr (hbest other hother)

/-- The first best of the mappings that capture something comes from the most specific entry. -/
theorem isFirstBest_iff_mostSpecific (htexts : ∀ entry ∈ entries, entry.2.isTexts = true) :
    IsFirstBest (fun a b => a.key.le b.key) (fun mapping => (mapping.capture? specifier).isSome)
        (entries.filterMap (PathMapping.ofEntry? base)) mapping ∧
      mapping.capture? specifier = some captured ↔
    ∃ entry, MostSpecific entries specifier entry captured ∧ ofEntry? base entry = some mapping := by
  rw [isFirstBest_captures_iff htexts]
  constructor
  · rintro ⟨⟨before, entry, after, rfl, hentry, -, hranks⟩, hcapture⟩
    refine ⟨entry, ?_, hentry⟩
    rcases isExact_or_isStarred (htexts entry (by simp)) hentry hcapture with
      ⟨hkey, hexact, rfl⟩ | ⟨lead, tail, hkey, hstarred⟩
    · rw [hkey, outranks_exact_iff] at hranks
      exact .exact rfl hexact hranks
    · rw [hkey, outranks_wildcard_iff, List.forall_mem_append] at hranks
      obtain ⟨⟨hbefore, hafter⟩, hworse, hbest⟩ := hranks
      refine .starred (List.forall_mem_append.mpr ⟨hbefore, ?_⟩) rfl hstarred hworse hbest
      exact List.forall_mem_cons.mpr ⟨hstarred.not_isExact, hafter⟩
  · rintro ⟨entry, hmost, hentry⟩
    cases hmost with
    | @exact before after _ hsplit hexact hbefore =>
      subst hsplit
      obtain ⟨found, hfound, hkey⟩ := (isExact_iff (htexts entry (by simp))).mp hexact
      obtain rfl := Option.some.inj (hentry.symm.trans hfound)
      have hcapture := capture?_of_exact hkey
      refine ⟨⟨before, entry, after, rfl, hentry, by rw [hcapture]; rfl, ?_⟩, hcapture⟩
      rw [hkey, outranks_exact_iff]
      exact hbefore
    | @starred before after _ lead _ tail hexact hsplit hstarred hbefore hafter =>
      subst hsplit
      obtain ⟨⟨found, hfound, hkey⟩, hspecifier⟩ :=
        (isStarred_iff (htexts entry (by simp))).mp hstarred
      obtain rfl := Option.some.inj (hentry.symm.trans hfound)
      have hcapture := capture?_of_key hkey hspecifier
      refine ⟨⟨before, entry, after, rfl, hentry, by rw [hcapture]; rfl, ?_⟩, hcapture⟩
      rw [hkey, outranks_wildcard_iff]
      refine ⟨fun other hother => hexact other ?_, hbefore, hafter⟩
      rw [List.mem_append, List.mem_cons]
      exact (List.mem_append.mp hother).imp_right .inr

theorem MostSpecific.mem {entry : String × Value}
    (h : MostSpecific entries specifier entry captured) : entry ∈ entries := by
  cases h with
  | exact hsplit => simp [hsplit]
  | starred _ hsplit => simp [hsplit]

theorem MostSpecific.exists_mapping {entry : String × Value}
    (h : MostSpecific entries specifier entry captured) (base : String)
    (htexts : ∀ entry ∈ entries, entry.2.isTexts = true) :
    ∃ mapping, ofEntry? base entry = some mapping := by
  have htext := htexts entry h.mem
  cases h with
  | exact _ hexact =>
    obtain ⟨mapping, hmapping, -⟩ := (isExact_iff htext).mp hexact
    exact ⟨mapping, hmapping⟩
  | starred _ _ hstarred =>
    obtain ⟨⟨mapping, hmapping, -⟩, -⟩ := (isStarred_iff htext).mp hstarred
    exact ⟨mapping, hmapping⟩

end Choice
end PathMapping

namespace Resolver
open PathMapping

section Search
variable {options : CompilerOptions}

/-- Without `paths` there are no mappings, and all else is as it was. -/
theorem ofOptions_erase_paths (options : CompilerOptions) :
    ofOptions (options.erase "paths") = { ofOptions options with mappings := [] } := by
  have hother (name : String) (hname : name ≠ "paths") :
      (options.erase "paths").get? name = options.get? name := by
    rw [OrderedMap.get?_erase, if_neg hname]
  have hpaths : CompilerOptions.pathMappings (options.erase "paths") = [] := by
    rw [CompilerOptions.pathMappings, OrderedMap.get?_erase, if_pos rfl]
  have hflag (name : String) (hname : name ≠ "paths") :
      CompilerOptions.flag (options.erase "paths") name = CompilerOptions.flag options name := by
    rw [CompilerOptions.flag, hother name hname, CompilerOptions.flag]
  have htext (name : String) (hname : name ≠ "paths") :
      CompilerOptions.text? (options.erase "paths") name = CompilerOptions.text? options name := by
    rw [CompilerOptions.text?, hother name hname, CompilerOptions.text?]
  have hkind : CompilerOptions.resolutionKind (options.erase "paths") =
      CompilerOptions.resolutionKind options := by
    rw [CompilerOptions.resolutionKind, CompilerOptions.moduleResolution?, htext _ (by decide),
      CompilerOptions.module?, htext _ (by decide)]
    rfl
  rw [ofOptions, CompilerOptions.allowsJs, hflag _ (by decide), hflag _ (by decide),
    hflag _ (by decide), htext _ (by decide), hpaths, hother _ (by decide), hkind]
  rfl

/-- The search for a specifier goes through `paths` first, unless it is a path itself, and then on as
it does without. -/
theorem imported?_erase_paths (options : CompilerOptions) (host : Host) (dir specifier : String) :
    (ofOptions options).imported? host dir specifier =
      (if isRelative specifier || Path.isAbsolute specifier then none
        else (ofOptions options).mapped? host specifier).or
      ((ofOptions (options.erase "paths")).imported? host dir specifier) := by
  rw [ofOptions_erase_paths, imported?, imported?]
  split
  · rfl
  · rw [Option.or_assoc, Option.or_assoc]
    rfl

theorem mappings_ofOptions {entries : Object} {base : String}
    (hpaths : options.get? "paths" = some (.obj entries))
    (hbase : CompilerOptions.pathsBase? options = some base) :
    (ofOptions options).mappings =
      (entries.filterMap (PathMapping.ofEntry? base)).mergeSort fun a b => a.key.le b.key := by
  change CompilerOptions.pathMappings options = _
  rw [CompilerOptions.pathMappings, hpaths, hbase]

theorem mapping?_eq_some_iff {resolver : Resolver} {mappings : List PathMapping} {specifier : String}
    {mapping : PathMapping} {captured : String}
    (hmappings : resolver.mappings = mappings.mergeSort fun a b => a.key.le b.key) :
    resolver.mapping? specifier = some (mapping, captured) ↔
      IsFirstBest (fun a b => a.key.le b.key) (fun mapping => (mapping.capture? specifier).isSome)
        mappings mapping ∧ mapping.capture? specifier = some captured := by
  rw [mapping?, findSome?_capture?_iff, hmappings,
    find?_mergeSort_eq_some_iff (fun a b c => PathKey.le_trans a.key b.key c.key)
      (fun a b => PathKey.le_total a.key b.key)]

theorem mapped?_eq {resolver : Resolver} {specifier captured : String} {mapping : PathMapping}
    (h : resolver.mapping? specifier = some (mapping, captured)) (host : Host) :
    resolver.mapped? host specifier = (mapping.targetsFor captured).findSome? (resolver.load? host) := by
  rw [mapped?, h]
  rfl

/-- There is no mapping for a specifier that no entry matches. -/
theorem mapping?_eq_none_iff {resolver : Resolver} {entries : Object} {base specifier : String}
    (hmappings : resolver.mappings =
      (entries.filterMap (PathMapping.ofEntry? base)).mergeSort fun a b => a.key.le b.key)
    (htexts : ∀ entry ∈ entries, entry.2.isTexts = true) :
    resolver.mapping? specifier = none ↔ ∀ entry ∈ entries, ¬ IsExact specifier entry ∧
      ∀ lead captured tail, ¬ IsStarred specifier entry lead captured tail := by
  rw [mapping?, List.findSome?_eq_none_iff, hmappings]
  have hentry (entry : String × Value) (hmem : entry ∈ entries) :=
    forall_captures_iff base specifier (P := fun _ => False) (htexts entry hmem)
  constructor
  · intro h entry hmem
    refine (hentry entry hmem).mp fun found hfound hcaptures => ?_
    have hnone := h found (List.mem_mergeSort.mpr (List.mem_filterMap.mpr ⟨entry, hmem, hfound⟩))
    rw [Option.map_eq_none_iff] at hnone
    rw [hnone] at hcaptures
    cases hcaptures
  · intro h found hfound
    obtain ⟨entry, hmem, hfound⟩ := List.mem_filterMap.mp (List.mem_mergeSort.mp hfound)
    rw [Option.map_eq_none_iff, ← Option.not_isSome_iff_eq_none]
    exact (hentry entry hmem).mpr (h entry hmem) found hfound

end Search

/-- The first mapping that captures something is the one of the most specific entry, and there is none
if no entry matches. An import is looked for at the targets of that entry, the captured text in place
of their first star, and then as if there was no `paths`; an import of a path is looked for so at
once. -/
theorem mapping?_mostSpecific {options : CompilerOptions} {entries : Object} {base : String}
    (specifier : String) (hpaths : options.get? "paths" = some (.obj entries))
    (htexts : ∀ entry ∈ entries, entry.2.isTexts = true)
    (hbase : CompilerOptions.pathsBase? options = some base) :
    let resolver := ofOptions options
    let bare := ofOptions (options.erase "paths")
    (∀ mapping captured, resolver.mapping? specifier = some (mapping, captured) ↔
      ∃ entry, MostSpecific entries specifier entry captured ∧ ofEntry? base entry = some mapping) ∧
    (resolver.mapping? specifier = none ↔ ∀ entry ∈ entries, ¬ IsExact specifier entry ∧
      ∀ lead captured tail, ¬ IsStarred specifier entry lead captured tail) ∧
    ∀ host dir,
      ((isRelative specifier || Path.isAbsolute specifier) = true →
        resolver.imported? host dir specifier = bare.imported? host dir specifier) ∧
      ((isRelative specifier || Path.isAbsolute specifier) = false →
        (resolver.mapping? specifier = none →
          resolver.imported? host dir specifier = bare.imported? host dir specifier) ∧
        ∀ entry captured, MostSpecific entries specifier entry captured →
          resolver.imported? host dir specifier =
            (((writtenTargets entry).map fun target =>
              substitute captured (Path.resolve base target)).findSome?
                (resolver.load? host)).or (bare.imported? host dir specifier)) := by
  intro resolver bare
  have hmappings := mappings_ofOptions hpaths hbase
  have hsome (mapping : PathMapping) (captured : String) :
      resolver.mapping? specifier = some (mapping, captured) ↔
        ∃ entry, MostSpecific entries specifier entry captured ∧
          ofEntry? base entry = some mapping := by
    rw [mapping?_eq_some_iff hmappings, isFirstBest_iff_mostSpecific htexts]
  refine ⟨hsome, mapping?_eq_none_iff hmappings htexts,
    fun host dir => ⟨fun hpath => ?_, fun hname => ⟨fun hnone => ?_, ?_⟩⟩⟩
  · rw [imported?_erase_paths, hpath, if_pos rfl, Option.none_or]
  · rw [imported?_erase_paths, hname, if_neg Bool.false_ne_true, mapped?, hnone]
    exact Option.none_or
  · intro entry captured hmost
    obtain ⟨mapping, hmapping⟩ := hmost.exists_mapping base htexts
    have htargets : mapping.targets = (writtenTargets entry).map (Path.resolve base) :=
      ((ofEntry?_eq_some_iff (htexts entry hmost.mem)).mp hmapping).2.2
    have hchosen := (hsome mapping captured).mpr ⟨entry, hmost, hmapping⟩
    rw [imported?_erase_paths, hname, if_neg Bool.false_ne_true, mapped?_eq hchosen, targetsFor,
      htargets, List.map_map, Function.comp_def]

section Tied

private def tiedEntries : Object :=
  [("*", .arr [.str "all/*"]), ("@app/x.ts", .arr []), ("a*b*c", .arr [.str "never"]),
   (" @app\\*.ts ", .arr [.str "src/*"]), ("@app/*", .arr [.str "lib/*"]),
   ("@app/x.t*ts", .arr [.str "never"])]

private def tiedOptions : CompilerOptions :=
  .ofList [("baseUrl", .str "/p"), ("paths", .obj tiedEntries)]

private theorem mapping?_tied : (ofOptions tiedOptions).mapping? "@app/x.ts" =
    some (⟨.wildcard "@app/" ".ts", ["/p/src/*"]⟩, "x") := by
  have hfound : tiedEntries.filterMap (PathMapping.ofEntry? "/p") =
      [⟨.wildcard "" "", ["/p/all/*"]⟩, ⟨.wildcard "@app/" ".ts", ["/p/src/*"]⟩,
        ⟨.wildcard "@app/" "", ["/p/lib/*"]⟩, ⟨.wildcard "@app/x.t" "ts", ["/p/never"]⟩] := by
    decide +kernel
  rw [mapping?_eq_some_iff (mappings_ofOptions rfl rfl), hfound]
  refine ⟨⟨[⟨.wildcard "" "", ["/p/all/*"]⟩], [⟨.wildcard "@app/" "", ["/p/lib/*"]⟩,
    ⟨.wildcard "@app/x.t" "ts", ["/p/never"]⟩], rfl, ?_, ?_, ?_⟩, ?_⟩
  all_goals decide +kernel

/-- Of two patterns alike the first declared is taken. The longest lead does not count where it
overlaps with what follows the star, nor does a pattern without targets. -/
theorem mapping?_mostSpecific_tied :
    tiedOptions.get? "paths" = some (.obj tiedEntries) ∧
      (∀ entry ∈ tiedEntries, entry.2.isTexts = true) ∧
      CompilerOptions.pathsBase? tiedOptions = some "/p" ∧
      MostSpecific tiedEntries "@app/x.ts" (" @app\\*.ts ", .arr [.str "src/*"]) "x" ∧
      ∀ host dir, (ofOptions tiedOptions).imported? host dir "@app/x.ts" =
        ((ofOptions tiedOptions).load? host "/p/src/x").or
          ((ofOptions (tiedOptions.erase "paths")).imported? host dir "@app/x.ts") := by
  have hpaths : tiedOptions.get? "paths" = some (.obj tiedEntries) := rfl
  have htexts : ∀ entry ∈ tiedEntries, entry.2.isTexts = true := by decide +kernel
  have hbase : CompilerOptions.pathsBase? tiedOptions = some "/p" := rfl
  obtain ⟨hsome, -, hsearch⟩ := mapping?_mostSpecific "@app/x.ts" hpaths htexts hbase
  obtain ⟨entry, hmost, hentry⟩ := (hsome _ _).mp mapping?_tied
  have hfound : entry = (" @app\\*.ts ", .arr [.str "src/*"]) := by
    have hmem := hmost.mem
    simp only [tiedEntries, List.mem_cons, List.not_mem_nil, or_false] at hmem
    rcases hmem with rfl | rfl | rfl | rfl | rfl | rfl
    case inr.inr.inr.inl => rfl
    all_goals exact absurd hentry (by decide +kernel)
  subst hfound
  refine ⟨hpaths, htexts, hbase, hmost, fun host dir => ?_⟩
  have htargets : (writtenTargets (" @app\\*.ts ", .arr [.str "src/*"])).map (fun target =>
      substitute "x" (Path.resolve "/p" target)) = ["/p/src/x"] := by
    decide +kernel
  rw [((hsearch host dir).2 (by decide +kernel)).2 _ _ hmost, htargets, List.findSome?_singleton]

end Tied

end Resolver
end Tsconfig
