import Tsconfig.Proofs.Text.Pieces
import Tsconfig.Source.Component

/-!
A component as its opening tags, the bodies of its scripts and what is around them. Every component comes
apart in this way, and what is extracted is the bodies, with all else blanked.
-/
namespace Tsconfig.Source.Component
open Text

section Names
variable {word text : List Char}

theorem startsWith_iff : startsWith word text = true ↔ lower (text.take word.length) = word := by
  rw [startsWith, List.isPrefixOf_iff_prefix]
  constructor
  · intro hlead
    refine (hlead.eq_of_length_le ?_).symm
    rw [lower, List.length_map, List.length_take]
    exact Nat.min_le_left _ _
  · intro heq
    simp only [heq, List.prefix_rfl]

/-- A name in any case holds the characters of the word that are no letters, and no others. -/
theorem notMem_take_of_startsWith {c : Char} (h : startsWith word text = true) (hc : c.toLower = c)
    (hword : c ∉ word) : c ∉ text.take word.length := by
  intro hmem
  refine hword ?_
  rw [← startsWith_iff.mp h, ← hc]
  exact List.mem_map_of_mem hmem

theorem startsWith_nil (hword : word ≠ []) : startsWith word [] = false := by
  rw [← Bool.not_eq_true, startsWith_iff, List.take_nil]
  exact fun heq => hword heq.symm

theorem opensScript_nil : opensScript [] = false := by
  rw [opensScript, startsWith_nil (by decide +kernel), Bool.false_and]

/-- Where a script is closed none is opened. -/
theorem opensScript_of_closing (h : startsWith closingName text = true) : opensScript text = false := by
  rw [opensScript, Bool.and_eq_false_iff]
  refine .inl (Bool.eq_false_iff.mpr fun hopen => ?_)
  have htaken := congrArg (List.take 7) (startsWith_iff.mp h)
  rw [lower, ← List.map_take, List.take_take] at htaken
  have hclosing : closingName.take 7 = "</scrip".toList := by decide +kernel
  have hlength : closingName.length = 8 := by decide +kernel
  have hopening := startsWith_iff.mp hopen
  have hlength' : openingName.length = 7 := by decide +kernel
  rw [hlength'] at hopening
  rw [hlength, hclosing] at htaken
  exact absurd (hopening.symm.trans htaken) (by decide +kernel)

end Names

/-- What a component is made of. -/
inductive Part
  /-- A character at which no script is opened. -/
  | other (c : Char)
  /-- An opening tag that does not end. -/
  | lost (text : List Char)
  /-- An opening tag, by its name and what follows up to its end. -/
  | tag (name attributes : List Char)
  /-- What a script holds. -/
  | body (text : List Char)

namespace Part

def toChars : Part → List Char
  | .other c => [c]
  | .lost text => text
  | .tag name attributes => name ++ (attributes ++ ['>'])
  | .body text => text

def region : Part → Region
  | .other _ => .markup
  | .lost _ => .lost
  | .tag _ attributes => .tag attributes
  | .body _ => .script

def regions (part : Part) : List (Char × Region) := part.toChars.map fun c => (c, part.region)

end Part

/-- The text up to a place where a word starts, or up to its end. -/
structure IsUpTo (word text rest : List Char) : Prop where
  apart : ∀ before behind, text = before ++ behind → behind ≠ [] → startsWith word (behind ++ rest) = false
  ends : rest = [] ∨ startsWith word rest = true

/-- The parts of a component. A tag opens a script that lasts until the next closing name or until the
end, unless the tag says that it is empty. -/
inductive Parted : List Part → List Char → Prop
  | nil : Parted [] []
  | other {c : Char} {rest : List Char} {parts : List Part} (hclosed : opensScript (c :: rest) = false)
      (hrest : Parted parts rest) : Parted (.other c :: parts) (c :: rest)
  | lost {text : List Char} (hopen : opensScript text = true)
      (hend : '>' ∉ text.drop openingName.length) : Parted [.lost text] text
  | empty {name attributes rest : List Char} {parts : List Part}
      (hopen : opensScript (name ++ (attributes ++ '>' :: rest)) = true)
      (hname : name.length = openingName.length) (hattributes : '>' ∉ attributes)
      (hempty : isEmptyTag attributes = true) (hrest : Parted parts rest) :
      Parted (.tag name attributes :: parts) (name ++ (attributes ++ '>' :: rest))
  | script {name attributes body rest : List Char} {parts : List Part}
      (hopen : opensScript (name ++ (attributes ++ '>' :: (body ++ rest))) = true)
      (hname : name.length = openingName.length) (hattributes : '>' ∉ attributes)
      (hfull : isEmptyTag attributes = false) (hbody : IsUpTo closingName body rest)
      (hrest : Parted parts rest) :
      Parted (.tag name attributes :: .body body :: parts)
        (name ++ (attributes ++ '>' :: (body ++ rest)))

section Existence

theorem exists_isUpTo (word text : List Char) :
    ∃ lead rest, text = lead ++ rest ∧ IsUpTo word lead rest := by
  induction text with
  | nil => exact ⟨[], [], rfl, by simp, .inl rfl⟩
  | cons c text ih =>
    cases hstarts : startsWith word (c :: text) with
    | true => exact ⟨[], c :: text, rfl, by simp, .inr hstarts⟩
    | false =>
      obtain ⟨lead, rest, rfl, hapart, hends⟩ := ih
      refine ⟨c :: lead, rest, rfl, fun before behind heq hne => ?_, hends⟩
      cases before with
      | nil => rwa [← List.nil_append behind, ← heq]
      | cons d before => exact hapart before behind (List.cons.inj heq).2 hne

/-- What opens a script is a name with something behind it. -/
theorem exists_name {text : List Char} (h : startsWith openingName text = true) :
    ∃ name behind, text = name ++ behind ∧ name.length = openingName.length := by
  refine ⟨_, _, (List.take_append_drop openingName.length text).symm, ?_⟩
  have hlength := congrArg List.length (startsWith_iff.mp h)
  rwa [lower, List.length_map] at hlength

/-- Every component comes apart. -/
theorem exists_parted (text : List Char) : ∃ parts, Parted parts text := by
  -- on the length, since a script takes its tag and its body away at once
  induction hlength : text.length using Nat.strongRecOn generalizing text with
  | ind n ih =>
    subst hlength
    cases hopen : opensScript text with
    | false =>
      cases text with
      | nil => exact ⟨[], .nil⟩
      | cons c rest =>
        obtain ⟨parts, hparts⟩ := ih rest.length (Nat.lt_succ_self _) rest rfl
        exact ⟨_, .other hopen hparts⟩
    | true =>
      obtain ⟨name, behind, rfl, hname⟩ := exists_name (Bool.and_eq_true_iff.mp hopen).1
      by_cases hend : '>' ∈ behind
      · obtain ⟨attributes, after, rfl, hattributes⟩ := List.eq_append_cons_of_mem hend
        cases hempty : isEmptyTag attributes with
        | true =>
          obtain ⟨parts, hparts⟩ := ih after.length (by simp; omega) after rfl
          exact ⟨_, .empty hopen hname hattributes hempty hparts⟩
        | false =>
          obtain ⟨body, rest, rfl, hbody⟩ := exists_isUpTo closingName after
          obtain ⟨parts, hparts⟩ := ih rest.length (by simp; omega) rest rfl
          exact ⟨_, .script hopen hname hattributes hempty hbody hparts⟩
      · refine ⟨_, .lost hopen ?_⟩
        rwa [← hname, List.drop_left]

end Existence

section Regions
variable {text rest body attributes : List Char} {parts : List Part} {region : Region}

theorem regionsFrom_cons (before : Region) (c : Char) (rest : List Char) :
    regionsFrom before (c :: rest) =
      (c, before.next (c :: rest)) :: regionsFrom ((before.next (c :: rest)).after c) rest := rfl

/-- An opening tag is entered with its first character. -/
theorem regionsFrom_of_opensScript (h : opensScript text = true) :
    regionsFrom .markup text = regionsFrom (tagRegion text) text := by
  have hstay (text : List Char) : (tagRegion text).next text = tagRegion text := by
    rw [tagRegion]
    split <;> rfl
  cases text with
  | nil => rw [opensScript_nil] at h; cases h
  | cons c rest =>
    have hnext : Region.markup.next (c :: rest) = tagRegion (c :: rest) := if_pos h
    rw [regionsFrom_cons, regionsFrom_cons, hnext, hstay]

theorem regionsFrom_lost (text : List Char) :
    regionsFrom .lost text = text.map fun c => (c, .lost) := by
  induction text with
  | nil => rfl
  | cons c text ih =>
    rw [List.map_cons, ← ih]
    rfl

/-- A tag lasts until its end. -/
theorem regionsFrom_tag (h : '>' ∉ text) (rest : List Char) :
    regionsFrom (.tag attributes) (text ++ '>' :: rest) =
      (text ++ ['>']).map (fun c => (c, .tag attributes)) ++
        regionsFrom (if isEmptyTag attributes then .markup else .script) rest := by
  induction text with
  | nil => rfl
  | cons c text ih =>
    obtain ⟨hc, htext⟩ := List.ne_and_not_mem_of_not_mem_cons h
    have hafter : (Region.tag attributes).after c = .tag attributes := if_neg (Ne.symm hc)
    rw [List.cons_append, regionsFrom_cons, List.cons_append, List.map_cons, List.cons_append,
      ← ih htext]
    change _ :: regionsFrom ((Region.tag attributes).after c) _ = _
    rw [hafter]
    rfl

/-- The tag that a script is opened with. -/
theorem regionsFrom_opening {name : List Char}
    (hopen : opensScript (name ++ (attributes ++ '>' :: rest)) = true)
    (hname : name.length = openingName.length) (hattributes : '>' ∉ attributes) :
    regionsFrom .markup (name ++ (attributes ++ '>' :: rest)) =
      (Part.tag name attributes).regions ++
        regionsFrom (if isEmptyTag attributes then .markup else .script) rest := by
  have hend : '>' ∉ name := by
    have htaken := @notMem_take_of_startsWith _ _ '>' (Bool.and_eq_true_iff.mp hopen).1 (by decide)
      (by decide +kernel)
    rwa [← hname, List.take_left] at htaken
  have htag : tagRegion (name ++ (attributes ++ '>' :: rest)) = .tag attributes := by
    rw [tagRegion, ← hname, List.drop_left, cutAt?_singleton_eq_some_iff.mpr ⟨rfl, hattributes⟩]
  have hboth : '>' ∉ name ++ attributes := by simp [hend, hattributes]
  rw [regionsFrom_of_opensScript hopen, htag, ← List.append_assoc, regionsFrom_tag hboth,
    List.append_assoc]
  rfl

/-- A script lasts until it is closed, and behind it is what is behind any text. -/
theorem regionsFrom_script (h : IsUpTo closingName body rest) :
    regionsFrom .script (body ++ rest) =
      body.map (fun c => (c, .script)) ++ regionsFrom .markup rest := by
  obtain ⟨hapart, hends⟩ := h
  induction body with
  | nil =>
    rcases hends with rfl | hclosing
    · rfl
    · cases rest with
      | nil => rfl
      | cons c rest =>
        have hscript : Region.script.next (c :: rest) = .markup := if_pos hclosing
        have hmarkup : Region.markup.next (c :: rest) = .markup :=
          if_neg (by simp [opensScript_of_closing hclosing])
        rw [List.nil_append, regionsFrom_cons, hscript, List.map_nil, List.nil_append,
          regionsFrom_cons, hmarkup]
  | cons c body ih =>
    have hnext : Region.script.next (c :: (body ++ rest)) = .script :=
      if_neg (by simpa using hapart [] (c :: body) rfl (List.cons_ne_nil c body))
    rw [List.cons_append, regionsFrom_cons, hnext, List.map_cons, List.cons_append,
      ← ih fun before behind heq => hapart (c :: before) behind (by rw [heq, List.cons_append])]
    rfl

theorem Parted.regions (h : Parted parts text) : Component.regions text = parts.flatMap Part.regions := by
  rw [Component.regions]
  induction h with
  | nil => rfl
  | @other c rest parts hclosed hrest ih =>
    have hnext : Region.markup.next (c :: rest) = .markup := if_neg (by simp [hclosed])
    rw [regionsFrom_cons, hnext, List.flatMap_cons, ← ih]
    rfl
  | @lost text hopen hend =>
    have hlost : tagRegion text = .lost := by
      rw [tagRegion, cutAt?_singleton_eq_none_iff.mpr hend]
    rw [regionsFrom_of_opensScript hopen, hlost, regionsFrom_lost]
    simp [Part.regions, Part.toChars, Part.region]
  | empty hopen hname hattributes hempty hrest ih =>
    rw [regionsFrom_opening hopen hname hattributes, if_pos hempty, ih, List.flatMap_cons]
  | script hopen hname hattributes hfull hbody hrest ih =>
    rw [regionsFrom_opening hopen hname hattributes, if_neg (by simp [hfull]),
      regionsFrom_script hbody, ih, List.flatMap_cons, List.flatMap_cons]
    rfl

end Regions

/-- A character outside the scripts: a line break, or blanks in its place. -/
def blanked (c : Char) : List Char :=
  if c = '\n' ∨ c = '\r' then [c] else List.replicate c.utf8Size ' '

namespace Part

/-- What is left of a part. -/
def shown : Part → List Char
  | .body text => text
  | part => part.toChars.flatMap blanked

/-- The language that a tag names. -/
def lang? : Part → Option (List Char)
  | .tag _ attributes => langIn true attributes
  | _ => none

theorem shown_eq (part : Part) : part.regions.flatMap keepOrBlank = part.shown := by
  have hkeep (c : Char) : keepOrBlank (c, .script) = [c] := by simp [keepOrBlank]
  have hblank {region : Region} (h : region ≠ .script) (c : Char) :
      keepOrBlank (c, region) = blanked c := by simp [keepOrBlank, blanked, h]
  rw [regions, List.flatMap_map]
  cases part with
  | body text => simp [toChars, region, shown, hkeep]
  | other | lost | tag => simp [toChars, region, shown, hblank]

theorem lang?_eq (part : Part) : part.regions.findSome? langOf = part.lang? := by
  rw [regions, List.findSome?_map]
  cases part with
  | tag name attributes =>
    obtain ⟨c, rest, hcons⟩ : ∃ c rest, (Part.tag name attributes).toChars = c :: rest :=
      List.exists_cons_of_ne_nil (by simp [toChars])
    rw [hcons]
    cases hlang : langIn true attributes <;>
      simp [lang?, hlang, region, langOf, Function.comp_def]
  | other | lost | body => simp [lang?, region, langOf, Function.comp_def]

theorem findSome?_lang?_cons (part : Part) (parts : List Part) :
    (part :: parts).findSome? Part.lang? = part.lang?.or (parts.findSome? Part.lang?) := by
  rw [List.findSome?_cons]
  cases part.lang? <;> rfl

end Part

section Extract
variable {text : String} {parts : List Part}

theorem Parted.toChars {text : List Char} (h : Parted parts text) : parts.flatMap Part.toChars = text := by
  induction h with
  | nil => rfl
  | other hclosed hrest ih => rw [List.flatMap_cons, ih]; rfl
  | lost => simp [Part.toChars]
  | empty hopen hname hattributes hempty hrest ih | script hopen hname hattributes hfull hbody hrest ih =>
    simp [Part.toChars, ih]

/-- What is extracted is the parts as they are shown, with the first language that a tag names. -/
theorem Parted.extract_eq (h : Parted parts text.toList) :
    extract text =
      ⟨String.ofList (parts.flatMap Part.shown), (parts.findSome? Part.lang?).map String.ofList⟩ := by
  have htext : (parts.flatMap Part.regions).flatMap keepOrBlank = parts.flatMap Part.shown := by
    rw [List.flatMap_assoc]
    exact congrArg (List.flatMap · parts) (funext Part.shown_eq)
  have hlang : (parts.flatMap Part.regions).findSome? langOf = parts.findSome? Part.lang? := by
    clear htext h
    induction parts with
    | nil => rfl
    | cons part parts ih =>
      rw [List.flatMap_cons, List.findSome?_append, ih, part.lang?_eq, Part.findSome?_lang?_cons]
  simp only [extract, h.regions, htext, hlang]

end Extract
end Tsconfig.Source.Component
