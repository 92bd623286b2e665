import Tsconfig.Proofs.Source.Component.Cursor

/-!
The script of a component in its place. The pass over the bytes ends with what is extracted, which is as long
as the component, has its line breaks where they were and the bodies of its scripts where they were, and
blanks elsewhere.
-/
namespace Tsconfig.Source.Component
open Text

/-- Whether a byte is kept. -/
def isKept (kept : List (Nat × Nat)) (place : Nat) : Bool :=
  kept.any fun range => range.1 ≤ place && place < range.2

/-- The text from a place on, with what is not kept blanked. -/
def render (kept : List (Nat × Nat)) : Nat → List Char → List Char
  | _, [] => []
  | place, c :: rest =>
    (if isKept kept place then [c] else blanked c) ++ render kept (place + c.utf8Size) rest

/-- The script of a component by the pass over its bytes, if no slice fails. -/
def scan (text : String) : Option Script :=
  (pass text.toList ⟨0, [], none⟩).map fun found =>
    ⟨String.ofList (render found.kept 0 text.toList), found.lang.map String.ofList⟩

section Render
variable {kept : List (Nat × Nat)} {place other : Nat} {text : List Char} {part : Part} {parts : List Part}

theorem render_append (lead rest : List Char) : render kept place (lead ++ rest) =
    render kept place lead ++ render kept (place + byteSize lead) rest := by
  induction lead generalizing place with
  | nil => rfl
  | cons c lead ih =>
    rw [List.cons_append, render, render, ih, byteSize, List.append_assoc, Nat.add_assoc]

theorem render_kept (h : ∀ other, place ≤ other → other < place + byteSize text →
      isKept kept other = true) : render kept place text = text := by
  induction text generalizing place with
  | nil => rfl
  | cons c text ih =>
    have hsize : byteSize (c :: text) = c.utf8Size + byteSize text := rfl
    have hpos := c.utf8Size_pos
    rw [render, h place (Nat.le_refl _) (by omega), if_pos rfl,
      ih fun other hstart hstop => h other (by omega) (by omega)]
    rfl

theorem render_blanked (h : ∀ other, place ≤ other → other < place + byteSize text →
      isKept kept other = false) : render kept place text = text.flatMap blanked := by
  induction text generalizing place with
  | nil => rfl
  | cons c text ih =>
    have hsize : byteSize (c :: text) = c.utf8Size + byteSize text := rfl
    have hpos := c.utf8Size_pos
    rw [render, h place (Nat.le_refl _) (by omega), if_neg Bool.false_ne_true, List.flatMap_cons,
      ih fun other hstart hstop => h other (by omega) (by omega)]

/-- The parts behind a place hold no bodies in front of it. -/
theorem isKept_ranges_of_lt (h : other < place) : isKept (ranges place parts) other = false := by
  induction parts generalizing place with
  | nil => rfl
  | cons part parts ih =>
    cases part with
    | body text =>
      have hfirst : decide (place ≤ other) = false := decide_eq_false (by omega)
      rw [ranges, isKept, List.any_cons, hfirst, Bool.false_and, Bool.false_or]
      exact ih (by omega)
    | other | lost | tag => exact ih (by omega)

/-- The parts as the pass shows them. -/
theorem render_ranges (h : ∀ other, place ≤ other →
      isKept kept other = isKept (ranges place parts) other) :
    render kept place (parts.flatMap Part.toChars) = parts.flatMap Part.shown := by
  induction parts generalizing place with
  | nil => rfl
  | cons part parts ih =>
    rw [List.flatMap_cons, List.flatMap_cons, render_append]
    cases part with
    | body text =>
      have hranges (other : Nat) : isKept (ranges place (.body text :: parts)) other =
          (decide (place ≤ other) && decide (other < place + byteSize text) ||
            isKept (ranges (place + byteSize text) parts) other) := rfl
      rw [render_kept, ih]
      · rfl
      · intro other hother
        have hother : place + byteSize text ≤ other := hother
        have hbehind : decide (other < place + byteSize text) = false := decide_eq_false (by omega)
        rw [h other (by omega), hranges, hbehind, Bool.and_false, Bool.false_or]
        rfl
      · intro other hstart hstop
        have hstop : other < place + byteSize text := hstop
        rw [h other hstart, hranges, decide_eq_true hstart, decide_eq_true hstop]
        rfl
    | other | lost | tag =>
      rw [render_blanked, ih]
      · rfl
      · intro other hother
        rw [h other (by omega)]
        rfl
      · intro other hstart hstop
        rw [h other hstart]
        change isKept (ranges (place + _) parts) other = false
        exact isKept_ranges_of_lt hstop

end Render

/-- The pass ends, without a slice that fails, with what is extracted. -/
theorem scan_eq (text : String) : scan text = some (extract text) := by
  obtain ⟨parts, hparts⟩ := exists_parted text.toList
  have hpass := @Parted.pass_eq [] text.toList text.toList ⟨[], none⟩ parts hparts rfl
  have hrender := @render_ranges (ranges 0 parts) 0 parts fun other _ => rfl
  rw [hparts.toChars] at hrender
  rw [scan, hparts.extract_eq, ← hrender]
  exact congrArg (Option.map _) hpass

section Places
variable {α β : Type} {f : α → List β}

/-- What stands in the image of a list comes from one of its items. -/
theorem exists_of_flatMap_eq {items : List α} {front back : List β} {b : β}
    (h : items.flatMap f = front ++ b :: back) :
    ∃ before item after lead rest, items = before ++ item :: after ∧ f item = lead ++ b :: rest ∧
      front = before.flatMap f ++ lead := by
  induction items generalizing front with
  | nil => simp at h
  | cons item items ih =>
    rw [List.flatMap_cons] at h
    rcases List.append_eq_append_iff.mp h with ⟨more, hfront, hmore⟩ | ⟨more, hitem, hmore⟩
    · obtain ⟨before, other, after, lead, rest, rfl, hother, rfl⟩ := ih hmore
      refine ⟨item :: before, other, after, lead, rest, rfl, hother, ?_⟩
      rw [hfront, List.flatMap_cons, List.append_assoc]
    · cases more with
      | nil =>
        rw [List.nil_append] at hmore
        obtain ⟨before, other, after, lead, rest, rfl, hother, hlead⟩ := @ih [] hmore.symm
        refine ⟨item :: before, other, after, lead, rest, rfl, hother, ?_⟩
        rw [List.append_nil] at hitem
        rw [List.flatMap_cons, List.append_assoc, ← hlead, List.append_nil, hitem]
      | cons c more =>
        obtain ⟨rfl, -⟩ := List.cons.inj hmore
        exact ⟨[], item, items, front, more, rfl, hitem, rfl⟩

end Places

section Sizes
variable {text lead rest : List Char} {c : Char}

theorem byteSize_replicate (n : Nat) : byteSize (List.replicate n ' ') = n := by
  induction n with
  | zero => rfl
  | succ n ih =>
    have hblank : ' '.utf8Size = 1 := rfl
    rw [List.replicate_succ, byteSize, ih, hblank, Nat.add_comm]

theorem byteSize_keepOrBlank (item : Char × Region) : byteSize (keepOrBlank item) = item.1.utf8Size := by
  rw [keepOrBlank]
  split
  · rfl
  · exact byteSize_replicate _

/-- Every character stays as long as it was. -/
theorem byteSize_flatMap_keepOrBlank (items : List (Char × Region)) :
    byteSize (items.flatMap keepOrBlank) = byteSize (items.map Prod.fst) := by
  induction items with
  | nil => rfl
  | cons item items ih =>
    rw [List.flatMap_cons, byteSize_append, byteSize_keepOrBlank, ih]
    rfl

theorem regionsFrom_map_fst (before : Region) (text : List Char) :
    (regionsFrom before text).map Prod.fst = text := by
  induction text generalizing before with
  | nil => rfl
  | cons c text ih => rw [regionsFrom_cons, List.map_cons, ih]

theorem toList_extract (text : String) :
    (extract text).text.toList = (regions text.toList).flatMap keepOrBlank := by
  rw [extract, String.toList_ofList]

end Sizes

def Part.isBody : Part → Bool
  | .body _ => true
  | _ => false

theorem Part.isBody_iff (part : Part) : part.isBody = true ↔ part.region = .script := by
  cases part <;> simp [isBody, region]

/-- A text stands in the script at the byte offset where `lead` ends. -/
def ShownAt (script lead shown : List Char) : Prop :=
  ∃ front back, script = front ++ (shown ++ back) ∧ byteSize front = byteSize lead

section Shown
variable {text : String} {before after : List (Char × Region)} {item : Char × Region}

/-- Every character is kept or blanked at its offset. -/
theorem shownAt_of_regions (h : regions text.toList = before ++ item :: after) :
    ShownAt (extract text).text.toList (before.map Prod.fst) (keepOrBlank item) := by
  refine ⟨before.flatMap keepOrBlank, after.flatMap keepOrBlank, ?_, byteSize_flatMap_keepOrBlank before⟩
  rw [toList_extract, h, List.flatMap_append, List.flatMap_cons]

theorem exists_regions_of_toList {lead rest : List Char} {c : Char} (h : text.toList = lead ++ c :: rest) :
    ∃ before region after, regions text.toList = before ++ (c, region) :: after ∧
      before.map Prod.fst = lead := by
  have hregions := regionsFrom_map_fst .markup text.toList
  rw [← regions, h] at hregions
  obtain ⟨before, items, hsplit, hlead, hitems⟩ := List.map_eq_append_iff.mp hregions
  obtain ⟨⟨d, region⟩, after, rfl, rfl, -⟩ := List.map_eq_cons_iff.mp hitems
  exact ⟨before, region, after, h ▸ hsplit, hlead⟩

/-- Where a character of the script comes from. -/
theorem exists_source {front back : List Char} {d : Char}
    (h : (extract text).text.toList = front ++ d :: back) :
    ∃ lead c rest, text.toList = lead ++ c :: rest ∧
      (d = c ∧ byteSize front = byteSize lead ∨
        d = ' ' ∧ byteSize lead ≤ byteSize front ∧ byteSize front < byteSize lead + c.utf8Size) := by
  rw [toList_extract] at h
  obtain ⟨before, ⟨c, region⟩, after, within, rest, hregions, hitem, rfl⟩ := exists_of_flatMap_eq h
  have htext := regionsFrom_map_fst .markup text.toList
  rw [← regions, hregions, List.map_append, List.map_cons] at htext
  refine ⟨_, _, _, htext.symm, ?_⟩
  rw [byteSize_append, byteSize_flatMap_keepOrBlank]
  rw [keepOrBlank] at hitem
  split at hitem
  · obtain ⟨rfl, hd⟩ : within = [] ∧ c = d := by
      cases within <;> simp_all
    exact .inl ⟨hd.symm, rfl⟩
  · have hblank (e : Char) (he : e ∈ within ++ d :: rest) : e = ' ' :=
      List.eq_of_mem_replicate (hitem ▸ he)
    have hsize := congrArg byteSize hitem
    rw [byteSize_replicate, byteSize_append, byteSize] at hsize
    have hpos := d.utf8Size_pos
    refine .inr ⟨hblank d (by simp), by omega, ?_⟩
    dsimp only
    omega

/-- A character of a part is kept in a body and blanked elsewhere, unless it is a line break. -/
theorem shownAt_of_parts {parts front back : List Part} {part : Part} {lead rest : List Char} {c : Char}
    (hparts : Parted parts text.toList) (hpart : parts = front ++ part :: back)
    (hc : part.toChars = lead ++ c :: rest) :
    ShownAt (extract text).text.toList (front.flatMap Part.toChars ++ lead)
      (keepOrBlank (c, part.region)) := by
  have hfront : (front.flatMap Part.regions).map Prod.fst = front.flatMap Part.toChars := by
    rw [List.map_flatMap]
    refine congrArg (List.flatMap · front) (funext fun part => ?_)
    rw [Part.regions, List.map_map]
    exact List.map_id _
  have hlead : (lead.map fun c => (c, part.region)).map Prod.fst = lead := by
    rw [List.map_map]
    exact List.map_id _
  have hitem : part.regions = lead.map (fun c => (c, part.region)) ++
      (c, part.region) :: rest.map fun c => (c, part.region) := by
    rw [Part.regions, hc, List.map_append, List.map_cons]
  have hregions := hparts.regions
  rw [hpart, List.flatMap_append, List.flatMap_cons, hitem, List.append_assoc, ← List.append_assoc,
    List.cons_append] at hregions
  have hshown := shownAt_of_regions hregions
  rwa [List.map_append, hfront, hlead] at hshown

end Shown

/-- The script of a component is found without a slice that fails, and is as long as the component. A line
break stays at its offset, and every other character is the one at its offset or a blank for a byte of it.
Kept are the line breaks and the bodies, and nothing else: of the parts that each component comes apart
into, all others are blanked. -/
theorem extract_offsets (text : String) :
    scan text = some (extract text) ∧
    byteSize (extract text).text.toList = byteSize text.toList ∧
    (∀ lead c rest, text.toList = lead ++ c :: rest → c = '\n' ∨ c = '\r' →
      ShownAt (extract text).text.toList lead [c]) ∧
    (∀ front d back, (extract text).text.toList = front ++ d :: back →
      ∃ lead c rest, text.toList = lead ++ c :: rest ∧
        (d = c ∧ byteSize front = byteSize lead ∨
          d = ' ' ∧ byteSize lead ≤ byteSize front ∧ byteSize front < byteSize lead + c.utf8Size)) ∧
    (∃ parts, Parted parts text.toList) ∧
    ∀ parts front part back lead c rest, Parted parts text.toList → parts = front ++ part :: back →
      part.toChars = lead ++ c :: rest →
        ShownAt (extract text).text.toList (front.flatMap Part.toChars ++ lead)
          (if part.isBody ∨ c = '\n' ∨ c = '\r' then [c] else List.replicate c.utf8Size ' ') := by
  refine ⟨scan_eq text, ?_, ?_, fun front d back => exists_source, exists_parted _, ?_⟩
  · rw [toList_extract, byteSize_flatMap_keepOrBlank, regions, regionsFrom_map_fst]
  · intro lead c rest htext hbreak
    obtain ⟨before, region, after, hregions, rfl⟩ := exists_regions_of_toList htext
    have hshown := shownAt_of_regions hregions
    rwa [keepOrBlank, if_pos (.inr hbreak)] at hshown
  · intro parts front part back lead c rest hparts hpart hc
    have hshown := shownAt_of_parts hparts hpart hc
    rw [keepOrBlank] at hshown
    simpa only [part.isBody_iff] using hshown

section Umlauts

private def umlauts : String := "é<script/>\n<SCRIPT lang=ts>ü"

private def umlautParts : List Part :=
  [.other 'é', .tag "<script".toList ['/'], .other '\n', .tag "<SCRIPT".toList " lang=ts".toList,
    .body ['ü']]

private theorem parted_umlauts : Parted umlautParts umlauts.toList := by
  have hbody : IsUpTo closingName ['ü'] [] := by
    refine ⟨fun before after heq hne => ?_, .inl rfl⟩
    cases before with
    | nil =>
      rw [List.nil_append] at heq
      rw [← heq]
      decide +kernel
    | cons d before => simp_all
  have hchars : umlauts.toList = 'é' :: ("<script".toList ++ (['/'] ++ '>' :: '\n' ::
      ("<SCRIPT".toList ++ (" lang=ts".toList ++ '>' :: (['ü'] ++ []))))) := by decide +kernel
  rw [hchars]
  exact .other (by decide +kernel) (.empty (by decide +kernel) (by decide +kernel) (by decide)
    (by decide +kernel) (.other (by decide +kernel) (.script (by decide +kernel) (by decide +kernel)
      (by decide +kernel) (by decide +kernel) hbody .nil)))

/-- A letter in front of an empty tag leaves two blanks, and one in a script that is not closed stays. -/
theorem extract_offsets_umlauts :
    Parted umlautParts umlauts.toList ∧
    ShownAt (extract umlauts).text.toList [] [' ', ' '] ∧
    ShownAt (extract umlauts).text.toList "é<script/>\n<SCRIPT lang=ts>".toList ['ü'] := by
  obtain ⟨-, -, -, -, -, hparts⟩ := extract_offsets umlauts
  refine ⟨parted_umlauts, ?_, ?_⟩
  · exact hparts umlautParts [] (.other 'é') _ [] 'é' [] parted_umlauts rfl rfl
  · have hlead : (umlautParts.take 4).flatMap Part.toChars ++ [] =
        "é<script/>\n<SCRIPT lang=ts>".toList := by decide +kernel
    rw [← hlead]
    exact hparts umlautParts (umlautParts.take 4) (.body ['ü']) [] [] 'ü' [] parted_umlauts rfl rfl

end Umlauts
end Tsconfig.Source.Component
