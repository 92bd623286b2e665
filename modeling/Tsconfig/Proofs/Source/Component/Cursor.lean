import Tsconfig.Proofs.Source.Component.Language
import Tsconfig.Proofs.Source.Component.Parts
import Tsconfig.Proofs.Text.Bytes

/-!
A pass over the bytes of a component that finds its scripts. It goes by places: it looks for names among the
bytes and takes the text between places, and where a place were past the end or within a character, or two
places the wrong way round, it would fail. It never does, and it extracts what the regions say.
-/
namespace Tsconfig.Source.Component
open Text
open Json (utf8)

/-- What a round of a loop comes to. -/
inductive Round (σ ρ : Type)
  | done (result : ρ)
  | next (state : σ)

section Rounds
variable {σ ρ : Type} {round : σ → Option (Round σ ρ)} {left : σ → Nat}
  {hleft : ∀ state state', round state = some (.next state') → left state' < left state}
  {state state' : σ} {result : ρ}

/-- Round after round, until one is the last or fails. Each leaves less to do. -/
def rounds (round : σ → Option (Round σ ρ)) (left : σ → Nat)
    (hleft : ∀ state state', round state = some (.next state') → left state' < left state)
    (state : σ) : Option ρ :=
  match _hround : round state with
  | none => none
  | some (.done result) => some result
  | some (.next state') => rounds round left hleft state'
termination_by left state
decreasing_by exact hleft _ _ _hround

theorem rounds_eq (state : σ) : rounds round left hleft state =
    match round state with
    | none => none
    | some (.done result) => some result
    | some (.next state') => rounds round left hleft state' := by
  rw [rounds]
  split <;> simp_all

theorem rounds_of_done (h : round state = some (.done result)) :
    rounds round left hleft state = some result := by
  rw [rounds_eq, h]

theorem rounds_of_next (h : round state = some (.next state')) :
    rounds round left hleft state = rounds round left hleft state' := by
  rw [rounds_eq, h]

theorem rounds_congr (h : round state = round state') :
    rounds round left hleft state = rounds round left hleft state' := by
  rw [rounds_eq, h, ← rounds_eq]

end Rounds

/-- The text from one place to another that is not before it. -/
def slice? (start stop : Nat) (text : List Char) : Option (List Char) :=
  if start ≤ stop then between? start stop text else none

/-- The value that starts here, if there is one. -/
def valueSlice? : List Char → Option (Option (List Char))
  | [] => some none
  | quote :: rest =>
    if quote = '"' ∨ quote = '\'' then do
      let inner ← dropBytes? 1 (quote :: rest)
      match cutAt? [quote] inner with
      | none => return none
      | some (value, _) => return some (← takeBytes? (byteSize value) inner)
    else return some (← takeBytes? (byteSize (unquoted (quote :: rest))) (quote :: rest))

/-- The next place of the name `lang`. -/
def langRound (text : List Char) : Option (Round (List Char) (Option (List Char))) :=
  match cutAt? langName text with
  | none => some (.done none)
  | some (before, _) => do
    let front ← takeBytes? (byteSize before) text
    let behind ← dropBytes? (byteSize before + byteSize langName) text
    match trimStart behind with
    | '=' :: value =>
      if (front.getLast?.map isBlank).getD true then return .done (← valueSlice? (trimStart value))
      else return .next behind
    | _ => return .next behind

section Values
variable {text value behind : List Char}

theorem dropBytes?_append_append (lead word rest : List Char) :
    dropBytes? (byteSize lead + byteSize word) (lead ++ (word ++ rest)) = some rest := by
  rw [← byteSize_append, ← List.append_assoc]
  exact dropBytes?_append _ _

/-- No slice fails where a value starts. -/
theorem valueSlice?_eq (value : List Char) : valueSlice? value = some (valueOf value) := by
  cases value with
  | nil => rfl
  | cons quote rest =>
    rw [valueSlice?, valueOf]
    by_cases hquote : quote = '"' ∨ quote = '\''
    · have hinner : dropBytes? 1 (quote :: rest) = some rest := by
        rcases hquote with rfl | rfl
        · exact dropBytes?_append ['"'] rest
        · exact dropBytes?_append ['\''] rest
      rw [if_pos hquote, if_pos hquote, hinner]
      cases hcut : cutAt? [quote] rest with
      | none => simp [hcut]
      | some cut =>
        obtain ⟨inner, after⟩ := cut
        have htake : takeBytes? (byteSize inner) rest = some inner := by
          rw [eq_append_of_cutAt? hcut, List.append_assoc, takeBytes?_append]
        simp [hcut, htake]
    · obtain ⟨after, hafter⟩ : ∃ after, quote :: rest = unquoted (quote :: rest) ++ after :=
        ⟨_, List.takeWhile_append_dropWhile.symm⟩
      have htake := takeBytes?_append (unquoted (quote :: rest)) after
      rw [← hafter] at htake
      rw [if_neg hquote, if_neg hquote, htake]
      rfl

/-- A round goes where the search for the language does. -/
theorem langRound_eq (text : List Char) : langRound text =
    match cutAt? langName text with
    | none => some (.done none)
    | some (before, after) =>
      some (((valueBehind true before after).map Round.done).getD (.next after)) := by
  rw [langRound]
  cases hcut : cutAt? langName text with
  | none => rfl
  | some cut =>
    obtain ⟨before, after⟩ := cut
    have htext := eq_append_of_cutAt? hcut
    rw [List.append_assoc] at htext
    have hfront : takeBytes? (byteSize before) text = some before := by
      rw [htext, takeBytes?_append]
    have hbehind : dropBytes? (byteSize before + byteSize langName) text = some after := by
      rw [htext, dropBytes?_append_append]
    dsimp only
    rw [hfront, hbehind]
    simp only [Option.bind_eq_bind, Option.bind_some, valueBehind]
    split
    · rename_i value htrim
      rw [valueSlice?_eq, valueAfter_of_eq_cons htrim]
      split <;> rfl
    · rename_i hother
      rw [valueAfter_of_forall_ne hother]
      split <;> rfl

theorem length_lt_of_langRound {next : List Char} (h : langRound text = some (.next next)) :
    next.length < text.length := by
  rw [langRound_eq] at h
  cases hcut : cutAt? langName text with
  | none => simp [hcut] at h
  | some cut =>
    obtain ⟨before, after⟩ := cut
    have hlength := congrArg List.length (eq_append_of_cutAt? hcut)
    rw [List.length_append, List.length_append, length_langName] at hlength
    rw [hcut] at h
    cases hvalue : valueBehind true before after with
    | none =>
      obtain rfl : after = next := by simpa [hvalue] using h
      omega
    | some value => simp [hvalue] at h

/-- The language that the attributes of a tag name. -/
def langSlice? (attributes : List Char) : Option (Option (List Char)) :=
  rounds langRound List.length (fun _ _ => length_lt_of_langRound) attributes

theorem langSlice?_eq (attributes : List Char) : langSlice? attributes = some (langIn true attributes) := by
  induction hlength : attributes.length using Nat.strongRecOn generalizing attributes with
  | ind n ih =>
    subst hlength
    have hround := langRound_eq attributes
    rw [langIn_eq]
    cases hcut : cutAt? langName attributes with
    | none =>
      rw [hcut] at hround
      exact rounds_of_done hround
    | some cut =>
      obtain ⟨before, after⟩ := cut
      rw [hcut] at hround
      dsimp only at hround ⊢
      cases hvalue : valueBehind true before after with
      | none =>
        rw [hvalue] at hround
        rw [langSlice?, rounds_of_next hround]
        exact ih after.length (length_lt_of_langRound hround) after rfl
      | some value =>
        rw [hvalue] at hround
        exact rounds_of_done hround

end Values

/-- The bytes that are kept, from one place to another, and the first language that was met. -/
structure Found where
  kept : List (Nat × Nat)
  lang : Option (List Char)

/-- What was found up to a place. -/
structure Pass where
  cursor : Nat
  found : Found

/-- The first language, once the attributes of another tag are known. -/
def Found.langWith? (found : Found) (attributes : List Char) : Option (Option (List Char)) :=
  if found.lang.isNone then langSlice? attributes else some found.lang

/-- The place where a body ends. -/
def bodyEnd (text : List Char) (bodyStart : Nat) : Nat :=
  (findBytes? (utf8 closingName) (utf8 text) bodyStart).getD (byteSize text)

/-- The next opening of a script, and the script behind it. -/
def scriptRound (text : List Char) : Pass → Option (Round Pass Found)
  | ⟨cursor, found⟩ =>
    match findBytes? (utf8 openingName) (utf8 text) cursor with
    | none => some (.done found)
    | some start => do
      let afterName := start + byteSize openingName
      let behind ← dropBytes? afterName text
      if behind.head?.any endsName then
        match cutAt? ['>'] behind with
        | none => return .done found
        | some (before, _) =>
          let tagEnd := afterName + byteSize before
          let attributes ← slice? afterName tagEnd text
          let lang ← found.langWith? attributes
          let bodyStart := tagEnd + 1
          let bodyEnd := bodyEnd text bodyStart
          if isEmptyTag attributes then return .next ⟨bodyStart, found.kept, lang⟩
          else if bodyStart ≤ bodyEnd ∧ bodyEnd ≤ byteSize text then
            return .next ⟨bodyEnd, found.kept ++ [(bodyStart, bodyEnd)], lang⟩
          else none
      else return .next ⟨afterName, found⟩

section Progress
variable {text : List Char} {pass next : Pass}

theorem isPlainWord_openingName : IsPlainWord openingName := by decide +kernel

theorem isPlainWord_closingName : IsPlainWord closingName := by decide +kernel

theorem openingName_ne_nil : openingName ≠ [] := by decide +kernel

theorem closingName_ne_nil : closingName ≠ [] := by decide +kernel

/-- Each round but the last moves the cursor on, within the text. -/
theorem scriptRound_progress (h : scriptRound text pass = some (.next next)) :
    byteSize text - next.cursor < byteSize text - pass.cursor := by
  obtain ⟨cursor, found⟩ := pass
  rw [scriptRound] at h
  cases hfind : findBytes? (utf8 openingName) (utf8 text) cursor with
  | none => simp [hfind] at h
  | some start =>
    obtain ⟨hstart, hmatch, -⟩ := (findBytes?_eq_some_iff (utf8_ne_nil openingName_ne_nil)).mp hfind
    have hend := le_of_matchesAt (utf8_ne_nil openingName_ne_nil) hmatch
    rw [length_utf8, length_utf8] at hend
    have hname : byteSize openingName = 7 := by decide +kernel
    suffices hcursor : start < next.cursor by
      dsimp only
      omega
    rw [hfind] at h
    simp only [Option.bind_eq_bind, Option.bind_eq_some_iff] at h
    obtain ⟨behind, -, h⟩ := h
    split at h
    · split at h
      · cases h
      · simp only [Option.bind_eq_some_iff] at h
        obtain ⟨attributes, -, lang, -, h⟩ := h
        split at h
        · cases h
          dsimp only
          omega
        · split at h
          · rename_i hbody
            cases h
            dsimp only
            omega
          · cases h
    · cases h
      dsimp only
      omega

end Progress

section Search
variable {word lead body rest name behind : List Char}

theorem findBytes?_of_startsWith (hword : IsPlainWord word) (hne : word ≠ [])
    (h : startsWith word rest = true) :
    findBytes? (utf8 word) (utf8 (lead ++ rest)) (byteSize lead) = some (byteSize lead) := by
  rw [findBytes?_eq_some_iff (utf8_ne_nil hne), matchesAt_append hword]
  exact ⟨Nat.le_refl _, decide_eq_true (startsWith_iff.mp h), fun other hstart hstop => by omega⟩

/-- Where the word starts at no character of a part of the text, its bytes can be passed over. -/
theorem findBytes?_append (hword : IsPlainWord word) (hne : word ≠ [])
    (h : ∀ before after, body = before ++ after → after ≠ [] → startsWith word (after ++ rest) = false) :
    findBytes? (utf8 word) (utf8 (lead ++ (body ++ rest))) (byteSize lead) =
      findBytes? (utf8 word) (utf8 (lead ++ (body ++ rest))) (byteSize (lead ++ body)) := by
  refine findBytes?_skip (utf8_ne_nil hne) (by rw [byteSize_append]; omega) fun place hstart hstop => ?_
  rw [← Bool.not_eq_true]
  intro hmatch
  obtain ⟨front, behind, htext, rfl⟩ := exists_append_of_matchesAt hword hne hmatch
  obtain ⟨before, after, hbody, hafter, rfl⟩ := exists_cut htext hstart hstop
  rw [htext, matchesAt_append hword, decide_eq_true_eq, ← startsWith_iff, h before after hbody hafter] at hmatch
  cases hmatch

theorem findBytes?_end (hne : word ≠ []) (text : List Char) :
    findBytes? (utf8 word) (utf8 text) (byteSize text) = none := by
  rw [findBytes?_eq_none_iff (utf8_ne_nil hne)]
  intro place hplace
  rw [← Bool.not_eq_true]
  intro hmatch
  have hend := le_of_matchesAt (utf8_ne_nil hne) hmatch
  have hpos := byteSize_pos hne
  rw [length_utf8, length_utf8] at hend
  omega

theorem bodyEnd_eq (h : IsUpTo closingName body rest) :
    bodyEnd (lead ++ (body ++ rest)) (byteSize lead) = byteSize (lead ++ body) := by
  rw [bodyEnd, findBytes?_append isPlainWord_closingName closingName_ne_nil h.apart]
  rcases h.ends with rfl | hclosing
  · rw [List.append_nil, findBytes?_end closingName_ne_nil]
    rfl
  · rw [← List.append_assoc, findBytes?_of_startsWith isPlainWord_closingName closingName_ne_nil hclosing]
    rfl

/-- The name of a tag, in any case, is as long as the name itself. -/
theorem byteSize_name (hstarts : startsWith openingName (name ++ behind) = true)
    (hname : name.length = openingName.length) : byteSize name = byteSize openingName := by
  have hlower := startsWith_iff.mp hstarts
  rw [← hname, List.take_left] at hlower
  rw [← byteSize_lower, hlower]

end Search

section Opening
variable {lead name behind attributes after : List Char} {found : Found}

/-- The places around the name of a tag. -/
theorem opening_places (lead : List Char) (hstarts : startsWith openingName (name ++ behind) = true)
    (hname : name.length = openingName.length) :
    findBytes? (utf8 openingName) (utf8 (lead ++ (name ++ behind))) (byteSize lead) =
        some (byteSize lead) ∧
      byteSize lead + byteSize openingName = byteSize (lead ++ name) ∧
      dropBytes? (byteSize (lead ++ name)) (lead ++ (name ++ behind)) = some behind := by
  refine ⟨findBytes?_of_startsWith isPlainWord_openingName openingName_ne_nil hstarts, ?_, ?_⟩
  · rw [byteSize_append, byteSize_name hstarts hname]
  · rw [← List.append_assoc, dropBytes?_append]

/-- What only begins like the name of a tag is passed over. -/
theorem scriptRound_other (hstarts : startsWith openingName (name ++ behind) = true)
    (hname : name.length = openingName.length) (hother : behind.head?.any endsName = false) :
    scriptRound (lead ++ (name ++ behind)) ⟨byteSize lead, found⟩ =
      some (.next ⟨byteSize (lead ++ name), found⟩) := by
  obtain ⟨hfind, hplace, hbehind⟩ := opening_places lead hstarts hname
  simp only [scriptRound, hfind, hplace, hbehind, Option.bind_eq_bind, Option.bind_some, hother]
  rfl

/-- A tag that does not end is the last. -/
theorem scriptRound_lost (hopen : opensScript (name ++ behind) = true)
    (hname : name.length = openingName.length) (hend : '>' ∉ behind) :
    scriptRound (lead ++ (name ++ behind)) ⟨byteSize lead, found⟩ = some (.done found) := by
  obtain ⟨hstarts, hends⟩ := Bool.and_eq_true_iff.mp hopen
  obtain ⟨hfind, hplace, hbehind⟩ := opening_places lead hstarts hname
  rw [← hname, List.drop_left] at hends
  simp only [scriptRound, hfind, hplace, hbehind, Option.bind_eq_bind, Option.bind_some, hends, if_pos,
    cutAt?_singleton_eq_none_iff.mpr hend]
  rfl

theorem langWith?_eq (found : Found) (attributes : List Char) :
    found.langWith? attributes = some (found.lang.or (langIn true attributes)) := by
  rw [Found.langWith?, langSlice?_eq]
  cases found.lang <;> rfl

/-- A tag that ends is passed, with the body of its script if it has one. -/
theorem scriptRound_tag (hopen : opensScript (name ++ (attributes ++ '>' :: after)) = true)
    (hname : name.length = openingName.length) (hattributes : '>' ∉ attributes) :
    scriptRound (lead ++ (name ++ (attributes ++ '>' :: after))) ⟨byteSize lead, found⟩ =
      let text := lead ++ (name ++ (attributes ++ '>' :: after))
      let bodyStart := byteSize (lead ++ (name ++ (attributes ++ ['>'])))
      let lang := found.lang.or (langIn true attributes)
      if isEmptyTag attributes then some (.next ⟨bodyStart, found.kept, lang⟩)
      else if bodyStart ≤ bodyEnd text bodyStart ∧ bodyEnd text bodyStart ≤ byteSize text then
        some (.next ⟨bodyEnd text bodyStart, found.kept ++ [(bodyStart, bodyEnd text bodyStart)], lang⟩)
      else none := by
  obtain ⟨hstarts, hends⟩ := Bool.and_eq_true_iff.mp hopen
  obtain ⟨hfind, hplace, hbehind⟩ := opening_places lead hstarts hname
  rw [← hname, List.drop_left] at hends
  have hslice : slice? (byteSize (lead ++ name)) (byteSize (lead ++ name) + byteSize attributes)
      (lead ++ (name ++ (attributes ++ '>' :: after))) = some attributes := by
    rw [slice?, if_pos (Nat.le_add_right _ _), between?, hbehind, Nat.add_sub_cancel_left]
    exact takeBytes?_append _ _
  have hstart : byteSize (lead ++ name) + byteSize attributes + 1 =
      byteSize (lead ++ (name ++ (attributes ++ ['>']))) := by
    have hend : byteSize ['>'] = 1 := rfl
    rw [byteSize_append, byteSize_append lead, byteSize_append name, byteSize_append attributes, hend]
    omega
  simp only [scriptRound, hfind, hplace, hbehind, Option.bind_eq_bind, Option.bind_some, hends, if_pos,
    cutAt?_singleton_eq_some_iff.mpr ⟨rfl, hattributes⟩, hslice, langWith?_eq, hstart]
  rfl

/-- Behind a tag with a body the pass goes on at the end of the body, and keeps its place. -/
theorem scriptRound_script {body rest : List Char}
    (hopen : opensScript (name ++ (attributes ++ '>' :: (body ++ rest))) = true)
    (hname : name.length = openingName.length) (hattributes : '>' ∉ attributes)
    (hfull : isEmptyTag attributes = false) (hbody : IsUpTo closingName body rest) :
    scriptRound (lead ++ (name ++ (attributes ++ '>' :: (body ++ rest)))) ⟨byteSize lead, found⟩ =
      let bodyStart := byteSize (lead ++ (name ++ (attributes ++ ['>'])))
      let bodyEnd := bodyStart + byteSize body
      some (.next ⟨bodyEnd, found.kept ++ [(bodyStart, bodyEnd)],
        found.lang.or (langIn true attributes)⟩) := by
  have hsplit : lead ++ (name ++ (attributes ++ '>' :: (body ++ rest))) =
      lead ++ (name ++ (attributes ++ ['>'])) ++ (body ++ rest) := by simp
  have hend : bodyEnd (lead ++ (name ++ (attributes ++ ['>'])) ++ (body ++ rest))
      (byteSize (lead ++ (name ++ (attributes ++ ['>'])))) =
        byteSize (lead ++ (name ++ (attributes ++ ['>']))) + byteSize body := by
    rw [bodyEnd_eq hbody, byteSize_append]
  have hsize : byteSize (lead ++ (name ++ (attributes ++ ['>']))) + byteSize body ≤
      byteSize (lead ++ (name ++ (attributes ++ ['>'])) ++ (body ++ rest)) := by
    rw [byteSize_append _ (body ++ rest), byteSize_append body]
    omega
  rw [scriptRound_tag hopen hname hattributes, hsplit]
  simp only [hfull, Bool.false_eq_true, if_false, hend, Nat.le_add_right, hsize, and_self, if_true]

end Opening

/-- The whole pass from a place on. -/
def pass (text : List Char) (start : Pass) : Option Found :=
  rounds (scriptRound text) (fun pass => byteSize text - pass.cursor) (fun _ _ => scriptRound_progress)
    start

/-- The places of the bodies. -/
def ranges : Nat → List Part → List (Nat × Nat)
  | _, [] => []
  | place, .body text :: parts =>
    (place, place + byteSize text) :: ranges (place + byteSize text) parts
  | place, part :: parts => ranges (place + byteSize part.toChars) parts

section Run
variable {lead body rest text : List Char} {found : Found} {parts : List Part}

theorem pass_append (h : ∀ before after, body = before ++ after → after ≠ [] →
      startsWith openingName (after ++ rest) = false) :
    pass (lead ++ (body ++ rest)) ⟨byteSize lead, found⟩ =
      pass (lead ++ (body ++ rest)) ⟨byteSize (lead ++ body), found⟩ := by
  refine rounds_congr ?_
  rw [scriptRound, scriptRound, findBytes?_append isPlainWord_openingName openingName_ne_nil h]

/-- No name starts within a name. -/
theorem startsWith_within {c : Char} {name behind before after : List Char}
    (hstarts : startsWith openingName (c :: name ++ behind) = true)
    (hname : (c :: name).length = openingName.length) (heq : name = before ++ after) (hne : after ≠ []) :
    startsWith openingName (after ++ behind) = false := by
  obtain ⟨word, hword, hless⟩ : ∃ word, openingName = '<' :: word ∧ '<' ∉ word :=
    ⟨"script".toList, by decide +kernel⟩
  obtain ⟨d, after, rfl⟩ := List.exists_cons_of_ne_nil hne
  have hlower := startsWith_iff.mp hstarts
  rw [← hname, List.take_left, hword, lower, List.map_cons, List.cons.injEq, heq] at hlower
  rw [← Bool.not_eq_true, startsWith_iff, hword, List.length_cons, List.cons_append, List.take_succ_cons,
    lower, List.map_cons, List.cons.injEq]
  rintro ⟨hd, -⟩
  refine hless ?_
  rw [← hlower.2, ← hd]
  exact List.mem_map_of_mem (by simp)

/-- A character that opens nothing is passed over. -/
theorem pass_other {c : Char} (h : opensScript (c :: rest) = false) :
    pass (lead ++ c :: rest) ⟨byteSize lead, found⟩ =
      pass (lead ++ c :: rest) ⟨byteSize (lead ++ [c]), found⟩ := by
  cases hstarts : startsWith openingName (c :: rest) with
  | false =>
    refine @pass_append lead [c] rest found fun before after heq hne => ?_
    cases before with
    | nil =>
      rw [List.nil_append] at heq
      rwa [← heq]
    | cons d before => simp_all
  | true =>
    obtain ⟨name, behind, hrest, hname⟩ := exists_name hstarts
    obtain ⟨d, name, rfl⟩ : ∃ d rest, name = d :: rest := by
      refine List.exists_cons_of_length_pos ?_
      rw [hname]
      exact List.length_pos_iff.mpr openingName_ne_nil
    obtain rfl : c = d := (List.cons.inj hrest).1
    obtain rfl : rest = name ++ behind := (List.cons.inj hrest).2
    have hother : behind.head?.any endsName = false := by
      rw [opensScript, hstarts, Bool.true_and, ← hname, hrest, List.drop_left] at h
      exact h
    have hskip := @pass_append (lead ++ [c]) name behind found fun before after heq hne =>
      startsWith_within hstarts hname heq hne
    rw [List.append_assoc, List.append_assoc, List.singleton_append, List.singleton_append] at hskip
    rw [hskip]
    exact rounds_of_next (scriptRound_other hstarts hname hother)

/-- The pass finds the bodies, and the first language that a tag names. -/
theorem Parted.pass_eq (h : Parted parts rest) (htext : text = lead ++ rest) :
    pass text ⟨byteSize lead, found⟩ =
      some ⟨found.kept ++ ranges (byteSize lead) parts, found.lang.or (parts.findSome? Part.lang?)⟩ := by
  -- the cursor always stands where a part begins, but what was found before differs
  induction h generalizing lead found with
  | nil =>
    rw [List.append_nil] at htext
    have hround : scriptRound text ⟨byteSize lead, found⟩ = some (.done found) := by
      rw [scriptRound, htext, findBytes?_end openingName_ne_nil]
    rw [pass, rounds_of_done hround, ranges, List.append_nil, List.findSome?_nil, Option.or_none]
  | @other c rest parts hclosed hrest ih =>
    have hlater := @ih _ found (htext.trans (List.append_cons lead c rest))
    rw [byteSize_append] at hlater
    rw [htext, pass_other hclosed, ← htext, byteSize_append, hlater]
    rfl
  | @lost rest hopen hend =>
    obtain ⟨name, behind, rfl, hname⟩ := exists_name (Bool.and_eq_true_iff.mp hopen).1
    rw [← hname, List.drop_left] at hend
    have hranges : ranges (byteSize lead) [.lost (name ++ behind)] = [] := rfl
    rw [htext, pass, rounds_of_done (scriptRound_lost hopen hname hend), hranges, List.append_nil]
    simp [Part.lang?]
  | @empty name attributes rest parts hopen hname hattributes hempty hrest ih =>
    have hround : scriptRound text ⟨byteSize lead, found⟩ = _ :=
      htext ▸ scriptRound_tag hopen hname hattributes
    simp only [if_pos hempty] at hround
    have hlater := @ih (lead ++ (name ++ (attributes ++ ['>'])))
      ⟨found.kept, found.lang.or (langIn true attributes)⟩ (by simp [htext])
    rw [pass] at hlater
    rw [pass, rounds_of_next hround, hlater, byteSize_append, Option.or_assoc, Part.findSome?_lang?_cons]
    rfl
  | @script name attributes body rest parts hopen hname hattributes hfull hbody hrest ih =>
    have hround : scriptRound text ⟨byteSize lead, found⟩ = _ :=
      htext ▸ scriptRound_script hopen hname hattributes hfull hbody
    have hlater (found : Found) := @ih (lead ++ (name ++ (attributes ++ ['>'])) ++ body) found
      (by simp [htext])
    simp only [byteSize_append _ body, pass] at hlater
    rw [pass, rounds_of_next hround, hlater, byteSize_append lead, Option.or_assoc, List.append_assoc,
      Part.findSome?_lang?_cons, Part.findSome?_lang?_cons]
    rfl

end Run
end Tsconfig.Source.Component
