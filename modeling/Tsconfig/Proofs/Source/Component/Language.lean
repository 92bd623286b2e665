import Tsconfig.Proofs.Text.Lines
import Tsconfig.Source.Component

/-! The attribute `lang` by the places of its name. -/
namespace Tsconfig.Source.Component
open Text

def langName : List Char := ['l', 'a', 'n', 'g']

theorem length_langName : langName.length = 4 := rfl

/-- The value behind the name, if the name stands at the start or behind a blank. -/
def valueBehind (apart : Bool) (before after : List Char) : Option (Option (List Char)) :=
  if (before.getLast?.map isBlank).getD apart then valueAfter after else none

theorem stripStart?_langName {text after : List Char} :
    stripStart? langName text = some after ↔ text = 'l' :: 'a' :: 'n' :: 'g' :: after :=
  stripStart?_eq_some_iff

theorem langIn_cons {apart : Bool} {c : Char} {rest : List Char}
    (h : stripStart? langName (c :: rest) = none) : langIn apart (c :: rest) = langIn (isBlank c) rest := by
  rw [langIn]
  rintro after rfl rfl
  rw [stripStart?_langName.mpr rfl] at h
  cases h

/-- The search goes from one place of the name to the next, each time as if the text started there. -/
theorem langIn_eq (apart : Bool) (text : List Char) : langIn apart text =
    match cutAt? langName text with
    | none => none
    | some (before, after) => (valueBehind apart before after).getD (langIn true after) := by
  induction text generalizing apart with
  | nil => rfl
  | cons c rest ih =>
    cases hstrip : stripStart? langName (c :: rest) with
    | some after =>
      rw [cutAt?, hstrip, stripStart?_langName.mp hstrip, langIn]
      change _ = (valueBehind apart [] after).getD (langIn true after)
      cases apart with
      | false => rfl
      | true =>
        change _ = (valueAfter after).getD (langIn true after)
        cases valueAfter after <;> rfl
    | none =>
      rw [cutAt?, hstrip, langIn_cons hstrip, ih]
      cases cutAt? langName rest with
      | none => rfl
      | some cut =>
        obtain ⟨before, after⟩ := cut
        have hlast : ((c :: before).getLast?.map isBlank).getD apart =
            (before.getLast?.map isBlank).getD (isBlank c) := by
          rw [List.getLast?_cons]
          cases before.getLast? <;> rfl
        simp only [Option.map_some, valueBehind, hlast]

/-- The value that starts here, if there is one. -/
def valueOf : List Char → Option (List Char)
  | [] => none
  | quote :: rest =>
    if quote = '"' ∨ quote = '\'' then (cutAt? [quote] rest).map Prod.fst
    else some (unquoted (quote :: rest))

section Values
variable {text : List Char}

theorem valueAfter_of_eq_cons {value : List Char} (h : trimStart text = '=' :: value) :
    valueAfter text = some (valueOf (trimStart value)) := by
  have hvalue : valueAfter text = match trimStart value with
      | [] => some none
      | quote :: rest =>
        if quote = '"' ∨ quote = '\'' then some ((cutAt? [quote] rest).map Prod.fst)
        else some (some (unquoted (quote :: rest))) := by
    rw [valueAfter, h]
    rfl
  rw [hvalue]
  cases trimStart value with
  | nil => rfl
  | cons quote rest =>
    dsimp only
    rw [valueOf]
    split <;> rfl

theorem valueAfter_of_forall_ne (h : ∀ value, trimStart text ≠ '=' :: value) : valueAfter text = none := by
  rw [valueAfter]
  split
  · rename_i value htrim
    exact absurd htrim (h value)
  · rfl

end Values

section Passing
variable {apart : Bool} {text : List Char} {c : Char}

/-- What is read as the start of a word: behind a blank, right behind the same word, or, if so told, at the
start. -/
def StandsApart (apart : Bool) (before : List Char) : Prop :=
  before = [] ∧ apart = true ∨ (∃ c, before.getLast? = some c ∧ isBlank c = true) ∨ langName <:+ before

theorem standsApart_append {behind : List Char} (h : StandsApart true behind) (before : List Char) :
    StandsApart apart (before ++ (langName ++ behind)) := by
  rcases h with ⟨rfl, -⟩ | ⟨c, hc, hblank⟩ | hsuffix
  · exact .inr (.inr ⟨before, by rw [List.append_nil]⟩)
  · exact .inr (.inl ⟨c, by simp [hc], hblank⟩)
  · refine .inr (.inr (hsuffix.trans ?_))
    exact (List.suffix_append _ _).trans (List.suffix_append _ _)

theorem stripStart?_append_eq_none (h : stripStart? langName text = none) (hc : c ∉ langName)
    (rest : List Char) : stripStart? langName (text ++ c :: rest) = none := by
  rw [Option.eq_none_iff_forall_not_mem]
  intro after hafter
  have hsplit := stripStart?_eq_some_iff.mp hafter
  rcases List.append_eq_append_iff.mp hsplit with ⟨more, hname, hmore⟩ | ⟨more, rfl, hmore⟩
  · cases more with
    | nil =>
      rw [List.append_nil] at hname
      rw [← hname] at h
      cases h
    | cons d more =>
      obtain ⟨rfl, -⟩ := List.cons.inj hmore
      exact hc (by simp [hname])
  · rw [stripStart?_eq_some_iff.mpr rfl] at h
    cases h

/-- A text without the name is passed over. -/
theorem langIn_of_cutAt?_eq_none (h : cutAt? langName text = none) (hc : c ∉ langName)
    (rest : List Char) : langIn apart (text ++ c :: rest) = langIn (isBlank c) rest := by
  induction text generalizing apart with
  | nil => exact langIn_cons (@stripStart?_append_eq_none [] c rfl hc rest)
  | cons d text ih =>
    rw [cutAt?] at h
    split at h
    · cases h
    · rename_i hstrip
      have hnext := stripStart?_append_eq_none hstrip hc rest
      rw [List.cons_append] at hnext ⊢
      rw [langIn_cons hnext, ih (Option.map_eq_none_iff.mp h)]

/-- So is one in which the name nowhere stands apart with an equals sign behind it. -/
theorem langIn_append (hc : c ∉ langName) (hblank : isBlank c = false) (rest : List Char)
    (h : ∀ before after, text = before ++ (langName ++ after) → StandsApart apart before →
      ∀ value, trimStart (after ++ c :: rest) ≠ '=' :: value) :
    langIn apart (text ++ c :: rest) = langIn false rest := by
  induction hlength : text.length using Nat.strongRecOn generalizing text apart with
  | ind n ih =>
    subst hlength
    cases hcut : cutAt? langName text with
    | none => rw [langIn_of_cutAt?_eq_none hcut hc, hblank]
    | some cut =>
      obtain ⟨before, after⟩ := cut
      obtain rfl : text = before ++ (langName ++ after) := by
        rw [eq_append_of_cutAt? hcut, List.append_assoc]
      have hvalue : valueBehind apart before (after ++ c :: rest) = none := by
        rw [valueBehind]
        split
        · rename_i hapart
          refine valueAfter_of_forall_ne (h before after rfl ?_)
          cases hlast : before.getLast? with
          | none =>
            rw [hlast] at hapart
            exact .inl ⟨List.getLast?_eq_none_iff.mp hlast, hapart⟩
          | some d =>
            rw [hlast] at hapart
            exact .inr (.inl ⟨d, hlast, hapart⟩)
        · rfl
      rw [langIn_eq, cutAt?_append hcut]
      dsimp only
      rw [hvalue, Option.getD_none]
      refine ih after.length ?_ (fun behind later heq happart => ?_) rfl
      · simp [langName]
        omega
      · refine h (before ++ (langName ++ behind)) later ?_ (standsApart_append happart before)
        rw [heq]
        simp

end Passing

section Finding
variable {apart : Bool} {text before after lead behind : List Char}

/-- Two places of the name have nothing in common. -/
theorem exists_between (h : before ++ (langName ++ after) = lead ++ (langName ++ behind))
    (hlt : before.length < lead.length) : ∃ between, lead = before ++ (langName ++ between) ∧
      after = between ++ (langName ++ behind) := by
  rcases List.append_eq_append_iff.mp h with ⟨more, rfl, hmore⟩ | ⟨more, rfl, -⟩
  · rcases List.append_eq_append_iff.mp hmore with ⟨between, rfl, hafter⟩ | ⟨between, hname, hbehind⟩
    · exact ⟨between, rfl, hafter⟩
    · cases between with
      | nil =>
        rw [List.append_nil] at hname
        exact ⟨[], by rw [hname, List.append_nil], hbehind.symm⟩
      | cons d between =>
        obtain ⟨c, more, rfl⟩ := List.exists_cons_of_ne_nil (show more ≠ [] by
          rintro rfl
          simp at hlt)
        obtain ⟨rfl, -⟩ := List.cons.inj hbehind
        have hmem : 'l' ∈ ['a', 'n', 'g'] := by
          rw [(List.cons.inj hname).2]
          simp
        exact absurd hmem (by decide)
  · rw [List.length_append] at hlt
    omega

/-- A place that stands apart does so behind an earlier place, too. -/
theorem standsApart_of_append {between : List Char}
    (h : StandsApart apart (before ++ (langName ++ between))) : StandsApart true between := by
  rcases h with ⟨hnil, -⟩ | ⟨c, hc, hblank⟩ | ⟨lead, hlead⟩
  · simp [langName] at hnil
  · cases between with
    | nil =>
      obtain rfl : 'g' = c := by simpa [langName] using hc
      cases hblank
    | cons d between =>
      refine .inr (.inl ⟨c, ?_, hblank⟩)
      rw [← List.append_assoc, List.getLast?_append] at hc
      rw [← hc, List.getLast?_cons]
      rfl
  · have hlength := congrArg List.length hlead
    simp only [List.length_append] at hlength
    by_cases hbetween : between = []
    · exact .inl ⟨hbetween, rfl⟩
    · have hpos := List.length_pos_iff.mpr hbetween
      have heq : before ++ (langName ++ between) = lead ++ (langName ++ []) := by
        rw [← hlead, List.append_nil]
      obtain ⟨more, -, hmore⟩ := exists_between heq (by omega)
      exact .inr (.inr ⟨more, by rw [hmore, List.append_nil]⟩)

theorem valueBehind_eq (h : StandsApart apart before)
    (hfirst : ∀ lead behind, before ++ (langName ++ after) = lead ++ (langName ++ behind) →
      before.length ≤ lead.length) (text : List Char) :
    valueBehind apart before text = valueAfter text := by
  refine if_pos ?_
  rcases h with ⟨rfl, hapart⟩ | ⟨c, hc, hblank⟩ | ⟨lead, rfl⟩
  · exact hapart
  · rw [hc]
    exact hblank
  · have hle := hfirst lead (langName ++ after) (List.append_assoc _ _ _)
    rw [List.length_append] at hle
    rw [length_langName] at hle
    omega

/-- Where the name stands apart with an equals sign behind it, a value is read. -/
theorem exists_valueAfter_eq (rest : List Char) (heq : text = before ++ (langName ++ after))
    (hapart : StandsApart apart before) (hvalue : ∃ value, trimStart after = '=' :: value) :
    ∃ lead behind, text = lead ++ (langName ++ behind) ∧
      valueAfter (behind ++ rest) = some (langIn apart (text ++ rest)) := by
  -- on the length, since the search goes on behind the first place of the name
  induction hlength : text.length using Nat.strongRecOn generalizing text before apart with
  | ind n ih =>
    subst hlength
    have hcontains := contains_of_eq_append before langName after
    rw [← heq] at hcontains
    obtain ⟨⟨lead, behind⟩, hcut⟩ := Option.isSome_iff_exists.mp hcontains
    have htext : text = lead ++ (langName ++ behind) := by
      rw [eq_append_of_cutAt? hcut, List.append_assoc]
    rw [langIn_eq, cutAt?_append hcut]
    dsimp only
    cases hbehind : valueBehind apart lead (behind ++ rest) with
    | some value =>
      refine ⟨lead, behind, htext, ?_⟩
      rw [valueBehind] at hbehind
      split at hbehind
      · rw [hbehind, Option.getD_some]
      · cases hbehind
    | none =>
      rcases Nat.eq_or_lt_of_le (length_le_of_cutAt? hcut heq) with hlength | hlt
      · obtain ⟨rfl, hafter⟩ := List.append_inj (htext.symm.trans heq) hlength
        obtain rfl := List.append_cancel_left hafter
        obtain ⟨value, hvalue⟩ := hvalue
        rw [valueBehind_eq hapart fun lead behind hother =>
          length_le_of_cutAt? hcut (htext.trans hother),
          valueAfter_of_eq_cons (trimStart_append_of_eq_cons hvalue rest)] at hbehind
        cases hbehind
      · obtain ⟨between, rfl, rfl⟩ := exists_between (htext.symm.trans heq) hlt
        have hshorter : (between ++ (langName ++ after)).length < text.length := by
          rw [htext]
          simp [langName]
          omega
        obtain ⟨front, tail, hfront, htail⟩ :=
          ih _ hshorter rfl (standsApart_of_append hapart) rfl
        refine ⟨lead ++ (langName ++ front), tail, ?_, htail⟩
        rw [htext, hfront]
        simp

end Finding
end Tsconfig.Source.Component
