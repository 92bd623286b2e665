import Tsconfig.Proofs.Discovery.Language
import Tsconfig.Proofs.Discovery.Literal

/-! What lies below a path that a pattern stands for. With two stars below it, a pattern also stands
for all that lies below: the stars make one more part, or the pattern already ends in them. -/
namespace Tsconfig
open Text

namespace Utf8Byte

theorem ofChars_slash (text : List Char) : ofChars ('/' :: text) = slash :: ofChars text := rfl

theorem slash_notMem_ofChars {text : List Char} (h : '/' ∉ text) : slash ∉ ofChars text := by
  intro hmem
  obtain ⟨c, hc, hbyte⟩ := List.mem_flatMap.mp hmem
  rcases List.mem_cons.mp hbyte with heq | hbyte
  · exact h (lead.inj heq ▸ hc)
  · cases List.eq_of_mem_replicate hbyte

end Utf8Byte

namespace Glob

section Language
variable {lead : Glob} {bytes : List Utf8Byte}

theorem mem_language_anyBelow (h : bytes ∈ language (lead ++ [.anyBelow])) (more : List Utf8Byte) :
    bytes ++ more ∈ language (lead ++ [.anyBelow]) := by
  obtain ⟨first, hfirst, _, ⟨rest, rfl⟩, rfl⟩ := mem_language_concat.mp h
  exact mem_language_concat.mpr ⟨first, hfirst, .slash :: (rest ++ more), ⟨_, rfl⟩, by simp⟩

theorem mem_language_slash (h : bytes ∈ lead.language) (more : List Utf8Byte) :
    bytes ++ .slash :: more ∈ language (lead ++ [.anyBelow]) :=
  mem_language_concat.mpr ⟨bytes, h, .slash :: more, ⟨more, rfl⟩, rfl⟩

end Language

section Below

/-- The parts so far, last first, with any segments at the start only where nothing else is. -/
def StartsOnce (done : List GlobToken) : Prop := ∀ rest, done = .anyStart :: rest → rest = []

/-- Parts to which two stars below a slash add nothing. -/
def IsBottomless (glob : Glob) : Prop := glob = [.anyStart] ∨ ∃ lead, glob = lead ++ [.anyBelow]

theorem StartsOnce.start : StartsOnce [.anyStart] := fun _ heq => (List.cons.inj heq).2.symm

theorem StartsOnce.cons {part : GlobToken} (h : part ≠ .anyStart) (done : List GlobToken) :
    StartsOnce (part :: done) := fun _ heq => absurd (List.cons.inj heq).1 h

theorem StartsOnce.closeStars {part : GlobToken} {done : List GlobToken} (h : StartsOnce done)
    (hpart : part ≠ .anyStart) : StartsOnce (closeStars part done) := by
  cases done with
  | nil => exact .cons hpart []
  | cons last done =>
    cases last
    case anyStart => exact h
    case anyBelow => exact .cons (by decide) done
    all_goals exact .cons hpart done

/-- The last byte of a character is a slash only if the character is one. -/
theorem exists_last_byte (c : Char) (done : List GlobToken) :
    ∃ b more, (Utf8Byte.ofChar c).reverse.map .byte ++ done = .byte b :: more ∧
      (b = .slash → c = '/') := by
  rw [Utf8Byte.ofChar, List.reverse_cons, List.map_append, List.append_assoc,
    List.reverse_replicate]
  cases c.utf8Size - 1 with
  | zero => exact ⟨.lead c, done, rfl, Utf8Byte.lead.inj⟩
  | succ n => exact ⟨.continuation, _, rfl, fun heq => absurd heq (by decide)⟩

theorem StartsOnce.bytes {c : Char} {done : List GlobToken} :
    StartsOnce ((Utf8Byte.ofChar c).reverse.map .byte ++ done) := by
  obtain ⟨b, more, heq, -⟩ := exists_last_byte c done
  rw [heq]
  exact .cons (by simp) more

theorem closeStars_closeStars {done : List GlobToken} (h : done ≠ []) :
    closeStars .anyBelow (closeStars .anyBetween done) = closeStars .anyBelow done := by
  cases done with
  | nil => exact absurd rfl h
  | cons last done => cases last <;> rfl

theorem isBottomless_closeStars {done : List GlobToken} (h : StartsOnce done) (hne : done ≠ []) :
    IsBottomless (closeStars .anyBelow done).reverse := by
  cases done with
  | nil => exact absurd rfl hne
  | cons last done =>
    cases last
    case anyStart =>
      obtain rfl := h done rfl
      exact .inl rfl
    all_goals exact .inr ⟨done.reverse, List.reverse_cons⟩

theorem tokens_slash (before : Option Char) (done : List GlobToken) (rest : List Char) :
    tokens before done ('/' :: rest) = tokens (some '/') (.byte .slash :: done) rest := by
  rw [tokens] <;> simp
  rfl

section Stars
variable {before : Option Char} {done : List GlobToken} {rest : List Char}

theorem tokens_stars_slash (h : done ≠ []) :
    tokens (some '/') done ('*' :: '*' :: '/' :: rest) =
      tokens (some '/') (closeStars .anyBetween done) rest := by
  rw [tokens, if_neg h, if_pos rfl]

/-- Stars that are glued to something after them, or before them, are no segment of their own. -/
theorem tokens_stars_glued
    (h : (done ≠ [] ∧ before ≠ some '/') ∨ ∃ c, c ≠ '/' ∧ rest.head? = some c) :
    tokens before done ('*' :: '*' :: rest) =
      tokens (some '*') (.anyBytes :: .anyBytes :: done) rest := by
  rcases h with ⟨hne, hbefore⟩ | ⟨c, hc, hhead⟩
  · conv_lhs => unfold tokens
    exact (if_neg hne).trans (if_neg hbefore)
  · obtain ⟨rest, rfl⟩ := List.head?_eq_some_iff.mp hhead
    rw [tokens]
    · rw [ite_self, ite_self]
    · simp
    · exact fun _ heq => hc (List.cons.inj heq).1

theorem head_of_glued (hnil : rest = [] → False) (hslash : ∀ more, rest = '/' :: more → False)
    (more : List Char) : ∃ c, c ≠ '/' ∧ (rest ++ more).head? = some c := by
  cases rest with
  | nil => exact (hnil rfl).elim
  | cons c rest => exact ⟨c, fun heq => hslash rest (heq ▸ rfl), rfl⟩

end Stars

/-- Two stars below a pattern stand for one more part, unless the pattern is bottomless already. -/
theorem tokens_below {before : Option Char} {done : List GlobToken} (text : List Char)
    (h : StartsOnce done) :
    tokens before done (text ++ ['/', '*', '*']) = tokens before done text ++ [.anyBelow] ∨
      tokens before done (text ++ ['/', '*', '*']) = tokens before done text ∧
        IsBottomless (tokens before done text) := by
  fun_induction tokens before done text
  case case1 before done =>
    refine .inl ?_
    rw [List.nil_append, tokens_slash]
    simp [tokens, closeStars]
  case case2 => exact .inr ⟨rfl, .inl rfl⟩
  case case3 ih => exact ih .start
  case case4 hnil hslash _ ih | case7 hnil hslash ih =>
    have hhead := head_of_glued hnil hslash ['/', '*', '*']
    rw [List.cons_append, List.cons_append, tokens_stars_glued (.inr hhead)]
    exact ih (.cons (by decide) _)
  -- The text ends in two stars of its own: with two more below, they close as one part.
  case case5 done hne _ =>
    refine .inr ⟨?_, isBottomless_closeStars h hne⟩
    have hclosed : closeStars .anyBetween done ≠ [] := by
      cases done with
      | nil => exact absurd rfl hne
      | cons last done => cases last <;> simp [closeStars]
    change tokens (some '/') done ('*' :: '*' :: '/' :: ['*', '*']) = _
    rw [tokens_stars_slash hne, tokens, if_neg hclosed, if_pos rfl, closeStars_closeStars hne]
  case case6 hne rest _ ih =>
    rw [List.cons_append, List.cons_append, List.cons_append, tokens_stars_slash hne]
    exact ih (h.closeStars (by decide))
  case case8 hne hbefore ih =>
    rw [List.cons_append, List.cons_append, tokens_stars_glued (.inl ⟨hne, hbefore⟩)]
    exact ih (.cons (by decide) _)
  case case9 rest hstars ih =>
    have hrest (more : List Char) (heq : rest ++ ['/', '*', '*'] = '*' :: more) : False := by
      cases rest with
      | nil => simp at heq
      | cons c rest => exact hstars rest (by simp_all)
    rw [List.cons_append, tokens]
    · exact ih (.cons (by decide) _)
    · exact hrest
  case case10 ih => exact ih (.cons (by decide) _)
  case case11 hstars hstar hmark ih =>
    rw [List.cons_append, tokens]
    · exact ih .bytes
    · exact fun _ heq _ => hstar heq
    · exact hstar
    · exact hmark

/-- The parts so far, last first, when what they stand for goes on at its end, up to a slash. -/
def IsOpen : List GlobToken → Prop
  | .byte b :: _ => b ≠ .slash
  | .anyBetween :: _ => False
  | .anyStart :: done => done = []
  | _ => True

theorem isOpen_closeStars {done : List GlobToken} (h : StartsOnce done) :
    IsOpen (closeStars .anyBelow done) := by
  cases done with
  | nil => trivial
  | cons last done =>
    cases last
    case anyStart => exact h done rfl
    all_goals trivial

theorem isOpen_bytes {c : Char} (h : c ≠ '/') (done : List GlobToken) :
    IsOpen ((Utf8Byte.ofChar c).reverse.map .byte ++ done) := by
  obtain ⟨b, more, heq, hslash⟩ := exists_last_byte c done
  rw [heq]
  exact fun hb => h (hslash hb)

/-- A pattern without a slash at its end goes on at its end. -/
theorem isOpen_tokens {before : Option Char} {done : List GlobToken} {text : List Char}
    (h : StartsOnce done) (hslash : ¬ ['/'] <:+ text) (hnil : text = [] → IsOpen done) :
    IsOpen (tokens before done text).reverse := by
  have hrest {c : Char} {rest : List Char} (hcons : ¬ ['/'] <:+ c :: rest) : ¬ ['/'] <:+ rest :=
    fun hsuffix => hcons (hsuffix.trans (List.suffix_cons c rest))
  fun_induction tokens before done text
  case case1 done => exact (List.reverse_reverse done).symm ▸ hnil rfl
  case case2 => rfl
  case case3 ih =>
    exact ih .start (hrest (hrest (hrest hslash))) fun _ => rfl
  case case4 ih | case7 ih | case8 ih =>
    exact ih (.cons (by decide) _) (hrest (hrest hslash)) fun _ => trivial
  case case5 => exact (List.reverse_reverse _).symm ▸ isOpen_closeStars h
  case case6 rest _ ih =>
    refine ih (h.closeStars (by decide)) (hrest (hrest (hrest hslash))) ?_
    rintro rfl
    -- The text would end in the slash after its stars.
    exact absurd (by simp) (hrest (hrest hslash))
  case case9 ih | case10 ih => exact ih (.cons (by decide) _) (hrest hslash) fun _ => trivial
  case case11 done c rest _ _ _ ih =>
    refine ih .bytes (hrest hslash) ?_
    rintro rfl
    refine isOpen_bytes ?_ done
    rintro rfl
    exact hslash (List.suffix_refl _)

theorem mem_language_open {done : List GlobToken} (hopen : IsOpen done) (hne : done ≠ [.anyStart])
    {bytes segment : List Utf8Byte} (hsegment : .slash ∉ segment)
    (h : bytes ++ [.slash] ∈ language done.reverse) :
    bytes ++ .slash :: segment ∈ language done.reverse := by
  cases done with
  | nil => exact absurd (mem_language_nil.mp h) (by simp)
  | cons last done =>
    rw [List.reverse_cons] at h ⊢
    obtain ⟨first, hfirst, rest, hstands, heq⟩ := mem_language_concat.mp h
    cases last with
    | byte b =>
      obtain rfl : rest = [b] := hstands
      exact absurd (List.singleton_inj.mp (List.append_inj_right' heq rfl)) hopen
    | anyByte =>
      obtain ⟨b, hb, rfl⟩ := hstands
      exact absurd (List.singleton_inj.mp (List.append_inj_right' heq rfl)) hb
    | anyBytes =>
      obtain rfl : rest = [] := by
        rcases List.eq_nil_or_concat rest with hnil | ⟨inner, b, rfl⟩
        · exact hnil
        · rw [List.concat_eq_append] at heq hstands
          rw [← List.append_assoc] at heq
          have hb : b = .slash := List.singleton_inj.mp (List.append_inj_right' heq rfl)
          exact absurd (by simp [hb]) hstands
      rw [List.append_nil] at heq
      exact mem_language_concat.mpr ⟨_, heq ▸ hfirst, segment, hsegment, by simp⟩
    | anyStart => exact absurd (congrArg _ hopen) hne
    | anyBetween => exact hopen.elim
    | anyBelow => exact List.append_cons bytes .slash segment ▸ mem_language_anyBelow h segment

end Below

theorem acceptsChars_iff {glob : Glob} {path : List Char} :
    acceptsChars glob path = true ↔
      glob = [.anyStart] ∨ Utf8Byte.ofChars path ∈ glob.language := by
  rw [acceptsChars, Bool.or_eq_true, decide_eq_true_eq, acceptsBytes_iff]

theorem acceptsChars_append {glob : Glob} (hbottomless : IsBottomless glob) {dir : List Char}
    (h : acceptsChars glob dir = true) (more : List Char) :
    acceptsChars glob (dir ++ more) = true := by
  rcases hbottomless with hall | ⟨lead, rfl⟩
  · exact acceptsChars_iff.mpr (.inl hall)
  · rcases acceptsChars_iff.mp h with hall | hmem
    · exact acceptsChars_iff.mpr (.inl hall)
    · refine acceptsChars_iff.mpr (.inr ?_)
      rw [Utf8Byte.ofChars_append]
      exact mem_language_anyBelow hmem _

section Covers
variable {text dir : List Char}

/-- Whether a pattern stands for a path, or does so with two stars below it. -/
def Covers (text path : List Char) : Prop :=
  acceptsChars (ofChars text) path = true ∨
    acceptsChars (ofChars (text ++ ['/', '*', '*'])) path = true

theorem ofChars_below (text : List Char) :
    ofChars (text ++ ['/', '*', '*']) = ofChars text ++ [.anyBelow] ∨
      ofChars (text ++ ['/', '*', '*']) = ofChars text ∧ IsBottomless (ofChars text) :=
  tokens_below text nofun

theorem isBottomless_below (text : List Char) :
    IsBottomless (ofChars (text ++ ['/', '*', '*'])) := by
  rcases ofChars_below text with heq | ⟨heq, hbottomless⟩
  · exact .inr ⟨_, heq⟩
  · rwa [heq]

theorem Covers.below (h : Covers text dir) (more : List Char) :
    Covers text (dir ++ '/' :: more) := by
  rcases h with h | h
  · rcases ofChars_below text with heq | ⟨-, hbottomless⟩
    · rcases acceptsChars_iff.mp h with hall | hmem
      · exact .inl (acceptsChars_iff.mpr (.inl hall))
      · refine .inr (acceptsChars_iff.mpr (.inr ?_))
        rw [heq, Utf8Byte.ofChars_append, Utf8Byte.ofChars_slash]
        exact mem_language_slash hmem _
    · exact .inl (acceptsChars_append hbottomless h _)
  · exact .inr (acceptsChars_append (isBottomless_below text) h _)

variable (hslash : ¬ ['/'] <:+ text)
include hslash

theorem acceptsChars_segment {segment : List Char} (hnone : '/' ∉ segment)
    (h : acceptsChars (ofChars text) (dir ++ ['/']) = true) :
    acceptsChars (ofChars text) (dir ++ '/' :: segment) = true := by
  by_cases hall : ofChars text = [.anyStart]
  · exact acceptsChars_iff.mpr (.inl hall)
  have hopen : IsOpen (ofChars text).reverse := isOpen_tokens nofun hslash fun _ => trivial
  have hmem := (acceptsChars_iff.mp h).resolve_left hall
  refine acceptsChars_iff.mpr (.inr ?_)
  rw [Utf8Byte.ofChars_append, ← List.reverse_reverse (ofChars text)] at hmem ⊢
  refine mem_language_open hopen ?_ (Utf8Byte.slash_notMem_ofChars hnone) hmem
  exact fun hstart => hall (List.reverse_eq_cons_iff.mp hstart)

/-- A path with a slash at its end is a directory too. What it is in front of ends in the segment
that begins there, or lies below that. -/
theorem Covers.append (h : Covers text (dir ++ ['/'])) (more : List Char) :
    Covers text (dir ++ '/' :: more) := by
  rcases h with h | h
  · by_cases hmore : '/' ∈ more
    · obtain ⟨segment, rest, rfl, hnone⟩ := List.eq_append_cons_of_mem hmore
      have hsegment : Covers text (dir ++ '/' :: segment) :=
        .inl (acceptsChars_segment hslash hnone h)
      rw [← List.cons_append, ← List.append_assoc]
      exact hsegment.below rest
    · exact .inl (acceptsChars_segment hslash hmore h)
  · rw [List.append_cons]
    exact .inr (acceptsChars_append (isBottomless_below text) h more)

end Covers
end Glob
end Tsconfig
