import Tsconfig.Discovery.Search
import Tsconfig.Proofs.Text.Pieces

/-! Up to the slash in front of its first segment with a wildcard, a pattern is spelled out: all that
it stands for begins with those characters. -/
namespace Tsconfig
open Text

namespace Utf8Byte

theorem prefix_of_ofChars_prefix {lead path : List Char} (h : ofChars lead <+: ofChars path) :
    lead <+: path := by
  induction lead generalizing path with
  | nil => exact List.nil_prefix
  | cons c lead ih =>
    cases path with
    | nil =>
      have := List.prefix_nil.mp h
      simp [ofChars, ofChar] at this
    | cons d path =>
      rw [ofChars, List.flatMap_cons, ofChars, List.flatMap_cons] at h
      have hhead : c = d := by
        rw [ofChar, ofChar, List.cons_append, List.cons_append, List.cons_prefix_cons] at h
        exact Utf8Byte.lead.inj h.1
      subst hhead
      rw [List.prefix_append_right_inj] at h
      exact List.cons_prefix_cons.mpr ⟨rfl, ih h⟩

theorem ofChars_append (a b : List Char) : ofChars (a ++ b) = ofChars a ++ ofChars b :=
  List.flatMap_append

end Utf8Byte

namespace Glob

/-- Whether a part only stands for bytes that begin with a slash. -/
def takesSlash : GlobToken → Bool
  | .byte b => b = .slash
  | .anyBetween => true
  | .anyBelow => true
  | _ => false

theorem acceptsBytes_takesSlash {part : GlobToken} (h : takesSlash part = true) {parts : Glob}
    {bytes : List Utf8Byte} (haccepts : acceptsBytes (part :: parts) bytes = true) :
    ∃ rest, bytes = .slash :: rest := by
  cases bytes with
  | nil => cases part <;> simp_all [acceptsBytes, takesSlash]
  | cons b rest =>
    refine ⟨rest, congrArg (· :: rest) ?_⟩
    cases part <;> simp_all [acceptsBytes, takesSlash]

theorem acceptsBytes_bytes {lead : List Utf8Byte} {parts : Glob} {bytes : List Utf8Byte}
    (h : acceptsBytes (lead.map .byte ++ parts) bytes = true) :
    ∃ rest, bytes = lead ++ rest ∧ acceptsBytes parts rest = true := by
  induction lead generalizing bytes with
  | nil => exact ⟨bytes, rfl, h⟩
  | cons b lead ih =>
    cases bytes with
    | nil => cases h
    | cons c bytes =>
      rw [List.map_cons, List.cons_append, acceptsBytes, Bool.and_eq_true, decide_eq_true_eq] at h
      obtain ⟨rfl, h⟩ := h
      obtain ⟨rest, rfl, hrest⟩ := ih h
      exact ⟨rest, rfl, hrest⟩

section Tokens
variable {lead : List GlobToken}

/-- The parts so far, last first, when the first of them are `lead` and one that takes a slash. -/
def StartsWith (lead done : List GlobToken) : Prop :=
  ∃ later part, takesSlash part = true ∧ done = later ++ part :: lead

theorem StartsWith.cons {done : List GlobToken} (h : StartsWith lead done) (part : GlobToken) :
    StartsWith lead (part :: done) := by
  obtain ⟨later, first, hslash, rfl⟩ := h
  exact ⟨part :: later, first, hslash, rfl⟩

theorem StartsWith.append {done : List GlobToken} (h : StartsWith lead done)
    (parts : List GlobToken) : StartsWith lead (parts ++ done) := by
  obtain ⟨later, first, hslash, rfl⟩ := h
  exact ⟨parts ++ later, first, hslash, (List.append_assoc _ _ _).symm⟩

private theorem closeStars_cons (part last : GlobToken) (done : List GlobToken) :
    closeStars part (last :: done) = last :: done ∨ closeStars part (last :: done) = part :: done := by
  cases last <;> simp [closeStars]

/-- Stars that take in the slash before them still take a slash. -/
theorem StartsWith.closeStars {done : List GlobToken} (h : StartsWith lead done) {part : GlobToken}
    (hpart : takesSlash part = true) : StartsWith lead (closeStars part done) := by
  obtain ⟨later, first, hslash, rfl⟩ := h
  cases later with
  | nil =>
    rcases closeStars_cons part first lead with heq | heq
    · exact ⟨[], first, hslash, heq⟩
    · exact ⟨[], part, hpart, heq⟩
  | cons last later =>
    rcases closeStars_cons part last (later ++ first :: lead) with heq | heq
    · exact ⟨last :: later, first, hslash, heq⟩
    · exact ⟨part :: later, first, hslash, heq⟩

theorem StartsWith.ne_nil {done : List GlobToken} (h : StartsWith lead done) : done ≠ [] := by
  obtain ⟨later, first, -, rfl⟩ := h
  simp

/-- One step adds parts in front, or closes stars; neither touches the lead. -/
theorem tokens_startsWith {before : Option Char} {done : List GlobToken} {text : List Char}
    (h : StartsWith lead done) :
    ∃ parts, StartsWith lead parts ∧ tokens before done text = parts.reverse := by
  fun_induction tokens before done text
  case case1 done => exact ⟨done, h, rfl⟩
  case case2 => exact absurd rfl h.ne_nil
  case case3 => exact absurd rfl h.ne_nil
  case case4 => exact absurd rfl h.ne_nil
  case case5 => exact ⟨_, h.closeStars rfl, rfl⟩
  case case6 ih => exact ih (h.closeStars rfl)
  case case7 ih => exact ih ((h.cons _).cons _)
  case case8 ih => exact ih ((h.cons _).cons _)
  case case9 ih => exact ih (h.cons _)
  case case10 ih => exact ih (h.cons _)
  case case11 ih => exact ih (h.append _)

theorem tokens_literal {text : List Char} (h : Discovery.hasWildcard text = false)
    (before : Option Char) (done : List GlobToken) (rest : List Char) :
    ∃ last, tokens before done (text ++ rest) =
      tokens last ((Utf8Byte.ofChars text).reverse.map .byte ++ done) rest := by
  induction text generalizing before done with
  | nil => exact ⟨before, rfl⟩
  | cons c text ih =>
    simp only [Discovery.hasWildcard, Bool.or_eq_false_iff, decide_eq_false_iff_not,
      List.mem_cons, not_or] at h
    obtain ⟨⟨hstar, hstars⟩, hmark, hmarks⟩ := h
    have hrest : Discovery.hasWildcard text = false := by simp [Discovery.hasWildcard, hstars, hmarks]
    obtain ⟨last, hlast⟩ := ih hrest (some c) ((Utf8Byte.ofChar c).reverse.map .byte ++ done)
    refine ⟨last, ?_⟩
    rw [List.cons_append, tokens, hlast]
    · rw [Utf8Byte.ofChars, Utf8Byte.ofChars, List.flatMap_cons, List.reverse_append,
        List.map_append, List.append_assoc]
    · exact fun _ heq => absurd heq.symm hstar
    · exact fun heq => absurd heq.symm hstar
    · exact fun heq => absurd heq.symm hmark

theorem ofChars_literal {text : List Char} (h : Discovery.hasWildcard text = false)
    (rest : List Char) :
    ∃ part later, takesSlash part = true ∧
      ofChars (text ++ '/' :: rest) = (Utf8Byte.ofChars text).map .byte ++ part :: later := by
  have hstart : StartsWith ((Utf8Byte.ofChars text).reverse.map .byte ++ [])
      (.byte .slash :: ((Utf8Byte.ofChars text).reverse.map .byte ++ [])) := ⟨[], _, rfl, rfl⟩
  obtain ⟨last, hlast⟩ := tokens_literal h none [] ('/' :: rest)
  obtain ⟨parts, ⟨later, part, hpart, rfl⟩, hparts⟩ := tokens_startsWith hstart
  refine ⟨part, later.reverse, hpart, ?_⟩
  rw [ofChars, hlast, tokens, ← List.singleton_append]
  · refine hparts.trans ?_
    simp
  all_goals simp

end Tokens

/-- A pattern only stands for paths that begin with what it spells out. -/
theorem prefix_of_accepts {text rest path : List Char} (h : Discovery.hasWildcard text = false)
    (haccepts : acceptsChars (ofChars (text ++ '/' :: rest)) path = true) :
    text ++ ['/'] <+: path := by
  obtain ⟨part, later, hpart, hparts⟩ := ofChars_literal h rest
  rw [acceptsChars, hparts, Bool.or_eq_true, decide_eq_true_eq] at haccepts
  rcases haccepts with hany | haccepts
  · have hmem : part ∈ [GlobToken.anyStart] := hany ▸ by simp
    rw [List.mem_singleton] at hmem
    rw [hmem] at hpart
    cases hpart
  · obtain ⟨bytes, hbytes, hrest⟩ := acceptsBytes_bytes haccepts
    obtain ⟨tail, rfl⟩ := acceptsBytes_takesSlash hpart hrest
    refine Utf8Byte.prefix_of_ofChars_prefix ⟨tail, ?_⟩
    rw [Utf8Byte.ofChars_append, hbytes, List.append_assoc]
    rfl

end Glob

namespace Discovery

/-- What a pattern spells out before the slash in front of its first segment with a wildcard, or of
its last segment. -/
def literalLead (pattern : String) : List Char :=
  let segments := splitOn '/' pattern.toList
  let count := (segments.findIdx? hasWildcard).getD (segments.length - 1)
  joinWith '/' (segments.take count)

theorem literalLead_prefix_self (pattern : String) : literalLead pattern <+: pattern.toList := by
  have hjoin (count : Nat) := joinWith_append_prefix '/' ((splitOn '/' pattern.toList).take count)
    ((splitOn '/' pattern.toList).drop count)
  simp only [List.take_append_drop, joinWith_splitOn] at hjoin
  exact hjoin _

theorem hasWildcard_joinWith {pieces : List (List Char)}
    (h : ∀ piece ∈ pieces, hasWildcard piece = false) : hasWildcard (joinWith '/' pieces) = false := by
  have hnot (c : Char) (hc : c = '*' ∨ c = '?') : c ∉ joinWith '/' pieces := by
    intro hmem
    rcases mem_joinWith hmem with rfl | ⟨piece, hpiece, hmem⟩
    · simp at hc
    · have := h piece hpiece
      rcases hc with rfl | rfl <;> simp_all [hasWildcard]
  simp [hasWildcard, hnot]

theorem hasWildcard_take {segments : List (List Char)} {segment : List Char}
    (h : segment ∈ segments.take
      ((segments.findIdx? hasWildcard).getD (segments.length - 1))) :
    hasWildcard segment = false := by
  cases hfind : segments.findIdx? hasWildcard with
  | none =>
    have hall := List.findIdx?_eq_none_iff.mp hfind
    simpa using hall segment (List.mem_of_mem_take h)
  | some count =>
    rw [hfind, Option.getD_some, List.mem_take_iff_getElem] at h
    obtain ⟨i, hi, rfl⟩ := h
    obtain ⟨-, hcount⟩ := List.findIdx?_eq_some_iff_findIdx_eq.mp hfind
    exact List.not_of_lt_findIdx (by omega)

private theorem count_cons {first : List Char} {rest : List (List Char)}
    (hfirst : hasWildcard first = false) (hrest : rest ≠ []) :
    ∃ count < rest.length,
      ((first :: rest).findIdx? hasWildcard).getD ((first :: rest).length - 1) = count + 1 := by
  have hlength := List.length_pos_iff.mpr hrest
  rw [List.findIdx?_cons, hfirst, if_neg Bool.false_ne_true]
  cases hfind : rest.findIdx? hasWildcard with
  | none => exact ⟨rest.length - 1, by omega, by simp; omega⟩
  | some count =>
    obtain ⟨hlt, -⟩ := List.findIdx?_eq_some_iff_findIdx_eq.mp hfind
    exact ⟨count, hlt, rfl⟩

/-- A pattern with a slash behind a first segment that has no wildcard is spelled out up to a
slash. -/
theorem eq_literalLead_append {pattern : String} {first tail : List Char}
    (hpattern : pattern.toList = first ++ '/' :: tail) (hslash : '/' ∉ first)
    (hfirst : hasWildcard first = false) :
    ∃ rest, pattern.toList = literalLead pattern ++ '/' :: rest := by
  have hsegments : splitOn '/' pattern.toList = first :: splitOn '/' tail := by
    rw [hpattern, splitOn_append hslash]
  obtain ⟨count, hlt, hcount⟩ := count_cons hfirst (splitOn_ne_nil '/' tail)
  have hlead : literalLead pattern = joinWith '/' (first :: (splitOn '/' tail).take count) := by
    simp only [literalLead, hsegments, hcount, List.take_succ_cons]
  refine ⟨joinWith '/' ((splitOn '/' tail).drop count), ?_⟩
  have hdrop : (splitOn '/' tail).drop count ≠ [] := by
    simpa using hlt
  rw [hlead, ← joinWith_append (by simp) hdrop, List.cons_append, List.take_append_drop,
    ← hsegments, joinWith_splitOn]

theorem hasWildcard_literalLead (pattern : String) : hasWildcard (literalLead pattern) = false :=
  hasWildcard_joinWith fun _ hpiece => hasWildcard_take hpiece

end Discovery
end Tsconfig
