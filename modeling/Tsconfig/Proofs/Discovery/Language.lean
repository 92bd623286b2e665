import Mathlib.Computability.Language
import Tsconfig.Discovery.Glob

/-! A pattern stands for a language over bytes: the product of what its parts stand for. -/
namespace Tsconfig

/-- What a part of a pattern stands for. -/
def GlobToken.Stands : GlobToken → List Utf8Byte → Prop
  | byte b, bytes => bytes = [b]
  | anyByte, bytes => ∃ b, b ≠ .slash ∧ bytes = [b]
  | anyBytes, bytes => .slash ∉ bytes
  | anyStart, bytes => bytes = [] ∨ ∃ lead, bytes = lead ++ [.slash]
  | anyBetween, bytes => bytes = [.slash] ∨ ∃ inner, bytes = .slash :: (inner ++ [.slash])
  | anyBelow, bytes => ∃ rest, bytes = .slash :: rest

def GlobToken.language (part : GlobToken) : Language Utf8Byte := {bytes | part.Stands bytes}

namespace Glob

def language (glob : Glob) : Language Utf8Byte := (glob.map GlobToken.language).prod

theorem mem_language_nil {bytes : List Utf8Byte} : bytes ∈ language [] ↔ bytes = [] :=
  Language.mem_one bytes

theorem mem_language_cons {part : GlobToken} {parts : Glob} {bytes : List Utf8Byte} :
    bytes ∈ language (part :: parts) ↔
      ∃ first, part.Stands first ∧ ∃ rest ∈ language parts, first ++ rest = bytes := by
  rw [language, List.map_cons, List.prod_cons]
  exact Language.mem_mul

theorem mem_language_append {lead parts : Glob} {bytes : List Utf8Byte} :
    bytes ∈ language (lead ++ parts) ↔
      ∃ first ∈ language lead, ∃ rest ∈ language parts, first ++ rest = bytes := by
  rw [language, List.map_append, List.prod_append]
  exact Language.mem_mul

theorem mem_language_concat {lead : Glob} {part : GlobToken} {bytes : List Utf8Byte} :
    bytes ∈ language (lead ++ [part]) ↔
      ∃ first ∈ language lead, ∃ rest, part.Stands rest ∧ first ++ rest = bytes := by
  have hpart : language [part] = part.language := mul_one _
  rw [mem_language_append, hpart]
  rfl

section Suffixes
variable {bytes rest : List Utf8Byte}

theorem mem_afterSlashes : rest ∈ afterSlashes bytes ↔ ∃ lead, lead ++ .slash :: rest = bytes := by
  induction bytes with
  | nil => simp [afterSlashes]
  | cons b bytes ih =>
    have hcons : (∃ lead, lead ++ .slash :: rest = b :: bytes) ↔
        (b = .slash ∧ rest = bytes) ∨ ∃ lead, lead ++ .slash :: rest = bytes := by
      constructor
      · rintro ⟨_ | ⟨c, lead⟩, h⟩
        · obtain ⟨rfl, rfl⟩ := List.cons.inj h
          exact .inl ⟨rfl, rfl⟩
        · exact .inr ⟨lead, (List.cons.inj h).2⟩
      · rintro (⟨rfl, rfl⟩ | ⟨lead, rfl⟩)
        · exact ⟨[], rfl⟩
        · exact ⟨b :: lead, rfl⟩
    rw [afterSlashes, hcons, ← ih]
    split <;> simp_all

theorem mem_afterBytes :
    rest ∈ afterBytes bytes ↔ ∃ lead, .slash ∉ lead ∧ lead ++ rest = bytes := by
  induction bytes with
  | nil => simp [afterBytes]
  | cons b bytes ih =>
    have hcons : (∃ lead, .slash ∉ lead ∧ lead ++ rest = b :: bytes) ↔
        rest = b :: bytes ∨ b ≠ .slash ∧ ∃ lead, .slash ∉ lead ∧ lead ++ rest = bytes := by
      constructor
      · rintro ⟨_ | ⟨c, lead⟩, hslash, h⟩
        · exact .inl h
        · obtain ⟨rfl, hrest⟩ := List.cons.inj h
          obtain ⟨hne, hlead⟩ := List.ne_and_not_mem_of_not_mem_cons hslash
          exact .inr ⟨Ne.symm hne, lead, hlead, hrest⟩
      · rintro (rfl | ⟨hne, lead, hlead, rfl⟩)
        · exact ⟨[], List.not_mem_nil, rfl⟩
        · exact ⟨b :: lead, List.not_mem_cons_of_ne_of_not_mem (Ne.symm hne) hlead, rfl⟩
    rw [afterBytes, hcons, ← ih]
    split <;> simp_all

theorem mem_tails : rest ∈ tails bytes ↔ ∃ lead, lead ++ rest = bytes := by
  change _ ↔ rest <:+ bytes
  induction bytes with
  | nil => simp [tails]
  | cons b bytes ih => rw [tails, List.mem_cons, ih, List.suffix_cons_iff]

end Suffixes

theorem acceptsBytes_cons {part : GlobToken} {parts : Glob} {bytes : List Utf8Byte} :
    acceptsBytes (part :: parts) bytes = true ↔
      ∃ first, part.Stands first ∧
        ∃ rest, acceptsBytes parts rest = true ∧ first ++ rest = bytes := by
  cases part with
  | byte b => cases bytes <;> simp [acceptsBytes, GlobToken.Stands, and_comm]
  | anyByte => cases bytes <;> simp [acceptsBytes, GlobToken.Stands, and_comm]
  | anyBytes =>
    simp only [acceptsBytes, List.any_eq_true, mem_afterBytes, GlobToken.Stands]
    grind
  | anyStart =>
    simp only [acceptsBytes, List.any_cons, List.any_eq_true, Bool.or_eq_true, mem_afterSlashes]
    constructor
    · rintro (h | ⟨rest, ⟨lead, rfl⟩, h⟩)
      · exact ⟨[], .inl rfl, bytes, h, rfl⟩
      · exact ⟨lead ++ [.slash], .inr ⟨lead, rfl⟩, rest, h, by simp⟩
    · rintro ⟨_, rfl | ⟨lead, rfl⟩, rest, h, rfl⟩
      · exact .inl h
      · exact .inr ⟨rest, ⟨lead, by simp⟩, h⟩
  | anyBetween =>
    cases bytes with
    | nil => simp [acceptsBytes, GlobToken.Stands]
    | cons b bytes =>
      simp only [acceptsBytes, List.any_cons, List.any_eq_true, Bool.or_eq_true, Bool.and_eq_true,
        decide_eq_true_eq, mem_afterSlashes]
      constructor
      · rintro ⟨rfl, h | ⟨rest, ⟨inner, rfl⟩, h⟩⟩
        · exact ⟨[.slash], .inl rfl, bytes, h, rfl⟩
        · exact ⟨.slash :: (inner ++ [.slash]), .inr ⟨inner, rfl⟩, rest, h, by simp⟩
      · rintro ⟨_, rfl | ⟨inner, rfl⟩, rest, h, heq⟩
        · obtain ⟨rfl, rfl⟩ := List.cons.inj heq
          exact ⟨rfl, .inl h⟩
        · obtain ⟨rfl, rfl⟩ := List.cons.inj heq
          exact ⟨rfl, .inr ⟨rest, ⟨inner, by simp⟩, h⟩⟩
  | anyBelow =>
    cases bytes with
    | nil => simp [acceptsBytes, GlobToken.Stands]
    | cons b bytes =>
      simp only [acceptsBytes, List.any_eq_true, Bool.and_eq_true, decide_eq_true_eq, mem_tails]
      constructor
      · rintro ⟨rfl, rest, ⟨lead, rfl⟩, h⟩
        exact ⟨.slash :: lead, ⟨lead, rfl⟩, rest, h, rfl⟩
      · rintro ⟨_, ⟨lead, rfl⟩, rest, h, heq⟩
        obtain ⟨rfl, rfl⟩ := List.cons.inj heq
        exact ⟨rfl, rest, ⟨lead, rfl⟩, h⟩

/-- To accept bytes is to have them in the language. -/
theorem acceptsBytes_iff {glob : Glob} {bytes : List Utf8Byte} :
    acceptsBytes glob bytes = true ↔ bytes ∈ glob.language := by
  induction glob generalizing bytes with
  | nil => rw [acceptsBytes, mem_language_nil, List.isEmpty_iff]
  | cons part parts ih => simp only [acceptsBytes_cons, mem_language_cons, ih]

end Glob
end Tsconfig
