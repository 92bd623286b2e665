import Mathlib
import Tsconfig.Proofs.Json.Reading

/-! The literals of JSON: strings and numbers use up a beginning of the text, and what follows does
not matter to them, as long as it is clear where the literal ends. -/
namespace Tsconfig.Json
open Text (hexDigit?)

/-- The characters between the quotes of a string: a backslash comes with the character behind it,
and a quote only behind a backslash. -/
inductive LiteralBody : List Char → Prop
  | nil : LiteralBody []
  | plain {c : Char} {rest : List Char} (hquote : c ≠ '"') (hback : c ≠ '\\')
      (h : LiteralBody rest) : LiteralBody (c :: rest)
  | escape {c : Char} {rest : List Char} (h : LiteralBody rest) : LiteralBody ('\\' :: c :: rest)

/-- The quote that ends a string is told by the characters before it. -/
theorem LiteralBody.eq_of_append {body body' rest rest' : List Char} (h : LiteralBody body)
    (h' : LiteralBody body') (heq : body ++ '"' :: rest = body' ++ '"' :: rest') :
    body = body' ∧ rest = rest' := by
  induction h generalizing body' with
  | nil =>
    cases h' with
    | nil => exact ⟨rfl, (List.cons.inj heq).2⟩
    | plain hquote => exact absurd (List.cons.inj heq).1.symm hquote
    | escape => cases heq
  | plain hquote hback _ ih =>
    cases h' with
    | nil => exact absurd (List.cons.inj heq).1 hquote
    | plain _ _ h' =>
      obtain ⟨rfl, hrest⟩ := List.cons.inj heq
      obtain ⟨rfl, rfl⟩ := ih h' hrest
      exact ⟨rfl, rfl⟩
    | escape => exact absurd (List.cons.inj heq).1 hback
  | escape _ ih =>
    cases h' with
    | nil => cases heq
    | plain _ hback => exact absurd (List.cons.inj heq).1.symm hback
    | escape h' =>
      obtain ⟨rfl, hrest⟩ := List.cons.inj (List.cons.inj heq).2
      obtain ⟨rfl, rfl⟩ := ih h' hrest
      exact ⟨rfl, rfl⟩

section Strings
variable {text rest : List Char}

theorem readHex_gives {n : Nat} :
    Gives (readHex text) n rest ↔
      ∃ a b c d, text = a :: b :: c :: d :: rest ∧ hexNumber? a b c d = some n := by
  constructor
  · intro h
    unfold readHex at h
    split at h
    · rename_i a b c d _
      split at h
      · rename_i hn
        cases gives_ok.mp h
        exact ⟨a, b, c, d, rfl, hn⟩
      · cases not_gives_error h
    · cases not_gives_error h
  · rintro ⟨a, b, c, d, rfl, hn⟩
    simp [readHex, hn]

theorem hexDigit?_quote : hexDigit? '"' = none := by decide

theorem hexDigit?_backslash : hexDigit? '\\' = none := by decide

/-- The digits of a hexadecimal escape end no string. -/
theorem LiteralBody.of_hexNumber {a b c d : Char} {n : Nat} {body : List Char}
    (hn : hexNumber? a b c d = some n) (h : LiteralBody body) :
    LiteralBody (a :: b :: c :: d :: body) := by
  have hplain : ∀ {digit : Char} {m : Nat}, hexDigit? digit = some m → digit ≠ '"' ∧ digit ≠ '\\' := by
    intro digit m hm
    constructor
    · rintro rfl
      rw [hexDigit?_quote] at hm
      cases hm
    · rintro rfl
      rw [hexDigit?_backslash] at hm
      cases hm
  simp only [hexNumber?, Option.bind_eq_bind, Option.bind_eq_some_iff] at hn
  obtain ⟨_, ha, _, hb, _, hc, _, hd, -⟩ := hn
  exact .plain (hplain ha).1 (hplain ha).2 (.plain (hplain hb).1 (hplain hb).2
    (.plain (hplain hc).1 (hplain hc).2 (.plain (hplain hd).1 (hplain hd).2 h)))

theorem readUnicode_gives {c : Char} :
    Gives (readUnicode text) c rest ↔
      (∃ n, Gives (readHex text) n rest ∧ isLowSurrogate n = false ∧ isHighSurrogate n = false ∧
        c = Char.ofNat n) ∨
      ∃ high low after, Gives (readHex text) high ('\\' :: 'u' :: after) ∧
        Gives (readHex after) low rest ∧ isLowSurrogate high = false ∧
        isHighSurrogate high = true ∧ isLowSurrogate low = true ∧
        c = Char.ofNat (0x10000 + (high - 0xD800) * 0x400 + (low - 0xDC00)) := by
  rw [readUnicode, gives_bind]
  constructor
  · rintro ⟨high, after, hhigh, h⟩
    dsimp only at h
    split at h
    · cases not_gives_error h
    · rename_i hlow
      split at h
      · rename_i hsurrogate
        split at h
        · obtain ⟨low, rest', hread, h⟩ := gives_bind.mp h
          dsimp only at h
          split at h
          · rename_i hlow'
            simp only [gives_pure, Prod.mk.injEq] at h
            obtain ⟨hc, rfl⟩ := h
            exact .inr ⟨high, low, _, hhigh, hread, by simpa using hlow, hsurrogate, hlow', hc.symm⟩
          · cases not_gives_error h
        all_goals cases not_gives_error h
      · rename_i hsurrogate
        cases gives_pure.mp h
        exact .inl ⟨high, hhigh, by simpa using hlow, by simpa using hsurrogate, rfl⟩
  · rintro (⟨n, hread, hlow, hhigh, rfl⟩ | ⟨high, low, after, hread, hnext, hno, hhigh, hlow, hc⟩)
    · exact ⟨n, rest, hread, by simp [hlow, hhigh]⟩
    · refine ⟨high, _, hread, ?_⟩
      simp only [hno, hhigh, Bool.false_eq_true, if_false, if_true]
      refine gives_bind.mpr ⟨low, rest, hnext, ?_⟩
      simp only [hlow, if_true, gives_pure, hc]

/-- The escapes by one letter, with the characters they stand for. -/
def letterEscapes : List (Char × Char) :=
  [('"', '"'), ('\\', '\\'), ('/', '/'), ('b', '\x08'), ('f', '\x0c'), ('n', '\n'), ('r', '\r'),
    ('t', '\t')]

theorem readEscape_gives {c : Char} :
    Gives (readEscape text) c rest ↔
      (∃ digits, text = 'u' :: digits ∧ Gives (readUnicode digits) c rest) ∨
      ∃ letter, text = letter :: rest ∧ (letter, c) ∈ letterEscapes := by
  constructor
  · intro h
    unfold readEscape at h
    split at h
    · cases not_gives_error h
    · obtain ⟨c', after, hread, h⟩ := gives_bind.mp h
      cases gives_pure.mp h
      exact .inl ⟨_, rfl, hread⟩
    · dsimp only at h
      right
      split at h
      case h_9 => cases not_gives_error h
      all_goals
        cases gives_ok.mp h
        exact ⟨_, rfl, by simp [letterEscapes]⟩
  · rintro (⟨digits, rfl, hread⟩ | ⟨letter, rfl, hletter⟩)
    · exact gives_bind.mpr ⟨c, rest, hread, gives_pure.mpr rfl⟩
    · simp only [letterEscapes, List.mem_cons, List.not_mem_nil, or_false, Prod.mk.injEq] at hletter
      rcases hletter with ⟨rfl, rfl⟩ | ⟨rfl, rfl⟩ | ⟨rfl, rfl⟩ | ⟨rfl, rfl⟩ | ⟨rfl, rfl⟩ |
        ⟨rfl, rfl⟩ | ⟨rfl, rfl⟩ | ⟨rfl, rfl⟩
      all_goals exact gives_ok.mpr rfl

theorem readString_gives {chars : List Char} :
    Gives (readString text) chars rest ↔
      text = '"' :: rest ∧ chars = [] ∨
      (∃ escape c after others, text = '\\' :: escape ∧ Gives (readEscape escape) c after ∧
        Gives (readString after) others rest ∧ chars = c :: others) ∨
      ∃ c after others, text = c :: after ∧ c ≠ '"' ∧ c ≠ '\\' ∧ 0x20 ≤ c.toNat ∧
        Gives (readString after) others rest ∧ chars = c :: others := by
  rw [readString.eq_def]
  split
  · simp
  · rename_i after
    simp [eq_comm, and_comm]
  · rename_i escape
    constructor
    · intro h
      obtain ⟨c, after, hescape, h⟩ := gives_bind.mp h
      obtain ⟨others, _, hread, h⟩ := gives_bind.mp h
      cases gives_pure.mp h
      exact .inr (.inl ⟨escape, c, after, others, rfl, hescape, hread, rfl⟩)
    · rintro (⟨heq, -⟩ | ⟨_, c, after, others, heq, hescape, hread, rfl⟩ |
        ⟨c, after, others, heq, -, hback, -⟩)
      · cases heq
      · cases heq
        exact gives_bind.mpr ⟨c, after, hescape,
          gives_bind.mpr ⟨others, rest, hread, gives_pure.mpr rfl⟩⟩
      · exact absurd (List.cons.inj heq).1.symm hback
  · rename_i c after hquote hback
    constructor
    · intro h
      split at h
      · cases not_gives_error h
      · rename_i hcontrol
        obtain ⟨others, _, hread, h⟩ := gives_bind.mp h
        cases gives_pure.mp h
        exact .inr (.inr ⟨c, after, others, rfl, hquote, hback, Nat.le_of_not_lt hcontrol, hread, rfl⟩)
    · rintro (⟨heq, -⟩ | ⟨_, _, _, _, heq, -⟩ | ⟨_, _, others, heq, -, -, hcontrol, hread, rfl⟩)
      · exact absurd (List.cons.inj heq).1 hquote
      · exact absurd (List.cons.inj heq).1 hback
      · cases heq
        rw [if_neg (Nat.not_lt_of_le hcontrol)]
        exact gives_bind.mpr ⟨others, rest, hread, gives_pure.mpr rfl⟩

/-- The reader gives the value for `used`, whatever follows. -/
def Uses {α : Type} (read : (text : List Char) → Read α text) (used : List Char) (value : α) : Prop :=
  ∀ rest, Gives (read (used ++ rest)) value rest

theorem exists_uses_readUnicode {c : Char} (h : Gives (readUnicode text) c rest) :
    ∃ used, text = used ++ rest ∧ (∀ body, LiteralBody body → LiteralBody (used ++ body)) ∧
      Uses readUnicode used c := by
  rcases readUnicode_gives.mp h with
    ⟨n, hread, hlow, hhigh, hc⟩ | ⟨high, low, after, hread, hread', hno, hhigh, hlow, hc⟩
  · obtain ⟨a, b, c', d, rfl, hn⟩ := readHex_gives.mp hread
    refine ⟨[a, b, c', d], rfl, fun body hbody => hbody.of_hexNumber hn, fun rest => ?_⟩
    exact readUnicode_gives.mpr (.inl
      ⟨n, readHex_gives.mpr ⟨a, b, c', d, rfl, hn⟩, hlow, hhigh, hc⟩)
  · obtain ⟨a, b, c', d, rfl, hn⟩ := readHex_gives.mp hread
    obtain ⟨a', b', c'', d', rfl, hn'⟩ := readHex_gives.mp hread'
    refine ⟨[a, b, c', d, '\\', 'u', a', b', c'', d'], rfl, ?_, fun rest => ?_⟩
    · intro body hbody
      exact (LiteralBody.escape (hbody.of_hexNumber hn')).of_hexNumber hn
    · exact readUnicode_gives.mpr (.inr ⟨high, low, a' :: b' :: c'' :: d' :: rest,
        readHex_gives.mpr ⟨a, b, c', d, rfl, hn⟩, readHex_gives.mpr ⟨a', b', c'', d', rfl, hn'⟩,
        hno, hhigh, hlow, hc⟩)

theorem exists_uses_readEscape {c : Char} (h : Gives (readEscape text) c rest) :
    ∃ used, text = used ++ rest ∧
      (∀ body, LiteralBody body → LiteralBody ('\\' :: (used ++ body))) ∧
      Uses readEscape used c := by
  rcases readEscape_gives.mp h with ⟨digits, rfl, hread⟩ | ⟨letter, rfl, hletter⟩
  · obtain ⟨used, rfl, hbody, huses⟩ := exists_uses_readUnicode hread
    refine ⟨'u' :: used, rfl, fun body h => .escape (hbody body h), fun rest => ?_⟩
    exact readEscape_gives.mpr (.inl ⟨used ++ rest, rfl, huses rest⟩)
  · refine ⟨[letter], rfl, fun body h => .escape h, fun rest => ?_⟩
    exact readEscape_gives.mpr (.inr ⟨letter, rfl, hletter⟩)

/-- A string literal is used up to its closing quote. -/
theorem exists_uses_readString {chars : List Char} (h : Gives (readString text) chars rest) :
    ∃ body, LiteralBody body ∧ text = body ++ '"' :: rest ∧
      ∀ rest', Gives (readString (body ++ '"' :: rest')) chars rest' := by
  induction hlength : text.length using Nat.strongRecOn generalizing text chars with
  | ind n ih =>
    rcases readString_gives.mp h with ⟨rfl, rfl⟩ |
      ⟨escape, c, after, others, rfl, hescape, hread, rfl⟩ |
      ⟨c, after, others, rfl, hquote, hback, hcontrol, hread, rfl⟩
    · exact ⟨[], .nil, rfl, fun rest' => readString_gives.mpr (.inl ⟨rfl, rfl⟩)⟩
    · obtain ⟨used, rfl, hbody, huses⟩ := exists_uses_readEscape hescape
      obtain ⟨body, hrest, rfl, huses'⟩ := ih after.length (by simp at hlength; omega) hread rfl
      refine ⟨'\\' :: (used ++ body), hbody body hrest, by simp, fun rest' => ?_⟩
      refine readString_gives.mpr (.inr (.inl ⟨used ++ (body ++ '"' :: rest'), c, _, others, ?_,
        huses _, huses' rest', rfl⟩))
      simp
    · obtain ⟨body, hrest, rfl, huses⟩ := ih after.length (by simp at hlength; omega) hread rfl
      refine ⟨c :: body, .plain hquote hback hrest, rfl, fun rest' => ?_⟩
      exact readString_gives.mpr (.inr (.inr ⟨c, body ++ '"' :: rest', others, rfl, hquote, hback,
        hcontrol, huses rest', rfl⟩))

end Strings
end Tsconfig.Json
