import Mathlib.Data.Nat.Digits.Defs
import Tsconfig.Json.Printer
import Tsconfig.Proofs.Json.Decorated

/-! What is written as compact JSON reads back as the same value. -/
namespace Tsconfig.Json

namespace Number

theorem accumulate_of_le {limit significand : Nat} {digits : List Char}
    (h : Nat.ofDigitChars 10 digits significand ≤ limit) :
    accumulate limit significand digits = (Nat.ofDigitChars 10 digits significand, []) := by
  induction digits generalizing significand with
  | nil => rfl
  | cons d digits ih =>
    rw [Nat.ofDigitChars_cons, Nat.mul_comm] at h ⊢
    have hfits : ¬ limit < significand * 10 + digit d := by
      rw [Nat.ofDigitChars_eq_ofDigitChars_zero] at h
      have hpow : 1 ≤ 10 ^ digits.length := Nat.one_le_pow _ _ (by decide)
      have hle := Nat.le_mul_of_pos_left (significand * 10 + digit d) hpow
      simp only [digit] at hle ⊢
      omega
    rw [accumulate, if_neg hfits]
    exact ih h

theorem toDigits_head {n : Nat} (h : 0 < n) : ∀ c ∈ (Nat.toDigits 10 n).head?, c ≠ '0' := by
  induction n using Nat.strongRecOn with
  | ind n ih =>
    rw [Nat.toDigits_eq_if (by decide)]
    split
    · rename_i hlt
      rintro _ ⟨⟩ hzero
      rw [Nat.digitChar_eq_zero] at hzero
      omega
    · rename_i hge
      intro c hc
      refine ih (n / 10) (by omega) (by omega) c ?_
      cases hdigits : Nat.toDigits 10 (n / 10) with
      | nil => exact absurd hdigits Nat.toDigits_ne_nil
      | cons d digits =>
        rw [hdigits] at hc
        exact hc

/-- Digits as they are written read back as the whole number, in front of the end of a word. -/
theorem readUnsigned_toDigits {negative : Bool} {n : Nat} {rest : List Char}
    (hn : n ≤ maxSignificand) (hrest : WordEnds rest) :
    readUnsigned negative (Nat.toDigits 10 n ++ rest) = .ok (whole negative n, rest) := by
  have hdigits : Digits (Nat.toDigits 10 n) rest := by
    refine Digits.of_wordEnds ?_ hrest
    exact fun c hc => Nat.isDigit_of_mem_toDigits (by decide) (by decide) hc
  by_cases hzero : n = 0
  · subst hzero
    have hno : ¬ rest.head?.any Char.isDigit = true := by
      rw [Option.any_eq_true]
      rintro ⟨c, hc, hdigit⟩
      cases (hdigits.ends c hc).symm.trans hdigit
    rw [Nat.toDigits_zero, List.cons_append, List.nil_append, readUnsigned, if_neg hno,
      afterWhole_of_wordEnds hrest]
  · cases hword : Nat.toDigits 10 n with
    | nil => exact absurd hword Nat.toDigits_ne_nil
    | cons c digits =>
      have hc : c ≠ '0' := by
        apply toDigits_head (Nat.pos_of_ne_zero hzero)
        rw [hword]
        rfl
      have hvalue : Nat.ofDigitChars 10 (c :: digits) 0 = n := by
        rw [← hword, Nat.ofDigitChars_ten_toDigits]
      rw [hword] at hdigits
      rw [readUnsigned_digits hc hdigits, accumulate_of_le (by rw [hvalue]; exact hn), hvalue]
      exact afterWhole_of_wordEnds hrest

end Number

section Strings
variable {chars rest : List Char}

/-- A character is written as it is, by a letter, or as a hexadecimal escape. -/
theorem escapeChar_cases (c : Char) :
    (∃ letter, (letter, c) ∈ letterEscapes ∧ escapeChar c = ['\\', letter]) ∨
    (c.toNat < 0x20 ∧ escapeChar c = ['\\', 'u', '0', '0', Nat.digitChar (c.toNat / 16),
      Nat.digitChar (c.toNat % 16)]) ∨
    (0x20 ≤ c.toNat ∧ c ≠ '"' ∧ c ≠ '\\' ∧ escapeChar c = [c]) := by
  unfold escapeChar
  split
  case h_8 =>
    rename_i hquote hback _ _ _ _ _
    split
    · rename_i hcontrol
      exact .inr (.inl ⟨hcontrol, rfl⟩)
    · rename_i hcontrol
      exact .inr (.inr ⟨Nat.le_of_not_lt hcontrol, hquote, hback, rfl⟩)
  all_goals exact .inl ⟨_, by simp [letterEscapes], rfl⟩

private theorem hexNumber?_control : ∀ n < 0x20,
    hexNumber? '0' '0' (Nat.digitChar (n / 16)) (Nat.digitChar (n % 16)) = some n ∧
      isLowSurrogate n = false ∧ isHighSurrogate n = false := by decide

theorem readString_escapeChar {c : Char} {text : List Char} (h : Gives (readString text) chars rest) :
    Gives (readString (escapeChar c ++ text)) (c :: chars) rest := by
  have hescape {escape : List Char} (hread : Gives (readEscape escape) c text) :
      Gives (readString ('\\' :: escape)) (c :: chars) rest :=
    readString_gives.mpr (.inr (.inl ⟨escape, c, text, chars, rfl, hread, h, rfl⟩))
  obtain ⟨letter, hmem, heq⟩ | ⟨hcontrol, heq⟩ | ⟨hprint, hquote, hback, heq⟩ := escapeChar_cases c
  · rw [heq]
    exact hescape (readEscape_gives.mpr (.inr ⟨letter, rfl, hmem⟩))
  · rw [heq]
    obtain ⟨hhex, hlow, hhigh⟩ := hexNumber?_control _ hcontrol
    have hread : Gives (readUnicode ('0' :: '0' :: Nat.digitChar (c.toNat / 16) ::
        Nat.digitChar (c.toNat % 16) :: text)) c text :=
      readUnicode_gives.mpr (.inl ⟨c.toNat, readHex_gives.mpr ⟨_, _, _, _, rfl, hhex⟩, hlow, hhigh,
        (Char.ofNat_toNat c).symm⟩)
    exact hescape (readEscape_gives.mpr (.inl ⟨_, rfl, hread⟩))
  · rw [heq]
    exact readString_gives.mpr (.inr (.inr ⟨c, text, chars, rfl, hquote, hback, hprint, h, rfl⟩))

theorem readString_quote (text rest : List Char) :
    Gives (readString (text.flatMap escapeChar ++ '"' :: rest)) text rest := by
  induction text with
  | nil => exact readString_gives.mpr (.inl ⟨rfl, rfl⟩)
  | cons c text ih =>
    rw [List.flatMap_cons, List.append_assoc]
    exact readString_escapeChar ih

end Strings

/-- Values that JSON can hold unchanged, in which containers are nested `room` deep at most: integers
are the only numbers, and the names of each object are distinct. -/
inductive Writable : Nat → Value → Prop
  | null {room : Nat} : Writable room .null
  | bool {room : Nat} (b : Bool) : Writable room (.bool b)
  | int {room : Nat} {n : Int} {fits} : Writable room (.num (.int n fits))
  | str {room : Nat} (s : String) : Writable room (.str s)
  | arr {room : Nat} {items : List Value} (hitems : ∀ item ∈ items, Writable room item) :
      Writable (room + 1) (.arr items)
  | obj {room : Nat} {fields : List (String × Value)} (hnames : (fields.map Prod.fst).Nodup)
      (hfields : ∀ field ∈ fields, Writable room field.2) : Writable (room + 1) (.obj fields)

section Values
variable {room : Nat} {rest : List Char}

theorem readValue_int {n : Int} {fits} (hrest : WordEnds rest) :
    Gives (readValue room ((Number.int n fits).toChars ++ rest)) (.num (.int n fits)) rest := by
  cases n with
  | ofNat n =>
    have hn : n ≤ Number.maxSignificand := by
      obtain ⟨-, h⟩ := fits
      have h : (n : Int) < 0x10000000000000000 := h
      rw [Number.maxSignificand]
      omega
    have hread : Number.readUnsigned false (Nat.toDigits 10 n ++ rest) =
        .ok (.int (.ofNat n) fits, rest) := by
      rw [Number.readUnsigned_toDigits hn hrest, Number.whole, if_neg Bool.false_ne_true, dif_pos hn]
      rfl
    rw [Number.toChars]
    cases hword : Nat.toDigits 10 n with
    | nil => exact absurd hword Nat.toDigits_ne_nil
    | cons c digits =>
      have hc : c.isDigit = true := by
        apply Nat.isDigit_of_mem_toDigits (b := 10) (n := n) (by decide) (by decide)
        rw [hword]
        exact List.mem_cons_self
      have hspace := isSpace_eq_false_of_isBlank (isBlank_of_isWordChar (isWordChar_of_isDigit hc))
      rw [hword] at hread
      exact readValue_gives.mpr (.number (skipSpace_cons_token hspace) hc hread)
  | negSucc n =>
    have hn : 0 < n + 1 ∧ n + 1 ≤ 0x8000000000000000 := by
      obtain ⟨h, -⟩ := fits
      have h : (-0x8000000000000000 : Int) ≤ Int.negSucc n := h
      omega
    have hread : Number.readUnsigned true (Nat.toDigits 10 (n + 1) ++ rest) =
        .ok (.int (.negSucc n) fits, rest) := by
      have hmax : n + 1 ≤ Number.maxSignificand := Nat.le_trans hn.2 (by decide)
      rw [Number.readUnsigned_toDigits hmax hrest, Number.whole, if_pos rfl, dif_pos hn]
      rfl
    exact readValue_gives.mpr (.negative (skipSpace_cons_token (by decide)) hread)

private theorem put_of_not_mem {name : String} {value : Value} {fields : List (String × Value)}
    (h : name ∉ fields.map Prod.fst) :
    OrderedMap.put name value fields = fields ++ [(name, value)] := by
  induction fields with
  | nil => rfl
  | cons field fields ih =>
    rw [List.map_cons, List.mem_cons, not_or] at h
    rw [OrderedMap.put, if_neg (Ne.symm h.1), ih h.2]
    rfl

/-- Fields under distinct names stay as they are. -/
theorem collectFields_of_nodup {fields : List (String × Value)} (h : (fields.map Prod.fst).Nodup) :
    collectFields fields = fields := by
  have hfold : ∀ before : List (String × Value), ((before ++ fields).map Prod.fst).Nodup →
      fields.foldl (fun object field => OrderedMap.put field.1 field.2 object) before =
        before ++ fields := by
    clear h
    induction fields with
    | nil => exact fun before _ => (List.append_nil before).symm
    | cons field fields ih =>
      intro before hnodup
      have hnew : field.1 ∉ before.map Prod.fst := by
        rw [List.map_append, List.map_cons, List.nodup_append] at hnodup
        intro hmem
        exact hnodup.2.2 _ hmem _ List.mem_cons_self rfl
      rw [List.foldl_cons, put_of_not_mem hnew, ih _ (by simpa using hnodup), List.append_assoc]
      rfl
  exact hfold [] h

theorem startsItem_of_readValue {text : List Char} {value : Value}
    (h : Gives (readValue room text) value rest) (hrest : WordEnds rest) : StartsItem text := by
  cases hs : skipSpace text with
  | nil => exact absurd hs (skipSpace_ne_nil_of_gives h)
  | cons c next =>
    refine ⟨c, next, hs, ?_⟩
    rintro rfl
    have hopen := (readsToken_of_gives h hrest).closesNext_eq
    rw [closesNext_of_skipSpace hs (by decide)] at hopen
    cases hopen

theorem wordEnds_itemsToChars (items : List Value) (rest : List Char) :
    WordEnds (Value.itemsToChars items ++ rest) := by
  cases items <;> exact wordEnds_cons.mpr (by decide)

theorem wordEnds_fieldsToChars (fields : List (String × Value)) (rest : List Char) :
    WordEnds (Value.fieldsToChars fields ++ rest) := by
  cases fields with
  | nil => exact wordEnds_cons.mpr (by decide)
  | cons field fields => exact wordEnds_cons.mpr (by decide)

/-- The value reads back in front of any text that ends a word. -/
def ReadsBack (room : Nat) (value : Value) : Prop :=
  ∀ rest, WordEnds rest → Gives (readValue room (value.toChars ++ rest)) value rest

theorem readItems_itemsToChars {items : List Value} (h : ∀ item ∈ items, ReadsBack room item)
    (rest : List Char) :
    Gives (readItems (readValue room) (Value.itemsToChars items ++ rest)) items rest := by
  induction items with
  | nil => exact readItems_gives.mpr (.inl ⟨skipSpace_cons_token (by decide), rfl⟩)
  | cons item items ih =>
    have hends := wordEnds_itemsToChars items rest
    have hitem := h item List.mem_cons_self _ hends
    have hothers := ih fun other hother => h other (List.mem_cons_of_mem _ hother)
    rw [← List.append_assoc] at hitem
    exact readItems_gives.mpr (.inr ⟨_, item, _, items, skipSpace_cons_token (by decide),
      startsItem_of_readValue hitem hends, hitem, hothers, rfl⟩)

theorem readField_toChars (name : String) {value : Value} (h : ReadsBack room value)
    (hrest : WordEnds rest) :
    Gives (readField (readValue room)
      (name.toList.flatMap escapeChar ++ '"' :: ':' :: (value.toChars ++ rest))) (name, value) rest :=
  readField_gives.mpr ⟨name.toList, _, _, value, readString_quote _ _,
    skipSpace_cons_token (by decide), h rest hrest, by rw [String.ofList_toList]⟩

private theorem quote_append (name : String) (after : List Char) :
    quote name.toList ++ after = '"' :: (name.toList.flatMap escapeChar ++ '"' :: after) := by
  rw [quote, List.cons_append, List.append_assoc]
  rfl

theorem readFields_fieldsToChars {fields : List (String × Value)}
    (h : ∀ field ∈ fields, ReadsBack room field.2) (rest : List Char) :
    Gives (readFields (readValue room) (Value.fieldsToChars fields ++ rest)) fields rest := by
  induction fields with
  | nil => exact readFields_gives.mpr (.inl ⟨skipSpace_cons_token (by decide), rfl⟩)
  | cons field fields ih =>
    obtain ⟨name, value⟩ := field
    have hends := wordEnds_fieldsToChars fields rest
    have hfield := readField_toChars name (h _ List.mem_cons_self) hends
    have hothers := ih fun other hother => h other (List.mem_cons_of_mem _ hother)
    refine readFields_gives.mpr (.inr ⟨_, _, _, _, fields, skipSpace_cons_token (by decide), ?_,
      hfield, hothers, rfl⟩)
    rw [List.append_eq, List.append_assoc, List.append_assoc, quote_append]
    exact skipSpace_cons_token (by decide)

theorem readObject_toChars {name : String} {value : Value} {fields : List (String × Value)}
    (h : ∀ field ∈ (name, value) :: fields, ReadsBack room field.2) (rest : List Char) :
    Gives (readObject (readValue room) (quote name.toList ++ ':' :: value.toChars ++
      Value.fieldsToChars fields ++ rest)) ((name, value) :: fields) rest := by
  have hends := wordEnds_fieldsToChars fields rest
  have hfield := readField_toChars name (h _ List.mem_cons_self) hends
  have hothers := readFields_fieldsToChars
    (fun other hother => h other (List.mem_cons_of_mem _ hother)) rest
  refine readObject_gives.mpr (.inr ⟨_, _, _, fields, ?_, hfield, hothers, rfl⟩)
  rw [List.append_assoc, List.append_assoc, quote_append]
  exact skipSpace_cons_token (by decide)

private theorem readsBack_str (s : String) : ReadsBack room (.str s) := by
  intro rest _
  rw [Value.toChars, quote_append]
  have hread : ReadsValue room _ (.str (String.ofList s.toList)) rest :=
    .string (skipSpace_cons_token (by decide)) (readString_quote s.toList rest)
  rw [String.ofList_toList] at hread
  exact readValue_gives.mpr hread

private theorem readsBack_arr {items : List Value} (h : ∀ item ∈ items, ReadsBack room item) :
    ReadsBack (room + 1) (.arr items) := by
  intro rest hrest
  cases items with
  | nil =>
    exact readValue_gives.mpr (.list rfl (skipSpace_cons_token (by decide))
      (readList_gives.mpr (.inl ⟨skipSpace_cons_token (by decide), rfl⟩)))
  | cons item items =>
    have hends := wordEnds_itemsToChars items rest
    have hitem := h item List.mem_cons_self _ hends
    have hothers := readItems_itemsToChars
      (fun other hother => h other (List.mem_cons_of_mem _ hother)) rest
    rw [← List.append_assoc] at hitem
    exact readValue_gives.mpr (.list rfl (skipSpace_cons_token (by decide))
      (readList_gives.mpr (.inr ⟨item, _, items, startsItem_of_readValue hitem hends, hitem,
        hothers, rfl⟩)))

-- The reader collects the fields it has read; distinct names come out as they went in.
private theorem readsBack_obj {fields : List (String × Value)}
    (hnames : (fields.map Prod.fst).Nodup) (h : ∀ field ∈ fields, ReadsBack room field.2) :
    ReadsBack (room + 1) (.obj fields) := by
  intro rest hrest
  have hobject {body : List Char} (hread : Gives (readObject (readValue room) body) fields rest) :
      Gives (readValue (room + 1) ('{' :: body)) (.obj fields) rest := by
    have hread := ReadsValue.object rfl (skipSpace_cons_token (by decide)) hread
    rw [collectFields_of_nodup hnames] at hread
    exact readValue_gives.mpr hread
  cases fields with
  | nil => exact hobject (readObject_gives.mpr (.inl ⟨skipSpace_cons_token (by decide), rfl⟩))
  | cons field fields => exact hobject (readObject_toChars h rest)

/-- Written values read back unchanged. -/
theorem readsBack_of_writable {value : Value} (h : Writable room value) : ReadsBack room value := by
  induction h with
  | null =>
    intro rest _
    have hword : (['n', 'u', 'l', 'l'], Value.null) ∈ named := by simp [named]
    exact readValue_gives.mpr (.name hword rfl)
  | bool b =>
    intro rest _
    cases b with
    | true =>
      have hword : (['t', 'r', 'u', 'e'], Value.bool true) ∈ named := by simp [named]
      exact readValue_gives.mpr (.name hword rfl)
    | false =>
      have hword : (['f', 'a', 'l', 's', 'e'], Value.bool false) ∈ named := by simp [named]
      exact readValue_gives.mpr (.name hword rfl)
  | int => exact fun rest hrest => readValue_int hrest
  | str => exact readsBack_str _
  | arr _ ih => exact readsBack_arr ih
  | obj hnames _ ih => exact readsBack_obj hnames ih

/-- The strict reader gives back what was written. -/
theorem parse_toChars {value : Value} (h : Writable maxDepth value) :
    parse value.toChars = .ok value := by
  have hread := readsBack_of_writable h [] (by simp [WordEnds])
  rw [List.append_nil] at hread
  exact parse_eq_ok_iff.mpr ⟨[], hread, rfl⟩

/-- So does the reader of configs: compact text goes through its passes over comments and commas
unchanged, whatever its strings hold. -/
theorem parseObject_compact {fields : Object} (h : Writable maxDepth (.obj fields)) :
    Commented.parseObject (Value.compact (.obj fields)).toList = .ok fields := by
  have hparse := parse_toChars h
  have hstrict := Commented.strict_of_tokens (tokens_of_parse hparse)
  have hopen : ∃ rest, Value.toChars (.obj fields) = '{' :: rest := by
    cases fields with
    | nil => exact ⟨_, rfl⟩
    | cons field fields => exact ⟨_, rfl⟩
  obtain ⟨rest, hrest⟩ := hopen
  have hmark : Commented.dropMark (Value.toChars (.obj fields)) = Value.toChars (.obj fields) := by
    rw [hrest]
    rfl
  have hblank : ¬ (Value.toChars (.obj fields)).all Text.isBlank = true := by
    rw [hrest, List.all_cons]
    have hopen : Text.isBlank '{' = false := by decide
    simp [hopen]
  rw [Value.compact, String.toList_ofList]
  apply Commented.parseObject_eq_ok
  · rw [hmark, hstrict, hparse]
  · rwa [hmark]

/-- Strings that look like comments, trailing commas and closing brackets, control characters, and
the integers at both ends of the range. -/
theorem parseObject_compact_marks :
    Commented.parseObject (Value.compact (.obj [
      ("//", .str "/*,\x7d*/,]\"\\\n\x01"),
      (",\x7d", .arr [.num (.int 18446744073709551615 (by decide)),
        .num (.int (-9223372036854775808) (by decide)), .null, .bool true, .obj [], .arr []])])).toList =
    .ok [
      ("//", .str "/*,\x7d*/,]\"\\\n\x01"),
      (",\x7d", .arr [.num (.int 18446744073709551615 (by decide)),
        .num (.int (-9223372036854775808) (by decide)), .null, .bool true, .obj [], .arr []])] := by
  apply parseObject_compact
  refine .obj (by decide) ?_
  simp only [List.mem_cons, List.not_mem_nil, or_false, forall_eq_or_imp, forall_eq]
  refine ⟨.str _, .arr ?_⟩
  simp only [List.mem_cons, List.not_mem_nil, or_false, forall_eq_or_imp, forall_eq]
  exact ⟨.int, .int, .null, .bool true, .obj (by decide) (by simp), .arr (by simp)⟩

end Values
end Tsconfig.Json
