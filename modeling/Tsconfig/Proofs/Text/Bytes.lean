import Tsconfig.Json.Issue
import Tsconfig.Proofs.Text.Trimmed
import Tsconfig.Text.Bytes

/-!
Looking for a word of ASCII in the bytes of a text, whatever the case of its letters. Where it is found no
character is cut in two.
-/
namespace Tsconfig.Text
open Json (utf8)

section Sizes

theorem byteSize_append (lead rest : List Char) :
    byteSize (lead ++ rest) = byteSize lead + byteSize rest := by
  induction lead with
  | nil => simp [byteSize]
  | cons c lead ih => rw [List.cons_append, byteSize, byteSize, ih, Nat.add_assoc]

theorem length_utf8 (text : List Char) : (utf8 text).length = byteSize text := by
  induction text with
  | nil => rfl
  | cons c text ih =>
    rw [utf8, List.flatMap_cons, List.length_append, String.length_utf8EncodeChar, byteSize, ← ih, utf8]

theorem drop_utf8 (lead rest : List Char) : (utf8 (lead ++ rest)).drop (byteSize lead) = utf8 rest := by
  rw [utf8, List.flatMap_append, ← length_utf8]
  exact List.drop_left

theorem utf8_ne_nil {text : List Char} (h : text ≠ []) : utf8 text ≠ [] := by
  obtain ⟨c, rest, rfl⟩ := List.exists_cons_of_ne_nil h
  rw [← List.length_pos_iff, length_utf8, byteSize]
  exact Nat.add_pos_left c.utf8Size_pos _

theorem byteSize_pos {text : List Char} (h : text ≠ []) : 0 < byteSize text := by
  rw [← length_utf8]
  exact List.length_pos_iff.mpr (utf8_ne_nil h)

/-- A place from the start of a part of a text on, but before its end, cuts that part. -/
theorem exists_cut {lead body rest front behind : List Char} (h : lead ++ (body ++ rest) = front ++ behind)
    (hstart : byteSize lead ≤ byteSize front) (hstop : byteSize front < byteSize (lead ++ body)) :
    ∃ before after, body = before ++ after ∧ after ≠ [] ∧ behind = after ++ rest := by
  obtain ⟨before, hfront, hbefore⟩ : ∃ before, front = lead ++ before ∧ body ++ rest = before ++ behind := by
    rcases List.append_eq_append_iff.mp h with ⟨before, hfront, hbehind⟩ | ⟨more, hlead, hbehind⟩
    · exact ⟨before, hfront, hbehind⟩
    · have hsize := byteSize_append front more
      rw [← hlead] at hsize
      obtain rfl : more = [] := Classical.byContradiction fun hne => by
        have hpos := byteSize_pos hne
        omega
      exact ⟨[], by rw [hlead, List.append_nil, List.append_nil], hbehind.symm⟩
  rw [hfront, byteSize_append, byteSize_append] at hstop
  rcases List.append_eq_append_iff.mp hbefore with ⟨more, rfl, hrest⟩ | ⟨after, rfl, hbehind⟩
  · rw [byteSize_append] at hstop
    omega
  · refine ⟨before, after, rfl, ?_, hbehind⟩
    rintro rfl
    rw [List.append_nil] at hstop
    omega

end Sizes

/-- A byte with the letters of ASCII in lower case. -/
def lowerByte (byte : UInt8) : UInt8 := if 65 ≤ byte ∧ byte ≤ 90 then byte + 32 else byte

/-- Whether a word stands at a place, whatever the case of the letters of ASCII. -/
def matchesAt (word bytes : List UInt8) (place : Nat) : Bool :=
  ((bytes.drop place).take word.length).map lowerByte = word.map lowerByte

/-- The first place from `start` on where a word stands. -/
def findBytes? (word bytes : List UInt8) (start : Nat) : Option Nat :=
  if word.length ≤ bytes.length then
    (List.range' start (bytes.length - word.length + 1 - start)).find? (matchesAt word bytes)
  else none

section Places
variable {word bytes : List UInt8} {start place : Nat}

theorem le_of_matchesAt (hword : word ≠ []) (h : matchesAt word bytes place = true) :
    place + word.length ≤ bytes.length := by
  have hlength := congrArg List.length (of_decide_eq_true h)
  have hpositive := List.length_pos_iff.mpr hword
  rw [List.length_map, List.length_map, List.length_take, List.length_drop] at hlength
  omega

theorem findBytes?_eq_some_iff (hword : word ≠ []) : findBytes? word bytes start = some place ↔
    start ≤ place ∧ matchesAt word bytes place = true ∧
      ∀ other, start ≤ other → other < place → matchesAt word bytes other = false := by
  rw [findBytes?]
  split
  · rw [List.find?_range'_eq_some, List.mem_range'_1]
    constructor
    · rintro ⟨hmatch, hplace, hfirst⟩
      exact ⟨hplace.1, hmatch, fun other hother hlt => by simpa using hfirst other hother hlt⟩
    · rintro ⟨hplace, hmatch, hfirst⟩
      have hend := le_of_matchesAt hword hmatch
      exact ⟨hmatch, ⟨hplace, by omega⟩, fun other hother hlt => by simp [hfirst other hother hlt]⟩
  · rename_i hshort
    refine ⟨nofun, fun ⟨_, hmatch, _⟩ => absurd ?_ hshort⟩
    have hend := le_of_matchesAt hword hmatch
    omega

theorem findBytes?_eq_none_iff (hword : word ≠ []) : findBytes? word bytes start = none ↔
    ∀ place, start ≤ place → matchesAt word bytes place = false := by
  rw [findBytes?]
  split
  · rw [List.find?_range'_eq_none]
    constructor
    · intro hnone place hplace
      rw [← Bool.not_eq_true]
      intro hmatch
      have hend := le_of_matchesAt hword hmatch
      simpa [hmatch] using hnone place hplace (by omega)
    · intro hnone place hplace _
      simp [hnone place hplace]
  · rename_i hshort
    refine ⟨fun _ place _ => ?_, fun _ => rfl⟩
    rw [← Bool.not_eq_true]
    intro hmatch
    have hend := le_of_matchesAt hword hmatch
    omega

/-- Places where the word does not stand can be passed over. -/
theorem findBytes?_skip {stop : Nat} (hword : word ≠ []) (hle : start ≤ stop)
    (h : ∀ place, start ≤ place → place < stop → matchesAt word bytes place = false) :
    findBytes? word bytes start = findBytes? word bytes stop := by
  cases hfind : findBytes? word bytes stop with
  | none =>
    rw [findBytes?_eq_none_iff hword] at hfind ⊢
    intro place hplace
    by_cases hstop : place < stop
    · exact h place hplace hstop
    · exact hfind place (by omega)
  | some place =>
    rw [findBytes?_eq_some_iff hword] at hfind ⊢
    obtain ⟨hplace, hmatch, hfirst⟩ := hfind
    refine ⟨by omega, hmatch, fun other hother hlt => ?_⟩
    by_cases hstop : other < stop
    · exact h other hother hstop
    · exact hfirst other (by omega) hlt

end Places

section Encoding
variable {c w : Char} {word text rest : List Char} {place : Nat}

/-- A character of ASCII is one byte, and no byte of another is one of ASCII. -/
theorem utf8EncodeChar_cases (c : Char) :
    c.toNat < 128 ∧ String.utf8EncodeChar c = [UInt8.ofNat c.toNat] ∨
      128 ≤ c.toNat ∧ ∀ byte ∈ String.utf8EncodeChar c, 128 ≤ byte.toNat := by
  have hhigh (n : Nat) (hlow : 128 ≤ n) (hn : n < 256) : 128 ≤ (UInt8.ofNat n).toNat := by
    rwa [UInt8.toNat_ofNat', Nat.mod_eq_of_lt hn]
  have hnat : c.val.toNat = c.toNat := rfl
  rw [String.utf8EncodeChar]
  split
  · exact .inl ⟨by omega, rfl⟩
  · refine .inr ⟨by omega, ?_⟩
    split
    · exact List.forall_mem_cons.mpr ⟨hhigh _ (by omega) (by omega),
        List.forall_mem_cons.mpr ⟨hhigh _ (by omega) (by omega), nofun⟩⟩
    · split
      · exact List.forall_mem_cons.mpr ⟨hhigh _ (by omega) (by omega),
          List.forall_mem_cons.mpr ⟨hhigh _ (by omega) (by omega),
            List.forall_mem_cons.mpr ⟨hhigh _ (by omega) (by omega), nofun⟩⟩⟩
      · exact List.forall_mem_cons.mpr ⟨hhigh _ (by omega) (by omega),
          List.forall_mem_cons.mpr ⟨hhigh _ (by omega) (by omega),
            List.forall_mem_cons.mpr ⟨hhigh _ (by omega) (by omega),
              List.forall_mem_cons.mpr ⟨hhigh _ (by omega) (by omega), nofun⟩⟩⟩⟩

theorem toNat_toLower_lt_iff (c : Char) : c.toLower.toNat < 128 ↔ c.toNat < 128 := by
  have hcapital : ∀ n < 26, ((Char.ofNat (65 + n)).toLower.toNat < 128 ↔
      (Char.ofNat (65 + n)).toNat < 128) := by decide +kernel
  rcases toLower_cases c with h | ⟨n, hn, rfl⟩
  · rw [h]
  · exact hcapital n hn

theorem lowerByte_toLower (h : c.toNat < 128) :
    lowerByte (UInt8.ofNat c.toNat) = UInt8.ofNat c.toLower.toNat := by
  have hascii : ∀ n < 128, lowerByte (UInt8.ofNat (Char.ofNat n).toNat) =
      UInt8.ofNat (Char.ofNat n).toLower.toNat := by decide +kernel
  simpa using hascii c.toNat h

theorem lowerByte_of_high {byte : UInt8} (h : 128 ≤ byte.toNat) : lowerByte byte = byte := by
  refine if_neg fun hcapital => ?_
  have hlast : byte.toNat ≤ 90 := UInt8.le_iff_toNat_le.mp hcapital.2
  omega

theorem ofNat_toNat_inj (hc : c.toNat < 128) (hw : w.toNat < 128) :
    UInt8.ofNat c.toNat = UInt8.ofNat w.toNat ↔ c = w := by
  rw [← UInt8.toNat_inj, UInt8.toNat_ofNat', UInt8.toNat_ofNat', Nat.mod_eq_of_lt (by omega),
    Nat.mod_eq_of_lt (by omega), Char.toNat_inj]

theorem byteSize_lower (text : List Char) : byteSize (lower text) = byteSize text := by
  have hcapital : ∀ n < 26, (Char.ofNat (65 + n)).toLower.utf8Size = (Char.ofNat (65 + n)).utf8Size := by
    decide +kernel
  induction text with
  | nil => rfl
  | cons c text ih =>
    rw [lower, List.map_cons, byteSize, byteSize, ← ih, lower]
    rcases toLower_cases c with h | ⟨n, hn, rfl⟩
    · rw [h]
    · rw [hcapital n hn]

/-- A word of ASCII in lower case. -/
def IsPlainWord (word : List Char) : Prop := ∀ c ∈ word, c.toNat < 128 ∧ c.toLower = c

instance (word : List Char) : Decidable (IsPlainWord word) :=
  List.decidableBAll (fun c : Char => c.toNat < 128 ∧ c.toLower = c) word

theorem utf8_cons (c : Char) (text : List Char) :
    utf8 (c :: text) = String.utf8EncodeChar c ++ utf8 text := List.flatMap_cons

theorem utf8_cons_ascii (hc : c.toNat < 128) (text : List Char) :
    utf8 (c :: text) = UInt8.ofNat c.toNat :: utf8 text := by
  rcases utf8EncodeChar_cases c with ⟨-, hone⟩ | ⟨hhigh, -⟩
  · rw [utf8_cons, hone, List.singleton_append]
  · omega

/-- No byte of a longer character is one that a byte of ASCII can match. -/
theorem lowerByte_ne_of_high {byte : UInt8} (hbyte : 128 ≤ byte.toNat) (hw : w.toNat < 128)
    (hlower : w.toLower = w) : lowerByte byte ≠ lowerByte (UInt8.ofNat w.toNat) := by
  rw [lowerByte_of_high hbyte, lowerByte_toLower hw, hlower]
  rintro rfl
  rw [UInt8.toNat_ofNat', Nat.mod_eq_of_lt (by omega)] at hbyte
  omega

/-- A word stands at a place where a character starts if the text from there on begins with it. -/
theorem take_utf8_iff (hword : IsPlainWord word) :
    ((utf8 text).take (utf8 word).length).map lowerByte = (utf8 word).map lowerByte ↔
      lower (text.take word.length) = word := by
  induction word generalizing text with
  | nil => simp [utf8, lower]
  | cons w word ih =>
    obtain ⟨⟨hw, hlower⟩, hword⟩ := List.forall_mem_cons.mp hword
    cases text with
    | nil => simp [utf8, lower]
    | cons c text =>
      rw [utf8_cons_ascii hw, List.length_cons, List.length_cons, List.take_succ_cons, lower, List.map_cons,
        List.map_cons, List.cons.injEq, utf8_cons]
      rcases utf8EncodeChar_cases c with ⟨hc, hone⟩ | ⟨hc, hall⟩
      · rw [hone, List.singleton_append, List.take_succ_cons, List.map_cons, List.cons.injEq, ih hword,
          lowerByte_toLower hc, lowerByte_toLower hw, hlower,
          ofNat_toNat_inj ((toNat_toLower_lt_iff c).mpr hc) hw, lower]
      · obtain ⟨byte, bytes, hbytes⟩ : ∃ byte bytes, String.utf8EncodeChar c = byte :: bytes := by
          refine List.exists_cons_of_length_pos ?_
          rw [String.length_utf8EncodeChar]
          exact c.utf8Size_pos
        have hhigh : 128 ≤ byte.toNat := hall byte (by simp [hbytes])
        rw [hbytes, List.cons_append, List.take_succ_cons, List.map_cons, List.cons.injEq]
        constructor
        · exact fun heq => absurd heq.1 (lowerByte_ne_of_high hhigh hw hlower)
        · rintro ⟨rfl, -⟩
          have hc' := (toNat_toLower_lt_iff c).mp hw
          omega

theorem matchesAt_append (hword : IsPlainWord word) (lead rest : List Char) :
    matchesAt (utf8 word) (utf8 (lead ++ rest)) (byteSize lead) =
      decide (lower (rest.take word.length) = word) := by
  rw [matchesAt, drop_utf8]
  exact decide_eq_decide.mpr (take_utf8_iff hword)

/-- A word of ASCII stands only where a character starts. -/
theorem exists_append_of_matchesAt (hword : IsPlainWord word) (hne : word ≠ [])
    (h : matchesAt (utf8 word) (utf8 text) place = true) :
    ∃ lead rest, text = lead ++ rest ∧ byteSize lead = place := by
  obtain ⟨w, word, rfl⟩ := List.exists_cons_of_ne_nil hne
  obtain ⟨⟨hw, hlower⟩, -⟩ := List.forall_mem_cons.mp hword
  induction text generalizing place with
  | nil =>
    rw [matchesAt, utf8_cons_ascii hw] at h
    simp [utf8] at h
  | cons c rest ih =>
    by_cases hzero : place = 0
    · exact ⟨[], c :: rest, rfl, hzero.symm⟩
    rw [matchesAt, utf8_cons c] at h
    by_cases hinside : place < c.utf8Size
    · -- inside the character only its own bytes can be met
      obtain ⟨byte, bytes, hbytes⟩ : ∃ byte bytes, (String.utf8EncodeChar c).drop place = byte :: bytes := by
        refine List.exists_cons_of_length_pos ?_
        rw [List.length_drop, String.length_utf8EncodeChar]
        omega
      have hhigh : 128 ≤ byte.toNat := by
        rcases utf8EncodeChar_cases c with ⟨-, hone⟩ | ⟨-, hall⟩
        · have hsize := congrArg List.length hone
          rw [String.length_utf8EncodeChar, List.length_singleton] at hsize
          omega
        · exact hall byte (List.mem_of_mem_drop (hbytes ▸ List.mem_cons_self))
      have hle : place ≤ (String.utf8EncodeChar c).length := by
        rw [String.length_utf8EncodeChar]
        omega
      rw [List.drop_append_of_le_length hle, hbytes, utf8_cons_ascii hw] at h
      simp only [List.cons_append, List.length_cons, List.take_succ_cons, List.map_cons,
        List.cons.injEq, decide_eq_true_eq] at h
      exact absurd h.1 (lowerByte_ne_of_high hhigh hw hlower)
    · have hle : (String.utf8EncodeChar c).length ≤ place := by
        rw [String.length_utf8EncodeChar]
        omega
      rw [List.drop_append, List.drop_of_length_le hle, List.nil_append,
        String.length_utf8EncodeChar] at h
      obtain ⟨lead, tail, rfl, hlead⟩ := ih h
      refine ⟨c :: lead, tail, rfl, ?_⟩
      rw [byteSize, hlead]
      omega

end Encoding
end Tsconfig.Text
