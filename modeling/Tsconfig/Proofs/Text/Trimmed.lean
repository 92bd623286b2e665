import Mathlib.Data.List.Basic
import Tsconfig.Proofs.Text.Pieces

/-! Words less the white space around them, in lower case: neither is changed by doing it again, and
it does not matter which comes first. -/
namespace Tsconfig.Text

/-- Only the capitals of ASCII have another lower case. -/
theorem toLower_cases (c : Char) :
    c.toLower = c ∨ ∃ n < 26, c = Char.ofNat (65 + n) := by
  by_cases h : c.val ≥ 'A'.val ∧ c.val ≤ 'Z'.val
  · have hlow : 65 ≤ c.toNat := UInt32.le_iff_toNat_le.mp h.1
    have hhigh : c.toNat ≤ 90 := UInt32.le_iff_toNat_le.mp h.2
    refine .inr ⟨c.toNat - 65, by omega, ?_⟩
    rw [Nat.add_sub_cancel' hlow, Char.ofNat_toNat]
  · exact .inl (dif_neg h)

theorem toLower_toLower (c : Char) : c.toLower.toLower = c.toLower := by
  have hcapital : ∀ n < 26, (Char.ofNat (65 + n)).toLower.toLower =
      (Char.ofNat (65 + n)).toLower := by
    decide +kernel
  rcases toLower_cases c with h | ⟨n, hn, rfl⟩
  · rw [h, h]
  · exact hcapital n hn

theorem isBlank_toLower (c : Char) : isBlank c.toLower = isBlank c := by
  have hcapital : ∀ n < 26, isBlank (Char.ofNat (65 + n)).toLower =
      isBlank (Char.ofNat (65 + n)) := by
    decide +kernel
  rcases toLower_cases c with h | ⟨n, hn, rfl⟩
  · rw [h]
  · exact hcapital n hn

theorem lower_lower (text : List Char) : lower (lower text) = lower text := by
  rw [lower, lower, List.map_map]
  exact List.map_congr_left fun c _ => toLower_toLower c

theorem trim_lower (text : List Char) : trim (lower text) = lower (trim text) := by
  have hblank : isBlank ∘ Char.toLower = isBlank := funext isBlank_toLower
  rw [trim, trimEnd, trimStart, dropEndWhile, lower, List.dropWhile_map, hblank, ← List.map_reverse,
    List.dropWhile_map, hblank, ← List.map_reverse]
  rfl

theorem trim_trim (text : List Char) : trim (trim text) = trim text := by
  have hstart : trimStart (trim text) = trim text := by
    obtain ⟨tail, htail⟩ := dropEndWhile_prefix_self isBlank (trimStart text)
    have hhead := List.head?_dropWhile_not isBlank text
    rw [← trimStart, ← htail] at hhead
    change trimStart (dropEndWhile isBlank (trimStart text)) = dropEndWhile isBlank (trimStart text)
    cases hkept : dropEndWhile isBlank (trimStart text) with
    | nil => rfl
    | cons c rest =>
      rw [hkept] at hhead
      rw [trimStart, List.dropWhile_cons_of_neg (Bool.eq_false_iff.mp hhead)]
  rw [trim, hstart, trim, trimEnd]
  exact dropEndWhile_eq_self fun c hc => getLast?_dropEndWhile hc

/-- A word that is trimmed and in lower case stays as it is. -/
theorem lower_trim_lower_trim (text : List Char) :
    lower (trim (lower (trim text))) = lower (trim text) := by
  rw [trim_lower, trim_trim, lower_lower]

end Tsconfig.Text
