import Tsconfig.Proofs.Json.Lenient

/-!
Where the characters of a config stand in the strict form that the reader gets. No character changes
its line. Within the line it comes as many bytes too early as the characters of comments in front of
it are longer than the blanks that stand for them.
-/
namespace Tsconfig.Json

section Bytes
variable {bytes more : List UInt8} {text : List Char} {c : Char} {i within : Nat}

theorem Position.after_append_of_notMem (h : 10 ∉ more) : Position.after (bytes ++ more) =
    ⟨(Position.after bytes).line, (Position.after bytes).column + more.length⟩ := by
  have hcount : (bytes ++ more).count 10 = bytes.count 10 := by
    rw [List.count_append, List.count_eq_zero_of_not_mem h, Nat.add_zero]
  have hline : (bytes ++ more).reverse.takeWhile (· ≠ 10) =
      more.reverse ++ bytes.reverse.takeWhile (· ≠ 10) := by
    rw [List.reverse_append, List.takeWhile_append_of_pos]
    intro byte hbyte
    exact decide_eq_true fun heq => h (heq ▸ List.mem_reverse.mp hbyte)
  rw [Position.after, Position.after, hcount, hline, List.length_append, List.length_reverse,
    Nat.add_comm more.length]

theorem Position.after_append_break :
    Position.after (bytes ++ [10]) = ⟨(Position.after bytes).line + 1, 0⟩ := by
  simp [Position.after, List.count_append, Nat.add_assoc]

theorem break_mem_utf8EncodeChar_iff : 10 ∈ String.utf8EncodeChar c ↔ c = '\n' := by
  have hword (n : Nat) (hn : n < 256) : 10 = UInt8.ofNat n ↔ 10 = n := by
    rw [← UInt8.toNat_inj, UInt8.toNat_ofNat', Nat.mod_eq_of_lt hn]
    rfl
  constructor
  · intro h
    unfold String.utf8EncodeChar at h
    dsimp only at h
    split at h
    · rename_i hascii
      rw [List.mem_singleton, hword _ (by omega)] at h
      exact Char.ext (UInt32.toNat_inj.mp h.symm)
    · split at h <;> try split at h
      all_goals
        simp only [List.mem_cons, List.not_mem_nil, or_false] at h
        repeat rw [hword _ (by omega)] at h
        omega
  · rintro rfl
    decide

theorem Position.eq_iff {p q : Position} : p = q ↔ p.line = q.line ∧ p.column = q.column := by
  cases p
  cases q
  exact Position.mk.injEq .. ▸ Iff.rfl

/-- The position so many bytes into a character, given by its number. -/
def positionAt (text : List Char) (i within : Nat) : Position :=
  Position.after (utf8 (text.take i) ++ (utf8 (text.drop i)).take within)

theorem positionAt_within (hc : text[i]? = some c) (hwithin : within < c.utf8Size) :
    positionAt text i within =
      ⟨(positionAt text i 0).line, (positionAt text i 0).column + within⟩ := by
  obtain ⟨hi, rfl⟩ := List.getElem?_eq_some_iff.mp hc
  have hbytes : (utf8 (text.drop i)).take within = (String.utf8EncodeChar text[i]).take within := by
    rw [List.drop_eq_getElem_cons hi, utf8, List.flatMap_cons, List.take_append_of_le_length]
    rw [String.length_utf8EncodeChar]
    omega
  -- A line break is a single byte, so nothing of it comes before an inner place.
  have hline : 10 ∉ (String.utf8EncodeChar text[i]).take within := by
    intro hmem
    have hbreak := break_mem_utf8EncodeChar_iff.mp (List.mem_of_mem_take hmem)
    rw [hbreak] at hwithin hmem
    obtain rfl : within = 0 := Nat.lt_one_iff.mp hwithin
    cases hmem
  rw [positionAt, positionAt, hbytes, Position.after_append_of_notMem hline, List.length_take,
    String.length_utf8EncodeChar, Nat.min_eq_left (Nat.le_of_lt hwithin), List.take_zero,
    List.append_nil]

theorem positionAt_end (h : text.length ≤ i) : positionAt text i within = positionAt text i 0 := by
  have hnil : utf8 (text.drop i) = [] := by rw [List.drop_eq_nil_of_le h, utf8, List.flatMap_nil]
  rw [positionAt, positionAt, hnil, List.take_nil, List.take_nil]

theorem positionAt_succ (hc : text[i]? = some c) : positionAt text (i + 1) 0 =
    if c = '\n' then ⟨(positionAt text i 0).line + 1, 0⟩
    else ⟨(positionAt text i 0).line, (positionAt text i 0).column + c.utf8Size⟩ := by
  have hlead : utf8 (text.take (i + 1)) = utf8 (text.take i) ++ String.utf8EncodeChar c := by
    rw [List.take_add_one, hc, utf8, List.flatMap_append]
    simp [utf8]
  rw [positionAt, positionAt, List.take_zero, List.take_zero, List.append_nil, List.append_nil,
    hlead]
  split
  · rename_i hbreak
    subst hbreak
    exact Position.after_append_break
  · rename_i hbreak
    rw [Position.after_append_of_notMem (break_mem_utf8EncodeChar_iff.not.mpr hbreak),
      String.length_utf8EncodeChar]

end Bytes

namespace Commented
open Text

section Places

def Place.isComment : Place → Bool
  | .lineComment | .blockComment => true
  | _ => false

/-- Each character of a text with the place it belongs to. The marks at both ends of a comment are
part of it, and the line break behind a line comment is not. -/
def placed : Place → List Char → List (Char × Place)
  | _, [] => []
  | .lineComment, c :: rest =>
    if c = '\n' then (c, .plain) :: placed .plain rest
    else (c, .lineComment) :: placed .lineComment rest
  | .blockComment, '*' :: '/' :: rest =>
    ('*', .blockComment) :: ('/', .blockComment) :: placed .plain rest
  | .blockComment, c :: rest => (c, .blockComment) :: placed .blockComment rest
  | .plain, '/' :: '/' :: rest =>
    ('/', .lineComment) :: ('/', .lineComment) :: placed .lineComment rest
  | .plain, '/' :: '*' :: rest =>
    ('/', .blockComment) :: ('*', .blockComment) :: placed .blockComment rest
  | place, c :: rest => (c, place) :: placed (place.next c) rest

theorem placed_line {body : List Char} (hbody : '\n' ∉ body) (rest : List Char) :
    placed .plain ('/' :: '/' :: (body ++ '\n' :: rest)) =
      ('/' :: '/' :: body).map (·, Place.lineComment) ++ ('\n', .plain) :: placed .plain rest := by
  have hinner : placed .lineComment (body ++ '\n' :: rest) =
      body.map (·, Place.lineComment) ++ ('\n', .plain) :: placed .plain rest := by
    induction body with
    | nil => rw [List.nil_append, placed, if_pos rfl, List.map_nil, List.nil_append]
    | cons c body ih =>
      rw [List.mem_cons, not_or] at hbody
      rw [List.cons_append, placed, if_neg (Ne.symm hbody.1), ih hbody.2]
      rfl
  rw [placed, hinner]
  rfl

theorem placed_block {body : List Char} (hbody : ¬ ['*', '/'] <:+: body) (rest : List Char) :
    placed .plain ('/' :: '*' :: (body ++ '*' :: '/' :: rest)) =
      ('/' :: '*' :: (body ++ ['*', '/'])).map (·, Place.blockComment) ++ placed .plain rest := by
  have hinner : placed .blockComment (body ++ '*' :: '/' :: rest) =
      (body ++ ['*', '/']).map (·, Place.blockComment) ++ placed .plain rest := by
    induction body with
    | nil => rfl
    | cons c body ih =>
      rw [List.cons_append, placed, ih fun hinfix => hbody (List.infix_cons hinfix)]
      · rfl
      · exact not_ends_early hbody rest
  rw [placed, hinner]
  rfl

/-- Whether what comes next, but for comments and white space, closes a list or an object. -/
def closesCode (rest : List (Char × Place)) : Bool :=
  (rest.find? fun x => !x.2.isComment && !isBlank x.1).any fun x => x.1 = '}' || x.1 = ']'

/-- Whether the first of these characters is a trailing comma. -/
def isTrailing : List (Char × Place) → Bool
  | [] => false
  | x :: rest => x = (',', .plain) && closesCode rest

/-- The characters of a text from one on, which is given by its number. -/
def placedFrom (text : List Char) (i : Nat) : List (Char × Place) := (placed .plain text).drop i

/-- Whether a character, given by its number, is in no comment and no trailing comma. -/
def isRetained (text : List Char) (i : Nat) : Bool :=
  (placedFrom text i).head?.any (fun x => !x.2.isComment) && !isTrailing (placedFrom text i)

/-- The characters in front of one, from the last back to the beginning of the line. -/
def lineBefore (text : List Char) (i : Nat) : List (Char × Place) :=
  ((placed .plain text).take i).reverse.takeWhile fun x => x.1 ≠ '\n'

/-- The number of bytes by which a character is longer than the blank that may stand for it. -/
def extra (x : Char × Place) : Nat := if x.2.isComment then x.1.utf8Size - 1 else 0

/-- The number of bytes by which a character moves to the front. -/
def shift (text : List Char) (i : Nat) : Nat := ((lineBefore text i).map extra).sum

end Places

section Blanks

/-- What the first pass makes of a character. -/
def blankOf : Char × Place → Char
  | (c, .lineComment) => if c = '\n' then c else ' '
  | (c, .blockComment) => if c = '\n' ∨ c = '\r' then c else ' '
  | (c, _) => c

/-- What both passes make of the characters. -/
def blanked : List (Char × Place) → List Char
  | [] => []
  | x :: rest => (if isTrailing (x :: rest) then ' ' else blankOf x) :: blanked rest

theorem map_fst_placed (place : Place) (text : List Char) :
    (placed place text).map Prod.fst = text := by
  fun_induction placed place text <;> simp_all

theorem blankComments_eq_map (place : Place) (text : List Char) :
    blankComments place text = (placed place text).map blankOf := by
  fun_induction placed place text <;> simp_all [blankComments, blankOf]

theorem isBlank_blankOf {x : Char × Place} (h : x.2.isComment = true) :
    isBlank (blankOf x) = true := by
  obtain ⟨c, place⟩ := x
  cases place with
  | lineComment =>
    rw [blankOf]
    split
    · rename_i hbreak
      rw [hbreak]
      decide
    · decide
  | blockComment =>
    rw [blankOf]
    split
    · rename_i hbreak
      rcases hbreak with rfl | rfl <;> decide
    · decide
  | _ => cases h

theorem blankOf_code {x : Char × Place} (h : x.2.isComment = false) : blankOf x = x.1 := by
  obtain ⟨c, place⟩ := x
  cases place with
  | lineComment | blockComment => cases h
  | _ => rfl

/-- White space and comments are passed over alike. -/
theorem closesNext_map_blankOf (rest : List (Char × Place)) :
    closesNext (rest.map blankOf) = closesCode rest := by
  induction rest with
  | nil => rfl
  | cons x rest ih =>
    rw [List.map_cons, closesNext]
    cases hcomment : x.2.isComment with
    | true =>
      rw [List.dropWhile_cons_of_pos (isBlank_blankOf hcomment), ← closesNext, ih, closesCode,
        closesCode, List.find?_cons_of_neg (by simp [hcomment])]
    | false =>
      rw [blankOf_code hcomment]
      cases hblank : isBlank x.1 with
      | true =>
        rw [List.dropWhile_cons_of_pos hblank, ← closesNext, ih, closesCode, closesCode,
          List.find?_cons_of_neg (by simp [hblank])]
      | false =>
        rw [List.dropWhile_cons_of_neg (by simp [hblank]), closesCode,
          List.find?_cons_of_pos (by simp [hcomment, hblank]), Option.any_some]

theorem isComment_next {place : Place} (h : place.isComment = false) (c : Char) :
    (place.next c).isComment = false := by
  cases place with
  | lineComment | blockComment => cases h
  | escape => rfl
  | plain | string =>
    unfold Place.next
    dsimp only
    repeat' split
    all_goals rfl

theorem blankCommas_code {place : Place} {c : Char} (h : place = .plain → c ≠ ',')
    (rest : List Char) : blankCommas place (c :: rest) = c :: blankCommas (place.next c) rest := by
  rw [blankCommas]
  exact h

/-- One character of a comment. -/
theorem blanked_comment {x : Char × Place} {rest : List (Char × Place)} (h : x.2.isComment = true)
    (ih : blankCommas .plain (rest.map blankOf) = blanked rest) :
    blankCommas .plain ((x :: rest).map blankOf) = blanked (x :: rest) := by
  have hplain : blankOf x ∉ ['/', ',', '"'] := notMem_of_isBlank (isBlank_blankOf h)
  have htrailing : isTrailing (x :: rest) = false := by
    rw [isTrailing, decide_eq_false, Bool.false_and]
    rintro rfl
    cases h
  rw [List.map_cons, keepsTokens_blankCommas.other _ _ hplain, ih, blanked, htrailing]
  rfl

/-- One character of a string or between tokens. -/
theorem blanked_code {c : Char} {place : Place} {rest : List (Char × Place)}
    (h : place.isComment = false)
    (ih : blankCommas (place.next c) (rest.map blankOf) = blanked rest) :
    blankCommas place (((c, place) :: rest).map blankOf) = blanked ((c, place) :: rest) := by
  rw [List.map_cons, blankOf_code h, blanked, isTrailing, blankOf_code h]
  dsimp only
  by_cases hcomma : place = .plain ∧ c = ','
  · obtain ⟨rfl, rfl⟩ := hcomma
    rw [blankCommas_comma, closesNext_map_blankOf, decide_eq_true rfl, Bool.true_and]
    exact congrArg _ ih
  · have hother : (c, place) ≠ (',', Place.plain) := by
      rintro heq
      cases heq
      exact hcomma ⟨rfl, rfl⟩
    rw [blankCommas_code (fun hplain hc => hcomma ⟨hplain, hc⟩), ih, decide_eq_false hother,
      Bool.false_and]
    rfl

/-- Outside comments both passes agree on the place, and inside the second one sees white space. -/
theorem blankCommas_eq_blanked (place : Place) (text : List Char) :
    blankCommas (if place.isComment then .plain else place) ((placed place text).map blankOf) =
      blanked (placed place text) := by
  fun_induction placed place text with
  | case1 => rw [List.map_nil, blankCommas, blanked]
  | case2 rest ih =>
    have hcode : Place.isComment .plain = false := rfl
    exact blanked_code hcode ih
  | case3 c rest _ ih => exact blanked_comment rfl ih
  | case4 rest ih => exact blanked_comment rfl (blanked_comment rfl ih)
  | case5 c rest _ ih => exact blanked_comment rfl ih
  | case6 rest ih => exact blanked_comment rfl (blanked_comment rfl ih)
  | case7 rest ih => exact blanked_comment rfl (blanked_comment rfl ih)
  | case8 place c rest hline _ hblock _ _ ih =>
    have hcode : place.isComment = false := by
      cases place with
      | lineComment => exact absurd rfl hline
      | blockComment => exact absurd rfl hblock
      | _ => rfl
    rw [isComment_next hcode] at ih
    rw [hcode]
    exact blanked_code hcode ih

theorem strict_eq_blanked (text : List Char) : strict text = blanked (placed .plain text) := by
  rw [strict, blankComments_eq_map]
  exact blankCommas_eq_blanked .plain text

end Blanks

section Retained
variable {text : List Char} {i : Nat} {x : Char × Place}

theorem getElem?_blanked (chars : List (Char × Place)) (i : Nat) :
    (blanked chars)[i]? =
      chars[i]?.map fun x => if isTrailing (chars.drop i) then ' ' else blankOf x := by
  induction chars generalizing i with
  | nil => rfl
  | cons x rest ih =>
    cases i with
    | zero => rfl
    | succ i => exact ih i

theorem getElem?_text (hx : (placed .plain text)[i]? = some x) : text[i]? = some x.1 := by
  have hmap : ((placed .plain text).map Prod.fst)[i]? = text[i]? := by rw [map_fst_placed]
  rw [List.getElem?_map, hx] at hmap
  exact hmap.symm

theorem exists_placed (hi : i < text.length) : ∃ x, (placed .plain text)[i]? = some x := by
  have hlength := congrArg List.length (map_fst_placed .plain text)
  rw [List.length_map] at hlength
  exact ⟨_, List.getElem?_eq_getElem (hlength ▸ hi)⟩

/-- What a character is turned into takes its place: it breaks the line if the character does, and
it is as long but for what is extra. -/
structure Replaces (x : Char × Place) (c : Char) : Prop where
  breaks : c = '\n' ↔ x.1 = '\n'
  size : c.utf8Size + extra x = x.1.utf8Size

theorem replaces_blank (hbreak : x.1 ≠ '\n') (h : x.2.isComment = true ∨ x.1.utf8Size = 1) :
    Replaces x ' ' where
  breaks := ⟨nofun, fun heq => absurd heq hbreak⟩
  size := by
    have hpos := x.1.utf8Size_pos
    have hblank : ' '.utf8Size = 1 := rfl
    rw [hblank, extra]
    split
    · omega
    · rename_i hcode
      exact (h.resolve_left hcode).symm

theorem replaces_self (h : x.2.isComment = false ∨ x.1.utf8Size = 1) : Replaces x x.1 where
  breaks := Iff.rfl
  size := by
    rw [extra]
    rcases h with hcode | hsize
    · rw [hcode]
      rfl
    · rw [hsize]
      split <;> rfl

theorem replaces_blankOf (x : Char × Place) : Replaces x (blankOf x) := by
  obtain ⟨c, place⟩ := x
  cases place with
  | lineComment =>
    rw [blankOf]
    split
    · rename_i hbreak
      subst hbreak
      exact replaces_self (.inr rfl)
    · rename_i hbreak
      exact replaces_blank hbreak (.inl rfl)
  | blockComment =>
    rw [blankOf]
    split
    · rename_i hbreak
      rcases hbreak with rfl | rfl
      · exact replaces_self (.inr rfl)
      · exact replaces_self (.inr rfl)
    · rename_i hbreak
      exact replaces_blank (fun heq => hbreak (.inl heq)) (.inl rfl)
  | plain | string | escape => exact replaces_self (.inl rfl)

theorem exists_placed_of_isRetained (h : isRetained text i = true) :
    ∃ x, (placed .plain text)[i]? = some x := by
  rw [isRetained, placedFrom, List.head?_drop, Bool.and_eq_true] at h
  cases hx : (placed .plain text)[i]? with
  | none =>
    rw [hx] at h
    cases h.1
  | some x => exact ⟨x, rfl⟩

theorem exists_replaces (hx : (placed .plain text)[i]? = some x) :
    ∃ c, (strict text)[i]? = some c ∧ Replaces x c ∧ (isRetained text i = true → c = x.1) := by
  have hget := getElem?_blanked (placed .plain text) i
  rw [← strict_eq_blanked, hx, Option.map_some] at hget
  obtain ⟨hi, rfl⟩ := List.getElem?_eq_some_iff.mp hx
  have hdrop := List.drop_eq_getElem_cons hi
  refine ⟨_, hget, ?_, fun hretained => ?_⟩
  · split
    · rename_i htrailing
      rw [hdrop, isTrailing, Bool.and_eq_true, decide_eq_true_eq] at htrailing
      rw [htrailing.1]
      exact replaces_blank (by decide) (.inr rfl)
    · exact replaces_blankOf _
  · rw [isRetained, placedFrom, Bool.and_eq_true, Bool.not_eq_true', hdrop, List.head?_cons,
      Option.any_some, Bool.not_eq_true'] at hretained
    rw [← hdrop] at hretained
    rw [hretained.2]
    exact blankOf_code hretained.1

theorem length_strict (text : List Char) : (strict text).length = text.length := by
  have hlength (chars : List (Char × Place)) : (blanked chars).length = chars.length := by
    induction chars with
    | nil => rfl
    | cons x rest ih => rw [blanked, List.length_cons, ih, List.length_cons]
  rw [strict_eq_blanked, hlength, ← List.length_map Prod.fst, map_fst_placed]

theorem shift_succ (hx : (placed .plain text)[i]? = some x) :
    shift text (i + 1) = if x.1 = '\n' then 0 else shift text i + extra x := by
  rw [shift, lineBefore, List.take_add_one, hx, Option.toList_some, List.reverse_append,
    List.reverse_singleton, List.singleton_append, List.takeWhile_cons]
  by_cases hbreak : x.1 = '\n'
  · simp [hbreak]
  · simp [hbreak, shift, lineBefore, Nat.add_comm]

end Retained

section Positions
variable {text : List Char} {i : Nat} {x : Char × Place}

theorem positionAt_strict (hi : i ≤ text.length) :
    (positionAt (strict text) i 0).line = (positionAt text i 0).line ∧
      (positionAt (strict text) i 0).column + shift text i = (positionAt text i 0).column := by
  -- One character of the text and the one that replaces it at a time.
  induction i with
  | zero => exact ⟨rfl, rfl⟩
  | succ i ih =>
    obtain ⟨hline, hcolumn⟩ := ih (Nat.le_of_succ_le hi)
    obtain ⟨x, hx⟩ := exists_placed hi
    obtain ⟨c, hc, hreplaces, -⟩ := exists_replaces hx
    rw [positionAt_succ hc, positionAt_succ (getElem?_text hx), shift_succ hx, hline]
    by_cases hbreak : x.1 = '\n'
    · rw [if_pos (hreplaces.breaks.mpr hbreak), if_pos hbreak, if_pos hbreak]
      exact ⟨rfl, rfl⟩
    · rw [if_neg (hreplaces.breaks.not.mpr hbreak), if_neg hbreak, if_neg hbreak]
      have hsize := hreplaces.size
      refine ⟨rfl, ?_⟩
      dsimp only
      omega

/-- So many bytes into a character, given by its number, is still inside it. -/
def IsInside (text : List Char) (i within : Nat) : Prop :=
  i ≤ text.length ∧ ∀ c, text[i]? = some c → within < c.utf8Size

theorem exists_isInside (text : List Char) (n : Nat) : ∃ i within, IsInside text i within ∧
    (utf8 text).take n = utf8 (text.take i) ++ (utf8 (text.drop i)).take within := by
  induction text generalizing n with
  | nil => exact ⟨0, n, ⟨Nat.le_refl 0, nofun⟩, rfl⟩
  | cons c rest ih =>
    by_cases hn : n < c.utf8Size
    · refine ⟨0, n, ⟨Nat.zero_le _, ?_⟩, rfl⟩
      rintro _ ⟨⟩
      exact hn
    · obtain ⟨i, within, ⟨hi, hinside⟩, htake⟩ := ih (n - c.utf8Size)
      refine ⟨i + 1, within, ⟨Nat.succ_le_succ hi, hinside⟩, ?_⟩
      have hlong : (String.utf8EncodeChar c).length ≤ n := by
        rw [String.length_utf8EncodeChar]
        omega
      rw [List.take_succ_cons, List.drop_succ_cons, utf8, List.flatMap_cons, List.take_append,
        List.take_of_length_le hlong, String.length_utf8EncodeChar, utf8, List.flatMap_cons,
        List.append_assoc]
      exact congrArg _ htake

/-- A diagnostic stands behind the bytes that count as read. -/
theorem exists_take_of_parse {fault : Diagnostic} (h : parse text = .error fault) :
    ∃ n, fault.position = Position.after ((utf8 text).take n) := by
  rw [parse] at h
  split at h
  · cases h
  · cases h
    exact ⟨_, rfl⟩

theorem parse_of_malformed {source : List Char} {fault : Diagnostic}
    (h : parseObject source = .error (.malformed fault)) :
    parse (strict (dropMark source)) = .error fault := by
  rw [parseObject] at h
  split at h
  · cases h
  · split at h
    · cases h
    · cases h
    · cases h
      assumption

/-- Both places are as far into their characters. -/
theorem positionAt_strict_within {within : Nat} (h : IsInside (strict text) i within) :
    (positionAt (strict text) i within).line = (positionAt text i within).line ∧
      (positionAt (strict text) i within).column + shift text i =
        (positionAt text i within).column := by
  obtain ⟨hi, hwithin⟩ := h
  rw [length_strict] at hi
  obtain ⟨hline, hcolumn⟩ := positionAt_strict hi
  rcases Nat.lt_or_eq_of_le hi with hi | rfl
  · obtain ⟨x, hx⟩ := exists_placed hi
    obtain ⟨c, hc, hreplaces, -⟩ := exists_replaces hx
    have hsize := hreplaces.size
    have hshort := hwithin c hc
    rw [positionAt_within hc hshort, positionAt_within (getElem?_text hx) (by omega)]
    refine ⟨hline, ?_⟩
    dsimp only
    omega
  · rw [positionAt_end (Nat.le_of_eq (length_strict text)), positionAt_end le_rfl]
    exact ⟨hline, hcolumn⟩

theorem shift_eq_zero_iff : shift text i = 0 ↔
    ∀ x ∈ lineBefore text i, x.2.isComment = true → x.1.utf8Size = 1 := by
  have hextra (x : Char × Place) : extra x = 0 ↔ (x.2.isComment = true → x.1.utf8Size = 1) := by
    have hpos := x.1.utf8Size_pos
    rw [extra]
    split
    · rename_i hcomment
      simp only [hcomment, true_implies]
      omega
    · rename_i hcode
      exact ⟨fun _ hcomment => absurd hcomment hcode, fun _ => rfl⟩
  rw [shift, List.sum_eq_zero_iff_forall_eq_nat]
  simp only [List.forall_mem_map, hextra]

/-- A character that is in no comment and no trailing comma stays what it is, in its line, and comes
too early by the extra bytes of the comments in front of it. So it keeps its position exactly if all
characters of these comments are single bytes. The diagnostics of the reader are as far off. -/
theorem positions_strict (text : List Char) :
    (∀ i, isRetained text i = true →
      (∃ c, text[i]? = some c ∧ (strict text)[i]? = some c) ∧
      (positionAt (strict text) i 0).line = (positionAt text i 0).line ∧
      (positionAt (strict text) i 0).column + shift text i = (positionAt text i 0).column ∧
      (positionAt (strict text) i 0 = positionAt text i 0 ↔
        ∀ x ∈ lineBefore text i, x.2.isComment = true → x.1.utf8Size = 1)) ∧
    ∀ source fault, dropMark source = text → parseObject source = .error (.malformed fault) →
      ∃ i within, IsInside (strict text) i within ∧
        fault.position = positionAt (strict text) i within ∧
        fault.position.line = (positionAt text i within).line ∧
        fault.position.column + shift text i = (positionAt text i within).column := by
  refine ⟨fun i hretained => ?_, ?_⟩
  · obtain ⟨x, hx⟩ := exists_placed_of_isRetained hretained
    obtain ⟨c, hc, -, hkept⟩ := exists_replaces hx
    obtain rfl := hkept hretained
    have htext := getElem?_text hx
    obtain ⟨hline, hcolumn⟩ :=
      positionAt_strict (Nat.le_of_lt (List.getElem?_eq_some_iff.mp htext).1)
    refine ⟨⟨x.1, htext, hc⟩, hline, hcolumn, ?_⟩
    rw [← shift_eq_zero_iff, Position.eq_iff]
    omega
  · rintro source fault rfl h
    obtain ⟨n, hposition⟩ := exists_take_of_parse (parse_of_malformed h)
    obtain ⟨i, within, hinside, htake⟩ := exists_isInside (strict (dropMark source)) n
    have hat : fault.position = positionAt (strict (dropMark source)) i within := by
      rw [hposition, htake, positionAt]
    obtain ⟨hline, hcolumn⟩ := positionAt_strict_within hinside
    exact ⟨i, within, hinside, hat, hat ▸ hline, hat ▸ hcolumn⟩

private def commented : List Char := ['{', '/', '*', 'é', '*', '/', '5', '}']

private theorem parse_commented :
    parseObject commented = .error (.malformed ⟨.keyNotString, ⟨1, 7⟩⟩) := by
  cbv

/-- The comment in `{/*é*/5}` is a byte longer than its blanks. -/
theorem positions_strict_shifted :
    dropMark commented = commented ∧ isRetained commented 6 = true ∧
      (positionAt (strict commented) 6 0).column + 1 = (positionAt commented 6 0).column ∧
      ∃ i within, positionAt (strict commented) i within = ⟨1, 7⟩ ∧
        (positionAt commented i within).line = 1 := by
  have hretained : isRetained commented 6 = true := by decide
  obtain ⟨hkept, hfault⟩ := positions_strict commented
  obtain ⟨-, -, hcolumn, -⟩ := hkept 6 hretained
  obtain ⟨i, within, -, hat, hline, -⟩ := hfault commented _ rfl parse_commented
  exact ⟨rfl, hretained, hcolumn, i, within, hat.symm, hline.symm⟩

/-- No `5` of the strict form is where the one of `{/*é*/5}` is, and the diagnostic that is about it
points a byte too early. -/
theorem position_lost : isRetained commented 6 = true ∧ commented[6]? = some '5' ∧
    (∀ j, (strict commented)[j]? = some '5' →
      positionAt (strict commented) j 0 ≠ positionAt commented 6 0) ∧
    parseObject commented = .error (.malformed ⟨.keyNotString, ⟨1, 7⟩⟩) ∧
    positionAt commented 6 1 = ⟨1, 8⟩ := by
  have hchars : strict commented = ['{', ' ', ' ', ' ', ' ', ' ', '5', '}'] := by decide
  refine ⟨by decide, rfl, fun j hj => ?_, parse_commented, by decide⟩
  have hlast : j = 6 := by
    rw [hchars] at hj
    obtain ⟨hlt, hget⟩ := List.getElem?_eq_some_iff.mp hj
    have hlt : j < 8 := hlt
    interval_cases j <;> first | rfl | cases hget
  subst hlast
  decide

end Positions
end Commented
end Tsconfig.Json
