import Tsconfig.Json.Commented
import Tsconfig.Proofs.Json.Literal
import Tsconfig.Proofs.Json.Word

/-! A text that the strict reader accepts falls into tokens, with no comma in front of a closing
bracket. -/
namespace Tsconfig.Json
open Commented Text

/-- The characters that are tokens by themselves. -/
def marks : List Char := ['[', ']', '{', '}', ':', ',']

section Characters
variable {c : Char}

theorem isWordChar_of_isSpace (h : isSpace c = true) : isWordChar c = false := by
  simp only [isSpace, Bool.or_eq_true, decide_eq_true_eq] at h
  rcases h with ((rfl | rfl) | rfl) | rfl <;> decide

theorem isBlank_of_isSpace (h : isSpace c = true) : isBlank c = true := by
  simp only [isSpace, Bool.or_eq_true, decide_eq_true_eq] at h
  rcases h with ((rfl | rfl) | rfl) | rfl <;> decide

theorem isBlank_of_isWordChar (h : isWordChar c = true) : isBlank c = false := by
  have hrange : 33 ≤ c.toNat ∧ c.toNat < 0x85 := by
    simp only [isWordChar, Char.isAlphanum, Char.isAlpha, Char.isUpper, Char.isLower, Char.isDigit,
      Bool.or_eq_true, Bool.and_eq_true, decide_eq_true_eq, ge_iff_le, UInt32.le_iff_toNat_le] at h
    rcases h with ((((h | h) | h) | rfl) | rfl) | rfl
    · exact ⟨Nat.le_trans (by decide) h.1, Nat.lt_of_le_of_lt h.2 (by decide)⟩
    · exact ⟨Nat.le_trans (by decide) h.1, Nat.lt_of_le_of_lt h.2 (by decide)⟩
    · exact ⟨Nat.le_trans (by decide) h.1, Nat.lt_of_le_of_lt h.2 (by decide)⟩
    all_goals decide
  simp only [isBlank, Bool.or_eq_false_iff, Bool.and_eq_false_iff, decide_eq_false_iff_not]
  omega

theorem isWordChar_of_mem_marks : ∀ c ∈ marks, isWordChar c = false :=
  List.forall_iff_forall_mem.mp (by decide)

theorem isBlank_of_mem_marks : ∀ c ∈ marks, isBlank c = false :=
  List.forall_iff_forall_mem.mp (by decide)

/-- White space is none of the characters that comments, trailing commas and strings begin with. -/
theorem notMem_of_isBlank (h : isBlank c = true) : c ∉ ['/', ',', '"'] := by
  have hno : ∀ d ∈ ['/', ',', '"'], isBlank d = false := List.forall_iff_forall_mem.mp (by decide)
  intro hmem
  cases h.symm.trans (hno c hmem)

theorem isSpace_eq_false_of_isBlank (h : isBlank c = false) : isSpace c = false := by
  by_contra hspace
  cases (isBlank_of_isSpace (Bool.of_not_eq_false hspace)).symm.trans h

end Characters

section Space
variable {text rest blanks : List Char} {c : Char}

@[simp] theorem skipSpace_cons_space (h : isSpace c = true) :
    skipSpace (c :: rest) = skipSpace rest := by
  rw [skipSpace, List.dropWhile_cons_of_pos h]
  rfl

theorem skipSpace_cons_token (h : isSpace c = false) : skipSpace (c :: rest) = c :: rest := by
  rw [skipSpace, List.dropWhile_cons_of_neg (by simp [h])]

theorem skipSpace_blanks (hblanks : ∀ c ∈ blanks, isSpace c = true) (text : List Char) :
    skipSpace (blanks ++ text) = skipSpace text := by
  induction blanks with
  | nil => rfl
  | cons c blanks ih =>
    rw [List.cons_append, skipSpace_cons_space (hblanks c List.mem_cons_self),
      ih fun d hd => hblanks d (List.mem_cons_of_mem _ hd)]

/-- White space does not count for what comes next. -/
theorem closesNext_skipSpace (text : List Char) : closesNext (skipSpace text) = closesNext text := by
  induction text with
  | nil => rfl
  | cons c rest ih =>
    cases hc : isSpace c with
    | true =>
      rw [skipSpace_cons_space hc, ih, closesNext, closesNext,
        List.dropWhile_cons_of_pos (isBlank_of_isSpace hc)]
    | false => rw [skipSpace_cons_token hc]

theorem closesNext_of_skipSpace (hs : skipSpace text = c :: rest) (hc : isBlank c = false) :
    closesNext text = (c = '}' || c = ']') := by
  rw [← closesNext_skipSpace, hs, closesNext, List.dropWhile_cons_of_neg (by simp [hc])]

theorem closesNext_blanks (hblanks : ∀ c ∈ blanks, isSpace c = true) (text : List Char) :
    closesNext (blanks ++ text) = closesNext text := by
  rw [← closesNext_skipSpace, skipSpace_blanks hblanks, closesNext_skipSpace]

theorem closesNext_cons_token (hc : isBlank c = false) (rest : List Char) :
    closesNext (c :: rest) = (c = '}' || c = ']') :=
  closesNext_of_skipSpace (skipSpace_cons_token (isSpace_eq_false_of_isBlank hc)) hc

theorem wordEnds_of_skipSpace (hs : WordEnds (skipSpace text)) : WordEnds text := by
  cases text with
  | nil => simp [WordEnds]
  | cons c rest =>
    rw [wordEnds_cons]
    cases hc : isSpace c with
    | true => exact isWordChar_of_isSpace hc
    | false =>
      rw [skipSpace_cons_token hc] at hs
      exact hs c rfl

end Space

/-- Tokens with white space between them. No comma stands in front of a closing bracket, and no word
comes right after a word, with or without white space between them. -/
inductive Tokens : List Char → Prop
  | nil : Tokens []
  | space {c : Char} {rest : List Char} (hc : isSpace c = true) (h : Tokens rest) : Tokens (c :: rest)
  | mark {c : Char} {rest : List Char} (hc : c ∈ marks) (hcomma : c = ',' → closesNext rest = false)
      (h : Tokens rest) : Tokens (c :: rest)
  | string {body rest : List Char} (hbody : LiteralBody body) (h : Tokens rest) :
      Tokens ('"' :: (body ++ '"' :: rest))
  | word {word rest : List Char} (hnil : word ≠ []) (hword : ∀ c ∈ word, isWordChar c = true)
      (hends : WordEnds (skipSpace rest)) (h : Tokens rest) : Tokens (word ++ rest)

theorem Tokens.of_skipSpace {text : List Char} (h : Tokens (skipSpace text)) : Tokens text := by
  induction text with
  | nil => exact .nil
  | cons c rest ih =>
    cases hc : isSpace c with
    | true =>
      rw [skipSpace_cons_space hc] at h
      exact .space hc (ih h)
    | false => rwa [skipSpace_cons_token hc] at h

theorem Tokens.of_mark {text rest : List Char} {c : Char} (hs : skipSpace text = c :: rest)
    (hc : c ∈ marks) (hcomma : c = ',' → closesNext rest = false) (h : Tokens rest) :
    Tokens text := by
  apply Tokens.of_skipSpace
  rw [hs]
  exact .mark hc hcomma h

section Inversion
variable {c : Char} {text : List Char}

theorem Tokens.of_space (h : Tokens (c :: text)) (hc : isSpace c = true) : Tokens text := by
  generalize hstart : c :: text = start at h
  cases h with
  | nil => cases hstart
  | space _ h =>
    obtain ⟨-, rfl⟩ := List.cons.inj hstart
    exact h
  | mark hmark =>
    obtain ⟨rfl, -⟩ := List.cons.inj hstart
    cases hc.symm.trans (isSpace_eq_false_of_isBlank (isBlank_of_mem_marks c hmark))
  | string =>
    obtain ⟨rfl, -⟩ := List.cons.inj hstart
    cases hc
  | @word word rest hnil hword =>
    cases word with
    | nil => exact absurd rfl hnil
    | cons d word =>
      obtain ⟨rfl, -⟩ := List.cons.inj hstart
      cases (hword c List.mem_cons_self).symm.trans (isWordChar_of_isSpace hc)

theorem Tokens.of_blanks {blanks : List Char} (hblanks : ∀ c ∈ blanks, isSpace c = true)
    (h : Tokens (blanks ++ text)) : Tokens text := by
  induction blanks with
  | nil => exact h
  | cons c blanks ih =>
    exact ih (fun d hd => hblanks d (List.mem_cons_of_mem _ hd))
      (h.of_space (hblanks c List.mem_cons_self))

/-- The token that a text begins with. -/
inductive FirstToken : Char → List Char → Prop
  | mark {c : Char} {rest : List Char} (hc : c ∈ marks) (h : Tokens rest) : FirstToken c rest
  | string {body rest : List Char} (hbody : LiteralBody body) (h : Tokens rest) :
      FirstToken '"' (body ++ '"' :: rest)
  | word {c : Char} {word rest : List Char} (hword : ∀ d ∈ c :: word, isWordChar d = true)
      (hends : WordEnds (skipSpace rest)) (h : Tokens rest) : FirstToken c (word ++ rest)

theorem Tokens.first (h : Tokens (c :: text)) (hc : isSpace c = false) : FirstToken c text := by
  generalize hstart : c :: text = start at h
  cases h with
  | nil => cases hstart
  | space hspace =>
    obtain ⟨rfl, -⟩ := List.cons.inj hstart
    cases hc.symm.trans hspace
  | mark hmark _ h =>
    obtain ⟨rfl, rfl⟩ := List.cons.inj hstart
    exact .mark hmark h
  | string hbody h =>
    obtain ⟨rfl, rfl⟩ := List.cons.inj hstart
    exact .string hbody h
  | @word word rest hnil hword hends h =>
    cases word with
    | nil => exact absurd rfl hnil
    | cons d word =>
      obtain ⟨rfl, rfl⟩ := List.cons.inj hstart
      exact .word hword hends h

end Inversion

section Readers
variable {item : Reader} {text rest : List Char}

/-- What the reader accepts closes nothing, and it is in tokens if the rest is. -/
def ReadsTokens (item : Reader) : Prop :=
  ∀ {text value rest}, Gives (item text) value rest → WordEnds (skipSpace rest) →
    closesNext text = false ∧ (Tokens rest → Tokens text)

theorem tokens_of_readString {chars : List Char} (h : Gives (readString text) chars rest)
    (hrest : Tokens rest) : Tokens ('"' :: text) := by
  obtain ⟨body, hbody, rfl, -⟩ := exists_uses_readString h
  exact .string hbody hrest

theorem wordEnds_of_readItems {values : List Value} (h : Gives (readItems item text) values rest) :
    WordEnds (skipSpace text) := by
  rcases readItems_gives.mp h with ⟨hs, -⟩ | ⟨next, _, _, _, hs, -⟩
  · exact hs ▸ wordEnds_cons.mpr (by decide)
  · exact hs ▸ wordEnds_cons.mpr (by decide)

theorem wordEnds_of_readFields {fields : List (String × Value)}
    (h : Gives (readFields item text) fields rest) : WordEnds (skipSpace text) := by
  rcases readFields_gives.mp h with ⟨hs, -⟩ | ⟨next, _, _, _, _, hs, -⟩
  · exact hs ▸ wordEnds_cons.mpr (by decide)
  · exact hs ▸ wordEnds_cons.mpr (by decide)

theorem tokens_of_readItems (hitem : ReadsTokens item) {values : List Value}
    (h : Gives (readItems item text) values rest) (hrest : Tokens rest) : Tokens text := by
  induction values generalizing text with
  | nil =>
    rcases readItems_gives.mp h with ⟨hs, -⟩ | ⟨_, _, _, _, -, -, -, -, hvalues⟩
    · exact .of_mark hs (by decide) nofun hrest
    · cases hvalues
  | cons value values ih =>
    rcases readItems_gives.mp h with ⟨-, hvalues⟩ |
      ⟨next, value', after, others, hs, -, hvalue, hothers, hvalues⟩
    · cases hvalues
    · cases hvalues
      obtain ⟨hopen, htokens⟩ := hitem hvalue (wordEnds_of_readItems hothers)
      exact .of_mark hs (by decide) (fun _ => hopen) (htokens (ih hothers))

theorem tokens_of_readList (hitem : ReadsTokens item) {values : List Value}
    (h : Gives (readList item text) values rest) (hrest : Tokens rest) : Tokens text := by
  rcases readList_gives.mp h with ⟨hs, -⟩ | ⟨value, after, others, -, hvalue, hothers, -⟩
  · exact .of_mark hs (by decide) nofun hrest
  · exact (hitem hvalue (wordEnds_of_readItems hothers)).2 (tokens_of_readItems hitem hothers hrest)

theorem tokens_of_readField (hitem : ReadsTokens item) {field : String × Value}
    (h : Gives (readField item text) field rest) (hends : WordEnds (skipSpace rest))
    (hrest : Tokens rest) : Tokens ('"' :: text) := by
  obtain ⟨name, after, next, value, hname, hs, hvalue, -⟩ := readField_gives.mp h
  apply tokens_of_readString hname
  exact .of_mark hs (by decide) nofun ((hitem hvalue hends).2 hrest)

theorem tokens_of_readFields (hitem : ReadsTokens item) {fields : List (String × Value)}
    (h : Gives (readFields item text) fields rest) (hrest : Tokens rest) : Tokens text := by
  induction fields generalizing text with
  | nil =>
    rcases readFields_gives.mp h with ⟨hs, -⟩ | ⟨_, _, _, _, _, -, -, -, -, hfields⟩
    · exact .of_mark hs (by decide) nofun hrest
    · cases hfields
  | cons field fields ih =>
    rcases readFields_gives.mp h with ⟨-, hfields⟩ |
      ⟨next, name, field', after, others, hs, hname, hfield, hothers, hfields⟩
    · cases hfields
    · cases hfields
      have htokens : Tokens ('"' :: name) :=
        tokens_of_readField hitem hfield (wordEnds_of_readFields hothers) (ih hothers)
      refine .of_mark hs (by decide) (fun _ => ?_) (.of_skipSpace (hname ▸ htokens))
      rw [closesNext_of_skipSpace hname (by decide)]
      decide

theorem tokens_of_readObject (hitem : ReadsTokens item) {fields : List (String × Value)}
    (h : Gives (readObject item text) fields rest) (hrest : Tokens rest) : Tokens text := by
  rcases readObject_gives.mp h with ⟨hs, -⟩ | ⟨name, field, after, others, hs, hfield, hothers, -⟩
  · exact .of_mark hs (by decide) nofun hrest
  · have htokens : Tokens ('"' :: name) := tokens_of_readField hitem hfield
      (wordEnds_of_readFields hothers) (tokens_of_readFields hitem hothers hrest)
    exact .of_skipSpace (hs ▸ htokens)

end Readers

section Values
variable {room : Nat} {text rest : List Char} {value : Value}

/-- The word stands for the value wherever it is a whole word. -/
structure IsWord (room : Nat) (value : Value) (word : List Char) : Prop where
  nonempty : word ≠ []
  all : ∀ c ∈ word, isWordChar c = true
  gives : ∀ text rest, skipSpace text = word ++ rest → WordEnds rest →
    Gives (readValue room text) value rest

theorem isWord_of_mem_named {word : List Char} (h : (word, value) ∈ named) :
    IsWord room value word := by
  have hword : word ≠ [] ∧ ∀ c ∈ word, isWordChar c = true := by
    simp only [named, List.mem_cons, List.not_mem_nil, or_false, Prod.mk.injEq] at h
    rcases h with ⟨rfl, -⟩ | ⟨rfl, -⟩ | ⟨rfl, -⟩
    all_goals exact ⟨List.cons_ne_nil _ _, List.forall_iff_forall_mem.mp (by decide)⟩
  exact ⟨hword.1, hword.2, fun text rest hs _ => readValue_gives.mpr (.name h hs)⟩

theorem exists_isWord_negative {body : List Char} {n : Number}
    (h : Number.readUnsigned true body = .ok (n, rest)) (hends : WordEnds rest) :
    ∃ word, IsWord room (.num n) word ∧ '-' :: body = word ++ rest := by
  obtain ⟨used, rfl, hused, hread⟩ := Number.readsWord_readUnsigned h hends
  refine ⟨'-' :: used, ⟨by simp, ?_, fun text rest' hs hends' => ?_⟩, rfl⟩
  · intro c hc
    rcases List.mem_cons.mp hc with rfl | hc
    · decide
    · exact hused c hc
  · exact readValue_gives.mpr (.negative hs (hread rest' hends'))

theorem exists_isWord_number {c : Char} {body : List Char} {n : Number} (hc : c.isDigit = true)
    (h : Number.readUnsigned false (c :: body) = .ok (n, rest)) (hends : WordEnds rest) :
    ∃ word, IsWord room (.num n) word ∧ c :: body = word ++ rest := by
  obtain ⟨used, hbody, hused, hread⟩ := Number.readsWord_readUnsigned h hends
  cases used with
  | nil =>
    obtain rfl : c :: body = rest := hbody
    cases (isWordChar_of_isDigit hc).symm.trans (wordEnds_cons.mp hends)
  | cons d used =>
    obtain ⟨rfl, -⟩ := List.cons.inj hbody
    refine ⟨c :: used, ⟨by simp, hused, fun text rest' hs hends' => ?_⟩, hbody⟩
    exact readValue_gives.mpr (.number hs hc (hread rest' hends'))

/-- What is read as a value in front of the end of a word, by the token that comes next. -/
inductive ReadsToken (room : Nat) (text : List Char) : Value → List Char → Prop
  | word {word rest : List Char} {value : Value} (hword : IsWord room value word)
      (h : skipSpace text = word ++ rest) : ReadsToken room text value rest
  | string {body chars rest : List Char} (h : skipSpace text = '"' :: body)
      (hread : Gives (readString body) chars rest) :
      ReadsToken room text (.str (String.ofList chars)) rest
  | list {inner : Nat} {body rest : List Char} {items : List Value} (hroom : room = inner + 1)
      (h : skipSpace text = '[' :: body) (hread : Gives (readList (readValue inner) body) items rest) :
      ReadsToken room text (.arr items) rest
  | object {inner : Nat} {body rest : List Char} {fields : List (String × Value)}
      (hroom : room = inner + 1) (h : skipSpace text = '{' :: body)
      (hread : Gives (readObject (readValue inner) body) fields rest) :
      ReadsToken room text (.obj (collectFields fields)) rest

theorem readsToken_of_gives (h : Gives (readValue room text) value rest) (hends : WordEnds rest) :
    ReadsToken room text value rest := by
  cases readValue_gives.mp h with
  | name hword hs => exact .word (isWord_of_mem_named hword) hs
  | string hs hread => exact .string hs hread
  | list hroom hs hread => exact .list hroom hs hread
  | object hroom hs hread => exact .object hroom hs hread
  | negative hs hread =>
    obtain ⟨word, hword, heq⟩ := exists_isWord_negative hread hends
    exact .word hword (hs.trans heq)
  | number hs hc hread =>
    obtain ⟨word, hword, heq⟩ := exists_isWord_number hc hread hends
    exact .word hword (hs.trans heq)

theorem ReadsToken.closesNext_eq (h : ReadsToken room text value rest) : closesNext text = false := by
  cases h with
  | @word word _ _ hword hs =>
    obtain ⟨hnil, hall, -⟩ := hword
    cases word with
    | nil => exact absurd rfl hnil
    | cons c word =>
      have hc := hall c List.mem_cons_self
      rw [closesNext_of_skipSpace hs (isBlank_of_isWordChar hc)]
      have hno : c ≠ '}' ∧ c ≠ ']' := by
        constructor <;> (rintro rfl; cases hc)
      simp [hno.1, hno.2]
  | string hs | list _ hs | object _ hs =>
    rw [closesNext_of_skipSpace hs (by decide)]
    decide

/-- One level of containers after the other. -/
theorem readsTokens_readValue : ReadsTokens (readValue room) := by
  induction room using Nat.strongRecOn with
  | ind room ih =>
    intro text value rest h hends
    have htoken := readsToken_of_gives h (wordEnds_of_skipSpace hends)
    refine ⟨htoken.closesNext_eq, fun hrest => ?_⟩
    cases htoken with
    | word hword hs =>
      obtain ⟨hnil, hall, -⟩ := hword
      exact .of_skipSpace (hs ▸ .word hnil hall hends hrest)
    | string hs hread => exact .of_skipSpace (hs ▸ tokens_of_readString hread hrest)
    | list hroom hs hread =>
      exact .of_mark hs (by decide) nofun (tokens_of_readList (ih _ (by omega)) hread hrest)
    | object hroom hs hread =>
      exact .of_mark hs (by decide) nofun (tokens_of_readObject (ih _ (by omega)) hread hrest)

/-- A text that stands for a value falls into tokens. -/
theorem tokens_of_parse (h : parse text = .ok value) : Tokens text := by
  obtain ⟨rest, hread, hs⟩ := parse_eq_ok_iff.mp h
  have hends : WordEnds (skipSpace rest) := by simp [hs, WordEnds]
  exact (readsTokens_readValue hread hends).2 (.of_skipSpace (hs ▸ .nil))

end Values

end Tsconfig.Json
