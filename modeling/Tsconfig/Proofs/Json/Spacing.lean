import Tsconfig.Proofs.Json.Tokens

/-! Texts with the same tokens stand for the same value, however the tokens are spaced. -/
namespace Tsconfig.Json

/-- The same tokens in the same order, with any white space between them. -/
inductive SameTokens : List Char → List Char → Prop
  | nil : SameTokens [] []
  | left {c : Char} {text other : List Char} (hc : isSpace c = true) (h : SameTokens text other) :
      SameTokens (c :: text) other
  | right {c : Char} {text other : List Char} (hc : isSpace c = true) (h : SameTokens text other) :
      SameTokens text (c :: other)
  | mark {c : Char} {text other : List Char} (hc : c ∈ marks) (h : SameTokens text other) :
      SameTokens (c :: text) (c :: other)
  | string {body text other : List Char} (hbody : LiteralBody body) (h : SameTokens text other) :
      SameTokens ('"' :: (body ++ '"' :: text)) ('"' :: (body ++ '"' :: other))
  | word {word text other : List Char} (hnil : word ≠ [])
      (hword : ∀ c ∈ word, isWordChar c = true) (hends : WordEnds text) (hends' : WordEnds other)
      (h : SameTokens text other) : SameTokens (word ++ text) (word ++ other)

section Blanks
variable {text other blanks : List Char}

theorem SameTokens.blanks_left (hblanks : ∀ c ∈ blanks, isSpace c = true)
    (h : SameTokens text other) : SameTokens (blanks ++ text) other := by
  induction blanks with
  | nil => exact h
  | cons c blanks ih =>
    exact .left (hblanks c List.mem_cons_self) (ih fun d hd => hblanks d (List.mem_cons_of_mem _ hd))

theorem SameTokens.blanks_right (hblanks : ∀ c ∈ blanks, isSpace c = true)
    (h : SameTokens text other) : SameTokens text (blanks ++ other) := by
  induction blanks with
  | nil => exact h
  | cons c blanks ih =>
    exact .right (hblanks c List.mem_cons_self) (ih fun d hd => hblanks d (List.mem_cons_of_mem _ hd))

end Blanks

/-- The same token comes next, and then the same tokens again. -/
inductive SameNext : List Char → List Char → Prop
  | nil : SameNext [] []
  | mark {c : Char} {text other : List Char} (hc : c ∈ marks) (h : SameTokens text other) :
      SameNext (c :: text) (c :: other)
  | string {body text other : List Char} (hbody : LiteralBody body) (h : SameTokens text other) :
      SameNext ('"' :: (body ++ '"' :: text)) ('"' :: (body ++ '"' :: other))
  | word {c : Char} {word text other : List Char} (hword : ∀ d ∈ c :: word, isWordChar d = true)
      (hends : WordEnds text) (hends' : WordEnds other) (h : SameTokens text other) :
      SameNext (c :: (word ++ text)) (c :: (word ++ other))

section Next
variable {text other rest : List Char} {c : Char}

theorem SameTokens.next (h : SameTokens text other) : SameNext (skipSpace text) (skipSpace other) := by
  induction h with
  | nil => exact .nil
  | left hc _ ih => rwa [skipSpace_cons_space hc]
  | right hc _ ih => rwa [skipSpace_cons_space hc]
  | mark hc h =>
    have hspace := isSpace_eq_false_of_isBlank (isBlank_of_mem_marks _ hc)
    rw [skipSpace_cons_token hspace, skipSpace_cons_token hspace]
    exact .mark hc h
  | string hbody h =>
    rw [skipSpace_cons_token (by decide), skipSpace_cons_token (by decide)]
    exact .string hbody h
  | @word word _ _ hnil hword hends hends' h =>
    cases word with
    | nil => exact absurd rfl hnil
    | cons c word =>
      have hspace :=
        isSpace_eq_false_of_isBlank (isBlank_of_isWordChar (hword c List.mem_cons_self))
      rw [List.cons_append, List.cons_append, skipSpace_cons_token hspace,
        skipSpace_cons_token hspace]
      exact .word hword hends hends' h

theorem SameTokens.head? (h : SameTokens text other) :
    (skipSpace text).head? = (skipSpace other).head? := by
  have hnext := h.next
  generalize skipSpace text = start at hnext
  generalize skipSpace other = start' at hnext
  cases hnext <;> rfl

theorem SameTokens.skipSpace_eq_nil (h : SameTokens text other) (hs : skipSpace text = []) :
    skipSpace other = [] := by
  have hhead := h.head?
  rw [hs, List.head?_nil, eq_comm, List.head?_eq_none_iff] at hhead
  exact hhead

theorem SameTokens.after_mark (h : SameTokens text other) (hs : skipSpace text = c :: rest)
    (hc : c ∈ marks) : ∃ rest', skipSpace other = c :: rest' ∧ SameTokens rest rest' := by
  have hnext := h.next
  rw [hs] at hnext
  generalize skipSpace other = found at hnext
  cases hnext with
  | mark _ h => exact ⟨_, rfl, h⟩
  | string => exact absurd hc (by decide)
  | word hword =>
    cases (hword c List.mem_cons_self).symm.trans (isWordChar_of_mem_marks c hc)

theorem SameTokens.after_string {body chars : List Char} (h : SameTokens text other)
    (hs : skipSpace text = '"' :: body) (hread : Gives (readString body) chars rest) :
    ∃ body' rest', skipSpace other = '"' :: body' ∧ Gives (readString body') chars rest' ∧
      SameTokens rest rest' := by
  obtain ⟨used, hused, rfl, huses⟩ := exists_uses_readString hread
  have hnext := h.next
  rw [hs] at hnext
  generalize skipSpace other = found at hnext
  generalize heq : '"' :: (used ++ '"' :: rest) = start at hnext
  cases hnext with
  | nil => cases heq
  | mark hc =>
    obtain ⟨rfl, -⟩ := List.cons.inj heq
    exact absurd hc (by decide)
  | string hbody h =>
    obtain ⟨rfl, rfl⟩ := hused.eq_of_append hbody (List.cons.inj heq).2
    exact ⟨_, _, rfl, huses _, h⟩
  | word hword =>
    obtain ⟨rfl, -⟩ := List.cons.inj heq
    cases hword '"' List.mem_cons_self

theorem SameTokens.after_word {word : List Char} (h : SameTokens text other)
    (hs : skipSpace text = word ++ rest) (hnil : word ≠ [])
    (hword : ∀ c ∈ word, isWordChar c = true) (hends : WordEnds rest) :
    ∃ rest', skipSpace other = word ++ rest' ∧ WordEnds rest' ∧ SameTokens rest rest' := by
  cases word with
  | nil => exact absurd rfl hnil
  | cons c word =>
    have hnext := h.next
    rw [hs] at hnext
    generalize skipSpace other = found at hnext
    generalize heq : c :: word ++ rest = start at hnext
    have hc := hword c List.mem_cons_self
    cases hnext with
    | nil => cases heq
    | mark hmark =>
      obtain ⟨rfl, -⟩ := List.cons.inj heq
      cases hc.symm.trans (isWordChar_of_mem_marks c hmark)
    | string =>
      obtain ⟨rfl, -⟩ := List.cons.inj heq
      cases hc
    | word hword' hends' hends'' h =>
      rw [← List.cons_append] at heq
      obtain ⟨hsame, rfl⟩ := word_eq_of_append hword hword' hends hends' heq
      exact ⟨_, congrArg (· ++ _) hsame.symm, hends'', h⟩

end Next

section Readers
variable {item : Reader} {text other rest : List Char}

theorem SameTokens.startsItem (h : SameTokens text other) (hs : StartsItem text) :
    StartsItem other := by
  obtain ⟨c, rest, hs, hc⟩ := hs
  have hhead := h.head?
  rw [hs, List.head?_cons, eq_comm] at hhead
  obtain ⟨rest', hs'⟩ := List.head?_eq_some_iff.mp hhead
  exact ⟨c, rest', hs', hc⟩

/-- The reader gives the same for texts with the same tokens. -/
def IgnoresSpace (item : Reader) : Prop :=
  ∀ {text other value rest}, Gives (item text) value rest → WordEnds (skipSpace rest) →
    SameTokens text other → ∃ rest', Gives (item other) value rest' ∧ SameTokens rest rest'

theorem readItems_ignoresSpace (hitem : IgnoresSpace item) {values : List Value}
    (hread : Gives (readItems item text) values rest) (h : SameTokens text other) :
    ∃ rest', Gives (readItems item other) values rest' ∧ SameTokens rest rest' := by
  induction values generalizing text other with
  | nil =>
    rcases readItems_gives.mp hread with ⟨hs, -⟩ | ⟨_, _, _, _, -, -, -, -, hvalues⟩
    · obtain ⟨rest', hs', h⟩ := h.after_mark hs (by decide)
      exact ⟨rest', readItems_gives.mpr (.inl ⟨hs', rfl⟩), h⟩
    · cases hvalues
  | cons value values ih =>
    rcases readItems_gives.mp hread with ⟨-, hvalues⟩ |
      ⟨next, value', after, others, hs, hstarts, hvalue, hothers, hvalues⟩
    · cases hvalues
    · cases hvalues
      obtain ⟨next', hs', h⟩ := h.after_mark hs (by decide)
      obtain ⟨after', hvalue', h'⟩ := hitem hvalue (wordEnds_of_readItems hothers) h
      obtain ⟨rest', hothers', h''⟩ := ih hothers h'
      exact ⟨rest', readItems_gives.mpr (.inr
        ⟨next', value, after', values, hs', h.startsItem hstarts, hvalue', hothers', rfl⟩), h''⟩

theorem readList_ignoresSpace (hitem : IgnoresSpace item) {values : List Value}
    (hread : Gives (readList item text) values rest) (h : SameTokens text other) :
    ∃ rest', Gives (readList item other) values rest' ∧ SameTokens rest rest' := by
  rcases readList_gives.mp hread with ⟨hs, rfl⟩ |
    ⟨value, after, others, hstarts, hvalue, hothers, rfl⟩
  · obtain ⟨rest', hs', h⟩ := h.after_mark hs (by decide)
    exact ⟨rest', readList_gives.mpr (.inl ⟨hs', rfl⟩), h⟩
  · obtain ⟨after', hvalue', h'⟩ := hitem hvalue (wordEnds_of_readItems hothers) h
    obtain ⟨rest', hothers', h''⟩ := readItems_ignoresSpace hitem hothers h'
    exact ⟨rest', readList_gives.mpr (.inr
      ⟨value, after', others, h.startsItem hstarts, hvalue', hothers', rfl⟩), h''⟩

/-- The field of an object, with the quote in front of its name. -/
theorem readField_ignoresSpace (hitem : IgnoresSpace item) {name : List Char}
    {field : String × Value} (hread : Gives (readField item name) field rest)
    (hends : WordEnds (skipSpace rest)) (hs : skipSpace text = '"' :: name) (h : SameTokens text other) :
    ∃ name' rest', skipSpace other = '"' :: name' ∧ Gives (readField item name') field rest' ∧
      SameTokens rest rest' := by
  obtain ⟨chars, after, next, value, hname, hcolon, hvalue, rfl⟩ := readField_gives.mp hread
  obtain ⟨name', after', hs', hname', h⟩ := h.after_string hs hname
  obtain ⟨next', hcolon', h⟩ := h.after_mark hcolon (by decide)
  obtain ⟨rest', hvalue', h⟩ := hitem hvalue hends h
  exact ⟨name', rest', hs',
    readField_gives.mpr ⟨chars, after', next', value, hname', hcolon', hvalue', rfl⟩, h⟩

theorem readFields_ignoresSpace (hitem : IgnoresSpace item) {fields : List (String × Value)}
    (hread : Gives (readFields item text) fields rest) (h : SameTokens text other) :
    ∃ rest', Gives (readFields item other) fields rest' ∧ SameTokens rest rest' := by
  induction fields generalizing text other with
  | nil =>
    rcases readFields_gives.mp hread with ⟨hs, -⟩ | ⟨_, _, _, _, _, -, -, -, -, hfields⟩
    · obtain ⟨rest', hs', h⟩ := h.after_mark hs (by decide)
      exact ⟨rest', readFields_gives.mpr (.inl ⟨hs', rfl⟩), h⟩
    · cases hfields
  | cons field fields ih =>
    rcases readFields_gives.mp hread with ⟨-, hfields⟩ |
      ⟨next, name, field', after, others, hs, hname, hfield, hothers, hfields⟩
    · cases hfields
    · cases hfields
      obtain ⟨next', hs', h⟩ := h.after_mark hs (by decide)
      obtain ⟨name', after', hname', hfield', h⟩ :=
        readField_ignoresSpace hitem hfield (wordEnds_of_readFields hothers) hname h
      obtain ⟨rest', hothers', h⟩ := ih hothers h
      exact ⟨rest', readFields_gives.mpr (.inr
        ⟨next', name', field, after', fields, hs', hname', hfield', hothers', rfl⟩), h⟩

theorem readObject_ignoresSpace (hitem : IgnoresSpace item) {fields : List (String × Value)}
    (hread : Gives (readObject item text) fields rest) (h : SameTokens text other) :
    ∃ rest', Gives (readObject item other) fields rest' ∧ SameTokens rest rest' := by
  rcases readObject_gives.mp hread with ⟨hs, rfl⟩ | ⟨name, field, after, others, hs, hfield, hothers, rfl⟩
  · obtain ⟨rest', hs', h⟩ := h.after_mark hs (by decide)
    exact ⟨rest', readObject_gives.mpr (.inl ⟨hs', rfl⟩), h⟩
  · obtain ⟨name', after', hs', hfield', h⟩ :=
      readField_ignoresSpace hitem hfield (wordEnds_of_readFields hothers) hs h
    obtain ⟨rest', hothers', h⟩ := readFields_ignoresSpace hitem hothers h
    exact ⟨rest', readObject_gives.mpr (.inr ⟨name', field, after', others, hs', hfield', hothers', rfl⟩), h⟩

theorem readValue_ignoresSpace (room : Nat) : IgnoresSpace (readValue room) := by
  induction room using Nat.strongRecOn with
  | ind room ih =>
    intro text other value rest hread hends h
    replace hends : WordEnds rest := wordEnds_of_skipSpace hends
    cases readsToken_of_gives hread hends with
    | word hword hs =>
      obtain ⟨rest', hs', hends', h⟩ := h.after_word hs hword.nonempty hword.all hends
      exact ⟨rest', hword.gives other rest' hs' hends', h⟩
    | string hs hread =>
      obtain ⟨body, rest', hs', hread', h⟩ := h.after_string hs hread
      exact ⟨rest', readValue_gives.mpr (.string hs' hread'), h⟩
    | list hroom hs hread =>
      obtain ⟨body, hs', h⟩ := h.after_mark hs (by decide)
      obtain ⟨rest', hread', h⟩ := readList_ignoresSpace (ih _ (by omega)) hread h
      exact ⟨rest', readValue_gives.mpr (.list hroom hs' hread'), h⟩
    | object hroom hs hread =>
      obtain ⟨body, hs', h⟩ := h.after_mark hs (by decide)
      obtain ⟨rest', hread', h⟩ := readObject_ignoresSpace (ih _ (by omega)) hread h
      exact ⟨rest', readValue_gives.mpr (.object hroom hs' hread'), h⟩

/-- White space between tokens does not change what a text stands for. -/
theorem parse_eq_of_sameTokens {value : Value} (h : SameTokens text other)
    (hparse : parse text = .ok value) : parse other = .ok value := by
  obtain ⟨rest, hread, hs⟩ := parse_eq_ok_iff.mp hparse
  have hends : WordEnds (skipSpace rest) := by simp [hs, WordEnds]
  obtain ⟨rest', hread', h⟩ := readValue_ignoresSpace maxDepth hread hends h
  exact parse_eq_ok_iff.mpr ⟨rest', hread', h.skipSpace_eq_nil hs⟩

end Readers
end Tsconfig.Json
