import Tsconfig.Proofs.Source.Component.Language
import Tsconfig.Proofs.Source.Component.Parts

/-!
A script whose tag has attributes with quoted values. The tag is taken to end at the first sign that could end
it, within a value too, and the attribute `lang` is looked for as a word, within names and values too.
-/
namespace Tsconfig.Source.Component
open Text

/-- A character that names of attributes are made of. -/
def isNameChar (c : Char) : Bool :=
  !(isBlank c || ['"', '\'', '>', '/', '='].contains c)

/-- An attribute with its value in double quotes. -/
structure Attribute where
  name : List Char
  value : List Char
  isName : ∀ c ∈ name, isNameChar c = true
  isValue : '"' ∉ value

namespace Attribute

def toChars (item : Attribute) : List Char :=
  ' ' :: (item.name ++ '=' :: '"' :: (item.value ++ ['"']))

/-- An attribute in which nothing reads like another one of the name `lang`: its own name does not end in that
word twice, and in its value no such word that stands apart has an equals sign behind it. -/
structure IsClear (item : Attribute) : Prop where
  name : ¬langName ++ langName <:+ item.name
  value : ∀ before after, item.value = before ++ (langName ++ after) → StandsApart false before →
    ∀ rest, trimStart after ≠ '=' :: rest

end Attribute

section Attributes
variable {apart : Bool} {item : Attribute} {attributes : List Attribute}

theorem langIn_cons_of_notMem {c : Char} (h : c ∉ langName) (rest : List Char) :
    langIn apart (c :: rest) = langIn (isBlank c) rest :=
  @langIn_of_cutAt?_eq_none apart [] c rfl h rest

/-- The language is looked for behind a name other than `lang`. -/
theorem langIn_name (hname : item.name ≠ langName) (hclear : item.IsClear) (rest : List Char) :
    langIn true (item.name ++ '=' :: rest) = langIn false rest := by
  refine langIn_append (by decide) (by decide) rest fun before after heq hapart value htrim => ?_
  cases after with
  | nil =>
    rw [List.append_nil] at heq
    rcases hapart with ⟨rfl, -⟩ | ⟨c, hc, hblank⟩ | ⟨lead, rfl⟩
    · exact hname heq
    · have hchar := item.isName c (heq ▸ List.mem_append_left _ (List.mem_of_getLast? hc))
      rw [isNameChar, hblank] at hchar
      cases hchar
    · exact hclear.name ⟨lead, by rw [heq, List.append_assoc]⟩
  | cons c after =>
    have hchar := item.isName c (by simp [heq])
    have hblank : isBlank c = false := by
      rw [isNameChar, Bool.not_eq_true', Bool.or_eq_false_iff] at hchar
      exact hchar.1
    rw [List.cons_append, trimStart_cons hblank] at htrim
    obtain ⟨rfl, -⟩ := List.cons.inj htrim
    cases hchar

theorem langIn_value (hclear : item.IsClear) (rest : List Char) :
    langIn false (item.value ++ '"' :: rest) = langIn false rest := by
  refine langIn_append (by decide) (by decide) rest fun before after heq hapart value htrim => ?_
  rw [trimStart_append_cons (by decide)] at htrim
  cases hafter : trimStart after with
  | nil =>
    rw [hafter] at htrim
    cases htrim
  | cons c behind =>
    rw [hafter] at htrim
    obtain ⟨rfl, -⟩ := List.cons.inj htrim
    exact hclear.value before after heq hapart behind hafter

/-- A clear attribute is passed over. -/
theorem langIn_clear (hname : item.name ≠ langName) (hclear : item.IsClear) (rest : List Char) :
    langIn apart (item.toChars ++ rest) = langIn false rest := by
  have hchars : item.toChars ++ rest =
      ' ' :: (item.name ++ '=' :: '"' :: (item.value ++ '"' :: rest)) := by
    simp [Attribute.toChars]
  rw [hchars, langIn_cons_of_notMem (by decide)]
  change langIn true _ = _
  rw [langIn_name hname hclear, langIn_cons_of_notMem (by decide)]
  exact langIn_value hclear rest

/-- The value of the attribute `lang` is read up to its quote. -/
theorem langIn_lang (hname : item.name = langName) (rest : List Char) :
    langIn apart (item.toChars ++ rest) = some item.value := by
  have hchars : item.toChars ++ rest =
      ' ' :: 'l' :: 'a' :: 'n' :: 'g' :: '=' :: '"' :: (item.value ++ '"' :: rest) := by
    simp [Attribute.toChars, hname, langName]
  have hvalue : valueAfter ('=' :: '"' :: (item.value ++ '"' :: rest)) =
      some (some item.value) := by
    change some ((cutAt? ['"'] (item.value ++ '"' :: rest)).map Prod.fst) = _
    rw [cutAt?_singleton_eq_some_iff.mpr ⟨rfl, item.isValue⟩]
    rfl
  have hblank : isBlank ' ' = true := by decide
  rw [hchars, langIn_cons_of_notMem (by decide), langIn, hblank, if_pos rfl, hvalue]

/-- Where the attributes in front of `lang` are clear, its value is found. -/
theorem langIn_attributes
    (h : ∀ item ∈ attributes.takeWhile fun item => item.name ≠ langName,
      item.IsClear) :
    langIn apart (attributes.flatMap Attribute.toChars) =
      (attributes.find? fun item => item.name = langName).map Attribute.value := by
  induction attributes generalizing apart with
  | nil => rfl
  | cons item attributes ih =>
    rw [List.flatMap_cons]
    by_cases hname : item.name = langName
    · rw [langIn_lang hname, List.find?_cons_of_pos (by simpa using hname)]
      rfl
    · rw [List.takeWhile_cons_of_pos (by simpa using hname)] at h
      obtain ⟨hfirst, hrest⟩ := List.forall_mem_cons.mp h
      rw [langIn_clear hname hfirst, ih hrest, List.find?_cons_of_neg (by simpa using hname)]

end Attributes

section Unclear
variable {apart : Bool} {c : Char} {lead more value : List Char} {item : Attribute}

theorem length_le_or_mem_of_isPrefix_append (h : value <+: lead ++ c :: more) :
    value.length ≤ lead.length ∨ c ∈ value := by
  obtain ⟨rest, hrest⟩ := h
  rcases List.append_eq_append_iff.mp hrest with ⟨tail, rfl, -⟩ | ⟨tail, rfl, htail⟩
  · exact .inl (by simp)
  · cases tail with
    | nil => exact .inl (by simp)
    | cons d tail =>
      obtain ⟨rfl, -⟩ := List.cons.inj htail
      exact .inr (by simp)

/-- A value ends in front of a blank or goes on behind it. -/
theorem valueOf_blank (h : valueOf (lead ++ ' ' :: more) = some value) :
    value.length ≤ lead.length ∨ ' ' ∈ value := by
  cases lead with
  | nil =>
    obtain rfl : [] = value := by simpa [valueOf, unquoted, isBlank] using h
    exact .inl (Nat.le_refl 0)
  | cons quote lead =>
    rw [List.cons_append, valueOf] at h
    split at h
    · obtain ⟨⟨inner, after⟩, hcut, rfl⟩ := Option.map_eq_some_iff.mp h
      have hlead : inner <+: lead ++ ' ' :: more := by
        rw [eq_append_of_cutAt? hcut, List.append_assoc]
        exact List.prefix_append _ _
      refine (length_le_or_mem_of_isPrefix_append hlead).imp_left fun hle => ?_
      exact Nat.le_succ_of_le hle
    · obtain rfl := Option.some.inj h
      exact length_le_or_mem_of_isPrefix_append (List.takeWhile_prefix _)

/-- In an attribute that is not clear, a value is looked for. -/
theorem exists_assigned (h : ¬item.IsClear) : ∃ before after,
    item.toChars = before ++ (langName ++ after) ∧ StandsApart apart before ∧
      ∃ value, trimStart after = '=' :: value := by
  by_cases hname : langName ++ langName <:+ item.name
  · obtain ⟨front, hfront⟩ := hname
    refine ⟨' ' :: (front ++ langName), '=' :: '"' :: (item.value ++ ['"']), ?_,
      .inr (.inr ⟨' ' :: front, rfl⟩), _, rfl⟩
    simp [Attribute.toChars, ← hfront]
  · obtain ⟨before, after, heq, hapart, tail, htail⟩ : ∃ before after,
        item.value = before ++ (langName ++ after) ∧ StandsApart false before ∧
          ∃ tail, trimStart after = '=' :: tail :=
      Classical.byContradiction fun hnone => h ⟨hname, fun before after heq hapart tail htail =>
        hnone ⟨before, after, heq, hapart, tail, htail⟩⟩
    refine ⟨' ' :: (item.name ++ '=' :: '"' :: before), after ++ ['"'], ?_, ?_, ?_⟩
    · simp [Attribute.toChars, heq]
    · rcases hapart with ⟨-, hfalse⟩ | ⟨d, hd, hblank⟩ | hsuffix
      · cases hfalse
      · have hfront : ' ' :: (item.name ++ '=' :: '"' :: before) =
            ' ' :: (item.name ++ ['=', '"']) ++ before := by simp
        refine .inr (.inl ⟨d, ?_, hblank⟩)
        rw [hfront, List.getLast?_append, hd]
        rfl
      · exact .inr (.inr (hsuffix.trans ⟨' ' :: (item.name ++ ['=', '"']), by simp⟩))
    · exact ⟨tail ++ ['"'], trimStart_append_of_eq_cons htail ['"']⟩

/-- The value that is read then begins in the attribute. -/
theorem langIn_of_not_isClear (h : ¬item.IsClear)
    (hvalue : langIn apart (item.toChars ++ ' ' :: more) = some value) :
    value.length ≤ item.toChars.length ∨ ' ' ∈ value := by
  obtain ⟨before, after, heq, hapart, hassigned⟩ := @exists_assigned apart item h
  obtain ⟨front, behind, hchars, hbehind⟩ := exists_valueAfter_eq (' ' :: more) heq hapart hassigned
  rw [hvalue] at hbehind
  -- the attribute ends in a quote, so that an equals sign and the start of a value stand within it
  obtain ⟨inner, rfl⟩ : ∃ inner, behind = inner ++ ['"'] := by
    have hend : item.toChars = ' ' :: (item.name ++ '=' :: '"' :: item.value) ++ ['"'] := by
      simp [Attribute.toChars]
    have hlast := congrArg List.getLast? hend
    rw [List.getLast?_concat, hchars] at hlast
    rcases List.eq_nil_or_concat behind with rfl | ⟨inner, d, rfl⟩
    · simp [langName] at hlast
    · obtain rfl : d = '"' := by simpa using hlast
      exact ⟨inner, List.concat_eq_append⟩
  have htrim := @trimStart_append_cons '"' (by decide) inner (' ' :: more)
  rw [List.append_assoc, List.singleton_append] at hbehind
  obtain ⟨tail, htail⟩ : ∃ tail, trimStart inner = '=' :: tail := by
    refine Classical.byContradiction fun hnone => ?_
    rw [valueAfter_of_forall_ne] at hbehind
    · cases hbehind
    · intro tail htext
      rw [htrim] at htext
      cases hinner : trimStart inner with
      | nil =>
        rw [hinner] at htext
        cases htext
      | cons d rest =>
        rw [hinner] at htext
        obtain ⟨rfl, -⟩ := List.cons.inj htext
        exact hnone ⟨rest, hinner⟩
  rw [htail, List.cons_append] at htrim
  rw [valueAfter_of_eq_cons htrim, trimStart_append_cons (by decide), List.append_cons,
    Option.some.injEq] at hbehind
  refine (valueOf_blank hbehind).imp_left fun hle => ?_
  have htailLength : (trimStart tail).length ≤ tail.length := (List.dropWhile_sublist _).length_le
  have hinnerLength : (trimStart inner).length ≤ inner.length := (List.dropWhile_sublist _).length_le
  have hlength := congrArg List.length hchars
  simp only [List.length_append, List.length_cons, List.length_nil] at hle hlength
  rw [htail, List.length_cons] at hinnerLength
  omega

end Unclear

section Surroundings
variable {w c : Char} {word text rest before after : List Char} {parts : List Part}

theorem startsWith_of_contains_eq_false (h : contains word (lower text) = false)
    (heq : text = before ++ after) : startsWith word after = false := by
  rw [← Bool.not_eq_true, startsWith_iff]
  intro hlower
  have htext : lower text =
      lower before ++ (lower (after.take word.length) ++ lower (after.drop word.length)) := by
    rw [lower, lower, lower, lower, ← List.map_append, List.take_append_drop, ← List.map_append, heq]
  rw [hlower] at htext
  rw [htext, contains_of_eq_append] at h
  cases h

/-- A word that a text lacks does not start there and end behind, if only its first character is met
behind. -/
theorem startsWith_append_eq_false (h : contains (w :: word) (lower text) = false) (hw : w ∉ word)
    (hrest : rest = [] ∨ ∃ c behind, rest = c :: behind ∧ c.toLower = w) (heq : text = before ++ after)
    (hne : after ≠ []) : startsWith (w :: word) (after ++ rest) = false := by
  have hwithin := startsWith_of_contains_eq_false h heq
  rw [← Bool.not_eq_true, startsWith_iff] at hwithin ⊢
  intro hlower
  by_cases hlength : (w :: word).length ≤ after.length
  · rw [List.take_append_of_le_length hlength] at hlower
    exact hwithin hlower
  · obtain ⟨d, after, rfl⟩ := List.exists_cons_of_ne_nil hne
    rcases hrest with rfl | ⟨c, behind, rfl, hc⟩
    · rw [List.append_nil] at hlower
      exact hwithin hlower
    · obtain ⟨n, hn⟩ : ∃ n, (w :: word).length - (d :: after).length = n + 1 :=
        Nat.exists_eq_succ_of_ne_zero (by omega)
      rw [List.take_append, List.take_of_length_le (by omega), hn, List.take_succ_cons, lower,
        List.cons_append, List.map_cons, List.cons.injEq] at hlower
      refine hw ?_
      rw [← hlower.2]
      simp [hc]

/-- Characters at which no script is opened. -/
theorem Parted.others (hrest : Parted parts rest) (h : ∀ before after, text = before ++ after →
      after ≠ [] → opensScript (after ++ rest) = false) :
    Parted (text.map Part.other ++ parts) (text ++ rest) := by
  induction text with
  | nil => exact hrest
  | cons c text ih =>
    refine .other (h [] (c :: text) rfl (List.cons_ne_nil c text)) (ih fun before after heq hne => ?_)
    exact h (c :: before) after (by rw [heq, List.cons_append]) hne

theorem openingName_eq : openingName = '<' :: "script".toList := by decide +kernel

theorem closingName_eq : closingName = '<' :: "/script".toList := by decide +kernel

theorem opensScript_cons_of_ne (h : c.toLower ≠ '<') (rest : List Char) :
    opensScript (c :: rest) = false := by
  rw [opensScript, Bool.and_eq_false_iff]
  refine .inl (Bool.eq_false_iff.mpr fun hstarts => h ?_)
  have hlower := startsWith_iff.mp hstarts
  rw [openingName_eq, List.length_cons, List.take_succ_cons, lower, List.map_cons] at hlower
  exact (List.cons.inj hlower).1

theorem startsWith_openingName (rest : List Char) :
    startsWith openingName (openingName ++ rest) = true := by
  rw [startsWith_iff, List.take_left]
  decide +kernel

theorem startsWith_closingName (rest : List Char) :
    startsWith closingName (closingName ++ rest) = true := by
  rw [startsWith_iff, List.take_left]
  decide +kernel

/-- Behind a script nothing is opened if the text there does not open anything. -/
theorem parted_closing (h : contains openingName (lower text) = false) :
    Parted ((closingName ++ '>' :: text).map Part.other) (closingName ++ '>' :: text) := by
  have htext : Parted (text.map Part.other) text := by
    have hothers := Parted.others .nil fun before after (heq : text = before ++ after) _ => by
      rw [opensScript, List.append_nil, startsWith_of_contains_eq_false h heq, Bool.false_and]
    rwa [List.append_nil, List.append_nil] at hothers
  have hname : ∀ c ∈ "/script>".toList, (c.toLower != '<') = true :=
    List.all_eq_true.mp (by decide +kernel)
  have hbehind := htext.others fun before after (heq : "/script>".toList = before ++ after) hne => by
    obtain ⟨c, after, rfl⟩ := List.exists_cons_of_ne_nil hne
    exact opensScript_cons_of_ne (bne_iff_ne.mp (hname c (by simp [heq]))) _
  have hchars : closingName ++ '>' :: text = '<' :: ("/script>".toList ++ text) := by
    have hclosing : closingName ++ ['>'] = '<' :: "/script>".toList := by decide +kernel
    rw [List.append_cons, hclosing, List.cons_append]
  rw [← List.map_append] at hbehind
  have hclosed := startsWith_closingName ('>' :: text)
  rw [hchars] at hclosed ⊢
  exact .other (opensScript_of_closing hclosed) hbehind

end Surroundings

/-- A component with one script, whose tag has these attributes. -/
def component (lead : List Char) (attributes : List Attribute) (body tail : List Char) : List Char :=
  lead ++ (openingName ++ (attributes.flatMap Attribute.toChars ++ '>' ::
    (body ++ (closingName ++ '>' :: tail))))

section Component
variable {lead body tail : List Char} {attributes : List Attribute}

theorem opensScript_attributes (attributes : List Attribute) (rest : List Char) :
    opensScript (openingName ++ (attributes.flatMap Attribute.toChars ++ '>' :: rest)) = true := by
  rw [opensScript, startsWith_openingName, List.drop_left, Bool.true_and]
  cases attributes with
  | nil => rfl
  | cons item attributes => rfl

theorem isEmptyTag_attributes (attributes : List Attribute) :
    isEmptyTag (attributes.flatMap Attribute.toChars) = false := by
  rcases List.eq_nil_or_concat attributes with rfl | ⟨front, item, rfl⟩
  · rfl
  · obtain ⟨text, htext⟩ : ∃ text, (front.concat item).flatMap Attribute.toChars = text ++ ['"'] :=
      ⟨front.flatMap Attribute.toChars ++ ' ' :: (item.name ++ '=' :: '"' :: item.value), by
        simp [Attribute.toChars]⟩
    have htrim : trimEnd (text ++ ['"']) = text ++ ['"'] := dropEndWhile_concat (by decide)
    rw [isEmptyTag, htext, htrim, List.getLast?_concat]
    decide

theorem notMem_attributes (h : ∀ item ∈ attributes, '>' ∉ item.value) :
    '>' ∉ attributes.flatMap Attribute.toChars := by
  rw [List.mem_flatMap]
  rintro ⟨item, hmem, hend⟩
  have hname : '>' ∉ item.name := fun hname => absurd (item.isName '>' hname) (by decide)
  simp [Attribute.toChars, hname, h item hmem] at hend

theorem parted_component (hlead : contains openingName (lower lead) = false)
    (htail : contains openingName (lower tail) = false)
    (hbody : contains closingName (lower body) = false) (hvalues : ∀ item ∈ attributes, '>' ∉ item.value) :
    Parted (lead.map Part.other ++ .tag openingName (attributes.flatMap Attribute.toChars) ::
      .body body :: (closingName ++ '>' :: tail).map Part.other)
      (component lead attributes body tail) := by
  have hopening : '<' ∉ "script".toList := by decide +kernel
  have hclosing : '<' ∉ "/script".toList := by decide +kernel
  refine .others (.script (opensScript_attributes attributes _) rfl (notMem_attributes hvalues)
    (isEmptyTag_attributes attributes) ⟨fun before after heq hne => ?_, ?_⟩ (parted_closing htail))
    fun before after heq hne => ?_
  · rw [closingName_eq] at hbody ⊢
    exact startsWith_append_eq_false hbody hclosing (.inr ⟨'<', _, rfl, rfl⟩) heq hne
  · exact .inr (startsWith_closingName _)
  · rw [openingName_eq] at hlead
    rw [opensScript, openingName_eq, Bool.and_eq_false_iff]
    exact .inl (startsWith_append_eq_false hlead hopening (.inr ⟨'<', _, rfl, rfl⟩) heq hne)

theorem flatMap_shown_others (text : List Char) :
    (text.map Part.other).flatMap Part.shown = text.flatMap blanked := by
  rw [List.flatMap_map]
  refine congrArg (List.flatMap · text) (funext fun c => ?_)
  simp [Part.shown, Part.toChars]

theorem findSome?_lang?_others (text : List Char) :
    (text.map Part.other).findSome? Part.lang? = none := by
  rw [List.findSome?_eq_none_iff]
  intro part hpart
  obtain ⟨c, -, rfl⟩ := List.mem_map.mp hpart
  rfl

theorem extract_component (hlead : contains openingName (lower lead) = false)
    (htail : contains openingName (lower tail) = false)
    (hbody : contains closingName (lower body) = false) (hvalues : ∀ item ∈ attributes, '>' ∉ item.value) :
    extract (String.ofList (component lead attributes body tail)) =
      ⟨String.ofList ((lead ++ openingName ++ attributes.flatMap Attribute.toChars ++ ['>']).flatMap blanked ++
        (body ++ (closingName ++ '>' :: tail).flatMap blanked)),
        (langIn true (attributes.flatMap Attribute.toChars)).map String.ofList⟩ := by
  have hextract := @Parted.extract_eq (String.ofList (component lead attributes body tail)) _ (by
    rw [String.toList_ofList]
    exact parted_component hlead htail hbody hvalues)
  rw [hextract, Script.mk.injEq]
  constructor
  · rw [List.flatMap_append, flatMap_shown_others, List.flatMap_cons, List.flatMap_cons,
      flatMap_shown_others]
    simp [Part.shown, Part.toChars]
  · rw [List.findSome?_append, findSome?_lang?_others, Option.none_or, Part.findSome?_lang?_cons,
      Part.findSome?_lang?_cons, findSome?_lang?_others]
    simp [Part.lang?]

/-- An attribute `lang` whose value is longer than a text. -/
def longLanguage (text : List Char) : Attribute where
  name := langName
  value := List.replicate (text.length + 1) 'a'
  isName := List.all_eq_true.mp (by decide)
  isValue := fun hmem => absurd (List.eq_of_mem_replicate hmem) (by decide)

/-- Behind an attribute that is not clear, the value of `lang` is not found. -/
theorem langIn_longLanguage {item : Attribute} (h : ¬item.IsClear) (apart : Bool) :
    langIn apart ([item, longLanguage item.toChars].flatMap Attribute.toChars) ≠
      some (longLanguage item.toChars).value := by
  intro hvalue
  rw [List.flatMap_cons, List.flatMap_cons, List.flatMap_nil, List.append_nil] at hvalue
  rcases langIn_of_not_isClear h hvalue with hlength | hblank
  · rw [longLanguage, List.length_replicate] at hlength
    omega
  · exact absurd (List.eq_of_mem_replicate hblank) (by decide)

end Component

/-- Where no value holds the sign that ends a tag, exactly the body is kept, besides line breaks. The language
is the value of `lang`, if the attributes in front of it are clear, or all if there is none of this name. No
less will do: behind an attribute that is not clear some value of `lang` is not found. -/
theorem extract_tagged (lead body tail : List Char) (hlead : contains openingName (lower lead) = false)
    (htail : contains openingName (lower tail) = false)
    (hbody : contains closingName (lower body) = false) :
    (∀ attributes : List Attribute, (∀ item ∈ attributes, '>' ∉ item.value) →
      (extract (String.ofList (component lead attributes body tail))).text.toList =
        (lead ++ openingName ++ attributes.flatMap Attribute.toChars ++ ['>']).flatMap blanked ++
          (body ++ (closingName ++ '>' :: tail).flatMap blanked) ∧
      ((∀ item ∈ attributes.takeWhile fun item => item.name ≠ langName, item.IsClear) →
        (extract (String.ofList (component lead attributes body tail))).lang =
          (attributes.find? fun item => item.name = langName).map fun item =>
            String.ofList item.value)) ∧
    ∀ item : Attribute, '>' ∉ item.value → item.name ≠ langName → ¬item.IsClear →
      ∃ language : Attribute, language.name = langName ∧ '>' ∉ language.value ∧
        (extract (String.ofList (component lead [item, language] body tail))).lang ≠
          some (String.ofList language.value) := by
  constructor
  · intro attributes hvalues
    rw [extract_component hlead htail hbody hvalues]
    refine ⟨String.toList_ofList, fun hclear => ?_⟩
    rw [langIn_attributes hclear, Option.map_map]
    rfl
  · intro item hitem _ hclear
    have hend : '>' ∉ (longLanguage item.toChars).value :=
      fun hmem => absurd (List.eq_of_mem_replicate hmem) (by decide)
    have hvalues : ∀ other ∈ [item, longLanguage item.toChars], '>' ∉ other.value := by
      simp [hitem, hend]
    refine ⟨longLanguage item.toChars, rfl, hend, ?_⟩
    rw [extract_component hlead htail hbody hvalues]
    intro hlang
    obtain ⟨value, hvalue, heq⟩ := Option.map_eq_some_iff.mp hlang
    rw [String.ofList_injective heq] at hvalue
    exact langIn_longLanguage hclear true hvalue

section Tags

private def named (name value : String) (h : name.toList.all isNameChar = true)
    (hvalue : '"' ∉ value.toList) : Attribute :=
  ⟨name.toList, value.toList, List.all_eq_true.mp h, hvalue⟩

private def generic : Attribute := named "generic" "A<B>" (by decide +kernel) (by decide +kernel)

private def language : Attribute := named "lang" "ts" (by decide +kernel) (by decide +kernel)

private def title : Attribute := named "title" "a lang=js" (by decide +kernel) (by decide +kernel)

private def locale : Attribute := named "data-lang" "de = '/'" (by decide +kernel) (by decide +kernel)

private def doubled : Attribute := named "data-langlang" "de" (by decide +kernel) (by decide +kernel)

private theorem isClear_locale : locale.IsClear where
  name := by decide +kernel
  value before after heq := by
    have hlacks : contains langName locale.value = false := by decide +kernel
    rw [heq, contains_of_eq_append] at hlacks
    cases hlacks

/-- The language of a tag between an attribute whose name ends in `lang` and one whose value assigns it. -/
theorem extract_tagged_locale :
    (∀ item ∈ [locale, language, title], '>' ∉ item.value) ∧
    (extract (String.ofList (component "é\n".toList [locale, language, title] "\nlet x".toList
      "\n<Style>".toList))).text.toList =
        "  \n".toList ++ (List.replicate 57 ' ' ++ "\nlet x         \n       ".toList) ∧
    (extract (String.ofList (component "é\n".toList [locale, language, title] "\nlet x".toList
      "\n<Style>".toList))).lang = some "ts" := by
  have hvalues : ∀ item ∈ [locale, language, title], '>' ∉ item.value := by decide +kernel
  obtain ⟨htext, hlang⟩ := (extract_tagged "é\n".toList "\nlet x".toList "\n<Style>".toList
    (by decide +kernel) (by decide +kernel) (by decide +kernel)).1 [locale, language, title] hvalues
  refine ⟨hvalues, htext.trans (by decide +kernel), (hlang ?_).trans (by decide +kernel)⟩
  rw [List.takeWhile_cons_of_pos (by decide +kernel), List.takeWhile_cons_of_neg (by decide +kernel)]
  intro item hitem
  rw [List.mem_singleton.mp hitem]
  exact isClear_locale

/-- A value that holds the sign that ends a tag puts the rest of the tag into the script, and with it the
language out of the tag. A value in which the word `lang` has an equals sign behind it gives the language, and
so does a name that ends in the word twice. -/
theorem attributes_misread :
    component [] [generic, language] "let x".toList [] =
      "<script generic=\"A<B>\" lang=\"ts\">let x</script>".toList ∧
    extract "<script generic=\"A<B>\" lang=\"ts\">let x</script>" =
      ⟨"                     \" lang=\"ts\">let x         ", none⟩ ∧
    component [] [title, language] "let x".toList [] =
      "<script title=\"a lang=js\" lang=\"ts\">let x</script>".toList ∧
    (extract "<script title=\"a lang=js\" lang=\"ts\">let x</script>").lang = some "js\"" ∧
    component [] [doubled, language] "let x".toList [] =
      "<script data-langlang=\"de\" lang=\"ts\">let x</script>".toList ∧
    (extract "<script data-langlang=\"de\" lang=\"ts\">let x</script>").lang = some "de" := by
  decide +kernel

end Tags
end Tsconfig.Source.Component
