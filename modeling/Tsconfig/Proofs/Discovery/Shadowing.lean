import Mathlib.Data.List.Basic
import Tsconfig.Discovery.Search
import Tsconfig.Proofs.Path.Dots

/-!
Of the files of one stem, the best of each family is kept. Better files are looked for by names that
are glued together from a stem and an extension, and such a name may be read in another way: `x.d.ts`
has the stem `x`, but it is `x.d` with `.ts`, too, and so it takes the place of `x.d.js`.
-/
namespace Tsconfig.Discovery
open Text

/-- Both extensions are in one family, and the first has the better rank there. -/
def Outranks (better worse : String) : Prop :=
  ∃ family ∈ families, better ∈ family ∧ worse ∈ family ∧
    family.idxOf better < family.idxOf worse

instance (better worse : String) : Decidable (Outranks better worse) :=
  inferInstanceAs (Decidable (∃ family ∈ families, _))

/-- A file with the same stem and a better extension. -/
def IsBetter (other file : String) : Prop :=
  Path.dropExtension other = Path.dropExtension file ∧
    Outranks (Path.extension other) (Path.extension file)

instance (other file : String) : Decidable (IsBetter other file) :=
  inferInstanceAs (Decidable (_ ∧ _))

/-- The extensions that a declaration extension ends in. -/
def plainExtensions : List String := [".ts", ".mts", ".cts"]

/-- A declaration file whose name is the stem of another file with a better extension. It has a stem
of its own, which is shorter. -/
def IsMistaken (other file : String) : Prop :=
  ∃ plain ∈ plainExtensions, other = Path.dropExtension file ++ plain ∧
    Path.extension other = ".d" ++ plain ∧ Outranks plain (Path.extension file)

instance (other file : String) : Decidable (IsMistaken other file) :=
  inferInstanceAs (Decidable (∃ plain ∈ plainExtensions, _))

/-- Nothing follows the extension, no separator either. -/
def EndsInExtension (file : String) : Prop :=
  file = Path.dropExtension file ++ Path.extension file

instance (file : String) : Decidable (EndsInExtension file) := inferInstanceAs (Decidable (_ = _))

section Ranks
variable {better middle worse : String}

theorem families_disjoint : ∀ family ∈ families, ∀ other ∈ families, ∀ extension ∈ family,
    extension ∈ other → family = other := by
  decide

theorem mem_betterExtensions : better ∈ betterExtensions worse ↔ Outranks better worse := by
  have hrank (family : List String) :
      better ∈ family.takeWhile (· ≠ worse) ↔
        better ∈ family ∧ family.idxOf better < family.idxOf worse := by
    have htake : family.takeWhile (· ≠ worse) = family.take (family.idxOf worse) := by
      rw [List.takeWhile_eq_take_findIdx_not, List.idxOf]
      congr 2
      funext extension
      by_cases h : extension = worse <;> simp [h]
    rw [htake]
    constructor
    · intro hmem
      have hfamily := List.mem_of_mem_take hmem
      exact ⟨hfamily, (List.mem_take_iff_idxOf_lt hfamily).mp hmem⟩
    · rintro ⟨hfamily, hlt⟩
      exact (List.mem_take_iff_idxOf_lt hfamily).mpr hlt
  unfold betterExtensions
  split
  · rename_i family hfind
    have hworse : worse ∈ family := by simpa using List.find?_some hfind
    have hfamily := List.mem_of_find?_eq_some hfind
    rw [hrank]
    constructor
    · rintro ⟨hbetter, hlt⟩
      exact ⟨family, hfamily, hbetter, hworse, hlt⟩
    · rintro ⟨other, hother, hbetter, hworse', hlt⟩
      obtain rfl := families_disjoint family hfamily other hother worse hworse hworse'
      exact ⟨hbetter, hlt⟩
  · rename_i hfind
    rw [List.find?_eq_none] at hfind
    constructor
    · intro hmem
      cases hmem
    · rintro ⟨family, hfamily, -, hworse, -⟩
      exact absurd (decide_eq_true hworse) (hfind family hfamily)

theorem Outranks.trans (h : Outranks better middle) (h' : Outranks middle worse) :
    Outranks better worse := by
  obtain ⟨family, hfamily, hbetter, hmiddle, hlt⟩ := h
  obtain ⟨other, hother, hmiddle', hworse, hlt'⟩ := h'
  obtain rfl := families_disjoint family hfamily other hother middle hmiddle hmiddle'
  exact ⟨family, hfamily, hbetter, hworse, Nat.lt_trans hlt hlt'⟩

/-- The ranks of all families in one row. -/
theorem Outranks.idxOf_lt (h : Outranks better worse) :
    families.flatten.idxOf better < families.flatten.idxOf worse := by
  obtain ⟨family, hfamily, hbetter, hworse, hlt⟩ := h
  have hrow : ∀ family ∈ families, ∀ better ∈ family, ∀ worse ∈ family,
      family.idxOf better < family.idxOf worse →
        families.flatten.idxOf better < families.flatten.idxOf worse := by
    decide
  exact hrow family hfamily better hbetter worse hworse hlt

theorem Outranks.mem_families (h : Outranks better worse) :
    better ∈ families.flatten ∧ worse ∈ families.flatten := by
  obtain ⟨family, hfamily, hbetter, hworse, -⟩ := h
  exact ⟨List.mem_flatten_of_mem hfamily hbetter, List.mem_flatten_of_mem hfamily hworse⟩

end Ranks

section Names
variable {stem extension : String}

/-- A declaration extension that a name ends in is the whole extension, or its last part is. -/
private theorem eq_of_suffix {name : List Char} {declaration : String}
    (hdeclaration : declaration ∈ Path.declarationExtensions)
    (hextension : extension ∈ families.flatten)
    (hname : declaration.toList <:+ name ++ extension.toList) :
    declaration = extension ∨
      extension ∈ plainExtensions ∧ declaration = ".d" ++ extension := by
  have hinside : ∀ declaration ∈ Path.declarationExtensions, ∀ extension ∈ families.flatten,
      (declaration.toList <:+ extension.toList → declaration = extension) ∧
      (extension.toList <:+ declaration.toList → declaration = extension ∨
        extension ∈ plainExtensions ∧ declaration = ".d" ++ extension) := by
    decide +kernel
  obtain ⟨hlong, hshort⟩ := hinside declaration hdeclaration extension hextension
  rcases List.suffix_or_suffix_of_suffix hname (List.suffix_append name _) with h | h
  · exact .inl (hlong h)
  · exact hshort h

/-- What is glued to a name is its extension, unless it makes a declaration extension with what the
name ends in. -/
theorem extensionOfName_append {name : List Char} (hname : name ≠ [])
    (hextension : extension ∈ families.flatten) :
    Path.extensionOfName (name ++ extension.toList) = extension.toList ∨
      extension ∈ plainExtensions ∧
        Path.extensionOfName (name ++ extension.toList) = (".d" ++ extension).toList := by
  have hpos := List.length_pos_iff.mpr hname
  unfold Path.extensionOfName
  dsimp only
  split
  · rename_i declaration hfind
    have hmem := List.mem_of_find?_eq_some hfind
    have hends := List.find?_some hfind
    rw [Bool.and_eq_true, List.isSuffixOf_iff_suffix] at hends
    rcases eq_of_suffix hmem hextension hends.2 with rfl | ⟨hplain, rfl⟩
    · exact .inl rfl
    · exact .inr ⟨hplain, rfl⟩
  · rename_i hfind
    rw [List.find?_eq_none] at hfind
    have hsingle : extension ∉ Path.declarationExtensions := by
      intro hmem
      refine hfind extension hmem ?_
      rw [Bool.and_eq_true, List.isSuffixOf_iff_suffix, decide_eq_true_eq, List.length_append,
        String.length_toList]
      exact ⟨by omega, List.suffix_append name _⟩
    have hdot : ∀ extension ∈ families.flatten, extension ∉ Path.declarationExtensions →
        extension.toList = '.' :: extension.toList.tail ∧ '.' ∉ extension.toList.tail := by
      decide +kernel
    obtain ⟨heq, htail⟩ := hdot extension hextension hsingle
    have hall : ∀ c ∈ extension.toList.tail, decide (c ≠ '.') = true := by
      intro c hc
      exact decide_eq_true fun h => htail (h ▸ hc)
    rw [heq, List.append_cons]
    have hkept : dropEndWhile (· ≠ '.') ((name ++ ['.']) ++ extension.toList.tail) =
        name ++ ['.'] := by
      rw [dropEndWhile_append_of_forall hall, dropEndWhile_concat (by decide)]
    have hcut : takeEndWhile (· ≠ '.') ((name ++ ['.']) ++ extension.toList.tail) =
        extension.toList.tail := by
      have hsplit := dropEndWhile_append_takeEndWhile (· ≠ '.')
        ((name ++ ['.']) ++ extension.toList.tail)
      rw [hkept] at hsplit
      exact List.append_cancel_left hsplit
    rw [hkept, hcut, if_neg (by simp; omega)]
    exact .inl rfl

theorem dropExtension_append (h : Path.extension (stem ++ extension) = extension) :
    Path.dropExtension (stem ++ extension) = stem := by
  rw [Path.dropExtension, h, String.length_append, Nat.add_sub_cancel, String.toList_append,
    ← String.length_toList, List.take_left, String.ofList_toList]

/-- A stem with another extension of a family. -/
theorem extension_append {file better : String} (hfile : EndsInExtension file)
    (hworse : Path.extension file ∈ families.flatten) (hbetter : better ∈ families.flatten) :
    Path.extension (Path.dropExtension file ++ better) = better ∨
      better ∈ plainExtensions ∧
        Path.extension (Path.dropExtension file ++ better) = ".d" ++ better := by
  have hbase : ∀ extension ∈ families.flatten, extension.toList ≠ [] ∧
      extension.toList.all (fun c => !Path.isSeparator c) = true ∧
      Path.extensionOfName extension.toList ≠ extension.toList := by
    decide +kernel
  have hopen : ∀ extension ∈ families.flatten, ∀ c ∈ extension.toList,
      Path.isSeparator c = false := by
    intro extension hextension c hc
    have hall := List.all_eq_true.mp (hbase extension hextension).2.1 c hc
    rwa [Bool.not_eq_true'] at hall
  obtain ⟨hne, -, halone⟩ := hbase _ hworse
  have hname : takeEndWhile (fun c => !Path.isSeparator c) (Path.dropExtension file).toList ≠ [] := by
    intro hnil
    apply halone
    have hself : Path.extensionOfName (Path.baseNameChars file.toList) =
        (Path.extension file).toList := by
      rw [Path.extension, String.toList_ofList]
    rw [hfile, String.toList_append, Path.baseNameChars_append hne (hopen _ hworse), hnil, List.nil_append,
      ← hfile] at hself
    exact hself
  rw [Path.extension, String.toList_append,
    Path.baseNameChars_append (hbase _ hbetter).1 (hopen _ hbetter)]
  rcases extensionOfName_append hname hbetter with h | ⟨hplain, h⟩
  · exact .inl (by rw [h, String.ofList_toList])
  · exact .inr ⟨hplain, by rw [h, String.ofList_toList]⟩

end Names

section Shadowed
variable {files : List String} {file : String}

theorem isShadowed_iff (hfiles : ∀ file ∈ files, EndsInExtension file) (hfile : file ∈ files) :
    isShadowed files file = true ↔
      ∃ other ∈ files, IsBetter other file ∨ IsMistaken other file := by
  simp only [isShadowed, List.any_eq_true, decide_eq_true_eq, mem_betterExtensions]
  constructor
  · rintro ⟨better, houtranks, hmem⟩
    obtain ⟨hbetter, hworse⟩ := houtranks.mem_families
    refine ⟨_, hmem, ?_⟩
    rcases extension_append (hfiles file hfile) hworse hbetter with h | ⟨hplain, h⟩
    · exact .inl ⟨dropExtension_append h, by rwa [h]⟩
    · exact .inr ⟨better, hplain, rfl, h, houtranks⟩
  · rintro ⟨other, hmem, ⟨hstem, houtranks⟩ | ⟨plain, -, rfl, -, houtranks⟩⟩
    · refine ⟨_, houtranks, ?_⟩
      rwa [← hstem, ← hfiles other hmem]
    · exact ⟨plain, houtranks, hmem⟩

theorem mem_dropShadowed (hfiles : ∀ file ∈ files, EndsInExtension file) (hfile : file ∈ files) :
    file ∈ dropShadowed files ↔
      ∀ other ∈ files, ¬ IsBetter other file ∧ ¬ IsMistaken other file := by
  rw [dropShadowed, List.mem_filter, Bool.not_eq_true', ← Bool.not_eq_true,
    isShadowed_iff hfiles hfile]
  simp [hfile]

/-- Of the files of one stem and family the best one is kept, so that whatever is dropped is dropped
for a file that stays. -/
theorem exists_kept (hfiles : ∀ file ∈ files, EndsInExtension file)
    (hnames : ∀ file ∈ files, ∀ other ∈ files, ¬ IsMistaken other file) (hfile : file ∈ files) :
    file ∈ dropShadowed files ∨ ∃ kept ∈ dropShadowed files, IsBetter kept file := by
  -- On the rank of the extension: a file that is dropped has a better one.
  induction hrank : families.flatten.idxOf (Path.extension file) using Nat.strongRecOn
    generalizing file with
  | ind rank ih =>
    by_cases hkept : file ∈ dropShadowed files
    · exact .inl hkept
    rw [mem_dropShadowed hfiles hfile] at hkept
    push Not at hkept
    obtain ⟨other, hother, h⟩ := hkept
    have hbetter : IsBetter other file := by
      by_contra hnot
      exact hnames file hfile other hother (h hnot)
    obtain ⟨hstem, houtranks⟩ := hbetter
    rcases ih _ (hrank ▸ houtranks.idxOf_lt) hother rfl with hkept | ⟨kept, hkept, hstem', hbest⟩
    · exact .inr ⟨other, hkept, hstem, houtranks⟩
    · exact .inr ⟨kept, hkept, hstem'.trans hstem, hbest.trans houtranks⟩

/-- The files that are kept, in their order: those of which no better one is there, and which no
declaration file is mistaken for. Where none is mistaken, for every file that is dropped a better
one of its stem stays. -/
theorem dropShadowed_eq_filter (hfiles : ∀ file ∈ files, EndsInExtension file) :
    dropShadowed files = files.filter (fun file =>
        ∀ other ∈ files, ¬ IsBetter other file ∧ ¬ IsMistaken other file) ∧
      ((∀ file ∈ files, ∀ other ∈ files, ¬ IsMistaken other file) →
        dropShadowed files = files.filter (fun file => ∀ other ∈ files, ¬ IsBetter other file) ∧
        ∀ file ∈ files, file ∉ dropShadowed files →
          ∃ kept ∈ dropShadowed files, IsBetter kept file) := by
  have hshadowed (file : String) (hfile : file ∈ files) :
      (!isShadowed files file) =
        decide (∀ other ∈ files, ¬ IsBetter other file ∧ ¬ IsMistaken other file) := by
    rw [Bool.eq_iff_iff, decide_eq_true_eq, Bool.not_eq_true', ← Bool.not_eq_true,
      isShadowed_iff hfiles hfile]
    simp
  have hexact := List.filter_congr hshadowed
  refine ⟨hexact, fun hnames => ⟨?_, ?_⟩⟩
  · refine hexact.trans (List.filter_congr fun file hfile => ?_)
    rw [decide_eq_decide]
    refine forall₂_congr fun other hother => ?_
    simp [hnames file hfile other hother]
  · intro file hfile hdropped
    exact (exists_kept hfiles hnames hfile).resolve_left hdropped

end Shadowed

private def mixed : List String :=
  ["/p/a.js", "/p/a.d.ts", "/p/a.mjs", "/p/a.tsx", "/p/b.d.js", "/p/b.d.tsx", "/p/c.vue"]

theorem dropShadowed_eq_filter_mixed :
    (∀ file ∈ mixed, EndsInExtension file) ∧
    (∀ file ∈ mixed, ∀ other ∈ mixed, ¬ IsMistaken other file) ∧
    dropShadowed mixed = ["/p/a.mjs", "/p/a.tsx", "/p/b.d.tsx", "/p/c.vue"] ∧
    ∃ kept ∈ dropShadowed mixed, IsBetter kept "/p/a.js" := by
  have hfiles : ∀ file ∈ mixed, EndsInExtension file := by decide +kernel
  have hnames : ∀ file ∈ mixed, ∀ other ∈ mixed, ¬ IsMistaken other file := by decide +kernel
  have hkept : dropShadowed mixed = ["/p/a.mjs", "/p/a.tsx", "/p/b.d.tsx", "/p/c.vue"] := by
    decide +kernel
  obtain ⟨-, hexact⟩ := dropShadowed_eq_filter hfiles
  refine ⟨hfiles, hnames, hkept, (hexact hnames).2 "/p/a.js" (by decide) ?_⟩
  rw [hkept]
  decide

/-- A declaration file drops a file of another stem: `x.d.js` has no better file, and yet it goes. -/
theorem not_kept_mistaken :
    let files := ["/p/x.d.js", "/p/x.d.ts"]
    files.Nodup ∧
    (∀ file ∈ files, Path.extension file ∈ supportedExtensions true ∧
      isHidden (Path.baseName file) = false) ∧
    (∀ other ∈ files, ¬ IsBetter other "/p/x.d.js") ∧
    dropShadowed files = ["/p/x.d.ts"] := by
  decide +kernel

end Tsconfig.Discovery
