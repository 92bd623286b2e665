import Mathlib
import Tsconfig.Host.Memory
import Tsconfig.Proofs.Module.Spliced
import Tsconfig.Proofs.Path.Dots

/-! An entry of a manifest that starts with a dot and a slash is joined to the package as it stands,
and the dot stays in the path. Where files have normal names such a path leads nowhere, so the entry
counts as if it were not there. -/
namespace Tsconfig
open Text Json Source Tsconfig.Path

namespace Memory
theorem keys_put (path first second : String) (files : List (String × String)) :
    (put path first files).map Prod.fst = (put path second files).map Prod.fst := by
  induction files with
  | nil => rfl
  | cons file rest ih =>
    rw [put, put]
    split
    · rfl
    · split
      · rfl
      · rw [List.map_cons, List.map_cons, ih]

theorem paths_insert (memory : Memory) (path first second : String) :
    (memory.insert path first).paths = (memory.insert path second).paths :=
  keys_put (Path.slashed path) first second memory.files

theorem isFile_insert (memory : Memory) (path first second : String) :
    (memory.insert path first).host.isFile = (memory.insert path second).host.isFile := by
  funext other
  change decide (Path.slashed other ∈ (memory.insert path first).paths) =
    decide (Path.slashed other ∈ (memory.insert path second).paths)
  rw [paths_insert memory path first second]

theorem isDir_insert (memory : Memory) (path first second : String) :
    (memory.insert path first).host.isDir = (memory.insert path second).host.isDir := by
  funext dir
  change (memory.insert path first).paths.any (isBelow dir) =
    (memory.insert path second).paths.any (isBelow dir)
  rw [paths_insert memory path first second]

theorem find?_put (path text other : String) (files : List (String × String)) :
    OrderedMap.find? other (put path text files) =
      if other = path then some text else OrderedMap.find? other files := by
  induction files with
  | nil => simp [put, OrderedMap.find?, eq_comm]
  | cons file rest ih => grind [put, OrderedMap.find?]

theorem read_insert (memory : Memory) (path text other : String) :
    (memory.insert path text).read other =
      if Path.slashed other = Path.slashed path then some text else memory.read other :=
  find?_put (Path.slashed path) text (Path.slashed other) memory.files

end Memory

namespace Resolver

/-- The text that a manifest gives under a name. -/
def entryOf? (text name : String) : Option String :=
  ((parse text.toList).toOption.bind (·.field? name)).bind Value.str?

/-- Three texts of one manifest that differ in one field at most: it names an entry, the same entry
with a dot and a slash in front, or none. -/
structure Spellings (field entry plain dotted bare : String) : Prop where
  plain_eq : entryOf? plain field = some entry
  dotted_eq : entryOf? dotted field = some ("./" ++ entry)
  bare_eq : entryOf? bare field = none
  others : ∀ other, other ≠ field →
    entryOf? dotted other = entryOf? plain other ∧ entryOf? bare other = entryOf? plain other

theorem entries_eq (resolver : Resolver) (host : Host) (package : String) :
    resolver.entries host package =
      match host.read (Path.join package "package.json") with
      | some text => resolver.entryFields.filterMap (entryOf? text)
      | none => [] := by
  unfold entries
  cases host.read (Path.join package "package.json") with
  | none => rfl
  | some text =>
    dsimp only [Option.bind_some]
    cases hparse : (parse text.toList).toOption with
    | none => simp [entryOf?, hparse]
    | some manifest =>
      dsimp only
      congr 1
      funext field
      rw [entryOf?, hparse, Option.bind_some]

section Agreement
variable {resolver : Resolver} {first second : Host}

theorem file?_congr (hfile : first.isFile = second.isFile) (path : String) :
    resolver.file? first path = resolver.file? second path := by
  rw [file?, file?, hfile]

theorem fileOrIndex?_congr (hfile : first.isFile = second.isFile) (path : String) :
    resolver.fileOrIndex? first path = resolver.fileOrIndex? second path := by
  rw [fileOrIndex?, fileOrIndex?, file?_congr hfile, file?_congr hfile]

theorem load?_congr (hfile : first.isFile = second.isFile) (path : String) :
    resolver.load? first path = resolver.load? second path := by
  rw [load?, load?, file?_congr hfile, fileOrIndex?_congr hfile]

theorem packageAt?_congr {packages : List String} {subpath : Option String} {level : String}
    (hfile : first.isFile = second.isFile) (hdir : first.isDir = second.isDir)
    (hpackages : subpath = none → ∀ name ∈ packages,
      resolver.package? first (join (join level packageFolder) name) none =
        resolver.package? second (join (join level packageFolder) name) none) :
    resolver.packageAt? first packages subpath level =
      resolver.packageAt? second packages subpath level := by
  simp only [packageAt?, hdir, ← List.head?_filterMap]
  refine if_congr Iff.rfl (congrArg List.head? ?_) rfl
  refine List.filterMap_congr fun name hname => if_congr Iff.rfl ?_ rfl
  cases subpath with
  | some subpath => exact fileOrIndex?_congr hfile _
  | none => exact hpackages rfl name hname

theorem inPackages?_congr {dir specifier : String} {typesOnly : Bool}
    (hfile : first.isFile = second.isFile) (hdir : first.isDir = second.isDir)
    (hpackages : ∀ package ∈ packagesAbove dir specifier typesOnly,
      resolver.package? first package none = resolver.package? second package none) :
    resolver.inPackages? first dir specifier typesOnly =
      resolver.inPackages? second dir specifier typesOnly := by
  simp only [inPackages?, ← List.head?_filterMap]
  congr 1
  refine List.filterMap_congr fun level hlevel => packageAt?_congr hfile hdir ?_
  intro hnone name hname
  apply hpackages
  rw [packagesAbove, hnone]
  exact List.mem_flatMap.mpr ⟨level, hlevel, List.mem_map_of_mem hname⟩

/-- An import depends on the names of files and directories and on the packages whose manifests are
asked for it. -/
theorem imported?_congr {dir specifier : String} (hfile : first.isFile = second.isFile)
    (hdir : first.isDir = second.isDir)
    (hpackages : ∀ package ∈ resolver.packagesFor dir ⟨.imported, specifier⟩,
      resolver.package? first package none = resolver.package? second package none) :
    resolver.imported? first dir specifier = resolver.imported? second dir specifier := by
  have hload : resolver.load? first = resolver.load? second := funext (load?_congr hfile)
  simp only [imported?, mapped?, inAncestors?, hload, file?_congr hfile]
  split
  · rfl
  · rename_i hnot
    have hbare : isBare specifier = true := by simpa [isBare] using hnot
    have hin (typesOnly : Bool) (hclassic : resolver.classic = typesOnly) :
        resolver.inPackages? first dir specifier typesOnly =
          resolver.inPackages? second dir specifier typesOnly := by
      refine inPackages?_congr hfile hdir fun package hpackage => hpackages package ?_
      simpa only [packagesFor, hbare, if_true, hclassic] using hpackage
    split
    · rename_i hclassic
      rw [hin true hclassic]
    · rename_i hclassic
      rw [hin false (by simpa using hclassic)]

end Agreement

section Dotted
variable {resolver : Resolver} {memory : Memory} {lead below : List Char} {last : Char}

/-- The files that a path may stand for lie in the directory that the path names. -/
theorem prefix_of_mem_candidates (hlast : below.getLast? = some last)
    (hname : isSeparator last = false) {candidate : String}
    (h : candidate ∈ resolver.candidates (String.ofList (lead ++ '/' :: below))) :
    lead ++ ['/'] <+: candidate.toList := by
  have hself : lead ++ ['/'] <+: lead ++ '/' :: below := ⟨below, by simp⟩
  have hextension : (extension (String.ofList (lead ++ '/' :: below))).length ≤ below.length :=
    length_extension_le hlast hname
  simp only [candidates, List.mem_append, List.mem_map] at h
  rcases h with (⟨source, -, rfl⟩ | hplain) | ⟨extension, -, rfl⟩
  · rw [String.toList_append]
    refine List.IsPrefix.trans ?_ (List.prefix_append _ _)
    rw [dropExtension, String.toList_ofList, String.toList_ofList, List.prefix_take_iff]
    refine ⟨hself, ?_⟩
    rw [← String.length_toList, String.toList_ofList]
    simp only [List.length_append, List.length_cons, List.length_nil]
    omega
  · split at hplain
    · rw [List.mem_singleton.mp hplain, String.toList_ofList]
      exact hself
    · cases hplain
  · rw [String.toList_append, String.toList_ofList]
    exact hself.trans (List.prefix_append _ _)

/-- Where files have normal names, none is found behind a dot. -/
theorem file?_eq_none_of_dot (hkeys : ∀ key ∈ memory.paths, IsNormal key) (hlead : 1 < lead.length)
    (hlast : below.getLast? = some last) (hname : isSeparator last = false) {path : String}
    (hpath : path.toList = lead ++ '/' :: '.' :: '/' :: below) :
    resolver.file? memory.host path = none := by
  rw [file?, List.find?_eq_none]
  intro candidate hcandidate hfile
  have hsplit : path = String.ofList ((lead ++ ['/', '.']) ++ '/' :: below) := by
    rw [← String.toList_inj, hpath, String.toList_ofList]
    simp
  rw [hsplit] at hcandidate
  obtain ⟨rest, hrest⟩ := prefix_of_mem_candidates hlast hname hcandidate
  have hslashed : (slashed candidate).toList =
      slashedChars lead ++ '/' :: '.' :: '/' :: slashedChars rest := by
    rw [slashed, String.toList_ofList, ← hrest]
    simp [slashedChars]
  refine not_isNormal_of_dot hslashed ?_ (hkeys _ (of_decide_eq_true hfile))
  intro hserver
  have hlength := congrArg List.length hserver
  rw [slashedChars, List.length_map, List.length_singleton] at hlength
  omega

/-- A relative path with slashes only and no segment that is empty or made of dots. -/
def IsProper (entry : String) : Prop :=
  '\\' ∉ entry.toList ∧ ∀ segment ∈ splitOn '/' entry.toList, segment ∉ improper

instance (entry : String) : Decidable (IsProper entry) := inferInstanceAs (Decidable (_ ∧ _))

theorem IsProper.exists_last {entry : String} (h : IsProper entry) :
    ∃ last, entry.toList.getLast? = some last ∧ isSeparator last = false := by
  obtain ⟨hslashed, hproper⟩ := h
  rcases List.eq_nil_or_concat entry.toList with hnil | ⟨init, last, hlast⟩
  · rw [hnil] at hproper
    exact absurd List.mem_cons_self (hproper [] List.mem_cons_self)
  · rw [List.concat_eq_append] at hlast
    refine ⟨last, by rw [hlast, List.getLast?_concat], ?_⟩
    have hback : last ≠ '\\' := by
      rintro rfl
      exact hslashed (hlast ▸ by simp)
    have hslash : last ≠ '/' := by
      rintro rfl
      refine hproper [] ?_ List.mem_cons_self
      rw [hlast, splitOn_append_cons]
      exact List.mem_append_right _ List.mem_cons_self
    simp [isSeparator, hback, hslash]

/-- With a dot and a slash in front an entry leads nowhere. -/
theorem fileOrIndex?_dotted {package entry : String} (hkeys : ∀ key ∈ memory.paths, IsNormal key)
    (hpackage : 2 < package.length) (hentry : IsProper entry) :
    resolver.fileOrIndex? memory.host (Path.join package ("./" ++ entry)) = none := by
  obtain ⟨last, hlast, hname⟩ := hentry.exists_last
  have hne : package.toList ≠ [] := by
    intro hnil
    rw [← String.length_toList, hnil] at hpackage
    exact absurd hpackage (by decide)
  obtain ⟨lead, hlead, hjoin⟩ := exists_joinChars_eq hne
  have hlength : package.length ≤ lead.length + 1 := by
    rw [← String.length_toList]
    rcases hlead with hlead | hlead <;> simp [hlead]
  have hpath : (Path.join package ("./" ++ entry)).toList = lead ++ '/' :: '.' :: '/' :: entry.toList := by
    rw [Path.join, String.toList_ofList, hjoin _ (by simp), String.toList_append]
    rfl
  have hlong : 1 < lead.length := by omega
  rw [fileOrIndex?, file?_eq_none_of_dot hkeys hlong hlast hname hpath, Option.none_or]
  have hindex : (entry.toList ++ "/index".toList).getLast? = some 'x' := by
    rw [List.getLast?_append_of_ne_nil _ (by decide)]
    rfl
  refine file?_eq_none_of_dot hkeys hlong hindex (by decide) ?_
  have hslash : (Path.join package ("./" ++ entry)).toList.getLast? ≠ some '/' := by
    rw [hpath, List.append_cons, List.append_cons, List.append_cons, List.getLast?_append, hlast,
      Option.some_or]
    rintro ⟨⟩
    exact absurd hname (by decide)
  rw [Path.join, String.toList_ofList, joinChars_of_ne_slash (by simp [hpath]) (by decide) hslash,
    hpath]
  simp

end Dotted

section Manifest
variable {resolver : Resolver} {memory : Memory} {manifest package field entry : String}
  {plain dotted bare : String}

/-- The file that fields of a manifest lead to, the first field that leads anywhere counting. -/
def ledBy? (resolver : Resolver) (host : Host) (package text : String) (fields : List String) :
    Option String :=
  (fields.filterMap (entryOf? text)).findSome? fun entry =>
    resolver.fileOrIndex? host (Path.join package entry)

/-- The manifest of a package, under any of its spellings. -/
def IsManifestOf (manifest package : String) : Prop :=
  Path.slashed (Path.join package "package.json") = Path.slashed manifest

instance (manifest package : String) : Decidable (IsManifestOf manifest package) :=
  inferInstanceAs (Decidable (_ = _))

def fieldsBefore (resolver : Resolver) (field : String) : List String :=
  resolver.entryFields.takeWhile (· ≠ field)

def fieldsAfter (resolver : Resolver) (field : String) : List String :=
  (resolver.entryFields.dropWhile (· ≠ field)).tail

/-- Whether a field of a manifest makes no difference: a field in front of it leads to a file, or it
leads to none itself, or to the one that the fields behind it or else the index lead to. -/
def IsIdle (resolver : Resolver) (host : Host) (package text field : String) : Prop :=
  (resolver.ledBy? host package text (resolver.fieldsBefore field)).isSome ∨
    resolver.ledBy? host package text [field] = none ∨
    resolver.ledBy? host package text [field] =
      (resolver.ledBy? host package text (resolver.fieldsAfter field)).or
        (resolver.file? host (Path.join package "index"))

instance (resolver : Resolver) (host : Host) (package text field : String) :
    Decidable (resolver.IsIdle host package text field) :=
  inferInstanceAs (Decidable (_ ∨ _ ∨ _))

theorem entryFields_split (h : field ∈ resolver.entryFields) :
    resolver.entryFields = resolver.fieldsBefore field ++ field :: resolver.fieldsAfter field ∧
      field ∉ resolver.fieldsBefore field ∧ field ∉ resolver.fieldsAfter field := by
  have hnodup : resolver.entryFields.Nodup := by
    unfold entryFields
    split <;> decide
  obtain ⟨before, after, hsplit, hbefore⟩ := List.eq_append_cons_of_mem h
  have hpos : ∀ name ∈ before, decide (name ≠ field) = true := by
    intro name hname
    exact decide_eq_true fun heq => hbefore (heq ▸ hname)
  have hleft : resolver.fieldsBefore field = before := by
    rw [fieldsBefore, hsplit, List.takeWhile_append_of_pos hpos,
      List.takeWhile_cons_of_neg (by simp), List.append_nil]
  have hright : resolver.fieldsAfter field = after := by
    rw [fieldsAfter, hsplit, List.dropWhile_append_of_pos hpos,
      List.dropWhile_cons_of_neg (by simp), List.tail_cons]
  rw [hsplit, List.nodup_append] at hnodup
  rw [hleft, hright]
  exact ⟨hsplit, hbefore, (List.nodup_cons.mp hnodup.2.1).1⟩

theorem ledBy?_append (host : Host) (text : String) (fields others : List String) :
    resolver.ledBy? host package text (fields ++ others) =
      (resolver.ledBy? host package text fields).or (resolver.ledBy? host package text others) := by
  rw [ledBy?, List.filterMap_append, List.findSome?_append]
  rfl

theorem ledBy?_congr {first second : Host} (hfile : first.isFile = second.isFile)
    {text other : String} {fields : List String}
    (htexts : ∀ name ∈ fields, entryOf? text name = entryOf? other name) :
    resolver.ledBy? first package text fields = resolver.ledBy? second package other fields := by
  rw [ledBy?, ledBy?, List.filterMap_congr htexts]
  simp only [fileOrIndex?_congr hfile]

/-- What a package comes to: the fields in front of one field, the field itself, those behind it and
the index, in this order. -/
theorem package?_eq (hmanifest : IsManifestOf manifest package)
    (hfield : field ∈ resolver.entryFields) (text : String) :
    resolver.package? (memory.insert manifest text).host package none =
      (resolver.ledBy? (memory.insert manifest text).host package text
          (resolver.fieldsBefore field)).or
        ((resolver.ledBy? (memory.insert manifest text).host package text [field]).or
          ((resolver.ledBy? (memory.insert manifest text).host package text
              (resolver.fieldsAfter field)).or
            (resolver.file? (memory.insert manifest text).host (Path.join package "index")))) := by
  have hread : (memory.insert manifest text).host.read (Path.join package "package.json") =
      some text :=
    (memory.read_insert manifest text _).trans (if_pos hmanifest)
  have hled : resolver.manifestModule? (memory.insert manifest text).host package =
      resolver.ledBy? (memory.insert manifest text).host package text resolver.entryFields := by
    rw [manifestModule?_eq, entries_eq, hread]
    rfl
  change (resolver.manifestModule? _ package).or _ = _
  rw [hled, (entryFields_split hfield).1, ledBy?_append, ← List.singleton_append, ledBy?_append,
    Option.or_assoc, Option.or_assoc]

/-- The text of a manifest does not count for other packages. -/
theorem package?_of_other (hmanifest : ¬IsManifestOf manifest package) (first second : String) :
    resolver.package? (memory.insert manifest first).host package none =
      resolver.package? (memory.insert manifest second).host package none := by
  have hfile := memory.isFile_insert manifest first second
  have hread (text : String) : (memory.insert manifest text).host.read (Path.join package "package.json") =
      memory.read (Path.join package "package.json") :=
    (memory.read_insert manifest text _).trans (if_neg hmanifest)
  have hentries : resolver.entries (memory.insert manifest first).host package =
      resolver.entries (memory.insert manifest second).host package := by
    rw [entries_eq, entries_eq, hread, hread]
  change (resolver.manifestModule? _ package).or _ = (resolver.manifestModule? _ package).or _
  rw [manifestModule?_eq, manifestModule?_eq, hentries, file?_congr hfile]
  simp only [fileOrIndex?_congr hfile]

/-- A field that leads nowhere leaves a package to the other fields and the index. -/
theorem package?_of_silent (hmanifest : IsManifestOf manifest package)
    (hfield : field ∈ resolver.entryFields) {text : String}
    (hothers : ∀ other, other ≠ field → entryOf? text other = entryOf? plain other)
    (hsilent : resolver.ledBy? (memory.insert manifest text).host package text [field] = none) :
    resolver.package? (memory.insert manifest text).host package none =
      (resolver.ledBy? (memory.insert manifest plain).host package plain
          (resolver.fieldsBefore field)).or
        ((resolver.ledBy? (memory.insert manifest plain).host package plain
            (resolver.fieldsAfter field)).or
          (resolver.file? (memory.insert manifest plain).host (Path.join package "index"))) := by
  have hfile := memory.isFile_insert manifest text plain
  obtain ⟨-, hbefore, hafter⟩ := entryFields_split hfield
  have htexts {fields : List String} (hfields : field ∉ fields) :
      ∀ name ∈ fields, entryOf? text name = entryOf? plain name :=
    fun name hname => hothers name (ne_of_mem_of_not_mem hname hfields)
  rw [package?_eq hmanifest hfield, hsilent, Option.none_or, ledBy?_congr hfile (htexts hbefore),
    ledBy?_congr hfile (htexts hafter), file?_congr hfile]

theorem ledBy?_dotted (htexts : Spellings field entry plain dotted bare) (hentry : IsProper entry)
    (hkeys : ∀ key ∈ (memory.insert manifest plain).paths, IsNormal key)
    (hpackage : 2 < package.length) :
    resolver.ledBy? (memory.insert manifest dotted).host package dotted [field] = none := by
  rw [Memory.paths_insert memory manifest plain dotted] at hkeys
  rw [ledBy?, List.filterMap_cons, htexts.dotted_eq]
  simp [fileOrIndex?_dotted hkeys hpackage hentry]

theorem ledBy?_bare (htexts : Spellings field entry plain dotted bare) (host : Host) :
    resolver.ledBy? host package bare [field] = none := by
  rw [ledBy?, List.filterMap_cons, htexts.bare_eq]
  rfl

/-- A dot in front of an entry makes a difference to a package unless the entry makes none. -/
theorem package?_dotted_iff (htexts : Spellings field entry plain dotted bare)
    (hentry : IsProper entry) (hkeys : ∀ key ∈ (memory.insert manifest plain).paths, IsNormal key)
    (hfield : field ∈ resolver.entryFields) (hmanifest : IsManifestOf manifest package)
    (hpackage : 2 < package.length) :
    resolver.package? (memory.insert manifest dotted).host package none =
        resolver.package? (memory.insert manifest plain).host package none ↔
      resolver.IsIdle (memory.insert manifest plain).host package plain field := by
  rw [package?_of_silent hmanifest hfield (fun other hne => (htexts.others other hne).1)
    (ledBy?_dotted htexts hentry hkeys hpackage), package?_eq hmanifest hfield plain, IsIdle]
  cases resolver.ledBy? (memory.insert manifest plain).host package plain
    (resolver.fieldsBefore field) with
  | some path => simp
  | none =>
    cases resolver.ledBy? (memory.insert manifest plain).host package plain [field] with
    | some path => simp [eq_comm]
    | none => simp

end Manifest

section Imports
variable {resolver : Resolver} {memory : Memory} {manifest field entry : String}
  {plain dotted bare : String}

theorem length_le_join (base segment : String) :
    base.length ≤ (join base segment).length ∧ segment.length ≤ (join base segment).length := by
  obtain ⟨slash, -, hlength⟩ := exists_length_join base segment
  omega

theorem length_of_mem_packagesFor {dir specifier package : String}
    (h : package ∈ resolver.packagesFor dir ⟨.imported, specifier⟩) : 2 < package.length := by
  simp only [packagesFor] at h
  split at h
  · unfold packagesAbove at h
    split at h
    · cases h
    · obtain ⟨level, -, hname⟩ := List.mem_flatMap.mp h
      obtain ⟨name, -, rfl⟩ := List.mem_map.mp hname
      have hfolder := (length_le_join level packageFolder).2
      have hpackage := (length_le_join (join level packageFolder) name).1
      have hlong : 2 < packageFolder.length := by decide
      omega
  · cases h

/-- Backslashes apart, an import comes to a file in normal form. -/
theorem isNormal_of_import {options : CompilerOptions} {file specifier path : String}
    (hkeys : ∀ key ∈ memory.paths, IsNormal key)
    (hspliced : ∀ text ∈ (ofOptions options).spliced memory.host (Path.parent file)
      ⟨.imported, specifier⟩, IsSlashed text)
    (h : (ofOptions options).resolve? memory.host file ⟨.imported, specifier⟩ = some path) :
    IsNormal path := by
  have htargets (mapping : PathMapping) (hmapping : mapping ∈ (ofOptions options).mappings)
      (target : String) (htarget : target ∈ mapping.targets) : IsSlashed target :=
    PathMapping.isSlashed_of_mem_pathMappings hmapping htarget
  have hslashed := isSlashed_of_imported? htargets (isSlashed_parent file) hspliced h
  exact (isNormal_iff_isSlashed (hkeys _ (of_decide_eq_true (isFile_of_resolve? h)))).mpr hslashed

/-- An import through a manifest with a dotted entry comes to what it comes to without the entry. It
comes to what it comes to without the dot if the entry is idle in all packages with this manifest,
and a single package does only then. -/
theorem resolve?_dotted (htexts : Spellings field entry plain dotted bare) (hentry : IsProper entry)
    (hkeys : ∀ key ∈ (memory.insert manifest plain).paths, IsNormal key)
    {options : CompilerOptions} (hfield : field ∈ (ofOptions options).entryFields)
    (file specifier : String) :
    let host (text : String) := (memory.insert manifest text).host
    let resolver := ofOptions options
    let found (text : String) := resolver.resolve? (host text) file ⟨.imported, specifier⟩
    let packages := resolver.packagesFor (Path.parent file) ⟨.imported, specifier⟩
    found dotted = found bare ∧
    (∀ package ∈ packages, IsManifestOf manifest package →
      (resolver.package? (host dotted) package none = resolver.package? (host plain) package none ↔
        resolver.IsIdle (host plain) package plain field)) ∧
    ((∀ package ∈ packages, IsManifestOf manifest package →
      resolver.IsIdle (host plain) package plain field) → found dotted = found plain) ∧
    ((∀ text ∈ resolver.spliced (host plain) (Path.parent file) ⟨.imported, specifier⟩,
      IsSlashed text) → ∀ path, found plain = some path → IsNormal path) := by
  intro host resolver found packages
  have hiff : ∀ package ∈ packages, IsManifestOf manifest package →
      (resolver.package? (host dotted) package none = resolver.package? (host plain) package none ↔
        resolver.IsIdle (host plain) package plain field) :=
    fun package hpackage hmanifest => package?_dotted_iff htexts hentry hkeys hfield hmanifest
      (length_of_mem_packagesFor hpackage)
  have hagree (first second : String)
      (hpackages : ∀ package ∈ packages, IsManifestOf manifest package →
        resolver.package? (host first) package none = resolver.package? (host second) package none) :
      found first = found second := by
    refine imported?_congr (memory.isFile_insert manifest first second)
      (memory.isDir_insert manifest first second) fun package hpackage => ?_
    by_cases hmanifest : IsManifestOf manifest package
    · exact hpackages package hpackage hmanifest
    · exact package?_of_other hmanifest first second
  refine ⟨hagree dotted bare ?_, hiff, ?_, fun hspliced path => isNormal_of_import hkeys hspliced⟩
  · intro package hpackage hmanifest
    rw [package?_of_silent hmanifest hfield (fun other hne => (htexts.others other hne).1)
        (ledBy?_dotted htexts hentry hkeys (length_of_mem_packagesFor hpackage)),
      package?_of_silent hmanifest hfield (fun other hne => (htexts.others other hne).2)
        (ledBy?_bare htexts _)]
  · intro hidle
    exact hagree dotted plain fun package hpackage hmanifest =>
      (hiff package hpackage hmanifest).mpr (hidle package hpackage hmanifest)

end Imports

section Runs

private def typed (entry : String) : String := "\x7b\"types\": \"" ++ entry ++ "\"\x7d"

/-- A package with one file and a manifest. -/
private def packed (file : String) (manifest : String) : Memory :=
  (Memory.ofFiles [("/p/node_modules/pkg/" ++ file, "")]).insert
    "/p/node_modules/pkg/package.json" manifest

private def packages : List String :=
  ["/p/node_modules/pkg", "/p/node_modules/@types/pkg", "/node_modules/pkg",
    "/node_modules/@types/pkg"]

private theorem levels_importing : levels (Path.parent "/p/a.ts") = ["/p", "/"] := by
  have hparent : Path.parent "/p/a.ts" = "/p" := by decide +kernel
  rw [hparent, levels, Path.ancestors_eq (by decide +kernel)]
  decide +kernel

private theorem packagesFor_importing :
    (ofOptions ∅).packagesFor (Path.parent "/p/a.ts") ⟨.imported, "pkg"⟩ = packages := by
  simp only [packagesFor, packagesAbove, levels_importing]
  decide +kernel

private theorem resolve?_importing (host : Host) :
    (ofOptions ∅).resolve? host "/p/a.ts" ⟨.imported, "pkg"⟩ =
      ["/p", "/"].findSome? ((ofOptions ∅).packageAt? host ["pkg", "@types/pkg"] none) := by
  have hsplit : PackageSpecifier.ofText "pkg" = ⟨"pkg", none⟩ := by decide +kernel
  have hnames : packageNames "pkg" false = ["pkg", "@types/pkg"] := by decide +kernel
  rw [resolve?_of_isBare (by decide +kernel) rfl rfl rfl, levels_importing, hsplit, hnames]

private theorem spellings_index : Spellings "types" "index.d.ts" (typed "index.d.ts")
    (typed "./index.d.ts") "\x7b\x7d" := by
  have hplain : parse (typed "index.d.ts").toList =
    .ok (.obj [("types", .str "index.d.ts")]) := by cbv
  have hdotted : parse (typed "./index.d.ts").toList =
    .ok (.obj [("types", .str "./index.d.ts")]) := by cbv
  have hbare : parse "\x7b\x7d".toList = .ok (.obj []) := by cbv
  constructor
  · rw [entryOf?, hplain]
    rfl
  · rw [entryOf?, hdotted]
    rfl
  · rw [entryOf?, hbare]
    rfl
  · intro other hne
    rw [entryOf?, entryOf?, entryOf?, hplain, hdotted, hbare]
    simp [Except.toOption, Value.field?, OrderedMap.find?, hne.symm]

/-- The entry of a manifest that names the index may do without its dot, or with it. -/
theorem resolve?_dotted_index :
    let found (entry : String) := (ofOptions ∅).resolve? (packed "index.d.ts" (typed entry)).host
      "/p/a.ts" ⟨.imported, "pkg"⟩
    found "index.d.ts" = some "/p/node_modules/pkg/index.d.ts" ∧
    found "./index.d.ts" = found "index.d.ts" ∧ IsNormal "/p/node_modules/pkg/index.d.ts" := by
  intro found
  have hfound : found "index.d.ts" = some "/p/node_modules/pkg/index.d.ts" := by
    refine (resolve?_importing _).trans ?_
    decide +kernel
  have hkeys : ∀ key ∈ (packed "index.d.ts" (typed "index.d.ts")).paths, IsNormal key := by
    decide +kernel
  obtain ⟨-, -, hidle, hnormal⟩ := resolve?_dotted spellings_index (by decide) hkeys
    (by decide : "types" ∈ (ofOptions ∅).entryFields) "/p/a.ts" "pkg"
  rw [packagesFor_importing] at hidle
  refine ⟨hfound, hidle (by decide +kernel), hnormal ?_ _ hfound⟩
  rw [spliced, packagesFor_importing]
  decide +kernel

/-- A manifest that names a file inside the package leads nowhere once a dot is in front. -/
theorem resolve?_dotted_lost :
    let host (entry : String) := (packed "lib/index.d.ts" (typed entry)).host
    let found (entry : String) := (ofOptions ∅).resolve? (host entry) "/p/a.ts" ⟨.imported, "pkg"⟩
    (∀ key ∈ (packed "lib/index.d.ts" (typed "lib/index.d.ts")).paths, IsNormal key) ∧
    IsProper "lib/index.d.ts" ∧
    found "lib/index.d.ts" = some "/p/node_modules/pkg/lib/index.d.ts" ∧
    found "./lib/index.d.ts" = none := by
  refine ⟨by decide +kernel, by decide, ?_, ?_⟩
  · refine (resolve?_importing _).trans ?_
    decide +kernel
  · refine (resolve?_importing _).trans ?_
    decide +kernel

end Runs

end Resolver
end Tsconfig
