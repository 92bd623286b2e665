import Tsconfig.Proofs.Discovery.Arrangement
import Tsconfig.Proofs.Path.Opening

/-!
Sorted files directory by directory: the files of a directory come first, each of its subdirectories
is one block, and the names of both ascend. What lies in a subdirectory are the paths whose ranks
begin alike, and such ranks stand side by side in any sorted list.
-/
namespace Tsconfig.Discovery
open Text

/-- A file that stands in a directory itself, under a name. -/
def IsEntry (dir name file : String) : Prop :=
  '/' ∉ name.toList ∧ file.toList = Path.opening dir ++ name.toList

/-- A file that lies in the subdirectory of a name, at any depth. -/
def IsInside (dir name file : String) : Prop :=
  '/' ∉ name.toList ∧ Path.opening dir ++ name.toList ++ ['/'] <+: file.toList

instance (dir name file : String) : Decidable (IsEntry dir name file) :=
  inferInstanceAs (Decidable (_ ∧ _))

instance (dir name file : String) : Decidable (IsInside dir name file) :=
  inferInstanceAs (Decidable (_ ∧ _))

/-- How the files of a directory stand in a list. -/
structure Arranged (dir : String) (files : List String) : Prop where
  entries_first (i j : Fin files.length) {name sub : String} :
    IsEntry dir name files[i] → IsInside dir sub files[j] → i < j
  contiguous (i j k : Fin files.length) {sub : String} : i ≤ j → j ≤ k →
    IsInside dir sub files[i] → IsInside dir sub files[k] → IsInside dir sub files[j]
  entries_ascend (i j : Fin files.length) {name other : String} : i < j →
    IsEntry dir name files[i] → IsEntry dir other files[j] → name ≤ other
  subdirectories_ascend (i j : Fin files.length) {sub other : String} : i < j →
    IsInside dir sub files[i] → IsInside dir other files[j] → sub ≤ other

section Joined
variable {dir name file : String}

theorem isEntry_iff_join (h : name ≠ "") :
    IsEntry dir name file ↔ '/' ∉ name.toList ∧ file = Path.join dir name := by
  rw [IsEntry, ← String.toList_inj, Path.toList_join dir h]

theorem isInside_iff_liesBelow (h : name ≠ "") :
    IsInside dir name file ↔ '/' ∉ name.toList ∧ Path.LiesBelow (Path.join dir name) file := by
  refine and_congr_right fun hslash => ?_
  have hjoin := Path.toList_join dir h
  have hname : name.toList ≠ [] := mt String.toList_eq_nil_iff.mp h
  have hlast : (Path.join dir name).toList.getLast? ≠ some '/' := by
    rw [hjoin, List.getLast?_append_of_ne_nil _ hname]
    exact fun hlast => hslash (List.mem_of_getLast? hlast)
  have hne : Path.join dir name ≠ "" := by
    intro hnil
    simp [hnil, hname] at hjoin
  rw [Path.LiesBelow, Path.opening_of_getLast?_ne hne hlast, hjoin]

end Joined

section Ranks
variable {dir name file : String}

/-- Segments that others follow. -/
def inward (segments : List (List Char)) : List (Bool ×ₗ List Char) :=
  segments.map fun segment => toLex (true, segment)

theorem inward_concat (segments : List (List Char)) (segment : List Char) :
    inward (segments ++ [segment]) = inward segments ++ [toLex (true, segment)] := by
  rw [inward, inward, List.map_append, List.map_singleton]

theorem marked_append (lead : List (List Char)) {rest : List (List Char)} (h : rest ≠ []) :
    marked (lead ++ rest) = inward lead ++ marked rest := by
  induction lead with
  | nil => rfl
  | cons segment lead ih =>
    have hmore : (lead ++ rest).isEmpty = false := by simp [h]
    rw [List.cons_append, marked, hmore, ih]
    rfl

theorem exists_of_inward_prefix {lead segments : List (List Char)} (hne : lead ≠ [])
    (h : inward lead <+: marked segments) : ∃ rest, rest ≠ [] ∧ segments = lead ++ rest := by
  induction lead generalizing segments with
  | nil => exact absurd rfl hne
  | cons segment lead ih =>
    cases segments with
    | nil => cases List.prefix_nil.mp h
    | cons first more =>
      obtain ⟨hfirst, hlead⟩ := List.cons_prefix_cons.mp h
      obtain ⟨hmore, rfl⟩ := Prod.mk.inj (toLex_inj.mp hfirst)
      have hmore : more ≠ [] := by simpa using hmore
      by_cases hnil : lead = []
      · exact ⟨more, hmore, by rw [hnil]; rfl⟩
      · obtain ⟨rest, hrest, rfl⟩ := ih hnil hlead
        exact ⟨rest, hrest, rfl⟩

/-- The segments on the way to a directory. -/
def way (dir : String) : List (List Char) := (splitOn '/' (Path.opening dir)).dropLast

/-- The name of a file stands behind the way to its directory, and nothing follows it. -/
theorem inward_prefix_of_isEntry (h : IsEntry dir name file) :
    inward (way dir) ++ [toLex (false, name.toList)] <+: rank file := by
  rw [rank, h.2, Path.splitOn_opening_append, marked_append _ (splitOn_ne_nil '/' _),
    splitOn_of_notMem h.1]
  exact List.prefix_refl _

/-- What lies in a subdirectory has the name of it behind the same way, and more follows. -/
theorem inward_prefix_of_isInside (h : IsInside dir name file) :
    inward (way dir) ++ [toLex (true, name.toList)] <+: rank file := by
  obtain ⟨hslash, inner, hinner⟩ := h
  have hfile : file.toList = Path.opening dir ++ (name.toList ++ '/' :: inner) := by
    rw [← hinner]
    simp
  have hsplit : splitOn '/' file.toList = (way dir ++ [name.toList]) ++ splitOn '/' inner := by
    rw [hfile, Path.splitOn_opening_append, splitOn_append hslash, way, List.append_assoc]
    rfl
  rw [rank, hsplit, marked_append _ (splitOn_ne_nil '/' inner), inward_concat]
  exact List.prefix_append _ _

/-- Only what lies in the subdirectory has such a rank. -/
theorem isInside_of_inward_prefix (hslash : '/' ∉ name.toList)
    (h : inward (way dir) ++ [toLex (true, name.toList)] <+: rank file) :
    IsInside dir name file := by
  rw [← inward_concat] at h
  obtain ⟨rest, hrest, hsplit⟩ := exists_of_inward_prefix (by simp) h
  have hpieces : ∀ piece ∈ rest, '/' ∉ piece := fun piece hmem =>
    notMem_of_mem_splitOn (hsplit ▸ List.mem_append_right _ hmem)
  have hsame : splitOn '/' (Path.opening dir ++ (name.toList ++ '/' :: joinWith '/' rest)) =
      splitOn '/' file.toList := by
    rw [Path.splitOn_opening_append, splitOn_append hslash, splitOn_joinWith hrest hpieces,
      hsplit, List.append_assoc]
    rfl
  have hfile := congrArg (joinWith '/') hsame
  rw [joinWith_splitOn, joinWith_splitOn] at hfile
  exact ⟨hslash, joinWith '/' rest, by rw [← hfile]; simp⟩

end Ranks

section Sorted
variable {files : List String}

/-- Between two lists that begin alike stand only lists that begin so. -/
theorem prefix_of_between {α : Type} [LinearOrder α] {lead a b c : List α} (ha : lead <+: a)
    (hc : lead <+: c) (hab : ¬b < a) (hbc : ¬c < b) : lead <+: b := by
  induction lead generalizing a b c with
  | nil => exact List.nil_prefix
  | cons x lead ih =>
    obtain ⟨behind, rfl⟩ := ha
    obtain ⟨more, rfl⟩ := hc
    cases b with
    | nil => exact absurd (List.nil_lt_cons _ _) hab
    | cons y b =>
      rw [List.cons_append, List.cons_lt_cons_iff, not_or] at hab hbc
      obtain rfl : x = y := le_antisymm (not_lt.mp hab.1) (not_lt.mp hbc.1)
      have hfirst : ¬b < lead ++ behind := fun hlt => hab.2 ⟨rfl, hlt⟩
      have hlast : ¬lead ++ more < b := fun hlt => hbc.2 ⟨rfl, hlt⟩
      exact List.cons_prefix_cons.mpr
        ⟨rfl, ih (List.prefix_append _ _) (List.prefix_append _ _) hfirst hlast⟩

/-- Of two lists that part, the elements where they part decide which is less. -/
theorem lt_of_parting {α : Type} [LinearOrder α] {lead a b : List α} {x y : α} (h : x < y)
    (ha : lead ++ [x] <+: a) (hb : lead ++ [y] <+: b) : a < b := by
  obtain ⟨behind, rfl⟩ := ha
  obtain ⟨more, rfl⟩ := hb
  rw [List.append_assoc, List.append_assoc]
  exact List.append_left_lt (List.cons_lt_cons_iff.mpr (.inl h))

theorem not_rank_lt (h : files.Pairwise fun a b => rank a ≤ rank b) {i j : Fin files.length}
    (hij : i ≤ j) : ¬rank files[j] < rank files[i] := by
  rcases lt_or_eq_of_le hij with hlt | rfl
  · exact not_lt_of_ge (List.pairwise_iff_getElem.mp h i j i.isLt j.isLt hlt)
  · exact lt_irrefl _

/-- In a sorted list all files of a directory stand where they should. -/
theorem arranged_of_pairwise (h : files.Pairwise fun a b => rank a ≤ rank b) (dir : String) :
    Arranged dir files where
  entries_first i j name sub hentry hinside := by
    refine lt_of_not_ge fun hij => not_rank_lt h hij ?_
    have hlt : toLex (false, name.toList) < toLex (true, sub.toList) :=
      Prod.Lex.toLex_lt_toLex.mpr (.inl Bool.false_lt_true)
    exact lt_of_parting hlt (inward_prefix_of_isEntry hentry) (inward_prefix_of_isInside hinside)
  contiguous i j k sub hij hjk hfirst hlast := by
    refine isInside_of_inward_prefix hfirst.1 ?_
    exact prefix_of_between (inward_prefix_of_isInside hfirst) (inward_prefix_of_isInside hlast)
      (not_rank_lt h hij) (not_rank_lt h hjk)
  entries_ascend i j name other hij hname hother := by
    refine String.not_lt.mp fun hlt => not_rank_lt h hij.le ?_
    have hlt : toLex (false, other.toList) < toLex (false, name.toList) :=
      Prod.Lex.toLex_lt_toLex.mpr (.inr ⟨rfl, String.lt_iff.mp hlt⟩)
    exact lt_of_parting hlt (inward_prefix_of_isEntry hother) (inward_prefix_of_isEntry hname)
  subdirectories_ascend i j sub other hij hsub hother := by
    refine String.not_lt.mp fun hlt => not_rank_lt h hij.le ?_
    have hlt : toLex (true, other.toList) < toLex (true, sub.toList) :=
      Prod.Lex.toLex_lt_toLex.mpr (.inr ⟨rfl, String.lt_iff.mp hlt⟩)
    exact lt_of_parting hlt (inward_prefix_of_isInside hother) (inward_prefix_of_isInside hsub)

/-- The files that are discovered through one pattern stand directory by directory. -/
theorem arranged_of_discover {host : Host} {request : Request}
    (h : discover host request = .ok files) (index : Nat) (dir : String) :
    Arranged dir (files.filter (firstPattern request · = index)) := by
  refine arranged_of_pairwise ?_ dir
  rw [List.pairwise_filter]
  refine (pairwise_discover h).imp fun hprecedes ha hb => ?_
  rcases hprecedes with hlt | ⟨-, hlt⟩
  · rw [of_decide_eq_true ha, of_decide_eq_true hb] at hlt
    exact absurd hlt (Nat.lt_irrefl _)
  · exact (compare_eq_lt_iff.mp hlt).le

/-- The order is total and strict, and any list that is sorted by it lays the files of every
directory out in front of its subdirectories. -/
theorem compare_total_arranged :
    (∀ a b, compare a b = .eq ↔ a = b) ∧
      (∀ a b, compare b a = (compare a b).swap) ∧
      (∀ a b c, compare a b = .lt → compare b c = .lt → compare a c = .lt) ∧
      ∀ files : List String, files.Pairwise (fun a b => compare a b ≠ .gt) →
        ∀ dir, Arranged dir files := by
  refine ⟨fun a b => Std.LawfulEqCmp.compare_eq_iff_eq, fun a b => Std.OrientedCmp.eq_swap,
    fun a b c hab hbc => ?_, fun files hsorted dir => ?_⟩
  · exact compare_eq_lt_iff.mpr ((compare_eq_lt_iff.mp hab).trans (compare_eq_lt_iff.mp hbc))
  · refine arranged_of_pairwise (hsorted.imp fun hle => ?_) dir
    exact le_iff.mp (decide_eq_true hle)

/-- The file `a/b.ts` comes before `a/a/c.ts`, and both come behind `z.ts`. -/
theorem compare_total_arranged_nested :
    ["/p/b.ts", "/p/z.ts", "/p/a/b.ts", "/p/a/a/c.ts"].Pairwise (fun a b => compare a b ≠ .gt) ∧
      Arranged "/p" ["/p/b.ts", "/p/z.ts", "/p/a/b.ts", "/p/a/a/c.ts"] ∧
      IsEntry "/p" "z.ts" "/p/z.ts" ∧ IsInside "/p" "a" "/p/a/a/c.ts" := by
  have hsorted : ["/p/b.ts", "/p/z.ts", "/p/a/b.ts", "/p/a/a/c.ts"].Pairwise
      (fun a b => compare a b ≠ .gt) := by decide +kernel
  exact ⟨hsorted, compare_total_arranged.2.2.2 _ hsorted "/p", by decide +kernel,
    by decide +kernel⟩

end Sorted
end Tsconfig.Discovery
