import Mathlib.Logic.Function.Iterate
import Tsconfig.Proofs.Path.Absolute

/-!
Climbing ends. A parent is no longer than its directory, and shorter below a root; from a normal path the
parents are the ancestors, up to the root. So every loop ends that takes parents until nothing is above.
-/
namespace Tsconfig.Path
open Text

section Parents

theorem parentSlashed_prefix_self (path : List Char) : parentSlashed path <+: path := by
  have hroot := rootChars_prefix_self path
  have htrimmed : dropEndWhile (· = '/') path <+: path := dropEndWhile_prefix_self _ _
  unfold parentSlashed
  dsimp only
  split
  · exact hroot
  split
  · exact List.nil_prefix
  split
  · exact hroot
  · exact (List.dropLast_prefix _).trans ((dropEndWhile_prefix_self _ _).trans htrimmed)

theorem parent_prefix_slashed (dir : String) : (parent dir).toList <+: (slashed dir).toList := by
  rw [parent, slashed, String.toList_ofList, String.toList_ofList]
  exact parentSlashed_prefix_self _

theorem length_slashed (dir : String) : (slashed dir).length = dir.length := by
  rw [slashed, String.length_ofList, length_slashedChars]

theorem parent_eq_or_length_lt (dir : String) :
    parent dir = slashed dir ∨ (parent dir).length < dir.length := by
  rw [← length_slashed dir, ← String.length_toList, ← String.length_toList, ← String.toList_inj]
  rcases (parent_prefix_slashed dir).length_le.lt_or_eq with hlt | heq
  · exact .inr hlt
  · exact .inl ((parent_prefix_slashed dir).eq_of_length heq)

end Parents

section Ancestors
variable {path : String}

/-- How many segments there are below the root. -/
def depth (path : String) : Nat := (segments path.toList).length

theorem iterate_parent (h : IsNormal path) (steps : Nat) :
    parent^[steps] path = ancestorAt path (depth path - steps) := by
  induction steps with
  | zero => exact (ancestorAt_length path).symm
  | succ steps ih =>
    obtain ⟨-, hbelow, hnormal⟩ := ancestorAt_normal h (depth path - steps)
    rw [Function.iterate_succ_apply', ih, parent_eq_ancestorAt hnormal, hbelow, List.length_take,
      ancestorAt_ancestorAt h (by omega)]
    refine congrArg (ancestorAt path) ?_
    rw [depth]
    omega

theorem isRoot_iff_of_normal (h : IsNormal path) : isRoot path = true ↔ segments path.toList = [] := by
  constructor
  · intro hroot
    by_contra hne
    rw [isRoot_eq_false h hne] at hroot
    cases hroot
  · intro hnil
    have hpath := root_append_segments path.toList
    rw [hnil, joinWith, List.intercalate_nil, List.append_nil] at hpath
    have htrimmed := (dropEndWhile_prefix_self (· = '/') path.toList).length_le
    have hne := h.1
    rw [hpath] at hne
    rw [isRoot, isRootChars, slashedChars_eq_self h.2.1, hpath]
    simp [hne, htrimmed]

/-- The parents of a path, and theirs, are its ancestors: each once and the nearest first, up to the root,
where the climb stays. -/
structure VisitsAncestors (path : String) : Prop where
  visits (dir : String) : IsAncestor dir path ↔ ∃ steps ≤ depth path, parent^[steps] path = dir
  upward (near far : Nat) (hlt : near < far) (hle : far ≤ depth path) :
    IsAncestor (parent^[far] path) (parent^[near] path) ∧ parent^[far] path ≠ parent^[near] path
  root (steps : Nat) (hle : depth path ≤ steps) :
    (parent^[steps] path).toList = rootChars path.toList
  isRoot_iff (steps : Nat) : isRoot (parent^[steps] path) = true ↔ depth path ≤ steps

theorem visitsAncestors (h : IsNormal path) : VisitsAncestors path := by
  constructor
  · intro dir
    rw [isAncestor_iff h]
    constructor
    · rintro ⟨height, hheight, rfl⟩
      refine ⟨depth path - height, by omega, ?_⟩
      rw [iterate_parent h]
      refine congrArg (ancestorAt path) ?_
      rw [depth]
      omega
    · rintro ⟨steps, -, rfl⟩
      exact ⟨depth path - steps, Nat.sub_le _ _, iterate_parent h steps⟩
  · intro near far hlt hle
    rw [iterate_parent h, iterate_parent h]
    apply isAncestor_ancestorAt h
    · omega
    · exact Nat.sub_le _ _
  · intro steps hle
    rw [iterate_parent h, Nat.sub_eq_zero_of_le hle, ancestorAt, List.take_zero, String.toList_ofList,
      joinWith, List.intercalate_nil, List.append_nil]
  · intro steps
    obtain ⟨-, hbelow, hnormal⟩ := ancestorAt_normal h (depth path - steps)
    rw [iterate_parent h, isRoot_iff_of_normal hnormal, hbelow, ← List.length_eq_zero_iff,
      List.length_take, depth]
    omega

end Ancestors

section Loops
variable {σ ρ : Type}

/-- A loop that looks for something from a directory upwards. A round in a directory either ends it or adds
to what has been gathered; then it goes on in the parent, unless the directory is the last. -/
structure Climb (σ ρ : Type) where
  round : σ → String → σ ⊕ ρ
  isLast : String → Bool
  close : σ → ρ

/-- The loop ends, and so comes out. -/
inductive Climb.Ends (climb : Climb σ ρ) : σ → String → ρ → Prop
  | found {state : σ} {dir : String} {result : ρ} (h : climb.round state dir = .inr result) :
    Ends climb state dir result
  | last {state next : σ} {dir : String} (h : climb.round state dir = .inl next)
    (hlast : climb.isLast dir = true) : Ends climb state dir (climb.close next)
  | up {state next : σ} {dir : String} {result : ρ} (h : climb.round state dir = .inl next)
    (hlast : climb.isLast dir = false) (habove : Ends climb next (parent dir) result) :
    Ends climb state dir result

namespace Climb
variable {climb : Climb σ ρ} {state : σ} {dir : String}

theorem Ends.unique {result other : ρ} (h : climb.Ends state dir result)
    (hother : climb.Ends state dir other) : result = other := by
  induction h with
  | found hround =>
    cases hother with
    | found hround' => exact Sum.inr.inj (hround.symm.trans hround')
    | last hround' => cases hround.symm.trans hround'
    | up hround' => cases hround.symm.trans hround'
  | last hround hlast =>
    cases hother with
    | found hround' => cases hround.symm.trans hround'
    | last hround' => rw [Sum.inl.inj (hround.symm.trans hround')]
    | up _ hlast' => exact absurd hlast (by simp [hlast'])
  | up hround hlast _ ih =>
    cases hother with
    | found hround' => cases hround.symm.trans hround'
    | last _ hlast' => exact absurd hlast' (by simp [hlast])
    | up hround' _ habove =>
      rw [← Sum.inl.inj (hround.symm.trans hround')] at habove
      exact ih habove

/-- A loop ends from a directory if it does from above. -/
theorem exists_ends_of_parent (state : σ)
    (habove : climb.isLast dir = false → ∀ next, ∃ result, climb.Ends next (parent dir) result) :
    ∃ result, climb.Ends state dir result := by
  cases hround : climb.round state dir with
  | inr result => exact ⟨result, .found hround⟩
  | inl next =>
    cases hlast : climb.isLast dir with
    | true => exact ⟨climb.close next, .last hround hlast⟩
    | false =>
      obtain ⟨result, hresult⟩ := habove hlast next
      exact ⟨result, .up hround hlast hresult⟩

theorem exists_ends_of_isSlashed (hlast : ∀ dir, climb.isLast dir = false → parent dir ≠ dir)
    (h : IsSlashed dir) (state : σ) : ∃ result, climb.Ends state dir result := by
  induction hlength : dir.length using Nat.strong_induction_on generalizing dir state with
  | _ length ih =>
    apply exists_ends_of_parent
    intro hdir next
    have hparent := parent_eq_or_length_lt dir
    rw [h.slashed_eq] at hparent
    have hshorter := hparent.resolve_left (hlast dir hdir)
    exact ih _ (hlength ▸ hshorter) (isSlashed_parent dir) next rfl

/-- A search that unfolds round by round as the loop does is what comes out of it. -/
theorem ends_iff_of_unfolds (climb : Climb σ ρ) (search : σ → String → ρ)
    (hlast : ∀ dir, climb.isLast dir = false → parent dir ≠ dir)
    (hsearch : ∀ state dir, IsSlashed dir → search state dir =
      match climb.round state dir with
      | .inr result => result
      | .inl next => if climb.isLast dir then climb.close next else search next (parent dir))
    (h : IsSlashed dir) {result : ρ} : climb.Ends state dir result ↔ result = search state dir := by
  have heq {result : ρ} (hends : climb.Ends state dir result) : result = search state dir := by
    induction hends with
    | found hround =>
      rw [hsearch _ _ h, hround]
    | last hround hdir =>
      rw [hsearch _ _ h, hround]
      exact (if_pos hdir).symm
    | @up _ _ dir _ hround hdir _ ih =>
      rw [hsearch _ _ h, hround, ih (isSlashed_parent dir)]
      exact (if_neg (by simp [hdir])).symm
  constructor
  · exact heq
  · rintro rfl
    obtain ⟨result, hends⟩ := exists_ends_of_isSlashed hlast h state
    rwa [← heq hends]

/-- A loop that does not go on where the parent is the directory itself ends, wherever it starts. A start
with backslashes may be as long as its parent, but that has none. -/
theorem existsUnique_ends (hlast : ∀ dir, climb.isLast dir = false → parent dir ≠ dir) (state : σ)
    (dir : String) : ∃! result, climb.Ends state dir result := by
  obtain ⟨result, hresult⟩ : ∃ result, climb.Ends state dir result := by
    apply exists_ends_of_parent
    exact fun _ next => exists_ends_of_isSlashed hlast (isSlashed_parent dir) next
  exact ⟨result, hresult, fun other hother => hother.unique hresult⟩

end Climb

end Loops

end Tsconfig.Path
