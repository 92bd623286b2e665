import Tsconfig.Source.ModuleReference

/-!
The search for imports, token by token. What it does at a token depends on the next three only, so that
a list of tokens is searched by itself when a word comes behind it.
-/
namespace Tsconfig.Source.Import

section Steps

/-- The specifier right behind the word `import`. -/
def imported? : List Token → Option (List Char)
  | .text specifier :: _ => some specifier
  | .mark '(' :: .text specifier :: _ => some specifier
  | _ => none

/-- The specifier right behind the word `from`. -/
def named? : List Token → Option (List Char)
  | .text specifier :: _ => some specifier
  | _ => none

/-- The specifier right behind the word `require`. -/
def required? : List Token → Option (List Char)
  | .mark '(' :: .text specifier :: .mark ')' :: _ => some specifier
  | _ => none

/-- What the search finds at a token, and whether a declaration is open behind it. -/
def step (afterDot declaring : Bool) (token : Token) (rest : List Token) :
    Option (List Char) × Bool :=
  if isWord "import" token && !afterDot then
    (imported? rest, declaring || (imported? rest).isNone)
  else if isWord "export" token && !afterDot then (none, true)
  else if isWord "from" token && declaring then (named? rest, (named? rest).isNone)
  else if isWord "require" token && !afterDot then (required? rest, declaring)
  else if token = .mark ';' || isWord "function" token || isWord "class" token then (none, false)
  else (none, declaring)

variable {afterDot declaring : Bool} {token : Token} {tokens rest : List Token}

theorem specifiersIn_cons (afterDot declaring : Bool) (token : Token) (rest : List Token) :
    specifiersIn afterDot declaring (token :: rest) =
      (step afterDot declaring token rest).1.toList ++
        specifiersIn (token = .mark '.') (step afterDot declaring token rest).2 rest := by
  rw [specifiersIn.eq_def]
  simp only [step]
  split
  · unfold imported?
    split <;> simp
  split
  · simp
  split
  · unfold named?
    split <;> simp_all
  split
  · unfold required?
    split <;> simp
  split <;> simp

theorem mem_of_mem_step {specifier : List Char}
    (h : specifier ∈ (step afterDot declaring token rest).1) : .text specifier ∈ rest := by
  have himported (h : imported? rest = some specifier) : .text specifier ∈ rest := by
    unfold imported? at h
    split at h <;> simp_all
  have hnamed (h : named? rest = some specifier) : .text specifier ∈ rest := by
    unfold named? at h
    split at h <;> simp_all
  have hrequired (h : required? rest = some specifier) : .text specifier ∈ rest := by
    unfold required? at h
    split at h <;> simp_all
  unfold step at h
  repeat' split at h
  · exact himported h
  · cases h
  · exact hnamed h
  · exact hrequired h
  · cases h
  · cases h

theorem mem_of_mem_specifiersIn {specifier : List Char}
    (h : specifier ∈ specifiersIn afterDot declaring tokens) : .text specifier ∈ tokens := by
  induction tokens generalizing afterDot declaring with
  | nil => cases h
  | cons token rest ih =>
    rw [specifiersIn_cons, List.mem_append] at h
    rcases h with hfound | hlater
    · exact List.mem_cons_of_mem _ (mem_of_mem_step (Option.mem_toList.mp hfound))
    · exact List.mem_cons_of_mem _ (ih hlater)

/-- A list of tokens that a word comes first in, if anything does. -/
def StartsWithWord (tokens : List Token) : Prop :=
  tokens = [] ∨ ∃ letters tail, tokens = .word letters :: tail

theorem imported?_append (h : StartsWithWord rest) :
    imported? (tokens ++ rest) = imported? tokens := by
  obtain rfl | ⟨letters, tail, rfl⟩ := h
  · rw [List.append_nil]
  fun_cases imported? tokens with
  | case1 => rfl
  | case2 => rfl
  | case3 _ hnamed hcalled =>
    rcases tokens with _ | ⟨first, _ | ⟨second, tokens⟩⟩
    all_goals
      unfold imported?
      split <;> simp_all

theorem named?_append (h : StartsWithWord rest) : named? (tokens ++ rest) = named? tokens := by
  obtain rfl | ⟨letters, tail, rfl⟩ := h
  · rw [List.append_nil]
  cases tokens with
  | nil => rfl
  | cons first tokens => cases first <;> rfl

theorem required?_append (h : StartsWithWord rest) :
    required? (tokens ++ rest) = required? tokens := by
  obtain rfl | ⟨letters, tail, rfl⟩ := h
  · rw [List.append_nil]
  fun_cases required? tokens with
  | case1 => rfl
  | case2 _ hcalled =>
    rcases tokens with _ | ⟨first, _ | ⟨second, _ | ⟨third, tokens⟩⟩⟩
    all_goals
      unfold required?
      split <;> simp_all

theorem step_append (h : StartsWithWord rest) :
    step afterDot declaring token (tokens ++ rest) = step afterDot declaring token tokens := by
  rw [step, step, imported?_append h, named?_append h, required?_append h]

/-- In front of a word the search of a list of tokens is done with: it hands on whether a dot comes last
and whether a declaration is open. -/
theorem exists_specifiersIn_append (afterDot declaring : Bool) (tokens : List Token) :
    ∃ declaring', ∀ rest, StartsWithWord rest →
      specifiersIn afterDot declaring (tokens ++ rest) =
        specifiersIn afterDot declaring tokens ++
          specifiersIn (tokens.foldl (fun _ token => token = .mark '.') afterDot) declaring' rest := by
  induction tokens generalizing afterDot declaring with
  | nil => exact ⟨declaring, fun rest _ => rfl⟩
  | cons token tokens ih =>
    obtain ⟨declaring', hsplit⟩ :=
      ih (token = .mark '.') (step afterDot declaring token tokens).2
    refine ⟨declaring', fun rest hrest => ?_⟩
    rw [List.cons_append, specifiersIn_cons, step_append hrest, hsplit rest hrest,
      specifiersIn_cons, List.append_assoc, List.foldl_cons]

end Steps
end Tsconfig.Source.Import
