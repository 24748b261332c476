import Mathlib.Logic.Basic

/-!
# Interaction programs and automata

A `Program` returns, or asks a question of its surroundings and goes on with the answer. Effects are
the questions, so a program in `do` notation over `Program` is a tree, and it has no state beyond
what its continuations hold.

A process is anything with a `View`: what it is about to do, and where each answer takes it. A program
is a process, and so is an automaton whose states are written out. `Follows` says that an automaton
in some state does what a program does, for every answer; it is proved by walking the program once, and
then the automaton may stand for the program in any surroundings (`Follows.view_eq`).
-/

namespace Found

/-- A program over questions `Q` with answers `A`. -/
inductive Program (Q : Type) (A : Q → Type) (α : Type)
  | ret (a : α)
  | ask (q : Q) (next : A q → Program Q A α)

/-- What a process is about to do: end with a result, or ask and go on. -/
inductive View (Q : Type) (A : Q → Type) (α : Type) (Φ : Type)
  | done (a : α)
  | waiting (q : Q) (next : A q → Φ)

variable {Q : Type} {A : Q → Type} {α β : Type}

namespace Program

/-- Run the first program, then the second with its result. -/
def bind : Program Q A α → (α → Program Q A β) → Program Q A β
  | .ret a, f => f a
  | .ask q next, f => .ask q fun a => (next a).bind f

instance : Monad (Program Q A) where
  pure := .ret
  bind := bind

/-- A program is a process. -/
def view : Program Q A α → View Q A α (Program Q A α)
  | .ret a => .done a
  | .ask q next => .waiting q next

@[simp] theorem ret_bind (a : α) (f : α → Program Q A β) : (ret a).bind f = f a := rfl

theorem bind_assoc {γ : Type} (p : Program Q A α) (f : α → Program Q A β)
    (g : β → Program Q A γ) : (p.bind f).bind g = p.bind fun a => (f a).bind g := by
  induction p with
  | ret a => rfl
  | ask q next ih => exact congrArg (ask q) (funext ih)

end Program

variable {Φ : Type} {view : Φ → View Q A α Φ}

/-- The process state does what the program does, whatever the answers. -/
inductive Follows (view : Φ → View Q A α Φ) : Φ → Program Q A α → Prop
  | done {φ : Φ} {a : α} : view φ = .done a → Follows view φ (.ret a)
  | waiting {φ : Φ} {q : Q} {next : A q → Φ} {next' : A q → Program Q A α} :
      view φ = .waiting q next → (∀ a, Follows view (next a) (next' a)) →
      Follows view φ (.ask q next')

/-- A state that is done is followed by the result. -/
theorem Follows.eq_ret {φ : Φ} {p : Program Q A α} {a : α} (h : Follows view φ p)
    (hφ : view φ = .done a) : p = .ret a := by
  cases h with
  | done hφ' =>
    rw [hφ] at hφ'
    cases hφ'
    rfl
  | waiting hφ' =>
    rw [hφ] at hφ'
    cases hφ'

/-- A state that waits is followed by a program that asks the same. -/
theorem Follows.eq_ask {φ : Φ} {p : Program Q A α} {q : Q} {next : A q → Φ}
    (h : Follows view φ p) (hφ : view φ = .waiting q next) :
    ∃ next', p = .ask q next' ∧ ∀ a, Follows view (next a) (next' a) := by
  cases h with
  | done hφ' =>
    rw [hφ] at hφ'
    cases hφ'
  | waiting hφ' hnext =>
    rw [hφ] at hφ'
    cases hφ'
    exact ⟨_, rfl, hnext⟩

/-- A state and a program it follows look the same from outside, and every answer keeps them so. -/
theorem Follows.view_eq {φ : Φ} {p : Program Q A α} (h : Follows view φ p) :
    (∃ a, p.view = .done a ∧ view φ = .done a) ∨
      ∃ q next next', p.view = .waiting q next' ∧ view φ = .waiting q next ∧
        ∀ a, Follows view (next a) (next' a) := by
  cases h with
  | done hφ => exact .inl ⟨_, rfl, hφ⟩
  | waiting hφ hnext => exact .inr ⟨_, _, _, rfl, hφ, hnext⟩

/-! ## Dialogues -/

/-- Questions with the answers they got. -/
abbrev Dialogue (Q : Type) (A : Q → Type) : Type := List (Σ q, A q)

namespace Program

/-- What is left of a program after a dialogue. -/
inductive Reaches : Program Q A α → Dialogue Q A → Program Q A α → Prop
  | here (p : Program Q A α) : Reaches p [] p
  | ask {q : Q} {next : A q → Program Q A α} {a : A q} {d : Dialogue Q A}
      {p : Program Q A α} : Reaches (next a) d p → Reaches (.ask q next) (⟨q, a⟩ :: d) p

end Program

/-- **The dialogue rule.** An invariant of the dialogue so far and the state of an automaton, kept by
every answer, holds at every point of a program the automaton follows. -/
theorem Follows.reaches {I : Dialogue Q A → Φ → Prop}
    (step : ∀ {d φ q next}, I d φ → view φ = .waiting q next → ∀ a, I (d ++ [⟨q, a⟩]) (next a))
    {p p' : Program Q A α} {d : Dialogue Q A} (hr : p.Reaches d p') {φ : Φ}
    (h : Follows view φ p) (start : I [] φ) : ∃ φ', Follows view φ' p' ∧ I d φ' := by
  -- the induction is on the dialogue that is left, after any dialogue before it
  have along : ∀ d₀ φ, Follows view φ p → I d₀ φ → ∃ φ', Follows view φ' p' ∧ I (d₀ ++ d) φ' := by
    clear h start
    induction hr with
    | here p =>
      intro d₀ φ h hI
      rw [List.append_nil]
      exact ⟨φ, h, hI⟩
    | @ask q next a d p _ ih =>
      intro d₀ φ h hI
      cases h with
      | waiting hφ hnext =>
        rw [List.append_cons]
        exact ih _ _ (hnext a) (step hI hφ a)
  exact along [] φ h start

/-- **The simulation rule.** Two states of an automaton that ask the same and stay related under every
answer are followed by programs with the same dialogues, and the results are related too. -/
theorem Follows.simulated {R : Φ → Φ → Prop} {S : α → α → Prop}
    (done : ∀ {φ φ' a}, R φ φ' → view φ = .done a → ∃ a', view φ' = .done a' ∧ S a a')
    (waiting : ∀ {φ φ' q next}, R φ φ' → view φ = .waiting q next →
      ∃ next', view φ' = .waiting q next' ∧ ∀ a, R (next a) (next' a))
    {p p' : Program Q A α} {d : Dialogue Q A} {a : α} (hr : p.Reaches d (.ret a)) {φ φ' : Φ}
    (h : Follows view φ p) (h' : Follows view φ' p') (hR : R φ φ') :
    ∃ a', p'.Reaches d (.ret a') ∧ S a a' := by
  generalize hend : Program.ret a = pend at hr
  induction hr generalizing φ φ' p' with
  | here p =>
    cases hend
    cases h with
    | done hφ =>
      obtain ⟨a', hφ', hS⟩ := done hR hφ
      exact ⟨a', h'.eq_ret hφ' ▸ .here _, hS⟩
  | @ask q next a d p _ ih =>
    cases h with
    | waiting hφ hnext =>
      obtain ⟨next₁, hφ', hR'⟩ := waiting hR hφ
      obtain ⟨next₂, rfl, hnext'⟩ := h'.eq_ask hφ'
      obtain ⟨a', hr', hS⟩ := ih (hnext a) (hnext' a) (hR' a) hend
      exact ⟨a', .ask hr', hS⟩

end Found
