import Mathlib.Algebra.BigOperators.Group.List.Basic
import Mathlib.Tactic.Abel
import GooseClaw.Found.Machine

/-!
# Threads over one state

A pool is a shared state and the threads that work on it. A thread's step is atomic, and the threads
step in any order, so every interleaving is a run of `Pool.machine`.

Two rules speak of all interleavings at once. What every thread keeps for itself holds of all threads
(`forall_threads`). And books that one step keeps, what the shared state has against what the thread
holds, are kept by every run: the shared state has what the threads hold together (`balanced`).
-/

namespace Found

universe u v w x

/-- A shared state and the threads on it. -/
structure Pool (σ : Type u) (τ : Type v) where
  shared : σ
  threads : List τ

namespace Pool

variable {σ : Type u} {τ : Type v} {α : Type w}

/-- A new thread arrives, or one takes a step. -/
inductive Event (τ : Type v) (α : Type w)
  | arrive (t : τ)
  | move (i : Nat) (act : α)

/-- Thread `i` takes a step. -/
def move (step : σ → τ → α → Option (σ × τ)) (p : Pool σ τ) (i : Nat) (act : α) :
    Option (Pool σ τ) :=
  p.threads[i]?.bind fun t =>
    (step p.shared t act).map fun next => ⟨next.1, p.threads.set i next.2⟩

/-- The pool as a machine. `admits` says which threads may arrive. -/
def machine (admits : σ → τ → Bool) (step : σ → τ → α → Option (σ × τ)) :
    Machine (Pool σ τ) (Event τ α) where
  step p
    | .arrive t => if admits p.shared t then some ⟨p.shared, p.threads ++ [t]⟩ else none
    | .move i act => p.move step i act

variable {admits : σ → τ → Bool} {step : σ → τ → α → Option (σ × τ)}

/-- One thread moved, and the others stand where they stood. -/
theorem move_eq_some {p p' : Pool σ τ} {i : Nat} {act : α} (h : p.move step i act = some p') :
    ∃ front t back s' t', p.threads = front ++ t :: back ∧ front.length = i ∧
      step p.shared t act = some (s', t') ∧ p' = ⟨s', front ++ t' :: back⟩ := by
  obtain ⟨t, ht, hmove⟩ := Option.bind_eq_some_iff.mp h
  obtain ⟨⟨s', t'⟩, hstep, rfl⟩ := Option.map_eq_some_iff.mp hmove
  obtain ⟨hi, rfl⟩ := List.getElem?_eq_some_iff.mp ht
  have hfront : (p.threads.take i).length = i := List.length_take_of_le (Nat.le_of_lt hi)
  refine ⟨p.threads.take i, _, p.threads.drop (i + 1), s', t', ?_, hfront, hstep, ?_⟩
  · rw [List.getElem_cons_drop, List.take_append_drop]
  · rw [List.set_eq_take_append_cons_drop, if_pos hi]

/-- **The inversion of a step.** -/
theorem step_cases {p p' : Pool σ τ} {e : Event τ α}
    (h : (machine admits step).step p e = some p') :
    (∃ t, e = .arrive t ∧ admits p.shared t = true ∧ p' = ⟨p.shared, p.threads ++ [t]⟩) ∨
      ∃ i act front t back s' t', e = .move i act ∧ p.threads = front ++ t :: back ∧
        step p.shared t act = some (s', t') ∧ p' = ⟨s', front ++ t' :: back⟩ := by
  cases e with
  | arrive t =>
    obtain ⟨hadmits, heq⟩ := Option.ite_none_right_eq_some.mp h
    exact .inl ⟨t, rfl, hadmits, (Option.some.inj heq).symm⟩
  | move i act =>
    obtain ⟨front, t, back, s', t', hthreads, -, hstep, hp'⟩ := move_eq_some h
    exact .inr ⟨i, act, front, t, back, s', t', rfl, hthreads, hstep, hp'⟩

/-! ## What the threads hold -/

section

variable {M : Type x} [AddCancelCommMonoid M]

/-- The sum of what the threads hold. -/
def held (q : τ → M) (p : Pool σ τ) : M := (p.threads.map q).sum

/-- **The rule of balanced books.** A thread arrives with nothing, and a step adds to the books what
the thread holds more: then the books have what the threads hold. -/
theorem balanced {S : σ → Prop} {books : σ → M} {q : τ → M} {p₀ : Pool σ τ}
    (init : books p₀.shared = p₀.held q)
    (state : ∀ events p, (machine admits step).run p₀ events = some p → S p.shared)
    (arrive : ∀ s t, admits s t = true → q t = 0)
    (keep : ∀ s t act s' t', S s → step s t act = some (s', t') → books s' + q t = books s + q t')
    {events : List (Event τ α)} {p : Pool σ τ}
    (h : (machine admits step).run p₀ events = some p) : books p.shared = p.held q := by
  refine (machine admits step).history (P := fun _ p => books p.shared = p.held q) init ?_ h
  intro _ p e p' hrun hbal hstep
  rcases step_cases hstep with ⟨t, -, hadmits, rfl⟩ |
    ⟨_, _, front, t, back, s', t', -, hthreads, hmove, rfl⟩
  · simp only [held, List.map_append, List.map_cons, List.map_nil, List.sum_append,
      List.sum_singleton, arrive _ _ hadmits, add_zero]
    exact hbal
  · have hkeep := keep _ _ _ _ _ (state _ _ hrun) hmove
    rw [hbal, held, hthreads] at hkeep
    simp only [held, List.map_append, List.map_cons, List.sum_append, List.sum_cons] at hkeep ⊢
    refine add_right_cancel (b := q t) ?_
    rw [hkeep]
    abel

end

/-! ## What holds of every thread -/

/-- **The rule of threads.** What holds of the state and of every thread that arrives, and is kept for
the state, the thread that moves and the threads that look on, holds in every run. -/
theorem forall_threads {S : σ → Prop} {T : σ → τ → Prop} {p₀ : Pool σ τ} (init : S p₀.shared)
    (threads : ∀ t ∈ p₀.threads, T p₀.shared t)
    (arrive : ∀ s t, admits s t = true → S s → T s t)
    (keep : ∀ s t act s' t', step s t act = some (s', t') → S s → T s t →
      S s' ∧ T s' t' ∧ ∀ other, T s other → T s' other)
    {events : List (Event τ α)} {p : Pool σ τ}
    (h : (machine admits step).run p₀ events = some p) :
    S p.shared ∧ ∀ t ∈ p.threads, T p.shared t := by
  refine (machine admits step).history
    (P := fun _ p => S p.shared ∧ ∀ t ∈ p.threads, T p.shared t) ⟨init, threads⟩ ?_ h
  rintro _ p e p' _ ⟨hstate, hall⟩ hstep
  rcases step_cases hstep with ⟨t, -, hadmits, rfl⟩ |
    ⟨_, _, front, t, back, s', t', -, hthreads, hmove, rfl⟩
  · refine ⟨hstate, List.forall_mem_append.mpr ⟨hall, ?_⟩⟩
    intro t' ht'
    rw [List.mem_singleton.mp ht']
    exact arrive _ _ hadmits hstate
  · rw [hthreads] at hall
    obtain ⟨hfront, ht, hback⟩ := List.forall_mem_append.mp hall |>.imp_right List.forall_mem_cons.mp
    obtain ⟨hs', ht', hothers⟩ := keep _ _ _ _ _ hmove hstate ht
    refine ⟨hs', List.forall_mem_append.mpr ⟨?_, List.forall_mem_cons.mpr ⟨ht', ?_⟩⟩⟩
    · intro other hother
      exact hothers other (hfront other hother)
    · intro other hother
      exact hothers other (hback other hother)

end Pool

end Found
