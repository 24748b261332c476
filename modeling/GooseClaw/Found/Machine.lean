import GooseClaw.Found.Trace

/-!
# Machines and what holds along their runs

Two shapes of state machine and the one induction each of them needs.

A `Service` answers every call: `handle` gives a reply and the next state. Its runs are lists of
calls, and a run leaves behind the list of its exchanges, each call with the reply it got.

A `Machine` moves by events, and an event a state does not enable leads nowhere (`none`). Its runs
are lists of events, so an interleaving is a run like any other.

`Service.history` and `Machine.history` are the rules every claim about whole runs goes through: a
predicate on what has happened so far and the state reached, true at the start and kept by one
step, holds after every run. The predicate reads the history, so nothing has to be stored in the
state for a proof's sake.
-/

namespace Found

universe u v w x

/-- Reading a list that grew by one reads one entry more. -/
theorem filterMap_snoc {α : Type u} {β : Type v} (f : α → Option β) (l : List α) (a : α) :
    (l ++ [a]).filterMap f = l.filterMap f ++ (f a).toList := by
  rw [List.filterMap_append]
  cases h : f a <;> simp [h]

/-! ## Services -/

/-- A service over states `σ`, calls `ι` and replies `ο`. -/
structure Service (σ : Type u) (ι : Type v) (ο : Type w) where
  handle : σ → ι → ο × σ

namespace Service

variable {σ : Type u} {ι : Type v} {ο : Type w} (S : Service σ ι ο)

/-- The state after a list of calls. -/
def after (s : σ) : List ι → σ
  | [] => s
  | c :: cs => after (S.handle s c).2 cs

/-- The exchanges of a list of calls: each call with its reply. -/
def exchanges (s : σ) : List ι → List (ι × ο)
  | [] => []
  | c :: cs => (c, (S.handle s c).1) :: exchanges (S.handle s c).2 cs

@[simp] theorem after_nil (s : σ) : S.after s [] = s := rfl

@[simp] theorem exchanges_nil (s : σ) : S.exchanges s [] = [] := rfl

theorem after_append (s : σ) (cs ds : List ι) :
    S.after s (cs ++ ds) = S.after (S.after s cs) ds := by
  induction cs generalizing s with
  | nil => rfl
  | cons c cs ih => exact ih _

theorem exchanges_append (s : σ) (cs ds : List ι) :
    S.exchanges s (cs ++ ds) = S.exchanges s cs ++ S.exchanges (S.after s cs) ds := by
  induction cs generalizing s with
  | nil => rfl
  | cons c cs ih =>
    simp only [List.cons_append, exchanges, after, ih]

/-- One more call moves the state by one step. -/
@[simp] theorem after_snoc (s : σ) (cs : List ι) (c : ι) :
    S.after s (cs ++ [c]) = (S.handle (S.after s cs) c).2 :=
  S.after_append s cs [c]

/-- One more call adds one exchange. -/
@[simp] theorem exchanges_snoc (s : σ) (cs : List ι) (c : ι) :
    S.exchanges s (cs ++ [c]) =
      S.exchanges s cs ++ [(c, (S.handle (S.after s cs) c).1)] :=
  S.exchanges_append s cs [c]

/-- The calls of the exchanges are the calls made. -/
theorem exchanges_calls (s : σ) (cs : List ι) : (S.exchanges s cs).map Prod.fst = cs := by
  induction cs generalizing s with
  | nil => rfl
  | cons c cs ih => simp only [exchanges, List.map_cons, ih]

/-- **The history rule.** What holds of no exchange at the start, and is kept by one call, holds of
the exchanges of every run and the state it reaches. -/
theorem history {s₀ : σ} {P : List (ι × ο) → σ → Prop} (init : P [] s₀)
    (step : ∀ log s c, P log s → P (log ++ [(c, (S.handle s c).1)]) (S.handle s c).2)
    (cs : List ι) : P (S.exchanges s₀ cs) (S.after s₀ cs) := by
  induction cs using List.reverseRecOn with
  | nil => exact init
  | append_singleton cs c ih =>
    rw [exchanges_snoc, after_snoc]
    exact step _ _ _ ih

/-- The calls of a run whose exchange `keep` keeps. -/
def kept (s : σ) (keep : ι × ο → Bool) (cs : List ι) : List ι :=
  ((S.exchanges s cs).filter keep).map Prod.fst

/-- **The erasure rule.** Calls that leave the state alone can be left out of a run: every other call
gets the reply it got, and the run ends where it ended. -/
theorem erasure (keep : ι × ο → Bool)
    (idle : ∀ s c, keep (c, (S.handle s c).1) = false → (S.handle s c).2 = s) (s : σ)
    (cs : List ι) :
    S.exchanges s (S.kept s keep cs) = (S.exchanges s cs).filter keep ∧
      S.after s (S.kept s keep cs) = S.after s cs := by
  induction cs generalizing s with
  | nil => exact ⟨rfl, rfl⟩
  | cons c cs ih =>
    by_cases hk : keep (c, (S.handle s c).1) = true
    · obtain ⟨hex, haft⟩ := ih (S.handle s c).2
      simp only [kept] at hex haft
      constructor
      · simp only [kept, exchanges, List.filter_cons_of_pos hk, List.map_cons, hex]
      · simp only [kept, exchanges, List.filter_cons_of_pos hk, List.map_cons, after, haft]
    · -- the erased call leads back to the state it found
      obtain ⟨hex, haft⟩ := ih s
      simp only [kept] at hex haft
      have hs := idle s c (Bool.eq_false_iff.mpr hk)
      constructor
      · simp only [kept, exchanges, List.filter_cons_of_neg hk, hs, hex]
      · simp only [kept, exchanges, List.filter_cons_of_neg hk, after, hs, haft]

/-- `P` holds of every call of the run: of the state it finds and the call. -/
def Along (s₀ : σ) (P : σ → ι → Prop) (cs : List ι) : Prop :=
  Every (fun before c => P (S.after s₀ before) c) cs

theorem along_snoc {s₀ : σ} {P : σ → ι → Prop} {cs : List ι} {c : ι} :
    S.Along s₀ P (cs ++ [c]) ↔ S.Along s₀ P cs ∧ P (S.after s₀ cs) c :=
  every_snoc

/-- **The history rule for runs that meet a condition** at every call. -/
theorem history_along {s₀ : σ} {P : List (ι × ο) → σ → Prop} {C : σ → ι → Prop} (init : P [] s₀)
    (step : ∀ log s c, P log s → C s c →
      P (log ++ [(c, (S.handle s c).1)]) (S.handle s c).2)
    {cs : List ι} (h : S.Along s₀ C cs) : P (S.exchanges s₀ cs) (S.after s₀ cs) := by
  induction cs using List.reverseRecOn with
  | nil => exact init
  | append_singleton cs c ih =>
    obtain ⟨hall, hlast⟩ := S.along_snoc.mp h
    rw [exchanges_snoc, after_snoc]
    exact step _ _ _ (ih hall) hlast

end Service

/-! ## Machines -/

/-- A machine over states `σ` and events `ε`. -/
structure Machine (σ : Type u) (ε : Type v) where
  step : σ → ε → Option σ

namespace Machine

variable {σ : Type u} {ε : Type v} (M : Machine σ ε)

/-- The state a list of events leads to, when each is enabled in turn. -/
def run (s : σ) : List ε → Option σ
  | [] => some s
  | e :: es => (M.step s e).bind fun s' => run s' es

@[simp] theorem run_nil (s : σ) : M.run s [] = some s := rfl

theorem run_append (s : σ) (es fs : List ε) :
    M.run s (es ++ fs) = (M.run s es).bind fun s' => M.run s' fs := by
  induction es generalizing s with
  | nil => rfl
  | cons e es ih =>
    simp only [List.cons_append, run, ih, Option.bind_assoc]

/-- A run cut anywhere passes through a state. -/
theorem run_append_some {s s'' : σ} {es fs : List ε} :
    M.run s (es ++ fs) = some s'' ↔ ∃ s', M.run s es = some s' ∧ M.run s' fs = some s'' := by
  rw [run_append, Option.bind_eq_some_iff]

theorem run_snoc_some {s s'' : σ} {es : List ε} {e : ε} :
    M.run s (es ++ [e]) = some s'' ↔ ∃ s', M.run s es = some s' ∧ M.step s' e = some s'' := by
  rw [run_append_some]
  simp only [run, Option.bind_fun_some]

/-- **The history rule.** What holds of no event at the start, and is kept by every enabled event of
a run, holds of the events of every run and the state it reaches. -/
theorem history {s₀ : σ} {P : List ε → σ → Prop} (init : P [] s₀)
    (step : ∀ tr s e s', M.run s₀ tr = some s → P tr s → M.step s e = some s' → P (tr ++ [e]) s') :
    ∀ {tr s}, M.run s₀ tr = some s → P tr s := by
  intro tr
  induction tr using List.reverseRecOn with
  | nil =>
    intro s h
    cases h
    exact init
  | append_singleton tr e ih =>
    intro s h
    obtain ⟨s', hrun, hstep⟩ := M.run_snoc_some.mp h
    exact step tr s' e s hrun (ih hrun) hstep

/-- `P` holds of every step of the run: of each event and the state it finds. -/
def Along (s₀ : σ) (P : σ → ε → Prop) (tr : List ε) : Prop :=
  ∀ before e later s, tr = before ++ e :: later → M.run s₀ before = some s → P s e

theorem along_iff_every {s₀ : σ} {P : σ → ε → Prop} {tr : List ε} :
    M.Along s₀ P tr ↔ Every (fun before e => ∀ s, M.run s₀ before = some s → P s e) tr := by
  constructor
  · intro h before e later htr s hrun
    exact h before e later s htr hrun
  · intro h before e later s htr hrun
    exact h before e later htr s hrun

theorem along_nil (s₀ : σ) (P : σ → ε → Prop) : M.Along s₀ P [] :=
  M.along_iff_every.mpr (every_nil _)

theorem along_snoc {s₀ : σ} {P : σ → ε → Prop} {tr : List ε} {e : ε} :
    M.Along s₀ P (tr ++ [e]) ↔ M.Along s₀ P tr ∧ ∀ s, M.run s₀ tr = some s → P s e := by
  rw [along_iff_every, along_iff_every, every_snoc]

theorem along_cons {s₀ : σ} {P : σ → ε → Prop} {tr : List ε} {e : ε} :
    M.Along s₀ P (e :: tr) ↔ P s₀ e ∧ ∀ s, M.step s₀ e = some s → M.Along s P tr := by
  constructor
  · intro h
    refine ⟨h [] e tr s₀ rfl rfl, ?_⟩
    intro s hs before e' later s' htr hrun
    refine h (e :: before) e' later s' (by rw [htr, List.cons_append]) ?_
    rw [run, hs]
    exact hrun
  · rintro ⟨hfirst, hrest⟩ before e' later s' htr hrun
    cases before with
    | nil =>
      cases htr
      cases hrun
      exact hfirst
    | cons e'' before =>
      obtain ⟨rfl, rfl⟩ := List.cons.inj htr
      obtain ⟨s, hs, hrun⟩ := Option.bind_eq_some_iff.mp hrun
      exact hrest s hs before e' later s' rfl hrun

/-- The machine that stops where a condition fails. -/
def guarded (P : σ → ε → Prop) [∀ s e, Decidable (P s e)] : Machine σ ε where
  step s e := if P s e then M.step s e else none

/-- Its runs are the runs along which the condition holds. -/
theorem run_guarded {P : σ → ε → Prop} [∀ s e, Decidable (P s e)] {s s' : σ} {tr : List ε}
    (h : (M.guarded P).run s tr = some s') : M.run s tr = some s' ∧ M.Along s P tr := by
  induction tr generalizing s with
  | nil => exact ⟨h, M.along_nil s P⟩
  | cons e es ih =>
    obtain ⟨s₁, hs, hrest⟩ := Option.bind_eq_some_iff.mp h
    obtain ⟨hP, hs⟩ := Option.ite_none_right_eq_some.mp hs
    obtain ⟨hrun, halong⟩ := ih hrest
    refine ⟨by rw [run, hs, Option.bind_some, hrun], M.along_cons.mpr ⟨hP, ?_⟩⟩
    intro s₂ hs₂
    cases hs.symm.trans hs₂
    exact halong

/-- **The simulation rule.** A relation between two machines over the same events that holds at the
start, and whose left steps the right machine can follow, carries every run across. -/
theorem simulation {τ : Type w} {N : Machine τ ε} {R : σ → τ → Prop}
    (step : ∀ {s s' e t}, R s t → M.step s e = some s' → ∃ t', N.step t e = some t' ∧ R s' t')
    {s s' : σ} {t : τ} {tr : List ε} (start : R s t) (h : M.run s tr = some s') :
    ∃ t', N.run t tr = some t' ∧ R s' t' := by
  induction tr generalizing s t with
  | nil =>
    cases h
    exact ⟨t, rfl, start⟩
  | cons e es ih =>
    obtain ⟨s₁, hs, hrest⟩ := Option.bind_eq_some_iff.mp h
    obtain ⟨t₁, ht, hR⟩ := step start hs
    obtain ⟨t', hrun, hR'⟩ := ih hR hrest
    refine ⟨t', ?_, hR'⟩
    simp only [run, ht, Option.bind_some, hrun]

/-- **The refinement rule.** A relation that holds at the start, and under which the right machine
answers each left step of a run with steps of its own, carries every run across. The relation may
read the run so far. -/
theorem refinement {τ : Type w} {ε' : Type x} {N : Machine τ ε'} {R : List ε → σ → τ → Prop} {s₀ : σ}
    {t₀ : τ} (start : R [] s₀ t₀)
    (step : ∀ tr s e s' gs t, M.run s₀ tr = some s → N.run t₀ gs = some t → R tr s t →
      M.step s e = some s' → ∃ fs t', N.run t fs = some t' ∧ R (tr ++ [e]) s' t') :
    ∀ {tr s}, M.run s₀ tr = some s → ∃ fs t, N.run t₀ fs = some t ∧ R tr s t := by
  refine M.history (P := fun tr s => ∃ fs t, N.run t₀ fs = some t ∧ R tr s t) ⟨[], t₀, rfl, start⟩ ?_
  rintro tr s e s' hrun ⟨fs, t, ht, hR⟩ hstep
  obtain ⟨gs, t', hgs, hR'⟩ := step tr s e s' fs t hrun ht hR hstep
  exact ⟨fs ++ gs, t', N.run_append_some.mpr ⟨t, ht, hgs⟩, hR'⟩

end Machine

end Found
