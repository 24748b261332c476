import Mathlib.Data.List.Induction

/-!
# Laws of a growing record

A record is a list that grows at its end. `Every P` says that each entry, when it was written,
satisfied `P` of the entries before it; it is built up entry by entry (`every_snoc`), it holds of every
prefix, and two entries of one record are compared by which was written first (`Every.compare`).
-/

namespace Found

universe u

variable {α : Type u}

/-- Each entry satisfies `P` of what stands before it. -/
def Every (P : List α → α → Prop) (l : List α) : Prop :=
  ∀ before a later, l = before ++ a :: later → P before a

theorem every_nil (P : List α → α → Prop) : Every P [] :=
  fun before _ _ h => absurd h.symm (List.append_ne_nil_of_right_ne_nil before nofun)

theorem mem_snoc {l : List α} {a b : α} : a ∈ l ++ [b] ↔ a ∈ l ∨ a = b := by
  rw [List.mem_append, List.mem_singleton]

theorem mem_of_eq_append {l l₁ l₂ : List α} {a : α} (hl : l = l₁ ++ l₂) (h : a ∈ l₁) : a ∈ l :=
  hl ▸ List.mem_append_left l₂ h

theorem mem_of_eq_append_cons {l l₁ l₂ : List α} {a : α} (hl : l = l₁ ++ a :: l₂) : a ∈ l :=
  hl ▸ List.mem_append_right l₁ List.mem_cons_self

/-- A split just after an entry. -/
theorem eq_snoc_append {l l₁ l₂ : List α} {a : α} (hl : l = l₁ ++ a :: l₂) :
    l = (l₁ ++ [a]) ++ l₂ := by
  rw [hl, List.append_assoc, List.singleton_append]

/-- A split just before the last entry read. -/
theorem eq_append_cons {l l₁ l₂ : List α} {a : α} (hl : l = (l₁ ++ [a]) ++ l₂) :
    l = l₁ ++ a :: l₂ := by
  rw [hl, List.append_assoc, List.singleton_append]

/-- A split of a record that grew by one is a split of the record before, or cuts off the new
entry. -/
theorem snoc_eq_append_cons {l before later : List α} {a b : α}
    (h : l ++ [b] = before ++ a :: later) :
    (∃ later', later = later' ++ [b] ∧ l = before ++ a :: later') ∨
      later = [] ∧ l = before ∧ b = a := by
  rcases List.eq_nil_or_concat later with rfl | ⟨later', c, rfl⟩
  · obtain ⟨rfl, hb⟩ := List.append_inj' h rfl
    exact .inr ⟨rfl, rfl, (List.cons.inj hb).1⟩
  · rw [List.concat_eq_append, ← List.cons_append, ← List.append_assoc] at h
    obtain ⟨rfl, hb⟩ := List.append_inj' h rfl
    exact .inl ⟨later', by rw [List.concat_eq_append, (List.cons.inj hb).1], rfl⟩

/-- Two places of one list are the same place, or one lies behind the other. -/
theorem append_cons_compare {u v x y : List α} {a b : α} (h : u ++ a :: v = x ++ b :: y) :
    (u = x ∧ a = b ∧ v = y) ∨ (∃ w, x = u ++ a :: w) ∨ ∃ w, u = x ++ b :: w := by
  rcases List.append_eq_append_iff.mp h with ⟨w, rfl, hw⟩ | ⟨w, rfl, hw⟩
  · cases w with
    | nil =>
      obtain ⟨rfl, rfl⟩ := List.cons.inj hw
      exact .inl ⟨(List.append_nil u).symm, rfl, rfl⟩
    | cons c w =>
      obtain ⟨rfl, -⟩ := List.cons.inj hw
      exact .inr (.inl ⟨w, rfl⟩)
  · cases w with
    | nil =>
      obtain ⟨rfl, rfl⟩ := List.cons.inj hw
      exact .inl ⟨List.append_nil x, rfl, rfl⟩
    | cons c w =>
      obtain ⟨rfl, -⟩ := List.cons.inj hw
      exact .inr (.inr ⟨w, rfl⟩)

theorem every_snoc {P : List α → α → Prop} {l : List α} {b : α} :
    Every P (l ++ [b]) ↔ Every P l ∧ P l b := by
  constructor
  · intro h
    refine ⟨?_, h l b [] rfl⟩
    intro before a later hl
    exact h before a (later ++ [b]) (by rw [hl, List.append_assoc, List.cons_append])
  · rintro ⟨hl, hb⟩ before a later h
    rcases snoc_eq_append_cons h with ⟨later', -, hsplit⟩ | ⟨-, rfl, rfl⟩
    · exact hl before a later' hsplit
    · exact hb

/-- The same law, read from the front with what has been read so far. -/
def EveryFrom (P : List α → α → Prop) : List α → List α → Prop
  | _, [] => True
  | before, a :: l => P before a ∧ EveryFrom P (before ++ [a]) l

theorem everyFrom_iff {P : List α → α → Prop} {read l : List α} :
    EveryFrom P read l ↔ ∀ before a later, l = before ++ a :: later → P (read ++ before) a := by
  induction l generalizing read with
  | nil =>
    refine ⟨?_, fun _ => trivial⟩
    intro _ before _ _ h
    exact absurd h.symm (List.append_ne_nil_of_right_ne_nil before nofun)
  | cons b l ih =>
    constructor
    · rintro ⟨hb, hl⟩ before a later h
      cases before with
      | nil =>
        cases h
        rw [List.append_nil]
        exact hb
      | cons c before =>
        obtain ⟨rfl, rfl⟩ := List.cons.inj h
        have hlater := ih.mp hl before a later rfl
        rwa [List.append_assoc, List.singleton_append] at hlater
    · intro h
      refine ⟨?_, ih.mpr ?_⟩
      · have hfirst := h [] b l rfl
        rwa [List.append_nil] at hfirst
      · intro before a later hl
        have hlater := h (b :: before) a later (by rw [hl, List.cons_append])
        rwa [List.append_assoc, List.singleton_append]

instance decidableEveryFrom {P : List α → α → Prop} [∀ before a, Decidable (P before a)] :
    ∀ read l, Decidable (EveryFrom P read l)
  | _, [] => .isTrue trivial
  | read, a :: l => haveI := decidableEveryFrom (P := P) (read ++ [a]) l
    inferInstanceAs (Decidable (P read a ∧ EveryFrom P (read ++ [a]) l))

instance {P : List α → α → Prop} [∀ before a, Decidable (P before a)] (l : List α) :
    Decidable (Every P l) := decidable_of_iff (EveryFrom P [] l) everyFrom_iff

/-- A law about two entries, the earlier and the later. -/
theorem Every.pairwise {R : α → α → Prop} {l : List α}
    (h : Every (fun before b => ∀ a ∈ before, R a b) l) : l.Pairwise R := by
  induction l using List.reverseRecOn with
  | nil => exact .nil
  | append_singleton l c ih =>
    obtain ⟨hl, hc⟩ := every_snoc.mp h
    refine List.pairwise_append.mpr ⟨ih hl, List.pairwise_singleton _ _, ?_⟩
    intro a ha b hb
    cases List.mem_singleton.mp hb
    exact hc a ha

/-- The law of a prefix's entries. -/
theorem Every.of_append {P : List α → α → Prop} {l l' : List α} (h : Every P (l ++ l')) :
    Every P l := by
  intro before a later hl
  exact h before a (later ++ l') (by rw [hl, List.append_assoc, List.cons_append])

/-- Of two entries of a record one stood there when the other was written, unless they are one. -/
theorem Every.compare {P : List α → α → Prop} {l : List α} {a b : α} (h : Every P l) (ha : a ∈ l)
    (hb : b ∈ l) :
    a = b ∨ (∃ before, a ∈ before ∧ P before b) ∨ ∃ before, b ∈ before ∧ P before a := by
  induction l using List.reverseRecOn with
  | nil => cases ha
  | append_singleton l c ih =>
    obtain ⟨hl, hc⟩ := every_snoc.mp h
    rcases mem_snoc.mp ha with ha' | rfl
    · rcases mem_snoc.mp hb with hb' | rfl
      · exact ih hl ha' hb'
      · exact .inr (.inl ⟨l, ha', hc⟩)
    · rcases mem_snoc.mp hb with hb' | rfl
      · exact .inr (.inr ⟨l, hb', hc⟩)
      · exact .inl rfl

end Found
