import Mathlib.Data.List.Infix
import GooseClaw.Found.Trace

/-!
# Versioned registers

A store of named registers, each of which holds the last value written to it and counts its writes: the
count is the version. The store is determined by the record of its writes (`register`), and a version
names one value of its register for good (`named`), because a record only grows.

Optimistic concurrency rests on this: who writes only while the version is the one he read replaces the
value he read.
-/

namespace Found

universe u v

variable {κ : Type u} {α : Type v} [DecidableEq κ]

/-- The values written to a register, in order. -/
def valuesOf (log : List (κ × α)) (k : κ) : List α :=
  log.filterMap fun e => if e.1 = k then some e.2 else none

/-- The number of writes to a register. -/
def versionNo (log : List (κ × α)) (k : κ) : Nat := (valuesOf log k).length

/-- The value of a register and its version; a register no one wrote to has none. -/
def register (log : List (κ × α)) (k : κ) : Option (α × Nat) :=
  (valuesOf log k).getLast?.map fun a => (a, versionNo log k)

/-- The value a version of a register names. -/
def named (log : List (κ × α)) (k : κ) (n : Nat) : Option α :=
  if n = 0 then none else (valuesOf log k)[n - 1]?

variable {log log' : List (κ × α)} {k k' : κ} {a : α} {n : Nat}

theorem valuesOf_append (log log' : List (κ × α)) (k : κ) :
    valuesOf (log ++ log') k = valuesOf log k ++ valuesOf log' k := List.filterMap_append

theorem valuesOf_snoc_same (log : List (κ × α)) (k : κ) (a : α) :
    valuesOf (log ++ [(k, a)]) k = valuesOf log k ++ [a] := by
  rw [valuesOf_append]
  simp only [valuesOf, List.filterMap_cons, if_true, List.filterMap_nil]

theorem valuesOf_snoc_other (log : List (κ × α)) (a : α) (h : k ≠ k') :
    valuesOf (log ++ [(k, a)]) k' = valuesOf log k' := by
  rw [valuesOf_append]
  simp only [valuesOf, List.filterMap_cons, h, if_false, List.filterMap_nil, List.append_nil]

/-! ## One write -/

theorem versionNo_snoc_same (log : List (κ × α)) (k : κ) (a : α) :
    versionNo (log ++ [(k, a)]) k = versionNo log k + 1 := by
  rw [versionNo, valuesOf_snoc_same, List.length_append]
  rfl

theorem register_snoc_same (log : List (κ × α)) (k : κ) (a : α) :
    register (log ++ [(k, a)]) k = some (a, versionNo log k + 1) := by
  rw [register, versionNo_snoc_same, valuesOf_snoc_same, List.getLast?_concat]
  rfl

theorem register_snoc_other (log : List (κ × α)) (a : α) (h : k ≠ k') :
    register (log ++ [(k, a)]) k' = register log k' := by
  rw [register, versionNo, valuesOf_snoc_other log a h]
  rfl

theorem versionNo_of_register (h : register log k = some (a, n)) : versionNo log k = n := by
  obtain ⟨b, -, hb⟩ := Option.map_eq_some_iff.mp h
  exact (Prod.mk.inj hb).2

theorem versionNo_of_register_none (h : register log k = none) : versionNo log k = 0 := by
  have hnil : valuesOf log k = [] := List.getLast?_eq_none_iff.mp (Option.map_eq_none_iff.mp h)
  rw [versionNo, hnil]
  rfl

/-- A register's version is positive. -/
theorem pos_of_register (h : register log k = some (a, n)) : 0 < n := by
  obtain ⟨b, hlast, hb⟩ := Option.map_eq_some_iff.mp h
  rw [← (Prod.mk.inj hb).2]
  exact List.length_pos_iff.mpr (List.getLast?_isSome.mp (hlast ▸ rfl))

theorem versionNo_le_length (log : List (κ × α)) (k : κ) : versionNo log k ≤ log.length :=
  List.length_filterMap_le _ _

/-! ## The record grows -/

theorem valuesOf_isPrefix (h : log <+: log') (k : κ) : valuesOf log k <+: valuesOf log' k := by
  obtain ⟨later, rfl⟩ := h
  rw [valuesOf_append]
  exact List.prefix_append _ _

/-- **A version names its value for good.** -/
theorem named_mono (h : log <+: log') (hn : named log k n = some a) : named log' k n = some a := by
  unfold named at hn ⊢
  by_cases hzero : n = 0
  · rw [if_pos hzero] at hn
    cases hn
  · rw [if_neg hzero] at hn ⊢
    obtain ⟨later, hlater⟩ := valuesOf_isPrefix h k
    rw [← hlater, List.getElem?_append_left (List.getElem?_eq_some_iff.mp hn).1]
    exact hn

/-- What a register holds is what its version names. -/
theorem named_of_register (h : register log k = some (a, n)) : named log k n = some a := by
  have hpos := pos_of_register h
  obtain ⟨b, hlast, hb⟩ := Option.map_eq_some_iff.mp h
  obtain ⟨rfl, rfl⟩ := Prod.mk.inj hb
  rw [named, if_neg (Nat.ne_of_gt hpos), ← hlast, List.getLast?_eq_getElem?]
  rfl

/-- Only versions there have been name a value. -/
theorem le_versionNo_of_named (h : named log k n = some a) : 0 < n ∧ n ≤ versionNo log k := by
  unfold named at h
  by_cases hzero : n = 0
  · rw [if_pos hzero] at h
    cases h
  · rw [if_neg hzero] at h
    have hlt := (List.getElem?_eq_some_iff.mp h).1
    unfold versionNo
    omega

end Found
