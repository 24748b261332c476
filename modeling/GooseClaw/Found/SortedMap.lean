import Mathlib.Algebra.BigOperators.Group.List.Basic
import Mathlib.Data.List.Induction
import Mathlib.Data.List.Sort

/-!
# Sorted maps

A map as the list of its entries in ascending order of their keys, as a search tree is walked. The order
is a field, so every map has it; an entry is found exactly when it is in the list (`mem_entries`), and
changing the entry of one key changes no other (`get?_alter`).

`tally` adds up values by key. What it holds for a key is the sum over the key's occurrences
(`get?_tally`), and the keys it holds are those that occur.
-/

namespace Found

universe u v

variable {α : Type u} {β : Type v} [LinearOrder α]

/-- The entries with the one of `k` changed, or put where it belongs. -/
def alterEntries (k : α) (f : Option β → β) : List (α × β) → List (α × β)
  | [] => [(k, f none)]
  | e :: es =>
    if k < e.1 then (k, f none) :: e :: es
    else if k = e.1 then (k, f (some e.2)) :: es
    else e :: alterEntries k f es

/-- The keys stand in ascending order. -/
def Ascending (es : List (α × β)) : Prop := (es.map Prod.fst).Pairwise (· < ·)

theorem key_mem_alterEntries {k a : α} {f : Option β → β} {es : List (α × β)}
    (h : a ∈ (alterEntries k f es).map Prod.fst) : a = k ∨ a ∈ es.map Prod.fst := by
  induction es with
  | nil => exact .inl (List.mem_singleton.mp h)
  | cons e es ih =>
    unfold alterEntries at h
    split at h
    · exact List.mem_cons.mp h
    · split at h
      · next heq =>
        rcases List.mem_cons.mp h with h | h
        · exact .inl h
        · exact .inr (List.mem_cons_of_mem _ h)
      · rcases List.mem_cons.mp h with h | h
        · exact .inr (h ▸ List.mem_cons_self)
        · exact (ih h).imp id (List.mem_cons_of_mem _)

theorem ascending_alterEntries {k : α} {f : Option β → β} {es : List (α × β)}
    (h : Ascending es) : Ascending (alterEntries k f es) := by
  induction es with
  | nil => exact List.pairwise_singleton _ _
  | cons e es ih =>
    obtain ⟨hhead, htail⟩ := List.pairwise_cons.mp h
    unfold alterEntries
    split
    · next hlt =>
      refine List.pairwise_cons.mpr ⟨?_, h⟩
      intro a ha
      rcases List.mem_cons.mp ha with rfl | ha
      · exact hlt
      · exact hlt.trans (hhead a ha)
    · next hnlt =>
      split
      · next heq =>
        subst heq
        exact List.pairwise_cons.mpr ⟨hhead, htail⟩
      · next hne =>
        refine List.pairwise_cons.mpr ⟨?_, ih htail⟩
        intro a ha
        rcases key_mem_alterEntries ha with rfl | ha
        · exact lt_of_le_of_ne (le_of_not_gt hnlt) (Ne.symm hne)
        · exact hhead a ha

/-- A key below all others is not found. -/
theorem lookup_eq_none_of_lt {k : α} {es : List (α × β)}
    (h : ∀ a ∈ es.map Prod.fst, k < a) : es.lookup k = none := by
  induction es with
  | nil => rfl
  | cons e es ih =>
    obtain ⟨hhead, htail⟩ := List.forall_mem_cons.mp h
    rw [List.lookup_cons, beq_eq_false_iff_ne.mpr (ne_of_lt hhead)]
    exact ih htail

/-- A map from keys to values. -/
structure SortedMap (α : Type u) (β : Type v) [LinearOrder α] where
  entries : List (α × β)
  ascending : Ascending entries

namespace SortedMap

def empty : SortedMap α β := ⟨[], List.Pairwise.nil⟩

def get? (m : SortedMap α β) (k : α) : Option β := m.entries.lookup k

/-- Change the entry of a key, or make it. -/
def alter (m : SortedMap α β) (k : α) (f : Option β → β) : SortedMap α β :=
  ⟨alterEntries k f m.entries, ascending_alterEntries m.ascending⟩

/-- The changed entry is found, and every other as before. -/
theorem get?_alter (m : SortedMap α β) (k k' : α) (f : Option β → β) :
    (m.alter k f).get? k' = if k' = k then some (f (m.get? k)) else m.get? k' := by
  obtain ⟨es, hes⟩ := m
  show (alterEntries k f es).lookup k' = if k' = k then some (f (es.lookup k)) else es.lookup k'
  induction es with
  | nil =>
    rw [alterEntries, List.lookup_cons]
    by_cases h : k' = k
    · rw [if_pos h, beq_iff_eq.mpr h]
      rfl
    · rw [if_neg h, beq_eq_false_iff_ne.mpr h]
  | cons e es ih =>
    obtain ⟨hhead, htail⟩ := List.pairwise_cons.mp hes
    unfold alterEntries
    by_cases hlt : k < e.1
    · have hnone : (e :: es).lookup k = none := by
        apply lookup_eq_none_of_lt
        intro a ha
        rcases List.mem_cons.mp ha with rfl | ha
        · exact hlt
        · exact hlt.trans (hhead a ha)
      rw [if_pos hlt, hnone, List.lookup_cons]
      by_cases h : k' = k
      · rw [if_pos h, beq_iff_eq.mpr h]
      · rw [if_neg h, beq_eq_false_iff_ne.mpr h]
    · rw [if_neg hlt]
      by_cases heq : k = e.1
      · rw [if_pos heq, List.lookup_cons, List.lookup_cons, List.lookup_cons, beq_iff_eq.mpr heq]
        by_cases h : k' = k
        · rw [if_pos h, beq_iff_eq.mpr h]
        · rw [if_neg h, beq_eq_false_iff_ne.mpr h, beq_eq_false_iff_ne.mpr (heq ▸ h)]
      · rw [if_neg heq, List.lookup_cons, List.lookup_cons, List.lookup_cons, ih htail,
          beq_eq_false_iff_ne.mpr heq]
        by_cases he : k' = e.1
        · have hk : k' ≠ k := fun h => heq (h.symm.trans he)
          rw [beq_iff_eq.mpr he]
          exact (if_neg hk).symm
        · rw [beq_eq_false_iff_ne.mpr he]

/-- The entries are what is found. -/
theorem mem_entries (m : SortedMap α β) (k : α) (b : β) :
    (k, b) ∈ m.entries ↔ m.get? k = some b := by
  obtain ⟨es, hes⟩ := m
  show (k, b) ∈ es ↔ es.lookup k = some b
  induction es with
  | nil => exact ⟨nofun, nofun⟩
  | cons e es ih =>
    obtain ⟨hhead, htail⟩ := List.pairwise_cons.mp hes
    rw [List.mem_cons, List.lookup_cons, ih htail]
    by_cases h : k = e.1
    · -- the key is the head's, and no later entry has it
      subst h
      have hnone : es.lookup e.1 = none := lookup_eq_none_of_lt hhead
      rw [beq_self_eq_true, hnone]
      constructor
      · rintro (h | h)
        · exact congrArg some (congrArg Prod.snd h).symm
        · cases h
      · intro h
        exact .inl (Prod.ext rfl (Option.some.inj h).symm)
    · rw [beq_eq_false_iff_ne.mpr h]
      constructor
      · rintro (he | he)
        · exact absurd (congrArg Prod.fst he) h
        · exact he
      · exact .inr

/-! ## Adding up by key -/

section Tally

variable [AddMonoid β]

/-- One more value for its key. -/
def add (m : SortedMap α β) (p : α × β) : SortedMap α β := m.alter p.1 fun o => o.getD 0 + p.2

/-- The values of a list added up by key. -/
def tally (l : List (α × β)) : SortedMap α β := l.foldl add empty

/-- What a list holds for a key. -/
def sumOf (l : List (α × β)) (k : α) : β := ((l.filter fun p => p.1 = k).map Prod.snd).sum

theorem sumOf_snoc (l : List (α × β)) (p : α × β) (k : α) :
    sumOf (l ++ [p]) k = if k = p.1 then sumOf l k + p.2 else sumOf l k := by
  unfold sumOf
  rw [List.filter_append, List.map_append, List.sum_append]
  by_cases h : k = p.1
  · have hone : [p].filter (fun q => q.1 = k) = [p] := by simp [h]
    rw [if_pos h, hone, List.map_singleton, List.sum_singleton]
  · have hnil : [p].filter (fun q => q.1 = k) = [] := by simp [Ne.symm h]
    rw [if_neg h, hnil, List.map_nil, List.sum_nil, add_zero]

theorem sumOf_of_not_mem {l : List (α × β)} {k : α} (h : k ∉ l.map Prod.fst) : sumOf l k = 0 := by
  have hnil : l.filter (fun p => p.1 = k) = [] := by
    apply List.filter_eq_nil_iff.mpr
    intro p hp heq
    exact h (of_decide_eq_true heq ▸ List.mem_map_of_mem hp)
  rw [sumOf, hnil]
  rfl

/-- **What a tally holds**: for a key that occurs the sum over its occurrences, for others nothing. -/
theorem get?_tally (l : List (α × β)) (k : α) :
    (tally l).get? k = if k ∈ l.map Prod.fst then some (sumOf l k) else none := by
  induction l using List.reverseRecOn with
  | nil => rfl
  | append_singleton l p ih =>
    have hstep : tally (l ++ [p]) = (tally l).add p := by
      rw [tally, List.foldl_append]
      rfl
    rw [hstep, add, get?_alter, sumOf_snoc, List.map_append]
    by_cases h : k = p.1
    · subst h
      have hmem : p.1 ∈ l.map Prod.fst ++ [p].map Prod.fst :=
        List.mem_append_right _ List.mem_cons_self
      rw [if_pos rfl, if_pos hmem, if_pos rfl, ih]
      by_cases hold : p.1 ∈ l.map Prod.fst
      · rw [if_pos hold, Option.getD_some]
      · rw [if_neg hold, Option.getD_none, sumOf_of_not_mem hold]
    · have hmem : k ∈ l.map Prod.fst ++ [p].map Prod.fst ↔ k ∈ l.map Prod.fst := by
        rw [List.map_singleton, List.mem_append, List.mem_singleton]
        exact or_iff_left h
      rw [if_neg h, if_neg h, ih]
      simp only [hmem]

end Tally

end SortedMap

end Found
