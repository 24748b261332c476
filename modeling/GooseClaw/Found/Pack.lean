import Mathlib.Algebra.GroupWithZero.Nat
import Mathlib.Data.List.Induction

/-!
# Packing

A list is packed into consecutive pieces greedily: an element joins the open piece when the piece
stays within the limit, and opens the next piece otherwise. The pieces joined are the list
(`flatten_pack`). When no element is over the limit, no piece is over it or empty, and a piece was
only closed when it was nearly full, which bounds their number (`length_pack_mul_le`); `Packed` is the
invariant of the pass behind this. An element over the limit is a piece of its own (`fits_of_mem_pack`),
and as the first element it leaves an empty piece in front of it (`nil_mem_pack`).
-/

namespace Found

universe u

variable {α : Type u}

/-! ## The pass -/

/-- What a list weighs. -/
def weight (w : α → Nat) (l : List α) : Nat := (l.map w).sum

@[simp] theorem weight_nil (w : α → Nat) : weight w [] = 0 := rfl

@[simp] theorem weight_append (w : α → Nat) (l m : List α) :
    weight w (l ++ m) = weight w l + weight w m := by
  rw [weight, List.map_append, List.sum_append, weight, weight]

@[simp] theorem weight_singleton (w : α → Nat) (a : α) : weight w [a] = w a := by
  rw [weight, List.map_singleton, List.sum_singleton]

variable (w : α → Nat) (limit : Nat)

/-- One element on: the closed pieces and the open one. -/
def packStep (s : List (List α) × List α) (a : α) : List (List α) × List α :=
  if weight w s.2 + w a > limit then (s.1 ++ [s.2], [a]) else (s.1, s.2 ++ [a])

/-- The open piece is closed at the end, unless nothing is in it. -/
def packEnd (s : List (List α) × List α) : List (List α) :=
  if s.2.isEmpty then s.1 else s.1 ++ [s.2]

/-- The list in pieces. -/
def pack (l : List α) : List (List α) := packEnd (l.foldl (packStep w limit) ([], []))

/-! ## The invariant -/

variable {w limit}

/-- Nothing is lost, added or moved. -/
theorem joined_foldl_packStep (s : List (List α) × List α) (l : List α) :
    (l.foldl (packStep w limit) s).1.flatten ++ (l.foldl (packStep w limit) s).2 =
      s.1.flatten ++ s.2 ++ l := by
  induction l generalizing s with
  | nil => rw [List.append_nil]; rfl
  | cons a l ih =>
    rw [List.foldl_cons, ih]
    unfold packStep
    split
    · rw [List.flatten_append, List.flatten_singleton, List.append_assoc _ [a], List.singleton_append]
    · rw [List.append_assoc, List.append_assoc, List.singleton_append, List.append_assoc]

/-- What the pass keeps while it sees elements that weigh at most `top`. -/
structure Packed (w : α → Nat) (limit top : Nat) (s : List (List α) × List α) : Prop where
  /-- A closed piece has no room left for the heaviest element. -/
  full : ∀ piece ∈ s.1, limit < weight w piece + top
  /-- No piece is over the limit. -/
  within : ∀ piece ∈ s.1, weight w piece ≤ limit
  open_within : weight w s.2 ≤ limit
  closed_ne_nil : ∀ piece ∈ s.1, piece ≠ []

variable {top : Nat}

theorem packed_nil : Packed w limit top ([], []) := ⟨nofun, nofun, Nat.zero_le _, nofun⟩

theorem packed_step {s : List (List α) × List α} {a : α} (h : Packed w limit top s)
    (ha : w a ≤ top) (htop : top ≤ limit) : Packed w limit top (packStep w limit s a) := by
  unfold packStep
  split
  · next hfull =>
    -- the open piece is closed, and was not empty, since the element alone is within the limit
    have hne : s.2 ≠ [] := by
      intro hnil
      rw [hnil, weight_nil] at hfull
      omega
    refine ⟨?_, ?_, ?_, ?_⟩
    · exact List.forall_mem_append.mpr ⟨h.full, List.forall_mem_singleton.mpr (by omega)⟩
    · exact List.forall_mem_append.mpr ⟨h.within, List.forall_mem_singleton.mpr h.open_within⟩
    · rw [weight_singleton]
      omega
    · exact List.forall_mem_append.mpr ⟨h.closed_ne_nil, List.forall_mem_singleton.mpr hne⟩
  · next hroom =>
    refine ⟨h.full, h.within, ?_, h.closed_ne_nil⟩
    rw [weight_append, weight_singleton]
    omega

theorem packed_foldl (htop : top ≤ limit) {l : List α} (hl : ∀ a ∈ l, w a ≤ top) :
    Packed w limit top (l.foldl (packStep w limit) ([], [])) := by
  induction l using List.reverseRecOn with
  | nil => exact packed_nil
  | append_singleton l a ih =>
    rw [List.foldl_append]
    exact packed_step (ih fun b hb => hl b (List.mem_append_left _ hb))
      (hl a (List.mem_append_right _ (List.mem_singleton_self a))) htop

/-! ## The pieces -/

theorem mem_packEnd {s : List (List α) × List α} {piece : List α} (h : piece ∈ packEnd s) :
    piece ∈ s.1 ∨ (piece = s.2 ∧ s.2 ≠ []) := by
  unfold packEnd at h
  split at h
  · exact .inl h
  · next hne =>
    rcases List.mem_append.mp h with h | h
    · exact .inl h
    · exact .inr ⟨List.mem_singleton.mp h, fun hnil => hne (by rw [hnil, List.isEmpty_nil])⟩

/-- **The pieces joined are the list**, whatever the limit is. -/
theorem flatten_pack (w : α → Nat) (limit : Nat) (l : List α) : (pack w limit l).flatten = l := by
  have hjoined := @joined_foldl_packStep _ w limit ([], []) l
  unfold pack packEnd
  split
  · next h =>
    rw [List.isEmpty_iff.mp h, List.append_nil] at hjoined
    exact hjoined
  · rw [List.flatten_append, List.flatten_singleton]
    exact hjoined

section

variable (htop : top ≤ limit) {l : List α} (hl : ∀ a ∈ l, w a ≤ top)

include htop hl

/-- No piece is over the limit, when no element is. -/
theorem weight_of_mem_pack {piece : List α} (h : piece ∈ pack w limit l) :
    weight w piece ≤ limit := by
  have hinv := packed_foldl htop hl
  rcases mem_packEnd h with h | ⟨rfl, -⟩
  · exact hinv.within piece h
  · exact hinv.open_within

/-- No piece is empty. -/
theorem ne_nil_of_mem_pack {piece : List α} (h : piece ∈ pack w limit l) : piece ≠ [] := by
  have hinv := packed_foldl htop hl
  rcases mem_packEnd h with h | ⟨rfl, hne⟩
  · exact hinv.closed_ne_nil piece h
  · exact hne

/-- **How many pieces there are**: all but the last are nearly full. -/
theorem length_pack_mul_le :
    ((pack w limit l).length - 1) * (limit + 1 - top) ≤ weight w l := by
  have hinv := packed_foldl htop hl
  generalize hs : l.foldl (packStep w limit) ([], []) = s at hinv
  have hlength : (pack w limit l).length - 1 ≤ s.1.length := by
    rw [pack, hs]
    unfold packEnd
    split
    · omega
    · rw [List.length_append, List.length_singleton]
      omega
  have hclosed : ∀ pieces : List (List α), (∀ piece ∈ pieces, limit < weight w piece + top) →
      pieces.length * (limit + 1 - top) ≤ weight w pieces.flatten := by
    intro pieces
    induction pieces with
    | nil => simp
    | cons piece pieces ih =>
      intro hfull
      obtain ⟨hp, hrest⟩ := List.forall_mem_cons.mp hfull
      have hone : limit + 1 - top ≤ weight w piece := by omega
      rw [List.length_cons, Nat.succ_mul, List.flatten_cons, weight_append, Nat.add_comm]
      exact Nat.add_le_add hone (ih hrest)
  calc ((pack w limit l).length - 1) * (limit + 1 - top)
      ≤ s.1.length * (limit + 1 - top) := Nat.mul_le_mul_right _ hlength
    _ ≤ weight w s.1.flatten := hclosed s.1 hinv.full
    _ ≤ weight w (s.1.flatten ++ s.2) := by
        rw [weight_append]
        exact Nat.le_add_right _ _
    _ = weight w l := by
        rw [← hs, joined_foldl_packStep]
        rfl

end

/-! ## No cut has fewer pieces -/

/-- Elements that all fit the open piece join it. -/
theorem foldl_packStep_of_fits {s : List (List α) × List α} {l : List α}
    (h : weight w s.2 + weight w l ≤ limit) : l.foldl (packStep w limit) s = (s.1, s.2 ++ l) := by
  induction l generalizing s with
  | nil => rw [List.append_nil]; rfl
  | cons a l ih =>
    rw [← List.singleton_append, weight_append, weight_singleton] at h
    have hroom : ¬ weight w s.2 + w a > limit := by omega
    have hstep : packStep w limit s a = (s.1, s.2 ++ [a]) := if_neg hroom
    rw [List.foldl_cons, hstep, ih]
    · rw [List.append_assoc, List.singleton_append]
    · rw [weight_append, weight_singleton]
      omega

/-- Over a stretch within the limit, at most one piece is closed: once one is, the rest of the stretch
fits the next. -/
theorem length_foldl_packStep_le {s : List (List α) × List α} {l : List α}
    (h : weight w l ≤ limit) : (l.foldl (packStep w limit) s).1.length ≤ s.1.length + 1 := by
  induction l generalizing s with
  | nil => exact Nat.le_succ _
  | cons a l ih =>
    rw [← List.singleton_append, weight_append, weight_singleton] at h
    rw [List.foldl_cons]
    by_cases hfull : weight w s.2 + w a > limit
    · have hstep : packStep w limit s a = (s.1 ++ [s.2], [a]) := if_pos hfull
      have hrest : weight w [a] + weight w l ≤ limit := by
        rw [weight_singleton]
        exact h
      rw [hstep, foldl_packStep_of_fits hrest]
      show (s.1 ++ [s.2]).length ≤ s.1.length + 1
      exact Nat.le_of_eq List.length_append
    · have hstep : packStep w limit s a = (s.1, s.2 ++ [a]) := if_neg hfull
      rw [hstep]
      exact ih (by omega)

/-- Over a list cut into stretches within the limit, no more pieces are closed than there are
stretches. -/
theorem length_foldl_flatten_le {s : List (List α) × List α} {cut : List (List α)}
    (h : ∀ stretch ∈ cut, weight w stretch ≤ limit) :
    (cut.flatten.foldl (packStep w limit) s).1.length ≤ s.1.length + cut.length := by
  induction cut generalizing s with
  | nil => exact Nat.le_refl _
  | cons stretch cut ih =>
    obtain ⟨hfirst, hrest⟩ := List.forall_mem_cons.mp h
    rw [List.flatten_cons, List.foldl_append, List.length_cons]
    have hone := length_foldl_packStep_le (s := s) hfirst
    have hmore := ih (s := stretch.foldl (packStep w limit) s) hrest
    omega

/-- **Packing is optimal**: no cut of the list into pieces within the limit has fewer pieces. -/
theorem length_pack_le {cut : List (List α)} (h : ∀ piece ∈ cut, weight w piece ≤ limit) :
    (pack w limit cut.flatten).length ≤ cut.length := by
  cases cut with
  | nil => exact Nat.le_refl _
  | cons piece cut =>
    obtain ⟨hfirst, hrest⟩ := List.forall_mem_cons.mp h
    -- the first piece stays open, so only the others can close one
    have hopen : piece.foldl (packStep w limit) ([], []) = ([], piece) := by
      apply foldl_packStep_of_fits
      rw [weight_nil, Nat.zero_add]
      exact hfirst
    have hclosed := length_foldl_flatten_le (s := ([], piece)) hrest
    rw [pack, List.flatten_cons, List.foldl_append, hopen, List.length_cons]
    generalize cut.flatten.foldl (packStep w limit) ([], piece) = s at hclosed
    rw [List.length_nil, Nat.zero_add] at hclosed
    unfold packEnd
    split
    · omega
    · rw [List.length_append, List.length_singleton]
      omega

/-! ## Elements over the limit -/

/-- The piece is within the limit, or is one element that is over it by itself. -/
def Fits (w : α → Nat) (limit : Nat) (piece : List α) : Prop :=
  weight w piece ≤ limit ∨ ∃ a, piece = [a] ∧ limit < w a

theorem fits_singleton (a : α) : Fits w limit [a] := by
  rcases Nat.lt_or_ge limit (w a) with h | h
  · exact .inr ⟨a, rfl, h⟩
  · exact .inl (by rwa [weight_singleton])

theorem fits_packStep {s : List (List α) × List α} (hclosed : ∀ piece ∈ s.1, Fits w limit piece)
    (hopen : Fits w limit s.2) (a : α) :
    (∀ piece ∈ (packStep w limit s a).1, Fits w limit piece) ∧
      Fits w limit (packStep w limit s a).2 := by
  unfold packStep
  split
  · exact ⟨List.forall_mem_append.mpr ⟨hclosed, List.forall_mem_singleton.mpr hopen⟩,
      fits_singleton a⟩
  · next hroom =>
    refine ⟨hclosed, .inl ?_⟩
    rw [weight_append, weight_singleton]
    omega

theorem fits_foldl {s : List (List α) × List α} (hclosed : ∀ piece ∈ s.1, Fits w limit piece)
    (hopen : Fits w limit s.2) (l : List α) :
    (∀ piece ∈ (l.foldl (packStep w limit) s).1, Fits w limit piece) ∧
      Fits w limit (l.foldl (packStep w limit) s).2 := by
  induction l generalizing s with
  | nil => exact ⟨hclosed, hopen⟩
  | cons a l ih =>
    obtain ⟨hclosed', hopen'⟩ := fits_packStep hclosed hopen a
    exact ih hclosed' hopen'

/-- **No piece is over the limit**, but for elements that are so alone. -/
theorem fits_of_mem_pack {l piece : List α} (h : piece ∈ pack w limit l) : Fits w limit piece := by
  have hstart : Fits w limit [] := .inl (Nat.zero_le limit)
  obtain ⟨hclosed, hopen⟩ := fits_foldl (s := ([], [])) (List.forall_mem_nil _) hstart l
  rcases mem_packEnd h with h | ⟨rfl, -⟩
  · exact hclosed piece h
  · exact hopen

/-- The open piece holds the last element. -/
theorem open_packStep_ne_nil (s : List (List α) × List α) (a : α) :
    (packStep w limit s a).2 ≠ [] := by
  unfold packStep
  split
  · exact List.cons_ne_nil a []
  · exact List.append_ne_nil_of_right_ne_nil s.2 (List.cons_ne_nil a [])

/-- Once the open piece is not empty, no empty piece is closed any more. -/
theorem nil_mem_foldl_packStep {s : List (List α) × List α} (h : s.2 ≠ []) (l : List α) :
    [] ∈ (l.foldl (packStep w limit) s).1 ↔ [] ∈ s.1 := by
  induction l generalizing s with
  | nil => rfl
  | cons a l ih =>
    rw [List.foldl_cons, ih (open_packStep_ne_nil s a)]
    unfold packStep
    split
    · rw [List.mem_append, List.mem_singleton]
      exact or_iff_left (Ne.symm h)
    · rfl

theorem nil_mem_packEnd (s : List (List α) × List α) : [] ∈ packEnd s ↔ [] ∈ s.1 := by
  unfold packEnd
  split
  · rfl
  · next hne =>
    rw [List.mem_append, List.mem_singleton]
    apply or_iff_left
    intro hnil
    rw [← hnil] at hne
    exact hne rfl

/-- **An empty piece is closed exactly when the first element is over the limit.** -/
theorem nil_mem_pack {l : List α} : [] ∈ pack w limit l ↔ ∃ a ∈ l.head?, limit < w a := by
  rw [pack, nil_mem_packEnd]
  cases l with
  | nil => simp
  | cons a l =>
    have hfirst : [] ∈ (packStep w limit ([], []) a).1 ↔ limit < w a := by
      unfold packStep
      rw [weight_nil, Nat.zero_add]
      split
      · next hover => exact iff_of_true List.mem_cons_self hover
      · next hroom => exact iff_of_false List.not_mem_nil hroom
    rw [List.foldl_cons, nil_mem_foldl_packStep (open_packStep_ne_nil _ a), hfirst]
    simp

end Found
