import Mathlib.Data.List.Sort

/-!
# Rankings

A list that stands in descending order of a score, with equal scores in ascending order of the elements.
Scores and elements fix the list (`IsRanking.unique`), so nothing about how it was made shows in it.

A stable sort by score makes a ranking of a list that was ascending (`pairwise_sortByScore`). Raising the
score of one element moves it forward, if at all, and moves no two others past each other
(`IsRanking.filter_of_raised`, `IsRanking.idxOf_of_raised`).
-/

namespace Found

universe u v w

variable {α : Type u} {β : Type v} [LinearOrder α] [LinearOrder β]

/-! ## The order -/

/-- **An element stands ahead of another**: by its score, or, if that is equal, by itself. -/
def Ahead (score : α → β) (a b : α) : Prop := score b < score a ∨ score a = score b ∧ a < b

instance (score : α → β) (a b : α) : Decidable (Ahead score a b) :=
  inferInstanceAs (Decidable (score b < score a ∨ score a = score b ∧ a < b))

namespace Ahead

variable {score score' : α → β} {a b c : α}

theorem irrefl (score : α → β) (a : α) : ¬ Ahead score a a := by
  rintro (h | ⟨-, h⟩)
  · exact lt_irrefl _ h
  · exact lt_irrefl _ h

theorem asymm (h : Ahead score a b) : ¬ Ahead score b a := by
  rintro (h' | ⟨heq, hlt⟩)
  · rcases h with h | ⟨heq, -⟩
    · exact lt_asymm h h'
    · exact absurd heq (ne_of_lt h')
  · rcases h with h | ⟨-, hlt'⟩
    · exact absurd heq (ne_of_lt h)
    · exact lt_asymm hlt hlt'

theorem congr (ha : score' a = score a) (hb : score' b = score b) :
    Ahead score' a b ↔ Ahead score a b := by
  unfold Ahead
  rw [ha, hb]

/-- Who stands ahead of an element that gained stood ahead of it before. -/
theorem of_raised (ha : score' a = score a) (hb : score b ≤ score' b) (h : Ahead score' a b) :
    Ahead score a b := by
  rcases h with h | ⟨heq, hlt⟩
  · exact .inl (lt_of_le_of_lt hb (ha ▸ h))
  · rcases lt_or_eq_of_le hb with hb | hb
    · exact .inl (lt_of_lt_of_eq hb (heq.symm.trans ha))
    · exact .inr ⟨ha.symm.trans (heq.trans hb.symm), hlt⟩

end Ahead

/-! ## The list -/

/-- **A ranking**: every element stands ahead of those after it. -/
def IsRanking (score : α → β) (l : List α) : Prop := l.Pairwise (Ahead score)

namespace IsRanking

variable {score score' : α → β} {l l' : List α} {d : α}

theorem nodup (h : IsRanking score l) : l.Nodup := by
  apply h.imp
  intro a b hab heq
  subst heq
  exact Ahead.irrefl score a hab

theorem filter (h : IsRanking score l) (p : α → Bool) : IsRanking score (l.filter p) :=
  List.Pairwise.filter p h

theorem congr (h : IsRanking score l) (hs : ∀ a ∈ l, score' a = score a) : IsRanking score' l := by
  apply List.Pairwise.imp_of_mem _ h
  intro a b ha hb hab
  exact (Ahead.congr (hs a ha) (hs b hb)).mpr hab

/-- Two rankings of the same elements by the same scores are one list. -/
theorem unique (h : IsRanking score l) (h' : IsRanking score l') (hmem : ∀ a, a ∈ l ↔ a ∈ l') :
    l = l' := by
  have hperm : l.Perm l' := (List.perm_ext_iff_of_nodup h.nodup h'.nodup).mpr hmem
  apply hperm.eq_of_pairwise _ h h'
  intro a b _ _ hab hba
  exact absurd hba hab.asymm

/-- The place of an element counts those that stand ahead of it. -/
theorem idxOf_eq (h : IsRanking score l) (hd : d ∈ l) :
    l.idxOf d = (l.filter fun a => Ahead score a d).length := by
  obtain ⟨front, rest, rfl⟩ := List.append_of_mem hd
  obtain ⟨-, hrest, hcross⟩ := List.pairwise_append.mp h
  have hnotin : d ∉ front := fun hin =>
    Ahead.irrefl score d (hcross d hin d List.mem_cons_self)
  have hfront : front.filter (fun a => Ahead score a d) = front := by
    apply List.filter_eq_self.mpr
    intro a ha
    exact decide_eq_true (hcross a ha d List.mem_cons_self)
  have hback : (d :: rest).filter (fun a => Ahead score a d) = [] := by
    apply List.filter_eq_nil_iff.mpr
    intro a ha hahead
    rcases List.mem_cons.mp ha with rfl | ha
    · exact Ahead.irrefl score a (of_decide_eq_true hahead)
    · exact ((List.pairwise_cons.mp hrest).1 a ha).asymm (of_decide_eq_true hahead)
  rw [List.filter_append, hfront, hback, List.append_nil, List.idxOf_append_of_notMem hnotin,
    List.idxOf_cons_self, Nat.add_zero]

/-! ## Raising one score -/

section Raised

variable (h : IsRanking score l) (h' : IsRanking score' l') (hmem : ∀ a, a ∈ l' ↔ a ∈ l)
  (hoff : ∀ a, a ≠ d → score' a = score a)

include h h' hmem hoff

/-- The others keep their order. -/
theorem filter_of_raised : l'.filter (· ≠ d) = l.filter (· ≠ d) := by
  have hscore : ∀ a ∈ l.filter (· ≠ d), score' a = score a := by
    intro a ha
    exact hoff a (of_decide_eq_true (List.mem_filter.mp ha).2)
  apply (h'.filter _).unique ((h.filter _).congr hscore)
  intro a
  rw [List.mem_filter, List.mem_filter, hmem a]

/-- The one that gained stands no later. -/
theorem idxOf_of_raised (hup : score d ≤ score' d) (hd : d ∈ l) : l'.idxOf d ≤ l.idxOf d := by
  rw [h.idxOf_eq hd, h'.idxOf_eq ((hmem d).mpr hd)]
  apply List.Subperm.length_le
  apply List.subperm_of_subset (h'.nodup.filter _)
  intro a ha
  obtain ⟨hin, hahead⟩ := List.mem_filter.mp ha
  have hahead' := of_decide_eq_true hahead
  have hne : a ≠ d := fun heq => Ahead.irrefl score' d (heq ▸ hahead')
  refine List.mem_filter.mpr ⟨(hmem a).mp hin, ?_⟩
  exact decide_eq_true (hahead'.of_raised (hoff a hne) hup)

end Raised

end IsRanking

/-! ## Sorting by score -/

section ByScore

variable {ι : Type w} (key : ι → α) (score : ι → β)

/-- Sort so that higher scores come first, keeping the order of equal ones. -/
def sortByScore (l : List ι) : List ι := l.mergeSort fun a b => score b ≤ score a

theorem sortByScore_perm (l : List ι) : (sortByScore score l).Perm l := List.mergeSort_perm l _

theorem le_score_trans (a b c : ι) (hab : decide (score b ≤ score a) = true)
    (hbc : decide (score c ≤ score b) = true) : decide (score c ≤ score a) = true :=
  decide_eq_true (le_trans (of_decide_eq_true hbc) (of_decide_eq_true hab))

theorem le_score_total (a b : ι) :
    (decide (score b ≤ score a) || decide (score a ≤ score b)) = true := by
  rw [Bool.or_eq_true, decide_eq_true_eq, decide_eq_true_eq]
  exact le_total _ _

theorem sortByScore_descending (l : List ι) :
    (sortByScore score l).Pairwise fun a b => score b ≤ score a := by
  apply (List.pairwise_mergeSort (le_score_trans score) (le_score_total score) l).imp
  intro a b hab
  exact of_decide_eq_true hab

/-- Elements of one score keep their order. -/
theorem filter_sortByScore (l : List ι) (s : β) :
    (sortByScore score l).filter (fun a => score a = s) = l.filter fun a => score a = s := by
  have hequal : (l.filter fun a => score a = s).Pairwise fun a b => decide (score b ≤ score a) := by
    apply List.pairwise_of_forall_mem_list
    intro a ha b hb
    have ha' := of_decide_eq_true (List.mem_filter.mp ha).2
    have hb' := of_decide_eq_true (List.mem_filter.mp hb).2
    exact decide_eq_true (le_of_eq (hb'.trans ha'.symm))
  have hsub : (l.filter fun a => score a = s).Sublist (sortByScore score l) :=
    List.sublist_mergeSort (le_score_trans score) (le_score_total score) hequal List.filter_sublist
  have hinner := hsub.filter fun a => decide (score a = s)
  rw [List.filter_filter] at hinner
  simp only [Bool.and_self] at hinner
  apply (hinner.eq_of_length _).symm
  exact ((sortByScore_perm score l).filter _).length_eq.symm

/-- **An ascending list sorted by score**: equal scores stand in the order of their keys. -/
theorem pairwise_sortByScore {l : List ι} (h : (l.map key).Pairwise (· < ·)) :
    (sortByScore score l).Pairwise fun a b =>
      score b < score a ∨ score a = score b ∧ key a < key b := by
  apply List.pairwise_iff_forall_sublist.mpr
  intro a b hab
  have hle : score b ≤ score a :=
    List.pairwise_iff_forall_sublist.mp (sortByScore_descending score l) hab
  rcases lt_or_eq_of_le hle with hlt | heq
  · exact .inl hlt
  · refine .inr ⟨heq.symm, ?_⟩
    -- the two have one score, so they stand in the list in the order the sort has them in
    have hpair : [a, b].filter (fun x => score x = score a) = [a, b] := by simp [heq]
    have hin := hab.filter fun x => decide (score x = score a)
    rw [hpair, filter_sortByScore] at hin
    exact List.pairwise_iff_forall_sublist.mp (List.pairwise_map.mp h) (hin.trans List.filter_sublist)

end ByScore

end Found
