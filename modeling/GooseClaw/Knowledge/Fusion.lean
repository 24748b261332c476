import GooseClaw.Found.Ranking
import GooseClaw.Found.SortedMap
import Mathlib.Algebra.BigOperators.Group.List.Lemmas
import Mathlib.Algebra.Order.Field.Basic
import Mathlib.Data.Rat.Cast.Order
import Mathlib.Data.String.Basic
import Mathlib.Tactic.Positivity

/-!
# Rank fusion

`rrf_score` and `fuse` of `crates/gooseclaw-knowledge/src/lib.rs`, with the scores as exact rationals. A
document's score adds up over the two candidate lists; the hits are the documents that occur, ranked by
score, and among equals by their ids. Since a ranking is fixed by its scores, neither the order of the
candidates nor which list came first shows in the result (`fuse_exact`), and a document that gains in one
list passes others without disturbing them (`fuse_monotone`).
-/

namespace GooseClaw

open Found

/-! ## The functions -/

/-- `rrf_score`: the reciprocal ranks added up. A rank of zero is not a rank. -/
def rrfScore (ranks : List Nat) (k : ℚ) : ℚ :=
  ((ranks.filter fun r => r > 0).map fun r : Nat => 1 / (k + (r : ℚ))).sum

/-- `RRF_K`. -/
def RRF_K : ℚ := 60

structure FusedHit where
  docId : String
  score : ℚ
deriving DecidableEq

/-- One candidate added to the accumulated scores. -/
def accumulate (acc : SortedMap String ℚ) (candidate : String × Nat) : SortedMap String ℚ :=
  acc.alter candidate.1 fun score => score.getD 0 + rrfScore [candidate.2] RRF_K

/-- `fuse`. The map is walked in the order of its keys, which for strings is that of their bytes, as it
is that of their characters; the sort is stable. -/
def fuse (ftsRanks vecRanks : List (String × Nat)) : List FusedHit :=
  let acc := (ftsRanks ++ vecRanks).foldl accumulate SortedMap.empty
  let hits := acc.entries.map fun e => FusedHit.mk e.1 e.2
  hits.mergeSort fun a b => b.score ≤ a.score

/-- What a document's score is to be: over its occurrences with a rank of at least one, the sum of
`1 / (60 + rank)`. -/
def reciprocalSum (candidates : List (String × Nat)) (docId : String) : ℚ :=
  ((candidates.filter fun c => c.1 = docId ∧ 1 ≤ c.2).map fun c => 1 / (60 + (c.2 : ℚ))).sum

/-! ## One candidate -/

theorem rrfScore_zero (k : ℚ) : rrfScore [0] k = 0 := rfl

theorem rrfScore_of_pos {r : Nat} (h : 1 ≤ r) (k : ℚ) : rrfScore [r] k = 1 / (k + (r : ℚ)) := by
  have hkeep : [r].filter (fun r => r > 0) = [r] := by simp; omega
  rw [rrfScore, hkeep, List.map_singleton, List.sum_singleton]

theorem rrfScore_nonneg (r : Nat) : 0 ≤ rrfScore [r] RRF_K := by
  by_cases h : 1 ≤ r
  · rw [rrfScore_of_pos h, RRF_K]
    positivity
  · obtain rfl : r = 0 := by omega
    rw [rrfScore_zero]

/-- A smaller rank weighs more. -/
theorem rrfScore_antitone {r r' : Nat} (hr' : 1 ≤ r') (h : r' ≤ r) :
    rrfScore [r] RRF_K ≤ rrfScore [r'] RRF_K := by
  rw [rrfScore_of_pos (hr'.trans h), rrfScore_of_pos hr', RRF_K]
  apply one_div_le_one_div_of_le
  · positivity
  · have hcast : (r' : ℚ) ≤ (r : ℚ) := Nat.cast_le.mpr h
    exact add_le_add_right hcast 60

/-! ## A document's sum -/

theorem reciprocalSum_cons (docId : String) (c : String × Nat) (cs : List (String × Nat)) :
    reciprocalSum (c :: cs) docId =
      (if c.1 = docId then rrfScore [c.2] RRF_K else 0) + reciprocalSum cs docId := by
  unfold reciprocalSum
  by_cases hid : c.1 = docId
  · by_cases hr : 1 ≤ c.2
    · have hin : decide (c.1 = docId ∧ 1 ≤ c.2) = true := decide_eq_true ⟨hid, hr⟩
      rw [if_pos hid, rrfScore_of_pos hr, List.filter_cons, if_pos hin, List.map_cons, List.sum_cons,
        RRF_K]
    · have hzero : c.2 = 0 := by omega
      rw [if_pos hid, hzero, rrfScore_zero, zero_add, List.filter_cons, if_neg (by simp [hr])]
  · rw [if_neg hid, zero_add, List.filter_cons, if_neg (by simp [hid])]

/-- The order of the candidates does not matter. -/
theorem reciprocalSum_perm {cs cs' : List (String × Nat)} (h : cs.Perm cs') :
    reciprocalSum cs = reciprocalSum cs' := by
  ext docId
  exact ((h.filter _).map _).sum_eq

theorem reciprocalSum_append (cs cs' : List (String × Nat)) (docId : String) :
    reciprocalSum (cs ++ cs') docId = reciprocalSum cs docId + reciprocalSum cs' docId := by
  unfold reciprocalSum
  rw [List.filter_append, List.map_append, List.sum_append]

/-- A candidate may be taken out from anywhere. -/
theorem reciprocalSum_middle (docId : String) (front rest : List (String × Nat)) (c : String × Nat) :
    reciprocalSum (front ++ c :: rest) docId =
      (if c.1 = docId then rrfScore [c.2] RRF_K else 0) + reciprocalSum (front ++ rest) docId := by
  rw [reciprocalSum_perm List.perm_middle, reciprocalSum_cons]

/-- The sum is what accumulating adds up. -/
theorem sumOf_eq_reciprocalSum (cs : List (String × Nat)) (docId : String) :
    SortedMap.sumOf (cs.map fun c => (c.1, rrfScore [c.2] RRF_K)) docId = reciprocalSum cs docId := by
  induction cs with
  | nil => rfl
  | cons c cs ih =>
    rw [reciprocalSum_cons, ← ih, SortedMap.sumOf, SortedMap.sumOf, List.map_cons, List.filter_cons]
    by_cases hid : c.1 = docId
    · rw [if_pos hid, if_pos (decide_eq_true hid), List.map_cons, List.sum_cons]
    · rw [if_neg hid, if_neg (by simpa using hid), zero_add]

/-! ## The hits -/

/-- The documents of a list of candidates. -/
def docIds (candidates : List (String × Nat)) : List String := candidates.map Prod.fst

theorem mem_docIds_append {a : String} {cs cs' : List (String × Nat)} :
    a ∈ docIds (cs ++ cs') ↔ a ∈ docIds cs ∨ a ∈ docIds cs' := by
  rw [docIds, List.map_append, List.mem_append]
  rfl

theorem mem_docIds_middle {a : String} {front rest : List (String × Nat)} {c : String × Nat} :
    a ∈ docIds (front ++ c :: rest) ↔ a = c.1 ∨ a ∈ docIds (front ++ rest) := by
  rw [mem_docIds_append, mem_docIds_append, docIds, docIds, docIds, List.map_cons, List.mem_cons]
  exact or_left_comm

/-- The accumulated scores are a tally. -/
theorem foldl_accumulate (cs : List (String × Nat)) :
    cs.foldl accumulate SortedMap.empty =
      SortedMap.tally (cs.map fun c => (c.1, rrfScore [c.2] RRF_K)) := by
  rw [SortedMap.tally, List.foldl_map]
  rfl

theorem get?_foldl_accumulate (cs : List (String × Nat)) (docId : String) :
    (cs.foldl accumulate SortedMap.empty).get? docId =
      if docId ∈ docIds cs then some (reciprocalSum cs docId) else none := by
  rw [foldl_accumulate, SortedMap.get?_tally, sumOf_eq_reciprocalSum, List.map_map]
  rfl

section Fuse

variable (fts vec : List (String × Nat))

/-- A hit is a document that occurs, with its sum. -/
theorem mem_fuse (hit : FusedHit) :
    hit ∈ fuse fts vec ↔
      hit.docId ∈ docIds (fts ++ vec) ∧ hit.score = reciprocalSum (fts ++ vec) hit.docId := by
  have hentry : hit ∈ fuse fts vec ↔
      ((fts ++ vec).foldl accumulate SortedMap.empty).get? hit.docId = some hit.score := by
    rw [fuse, List.mem_mergeSort, List.mem_map, ← SortedMap.mem_entries]
    constructor
    · rintro ⟨e, he, rfl⟩
      exact he
    · intro h
      exact ⟨(hit.docId, hit.score), h, rfl⟩
  rw [hentry, get?_foldl_accumulate]
  by_cases h : hit.docId ∈ docIds (fts ++ vec)
  · rw [if_pos h, Option.some_inj]
    exact ⟨fun heq => ⟨h, heq.symm⟩, fun ⟨_, heq⟩ => heq.symm⟩
  · rw [if_neg h]
    exact ⟨nofun, fun ⟨hin, _⟩ => absurd hin h⟩

theorem fuse_ordered :
    (fuse fts vec).Pairwise fun a b =>
      b.score < a.score ∨ a.score = b.score ∧ a.docId < b.docId := by
  apply pairwise_sortByScore FusedHit.docId FusedHit.score
  rw [List.map_map]
  exact SortedMap.ascending _

/-- The documents in the order `fuse` returns them. -/
def fusedIds : List String := (fuse fts vec).map FusedHit.docId

theorem mem_fusedIds (docId : String) :
    docId ∈ fusedIds fts vec ↔ docId ∈ docIds (fts ++ vec) := by
  rw [fusedIds, List.mem_map]
  constructor
  · rintro ⟨hit, hhit, rfl⟩
    exact ((mem_fuse fts vec hit).mp hhit).1
  · intro h
    exact ⟨⟨docId, reciprocalSum (fts ++ vec) docId⟩, (mem_fuse fts vec _).mpr ⟨h, rfl⟩, rfl⟩

/-- **The documents are ranked by their sums.** -/
theorem isRanking_fusedIds : IsRanking (reciprocalSum (fts ++ vec)) (fusedIds fts vec) := by
  apply List.pairwise_map.mpr
  apply List.Pairwise.imp_of_mem _ (fuse_ordered fts vec)
  intro a b ha hb hab
  rw [((mem_fuse fts vec a).mp ha).2, ((mem_fuse fts vec b).mp hb).2] at hab
  exact hab

/-- The hits are the ranked documents, each with its sum. -/
theorem fuse_eq_map :
    fuse fts vec = (fusedIds fts vec).map fun id => ⟨id, reciprocalSum (fts ++ vec) id⟩ := by
  rw [fusedIds, List.map_map]
  conv_lhs => rw [← List.map_id (fuse fts vec)]
  apply List.map_congr_left
  intro hit hhit
  show hit = ⟨hit.docId, _⟩
  rw [← ((mem_fuse fts vec hit).mp hhit).2]

end Fuse

/-- The candidates' order is not seen, nor which list one was in. -/
theorem fuse_perm {fts vec fts' vec' : List (String × Nat)} (h : (fts' ++ vec').Perm (fts ++ vec)) :
    fuse fts' vec' = fuse fts vec := by
  have hsum := reciprocalSum_perm h
  have hids : fusedIds fts' vec' = fusedIds fts vec := by
    apply (hsum ▸ isRanking_fusedIds fts' vec').unique (isRanking_fusedIds fts vec)
    intro docId
    rw [mem_fusedIds, mem_fusedIds]
    exact (h.map Prod.fst).mem_iff
  rw [fuse_eq_map, fuse_eq_map, hsum, hids]

/-- **Rank fusion is exact.** Every document that occurs is one hit, scored by its sum; the hits stand in
descending order of their scores, equal ones in ascending order of their ids; and neither the order of
the candidates nor that of the lists matters. -/
theorem fuse_exact (fts vec : List (String × Nat)) :
    ((fuse fts vec).map FusedHit.docId).Nodup ∧
    (∀ docId, docId ∈ (fuse fts vec).map FusedHit.docId ↔ docId ∈ docIds fts ∨ docId ∈ docIds vec) ∧
    (∀ hit ∈ fuse fts vec, hit.score = reciprocalSum (fts ++ vec) hit.docId) ∧
    ((fuse fts vec).Pairwise fun a b =>
      b.score < a.score ∨ a.score = b.score ∧ a.docId < b.docId) ∧
    (∀ fts' vec', fts'.Perm fts → vec'.Perm vec → fuse fts' vec' = fuse fts vec) ∧
    fuse vec fts = fuse fts vec := by
  refine ⟨(isRanking_fusedIds fts vec).nodup, ?_, ?_, fuse_ordered fts vec, ?_, ?_⟩
  · intro docId
    rw [← mem_docIds_append]
    exact mem_fusedIds fts vec docId
  · intro hit hhit
    exact ((mem_fuse fts vec hit).mp hhit).2
  · intro fts' vec' hfts hvec
    exact fuse_perm (hfts.append hvec)
  · exact fuse_perm List.perm_append_comm

/-! ## A document that gains -/

/-- **One list improves for a document**: it stands there at a better rank, or it is newly found there
while the other list already had it. -/
inductive Improves (d : String) (other : List (String × Nat)) :
    List (String × Nat) → List (String × Nat) → Prop
  | reranked (front rest : List (String × Nat)) {r r' : Nat} (hr' : 1 ≤ r') (hless : r' < r) :
      Improves d other (front ++ (d, r) :: rest) (front ++ (d, r') :: rest)
  | added (front rest : List (String × Nat)) {r : Nat} (hmissing : d ∉ docIds (front ++ rest))
      (hother : d ∈ docIds other) (hr : 1 ≤ r) :
      Improves d other (front ++ rest) (front ++ (d, r) :: rest)

namespace Improves

variable {d : String} {other cs cs' : List (String × Nat)}

/-- No other document's sum changes. -/
theorem sum_of_ne (h : Improves d other cs cs') {a : String} (hne : a ≠ d) :
    reciprocalSum cs' a = reciprocalSum cs a := by
  cases h with
  | reranked front rest hr' hless =>
    rw [reciprocalSum_middle, reciprocalSum_middle, if_neg (Ne.symm hne), if_neg (Ne.symm hne)]
  | added front rest hmissing hother hr =>
    rw [reciprocalSum_middle, if_neg (Ne.symm hne), zero_add]

/-- The document's own does not fall. -/
theorem sum_le (h : Improves d other cs cs') : reciprocalSum cs d ≤ reciprocalSum cs' d := by
  cases h with
  | reranked front rest hr' hless =>
    rw [reciprocalSum_middle, reciprocalSum_middle, if_pos rfl, if_pos rfl]
    exact add_le_add_left (rrfScore_antitone hr' (le_of_lt hless)) _
  | added front rest hmissing hother hr =>
    rw [reciprocalSum_middle, if_pos rfl]
    exact le_add_of_nonneg_left (rrfScore_nonneg _)

/-- The document was among the candidates. -/
theorem occurs (h : Improves d other cs cs') : d ∈ docIds (cs ++ other) := by
  rw [mem_docIds_append]
  cases h with
  | reranked front rest hr' hless => exact .inl (mem_docIds_middle.mpr (.inl rfl))
  | added front rest hmissing hother hr => exact .inr hother

/-- The list that improved has the document. -/
theorem mem_docIds_self (h : Improves d other cs cs') : d ∈ docIds cs' := by
  cases h with
  | reranked front rest hr' hless => exact mem_docIds_middle.mpr (.inl rfl)
  | added front rest hmissing hother hr => exact mem_docIds_middle.mpr (.inl rfl)

/-- It has every other document as before. -/
theorem mem_docIds_of_ne (h : Improves d other cs cs') {a : String} (hne : a ≠ d) :
    a ∈ docIds cs' ↔ a ∈ docIds cs := by
  cases h with
  | reranked front rest hr' hless =>
    rw [mem_docIds_middle, mem_docIds_middle, or_iff_right hne]
  | added front rest hmissing hother hr => rw [mem_docIds_middle, or_iff_right hne]

/-- The same documents occur. -/
theorem mem_docIds (h : Improves d other cs cs') (a : String) :
    a ∈ docIds (cs' ++ other) ↔ a ∈ docIds (cs ++ other) := by
  by_cases ha : a = d
  · subst ha
    exact iff_of_true (mem_docIds_append.mpr (.inl h.mem_docIds_self)) h.occurs
  · rw [mem_docIds_append, mem_docIds_append, h.mem_docIds_of_ne ha]

/-- In the ranking the document moves forward, if at all, and the others keep their order. -/
theorem fusedIds_moved (h : Improves d other cs cs') :
    (fusedIds cs' other).idxOf d ≤ (fusedIds cs other).idxOf d ∧
      (fusedIds cs' other).filter (· ≠ d) = (fusedIds cs other).filter (· ≠ d) := by
  have hrank := isRanking_fusedIds cs other
  have hrank' := isRanking_fusedIds cs' other
  have hmem : ∀ a, a ∈ fusedIds cs' other ↔ a ∈ fusedIds cs other := by
    intro a
    rw [mem_fusedIds, mem_fusedIds]
    exact h.mem_docIds a
  have hoff : ∀ a, a ≠ d → reciprocalSum (cs' ++ other) a = reciprocalSum (cs ++ other) a := by
    intro a ha
    rw [reciprocalSum_append, reciprocalSum_append, h.sum_of_ne ha]
  have hup : reciprocalSum (cs ++ other) d ≤ reciprocalSum (cs' ++ other) d := by
    rw [reciprocalSum_append, reciprocalSum_append]
    exact add_le_add_left h.sum_le _
  have hin : d ∈ fusedIds cs other := (mem_fusedIds cs other d).mpr h.occurs
  exact ⟨hrank.idxOf_of_raised hrank' hmem hoff hup hin, hrank.filter_of_raised hrank' hmem hoff⟩

end Improves

theorem fusedIds_comm (fts vec : List (String × Nat)) : fusedIds vec fts = fusedIds fts vec :=
  congrArg (List.map FusedHit.docId) (fuse_perm List.perm_append_comm)

/-- **Rank fusion is monotone.** A document for which one of the lists improves stands no later in the
result, and the others stand in the order they had. -/
theorem fuse_monotone {d : String} {fts vec fts' vec' : List (String × Nat)}
    (h : Improves d vec fts fts' ∧ vec' = vec ∨ Improves d fts vec vec' ∧ fts' = fts) :
    ((fuse fts' vec').map FusedHit.docId).idxOf d ≤ ((fuse fts vec).map FusedHit.docId).idxOf d ∧
      ((fuse fts' vec').map FusedHit.docId).filter (· ≠ d) =
        ((fuse fts vec).map FusedHit.docId).filter (· ≠ d) := by
  show (fusedIds fts' vec').idxOf d ≤ (fusedIds fts vec).idxOf d ∧
    (fusedIds fts' vec').filter (· ≠ d) = (fusedIds fts vec).filter (· ≠ d)
  rcases h with ⟨h, rfl⟩ | ⟨h, rfl⟩
  · exact h.fusedIds_moved
  · rw [← fusedIds_comm fts' vec', ← fusedIds_comm fts' vec]
    exact h.fusedIds_moved

/-- A document third by words and missing by meaning, then found second by meaning. -/
theorem fuse_monotone_sample :
    ((fuse [("a", 1), ("c", 2), ("b", 3)] [("a", 1), ("b", 2)]).map FusedHit.docId).idxOf "b" ≤
        ((fuse [("a", 1), ("c", 2), ("b", 3)] [("a", 1)]).map FusedHit.docId).idxOf "b" ∧
      ((fuse [("a", 1), ("c", 2), ("b", 3)] [("a", 1), ("b", 2)]).map FusedHit.docId).filter
          (· ≠ "b") =
        ((fuse [("a", 1), ("c", 2), ("b", 3)] [("a", 1)]).map FusedHit.docId).filter (· ≠ "b") :=
  fuse_monotone (.inr ⟨.added [("a", 1)] [] (by decide) (by decide) (by decide), rfl⟩)

end GooseClaw
