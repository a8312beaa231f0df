import Pinyin.Proofs.Lattice.Ranking

/-!
# Pinyin.Proofs.Lattice.Scores

The lowest scores among some nodes, counted with multiplicity.

* `LinearCost` — ordered costs of which no two rank alike;
* `sortScores`, `lowest` — some scores in order, and the lowest of them;
* `eq_sortScores` — the order is determined by which scores there are, so `lowest_congr`;
* `map_score_take_mergeSort` — the lowest scores are those of the nodes that rank first.
-/

namespace Pinyin

variable {σ R : Type}

/-- Ordered costs of which two are equal if neither is less than the other. -/
class LinearCost (R : Type) [Cost R] : Prop extends OrderedCost R where
  antisymm : ∀ a b : R, ¬ a < b → ¬ b < a → a = b

instance : LinearCost Rat where
  antisymm _ _ h h' := Rat.le_antisymm (Rat.not_lt.1 h') (Rat.not_lt.1 h)

/-- Some scores in ascending order. -/
def sortScores [Cost R] (scores : List R) : List R := scores.mergeSort fun a b => ¬ b < a

/-- The lowest scores among some, at most `k` of them, in ascending order. -/
def lowest [Cost R] (k : Nat) (scores : List R) : List R := (sortScores scores).take k

/-- The lowest scores of the nodes that end at a position. -/
def Lattice.lowestScores [Cost R] (lat : Lattice σ R) (p k : Nat) : List R :=
  lowest k ((lat.nodes p).map Node.score)

variable [Cost R]

theorem sortScores_perm (scores : List R) : (sortScores scores).Perm scores :=
  List.mergeSort_perm scores _

variable [LinearCost R]

theorem pairwise_sortScores (scores : List R) :
    (sortScores scores).Pairwise fun a b => ¬ b < a := by
  have hsorted : (sortScores scores).Pairwise fun a b => decide (¬ b < a) = true :=
    List.pairwise_mergeSort (fun a b c => by simpa using OrderedCost.trans a b c)
      (fun a b => by simpa [or_iff_not_imp_left] using OrderedCost.asymm b a) scores
  simpa using hsorted

/-- Scores that are in order already are the same scores, put in order. -/
theorem eq_sortScores {xs ys : List R} (h : xs.Perm ys) (hxs : xs.Pairwise fun a b => ¬ b < a) :
    xs = sortScores ys :=
  (h.trans (sortScores_perm ys).symm).eq_of_pairwise
    (fun a b _ _ hab hba => LinearCost.antisymm a b hba hab) hxs (pairwise_sortScores ys)

/-- **The lowest scores** do not depend on the order in which the scores are listed. -/
theorem lowest_congr {xs ys : List R} (h : xs.Perm ys) (k : Nat) : lowest k xs = lowest k ys := by
  rw [lowest, lowest, eq_sortScores ((sortScores_perm xs).trans h) (pairwise_sortScores xs)]

/-- The nodes that rank first have the lowest scores. -/
theorem map_score_take_mergeSort (k : Nat) (ns : List (Node σ R)) :
    ((ns.mergeSort Node.rankLe).take k).map Node.score = lowest k (ns.map Node.score) := by
  have hsorted : (ns.mergeSort Node.rankLe).Pairwise fun m n => ¬ n.score < m.score :=
    pairwise_score_mergeSort (OrderedCost.linearOn _)
  rw [List.map_take, lowest, eq_sortScores ((List.mergeSort_perm ns Node.rankLe).map Node.score)
    (List.pairwise_map.2 hsorted)]

end Pinyin
