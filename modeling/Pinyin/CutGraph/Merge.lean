import Pinyin.CutGraph.Basic

/-!
# Pinyin.CutGraph.Merge

Replacing a graph by another while keeping as much of it as agrees.

* `divergence` — the first position from which on the graphs may differ;
* `merge` — the other graph, its front taken from the first, with the positions
  of the first that are stale: what was built on them must be discarded.
-/

namespace Pinyin.CutGraph

/-- The length of the longest common front of two lists. -/
def commonLength [DecidableEq α] : List α → List α → Nat
  | x :: xs, y :: ys => if x = y then commonLength xs ys + 1 else 0
  | _, _ => 0

theorem commonLength_le_left [DecidableEq α] (xs ys : List α) :
    commonLength xs ys ≤ xs.length := by
  fun_induction commonLength xs ys <;> simp_all

theorem commonLength_le_right [DecidableEq α] (xs ys : List α) :
    commonLength xs ys ≤ ys.length := by
  fun_induction commonLength xs ys <;> simp_all

/-- The two graphs have the same edges at a position, and none of them goes
beyond `limit`. -/
def AgreeAt (g other : CutGraph) (limit p : Nat) : Prop :=
  g.edgesAt p = other.edgesAt p ∧ ∀ e ∈ g.edgesAt p, e.stop ≤ limit

instance (g other : CutGraph) (limit p : Nat) : Decidable (AgreeAt g other limit p) := by
  unfold AgreeAt; infer_instance

/-- The first position where the graphs do not agree on edges within the common
front of their texts, or the position after that front. -/
def divergence (g other : CutGraph) : Nat :=
  let limit := commonLength g.text other.text
  ((List.range (limit + 1)).find? fun p => ¬ AgreeAt g other limit p).getD (limit + 1)

/-- Before the divergence the graphs have the same edges, all of them within the
common front of the texts. -/
theorem agreeAt_of_lt_divergence {g other : CutGraph} {p : Nat}
    (h : p < divergence g other) :
    AgreeAt g other (commonLength g.text other.text) p := by
  unfold divergence at h
  simp only at h
  cases hf : (List.range (commonLength g.text other.text + 1)).find?
      fun p => ¬ AgreeAt g other (commonLength g.text other.text) p with
  | none =>
    rw [hf, Option.getD_none] at h
    have hp := List.find?_eq_none.1 hf p (List.mem_range.2 h)
    simpa using hp
  | some q =>
    rw [hf, Option.getD_some] at h
    have hp := (List.find?_range_eq_some.1 hf).2.2 p h
    simpa using hp

/-- The table of the other graph, with the rows before `since` taken from the
first. -/
def spliceTable (g other : CutGraph) (since : Nat) : Array (List Edge) :=
  Array.ofFn fun p : Fin (other.size + 1) =>
    if p.val < since then g.edgesAt p.val else other.edgesAt p.val

theorem edgesIn_spliceTable {g other : CutGraph} {since : Nat} (p : Nat) :
    edgesIn (spliceTable g other since) p
      = if p ≤ other.size then
          if p < since then g.edgesAt p else other.edgesAt p
        else [] := by
  unfold edgesIn spliceTable
  rw [Array.getElem?_ofFn]
  by_cases hp : p < other.size + 1
  · rw [dif_pos hp, Option.getD_some, if_pos (Nat.le_of_lt_succ hp)]
  · rw [dif_neg hp, if_neg (by omega), Option.getD_none]

/-- The positions after `since` up to a size, which a graph of that size loses
when it changes from `since` on. -/
def stalePositions (since size : Nat) : List Nat := List.range' (since + 1) (size - since)

/-- The other graph, with the edges before the divergence taken from the first. -/
def splice (g other : CutGraph) : CutGraph where
  text := other.text
  table := spliceTable g other (divergence g other)
  size_table := by simp [spliceTable, size]
  forward := by
    intro p e he
    rw [edgesIn_spliceTable] at he
    split at he
    · split at he
      · next hp =>
        have hagree := agreeAt_of_lt_divergence hp
        refine ⟨(g.forward p e he).1, Nat.le_trans (hagree.2 e he) ?_⟩
        exact commonLength_le_right _ _
      · exact other.forward p e he
    · simp at he
  nodup := by
    intro p
    rw [edgesIn_spliceTable]
    split
    · split
      · exact g.nodup p
      · exact other.nodup p
    · simp

@[simp] theorem text_splice (g other : CutGraph) : (splice g other).text = other.text := rfl

/-- The edges at a position come from the first graph before the divergence, and from
the other one after it. -/
theorem edgesAt_splice {g other : CutGraph} {p : Nat} (h : p ≤ other.size) :
    (splice g other).edgesAt p
      = if p < divergence g other then g.edgesAt p else other.edgesAt p :=
  (edgesIn_spliceTable p).trans (if_pos h)

theorem mem_stalePositions {since size p : Nat} :
    p ∈ stalePositions since size ↔ since < p ∧ p ≤ size := by
  simp only [stalePositions, List.mem_range'_1]
  omega

/-- What a graph becomes when it is replaced by another, and the positions of the
old one that are stale.  What ends at another position of the old graph was
built on edges that both graphs have. -/
def merge (g other : CutGraph) : CutGraph × List Nat :=
  (splice g other, stalePositions (divergence g other) g.size)

end Pinyin.CutGraph
