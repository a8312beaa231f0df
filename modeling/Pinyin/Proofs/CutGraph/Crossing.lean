import Pinyin.Proofs.CutGraph.Agreement

/-!
# Pinyin.Proofs.CutGraph.Crossing

Edges that pass over positions.  A merge that finds no stale position keeps everything
that was built on a graph; this is right because the kept part reaches no further than
edges of the graph do.

* `CrossedBefore` — an edge passes over each gap before a position;
* `crossedBefore_of_isConnected` — in a connected graph this is so everywhere;
* `CrossedBefore.splice` — a merge keeps the edges that pass over what it keeps.
-/

namespace Pinyin.CutGraph

/-- Every gap between two positions before `q` has an edge over it. -/
def CrossedBefore (g : CutGraph) (q : Nat) : Prop :=
  ∀ m, m + 2 ≤ q → ∃ p ≤ m, ∃ stop ∈ g.successors p, m < stop

namespace CrossedBefore

variable {g : CutGraph} {q : Nat}

theorem mono {r : Nat} (h : g.CrossedBefore q) (hle : r ≤ q) : g.CrossedBefore r :=
  fun m hm => h m (Nat.le_trans hm hle)

/-- Edges pass over gaps inside the text only. -/
theorem le_size (h : g.CrossedBefore q) : q ≤ g.size + 1 := by
  by_contra hlt
  obtain ⟨p, -, stop, hstop, hover⟩ := h g.size (by omega)
  have hle := (lt_of_mem_successors hstop).2
  omega

end CrossedBefore

/-! ## Connected graphs -/

theorem mem_foldl_insert {x : Nat} {qs found : List Nat} :
    x ∈ qs.foldl (fun found q => found.insert q) found ↔ x ∈ found ∨ x ∈ qs := by
  induction qs generalizing found with
  | nil => simp
  | cons q qs ih =>
      rw [List.foldl_cons, ih, List.mem_insert_iff, List.mem_cons]
      tauto

/-- Where no edge passes over a gap, nothing behind it is reached. -/
theorem le_of_mem_reached {g : CutGraph} {m : Nat}
    (h : ∀ p ≤ m, ∀ stop ∈ g.successors p, stop ≤ m) {x : Nat} (hx : x ∈ g.reached) : x ≤ m := by
  have hfold : ∀ (positions found : List Nat), (∀ y ∈ found, y ≤ m) →
      ∀ y ∈ positions.foldl (fun found p =>
        if p ∈ found then (g.successors p).foldl (fun qs q => qs.insert q) found else found) found,
        y ≤ m := by
    intro positions
    induction positions with
    | nil => exact fun _ hfound => hfound
    | cons p positions ih =>
        intro found hfound
        rw [List.foldl_cons]
        refine ih _ fun y hy => ?_
        by_cases hp : p ∈ found
        · rw [if_pos hp] at hy
          rcases mem_foldl_insert.1 hy with hy | hy
          · exact hfound y hy
          · exact h p (hfound p hp) y hy
        · rw [if_neg hp] at hy
          exact hfound y hy
  exact hfold _ [0] (fun y hy => by simp_all) x hx

/-- In a connected graph every gap has an edge over it. -/
theorem crossedBefore_of_isConnected {g : CutGraph} (h : g.IsConnected) :
    g.CrossedBefore (g.size + 1) := by
  intro m hm
  by_contra hnone
  have hle := le_of_mem_reached (m := m) (fun p hp stop hstop => by
    by_contra hover
    exact hnone ⟨p, hp, stop, hstop, by omega⟩) h
  omega

/-! ## Merges -/

/-- The positions of a graph that a merge does not make stale lie before the divergence. -/
theorem le_divergence_of_le_size {g other : CutGraph} {q : Nat} (hq : q ≤ g.size)
    (hkept : ∀ since ∈ (stalePositions (divergence g other) g.size).min?, q < since) :
    q ≤ divergence g other := by
  by_cases hlt : divergence g other < g.size
  · have hmin : (stalePositions (divergence g other) g.size).min?
        = some (divergence g other + 1) := by
      rw [List.min?_eq_some_iff]
      refine ⟨mem_stalePositions.2 ⟨by omega, by omega⟩, fun p hp => ?_⟩
      exact (mem_stalePositions.1 hp).1
    have := hkept _ hmin
    omega
  · omega

/-- What a merge keeps of a lattice whose frontier is crossed lies before the divergence. -/
theorem le_divergence {g other : CutGraph} {frontier q : Nat} (h : g.CrossedBefore frontier)
    (hq : q < frontier)
    (hkept : ∀ since ∈ (stalePositions (divergence g other) g.size).min?, q < since) :
    q ≤ divergence g other := by
  have hsize := h.le_size
  exact le_divergence_of_le_size (by omega) hkept

/-- A merge keeps an edge over every gap in what it keeps. -/
theorem CrossedBefore.splice {g other : CutGraph} {frontier : Nat} (h : g.CrossedBefore frontier)
    (hkept : ∀ q < frontier, q ≤ divergence g other) :
    (splice g other).CrossedBefore frontier := by
  intro m hm
  obtain ⟨p, hp, stop, hstop, hover⟩ := h m hm
  have hdiv := hkept (m + 1) (by omega)
  rw [(agreeBefore_splice g other).successors_eq (by omega)] at hstop
  exact ⟨p, hp, stop, hstop, hover⟩

end Pinyin.CutGraph
