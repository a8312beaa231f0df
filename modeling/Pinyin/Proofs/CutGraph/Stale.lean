import Pinyin.Proofs.CutGraph.Agreement

/-!
# Pinyin.Proofs.CutGraph.Stale

What a merge leaves as it was, and which positions it makes stale.

* `AgreeBefore.getElem?_edgesAt_iff`, `AgreeBefore.isChain_iff_sameSpan` — graphs that agree up to a
  position have the same edges and the same ways that end there or before;
* `agreeBefore_merge` — a graph agrees up to each position that is not stale with what it becomes;
* `merge_keeps` — so the edges that end no later are kept, with all that belongs to them.
-/

namespace Pinyin.CutGraph

/-! ## Graphs that agree -/

namespace AgreeBefore

variable {g h : CutGraph} {q : Nat}

theorem symm (hagree : AgreeBefore g h q) : AgreeBefore h g q := by
  intro p hp
  obtain ⟨hedges, hpieces⟩ := hagree p hp
  exact ⟨hedges.symm, fun e he => (hpieces e (hedges ▸ he)).symm⟩

/-- An edge that ends no later than `q` has the same place among the edges of both graphs. -/
theorem getElem?_edgesAt_iff (hagree : AgreeBefore g h q) {start place : Nat} {edge : Edge}
    (hstop : edge.stop ≤ q) :
    (g.edgesAt start)[place]? = some edge ↔ (h.edgesAt start)[place]? = some edge := by
  by_cases hstart : start < q
  · rw [(hagree start hstart).1]
  · have hnone : ∀ k : CutGraph, (k.edgesAt start)[place]? ≠ some edge := fun k hedge => by
      have hlt := lt_stop (List.mem_of_getElem? hedge)
      omega
    simp [hnone]

/-- A way that ends no later than `q` is one of both graphs, with all edges alike, or of none. -/
theorem isChain_iff_sameSpan (hagree : AgreeBefore g h q) {path : Path}
    (hle : path.getLastD 0 ≤ q) :
    (path.IsChain fun a b => b ∈ g.successors a) ↔ SameSpan g h path :=
  ⟨fun hchain => hagree.sameSpan hchain hle, fun hspan => hspan.imp fun _ _ hedge => hedge.1.1⟩

end AgreeBefore

theorem SameSpan.symm {g h : CutGraph} {path : Path} (hspan : SameSpan g h path) :
    SameSpan h g path :=
  hspan.imp fun _ _ ⟨hmem, hreadings, hpiece⟩ => ⟨hmem.symm, hreadings.symm, hpiece.symm⟩

/-! ## Merges -/

variable {g other : CutGraph} {e : Nat}

/-- What is stale are the positions after the divergence. -/
theorem mem_stale {p : Nat} : p ∈ (g.merge other).2 ↔ divergence g other < p ∧ p ≤ g.size :=
  mem_stalePositions

/-- A merge keeps everything before a position that is not stale. -/
theorem agreeBefore_merge (he : e ≤ g.size) (hkept : e ∉ (g.merge other).2) :
    AgreeBefore g (g.merge other).1 e := by
  refine (agreeBefore_splice g other).mono ?_
  rw [mem_stale] at hkept
  omega

/-- **The stale positions are all that a merge invalidates.**  An edge that ends no later than a
position that is not stale is one of the old graph exactly if it is one of the new graph, with the
same readings and in the same place among the edges out of its start; its text is the same, and it
is a separator in both graphs or in none.  So the ways that end no later are the same, edge by edge.
What is stale are all positions of the old graph from some later one on. -/
theorem merge_keeps (he : e ≤ g.size) (hkept : e ∉ (g.merge other).2) :
    (∀ start edge, edge.stop ≤ e →
      (∀ place : Nat, (g.edgesAt start)[place]? = some edge ↔
        ((g.merge other).1.edgesAt start)[place]? = some edge) ∧
      (edge ∈ g.edgesAt start →
        g.piece start edge.stop = (g.merge other).1.piece start edge.stop ∧
        (g.IsSeparator start ↔ (g.merge other).1.IsSeparator start))) ∧
    (∀ path : Path, path.getLastD 0 ≤ e →
      ((path.IsChain fun a b => b ∈ g.successors a) ↔ SameSpan g (g.merge other).1 path) ∧
      ((path.IsChain fun a b => b ∈ (g.merge other).1.successors a) ↔
        SameSpan g (g.merge other).1 path)) ∧
    ∀ s ∈ (g.merge other).2, e < s ∧ ∀ p, s ≤ p → p ≤ g.size → p ∈ (g.merge other).2 := by
  have hagree := agreeBefore_merge he hkept
  refine ⟨?_, ?_, ?_⟩
  · intro start edge hstop
    refine ⟨fun place => hagree.getElem?_edgesAt_iff hstop, fun hedge => ?_⟩
    have hlt := lt_stop hedge
    have hsame := hagree.sameEdge (p := start) (by omega) (List.mem_map_of_mem hedge)
    exact ⟨hsame.2.2, hsame.isSeparator_iff⟩
  · intro path hle
    refine ⟨hagree.isChain_iff_sameSpan hle, ?_⟩
    rw [hagree.symm.isChain_iff_sameSpan hle]
    exact ⟨SameSpan.symm, SameSpan.symm⟩
  · intro s hs
    rw [mem_stale] at hs hkept
    refine ⟨by omega, fun p hp hsize => ?_⟩
    rw [mem_stale]
    omega

/-- A text that loses its last character keeps its first syllable. -/
theorem merge_keeps_sample :
    let ni : Edge := ⟨2, [⟨⟨.n, .i⟩, false⟩]⟩
    let g := ((ofText "nihe".toList).insert 0 ni).insert 2 ⟨4, [⟨⟨.h, .e⟩, false⟩]⟩
    let other := ((ofText "nih".toList).insert 0 ni).insert 2 ⟨3, [⟨⟨.h, .bare⟩, false⟩]⟩
    (g.merge other).2 = [3, 4] ∧ ∀ place : Nat, (g.edgesAt 0)[place]? = some ni ↔
      ((g.merge other).1.edgesAt 0)[place]? = some ni := by
  intro ni g other
  have hsize : 2 ≤ g.size := by decide +kernel
  have hstale : (g.merge other).2 = [3, 4] := by decide +kernel
  have hkept : 2 ∉ (g.merge other).2 := by simp [hstale]
  exact ⟨hstale, ((merge_keeps hsize hkept).1 0 ni (Nat.le_refl 2)).1⟩

end Pinyin.CutGraph
