import Pinyin.CutGraph.Merge
import Pinyin.Proofs.CutGraph.Span

/-!
# Pinyin.Proofs.CutGraph.Agreement

Graphs that agree up to a position, as a graph and what it becomes by a merge do.

* `SameEdge`, `SameSpan` — two graphs have an edge, or all edges of a way, alike;
* `AgreeBefore` — two graphs have the same edges, in the same order, out of all positions
  before a given one;
* `filter_spansFrom_congr` — such graphs have the same spans up to there;
* `agreeBefore_splice` — a merge keeps everything before the divergence.
-/

namespace Pinyin.CutGraph

/-! ## Edges and ways in two graphs -/

/-- Two graphs have the same edge between two positions: the same readings of the same
piece. -/
def SameEdge (g h : CutGraph) (start stop : Nat) : Prop :=
  (stop ∈ g.successors start ∧ stop ∈ h.successors start) ∧
    g.readingsOf start stop = h.readingsOf start stop ∧ g.piece start stop = h.piece start stop

/-- Two graphs have all edges of a way alike. -/
def SameSpan (g h : CutGraph) (path : Path) : Prop := path.IsChain (SameEdge g h)

/-- Two graphs have the same edges out of every position before `q`, in the same order and
over the same pieces. -/
def AgreeBefore (g h : CutGraph) (q : Nat) : Prop :=
  ∀ p < q, g.edgesAt p = h.edgesAt p ∧ ∀ e ∈ g.edgesAt p, g.piece p e.stop = h.piece p e.stop

/-- The first character of a piece stands at its start. -/
theorem head?_piece {g : CutGraph} {start stop : Nat} (h : start < stop) :
    (g.piece start stop).head? = g.text[start]? := by
  rw [piece, List.head?_eq_getElem?, List.getElem?_take_of_lt (by omega), List.getElem?_drop,
    Nat.add_zero]

namespace SameEdge

variable {g h : CutGraph} {start stop : Nat}

/-- The same edge is a separator in both graphs or in none. -/
theorem isSeparator_iff (hedge : SameEdge g h start stop) :
    g.IsSeparator start ↔ h.IsSeparator start := by
  have hlt := (lt_of_mem_successors hedge.1.1).1
  unfold IsSeparator
  rw [← head?_piece hlt, ← head?_piece hlt, hedge.2.2]

end SameEdge

namespace AgreeBefore

variable {g h : CutGraph} {p q : Nat}

theorem mono {r : Nat} (hagree : AgreeBefore g h q) (hle : r ≤ q) : AgreeBefore g h r :=
  fun p hp => hagree p (Nat.lt_of_lt_of_le hp hle)

theorem successors_eq (hagree : AgreeBefore g h q) (hp : p < q) :
    g.successors p = h.successors p := by
  rw [successors, successors, (hagree p hp).1]

theorem sameEdge (hagree : AgreeBefore g h q) (hp : p < q) {stop : Nat}
    (hstop : stop ∈ g.successors p) : SameEdge g h p stop := by
  refine ⟨⟨hstop, hagree.successors_eq hp ▸ hstop⟩, ?_, ?_⟩
  · rw [readingsOf, readingsOf, (hagree p hp).1]
  · obtain ⟨e, he, rfl⟩ := List.mem_map.1 hstop
    exact (hagree p hp).2 e he

/-- Where an edge leaves a position, both graphs have a separator there or none has. -/
theorem isSeparator_iff (hagree : AgreeBefore g h q) (hp : p < q) (hne : g.successors p ≠ []) :
    g.IsSeparator p ↔ h.IsSeparator p := by
  obtain ⟨stop, hstop⟩ := List.exists_mem_of_ne_nil _ hne
  exact (hagree.sameEdge hp hstop).isSeparator_iff

/-- A way of the one graph that ends no later than `q` is a way of the other. -/
theorem sameSpan (hagree : AgreeBefore g h q) {path : Path}
    (hchain : path.IsChain fun a b => b ∈ g.successors a) (hle : path.getLastD 0 ≤ q) :
    SameSpan g h path := by
  induction path with
  | nil => exact List.isChain_nil
  | cons p rest ih =>
      cases rest with
      | nil => exact List.isChain_singleton p
      | cons r rest =>
          obtain ⟨hr, htail⟩ := List.isChain_cons_cons.1 hchain
          have hlast := (lt_getLastD_of_isChain hchain).1
          exact List.isChain_cons_cons.2 ⟨hagree.sameEdge (by omega) hr, ih htail hle⟩

end AgreeBefore

/-! ## Spans -/

/-- A position put before some ways does not change where they end. -/
theorem filter_map_cons {paths : List Path} (hne : ∀ path ∈ paths, path ≠ []) (p r : Nat) :
    (paths.map (p :: ·)).filter (fun path => path.getLastD 0 = r)
      = (paths.filter fun path => path.getLastD 0 = r).map (p :: ·) := by
  rw [List.filter_map]
  congr 1
  refine List.filter_congr fun path hpath => ?_
  obtain ⟨a, rest, rfl⟩ := List.exists_cons_of_ne_nil (hne path hpath)
  rfl

theorem ne_nil_of_mem_spansFrom {g : CutGraph} {most : Nat} {opened : Bool} {p : Nat} {path : Path}
    (h : path ∈ g.spansFrom most opened p) : path ≠ [] := by
  obtain ⟨q, rest, rfl, -⟩ := isChain_of_mem_spansFrom h
  exact List.cons_ne_nil p (q :: rest)

/-- No span ends at its start or before it. -/
theorem filter_spansFrom_eq_nil {g : CutGraph} {p r : Nat} (h : r ≤ p) (most : Nat)
    (opened : Bool) :
    (g.spansFrom most opened p).filter (fun path => path.getLastD 0 = r) = [] := by
  rw [List.filter_eq_nil_iff]
  intro path hpath
  have hlt := (lt_getLastD_of_mem_spansFrom hpath).1
  simp only [decide_eq_true_eq]
  omega

/-- Graphs that agree before `q` have the same spans that end there or before. -/
theorem filter_spansFrom_congr {g h : CutGraph} {q r : Nat} (hagree : AgreeBefore g h q)
    (hr : r ≤ q) (most : Nat) (opened : Bool) (p : Nat) :
    (g.spansFrom most opened p).filter (fun path => path.getLastD 0 = r)
      = (h.spansFrom most opened p).filter (fun path => path.getLastD 0 = r) := by
  by_cases hp : p < r
  case neg => rw [filter_spansFrom_eq_nil (by omega), filter_spansFrom_eq_nil (by omega)]
  have hsucc := hagree.successors_eq (p := p) (by omega)
  by_cases hnil : g.successors p = []
  · rw [spansFrom_eq_nil hnil, spansFrom_eq_nil (hsucc ▸ hnil)]
  have hsep := hagree.isSeparator_iff (p := p) (by omega) hnil
  have hcons : ∀ (most : Nat) (a : Nat), a ∈ g.successors p →
      ((g.spansFrom most true a).map (p :: ·)).filter (fun path => path.getLastD 0 = r)
        = ((h.spansFrom most true a).map (p :: ·)).filter (fun path => path.getLastD 0 = r) := by
    intro most a ha
    have hlt := lt_of_mem_successors ha
    rw [filter_map_cons (fun _ => ne_nil_of_mem_spansFrom),
      filter_map_cons (fun _ => ne_nil_of_mem_spansFrom),
      filter_spansFrom_congr hagree hr most true a]
  cases most with
  | zero => rw [spansFrom_zero, spansFrom_zero]
  | succ rest =>
      by_cases hs : g.IsSeparator p
      · rw [spansFrom_of_isSeparator hs, spansFrom_of_isSeparator (hsep.1 hs), ← hsucc]
        cases opened with
        | false => rfl
        | true =>
            rw [if_pos rfl, if_pos rfl, List.filter_flatMap, List.filter_flatMap]
            exact List.flatMap_congr fun a ha => hcons (rest + 1) a ha
      · rw [spansFrom_of_not_isSeparator hs, spansFrom_of_not_isSeparator (mt hsep.2 hs), ← hsucc,
          List.filter_flatMap, List.filter_flatMap]
        refine List.flatMap_congr fun a ha => ?_
        rw [List.filter_cons, List.filter_cons, hcons rest a ha]
termination_by g.size - p
decreasing_by omega

/-! ## Merges -/

/-- Two texts have their common front in common. -/
theorem take_commonLength [DecidableEq α] (xs ys : List α) :
    xs.take (commonLength xs ys) = ys.take (commonLength xs ys) := by
  fun_induction commonLength xs ys with
  | case1 x xs ys ih => simp [ih]
  | case2 => rfl
  | case3 => simp

/-- Pieces inside the common front of two texts are equal. -/
theorem piece_eq_of_le_commonLength {g h : CutGraph} {start stop : Nat}
    (hle : stop ≤ commonLength g.text h.text) : g.piece start stop = h.piece start stop := by
  have hfront : g.text.take stop = h.text.take stop := by
    have htake := congrArg (List.take stop) (take_commonLength g.text h.text)
    rwa [List.take_take, List.take_take, Nat.min_eq_left hle] at htake
  rw [piece, piece, ← List.drop_take, ← List.drop_take, hfront]

/-- The divergence comes at most one position after the common front. -/
theorem divergence_le (g other : CutGraph) :
    divergence g other ≤ commonLength g.text other.text + 1 := by
  unfold divergence
  simp only
  cases hf : (List.range (commonLength g.text other.text + 1)).find?
      fun p => ¬ AgreeAt g other (commonLength g.text other.text) p with
  | none => exact Nat.le_refl _
  | some p =>
      have hp := List.mem_range.1 (List.mem_of_find?_eq_some hf)
      exact Nat.le_of_lt hp

/-- Graphs do not diverge before a position up to which they agree. -/
theorem le_divergence_of_agreeAt {g other : CutGraph} {q : Nat}
    (hq : q ≤ commonLength g.text other.text + 1)
    (h : ∀ p < q, AgreeAt g other (commonLength g.text other.text) p) : q ≤ divergence g other := by
  unfold divergence
  simp only
  cases hf : (List.range (commonLength g.text other.text + 1)).find?
      fun p => ¬ AgreeAt g other (commonLength g.text other.text) p with
  | none => exact hq
  | some p =>
      have hp : ¬ AgreeAt g other (commonLength g.text other.text) p := by
        simpa using List.find?_some hf
      exact Nat.le_of_not_lt fun hlt => hp (h p hlt)

/-- **A merge keeps everything before the divergence**: the same edges, in the same order and
over the same text. -/
theorem agreeBefore_splice (g other : CutGraph) :
    AgreeBefore g (splice g other) (divergence g other) := by
  intro p hp
  have hagree := agreeAt_of_lt_divergence hp
  have hdiv := divergence_le g other
  have hlen := commonLength_le_right g.text other.text
  have hsize : p ≤ other.size := by unfold size; omega
  refine ⟨?_, fun e he => ?_⟩
  · rw [edgesAt_splice hsize, if_pos hp]
  · exact piece_eq_of_le_commonLength (h := splice g other) (hagree.2 e he)

end Pinyin.CutGraph
