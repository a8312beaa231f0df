import Pinyin.Decoder.Basic
import Pinyin.Proofs.CutGraph.Agreement
import Pinyin.Proofs.Lattice.NBest

/-!
# Pinyin.Proofs.Lattice.Link

How the nodes of a lattice hang together over a graph.

* `Arc.Follows` — an arc goes on from a partial sentence, along the edges of a graph;
* `Lattice.Linked` — each node of a lattice extends another of its nodes by such an arc;
* `Linked.push`, `Linked.discard`, `Linked.onGraph` — what keeps this up;
* `Transcription.IsWayTo`, `Linked.isWayTo` — the sentences of such a lattice are ways through the
  graph, and their scores are sums.
-/

namespace Pinyin

variable {σ R : Type}

/-- A way with at least one edge, along the edges of a graph. -/
def CutGraph.IsWay (g : CutGraph) (path : Path) : Prop :=
  2 ≤ path.length ∧ path.IsChain fun a b => b ∈ g.successors a

theorem CutGraph.IsWay.exists_eq_cons {g : CutGraph} {path : Path} (h : g.IsWay path) :
    ∃ p q rest, path = p :: q :: rest ∧ q ∈ g.successors p := by
  match path, h with
  | [], h => exact absurd h.1 (by simp)
  | [p], h => exact absurd h.1 (by simp)
  | p :: q :: rest, h => exact ⟨p, q, rest, rfl, (List.isChain_cons_cons.1 h.2).1⟩

/-! ## Links -/

/-- An arc goes on where a partial sentence ends, along the edges of a graph, and makes it one with
a given score.  A separator changes neither the score nor the state of the model; a word adds its
cost, and one of some decoders has put the model in its state. -/
structure Arc.Follows [Cost R] (allowed : Decoder σ R → Prop) (g : CutGraph)
    (prev : Node σ R) (arc : Arc σ R) (score : R) : Prop where
  start_eq : arc.start = prev.stop
  isWay : g.IsWay arc.path
  separator : g.IsSeparator arc.start →
    (arc.word = "" ∧ arc.cost = 0) ∧ arc.state = prev.state ∧ score = prev.score
  word : ¬ g.IsSeparator arc.start → score = prev.score + arc.cost ∧
    ∃ d, allowed d ∧ arc.state = d.model.next prev.state arc.index arc.word

namespace Arc.Follows

variable [Cost R] {allowed : Decoder σ R → Prop} {g h : CutGraph} {prev : Node σ R}
  {arc : Arc σ R} {score : R}

/-- An arc runs forward inside the text. -/
theorem start_lt_stop (hf : arc.Follows allowed g prev score) :
    arc.start < arc.stop ∧ arc.stop ≤ g.size := by
  obtain ⟨p, q, rest, hpath, -⟩ := hf.isWay.exists_eq_cons
  have hchain := hf.isWay.2
  rw [hpath] at hchain
  rw [Arc.start, Arc.stop, hpath]
  exact CutGraph.lt_getLastD_of_isChain hchain

/-- Graphs that agree up to the end of an arc both have it. -/
theorem onGraph (hf : arc.Follows allowed g prev score) {q : Nat} (hagree : g.AgreeBefore h q)
    (hq : arc.stop ≤ q) : arc.Follows allowed h prev score := by
  obtain ⟨p, r, rest, hpath, hr⟩ := hf.isWay.exists_eq_cons
  have hstart : arc.start = p := by rw [Arc.start, hpath]; rfl
  have hlt := hf.start_lt_stop
  have hsep : g.IsSeparator arc.start ↔ h.IsSeparator arc.start := by
    rw [hstart]
    exact hagree.isSeparator_iff (by omega) (List.ne_nil_of_mem hr)
  refine ⟨hf.start_eq, ⟨hf.isWay.1, ?_⟩, fun hs => hf.separator (hsep.2 hs),
    fun hs => hf.word (mt hsep.1 hs)⟩
  exact (hagree.sameSpan hf.isWay.2 hq).imp fun _ _ hedge => hedge.1.2

end Arc.Follows

namespace Lattice

theorem mem_nodes {lat : Lattice σ R} {q : Nat} {n : Node σ R} :
    n ∈ lat.nodes q ↔ n ∈ lat.log.toList ∧ n.stop = q := by
  simp [nodes]

theorem mem_log_discard {lat : Lattice σ R} {positions : List Nat} {n : Node σ R} :
    n ∈ (lat.discard positions).log.toList ↔
      n ∈ lat.log.toList ∧ ∀ since ∈ positions.min?, n.stop < since := by
  unfold discard
  cases positions.min? <;> simp

/-- Each node but the start extends another node of the lattice along a graph. -/
def Linked [Cost R] (allowed : Decoder σ R → Prop) (g : CutGraph) (lat : Lattice σ R) :
    Prop :=
  ∀ prev arc score seq, .link prev arc score seq ∈ lat.log.toList →
    prev ∈ lat.log.toList ∧ arc.Follows allowed g prev score

namespace Linked

variable [Cost R] {allowed : Decoder σ R → Prop} {g h : CutGraph} {lat : Lattice σ R}

theorem empty : (Lattice.empty : Lattice σ R).Linked allowed g := by
  intro prev arc score seq hn
  cases hn

/-- No node ends outside the text. -/
theorem stop_le_size (hl : lat.Linked allowed g) {n : Node σ R} (hn : n ∈ lat.log.toList) :
    n.stop ≤ g.size := by
  cases n with
  | start state => exact Nat.zero_le _
  | link prev arc score seq => exact (hl prev arc score seq hn).2.start_lt_stop.2

theorem push (hl : lat.Linked allowed g) {draft : Draft σ R} (hprev : draft.prev ∈ lat.log.toList)
    (hf : draft.arc.Follows allowed g draft.prev draft.score) :
    (lat.push draft).Linked allowed g := by
  intro prev arc score seq hn
  simp only [Lattice.push, Array.toList_push, List.mem_append, List.mem_singleton] at hn ⊢
  rcases hn with hn | hn
  · obtain ⟨hmem, hfollows⟩ := hl prev arc score seq hn
    exact ⟨.inl hmem, hfollows⟩
  · cases hn
    exact ⟨.inl hprev, hf⟩

/-- Discarding drops no node without those that extend it. -/
theorem discard (hl : lat.Linked allowed g) (positions : List Nat) :
    (lat.discard positions).Linked allowed g := by
  intro prev arc score seq hn
  obtain ⟨hmem, hkept⟩ := mem_log_discard.1 hn
  obtain ⟨hprev, hf⟩ := hl prev arc score seq hmem
  -- What is kept ends before the discarded positions, and what it extends ends earlier still.
  refine ⟨mem_log_discard.2 ⟨hprev, fun since hsince => ?_⟩, hf⟩
  have hlt := hf.start_lt_stop.1
  have hstart := hf.start_eq
  have hstop : arc.stop < since := hkept since hsince
  omega

theorem prepare [DecidableEq σ] (hl : lat.Linked allowed g) (purpose : Purpose σ) :
    (lat.prepare purpose).Linked allowed g := by
  unfold Lattice.prepare
  split
  · exact hl
  · intro prev arc score seq hn
    cases List.mem_singleton.1 hn

theorem settle (hl : lat.Linked allowed g) (singlePath : Bool) :
    (lat.settle singlePath).Linked allowed g := by
  unfold Lattice.settle
  split
  · exact hl
  · split
    · exact hl
    · exact hl.discard [1]

/-- Over graphs that agree up to its last node a lattice is linked alike. -/
theorem onGraph (hl : lat.Linked allowed g) {q : Nat} (hagree : g.AgreeBefore h q)
    (hq : ∀ n ∈ lat.log.toList, n.stop ≤ q) : lat.Linked allowed h := by
  intro prev arc score seq hn
  obtain ⟨hprev, hf⟩ := hl prev arc score seq hn
  exact ⟨hprev, hf.onGraph hagree (hq _ hn)⟩

end Linked

end Lattice

/-! ## Sentences -/

/-- The positions that a sentence passes. -/
def Transcription.route (t : Transcription σ R) : Path :=
  0 :: t.arcs.flatMap fun arc => arc.path.tail

/-- The arcs of a sentence join one another from the start to a position, along the edges of a
graph, and its score is the sum of what they cost, from left to right; separators cost nothing. -/
structure Transcription.IsWayTo [Cost R] (g : CutGraph) (stop : Nat)
    (t : Transcription σ R) : Prop where
  joined : t.arcs.map Arc.start ++ [stop] = 0 :: t.arcs.map Arc.stop
  isChain : t.route.IsChain fun a b => b ∈ g.successors a
  getLast?_eq : t.route.getLast? = some stop
  score_eq : t.score
    = ((t.arcs.filter fun arc => ¬ g.IsSeparator arc.start).map Arc.cost).foldl (· + ·) 0
  cost_eq : ∀ arc ∈ t.arcs, g.IsSeparator arc.start → arc.cost = 0

namespace Transcription.IsWayTo

variable [Cost R] {g : CutGraph} {stop : Nat} {t : Transcription σ R}

/-- A sentence up to the end takes one of the ways through the graph. -/
theorem route_mem_paths (h : t.IsWayTo g stop) (hstop : stop = g.size) : t.route ∈ g.paths :=
  CutGraph.mem_pathsFrom_of_isChain h.isChain <| by
    have hlast := h.getLast?_eq
    rw [route] at hlast
    rw [List.getLastD_eq_getLast?, hlast, Option.getD_some, hstop]

/-- Where adding zero changes nothing, the separators count as the words do. -/
theorem score_eq_sum (h : t.IsWayTo g stop) (hzero : ∀ x : R, x + 0 = x) :
    t.score = (t.arcs.map Arc.cost).foldl (· + ·) 0 := by
  rw [h.score_eq]
  have hskip : ∀ (arcs : List (Arc σ R)) (x : R),
      (∀ arc ∈ arcs, g.IsSeparator arc.start → arc.cost = 0) →
      ((arcs.filter fun arc => ¬ g.IsSeparator arc.start).map Arc.cost).foldl (· + ·) x
        = (arcs.map Arc.cost).foldl (· + ·) x := by
    intro arcs
    induction arcs with
    | nil => exact fun _ _ => rfl
    | cons arc arcs ih =>
        intro x hcost
        obtain ⟨harc, hrest⟩ := List.forall_mem_cons.1 hcost
        by_cases hsep : g.IsSeparator arc.start
        · rw [List.filter_cons_of_neg (by simpa using hsep), List.map_cons, List.foldl_cons,
            harc hsep, hzero, ih x hrest]
        · rw [List.filter_cons_of_pos (by simpa using hsep), List.map_cons, List.map_cons,
            List.foldl_cons, List.foldl_cons, ih _ hrest]
  exact hskip t.arcs 0 h.cost_eq

/-- The sentence of no words. -/
theorem start (g : CutGraph) : (⟨[], 0⟩ : Transcription σ R).IsWayTo g 0 where
  joined := rfl
  isChain := List.isChain_singleton 0
  getLast?_eq := rfl
  score_eq := rfl
  cost_eq := nofun

/-- A sentence goes on with an arc that follows it. -/
theorem append {allowed : Decoder σ R → Prop} {prev : Node σ R} {arc : Arc σ R} {score : R}
    (h : prev.transcription.IsWayTo g prev.stop) (hf : arc.Follows allowed g prev score) :
    (⟨prev.arcs ++ [arc], score⟩ : Transcription σ R).IsWayTo g arc.stop := by
  obtain ⟨p, q, rest, hpath, hq⟩ := hf.isWay.exists_eq_cons
  have hchain := hf.isWay.2
  have hstart : arc.start = p := by rw [Arc.start, hpath]; rfl
  have hroute : Transcription.route ⟨prev.arcs ++ [arc], score⟩
      = prev.transcription.route ++ (q :: rest) := by
    simp [route, Node.transcription, hpath]
  have hlast : prev.transcription.route.getLast? = some p := by
    rw [h.getLast?_eq, ← hf.start_eq, hstart]
  rw [hpath] at hchain
  refine ⟨?_, ?_, ?_, ?_, ?_⟩
  · have hjoined : prev.arcs.map Arc.start ++ [prev.stop] = 0 :: prev.arcs.map Arc.stop := h.joined
    simp only [List.map_append, List.map_singleton, hf.start_eq, hjoined, List.cons_append]
  · rw [hroute, List.isChain_append]
    refine ⟨h.isChain, (List.isChain_cons_cons.1 hchain).2, fun x hx y hy => ?_⟩
    rw [hlast, Option.mem_some_iff] at hx
    rw [List.head?_cons, Option.mem_some_iff] at hy
    exact hx ▸ hy ▸ hq
  · have hstop : arc.stop = (q :: rest).getLastD 0 := by rw [Arc.stop, hpath]; rfl
    rw [hroute, hstop, List.getLast?_append, List.getLast?_cons, List.getLastD_cons]
    simp
  · have hsum : prev.score
        = ((prev.arcs.filter fun arc => ¬ g.IsSeparator arc.start).map Arc.cost).foldl (· + ·) 0 :=
      h.score_eq
    by_cases hsep : g.IsSeparator arc.start
    · have hskip : [arc].filter (fun arc => ¬ g.IsSeparator arc.start) = [] := by simp [hsep]
      rw [List.filter_append, hskip, List.append_nil, ← hsum]
      exact (hf.separator hsep).2.2
    · have hkeep : [arc].filter (fun arc => ¬ g.IsSeparator arc.start) = [arc] := by simp [hsep]
      rw [List.filter_append, hkeep, List.map_append, List.foldl_append, ← hsum]
      exact (hf.word hsep).1
  · intro a ha hsep
    rcases List.mem_append.1 ha with ha | ha
    · exact h.cost_eq a ha hsep
    · obtain rfl := List.mem_singleton.1 ha
      exact (hf.separator hsep).1.2

end Transcription.IsWayTo

/-- **The sentences of a lattice** whose nodes are linked are ways through the graph. -/
theorem Lattice.Linked.isWayTo [Cost R] {allowed : Decoder σ R → Prop} {g : CutGraph}
    {lat : Lattice σ R} (hl : lat.Linked allowed g) {n : Node σ R} (hn : n ∈ lat.log.toList) :
    n.transcription.IsWayTo g n.stop := by
  induction n with
  | start state => exact .start g
  | link prev arc score seq ih =>
      obtain ⟨hprev, hf⟩ := hl prev arc score seq hn
      exact (ih hprev).append hf

end Pinyin
