import Pinyin.Proofs.CutGraph.Crossing
import Pinyin.Proofs.Decoder.Link
import Pinyin.Proofs.Session.Failure

/-!
# Pinyin.Proofs.Session.Link

The nodes of a lattice belong to the graph that it is used with, whatever is done with both.

* `Session.Linked` — the lattice of a session is linked over its graph;
* `Linked.merge`, `Linked.decode` — the actions keep this up, also where they fail;
* `linked_of_reached` — no node has lost the one that it extends, and the sentences that are read
  off a lattice are ways through its graph.
-/

namespace Pinyin

variable {σ R : Type}

namespace Session

/-- The lattice of a session is linked over its graph. -/
def Linked [Cost R] (allowed : Decoder σ R → Prop) (s : Session σ R) : Prop :=
  s.lattice.Linked allowed s.graph

variable [DecidableEq σ] [Cost R] {s : Session σ R} {allowed : Decoder σ R → Prop}

namespace Linked

variable {d : Decoder σ R}

/-- **A merge keeps a session linked**: what is not discarded ends before the divergence. -/
theorem merge (h : s.Linked allowed) (other : CutGraph) :
    (s.act d (.merge other)).Linked allowed := by
  have hdisc := h.discard (CutGraph.stalePositions (CutGraph.divergence s.graph other) s.graph.size)
  refine hdisc.onGraph (CutGraph.agreeBefore_splice s.graph other) fun n hn => ?_
  obtain ⟨hmem, hkept⟩ := Lattice.mem_log_discard.1 hn
  exact CutGraph.le_divergence_of_le_size (h.stop_le_size hmem) hkept

/-- **A decode keeps a session linked**, also if it fails. -/
theorem decode (h : s.Linked allowed) (hd : allowed d) (nbest : Int) (state? : Option σ) :
    (s.act d (.decode nbest state?)).Linked allowed := by
  have hready : (d.ready s.lattice s.graph nbest state?).Linked allowed s.graph :=
    (h.prepare ⟨nbest.toNat, state?.getD d.model.start⟩).settle (s.graph.pathCount == 1)
  by_cases hask : 1 ≤ nbest ∧ s.graph.IsConnected
  · have hsweep := hready.sweep hd (s.graph.pathCount == 1) nbest.toNat
      (d.ready s.lattice s.graph nbest state?).frontier (List.range' 0 s.graph.size)
    rw [act, Decoder.decode_eq hask.1 hask.2]
    split
    · next heq =>
      rw [heq] at hsweep
      exact hsweep
    · next heq =>
      rw [heq] at hsweep
      exact hsweep
  · rcases Decoder.decode_cases d s.graph nbest state? s.lattice with ⟨-, e, heq⟩ | ⟨hasked, -⟩
    · rw [act, heq]
      exact h
    · exact (hask hasked).elim

end Linked

/-- Every session is linked. -/
theorem Reached.linked (hs : s.Reached allowed) : s.Linked allowed := by
  induction hs with
  | begin g => exact .empty
  | act _ hd a ih =>
      cases a with
      | decode nbest state? => exact ih.decode hd nbest state?
      | merge other => exact ih.merge other
      | discard positions => exact ih.discard positions
      | clear => exact .empty

/-- The nodes of every session stand in the order of their numbers, which tell them apart. -/
theorem Reached.ascending (hs : s.Reached allowed) : s.lattice.Ascending := by
  induction hs with
  | begin g => exact .empty
  | @act s d _ _ a ih =>
      cases a with
      | decode nbest state? =>
          have hready : (d.ready s.lattice s.graph nbest state?).Ascending :=
            (ih.prepare _).settle _
          rw [Session.act]
          rcases Decoder.decode_cases d s.graph nbest state? s.lattice with
            ⟨-, e, heq⟩ | ⟨-, lat, hgrows, ⟨e, heq⟩ | ⟨ts, heq⟩⟩
          · rw [heq]
            exact ih
          · rw [heq]
            exact hgrows.ascending hready
          · rw [heq]
            exact ⟨(hgrows.ascending hready).pairwise, (hgrows.ascending hready).lt_counter⟩
      | merge other => exact ih.discard _
      | discard positions => exact ih.discard positions
      | clear => exact .empty

/-- **No link dangles**, in whatever order a lattice is used, and whatever fails.  Nodes
are told apart by their numbers, and none ends behind the text.  One that is not the start extends
a node that is still there, from the position where that one ends, along edges of the graph as it
is now.  A separator leaves the score and the state as they are; a word adds its cost, and a model
that was in use goes on by it.  So every sentence that can be read off is a way through the graph,
and its score is the sum of what its words cost, from left to right. -/
theorem linked_of_reached (hs : s.Reached allowed) :
    (s.lattice.log.toList.map Node.seq).Nodup ∧
    (∀ q, s.lattice.nodes q ≠ [] → q ≤ s.graph.size) ∧
    (∀ q prev arc score seq, .link prev arc score seq ∈ s.lattice.nodes q →
      prev ∈ s.lattice.nodes arc.start ∧ arc.Follows allowed s.graph prev score) ∧
    ∀ stop nbest, ∀ t ∈ s.lattice.transcriptions stop nbest,
      t.IsWayTo s.graph stop ∧
      (stop = s.graph.size → t.route ∈ s.graph.paths) ∧
      ((∀ x : R, x + 0 = x) → t.score = (t.arcs.map Arc.cost).foldl (· + ·) 0) := by
  have hl := hs.linked
  refine ⟨?_, fun q hq => ?_, fun q prev arc score seq hn => ?_, fun stop nbest t ht => ?_⟩
  · exact List.pairwise_map.2 (hs.ascending.pairwise.imp Nat.ne_of_lt)
  · obtain ⟨n, hn⟩ := List.exists_mem_of_ne_nil _ hq
    obtain ⟨hmem, rfl⟩ := Lattice.mem_nodes.1 hn
    exact hl.stop_le_size hmem
  · obtain ⟨hprev, hf⟩ := hl prev arc score seq (Lattice.mem_nodes.1 hn).1
    exact ⟨Lattice.mem_nodes.2 ⟨hprev, hf.start_eq.symm⟩, hf⟩
  · obtain ⟨n, hn, rfl⟩ := Lattice.exists_of_mem_transcriptions ht
    obtain ⟨hmem, rfl⟩ := Lattice.mem_nodes.1 hn
    have hway := hl.isWayTo hmem
    exact ⟨hway, hway.route_mem_paths, hway.score_eq_sum⟩

/-- After a decode that failed, a merge and a decode that returned. -/
theorem linked_of_reached_sample :
    let s := (begin (sampleGraph ⟨.n, .i⟩ ⟨.h, .ao⟩)).run failingDecoder
      [.decode 2 none, .merge (sampleGraph ⟨.n, .i⟩ ⟨.h, .uo⟩), .decode 2 none]
    (begin (sampleGraph ⟨.n, .i⟩ ⟨.h, .ao⟩)).FailsInside failingDecoder 2 none ∧
    s.Reached (· = failingDecoder) ∧ s.lattice.nodes 5 ≠ [] ∧ (∀ x : Rat, x + 0 = x) ∧
    (∃ prev arc score seq, .link prev arc score seq ∈ s.lattice.nodes 5 ∧
      prev ∈ s.lattice.nodes arc.start ∧ arc.Follows (· = failingDecoder) s.graph prev score) ∧
    ∃ t ∈ s.lattice.transcriptions 5 2, t.IsWayTo s.graph 5 ∧ t.route ∈ s.graph.paths ∧
      t.score = (t.arcs.map Arc.cost).foldl (· + ·) 0 := by
  intro s
  have hs : s.Reached (· = failingDecoder) := reached_run ..
  have hne : s.lattice.nodes 5 ≠ [] := by
    have hsome : (s.lattice.nodes 5).isEmpty = false := by
      simp only [s, begin, run, List.foldl, act, Decoder.decode, Decoder.sweep_eq_foldl,
        Lattice.hypotheses, Lattice.transcriptions, Node.mergeSort_rankLe]
      decide +kernel
    simpa using hsome
  obtain ⟨-, -, hlinks, hsentences⟩ := linked_of_reached hs
  refine ⟨failsInside_failingDecoder, hs, hne, Rat.add_zero, ?_, ?_⟩
  · obtain ⟨n, hn⟩ := List.exists_mem_of_ne_nil _ hne
    cases n with
    | start state => cases (Lattice.mem_nodes.1 hn).2
    | link prev arc score seq => exact ⟨prev, arc, score, seq, hn, hlinks 5 prev arc score seq hn⟩
  · obtain ⟨t, ht⟩ := List.exists_mem_of_length_pos (Lattice.length_transcriptions_pos hne 2)
    obtain ⟨hway, hpaths, hsum⟩ := hsentences 5 2 t ht
    exact ⟨t, ht, hway, hpaths rfl, hsum Rat.add_zero⟩

end Session

end Pinyin
