import Pinyin.Proofs.Decoder.Passable
import Pinyin.Proofs.Lattice.NBest
import Pinyin.Proofs.Session.Incremental

/-!
# Pinyin.Proofs.Session.Passable

No decode of a connected graph ends without a sentence, whatever was done before.

* `Session.Passable` — what can be reached before the frontier has nodes;
* `Passable.discard`, `Passable.merge`, `Passable.decode` — the actions keep this up;
* `exists_sentence_of_decode` — a decode that returns leaves nodes wherever its graph leads, and
  has at least one sentence.
-/

namespace Pinyin

variable {σ R : Type}

/-! ## Reaching -/

/-- What can be reached in a graph up to a position can be reached in those that agree before it. -/
theorem CutGraph.AgreeBefore.reaches {g h : CutGraph} {q : Nat} (hagree : AgreeBefore g h q)
    (hq : h.Reaches 0 q) : g.Reaches 0 q := by
  induction hq with
  | refl => exact .refl
  | @tail r q _ hstep ih =>
      have hlt := (lt_of_mem_successors hstep).1
      have hr := ih (hagree.mono (Nat.le_of_lt hlt))
      exact hr.tail (hagree.successors_eq hlt ▸ hstep)

/-! ## The invariant -/

namespace Session

/-- A session has nodes at all positions before its frontier that can be reached. -/
structure Passable (s : Session σ R) : Prop where
  crossed : s.graph.CrossedBefore s.lattice.frontier
  nodes_ne_nil : ∀ q < s.lattice.frontier, s.graph.Reaches 0 q → s.lattice.nodes q ≠ []

namespace Passable

variable {s : Session σ R}

theorem begin (g : CutGraph) : (Session.begin g : Session σ R).Passable where
  crossed := nofun
  nodes_ne_nil := nofun

/-- A lattice is as passable if it has nodes wherever the other one has, before its frontier. -/
theorem transfer {lat : Lattice σ R} (h : s.Passable) (hle : lat.frontier ≤ s.lattice.frontier)
    (hnodes : ∀ q < lat.frontier, s.lattice.nodes q ≠ [] → lat.nodes q ≠ []) :
    ({ s with lattice := lat } : Session σ R).Passable where
  crossed := h.crossed.mono hle
  nodes_ne_nil := fun q hq hreach =>
    hnodes q hq (h.nodes_ne_nil q (Nat.lt_of_lt_of_le hq hle) hreach)

theorem discard (h : s.Passable) (positions : List Nat) :
    ({ s with lattice := s.lattice.discard positions } : Session σ R).Passable :=
  h.transfer (s.lattice.frontier_discard_le positions).1 fun _ hq hne =>
    Lattice.nodes_discard_of_lt hq ▸ hne

variable [DecidableEq σ]

theorem prepare (h : s.Passable) (purpose : Purpose σ) :
    ({ s with lattice := s.lattice.prepare purpose } : Session σ R).Passable := by
  unfold Lattice.prepare
  split
  · exact h
  · exact ⟨nofun, nofun⟩

omit [DecidableEq σ] in
theorem settle (h : s.Passable) (singlePath : Bool) :
    ({ s with lattice := s.lattice.settle singlePath } : Session σ R).Passable := by
  have hmarked : ∀ lat : Lattice σ R, ({ s with lattice := lat } : Session σ R).Passable →
      ({ s with lattice := { lat with singlePath := some singlePath } } : Session σ R).Passable :=
    fun _ hlat => ⟨hlat.crossed, hlat.nodes_ne_nil⟩
  unfold Lattice.settle
  split
  · exact hmarked _ h
  · split
    · exact hmarked _ h
    · exact hmarked _ (h.discard [1])

theorem ready (h : s.Passable) (d : Decoder σ R) (nbest : Int) (state? : Option σ) :
    ({ s with lattice := d.ready s.lattice s.graph nbest state? } : Session σ R).Passable :=
  (h.prepare ⟨nbest.toNat, state?.getD d.model.start⟩).settle (s.graph.pathCount == 1)

variable [Cost R] {d : Decoder σ R}

/-- **A merge keeps a session passable**: what is not discarded can be reached as it was before. -/
theorem merge (h : s.Passable) (other : CutGraph) : (s.act d (.merge other)).Passable := by
  have hdisc := h.discard (CutGraph.stalePositions (CutGraph.divergence s.graph other) s.graph.size)
  have hkept : ∀ q < (s.act d (.merge other)).lattice.frontier,
      q ≤ CutGraph.divergence s.graph other := fun q => le_divergence_of_lt_frontier h.crossed
  refine ⟨hdisc.crossed.splice hkept, fun q hq hreach => hdisc.nodes_ne_nil q hq ?_⟩
  exact ((CutGraph.agreeBefore_splice s.graph other).mono (hkept q hq)).reaches hreach

/-- **A decode that returns** leaves nodes at every position that can be reached. -/
theorem nodes_decode (h : s.Passable) {nbest : Int} {state? : Option σ} {lat : Lattice σ R}
    {ts : List (Transcription σ R)}
    (hdecode : d.decode s.lattice s.graph nbest state? = (lat, .ok ts)) {q : Nat}
    (hq : s.graph.Reaches 0 q) : lat.nodes q ≠ [] := by
  obtain ⟨hn, hg⟩ := Decoder.asked_of_decode hdecode
  rw [Decoder.decode_eq hn hg] at hdecode
  split at hdecode
  · cases hdecode
  · next lat' hsweep =>
    cases hdecode
    have hstart : (d.ready s.lattice s.graph nbest state?).PassableUpTo s.graph
        (d.ready s.lattice s.graph nbest state?).frontier 0 := by
      intro r hr hcase
      rcases hcase with rfl | hlt | ⟨_, hlt, -⟩
      · exact (ready_spec d s nbest state?).2.2
      · exact (h.ready d nbest state?).nodes_ne_nil r hlt hr
      · exact (Nat.not_lt_zero _ hlt).elim
    have hend := hstart.sweep (by omega) s.graph.size hsweep
    rw [Nat.zero_add] at hend
    exact hend.nodes_ne_nil (CutGraph.le_size_of_reaches hq) hq

theorem decode (h : s.Passable) (nbest : Int) (state? : Option σ) :
    (s.act d (.decode nbest state?)).Passable := by
  have hact : s.act d (.decode nbest state?)
      = { s with lattice := (d.decode s.lattice s.graph nbest state?).1 } := rfl
  rw [hact]
  rcases Decoder.decode_cases d s.graph nbest state? s.lattice with
    ⟨-, e, heq⟩ | ⟨hask, lat, hgrows, ⟨e, heq⟩ | ⟨ts, heq⟩⟩
  · rw [heq]
    exact h
  · rw [heq]
    exact (h.ready d nbest state?).transfer (Nat.le_of_eq hgrows.frontier_eq)
      fun q _ hne => hgrows.nodes_ne_nil hne
  · have hnodes : ∀ q, s.graph.Reaches 0 q → lat.nodes q ≠ [] := fun q => h.nodes_decode heq
    rw [heq]
    exact ⟨CutGraph.crossedBefore_of_isConnected hask.2, fun q _ => hnodes q⟩

end Passable

variable [DecidableEq σ] [Cost R] {s : Session σ R} {allowed : Decoder σ R → Prop}

/-- Every session is passable. -/
theorem Reached.passable (hs : s.Reached allowed) : s.Passable := by
  induction hs with
  | begin g => exact .begin g
  | act _ _ a ih =>
      cases a with
      | decode nbest state? => exact ih.decode nbest state?
      | merge other => exact ih.merge other
      | discard positions => exact ih.discard positions
      | clear => exact .begin _

/-! ## Sentences -/

/-- **Every connected graph can be decoded**, whatever was done before and however many words are
dropped.  A decode returns where the dictionary and the model answer.  One that returns leaves
nodes at every position that can be reached, and has at least one sentence and at most as many as
were asked for.  No two have the same words, and they are in the order of their scores if the
scores can be compared at all. -/
theorem exists_sentence_of_decode (hs : s.Reached allowed) (d : Decoder σ R) (nbest : Int)
    (state? : Option σ) :
    (1 ≤ nbest → s.graph.IsConnected → d.Answers s.graph →
      ∃ lat ts, d.decode s.lattice s.graph nbest state? = (lat, .ok ts)) ∧
    ∀ lat ts, d.decode s.lattice s.graph nbest state? = (lat, .ok ts) →
      (∀ q, s.graph.Reaches 0 q → lat.nodes q ≠ []) ∧
      (1 ≤ ts.length ∧ (ts.length : Int) ≤ nbest) ∧
      (ts.map Transcription.words).Nodup ∧
      (LinearOn (fun score => ∃ n ∈ lat.nodes s.graph.size, n.score = score) →
        ts.Pairwise fun t u => ¬ u.score < t.score) := by
  constructor
  · intro hn hg hanswers
    exact hanswers.exists_decode hn hg s.lattice state?
  · intro lat ts h
    obtain ⟨hn, hg⟩ := Decoder.asked_of_decode h
    have hnodes : ∀ q, s.graph.Reaches 0 q → lat.nodes q ≠ [] := fun q => hs.passable.nodes_decode h
    obtain rfl := Decoder.transcriptions_of_decode h
    refine ⟨hnodes, ⟨?_, ?_⟩, ?_, fun hlinear => ?_⟩
    · exact Lattice.length_transcriptions_pos (hnodes _ (CutGraph.isConnected_iff.1 hg)) nbest
    · have hle := lat.length_transcriptions_le s.graph.size nbest
      omega
    · exact lat.nodup_words_transcriptions s.graph.size nbest
    · exact lat.pairwise_score_transcriptions hlinear nbest

/-- A decoder that drops the word for "an" behind other syllables, since its model does not know
it. -/
def droppingDecoder : Decoder Unit Rat where
  dictionary _ path := .ok (
    if path = [0, 3] then [⟨"万", 0, [23, 9], 0⟩]
    else if path = [3, 5] then [⟨"暗", -1, [1, 9], 0⟩]
    else [])
  model := ⟨(), fun _ _ _ => .ok 1, fun index _ => index < 0, fun _ _ _ => ()⟩
  maxSyllables := Decoder.sampleDecoder.maxSyllables
  maxSyllables_pos := Decoder.sampleDecoder.maxSyllables_pos

/-- The graph of "wanan", which is "wan" and "an", or "wa" and "nan". -/
def forkedGraph : CutGraph :=
  ((((CutGraph.ofText "wanan".toList).insert 0 ⟨3, [⟨⟨.w, .an⟩, false⟩]⟩).insert 0
    ⟨2, [⟨⟨.w, .a⟩, false⟩]⟩).insert 2 ⟨5, [⟨⟨.n, .an⟩, false⟩]⟩).insert 3
      ⟨5, [⟨⟨.zero, .an⟩, false⟩]⟩

/-- After a decode and a merge, a text is decoded whose last word is dropped. -/
theorem exists_sentence_of_decode_sample :
    let s := (begin (sampleGraph ⟨.n, .i⟩ ⟨.h, .ao⟩) : Session Unit Rat).run droppingDecoder
      [.decode 1 none, .merge forkedGraph, .discard [4]]
    s.Reached (· = droppingDecoder) ∧ 1 ≤ (2 : Int) ∧ s.graph.IsConnected ∧
    droppingDecoder.Answers s.graph ∧
    ∃ lat ts, droppingDecoder.decode s.lattice s.graph 2 none = (lat, .ok ts) ∧
      lat.nodes 3 ≠ [] ∧ (1 ≤ ts.length ∧ (ts.length : Int) ≤ 2) ∧
      ts.Pairwise fun t u => ¬ u.score < t.score := by
  intro s
  have hs : s.Reached (· = droppingDecoder) := reached_run ..
  have hg : s.graph.IsConnected := by decide +kernel
  have hreach : s.graph.Reaches 0 3 := CutGraph.mem_reached_iff.1 (by decide +kernel)
  have hanswers : droppingDecoder.Answers s.graph :=
    fun _ path _ => ⟨_, rfl, fun m _ prev => ⟨_, rfl⟩⟩
  obtain ⟨hreturns, hresult⟩ := exists_sentence_of_decode hs droppingDecoder 2 none
  obtain ⟨lat, ts, h⟩ := hreturns (by decide) hg hanswers
  obtain ⟨hnodes, hlength, -, hscores⟩ := hresult lat ts h
  exact ⟨hs, by decide, hg, hanswers, lat, ts, h, hnodes 3 hreach, hlength,
    hscores (OrderedCost.linearOn _)⟩

end Session

end Pinyin
