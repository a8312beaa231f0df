import Pinyin.Proofs.CutGraph.Crossing
import Pinyin.Proofs.Decoder.Outcome
import Pinyin.Proofs.Session.Basic

/-!
# Pinyin.Proofs.Session.Faithful

The invariant of sessions: what a lattice holds before its frontier is what a search over
the graph of the session finds there.

* `Session.Faithful` — the invariant;
* `Faithful.discard`, `Faithful.merge`, `Faithful.ready`, `Faithful.decode` — what keeps it;
* `Faithful.keeps_ready` — a decode finds the lattice as its search needs it.
-/

namespace Pinyin

variable {σ R : Type}

/-! ## Discarding -/

namespace Lattice

theorem frontier_discard_le (lat : Lattice σ R) (positions : List Nat) :
    (lat.discard positions).frontier ≤ lat.frontier ∧
      ∀ since ∈ positions.min?, (lat.discard positions).frontier ≤ since := by
  unfold discard
  cases hmin : positions.min? with
  | none => simp
  | some since =>
      refine ⟨Nat.min_le_left .., fun since' h => ?_⟩
      obtain rfl := Option.mem_some_iff.1 h
      exact Nat.min_le_right ..

@[simp] theorem purpose_discard (lat : Lattice σ R) (positions : List Nat) :
    (lat.discard positions).purpose = lat.purpose := by
  unfold discard
  split <;> rfl

@[simp] theorem singlePath_discard (lat : Lattice σ R) (positions : List Nat) :
    (lat.discard positions).singlePath = lat.singlePath := by
  unfold discard
  split <;> rfl

/-- Discarding keeps the nodes before the new frontier. -/
theorem nodes_discard_of_lt {lat : Lattice σ R} {positions : List Nat} {q : Nat}
    (h : q < (lat.discard positions).frontier) : (lat.discard positions).nodes q = lat.nodes q := by
  cases hmin : positions.min? with
  | none => rw [discard, hmin]
  | some since =>
      have hle := (lat.frontier_discard_le positions).2 since hmin
      rw [nodes_discard lat hmin, if_pos (by omega)]

/-- Discarding keeps all nodes of a position or none. -/
theorem nodes_discard_cases (lat : Lattice σ R) (positions : List Nat) (q : Nat) :
    (lat.discard positions).nodes q = lat.nodes q ∨ (lat.discard positions).nodes q = [] := by
  cases hmin : positions.min? with
  | none => rw [discard, hmin]; exact .inl rfl
  | some since =>
      rw [nodes_discard lat hmin]
      split
      · exact .inl rfl
      · exact .inr rfl

/-- A lattice that is made ready for a purpose serves it, and has a start. -/
theorem prepare_spec [DecidableEq σ] (lat : Lattice σ R) (purpose : Purpose σ) :
    (lat.prepare purpose).purpose = some purpose ∧ (lat.prepare purpose).nodes 0 ≠ [] := by
  unfold prepare
  split
  · next hc => exact ⟨hc.1, by simpa using hc.2⟩
  · exact ⟨rfl, by simp [nodes, Node.stop]⟩

@[simp] theorem purpose_settle (lat : Lattice σ R) (singlePath : Bool) :
    (lat.settle singlePath).purpose = lat.purpose := by
  unfold settle
  split
  · rfl
  · split <;> simp

@[simp] theorem singlePath_settle (lat : Lattice σ R) (singlePath : Bool) :
    (lat.settle singlePath).singlePath = some singlePath := by
  rfl

/-- Settling keeps the start. -/
theorem nodes_settle_zero (lat : Lattice σ R) (singlePath : Bool) :
    (lat.settle singlePath).nodes 0 = lat.nodes 0 := by
  have hdiscard : (lat.discard [1]).nodes 0 = lat.nodes 0 := by
    have hmin : [1].min? = some 1 := rfl
    rw [nodes_discard lat hmin, if_pos Nat.one_pos]
  unfold settle
  split
  · rfl
  · split
    · rfl
    · exact hdiscard

end Lattice

/-! ## The invariant -/

/-- The search for a purpose, where a graph counts as one of a single way or of several. -/
def Purpose.search [DecidableEq σ] [Cost R] (purpose : Purpose σ) (d : Decoder σ R)
    (g : CutGraph) (singlePath : Bool) : Search σ R :=
  ⟨d, g, singlePath, select purpose.nbest, purpose.state⟩

namespace Session

variable [DecidableEq σ] [Cost R]

/-- What a session holds before its frontier is what a search over its graph finds there. -/
structure Faithful (d : Decoder σ R) (s : Session σ R) : Prop where
  ascending : s.lattice.Ascending
  start : s.lattice.nodes 0 ≠ [] → ∃ purpose, s.lattice.purpose = some purpose ∧
    s.lattice.unnumberedNodes 0 = [.start purpose.state]
  layers : ∀ q, 0 < q → q < s.lattice.frontier → ∃ purpose singlePath,
    s.lattice.purpose = some purpose ∧ s.lattice.singlePath = some singlePath ∧
      s.lattice.unnumberedNodes q = (purpose.search d s.graph singlePath).layer q ∧
      (purpose.search d s.graph singlePath).Unfailing q
  crossed : s.graph.CrossedBefore s.lattice.frontier

omit [Cost R] in
/-- The lattice that a decode starts with serves its purpose, for a graph with as many ways,
and has a start. -/
theorem ready_spec (d : Decoder σ R) (s : Session σ R) (nbest : Int) (state? : Option σ) :
    (d.ready s.lattice s.graph nbest state?).purpose
        = some ⟨nbest.toNat, state?.getD d.model.start⟩ ∧
      (d.ready s.lattice s.graph nbest state?).singlePath = some (s.graph.pathCount == 1) ∧
      (d.ready s.lattice s.graph nbest state?).nodes 0 ≠ [] := by
  obtain ⟨hpurpose, hne⟩ := s.lattice.prepare_spec ⟨nbest.toNat, state?.getD d.model.start⟩
  refine ⟨(Lattice.purpose_settle ..).trans hpurpose, Lattice.singlePath_settle .., ?_⟩
  rwa [Decoder.ready, Lattice.nodes_settle_zero]

/-- What a merge keeps before the frontier lies before the divergence. -/
theorem le_divergence_of_lt_frontier {d : Decoder σ R} {s : Session σ R} {other : CutGraph}
    (h : s.graph.CrossedBefore s.lattice.frontier) {q : Nat}
    (hq : q < (s.act d (.merge other)).lattice.frontier) :
    q ≤ CutGraph.divergence s.graph other := by
  have hlt := s.lattice.frontier_discard_le
    (CutGraph.stalePositions (CutGraph.divergence s.graph other) s.graph.size)
  exact CutGraph.le_divergence h (Nat.lt_of_lt_of_le hq hlt.1) fun since hsince =>
    Nat.lt_of_lt_of_le hq (hlt.2 since hsince)

namespace Faithful

variable {d : Decoder σ R} {s : Session σ R}

theorem begin (d : Decoder σ R) (g : CutGraph) : (Session.begin g : Session σ R).Faithful d where
  ascending := .empty
  start := fun h => (h rfl).elim
  layers := nofun
  crossed := nofun

/-- A lattice for the same purpose is as faithful if it has the same nodes before its
frontier, and the same start or none. -/
theorem transfer {lat : Lattice σ R} (h : s.Faithful d) (hasc : lat.Ascending)
    (hpurpose : lat.purpose = s.lattice.purpose) (hsingle : lat.singlePath = s.lattice.singlePath)
    (hstart : lat.nodes 0 = s.lattice.nodes 0 ∨ lat.nodes 0 = [])
    (hfront : lat.frontier ≤ s.lattice.frontier)
    (hnodes : ∀ q < lat.frontier, lat.nodes q = s.lattice.nodes q) :
    ({ s with lattice := lat } : Session σ R).Faithful d where
  ascending := hasc
  start := by
    intro hne
    have heq := hstart.resolve_right hne
    rw [hpurpose, Lattice.unnumberedNodes, heq]
    exact h.start (heq ▸ hne)
  layers := by
    intro q hpos hq
    rw [hpurpose, hsingle, Lattice.unnumberedNodes, hnodes q hq]
    exact h.layers q hpos (Nat.lt_of_lt_of_le hq hfront)
  crossed := h.crossed.mono hfront

/-! ## Discards and merges -/

theorem discard (h : s.Faithful d) (positions : List Nat) :
    ({ s with lattice := s.lattice.discard positions } : Session σ R).Faithful d :=
  h.transfer (h.ascending.discard positions) (s.lattice.purpose_discard positions)
    (s.lattice.singlePath_discard positions) (s.lattice.nodes_discard_cases positions 0)
    (s.lattice.frontier_discard_le positions).1 fun _ hq => Lattice.nodes_discard_of_lt hq

/-- **A merge keeps a session faithful**: what is not discarded lies before the divergence. -/
theorem merge (hlocal : d.dictionary.IsLocal) (h : s.Faithful d) (other : CutGraph) :
    (s.act d (.merge other)).Faithful d := by
  have hdisc := h.discard (CutGraph.stalePositions (CutGraph.divergence s.graph other) s.graph.size)
  have hkept : ∀ q < (s.act d (.merge other)).lattice.frontier,
      q ≤ CutGraph.divergence s.graph other := fun q => le_divergence_of_lt_frontier h.crossed
  -- Before the divergence the graphs agree, and so do the layers.
  refine ⟨hdisc.ascending, hdisc.start, fun q hpos hq => ?_, hdisc.crossed.splice hkept⟩
  obtain ⟨purpose, singlePath, hpurpose, hsingle, hnodes, hok⟩ := hdisc.layers q hpos hq
  have hagree := (CutGraph.agreeBefore_splice s.graph other).mono (hkept q hq)
  have hcongr := Search.layer_congr (S := purpose.search d s.graph singlePath) hlocal hagree
  exact ⟨purpose, singlePath, hpurpose, hsingle, hnodes.trans hcongr.1, hcongr.2.1 hok⟩

/-! ## Decodes -/

theorem prepare (h : s.Faithful d) (purpose : Purpose σ) :
    ({ s with lattice := s.lattice.prepare purpose } : Session σ R).Faithful d := by
  have hasc := h.ascending.prepare purpose
  unfold Lattice.prepare at hasc ⊢
  split
  · exact h
  · next hc =>
    rw [if_neg hc] at hasc
    exact ⟨hasc, fun _ => ⟨purpose, rfl, rfl⟩, nofun, nofun⟩

/-- A lattice that is settled for graphs of a single way or of several stays faithful. -/
theorem settle (h : s.Faithful d) (singlePath : Bool) :
    ({ s with lattice := s.lattice.settle singlePath } : Session σ R).Faithful d := by
  have hsettled : ∀ lat : Lattice σ R, ({ s with lattice := lat } : Session σ R).Faithful d →
      lat.singlePath = some singlePath ∨ lat.frontier ≤ 1 →
      ({ s with lattice := { lat with singlePath := some singlePath } } : Session σ R).Faithful
        d := by
    intro lat hlat hcase
    refine ⟨⟨hlat.ascending.pairwise, hlat.ascending.lt_counter⟩, hlat.start,
      fun q hpos hq => ?_, hlat.crossed⟩
    have hsingle := hcase.resolve_right (Nat.not_le_of_lt (Nat.lt_of_le_of_lt hpos hq))
    rw [← hsingle]
    exact hlat.layers q hpos hq
  unfold Lattice.settle
  cases hs : s.lattice.singlePath with
  | none =>
      refine hsettled s.lattice h (.inr ?_)
      by_contra hfront
      obtain ⟨_, _, _, hsome, -⟩ := h.layers 1 Nat.one_pos (by omega)
      rw [hs] at hsome
      cases hsome
  | some before =>
      by_cases hb : before = singlePath
      · simp only [hb, if_true]
        exact hsettled s.lattice h (.inl (hb ▸ hs))
      · simp only [hb, if_false]
        exact hsettled _ (h.discard [1]) (.inr ((s.lattice.frontier_discard_le [1]).2 1 rfl))

theorem ready (h : s.Faithful d) (nbest : Int) (state? : Option σ) :
    ({ s with lattice := d.ready s.lattice s.graph nbest state? } : Session σ R).Faithful d :=
  (h.prepare ⟨nbest.toNat, state?.getD d.model.start⟩).settle (s.graph.pathCount == 1)

/-- **A decode finds a faithful lattice as its search needs it.** -/
theorem keeps_ready (h : s.Faithful d) (nbest : Int) (state? : Option σ) :
    (d.search s.graph nbest state?).Keeps (d.ready s.lattice s.graph nbest state?) := by
  have hready := h.ready nbest state?
  obtain ⟨hpurpose, hsingle, hne⟩ := ready_spec d s nbest state?
  refine ⟨hready.ascending, ?_, fun q hpos hq => ?_⟩
  · obtain ⟨purpose, heq, hnodes⟩ := hready.start hne
    obtain rfl := Option.some.inj (hpurpose.symm.trans heq)
    rw [hnodes, Search.layer_zero]
    rfl
  · obtain ⟨purpose, singlePath, heq, hsome, hnodes, hok⟩ := hready.layers q hpos hq
    obtain rfl := Option.some.inj (hpurpose.symm.trans heq)
    obtain rfl := Option.some.inj (hsingle.symm.trans hsome)
    exact ⟨hnodes, hok⟩

/-- Nodes added at the frontier or beyond it keep a session faithful. -/
theorem grows {lat : Lattice σ R} (h : s.Faithful d)
    (hgrows : s.lattice.Grows (max 1 s.lattice.frontier) lat) :
    ({ s with lattice := lat } : Session σ R).Faithful d :=
  h.transfer (hgrows.ascending h.ascending) hgrows.purpose_eq hgrows.singlePath_eq
    (.inl (hgrows.nodes_eq (by omega))) (Nat.le_of_eq hgrows.frontier_eq) fun q hq =>
      hgrows.nodes_eq (by rw [hgrows.frontier_eq] at hq; omega)

/-- A decode keeps a session faithful where it leaves what its search finds, or fails. -/
theorem decode (h : s.Faithful d) (nbest : Int) (state? : Option σ)
    (hholds : ∀ lat ts, d.decode s.lattice s.graph nbest state? = (lat, .ok ts) →
      (d.search s.graph nbest state?).Holds lat) :
    (s.act d (.decode nbest state?)).Faithful d := by
  have hready := h.ready nbest state?
  obtain ⟨hpurpose, hsingle, -⟩ := ready_spec d s nbest state?
  have hact : s.act d (.decode nbest state?)
      = { s with lattice := (d.decode s.lattice s.graph nbest state?).1 } := rfl
  rw [hact]
  rcases Decoder.decode_cases d s.graph nbest state? s.lattice with
    ⟨-, e, heq⟩ | ⟨hask, lat, hgrows, ⟨e, heq⟩ | ⟨ts, heq⟩⟩
  · rw [heq]
    exact h
  · rw [heq]
    exact hready.grows hgrows
  · have hlat := hholds _ ts heq
    rw [heq]
    refine ⟨hlat.ascending, fun _ => ?_, fun q hpos hq => ?_,
      CutGraph.crossedBefore_of_isConnected hask.2⟩
    · exact ⟨_, hgrows.purpose_eq.trans hpurpose, (hlat.nodes_eq 0).trans (Search.layer_zero _)⟩
    · exact ⟨_, _, hgrows.purpose_eq.trans hpurpose, hgrows.singlePath_eq.trans hsingle,
        hlat.nodes_eq q, hlat.unfailing q⟩

end Faithful

end Session

end Pinyin
