import Pinyin.Proofs.Decoder.Layer

/-!
# Pinyin.Proofs.Decoder.Sweep

A search builds the layers of its graph.

* `Search.Swept` — what a lattice holds when the search has come to a position;
* `Search.Keeps` — a lattice that a search may start from;
* `sweep_spec` — a sweep over the positions keeps to the layers, until a move fails;
* `sweep_eq_foldl` — a sweep as a fold.
-/

namespace Pinyin

variable {σ R : Type}

/-! ## Starting points -/

namespace Lattice

/-- No nodes end in the part that is still to be built, up to a position. -/
def ClearBefore (lat : Lattice σ R) (limit : Nat) : Prop :=
  ∀ q, 0 < q → lat.frontier ≤ q → q < limit → lat.nodes q = []

/-- No nodes end in the part that is still to be built. -/
def IsTrim (lat : Lattice σ R) : Prop := ∀ q, 0 < q → lat.frontier ≤ q → lat.nodes q = []

theorem IsTrim.clearBefore {lat : Lattice σ R} (h : lat.IsTrim) (limit : Nat) :
    lat.ClearBefore limit :=
  fun q hq hfront _ => h q hq hfront

end Lattice

namespace Search

variable [Cost R]

/-- The part of a lattice before its frontier is what the search would find there. -/
structure Keeps (S : Search σ R) (lat : Lattice σ R) : Prop where
  ascending : lat.Ascending
  start : lat.unnumberedNodes 0 = S.layer 0
  layers : ∀ q, 0 < q → q < lat.frontier → lat.unnumberedNodes q = S.layer q ∧ S.Unfailing q

/-- A move from a position to the frontier or beyond it fails. -/
def FailsFrom (S : Search σ R) (frontier p : Nat) : Prop :=
  ∃ mv ∈ S.decoder.movesFrom S.graph S.singlePath p, frontier ≤ mv.stop ∧
    ∃ n ∈ S.pick (S.layer p), mv.FailsIn S.decoder n.state

/-- What a lattice holds when a search that started with `base` has come to position `p`:
the layers as far as they were kept, and above the frontier what was there before, with
what the positions before `p` add.  Up to `limit` the search has met nothing else. -/
structure Swept (S : Search σ R) (base : Lattice σ R) (limit p : Nat) (lat : Lattice σ R) :
    Prop where
  ascending : lat.Ascending
  kept : ∀ q, q = 0 ∨ q < base.frontier → lat.unnumberedNodes q = S.layer q
  built : ∀ q ≤ limit, 0 < q → base.frontier ≤ q →
    lat.unnumberedNodes q = base.unnumberedNodes q ++ S.layerUpTo p q

variable {S : Search σ R} {base lat : Lattice σ R} {limit p : Nat}

theorem Keeps.swept (h : S.Keeps base) (limit : Nat) : S.Swept base limit 0 base where
  ascending := h.ascending
  kept := by
    intro q hq
    by_cases h0 : q = 0
    · rw [h0, h.start]
    · exact (h.layers q (by omega) (hq.resolve_left h0)).1
  built := by
    intro q _ _ _
    simp [layerUpTo]

/-- Where a search has come to, the nodes are the layer. -/
theorem Swept.nodes_eq (h : S.Swept base limit p lat) (hclear : base.ClearBefore limit)
    (hp : p < limit) : lat.unnumberedNodes p = S.layer p := by
  by_cases hkept : p = 0 ∨ p < base.frontier
  · exact h.kept p hkept
  · have hpos : 0 < p := by omega
    rw [h.built p (by omega) hpos (by omega),
      Lattice.unnumberedNodes_eq_nil.2 (hclear p hpos (by omega) hp), List.nil_append,
      layerUpTo_eq_layer hpos (Nat.le_refl p)]

/-- What a step of the search tries: the moves to the frontier and beyond it. -/
def step (S : Search σ R) (frontier p : Nat) (hyps : List (Node σ R)) :
    List (Decoder.Attempt σ R) :=
  S.decoder.tryAll
    ((S.decoder.movesFrom S.graph S.singlePath p).filter fun mv => frontier ≤ mv.stop) hyps

omit [Cost R] in
/-- The moves of a step that lead to a position. -/
theorem filter_step_moves (S : Search σ R) (frontier p q : Nat) :
    ((S.decoder.movesFrom S.graph S.singlePath p).filter fun mv => frontier ≤ mv.stop).filter
        (fun mv => mv.stop = q)
      = if frontier ≤ q then S.movesTo p q else [] := by
  rw [List.filter_filter]
  split
  · next hq =>
    refine List.filter_congr fun mv _ => ?_
    by_cases hmv : mv.stop = q <;> simp [hmv, hq]
  · next hq =>
    rw [List.filter_eq_nil_iff]
    intro mv _
    by_cases hmv : mv.stop = q <;> simp [hmv, hq]

/-- A lattice that has got what the moves of a step make holds what it should after it. -/
theorem Swept.succ (h : S.Swept base limit p lat) {hyps : List (Node σ R)}
    (hyps_eq : p < limit → hyps.map Node.unnumbered = S.pick (S.layer p)) {lat' : Lattice σ R}
    (hasc : lat'.Ascending)
    (hnodes : ∀ q, lat'.unnumberedNodes q = lat.unnumberedNodes q ++
      S.decoder.grow (if base.frontier ≤ q then S.movesTo p q else [])
        (hyps.map Node.unnumbered)) :
    S.Swept base limit (p + 1) lat' where
  ascending := hasc
  kept := by
    intro q hq
    -- No move of the step leads there.
    have hnil : (if base.frontier ≤ q then S.movesTo p q else []) = [] := by
      by_cases h0 : q = 0
      · rw [h0, movesTo, Decoder.movesTo_eq_nil (.inl (Nat.zero_le p)), ite_self]
      · rw [if_neg (by omega)]
    rw [hnodes, hnil, h.kept q hq]
    simp [Decoder.grow]
  built := by
    intro q hq hpos hfront
    rw [hnodes, if_pos hfront, h.built q hq hpos hfront, layerUpTo_succ, List.append_assoc]
    by_cases hp : p < limit
    · rw [hyps_eq hp]
    · have hnil : S.movesTo p q = [] := Decoder.movesTo_eq_nil (.inl (by omega))
      rw [hnil]
      rfl

/-- A step has an error to report exactly if a move to the frontier or beyond it fails. -/
theorem error_mem_step_iff {frontier : Nat} {hyps : List (Node σ R)}
    (hyps_eq : hyps.map Node.unnumbered = S.pick (S.layer p)) :
    (∃ e, .error e ∈ S.step frontier p hyps) ↔ S.FailsFrom frontier p := by
  have hstates : ∀ mv : Move, (∃ n ∈ hyps, mv.FailsIn S.decoder n.state) ↔
      ∃ n ∈ S.pick (S.layer p), mv.FailsIn S.decoder n.state := by
    intro mv
    rw [← hyps_eq]
    simp
  rw [step, Decoder.error_mem_tryAll_iff]
  simp only [hstates, FailsFrom, List.mem_filter, decide_eq_true_eq, and_assoc]

/-- **One step of a search**: it adds what its position has to add, or a move fails. -/
theorem Swept.absorb_step {hyps : List (Node σ R)} (h : S.Swept base limit p lat)
    (hyps_eq : p < limit → hyps.map Node.unnumbered = S.pick (S.layer p)) :
    (∃ lat', Decoder.absorb lat (S.step base.frontier p hyps) = (lat', .ok ()) ∧
      S.Swept base limit (p + 1) lat' ∧ (p < limit → ¬ S.FailsFrom base.frontier p)) ∨
    (∃ lat' e, Decoder.absorb lat (S.step base.frontier p hyps) = (lat', .error e) ∧
      (p < limit → S.FailsFrom base.frontier p)) := by
  by_cases hfail : ∃ e, .error e ∈ S.step base.frontier p hyps
  · right
    obtain ⟨e, he⟩ := hfail
    obtain ⟨lat', e', heq⟩ := Decoder.absorb_of_error he lat
    exact ⟨lat', e', heq, fun hp => (error_mem_step_iff (hyps_eq hp)).1 ⟨e, he⟩⟩
  · left
    have hok : ∀ mv ∈ (S.decoder.movesFrom S.graph S.singlePath p).filter
        (fun mv => base.frontier ≤ mv.stop), ∀ n ∈ hyps, ¬ mv.FailsIn S.decoder n.state :=
      fun mv hmv n hn hf => hfail (Decoder.error_mem_tryAll_iff.2 ⟨mv, hmv, n, hn, hf⟩)
    obtain ⟨lat', heq, hnodes⟩ := Decoder.unnumberedNodes_absorb_tryAll hok lat
    have hgrows := Decoder.grows_of_absorb heq
    simp only [filter_step_moves] at hnodes
    exact ⟨lat', heq, h.succ hyps_eq (hgrows.ascending h.ascending) hnodes,
      fun hp => mt (error_mem_step_iff (hyps_eq hp)).2 hfail⟩

end Search

/-! ## Sweeps -/

namespace Decoder

variable [DecidableEq σ] [Cost R]

/-- The search of a decode. -/
def search (d : Decoder σ R) (g : CutGraph) (nbest : Int) (state? : Option σ) : Search σ R where
  decoder := d
  graph := g
  singlePath := g.pathCount == 1
  pick := select nbest.toNat
  state := state?.getD d.model.start

/-- The lattice that the search of a decode starts with. -/
def ready (d : Decoder σ R) (lat : Lattice σ R) (g : CutGraph) (nbest : Int)
    (state? : Option σ) : Lattice σ R :=
  (lat.prepare ⟨nbest.toNat, state?.getD d.model.start⟩).settle (g.pathCount == 1)

/-- What a sweep tries at a position is a step of the search. -/
theorem absorb_hypotheses (d : Decoder σ R) (g : CutGraph) (nbest : Int) (state? : Option σ)
    (frontier p : Nat) (lat : Lattice σ R) :
    absorb lat (if (lat.hypotheses p nbest.toNat).isEmpty then []
        else d.attemptsAt g (g.pathCount == 1) frontier (lat.hypotheses p nbest.toNat) p)
      = absorb lat ((d.search g nbest state?).step frontier p (lat.hypotheses p nbest.toNat)) := by
  by_cases hnil : lat.hypotheses p nbest.toNat = []
  · have hstep : (d.search g nbest state?).step frontier p [] = [] :=
      List.flatMap_eq_nil_iff.2 fun _ _ => rfl
    rw [hnil, hstep]
    rfl
  · rw [if_neg (by simpa using hnil)]
    exact absorb_attemptsAt hnil frontier p lat

/-- **A sweep builds the layers** of the positions it goes over, until a move fails. -/
theorem sweep_spec {d : Decoder σ R} {g : CutGraph} {nbest : Int} {state? : Option σ}
    {base lat : Lattice σ R} {limit p : Nat} (hclear : base.ClearBefore limit)
    (h : (d.search g nbest state?).Swept base limit p lat) (count : Nat) :
    (∃ lat', d.sweep g (g.pathCount == 1) nbest.toNat base.frontier lat (List.range' p count)
        = (lat', .ok ()) ∧
      (d.search g nbest state?).Swept base limit (p + count) lat' ∧
      ∀ r, p ≤ r → r < p + count → r < limit →
        ¬ (d.search g nbest state?).FailsFrom base.frontier r) ∨
    (∃ lat' e, d.sweep g (g.pathCount == 1) nbest.toNat base.frontier lat (List.range' p count)
        = (lat', .error e) ∧
      ∃ r, p ≤ r ∧ r < p + count ∧
        (r < limit → (d.search g nbest state?).FailsFrom base.frontier r)) := by
  induction count generalizing p lat with
  | zero => exact .inl ⟨lat, rfl, h, fun r hle hlt => by omega⟩
  | succ count ih =>
      have hyps_eq : p < limit → (lat.hypotheses p nbest.toNat).map Node.unnumbered
          = (d.search g nbest state?).pick ((d.search g nbest state?).layer p) := by
        intro hp
        rw [Lattice.unnumbered_hypotheses h.ascending, h.nodes_eq hclear hp]
        rfl
      rw [List.range'_succ, sweep]
      simp only [absorb_hypotheses d g nbest state?]
      rcases h.absorb_step hyps_eq with ⟨lat', heq, hswept, hok⟩ | ⟨lat', e, heq, hfail⟩
      · rw [heq]
        rcases ih hswept with ⟨lat'', heq', hswept', hok'⟩ | ⟨lat'', e, heq', r, hle, hlt, hfail⟩
        · refine .inl ⟨lat'', heq', by rwa [Nat.add_right_comm] at hswept', fun r hle hlt hr => ?_⟩
          by_cases hrp : r = p
          · subst hrp
            exact hok hr
          · exact hok' r (by omega) (by omega) hr
        · exact .inr ⟨lat'', e, heq', r, by omega, by omega, hfail⟩
      · rw [heq]
        exact .inr ⟨lat', e, rfl, p, Nat.le_refl p, by omega, hfail⟩

/-- A sweep adds nodes that end at the frontier or beyond it, and none that end at the
start. -/
theorem grows_sweep (d : Decoder σ R) (g : CutGraph) (nbest : Int) (state? : Option σ)
    (frontier : Nat) (lat : Lattice σ R) (positions : List Nat) :
    lat.Grows (max 1 frontier)
      (d.sweep g (g.pathCount == 1) nbest.toNat frontier lat positions).1 := by
  induction positions generalizing lat with
  | nil => exact .refl _ lat
  | cons p positions ih =>
      have hstep : ∀ hyps, lat.Grows (max 1 frontier)
          (absorb lat ((d.search g nbest state?).step frontier p hyps)).1 := by
        intro hyps
        refine grows_absorb (fun draft hd => ?_) lat
        obtain ⟨mv, hmv, hstop⟩ := exists_move_of_mem_tryAll hd
        obtain ⟨hmem, hle⟩ := List.mem_filter.1 hmv
        have hlt := (lt_stop_of_mem_movesFrom hmem).1
        have hle : frontier ≤ mv.stop := by simpa using hle
        omega
      rw [sweep]
      simp only [absorb_hypotheses d g nbest state?]
      have hgrows := hstep (lat.hypotheses p nbest.toNat)
      split
      · next heq =>
        rw [heq] at hgrows
        exact hgrows.trans (ih _)
      · next heq =>
        rw [heq] at hgrows
        exact hgrows

/-- A sweep is a fold over the positions that hands on the first error. -/
theorem sweep_eq_foldl (d : Decoder σ R) (g : CutGraph) (singlePath : Bool) (k frontier : Nat)
    (lat : Lattice σ R) (positions : List Nat) :
    d.sweep g singlePath k frontier lat positions
      = positions.foldl (fun (made : Lattice σ R × Except Error Unit) p =>
          match made with
          | (lat, .error e) => (lat, .error e)
          | (lat, .ok ()) => absorb lat (if (lat.hypotheses p k).isEmpty then []
              else d.attemptsAt g singlePath frontier (lat.hypotheses p k) p)) (lat, .ok ()) := by
  induction positions generalizing lat with
  | nil => rfl
  | cons p positions ih =>
      rw [sweep, List.foldl_cons]
      dsimp only
      generalize absorb lat _ = made
      obtain ⟨lat', e | ⟨⟩⟩ := made
      · clear ih
        induction positions with
        | nil => rfl
        | cons q positions ih => exact ih
      · exact ih lat'

end Decoder

end Pinyin
