import Pinyin.Proofs.Decoder.Locality

/-!
# Pinyin.Proofs.Decoder.Layer

What a search finds at each position, as a recursion on positions.  The layer of a
position is what the moves make of the partial sentences picked from the layers before
it.  No lattice and no order of events occur in it:

* `unnumberedNodes_absorb_tryAll` — what moves that do not fail add to a position;
* `Search` — what the layers depend on, `Search.layer` — the layer of a position;
* `Search.Unfailing` — no move to a position fails;
* `Search.layer_of_pos` — a layer by the layers before it, `Search.layerUpTo` — the part of it
  that some of these make;
* `Search.layer_congr` — layers are local.
-/

namespace Pinyin

variable {σ R : Type}

/-! ## What moves make -/

namespace Decoder

variable [Cost R] {d : Decoder σ R} {moves : List Move} {hyps : List (Node σ R)}

/-- The nodes, without numbers, that some moves make of some partial sentences. -/
def grow (d : Decoder σ R) (moves : List Move) (hyps : List (Node σ R)) : List (Node σ R) :=
  moves.flatMap fun mv => hyps.filterMap (mv.node d)

theorem mem_grow {n : Node σ R} :
    n ∈ d.grow moves hyps ↔ ∃ mv ∈ moves, ∃ prev ∈ hyps, mv.node d prev = some n := by
  simp [grow]

theorem grow_unnumbered (d : Decoder σ R) (moves : List Move) (hyps : List (Node σ R)) :
    d.grow moves (hyps.map Node.unnumbered) = d.grow moves hyps := by
  simp only [grow, Move.filterMap_node_unnumbered]

theorem error_mem_tryAll_iff :
    (∃ e, .error e ∈ d.tryAll moves hyps) ↔ ∃ mv ∈ moves, ∃ n ∈ hyps, mv.FailsIn d n.state := by
  have hattempt : ∀ (mv : Move) (n : Node σ R) (e : Error),
      mv.attempt d n = .error e ↔ mv.outcome d n.state = .error e := by
    intro mv n e
    unfold Move.attempt
    split <;> simp_all
  simp only [tryAll, List.mem_flatMap, List.mem_map, hattempt, Move.FailsIn]
  constructor
  · rintro ⟨e, mv, hmv, n, hn, h⟩
    exact ⟨mv, hmv, n, hn, e, h⟩
  · rintro ⟨mv, hmv, n, hn, e, h⟩
    exact ⟨e, mv, hmv, n, hn, h⟩

/-- Every draft is what a move makes of a partial sentence. -/
theorem exists_outcome_of_mem_tryAll {draft : Draft σ R}
    (h : .ok (some draft) ∈ d.tryAll moves hyps) :
    ∃ mv ∈ moves, ∃ prev ∈ hyps, ∃ cost?,
      mv.outcome d prev.state = .ok (some (draft.arc, cost?)) ∧
        draft = ⟨prev, draft.arc, raise prev.score cost?⟩ := by
  obtain ⟨mv, hmv, h⟩ := List.mem_flatMap.1 h
  obtain ⟨prev, hprev, h⟩ := List.mem_map.1 h
  unfold Move.attempt at h
  split at h
  · cases h
  · cases h
  · next arc cost? hout =>
    simp only [Except.ok.injEq, Option.some.injEq] at h
    subst h
    exact ⟨mv, hmv, prev, hprev, cost?, hout, rfl⟩

/-- Every draft comes from a move, and ends where the move leads. -/
theorem exists_move_of_mem_tryAll {draft : Draft σ R}
    (h : .ok (some draft) ∈ d.tryAll moves hyps) : ∃ mv ∈ moves, mv.stop = draft.arc.stop := by
  obtain ⟨mv, hmv, prev, -, cost?, hout, -⟩ := exists_outcome_of_mem_tryAll h
  exact ⟨mv, hmv, (Move.stop_of_outcome hout).symm⟩

omit [Cost R] in
/-- What pushing the drafts of some attempts keeps is kept up to the first error. -/
theorem absorb_induct {P : Lattice σ R → Prop} {xs : List (Attempt σ R)}
    (hpush : ∀ draft, .ok (some draft) ∈ xs → ∀ lat, P lat → P (lat.push draft)) {lat : Lattice σ R}
    (hlat : P lat) : P (absorb lat xs).1 := by
  induction xs generalizing lat with
  | nil => exact hlat
  | cons x xs ih =>
      have hxs : ∀ draft, .ok (some draft) ∈ xs → ∀ lat, P lat → P (lat.push draft) :=
        fun draft hd => hpush draft (List.mem_cons_of_mem _ hd)
      match x with
      | .error e => exact hlat
      | .ok none => exact ih hxs hlat
      | .ok (some draft) => exact ih hxs (hpush draft List.mem_cons_self lat hlat)

omit [Cost R] in
theorem grows_absorb {since : Nat} {xs : List (Attempt σ R)}
    (h : ∀ draft, .ok (some draft) ∈ xs → since ≤ draft.arc.stop) (lat : Lattice σ R) :
    lat.Grows since (absorb lat xs).1 :=
  absorb_induct (P := lat.Grows since)
    (fun draft hd _ hgrows => hgrows.trans (.push (h draft hd) _)) (.refl since lat)

omit [Cost R] in
theorem grows_of_absorb {xs : List (Attempt σ R)} {lat lat' : Lattice σ R}
    {outcome : Except Error Unit} (h : absorb lat xs = (lat', outcome)) : lat.Grows 0 lat' := by
  have hstop : ∀ draft, .ok (some draft) ∈ xs → 0 ≤ draft.arc.stop := fun _ _ => Nat.zero_le _
  have hgrows := grows_absorb hstop lat
  rwa [h] at hgrows

/-- The drafts of some moves that end at a position, as nodes. -/
theorem node_drafts_tryAll (d : Decoder σ R) (moves : List Move) (hyps : List (Node σ R))
    (q : Nat) :
    ((drafts (d.tryAll moves hyps)).filter fun draft => draft.arc.stop = q).map Draft.node
      = d.grow (moves.filter fun mv => mv.stop = q) hyps := by
  have hone : ∀ mv : Move,
      ((drafts (hyps.map (mv.attempt d))).filter fun draft => draft.arc.stop = q).map Draft.node
        = if mv.stop = q then hyps.filterMap (mv.node d) else [] := by
    intro mv
    induction hyps with
    | nil => simp [drafts]
    | cons prev hyps ih =>
        simp only [drafts, List.map_cons, List.filterMap_cons] at ih ⊢
        cases hout : mv.outcome d prev.state with
        | error e => simpa [Move.attempt, Move.node, hout] using ih
        | ok made =>
            cases made with
            | none => simpa [Move.attempt, Move.node, hout] using ih
            | some link =>
                have hstop := Move.stop_of_outcome hout
                by_cases hq : mv.stop = q <;>
                  simp [Move.attempt, Move.node, linked, hout, hstop, hq, Draft.node] at ih ⊢ <;>
                  exact ih
  induction moves with
  | nil => rfl
  | cons mv moves ih =>
      have happ : drafts (d.tryAll (mv :: moves) hyps)
          = drafts (hyps.map (mv.attempt d)) ++ drafts (d.tryAll moves hyps) := by
        simp [drafts, tryAll]
      rw [happ, List.filter_append, List.map_append, hone, ih, List.filter_cons]
      by_cases hq : mv.stop = q <;> simp [hq, grow]

/-- What moves that do not fail add to the nodes of a position. -/
theorem unnumberedNodes_absorb_tryAll
    (hok : ∀ mv ∈ moves, ∀ n ∈ hyps, ¬ mv.FailsIn d n.state) (lat : Lattice σ R) :
    ∃ lat', absorb lat (d.tryAll moves hyps) = (lat', .ok ()) ∧ ∀ q,
      lat'.unnumberedNodes q
        = lat.unnumberedNodes q ++
          d.grow (moves.filter fun mv => mv.stop = q) (hyps.map Node.unnumbered) := by
  have hnone : ∀ e, .error e ∉ d.tryAll moves hyps := by
    intro e he
    obtain ⟨mv, hmv, n, hn, hfail⟩ := error_mem_tryAll_iff.1 ⟨e, he⟩
    exact hok mv hmv n hn hfail
  refine ⟨_, absorb_of_ok hnone, fun q => ?_⟩
  rw [Lattice.unnumberedNodes_foldl_push, node_drafts_tryAll, grow_unnumbered]

end Decoder

/-! ## Layers -/

/-- What a search goes by: a decoder and a graph, which words count as worthless, which
partial sentences of a position are extended, and the state of the model before them. -/
structure Search (σ R : Type) where
  decoder : Decoder σ R
  graph : CutGraph
  singlePath : Bool
  pick : List (Node σ R) → List (Node σ R)
  state : σ

namespace Search

/-- The moves from a position to another one. -/
def movesTo (S : Search σ R) (p q : Nat) : List Move :=
  S.decoder.movesTo S.graph S.singlePath p q

/-- The nodes, without numbers, that a search finds at a position. -/
def layer [Cost R] (S : Search σ R) (q : Nat) : List (Node σ R) :=
  if q = 0 then [.start S.state]
  else
    (List.range q).attach.flatMap fun p =>
      S.decoder.grow (S.movesTo p.val q) (S.pick (S.layer p.val))
termination_by q
decreasing_by exact List.mem_range.1 p.property

/-- What the positions before `bound` add to a layer. -/
def layerUpTo [Cost R] (S : Search σ R) (bound q : Nat) : List (Node σ R) :=
  (List.range (min bound q)).flatMap fun p => S.decoder.grow (S.movesTo p q) (S.pick (S.layer p))

/-- No move to a position fails on what was picked. -/
def Unfailing [Cost R] (S : Search σ R) (q : Nat) : Prop :=
  ∀ p < q, ∀ mv ∈ S.movesTo p q, ∀ n ∈ S.pick (S.layer p), ¬ mv.FailsIn S.decoder n.state

variable [Cost R] {S : Search σ R} {p q : Nat}

theorem layer_zero (S : Search σ R) : S.layer 0 = [.start S.state] := by
  rw [layer, if_pos rfl]

theorem layer_of_pos (hq : 0 < q) :
    S.layer q
      = (List.range q).flatMap fun p => S.decoder.grow (S.movesTo p q) (S.pick (S.layer p)) := by
  rw [layer, if_neg (by omega), CutGraph.flatMap_attach (List.range q) fun p =>
    S.decoder.grow (S.movesTo p q) (S.pick (S.layer p))]

theorem layerUpTo_eq_layer {bound : Nat} (hq : 0 < q) (hbound : q ≤ bound) :
    S.layerUpTo bound q = S.layer q := by
  rw [layerUpTo, Nat.min_eq_right hbound, layer_of_pos hq]

theorem layerUpTo_succ (S : Search σ R) (p q : Nat) :
    S.layerUpTo (p + 1) q
      = S.layerUpTo p q ++ S.decoder.grow (S.movesTo p q) (S.pick (S.layer p)) := by
  by_cases hp : p < q
  · rw [layerUpTo, layerUpTo, Nat.min_eq_left (by omega), Nat.min_eq_left (by omega),
      List.range_succ, List.flatMap_append, List.flatMap_singleton]
  · have hnil : S.movesTo p q = [] := Decoder.movesTo_eq_nil (.inl (by omega))
    rw [layerUpTo, layerUpTo, Nat.min_eq_right (by omega), Nat.min_eq_right (by omega), hnil]
    simp [Decoder.grow]

/-- Nothing is found outside the text. -/
theorem layerUpTo_eq_nil {bound : Nat} (h : S.graph.size < q) : S.layerUpTo bound q = [] := by
  rw [layerUpTo, List.flatMap_eq_nil_iff]
  intro p hp
  have hnil : S.movesTo p q = [] := Decoder.movesTo_eq_nil (.inr h)
  rw [hnil]
  rfl

/-- After the last position every layer is complete. -/
theorem layerUpTo_size (hq : 0 < q) : S.layerUpTo S.graph.size q = S.layer q := by
  by_cases h : q ≤ S.graph.size
  · exact layerUpTo_eq_layer hq h
  · rw [layerUpTo_eq_nil (by omega), ← layerUpTo_eq_layer hq (Nat.le_refl q),
      layerUpTo_eq_nil (by omega)]

theorem mem_layer_of_pos (hq : 0 < q) {n : Node σ R} :
    n ∈ S.layer q ↔
      ∃ p < q, ∃ mv ∈ S.movesTo p q, ∃ prev ∈ S.pick (S.layer p),
        mv.node S.decoder prev = some n := by
  simp only [layer_of_pos hq, List.mem_flatMap, List.mem_range, Decoder.mem_grow]

/-- The nodes of a layer end at its position. -/
theorem stop_of_mem_layer {n : Node σ R} (h : n ∈ S.layer q) : n.stop = q := by
  by_cases hq : q = 0
  · rw [hq, layer_zero, List.mem_singleton] at h
    rw [h, hq]
    rfl
  · obtain ⟨p, -, mv, hmv, prev, -, hn⟩ := (mem_layer_of_pos (by omega)).1 h
    rw [Move.stop_of_node hn, (Decoder.mem_movesTo.1 hmv).2]

/-- The search over another graph. -/
def onGraph (S : Search σ R) (g : CutGraph) : Search σ R := { S with graph := g }

/-- **Layers are local**: over graphs that agree before a position, a search finds the same
there, and fails over both or none. -/
theorem layer_congr (hlocal : S.decoder.dictionary.IsLocal) {g : CutGraph}
    (hagree : S.graph.AgreeBefore g q) :
    S.layer q = (S.onGraph g).layer q ∧ (S.Unfailing q ↔ (S.onGraph g).Unfailing q) := by
  induction q using Nat.strongRecOn with
  | ind q ih =>
      have hlayer : ∀ p < q, S.layer p = (S.onGraph g).layer p :=
        fun p hp => (ih p hp (hagree.mono (Nat.le_of_lt hp))).1
      have hmoves : ∀ p, S.movesTo p q = (S.onGraph g).movesTo p q :=
        fun p => Decoder.movesTo_congr hlocal hagree S.singlePath p
      have hpick : (S.onGraph g).pick = S.pick := rfl
      have hdecoder : (S.onGraph g).decoder = S.decoder := rfl
      constructor
      · by_cases hq : q = 0
        · rw [hq, layer_zero, layer_zero]
          rfl
        · rw [layer_of_pos (by omega), layer_of_pos (by omega), hpick, hdecoder]
          refine List.flatMap_congr fun p hp => ?_
          rw [hmoves, hlayer p (List.mem_range.1 hp)]
      · unfold Unfailing
        rw [hpick, hdecoder]
        refine forall_congr' fun p => forall_congr' fun hp => ?_
        rw [hmoves, hlayer p hp]

end Search

end Pinyin
