import Pinyin.Proofs.Decoder.Beam
import Pinyin.Proofs.Lattice.Scores

/-!
# Pinyin.Proofs.Decoder.Refinement

Searches under two language models, one of which tells more states apart than the other.  The finer
one groups the partial sentences of a position into more states and keeps more of them, but both
searches keep the best.

* `LanguageModel.Refines` — the finer model asks the same of words, whatever state it is in;
* `Node.mapState` — a partial sentence seen with the coarser states;
* `Move.node_mapState` — a move makes the same of a partial sentence, seen so;
* `layer_perm` — so the exhaustive searches find the same nodes at each position;
* `lowestScores_of_decode` — a decode has the lowest scores of the exhaustive search;
* `decode_refines` — so decodes under both models return alike, with the same lowest scores.
-/

namespace Pinyin

variable {σ τ R : Type}

/-! ## Models and states -/

/-- A model asks the same of words as a coarser one; `view` forgets what only its own states tell. -/
structure LanguageModel.Refines (fine : LanguageModel τ R) (coarse : LanguageModel σ R)
    (view : τ → σ) : Prop where
  cost_eq : ∀ t index word, fine.cost t index word = coarse.cost (view t) index word
  isUnknown_eq : ∀ index word, fine.isUnknown index word = coarse.isUnknown index word
  next_eq : ∀ t index word, view (fine.next t index word) = coarse.next (view t) index word

/-- The decoder with another model, whose costs may be other numbers. -/
def Decoder.withModel {S : Type} (d : Decoder σ S) (model : LanguageModel τ R) : Decoder τ R :=
  ⟨d.dictionary, model, d.maxSyllables, d.maxSyllables_pos⟩

/-- An arc with another state. -/
def Arc.mapState (view : τ → σ) (a : Arc τ R) : Arc σ R :=
  ⟨a.word, a.index, a.path, view a.state, a.cost, a.code⟩

namespace Node

/-- A partial sentence with other states. -/
def mapState (view : τ → σ) : Node τ R → Node σ R
  | start t => .start (view t)
  | link prev arc score seq => .link (prev.mapState view) (arc.mapState view) score seq

@[simp] theorem state_mapState (view : τ → σ) (n : Node τ R) :
    (n.mapState view).state = view n.state := by
  cases n <;> rfl

@[simp] theorem score_mapState [Zero R] (view : τ → σ) (n : Node τ R) :
    (n.mapState view).score = n.score := by
  cases n <;> rfl

@[simp] theorem unnumbered_mapState (view : τ → σ) (n : Node τ R) :
    (n.mapState view).unnumbered = n.unnumbered.mapState view := by
  induction n with
  | start => rfl
  | link prev arc score seq ih => simp [mapState, unnumbered, ih]

end Node

/-! ## Moves -/

section Moves

variable [Cost R] {d : Decoder σ R} {fine : LanguageModel τ R} {view : τ → σ}

theorem linked_mapState (arc : Arc τ R) (cost? : Option R) (prev : Node τ R) :
    (linked arc cost? prev).mapState view
      = linked (arc.mapState view) cost? (prev.mapState view) := by
  simp [linked, Node.mapState]

/-- A move comes to the same in a state as in the coarser one, up to the states. -/
theorem Move.outcome_mapState (h : fine.Refines d.model view) (mv : Move) (t : τ) :
    mv.outcome d (view t)
      = (mv.outcome (d.withModel fine) t).map
          (Option.map fun made => (made.1.mapState view, made.2)) := by
  cases mv with
  | separator start stop => rfl
  | failure path e => rfl
  | word path m forced =>
      have hcost : d.wordCost m (.start (view t)) = (d.withModel fine).wordCost m (.start t) := by
        simp only [Decoder.wordCost, Decoder.withModel, Node.state, h.cost_eq]
      simp only [outcome, hcost]
      cases (d.withModel fine).wordCost m (.start t) with
      | error e => rfl
      | ok cost =>
          have harc : ((d.withModel fine).wordArc path m (.start t) cost).mapState view
              = d.wordArc path m (.start (view t)) cost := by
            simp [Arc.mapState, Decoder.wordArc, Decoder.withModel, Node.state, h.next_eq]
          have hdrop : (d.withModel fine).IsWorthless
                ((d.withModel fine).wordArc path m (.start t) cost) forced ↔
              d.IsWorthless (d.wordArc path m (.start (view t)) cost) forced := by
            simp [Decoder.IsWorthless, Decoder.wordArc, Decoder.withModel, Arc.start,
              h.isUnknown_eq]
          by_cases hw : d.IsWorthless (d.wordArc path m (.start (view t)) cost) forced
          · simp [hw, hdrop, Except.map]
          · simp [hw, hdrop, harc, Except.map]

/-- A move fails in a state as in the coarser one. -/
theorem Move.failsIn_iff (h : fine.Refines d.model view) (mv : Move) (t : τ) :
    mv.FailsIn (d.withModel fine) t ↔ mv.FailsIn d (view t) := by
  unfold FailsIn
  rw [mv.outcome_mapState h]
  cases mv.outcome (d.withModel fine) t <;> simp [Except.map]

/-- A move makes the same of a partial sentence, up to the states. -/
theorem Move.node_mapState (h : fine.Refines d.model view) (mv : Move) (prev : Node τ R) :
    mv.node d (prev.mapState view)
      = (mv.node (d.withModel fine) prev).map (Node.mapState view) := by
  unfold node
  rw [Node.state_mapState, mv.outcome_mapState h]
  match mv.outcome (d.withModel fine) prev.state with
  | .error e => rfl
  | .ok none => rfl
  | .ok (some (arc, cost?)) => simp [Except.map, linked_mapState]

theorem Decoder.grow_mapState (h : fine.Refines d.model view) (moves : List Move)
    (hyps : List (Node τ R)) :
    d.grow moves (hyps.map (Node.mapState view))
      = ((d.withModel fine).grow moves hyps).map (Node.mapState view) := by
  simp only [grow, List.map_flatMap, List.map_filterMap, List.filterMap_map, Function.comp_def,
    Move.node_mapState h]

omit [Cost R] in
/-- Both models try the same moves. -/
theorem Decoder.movesTo_withModel (h : fine.Refines d.model view) (g : CutGraph)
    (singlePath : Bool) (p q : Nat) :
    (d.withModel fine).movesTo g singlePath p q = d.movesTo g singlePath p q := by
  have hdrops : ∀ path m, (d.withModel fine).Drops path m singlePath ↔ d.Drops path m singlePath := by
    intro path m
    simp only [Drops, withModel, h.isUnknown_eq]
  have hon : (d.withModel fine).movesOn g singlePath = d.movesOn g singlePath := by
    funext path
    simp only [movesOn, hdrops]
    rfl
  simp only [movesTo, movesFrom, hon]
  rfl

end Moves

/-! ## Layers -/

section Layers

variable [Cost R]

theorem Decoder.grow_perm (d : Decoder σ R) (moves : List Move) {ns ms : List (Node σ R)}
    (h : ns.Perm ms) : (d.grow moves ns).Perm (d.grow moves ms) :=
  List.Perm.flatMap_left _ fun mv _ => h.filterMap (mv.node d)

variable [DecidableEq σ] [DecidableEq τ] {d : Decoder σ R} {fine : LanguageModel τ R}
  {view : τ → σ}

namespace Decoder

theorem movesTo_exhaustive (h : fine.Refines d.model view) (g : CutGraph) (t : τ) (p q : Nat) :
    ((d.withModel fine).exhaustive g (some t)).movesTo p q
      = (d.exhaustive g (some (view t))).movesTo p q :=
  movesTo_withModel h g _ p q

/-- **The exhaustive searches find the same nodes**, up to their states and their order. -/
theorem layer_perm (h : fine.Refines d.model view) (g : CutGraph) (t : τ) (q : Nat) :
    ((((d.withModel fine).exhaustive g (some t)).layer q).map (Node.mapState view)).Perm
      ((d.exhaustive g (some (view t))).layer q) := by
  induction q using Nat.strongRecOn with
  | ind q ih =>
      by_cases hq : q = 0
      · rw [hq, Search.layer_zero, Search.layer_zero]
        rfl
      · rw [Search.layer_of_pos (by omega), Search.layer_of_pos (by omega), List.map_flatMap]
        refine List.Perm.flatMap_left _ fun p hp => ?_
        -- Both searches extend all nodes of `p`, each by states of its own.
        have hpicked := (((arrange_perm _).map (Node.mapState view)).trans
          (ih p (List.mem_range.1 hp))).trans (arrange_perm _).symm
        have hgrown := d.grow_perm ((d.exhaustive g (some (view t))).movesTo p q) hpicked
        rw [movesTo_exhaustive h]
        rwa [grow_mapState h] at hgrown

/-- The exhaustive searches fail alike. -/
theorem unfailing_exhaustive_iff (h : fine.Refines d.model view) (g : CutGraph) (t : τ) (q : Nat) :
    ((d.withModel fine).exhaustive g (some t)).Unfailing q ↔
      (d.exhaustive g (some (view t))).Unfailing q := by
  have hstates : ∀ p (P : σ → Prop),
      (∀ n ∈ ((d.withModel fine).exhaustive g (some t)).layer p, P (view n.state)) ↔
        ∀ n ∈ (d.exhaustive g (some (view t))).layer p, P n.state := by
    intro p P
    simp only [← (layer_perm h g t p).mem_iff, List.forall_mem_map, Node.state_mapState]
  refine forall_congr' fun p => forall_congr' fun _ => ?_
  rw [movesTo_exhaustive h]
  refine forall_congr' fun mv => forall_congr' fun _ => ?_
  have hfails := hstates p fun s => ¬ mv.FailsIn d s
  simpa only [exhaustive, mem_arrange, Move.failsIn_iff h] using hfails

end Decoder

end Layers

/-! ## Decodes -/

section Decodes

variable [Cost R] {lat : Lattice σ R}

namespace Decoder

variable [DecidableEq σ] [LinearCost R] {d : Decoder σ R} {g : CutGraph} {nbest : Int}
  {state? : Option σ} {ts : List (Transcription σ R)}

/-- **A decode has the lowest scores** of the exhaustive search. -/
theorem lowestScores_of_decode (h : d.decode .empty g nbest state? = (lat, .ok ts)) (p : Nat) :
    lat.lowestScores p nbest.toNat
      = lowest nbest.toNat (((d.exhaustive g state?).layer p).map Node.score) := by
  rw [Lattice.lowestScores, ← map_score_take_mergeSort, ← map_score_take_mergeSort,
    ← best_of_decode h, List.map_map]
  exact List.map_congr_left fun n _ => n.score_unnumbered.symm

/-- The best sentence has the lowest score at the end. -/
theorem head?_score_of_decode (h : d.decode .empty g nbest state? = (lat, .ok ts)) :
    ts.head?.map Transcription.score = (lat.lowestScores g.size nbest.toNat).head? := by
  have hn := (asked_of_decode h).1
  rw [lowestScores_of_decode h, ← map_score_take_mergeSort, head?_of_decode h, Option.map_map,
    List.head?_map, List.head?_take, if_neg (by omega)]
  rfl

/-- **Decodes under both models** return alike, and then have the same lowest scores at every
position, and sentences of the same best score. -/
theorem decode_refines [DecidableEq τ] {fine : LanguageModel τ R} {view : τ → σ}
    (h : fine.Refines d.model view) (g : CutGraph) (nbest : Int) (t : τ) :
    ((∃ lat ts, d.decode .empty g nbest (some (view t)) = (lat, .ok ts)) ↔
      ∃ lat ts, (d.withModel fine).decode .empty g nbest (some t) = (lat, .ok ts)) ∧
    ∀ lat ts lat' ts', d.decode .empty g nbest (some (view t)) = (lat, .ok ts) →
      (d.withModel fine).decode .empty g nbest (some t) = (lat', .ok ts') →
      (∀ p, lat.lowestScores p nbest.toNat = lat'.lowestScores p nbest.toNat) ∧
      ts.head?.map Transcription.score = ts'.head?.map Transcription.score := by
  refine ⟨?_, fun lat ts lat' ts' hcoarse hfine => ?_⟩
  · rw [decode_empty_iff_exhaustive, decode_empty_iff_exhaustive]
    simp only [unfailing_exhaustive_iff h]
  · have hscores : ∀ p, lat.lowestScores p nbest.toNat = lat'.lowestScores p nbest.toNat := by
      intro p
      have hperm := (layer_perm (d := d) h g t p).map Node.score
      rw [List.map_map, Function.comp_def] at hperm
      simp only [Node.score_mapState] at hperm
      rw [lowestScores_of_decode hcoarse, lowestScores_of_decode hfine, lowest_congr hperm]
    refine ⟨hscores, ?_⟩
    rw [head?_score_of_decode hcoarse, head?_score_of_decode hfine, hscores]

end Decoder

end Decodes

end Pinyin
