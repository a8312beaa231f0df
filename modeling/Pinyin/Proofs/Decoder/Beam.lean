import Mathlib.Data.List.Perm.Basic
import Pinyin.Proofs.Decoder.Outcome
import Pinyin.Proofs.Lattice.Ranking

/-!
# Pinyin.Proofs.Decoder.Beam

A search extends the best partial sentences of each state only.  Measured against the
search that extends all of them, it leaves out nodes that have enough rivals.

* `Decoder.exhaustive` — the search that extends all partial sentences;
* `thinned_layer` — each layer of a decode is one of the exhaustive search, thinned;
* `best_of_decode`, `hypotheses_of_decode` — so a decode has the best nodes of the exhaustive
  search, overall and of each state;
* `decode_beam` — and the best nodes are the same for every number of sentences.
-/

namespace Pinyin

variable {σ R : Type} [DecidableEq σ] [Cost R]

/-- All nodes among some, by state as they are selected. -/
def arrange (ns : List (Node σ R)) : List (Node σ R) :=
  (ns.map Node.state).eraseDups.flatMap fun s =>
    (ns.filter fun n => n.state = s).mergeSort Node.rankLe

/-- Arranging some nodes by state loses none of them. -/
theorem arrange_perm (ns : List (Node σ R)) : (arrange ns).Perm ns :=
  (List.Perm.flatMap_left _ fun _ _ => List.mergeSort_perm _ _).trans
    (perm_flatMap_filter_eraseDups Node.state ns)

@[simp] theorem mem_arrange {ns : List (Node σ R)} {n : Node σ R} : n ∈ arrange ns ↔ n ∈ ns :=
  (arrange_perm ns).mem_iff

/-- Every state keeps a node. -/
theorem exists_mem_select {k : Nat} (hk : 1 ≤ k) {ns : List (Node σ R)} {n : Node σ R}
    (hn : n ∈ ns) : ∃ m ∈ select k ns, m.state = n.state := by
  have hgroup : n ∈ (ns.filter fun m => m.state = n.state).mergeSort Node.rankLe := by
    simp [hn]
  obtain ⟨m, rest, hm⟩ := List.exists_cons_of_ne_nil (List.ne_nil_of_mem hgroup)
  have htake : m ∈ ((ns.filter fun m => m.state = n.state).mergeSort Node.rankLe).take k := by
    rw [hm, ← Nat.sub_add_cancel hk, List.take_succ_cons]
    exact List.mem_cons_self
  have hstate : m.state = n.state := by
    have hmem := List.mem_mergeSort.1 (List.mem_of_mem_take htake)
    simpa using (List.mem_filter.1 hmem).2
  refine ⟨m, List.mem_flatMap.2 ⟨n.state, ?_, htake⟩, hstate⟩
  exact List.mem_eraseDups.2 (List.mem_map.2 ⟨n, hn, rfl⟩)

namespace Decoder

/-- The search that extends all partial sentences. -/
def exhaustive (d : Decoder σ R) (g : CutGraph) (state? : Option σ) : Search σ R where
  decoder := d
  graph := g
  singlePath := g.pathCount == 1
  pick := arrange
  state := state?.getD d.model.start

/-! ## Thinned layers -/

section

variable [OrderedCost R] {d : Decoder σ R}

omit [DecidableEq σ] in
/-- A move keeps the order of scores. -/
theorem not_raise_lt {m n : Node σ R} (h : m.rankLe n) (cost? : Option R) :
    ¬ raise n.score cost? < raise m.score cost? := by
  have hle : ¬ n.score < m.score := by
    rcases Node.rankLe_iff.1 h with hlt | hle
    · exact OrderedCost.asymm _ _ hlt
    · exact hle.1
  cases cost? with
  | none => exact hle
  | some cost => exact OrderedCost.add _ _ cost hle

/-- Of nodes in order, an arc makes rivals of the first `k` for each of the others. -/
theorem thinned_linked {ns : List (Node σ R)} (hsorted : ns.Pairwise fun a b => a.rankLe b)
    (k : Nat) (arc : Arc σ R) (cost? : Option R) :
    Thinned k (ns.map (linked arc cost?)) ((ns.take k).map (linked arc cost?)) := by
  have hsplit : ns.map (linked arc cost?)
      = (ns.take k).map (linked arc cost?) ++ (ns.drop k).map (linked arc cost?) := by
    rw [← List.map_append, List.take_append_drop]
  rw [hsplit]
  rw [← List.take_append_drop k ns, List.pairwise_append] at hsorted
  refine (Thinned.refl _).dropAll fun n hn => ?_
  obtain ⟨b, hb, rfl⟩ := List.mem_map.1 hn
  have hlen := List.length_pos_of_mem hb
  have hall : rivals ((ns.take k).map (linked arc cost?)) (linked arc cost? b)
      = (ns.take k).map (linked arc cost?) := by
    rw [rivals, List.filter_eq_self]
    intro m hm
    obtain ⟨a, ha, rfl⟩ := List.mem_map.1 hm
    have hle := not_raise_lt (hsorted.2.2 a ha b hb) cost?
    rw [decide_eq_true_eq]
    exact ⟨rfl, Node.rankLe_iff.2 (.inr ⟨hle, Nat.le_refl 0⟩)⟩
  rw [List.length_drop] at hlen
  rw [hall, List.length_map, List.length_take]
  omega

/-- What a move makes of the first `k` nodes of a state is what it makes of all, thinned. -/
theorem thinned_filterMap_node {k : Nat} {s : σ} {ns : List (Node σ R)} (mv : Move)
    (hstate : ∀ n ∈ ns, n.state = s) (hsorted : ns.Pairwise fun a b => a.rankLe b) :
    Thinned k (ns.filterMap (mv.node d)) ((ns.take k).filterMap (mv.node d)) := by
  by_cases hmade : ∃ arc cost?, mv.outcome d s = .ok (some (arc, cost?))
  · obtain ⟨arc, cost?, hout⟩ := hmade
    have hnode : ∀ n ∈ ns, mv.node d n = some (linked arc cost? n) := by
      intro n hn
      rw [Move.node, hstate n hn, hout]
    rw [List.filterMap_congr hnode,
      List.filterMap_congr fun n hn => hnode n (List.mem_of_mem_take hn),
      List.filterMap_eq_map']
    exact thinned_linked hsorted k arc cost?
  · have hnode : ∀ n ∈ ns, mv.node d n = none := by
      intro n hn
      rw [Option.eq_none_iff_forall_ne_some]
      intro m hm
      obtain ⟨arc, cost?, hout, -⟩ := Move.node_eq_some_iff.1 hm
      exact hmade ⟨arc, cost?, hstate n hn ▸ hout⟩
    rw [List.filterMap_eq_nil_iff.2 hnode,
      List.filterMap_eq_nil_iff.2 fun n hn => hnode n (List.mem_of_mem_take hn)]
    exact .nil

/-- What moves make of selected nodes is what they make of all, thinned. -/
theorem thinned_grow (d : Decoder σ R) (k : Nat) (moves : List Move) (ns : List (Node σ R)) :
    Thinned k (d.grow moves (arrange ns)) (d.grow moves (select k ns)) := by
  refine Thinned.flatMap fun mv _ => ?_
  rw [arrange, select, List.filterMap_flatMap, List.filterMap_flatMap]
  refine Thinned.flatMap fun s _ => thinned_filterMap_node (s := s) mv (fun n hn => ?_) ?_
  · simpa using (List.mem_filter.1 (List.mem_mergeSort.1 hn)).2
  · exact List.pairwise_mergeSort Node.rankLe_trans Node.rankLe_total _

variable {g : CutGraph} {nbest : Int} {state? : Option σ}

/-- **Each layer of a decode is one of the exhaustive search, thinned.** -/
theorem thinned_layer (hn : 1 ≤ nbest) (q : Nat) :
    Thinned nbest.toNat ((d.exhaustive g state?).layer q) ((d.search g nbest state?).layer q) := by
  induction q using Nat.strongRecOn with
  | ind q ih =>
      by_cases hq : q = 0
      · rw [hq, Search.layer_zero, Search.layer_zero]
        exact .refl _
      · rw [Search.layer_of_pos (by omega), Search.layer_of_pos (by omega)]
        refine Thinned.flatMap fun p hp => ?_
        -- Thinned layers select the same, so both searches extend the same nodes of `p`.
        have hselect : select nbest.toNat ((d.search g nbest state?).layer p)
            = select nbest.toNat ((d.exhaustive g state?).layer p) :=
          ((ih p (List.mem_range.1 hp)).select_eq (by omega)).symm
        have hpick : (d.search g nbest state?).pick ((d.search g nbest state?).layer p)
            = select nbest.toNat ((d.exhaustive g state?).layer p) := hselect
        rw [hpick]
        exact thinned_grow d nbest.toNat _ _

/-- A decode picks the best of what the exhaustive search finds. -/
theorem pick_layer (hn : 1 ≤ nbest) (p : Nat) :
    (d.search g nbest state?).pick ((d.search g nbest state?).layer p)
      = select nbest.toNat ((d.exhaustive g state?).layer p) :=
  ((thinned_layer hn p).select_eq (by omega)).symm

/-- A decode fails where the exhaustive search does. -/
theorem unfailing_search_iff (hn : 1 ≤ nbest) (q : Nat) :
    (d.search g nbest state?).Unfailing q ↔ (d.exhaustive g state?).Unfailing q := by
  constructor
  · intro h p hp mv hmv n hmem hfail
    obtain ⟨m, hm, hstate⟩ := exists_mem_select (k := nbest.toNat) (by omega) (mem_arrange.1 hmem)
    exact h p hp mv hmv m (pick_layer (d := d) hn p ▸ hm) (hstate ▸ hfail)
  · intro h p hp mv hmv n hmem hfail
    rw [pick_layer hn] at hmem
    exact h p hp mv hmv n (mem_arrange.2 (mem_of_mem_select hmem)) hfail

omit [DecidableEq σ] [OrderedCost R] in
/-- The best sentence is the best node at the end. -/
theorem head?_sentences (S : Search σ R) (nbest : Int) :
    (S.sentences nbest).head?
      = ((S.layer S.graph.size).mergeSort Node.rankLe).head?.map Node.transcription := by
  rw [Search.sentences, List.head?_take, if_neg (by omega)]
  cases (S.layer S.graph.size).mergeSort Node.rankLe with
  | nil => rfl
  | cons n ns => rfl

/-! ## The best nodes -/

/-- A decode of the empty lattice returns where no move of the exhaustive search fails. -/
theorem decode_empty_iff_exhaustive :
    (∃ lat ts, d.decode .empty g nbest state? = (lat, .ok ts)) ↔
      (1 ≤ nbest ∧ g.IsConnected) ∧ ∀ q, (d.exhaustive g state?).Unfailing q := by
  rw [decode_empty_iff]
  refine and_congr_right fun hask => forall_congr' fun q => ?_
  exact unfailing_search_iff hask.1 q

variable {lat : Lattice σ R} {ts : List (Transcription σ R)}

/-- **The beam loses none of the best nodes** of the exhaustive search. -/
theorem best_of_decode (h : d.decode .empty g nbest state? = (lat, .ok ts)) (p : Nat) :
    (((lat.nodes p).mergeSort Node.rankLe).take nbest.toNat).map Node.unnumbered
      = (((d.exhaustive g state?).layer p).mergeSort Node.rankLe).take nbest.toNat := by
  have hn := (asked_of_decode h).1
  obtain ⟨hlat, -⟩ := decode_empty h
  rw [List.map_take, Lattice.unnumbered_ranked hlat.ascending, hlat.nodes_eq,
    (thinned_layer hn p).take_mergeSort]

/-- The beam keeps the best nodes of each state in the exhaustive search. -/
theorem hypotheses_of_decode (h : d.decode .empty g nbest state? = (lat, .ok ts)) (p : Nat) :
    (lat.hypotheses p nbest.toNat).map Node.unnumbered
      = select nbest.toNat ((d.exhaustive g state?).layer p) := by
  obtain ⟨hlat, -⟩ := decode_empty h
  rw [Lattice.unnumbered_hypotheses hlat.ascending, hlat.nodes_eq]
  exact pick_layer (asked_of_decode h).1 p

/-- The best sentence is that of the best node which the exhaustive search has at the end. -/
theorem head?_of_decode (h : d.decode .empty g nbest state? = (lat, .ok ts)) :
    ts.head? = (((d.exhaustive g state?).layer g.size).mergeSort Node.rankLe).head?.map
      Node.transcription := by
  have hn := (asked_of_decode h).1
  obtain ⟨-, rfl⟩ := decode_empty h
  have hthin : Thinned nbest.toNat ((d.exhaustive g state?).layer g.size) _ :=
    thinned_layer hn g.size
  have hbest := congrArg List.head? hthin.take_mergeSort
  rw [List.head?_take, List.head?_take, if_neg (by omega), if_neg (by omega)] at hbest
  rw [head?_sentences, hbest]
  rfl

/-- **The beam keeps the best derivations.**  Decodes of the empty lattice for different
numbers of sentences return alike.  A decode has the best nodes of the exhaustive search at
every position, overall and of each state, and its best sentence; so up to the smaller number,
two decodes find the same best nodes at every position, and the same best sentence. -/
theorem decode_beam {nbest' : Int} (hn : 1 ≤ nbest) (hle : nbest ≤ nbest') (d : Decoder σ R)
    (g : CutGraph) (state? : Option σ) :
    ((∃ lat ts, d.decode .empty g nbest state? = (lat, .ok ts)) ↔
      ∃ lat ts, d.decode .empty g nbest' state? = (lat, .ok ts)) ∧
    (∀ lat ts, d.decode .empty g nbest state? = (lat, .ok ts) →
      (∀ p, (((lat.nodes p).mergeSort Node.rankLe).take nbest.toNat).map Node.unnumbered
          = (((d.exhaustive g state?).layer p).mergeSort Node.rankLe).take nbest.toNat ∧
        (lat.hypotheses p nbest.toNat).map Node.unnumbered
          = select nbest.toNat ((d.exhaustive g state?).layer p)) ∧
      ts.head? = (((d.exhaustive g state?).layer g.size).mergeSort Node.rankLe).head?.map
        Node.transcription) ∧
    ∀ lat ts lat' ts', d.decode .empty g nbest state? = (lat, .ok ts) →
      d.decode .empty g nbest' state? = (lat', .ok ts') →
      (∀ p, (((lat.nodes p).mergeSort Node.rankLe).take nbest.toNat).map Node.unnumbered
        = (((lat'.nodes p).mergeSort Node.rankLe).take nbest.toNat).map Node.unnumbered) ∧
      ts.head? = ts'.head? := by
  have hn' : 1 ≤ nbest' := by omega
  refine ⟨?_, fun lat ts h => ?_, fun lat ts lat' ts' h h' => ⟨fun p => ?_, ?_⟩⟩
  · rw [decode_empty_iff_exhaustive, decode_empty_iff_exhaustive]
    simp only [hn, hn']
  · exact ⟨fun p => ⟨best_of_decode h p, hypotheses_of_decode h p⟩, head?_of_decode h⟩
  · have hmin : min nbest.toNat nbest'.toNat = nbest.toNat := by omega
    have hcut := congrArg (List.take nbest.toNat) (best_of_decode h' p)
    rw [← List.map_take, List.take_take, List.take_take, hmin] at hcut
    exact (best_of_decode h p).trans hcut.symm
  · exact (head?_of_decode h).trans (head?_of_decode h').symm

end

/-! ## A small search -/

/-- A decoder with three matches for "ni", two of which have the same word, and one for
"hao" after it. -/
def sampleDecoder : Decoder Unit Rat where
  dictionary _ path := .ok (
    if path = [0, 2] then
      [⟨"你", 0, [8, 15], 0⟩, ⟨"你", 1, [8, 15], 0⟩, ⟨"泥", 2, [8, 15], 0⟩]
    else if path = [2, 5] then [⟨"好", 3, [12, 7], 0⟩]
    else [])
  model := ⟨(), fun _ _ word => .ok (if word = "泥" then 5 else 1), fun _ _ => false,
    fun _ _ _ => ()⟩
  maxSyllables := 8
  maxSyllables_pos := by decide

/-- The graph of "nihao". -/
def sampleGraph : CutGraph :=
  ((CutGraph.ofText ['n', 'i', 'h', 'a', 'o']).insert 0 ⟨2, [⟨⟨.n, .i⟩, false⟩]⟩).insert 2
    ⟨5, [⟨⟨.h, .ao⟩, false⟩]⟩

/-- The small decoder returns on it, for every number of sentences. -/
theorem isOk_decode_sample {nbest : Int} (hn : 1 ≤ nbest) :
    (sampleDecoder.decode .empty sampleGraph nbest none).2.isOk = true := by
  have hanswers : sampleDecoder.Answers sampleGraph :=
    fun _ path _ => ⟨_, rfl, fun m _ prev => ⟨_, rfl⟩⟩
  obtain ⟨lat, ts, h⟩ := hanswers.exists_decode hn (by decide +kernel) .empty none
  rw [h]
  rfl

theorem decode_beam_sample :
    ((1 : Int) ≤ 1 ∧ (1 : Int) ≤ 3) ∧
    (sampleDecoder.decode .empty sampleGraph 1 none).2.isOk = true ∧
    (sampleDecoder.decode .empty sampleGraph 3 none).2.isOk = true ∧
    (∀ lat ts, sampleDecoder.decode .empty sampleGraph 1 none = (lat, .ok ts) →
      (∀ p, (((lat.nodes p).mergeSort Node.rankLe).take 1).map Node.unnumbered
          = (((sampleDecoder.exhaustive sampleGraph none).layer p).mergeSort
              Node.rankLe).take 1 ∧
        (lat.hypotheses p 1).map Node.unnumbered
          = select 1 ((sampleDecoder.exhaustive sampleGraph none).layer p)) ∧
      ts.head? = (((sampleDecoder.exhaustive sampleGraph none).layer 5).mergeSort
        Node.rankLe).head?.map Node.transcription) ∧
    ∀ lat ts lat' ts', sampleDecoder.decode .empty sampleGraph 1 none = (lat, .ok ts) →
      sampleDecoder.decode .empty sampleGraph 3 none = (lat', .ok ts') →
      (∀ p, (((lat.nodes p).mergeSort Node.rankLe).take 1).map Node.unnumbered
        = (((lat'.nodes p).mergeSort Node.rankLe).take 1).map Node.unnumbered) ∧
      ts.head? = ts'.head? :=
  ⟨by decide, isOk_decode_sample (by decide), isOk_decode_sample (by decide),
    (decode_beam (by decide : (1 : Int) ≤ 1) (by decide : (1 : Int) ≤ 3) sampleDecoder sampleGraph
      none).2⟩

end Decoder

end Pinyin
