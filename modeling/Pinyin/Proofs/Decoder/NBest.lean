import Pinyin.Proofs.Decoder.Derivation
import Pinyin.Proofs.Lattice.NBest

/-!
# Pinyin.Proofs.Decoder.NBest

How the sentences of a decode compare with all sentences.  A decode selects nodes and only
then leaves out sentences whose words it has seen; nodes with the same words take each
other's places.

* `decode_nbest` — a decode returns the cheapest of the sentences that survive, and these are
  the cheapest of all exactly if they cover all others;
* `not_isNBest_sample` — a decode that misses a sentence;
* `isNBest_of_nodup` — where no two nodes of a state have the same words, none is missed.
-/

namespace Pinyin.Decoder

variable {σ R : Type} [DecidableEq σ] [Cost R]

/-- A derivation that ends with the text has these arcs and this score. -/
def IsSentence (d : Decoder σ R) (g : CutGraph) (state? : Option σ) (t : Transcription σ R) :
    Prop :=
  ∃ n, d.Derivation g state? n ∧ n.stop = g.size ∧ n.transcription = t

/-- A surviving derivation that ends with the text has these arcs and this score. -/
def IsSurvivor (d : Decoder σ R) (g : CutGraph) (state? : Option σ) (k : Nat)
    (t : Transcription σ R) : Prop :=
  ∃ n, d.Survives g state? k n ∧ n.stop = g.size ∧ n.transcription = t

theorem IsSurvivor.isSentence {d : Decoder σ R} {g : CutGraph} {state? : Option σ} {k : Nat}
    {t : Transcription σ R} (h : d.IsSurvivor g state? k t) : d.IsSentence g state? t := by
  obtain ⟨n, hn, hstop, ht⟩ := h
  exact ⟨n, hn.1, hstop, ht⟩

variable [OrderedCost R] {d : Decoder σ R} {g : CutGraph} {nbest : Int} {state? : Option σ}

/-! ## What a decode returns -/

/-- The sentences of a decode are the cheapest of the survivors. -/
theorem isNBest_sentences (hn : 1 ≤ nbest) (hok : d.NeverFails g state?) :
    IsNBest (d.IsSurvivor g state? nbest.toNat) nbest.toNat
      ((d.search g nbest state?).sentences nbest) := by
  have hsame : d.IsSurvivor g state? nbest.toNat
      = fun t => ∃ n ∈ (d.search g nbest state?).layer g.size, n.transcription = t := by
    funext t
    refine propext (exists_congr fun n => ?_)
    rw [mem_search_iff hn hok, and_assoc]
  have hmax : max 1 nbest = nbest := max_eq_right hn
  rw [hsame, Search.sentences, hmax]
  exact isNBest_of_ranked _ _

/-- A decode of the empty lattice that returns has no attempt on a derivation that fails. -/
theorem neverFails_of_decode (hn : 1 ≤ nbest) {lat : Lattice σ R}
    {ts : List (Transcription σ R)} (h : d.decode .empty g nbest state? = (lat, .ok ts)) :
    d.NeverFails g state? :=
  neverFails_iff.2 fun q => (unfailing_search_iff hn q).1 ((decode_empty h).1.unfailing q)

/-- **What a decode returns.**  It returns where no attempt on a derivation fails.  Then it
has the cheapest of the sentences that survive, and these are the cheapest of all exactly if
the survivors cover every sentence. -/
theorem decode_nbest (hn : 1 ≤ nbest) (hg : g.IsConnected) (d : Decoder σ R)
    (state? : Option σ) :
    ((∃ lat ts, d.decode .empty g nbest state? = (lat, .ok ts)) ↔ d.NeverFails g state?) ∧
    ∀ lat ts, d.decode .empty g nbest state? = (lat, .ok ts) →
      IsNBest (d.IsSurvivor g state? nbest.toNat) nbest.toNat ts ∧
      (IsNBest (d.IsSentence g state?) nbest.toNat ts ↔
        ∀ t, d.IsSentence g state? t →
          Covered (d.IsSurvivor g state? nbest.toNat) nbest.toNat t) := by
  refine ⟨?_, fun lat ts h => ?_⟩
  · rw [decode_empty_iff_exhaustive, neverFails_iff]
    simp only [hn, hg, and_self, true_and]
  · obtain ⟨-, rfl⟩ := decode_empty h
    have hbest := isNBest_sentences hn (neverFails_of_decode hn h)
    exact ⟨hbest, hbest.iff_covered fun t ht => ht.isSentence⟩

theorem decode_nbest_sample :
    (1 : Int) ≤ 3 ∧ sampleGraph.IsConnected ∧
    (sampleDecoder.decode .empty sampleGraph 3 none).2.isOk = true ∧
    ∀ lat ts, sampleDecoder.decode .empty sampleGraph 3 none = (lat, .ok ts) →
      IsNBest (sampleDecoder.IsSurvivor sampleGraph none 3) 3 ts ∧
      (IsNBest (sampleDecoder.IsSentence sampleGraph none) 3 ts ↔
        ∀ t, sampleDecoder.IsSentence sampleGraph none t →
          Covered (sampleDecoder.IsSurvivor sampleGraph none 3) 3 t) := by
  have hg : sampleGraph.IsConnected := by decide +kernel
  exact ⟨by decide, hg, isOk_decode_sample (by decide),
    (decode_nbest (by decide : (1 : Int) ≤ 3) hg sampleDecoder none).2⟩

/-- A decode that misses a sentence: of the three nodes for "ni" it selects the two with the
same word. -/
theorem not_isNBest_sample :
    ∃ lat ts, sampleDecoder.decode .empty sampleGraph 2 none = (lat, .ok ts) ∧
      ts.map Transcription.words = [["你", "好"]] ∧
      (∃ t, sampleDecoder.IsSentence sampleGraph none t ∧ t.words = ["泥", "好"]) ∧
      ¬ IsNBest (sampleDecoder.IsSentence sampleGraph none) 2 ts := by
  obtain ⟨hwide, hnarrow⟩ :
      (sampleDecoder.decode .empty sampleGraph 3 none).2.toOption.map (List.map Transcription.words)
        = some [["你", "好"], ["泥", "好"]] ∧
      (sampleDecoder.decode .empty sampleGraph 2 none).2.toOption.map (List.map Transcription.words)
        = some [["你", "好"]] := by
    simp only [decode, sweep_eq_foldl, Lattice.hypotheses, Lattice.transcriptions,
      Node.mergeSort_rankLe]
    decide +kernel
  obtain ⟨lat, ts, h, hwords⟩ := exists_ok_of_map_eq_some hnarrow
  obtain ⟨lat', ts', h', hwords'⟩ := exists_ok_of_map_eq_some hwide
  have hmissed : ∃ t, sampleDecoder.IsSentence sampleGraph none t ∧ t.words = ["泥", "好"] := by
    have hbest := isNBest_sentences (by decide : (1 : Int) ≤ 3)
      (neverFails_of_decode (by decide : (1 : Int) ≤ 3) h')
    rw [← (decode_empty h').2] at hbest
    have hmem : ["泥", "好"] ∈ ts'.map Transcription.words := by
      rw [hwords']
      decide
    obtain ⟨t, ht, hlast⟩ := List.mem_map.1 hmem
    exact ⟨t, (hbest.found t ht).isSentence, hlast⟩
  refine ⟨lat, ts, h, hwords, hmissed, fun hbest => ?_⟩
  obtain ⟨t, ht, hlast⟩ := hmissed
  have hlen := congrArg List.length hwords
  rw [List.length_map] at hlen
  rcases hbest.complete t ht with hmem | ⟨hfull, -⟩
  · rw [hwords, hlast] at hmem
    exact absurd hmem (by decide)
  · rw [hlen] at hfull
    exact absurd hfull (by decide)

/-! ## Nodes with different words -/

omit [DecidableEq σ] [OrderedCost R] in
theorem words_linked (arc : Arc σ R) (cost? : Option R) (n : Node σ R) :
    (linked arc cost? n).transcription.words
      = n.transcription.words ++ [arc.word].filter fun w => w != "" := by
  simp [linked, Node.transcription, Transcription.words, Node.arcs]

/-- What a move to the end makes of a selected node survives. -/
theorem isSurvivor_of_select (hn : 1 ≤ nbest) (hok : d.NeverFails g state?) {p : Nat}
    (hp : p < g.size) {mv : Move} (hmv : mv ∈ (d.exhaustive g state?).movesTo p g.size)
    {m n : Node σ R} (hm : m ∈ select nbest.toNat ((d.exhaustive g state?).layer p))
    (hnode : mv.node d m = some n) : d.IsSurvivor g state? nbest.toNat n.transcription := by
  have hlayer : n ∈ (d.search g nbest state?).layer g.size := by
    refine (Search.mem_layer_of_pos (Nat.zero_lt_of_lt hp)).2 ⟨p, hp, mv, hmv, m, ?_, hnode⟩
    rwa [pick_layer hn]
  obtain ⟨hsurvives, hstop⟩ := (mem_search_iff hn hok).1 hlayer
  exact ⟨n, hsurvives, hstop, rfl⟩

omit [OrderedCost R] in
/-- A sentence is the start alone, in an empty text, or a move to the end makes it. -/
theorem exists_move_of_derivation (hok : d.NeverFails g state?) {n : Node σ R}
    (hn : d.Derivation g state? n) (hstop : n.stop = g.size) :
    n = .start (state?.getD d.model.start) ∨
      ∃ p < g.size, ∃ mv ∈ (d.exhaustive g state?).movesTo p g.size,
        ∃ prev ∈ (d.exhaustive g state?).layer p, mv.node d prev = some n := by
  have hfound := (mem_exhaustive_iff hok).2 ⟨hn, hstop⟩
  by_cases hsize : g.size = 0
  · rw [hsize, Search.layer_zero, List.mem_singleton] at hfound
    exact .inl hfound
  · obtain ⟨p, hp, mv, hmv, prev, hprev, hnode⟩ :=
      (Search.mem_layer_of_pos (Nat.pos_of_ne_zero hsize)).1 hfound
    exact .inr ⟨p, hp, mv, hmv, prev, mem_arrange.1 hprev, hnode⟩

/-- Where no two nodes of a state at a position have the same words, each sentence is covered:
if it does not survive, by the rivals of the node that it extends. -/
theorem covered_of_nodup (hn : 1 ≤ nbest) (hok : d.NeverFails g state?)
    (hnodup : ∀ p s, ((((d.exhaustive g state?).layer p).filter fun n => n.state = s).map
      fun n => n.transcription.words).Nodup)
    {t : Transcription σ R} (ht : d.IsSentence g state? t) :
    Covered (d.IsSurvivor g state? nbest.toNat) nbest.toNat t := by
  have hasymm : ¬ t.score < t.score := fun h => OrderedCost.asymm _ _ h h
  obtain ⟨n, hderived, hstop, rfl⟩ := ht
  rcases exists_move_of_derivation hok hderived hstop with
    rfl | ⟨p, hp, mv, hmv, prev, hprev, hnode⟩
  · exact .inl ⟨_, ⟨_, ⟨hderived, nofun⟩, hstop, rfl⟩, rfl, hasymm⟩
  by_cases hselected : prev ∈ select nbest.toNat ((d.exhaustive g state?).layer p)
  · exact .inl ⟨_, isSurvivor_of_select hn hok hp hmv hselected hnode, rfl, hasymm⟩
  right
  obtain ⟨arc, cost?, hout, rfl⟩ := Move.node_eq_some_iff.1 hnode
  obtain ⟨ms, hlen, hwords, hms⟩ := exists_rivals hprev hselected (hnodup p prev.state)
  refine ⟨ms.map fun m => (linked arc cost? m).transcription, ?_, ?_, ?_⟩
  · rw [List.length_map, hlen]
  · have hmap : (ms.map fun m => (linked arc cost? m).transcription).map Transcription.words
        = (ms.map fun m => m.transcription.words).map
            fun ws => ws ++ [arc.word].filter fun w => w != "" := by
      simp only [List.map_map, Function.comp_def, words_linked]
    rw [hmap]
    exact hwords.map (List.append_left_injective _)
  · intro u hu
    obtain ⟨m, hm, rfl⟩ := List.mem_map.1 hu
    obtain ⟨hbest, hstate, hle⟩ := hms m hm
    have hmade : mv.node d m = some (linked arc cost? m) :=
      Move.node_eq_some_iff.2 ⟨arc, cost?, by rw [hstate]; exact hout, rfl⟩
    exact ⟨isSurvivor_of_select hn hok hp hmv hbest hmade, not_raise_lt hle cost?⟩

/-- **A decode misses no sentence** where no two nodes of a state at a position have the same
words. -/
theorem isNBest_of_nodup {lat : Lattice σ R} {ts : List (Transcription σ R)}
    (hnodup : ∀ p s, ((((d.exhaustive g state?).layer p).filter fun n => n.state = s).map
      fun n => n.transcription.words).Nodup)
    (h : d.decode .empty g nbest state? = (lat, .ok ts)) :
    IsNBest (d.IsSentence g state?) nbest.toNat ts := by
  have hn := (asked_of_decode h).1
  have hok := neverFails_of_decode hn h
  rw [(decode_empty h).2]
  refine ((isNBest_sentences hn hok).iff_covered fun t ht => ht.isSentence).2 fun t ht => ?_
  exact covered_of_nodup hn hok hnodup ht

end Pinyin.Decoder
