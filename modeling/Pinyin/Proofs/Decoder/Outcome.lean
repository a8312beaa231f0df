import Pinyin.Proofs.Decoder.Sweep

/-!
# Pinyin.Proofs.Decoder.Outcome

What a decode leaves behind.

* `Search.Holds` — a lattice holds all that a search finds, and nothing else;
* `decode_of_isTrim` — a decode that starts from a trim lattice comes to this;
* `isTrim_of_nodes_eq` — no other decode does;
* `Answers`, `Answers.exists_decode` — where the dictionary and the model answer, every decode
  returns;
* `decode_empty_iff` — when a decode of the empty lattice returns.
-/

namespace Pinyin

variable {σ R : Type}

namespace Search

variable [Cost R] {S : Search σ R}

/-- A lattice holds all that a search finds, and nothing else; no move fails in it. -/
structure Holds (S : Search σ R) (lat : Lattice σ R) : Prop where
  ascending : lat.Ascending
  nodes_eq : ∀ q, lat.unnumberedNodes q = S.layer q
  unfailing : ∀ q, S.Unfailing q

/-- The sentences of a search: those at the end of the text, the best ones first. -/
def sentences (S : Search σ R) (nbest : Int) : List (Transcription σ R) :=
  (distinctBy Transcription.words []
    (((S.layer S.graph.size).mergeSort Node.rankLe).map Node.transcription)).take
      (max 1 nbest).toNat

/-- No move fails at all if none fails to the positions before the frontier, and none that
leads to the frontier or beyond it. -/
theorem unfailing_iff {frontier : Nat} :
    (∀ q, S.Unfailing q) ↔
      (∀ q, 0 < q → q < frontier → S.Unfailing q) ∧
        ∀ p < S.graph.size, ¬ S.FailsFrom frontier p := by
  constructor
  · intro h
    refine ⟨fun q _ _ => h q, ?_⟩
    rintro p - ⟨mv, hmv, -, n, hn, hfail⟩
    have hlt := Decoder.lt_stop_of_mem_movesFrom hmv
    exact h mv.stop p hlt.1 mv (Decoder.mem_movesTo.2 ⟨hmv, rfl⟩) n hn hfail
  · rintro ⟨hkept, hbuilt⟩ q p hp mv hmv n hn hfail
    obtain ⟨hmem, rfl⟩ := Decoder.mem_movesTo.1 hmv
    have hlt := Decoder.lt_stop_of_mem_movesFrom hmem
    by_cases hq : mv.stop < frontier
    · exact hkept mv.stop (by omega) hq p hp mv hmv n hn hfail
    · exact hbuilt p (by omega) ⟨mv, hmem, by omega, n, hn, hfail⟩

end Search

namespace Decoder

variable [DecidableEq σ] [Cost R]

/-! ## Decodes -/

omit [DecidableEq σ] [Cost R] in
theorem exists_ok_of_map_eq_some {x : Lattice σ R × Except Error α} {f : α → β} {b : β}
    (h : x.2.toOption.map f = some b) : ∃ lat a, x = (lat, .ok a) ∧ f a = b := by
  obtain ⟨lat, _ | a⟩ := x
  · cases h
  · exact ⟨lat, a, rfl, Option.some.inj h⟩

/-- A decode of a connected graph is a sweep over all positions. -/
theorem decode_eq {d : Decoder σ R} {g : CutGraph} {nbest : Int} (hn : 1 ≤ nbest)
    (hg : g.IsConnected) (lat : Lattice σ R) (state? : Option σ) :
    d.decode lat g nbest state?
      = match d.sweep g (g.pathCount == 1) nbest.toNat (d.ready lat g nbest state?).frontier
            (d.ready lat g nbest state?) (List.range' 0 g.size) with
        | (lat, .error e) => (lat, .error e)
        | (lat, .ok ()) =>
          ({ lat with frontier := g.size + 1 },
            .ok ({ lat with frontier := g.size + 1 }.transcriptions g.size nbest)) := by
  rw [decode, if_neg (by omega), if_neg (not_not_intro hg), List.range_eq_range']
  rfl

/-- A decode returns on connected graphs only, and only where sentences are asked for. -/
theorem asked_of_decode {d : Decoder σ R} {g : CutGraph} {nbest : Int} {lat lat' : Lattice σ R}
    {state? : Option σ} {ts : List (Transcription σ R)}
    (h : d.decode lat g nbest state? = (lat', .ok ts)) : 1 ≤ nbest ∧ g.IsConnected := by
  unfold decode at h
  split at h
  · cases h
  · split at h
    · cases h
    · next hn hg => exact ⟨by omega, not_not.1 hg⟩

/-- What a decode returns are the sentences at the end of the text. -/
theorem transcriptions_of_decode {d : Decoder σ R} {g : CutGraph} {nbest : Int}
    {lat lat' : Lattice σ R} {state? : Option σ} {ts : List (Transcription σ R)}
    (h : d.decode lat g nbest state? = (lat', .ok ts)) : ts = lat'.transcriptions g.size nbest := by
  obtain ⟨hn, hg⟩ := asked_of_decode h
  rw [decode_eq hn hg] at h
  split at h <;> cases h
  rfl

section

variable {d : Decoder σ R} {g : CutGraph} {nbest : Int} {state? : Option σ} {lat : Lattice σ R}

/-- A decode is refused and changes nothing, or it extends the lattice that was made ready
and fails or returns. -/
theorem decode_cases (d : Decoder σ R) (g : CutGraph) (nbest : Int) (state? : Option σ)
    (lat : Lattice σ R) :
    ((nbest < 1 ∨ ¬ g.IsConnected) ∧ ∃ e, d.decode lat g nbest state? = (lat, .error e)) ∨
    ((1 ≤ nbest ∧ g.IsConnected) ∧ ∃ lat',
      (d.ready lat g nbest state?).Grows (max 1 (d.ready lat g nbest state?).frontier) lat' ∧
      ((∃ e, d.decode lat g nbest state? = (lat', .error e)) ∨
        ∃ ts, d.decode lat g nbest state? = ({ lat' with frontier := g.size + 1 }, .ok ts))) := by
  by_cases hn : nbest < 1
  · exact .inl ⟨.inl hn, .nbestTooSmall, by rw [decode, if_pos hn]⟩
  by_cases hg : g.IsConnected
  case neg => exact .inl ⟨.inr hg, .disconnected g.text, by rw [decode, if_neg hn, if_pos hg]⟩
  have hgrows := grows_sweep d g nbest state? (d.ready lat g nbest state?).frontier
    (d.ready lat g nbest state?) (List.range' 0 g.size)
  refine .inr ⟨⟨by omega, hg⟩, _, hgrows, ?_⟩
  rw [decode_eq (by omega) hg]
  split
  · next heq => exact .inl ⟨_, by rw [heq]⟩
  · next heq => exact .inr ⟨_, by rw [heq]⟩

/-- What a decode does with a lattice that holds before its frontier what the search would
find there: it sweeps all positions, or a move fails. -/
theorem decode_spec {limit : Nat} (hask : 1 ≤ nbest ∧ g.IsConnected)
    (hkeeps : (d.search g nbest state?).Keeps (d.ready lat g nbest state?))
    (hclear : (d.ready lat g nbest state?).ClearBefore limit) :
    (∃ lat', d.decode lat g nbest state?
        = ({ lat' with frontier := g.size + 1 }, .ok (lat'.transcriptions g.size nbest)) ∧
      (d.search g nbest state?).Swept (d.ready lat g nbest state?) limit g.size lat' ∧
      ∀ p < g.size, p < limit →
        ¬ (d.search g nbest state?).FailsFrom (d.ready lat g nbest state?).frontier p) ∨
    (∃ lat' e, d.decode lat g nbest state? = (lat', .error e) ∧
      ∃ p < g.size, p < limit →
        (d.search g nbest state?).FailsFrom (d.ready lat g nbest state?).frontier p) := by
  rw [decode_eq hask.1 hask.2]
  rcases sweep_spec hclear (hkeeps.swept limit) g.size with
    ⟨lat', heq, hswept, hok⟩ | ⟨lat', e, heq, p, -, hp, hfail⟩
  · rw [heq]
    rw [Nat.zero_add] at hswept hok
    exact .inl ⟨lat', rfl, hswept, fun p => hok p (Nat.zero_le p)⟩
  · rw [heq]
    exact .inr ⟨lat', e, rfl, p, by omega, hfail⟩

/-- Where a decode finds a lattice clear up to a position, it puts the layer there after
what it finds. -/
theorem nodes_of_decode {lat' : Lattice σ R} {ts : List (Transcription σ R)} {q : Nat}
    (hkeeps : (d.search g nbest state?).Keeps (d.ready lat g nbest state?))
    (h : d.decode lat g nbest state? = (lat', .ok ts))
    (hclear : (d.ready lat g nbest state?).ClearBefore q) (hpos : 0 < q)
    (hq : (d.ready lat g nbest state?).frontier ≤ q) :
    lat'.unnumberedNodes q
      = (d.ready lat g nbest state?).unnumberedNodes q ++ (d.search g nbest state?).layer q := by
  rcases decode_spec (asked_of_decode h) hkeeps hclear with
    ⟨lat₁, heq, hswept, -⟩ | ⟨lat₁, e, heq, -⟩
  · rw [h, Prod.mk.injEq] at heq
    have hbuilt := hswept.built q (Nat.le_refl q) hpos hq
    have hlayer : (d.search g nbest state?).layerUpTo g.size q
        = (d.search g nbest state?).layer q := Search.layerUpTo_size hpos
    rw [hlayer] at hbuilt
    rw [heq.1]
    exact hbuilt
  · rw [h] at heq
    cases heq

/-- **A decode that starts from a trim lattice** comes to what its search finds. -/
theorem decode_of_isTrim {lat' : Lattice σ R} {ts : List (Transcription σ R)}
    (hkeeps : (d.search g nbest state?).Keeps (d.ready lat g nbest state?))
    (htrim : (d.ready lat g nbest state?).IsTrim)
    (h : d.decode lat g nbest state? = (lat', .ok ts)) :
    (d.search g nbest state?).Holds lat' ∧ ts = (d.search g nbest state?).sentences nbest := by
  rcases decode_spec (asked_of_decode h) hkeeps (htrim.clearBefore g.size) with
    ⟨lat₁, heq, hswept, hok⟩ | ⟨lat₁, e, heq, -⟩
  case inr =>
    rw [h] at heq
    cases heq
  rw [h, Prod.mk.injEq, Except.ok.injEq] at heq
  obtain ⟨rfl, rfl⟩ := heq
  have hnodes : ∀ q, lat₁.unnumberedNodes q = (d.search g nbest state?).layer q := by
    intro q
    by_cases hkept : q = 0 ∨ q < (d.ready lat g nbest state?).frontier
    · exact hswept.kept q hkept
    · have hbuilt := nodes_of_decode hkeeps h (htrim.clearBefore q) (by omega) (by omega)
      rwa [Lattice.unnumberedNodes_eq_nil.2 (htrim q (by omega) (by omega))] at hbuilt
  refine ⟨⟨⟨hswept.ascending.pairwise, hswept.ascending.lt_counter⟩, hnodes, ?_⟩, ?_⟩
  · exact Search.unfailing_iff.2
      ⟨fun q hpos hq => (hkeeps.layers q hpos hq).2, fun p hp => hok p hp hp⟩
  · rw [Lattice.transcriptions_eq hswept.ascending, hnodes]
    rfl

/-- A decode that starts from a trim lattice returns where no move of the search fails. -/
theorem exists_decode_of_isTrim (hask : 1 ≤ nbest ∧ g.IsConnected)
    (hkeeps : (d.search g nbest state?).Keeps (d.ready lat g nbest state?))
    (htrim : (d.ready lat g nbest state?).IsTrim)
    (hok : ∀ q, (d.search g nbest state?).Unfailing q) :
    ∃ lat' ts, d.decode lat g nbest state? = (lat', .ok ts) := by
  rcases decode_spec hask hkeeps (htrim.clearBefore g.size) with
    ⟨lat', heq, -⟩ | ⟨lat', e, -, p, hp, hfail⟩
  · exact ⟨_, _, heq⟩
  · exact ((Search.unfailing_iff.1 hok).2 p hp (hfail hp)).elim

/-- A decode that leaves what its search finds started from a trim lattice. -/
theorem isTrim_of_nodes_eq {lat' : Lattice σ R} {ts : List (Transcription σ R)}
    (hkeeps : (d.search g nbest state?).Keeps (d.ready lat g nbest state?))
    (h : d.decode lat g nbest state? = (lat', .ok ts))
    (hnodes : ∀ q, lat'.unnumberedNodes q = (d.search g nbest state?).layer q) :
    (d.ready lat g nbest state?).IsTrim := by
  intro q
  induction q using Nat.strongRecOn with
  | ind q ih =>
      intro hpos hq
      -- What is left over at the first such position would stand before its layer.
      have hclear : (d.ready lat g nbest state?).ClearBefore q :=
        fun r hr hfront hlt => ih r hlt hr hfront
      have hbuilt := nodes_of_decode hkeeps h hclear hpos hq
      rw [hnodes, List.self_eq_append_left] at hbuilt
      exact Lattice.unnumberedNodes_eq_nil.1 hbuilt

end

/-! ## Decoders that answer -/

section

omit [DecidableEq σ] in
/-- The dictionary answers on every span of a graph, and the model on the words that it finds there
and on the text of the span. -/
def Answers (d : Decoder σ R) (g : CutGraph) : Prop :=
  ∀ p, ∀ path ∈ g.spans d.maxSyllables p, ∃ found, d.dictionary g path = .ok found ∧
    ∀ m ∈ rawMatch g path :: found.map (withCode g path), ∀ prev : Node σ R,
      ∃ cost, d.wordCost m prev = .ok cost

variable {d : Decoder σ R} {g : CutGraph}

omit [DecidableEq σ] in
/-- Then no move fails. -/
theorem Answers.not_failsIn (h : d.Answers g) {singlePath : Bool} {p : Nat} {mv : Move}
    (hmv : mv ∈ d.movesFrom g singlePath p) (s : σ) : ¬ mv.FailsIn d s := by
  rintro ⟨e, he⟩
  rcases mem_movesFrom_cases hmv with ⟨-, q, -, rfl⟩ | ⟨path, hpath, hmv⟩
  · cases he
  obtain ⟨found, hfound, hcosts⟩ := h p path hpath
  rcases mem_movesOn_cases hmv with ⟨found', hfound', m, hm, forced, rfl⟩ | ⟨e', herror, rfl⟩
  · rw [hfound, Except.ok.injEq] at hfound'
    obtain ⟨cost, hcost⟩ := hcosts m (hfound' ▸ hm) (.start s)
    simp only [Move.outcome, hcost] at he
    split at he <;> cases he
  · rw [hfound] at herror
    cases herror

/-- Then a sweep comes to its end. -/
theorem Answers.exists_sweep (h : d.Answers g) (singlePath : Bool) (k frontier : Nat)
    (lat : Lattice σ R) (positions : List Nat) :
    ∃ lat', d.sweep g singlePath k frontier lat positions = (lat', .ok ()) := by
  induction positions generalizing lat with
  | nil => exact ⟨lat, rfl⟩
  | cons p positions ih =>
      obtain ⟨lat', hstep⟩ : ∃ lat', absorb lat (if (lat.hypotheses p k).isEmpty then []
          else d.attemptsAt g singlePath frontier (lat.hypotheses p k) p) = (lat', .ok ()) := by
        by_cases hnil : lat.hypotheses p k = []
        · exact ⟨lat, by rw [hnil]; rfl⟩
        · rw [if_neg (by simpa using hnil), absorb_attemptsAt hnil]
          obtain ⟨lat', heq, -⟩ := unnumberedNodes_absorb_tryAll
            (fun mv hmv n _ => h.not_failsIn (List.mem_filter.1 hmv).1 n.state) lat
          exact ⟨lat', heq⟩
      obtain ⟨lat'', hrest⟩ := ih lat'
      exact ⟨lat'', by rw [sweep]; simp only [hstep, hrest]⟩

/-- **Then every decode of a connected graph returns**, whatever its lattice holds. -/
theorem Answers.exists_decode {nbest : Int} (h : d.Answers g) (hn : 1 ≤ nbest)
    (hg : g.IsConnected) (lat : Lattice σ R) (state? : Option σ) :
    ∃ lat' ts, d.decode lat g nbest state? = (lat', .ok ts) := by
  obtain ⟨lat', hsweep⟩ := h.exists_sweep (g.pathCount == 1) nbest.toNat
    (d.ready lat g nbest state?).frontier (d.ready lat g nbest state?) (List.range' 0 g.size)
  rw [decode_eq hn hg, hsweep]
  exact ⟨_, _, rfl⟩

end

/-! ## Decodes of the empty lattice -/

omit [Cost R] in
/-- The empty lattice is made ready with its start only. -/
theorem nodes_ready_empty (d : Decoder σ R) (g : CutGraph) (nbest : Int) (state? : Option σ)
    (q : Nat) :
    (d.ready .empty g nbest state?).nodes q
      = if q = 0 then [.start (state?.getD d.model.start)] else [] := by
  have hlog : (d.ready .empty g nbest state?).log = #[.start (state?.getD d.model.start)] := by
    have hpurpose : (Lattice.empty : Lattice σ R).purpose
        ≠ some ⟨nbest.toNat, state?.getD d.model.start⟩ := nofun
    rw [ready, Lattice.prepare, if_neg fun h => hpurpose h.1]
    rfl
  rw [Lattice.nodes, hlog]
  by_cases hq : q = 0
  · simp [Node.stop, hq]
  · simp [Node.stop, hq, Ne.symm hq]

theorem keeps_ready_empty (d : Decoder σ R) (g : CutGraph) (nbest : Int) (state? : Option σ) :
    (d.search g nbest state?).Keeps (d.ready .empty g nbest state?) where
  ascending := (Lattice.Ascending.empty.prepare _).settle _
  start := by
    rw [Lattice.unnumberedNodes, nodes_ready_empty, if_pos rfl, Search.layer_zero]
    rfl
  layers := by
    intro q _ hq
    cases hq

omit [Cost R] in
theorem isTrim_ready_empty (d : Decoder σ R) (g : CutGraph) (nbest : Int) (state? : Option σ) :
    (d.ready .empty g nbest state?).IsTrim := by
  intro q hpos _
  rw [nodes_ready_empty, if_neg (by omega)]

variable {d : Decoder σ R} {g : CutGraph} {nbest : Int} {state? : Option σ}

/-- A decode of the empty lattice holds what its search finds. -/
theorem decode_empty {lat : Lattice σ R} {ts : List (Transcription σ R)}
    (h : d.decode .empty g nbest state? = (lat, .ok ts)) :
    (d.search g nbest state?).Holds lat ∧ ts = (d.search g nbest state?).sentences nbest :=
  decode_of_isTrim (keeps_ready_empty d g nbest state?) (isTrim_ready_empty d g nbest state?) h

/-- **A decode of the empty lattice returns** exactly if it is asked for sentences of a
connected graph and no move of its search fails. -/
theorem decode_empty_iff :
    (∃ lat ts, d.decode .empty g nbest state? = (lat, .ok ts)) ↔
      (1 ≤ nbest ∧ g.IsConnected) ∧ ∀ q, (d.search g nbest state?).Unfailing q := by
  constructor
  · rintro ⟨lat, ts, h⟩
    exact ⟨asked_of_decode h, (decode_empty h).1.unfailing⟩
  · rintro ⟨hask, hok⟩
    exact exists_decode_of_isTrim hask (keeps_ready_empty d g nbest state?)
      (isTrim_ready_empty d g nbest state?) hok

end Decoder

end Pinyin
