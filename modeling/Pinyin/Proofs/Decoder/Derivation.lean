import Pinyin.Proofs.Decoder.Beam

/-!
# Pinyin.Proofs.Decoder.Derivation

What a search could build if it left out nothing, in terms of its attempts.

* `Decoder.Derivation` — a chain of nodes, each made by an attempt on the one before;
* `neverFails_iff` — no attempt on a derivation fails where the exhaustive search does not;
* `mem_exhaustive_iff` — the exhaustive search finds the derivations;
* `mem_search_iff` — a decode finds those whose last link extends a node that it selects.
-/

namespace Pinyin

variable {σ R : Type} [Cost R]

/-! ## Attempts without failures -/

namespace Move

variable {d : Decoder σ R} {mv : Move} {prev : Node σ R}

theorem node_of_attempt {draft : Draft σ R} (h : mv.attempt d prev = .ok (some draft)) :
    mv.node d prev = some draft.node := by
  unfold attempt at h
  split at h
  · cases h
  · cases h
  · next hout =>
    rw [Except.ok.injEq, Option.some.injEq] at h
    rw [node, hout, ← h]
    rfl

theorem exists_attempt_of_node {n : Node σ R} (h : mv.node d prev = some n) :
    ∃ draft, mv.attempt d prev = .ok (some draft) ∧ draft.node = n := by
  obtain ⟨arc, cost?, hout, rfl⟩ := node_eq_some_iff.1 h
  exact ⟨⟨prev, arc, raise prev.score cost?⟩, by rw [attempt, hout], rfl⟩

end Move

namespace Decoder

/-- Where no move fails, the extensions at a position are those of its moves. -/
theorem attemptsAt_eq {d : Decoder σ R} {g : CutGraph} {singlePath : Bool}
    {hyps : List (Node σ R)} {p : Nat} (hne : hyps ≠ [])
    (hok : ∀ e, .error e ∉ d.tryAll (d.movesFrom g singlePath p) hyps) :
    d.attemptsAt g singlePath 0 hyps p = d.tryAll (d.movesFrom g singlePath p) hyps := by
  have hspan : ∀ path ∈ g.spans d.maxSyllables p,
      d.spanAttempts g singlePath hyps path = d.tryAll (d.movesOn g singlePath path) hyps := by
    intro path hpath
    have hpart : ∀ e, .error e ∉ d.tryAll (d.movesOn g singlePath path) hyps := by
      intro e he
      refine hok e ?_
      rw [movesFrom, tryAll_append]
      obtain ⟨mv, hmv, he⟩ := List.mem_flatMap.1 he
      exact List.mem_append_right _ (List.mem_flatMap.2
        ⟨mv, List.mem_flatMap.2 ⟨path, hpath, hmv⟩, he⟩)
    cases hfound : d.dictionary g path with
    | error e =>
        obtain ⟨prev, rest, rfl⟩ := List.exists_cons_of_ne_nil hne
        refine (hpart e ?_).elim
        simp [movesOn, tryAll, hfound, Move.attempt, Move.outcome]
    | ok found =>
        refine spanAttempts_eq hne hfound fun e he => hpart e ?_
        rw [← tryAll_words d g path singlePath found hyps] at he
        unfold movesOn
        rw [hfound]
        simp only
        split
        · exact he
        · rw [tryAll_append]
          exact List.mem_append_left _ he
  have hspans : (g.spans d.maxSyllables p).flatMap (d.spanAttempts g singlePath hyps)
      = d.tryAll ((g.spans d.maxSyllables p).flatMap (d.movesOn g singlePath)) hyps := by
    unfold tryAll
    rw [List.flatMap_assoc]
    exact List.flatMap_congr hspan
  rw [attemptsAt, movesFrom, tryAll_append, ← hspans]
  by_cases hsep : g.IsSeparator p
  · simp [hsep, tryAll_separators]
  · simp [hsep, tryAll]

/-- An extension at a position fails exactly if a move does. -/
theorem error_mem_attemptsAt_iff {d : Decoder σ R} {g : CutGraph} {singlePath : Bool}
    {hyps : List (Node σ R)} {p : Nat} (hne : hyps ≠ []) :
    (∃ e, .error e ∈ d.attemptsAt g singlePath 0 hyps p) ↔
      ∃ e, .error e ∈ d.tryAll (d.movesFrom g singlePath p) hyps := by
  have hreports : ∀ xs : List (Attempt σ R),
      (∃ e, .error e ∈ xs) ↔ (absorb Lattice.empty xs).2.isOk = false := by
    intro xs
    constructor
    · rintro ⟨e, he⟩
      obtain ⟨lat, e', heq⟩ := absorb_of_error he Lattice.empty
      rw [heq]
      rfl
    · intro hres
      by_contra hnone
      rw [absorb_of_ok fun e he => hnone ⟨e, he⟩] at hres
      cases hres
  have hall : ((d.movesFrom g singlePath p).filter fun mv => 0 ≤ mv.stop)
      = d.movesFrom g singlePath p := by simp
  rw [hreports, hreports, absorb_attemptsAt hne, hall]

/-! ## Derivations -/

variable [DecidableEq σ]

/-- A chain of nodes, without numbers, of which each extends the one before by an attempt. -/
inductive Derivation (d : Decoder σ R) (g : CutGraph) (state? : Option σ) : Node σ R → Prop where
  | start : Derivation d g state? (.start (state?.getD d.model.start))
  | link {prev : Node σ R} {draft : Draft σ R} (h : Derivation d g state? prev)
      (hdraft : .ok (some draft) ∈ d.attemptsAt g (g.pathCount == 1) 0 [prev] prev.stop) :
      Derivation d g state? draft.node

/-- No attempt on a derivation fails. -/
def NeverFails (d : Decoder σ R) (g : CutGraph) (state? : Option σ) : Prop :=
  ∀ n, d.Derivation g state? n →
    ∀ e, .error e ∉ d.attemptsAt g (g.pathCount == 1) 0 [n] n.stop

/-- A derivation whose last link, if it has one, extends a node that is among the best `k` of
its state, of all that end where it does. -/
def Survives (d : Decoder σ R) (g : CutGraph) (state? : Option σ) (k : Nat) (n : Node σ R) :
    Prop :=
  d.Derivation g state? n ∧
    ∀ prev, n.prev? = some prev → prev ∈ select k ((d.exhaustive g state?).layer prev.stop)

section

variable {d : Decoder σ R} {g : CutGraph} {state? : Option σ} {n : Node σ R}

omit [DecidableEq σ] in
theorem Derivation.unnumbered_eq (h : d.Derivation g state? n) : n.unnumbered = n := by
  cases h with
  | start => rfl
  | link _ _ => simp [Draft.node, Node.unnumbered]

/-- Where the exhaustive search does not fail, no attempt on what it finds does. -/
theorem not_error_of_unfailing (hok : ∀ q, (d.exhaustive g state?).Unfailing q)
    (hn : n ∈ (d.exhaustive g state?).layer n.stop) (e : Error) :
    .error e ∉ d.tryAll (d.movesFrom g (g.pathCount == 1) n.stop) [n] := by
  intro he
  obtain ⟨mv, hmv, m, hm, hfail⟩ := error_mem_tryAll_iff.1 ⟨e, he⟩
  rw [List.mem_singleton.1 hm] at hfail
  exact hok mv.stop n.stop (lt_stop_of_mem_movesFrom hmv).1 mv (mem_movesTo.2 ⟨hmv, rfl⟩) n
    (mem_arrange.2 hn) hfail

/-- The exhaustive search finds all derivations. -/
theorem mem_exhaustive_of_derivation (hok : ∀ q, (d.exhaustive g state?).Unfailing q)
    (h : d.Derivation g state? n) : n ∈ (d.exhaustive g state?).layer n.stop := by
  induction h with
  | start => exact (Search.layer_zero (d.exhaustive g state?)).symm ▸ List.mem_singleton_self _
  | @link prev draft h hdraft ih =>
      rw [attemptsAt_eq (List.cons_ne_nil prev []) (not_error_of_unfailing hok ih)] at hdraft
      obtain ⟨mv, hmv, hattempt⟩ := List.mem_flatMap.1 hdraft
      rw [List.map_singleton, List.mem_singleton] at hattempt
      have hnode := Move.node_of_attempt hattempt.symm
      have hlt := lt_stop_of_mem_movesFrom hmv
      rw [Move.stop_of_node hnode]
      refine (Search.mem_layer_of_pos (Nat.zero_lt_of_lt hlt.1)).2
        ⟨prev.stop, hlt.1, mv, mem_movesTo.2 ⟨hmv, rfl⟩, prev, ?_, hnode⟩
      exact mem_arrange.2 ih

/-- The exhaustive search finds nothing else, and does not fail if no attempt does. -/
theorem exhaustive_of_neverFails (hok : d.NeverFails g state?) (q : Nat) :
    (∀ n ∈ (d.exhaustive g state?).layer q, d.Derivation g state? n) ∧
      (d.exhaustive g state?).Unfailing q := by
  induction q using Nat.strongRecOn with
  | ind q ih =>
      have hnone : ∀ p < q, ∀ n ∈ (d.exhaustive g state?).layer p,
          ∀ e, .error e ∉ d.tryAll (d.movesFrom g (g.pathCount == 1) p) [n] := by
        intro p hp n hn e he
        obtain ⟨e', he'⟩ := (error_mem_attemptsAt_iff (List.cons_ne_nil n [])).2 ⟨e, he⟩
        refine hok n ((ih p hp).1 n hn) e' ?_
        rwa [Search.stop_of_mem_layer hn]
      constructor
      · intro n hn
        by_cases hq : q = 0
        · rw [hq, Search.layer_zero, List.mem_singleton] at hn
          rw [hn]
          exact .start
        · obtain ⟨p, hp, mv, hmv, prev, hprev, hnode⟩ :=
            (Search.mem_layer_of_pos (Nat.pos_of_ne_zero hq)).1 hn
          have hmem := mem_arrange.1 hprev
          obtain ⟨draft, hattempt, rfl⟩ := Move.exists_attempt_of_node hnode
          refine ((ih p hp).1 prev hmem).link ?_
          rw [Search.stop_of_mem_layer hmem,
            attemptsAt_eq (List.cons_ne_nil prev []) (hnone p hp prev hmem)]
          exact List.mem_flatMap.2 ⟨mv, (mem_movesTo.1 hmv).1, List.mem_singleton.2 hattempt.symm⟩
      · intro p hp mv hmv n hn hfail
        obtain ⟨e, he⟩ := error_mem_tryAll_iff.2 ⟨mv, (mem_movesTo.1 hmv).1, n,
          List.mem_singleton_self n, hfail⟩
        exact hnone p hp n (mem_arrange.1 hn) e he

/-- No attempt on a derivation fails exactly if the exhaustive search does not. -/
theorem neverFails_iff : d.NeverFails g state? ↔ ∀ q, (d.exhaustive g state?).Unfailing q := by
  constructor
  · exact fun hok q => (exhaustive_of_neverFails hok q).2
  · intro hok n hn e he
    have hmem := mem_exhaustive_of_derivation hok hn
    obtain ⟨e', he'⟩ := (error_mem_attemptsAt_iff (List.cons_ne_nil n [])).1 ⟨e, he⟩
    exact not_error_of_unfailing hok hmem e' he'

/-- **The exhaustive search finds the derivations.** -/
theorem mem_exhaustive_iff (hok : d.NeverFails g state?) {q : Nat} :
    n ∈ (d.exhaustive g state?).layer q ↔ d.Derivation g state? n ∧ n.stop = q := by
  constructor
  · intro hn
    exact ⟨(exhaustive_of_neverFails hok q).1 n hn, Search.stop_of_mem_layer hn⟩
  · rintro ⟨hn, rfl⟩
    exact mem_exhaustive_of_derivation (neverFails_iff.1 hok) hn

/-- **A decode finds the derivations that survive.** -/
theorem mem_search_iff [OrderedCost R] {nbest : Int} (hnbest : 1 ≤ nbest)
    (hok : d.NeverFails g state?) {q : Nat} :
    n ∈ (d.search g nbest state?).layer q ↔
      d.Survives g state? nbest.toNat n ∧ n.stop = q := by
  by_cases hq : q = 0
  · rw [hq, Search.layer_zero, List.mem_singleton]
    constructor
    · rintro rfl
      exact ⟨⟨.start, nofun⟩, rfl⟩
    · rintro ⟨⟨hn, -⟩, hstop⟩
      have hmem := (mem_exhaustive_iff hok).2 ⟨hn, hstop⟩
      rwa [Search.layer_zero, List.mem_singleton] at hmem
  have hpos : 0 < q := Nat.pos_of_ne_zero hq
  constructor
  · intro hn
    obtain ⟨p, hp, mv, hmv, prev, hprev, hnode⟩ := (Search.mem_layer_of_pos hpos).1 hn
    rw [pick_layer hnbest] at hprev
    have hmem := mem_of_mem_select hprev
    have hderived := (mem_exhaustive_iff hok).1 hmem
    have hfound : n ∈ (d.exhaustive g state?).layer q :=
      (Search.mem_layer_of_pos hpos).2 ⟨p, hp, mv, hmv, prev, mem_arrange.2 hmem, hnode⟩
    obtain ⟨hn, hstop⟩ := (mem_exhaustive_iff hok).1 hfound
    refine ⟨⟨hn, fun prev' hprev' => ?_⟩, hstop⟩
    rw [Move.prev?_of_node hnode, hderived.1.unnumbered_eq, Option.some.injEq] at hprev'
    rwa [← hprev', hderived.2]
  · rintro ⟨⟨hn, hselected⟩, hstop⟩
    have hfound := (mem_exhaustive_iff hok).2 ⟨hn, hstop⟩
    obtain ⟨p, hp, mv, hmv, prev, hprev, hnode⟩ := (Search.mem_layer_of_pos hpos).1 hfound
    have hderived := (mem_exhaustive_iff hok).1 (mem_arrange.1 hprev)
    have hprev? : n.prev? = some prev := by
      rw [Move.prev?_of_node hnode, hderived.1.unnumbered_eq]
    have hbest := hselected prev hprev?
    rw [hderived.2, ← pick_layer hnbest] at hbest
    exact (Search.mem_layer_of_pos hpos).2 ⟨p, hp, mv, hmv, prev, hbest, hnode⟩

end

end Decoder

end Pinyin
