import Pinyin.Proofs.CutGraph.Reach
import Pinyin.Proofs.Decoder.Beam

/-!
# Pinyin.Proofs.Decoder.Passable

A search goes on wherever its graph does.

* `exists_move_of_mem_successors` — each edge has a move that is never dropped as worthless;
* `Lattice.PassableUpTo` — what can be reached has nodes, as far as a search has come;
* `PassableUpTo.absorb`, `PassableUpTo.sweep` — one step of a search keeps this up, and so does a
  sweep.
-/

namespace Pinyin

variable {σ R : Type}

/-! ## Moves that are kept -/

namespace Decoder

/-- A word that would not be dropped is not. -/
theorem outcome_word_ne_none [Cost R] {d : Decoder σ R} {path : Path} {m : WordMatch}
    {forced : Bool} (h : ¬ d.Drops path m forced) (s : σ) :
    (Move.word path m forced).outcome d s ≠ .ok none := by
  simp only [Move.outcome]
  split
  · simp
  · rw [if_neg (mt isWorthless_wordArc_iff.1 h)]
    simp

/-- **Each edge can be passed**: by a separator, a word that is kept, or its own text. -/
theorem exists_move_of_mem_successors [Cost R] (d : Decoder σ R) {g : CutGraph} {p q : Nat}
    (hq : q ∈ g.successors p) (singlePath : Bool) :
    ∃ mv ∈ d.movesFrom g singlePath p, mv.stop = q ∧ ∀ s, mv.outcome d s ≠ .ok none := by
  by_cases hsep : g.IsSeparator p
  · refine ⟨.separator p q, List.mem_append_left _ ?_, rfl, by simp [Move.outcome]⟩
    rw [if_pos hsep]
    exact List.mem_map_of_mem hq
  · have hspan : [p, q] ∈ g.spans d.maxSyllables p := by
      obtain ⟨rest, hrest⟩ := Nat.exists_eq_succ_of_ne_zero (Nat.ne_of_gt d.maxSyllables_pos)
      rw [CutGraph.spans, hrest, CutGraph.spansFrom_of_not_isSeparator hsep]
      exact List.mem_flatMap.2 ⟨q, hq, List.mem_cons_self⟩
    suffices h : ∃ mv ∈ d.movesOn g singlePath [p, q], ∀ s, mv.outcome d s ≠ .ok none by
      obtain ⟨mv, hmv, hkept⟩ := h
      exact ⟨mv, List.mem_append_right _ (List.mem_flatMap.2 ⟨_, hspan, hmv⟩),
        stop_of_mem_movesOn hmv, hkept⟩
    unfold movesOn
    cases hfound : d.dictionary g [p, q] with
    | error e => exact ⟨_, List.mem_singleton_self _, by simp [Move.outcome]⟩
    | ok found =>
        by_cases hkept : ∃ m ∈ found, ¬ d.Drops [p, q] (withCode g [p, q] m) singlePath
        · obtain ⟨m, hm, hdrops⟩ := hkept
          simp only
          rw [if_pos (.inl ⟨m, hm, hdrops⟩)]
          exact ⟨_, List.mem_map_of_mem hm, outcome_word_ne_none hdrops⟩
        · simp only
          rw [if_neg fun h => h.elim hkept fun hlen => hlen rfl]
          refine ⟨_, List.mem_append_right _ (List.mem_singleton_self _), ?_⟩
          exact outcome_word_ne_none fun hdrops => Bool.false_ne_true hdrops.2.2.2.symm

end Decoder

/-! ## Steps -/

namespace Lattice

/-- The positions that can be reached have nodes: the start, those before a frontier, and those
that an edge leads to from before a position. -/
def PassableUpTo (lat : Lattice σ R) (g : CutGraph) (frontier p : Nat) : Prop :=
  ∀ q, g.Reaches 0 q →
    (q = 0 ∨ q < frontier ∨ ∃ r < p, g.Reaches 0 r ∧ q ∈ g.successors r) → lat.nodes q ≠ []

/-- Growing lattices lose no nodes. -/
theorem Grows.nodes_ne_nil {since : Nat} {lat lat' : Lattice σ R} (h : lat.Grows since lat')
    {p : Nat} (hp : lat.nodes p ≠ []) : lat'.nodes p ≠ [] := by
  refine h.induct (P := fun l => l.nodes p ≠ []) (fun l draft hl => ?_) hp
  rw [nodes_push]
  exact List.append_ne_nil_of_left_ne_nil hl _

theorem hypotheses_ne_nil [DecidableEq σ] [Cost R] {lat : Lattice σ R} {p k : Nat} (hk : 1 ≤ k)
    (h : lat.nodes p ≠ []) : lat.hypotheses p k ≠ [] := by
  obtain ⟨n, hn⟩ := List.exists_mem_of_ne_nil _ h
  obtain ⟨m, hm, -⟩ := exists_mem_select hk hn
  exact List.ne_nil_of_mem hm

namespace PassableUpTo

variable {lat : Lattice σ R} {g : CutGraph} {frontier p : Nat}

/-- Where a search has come to, there are nodes. -/
theorem nodes_ne_nil (h : lat.PassableUpTo g frontier p) {q : Nat} (hq : q ≤ p)
    (hreach : g.Reaches 0 q) : lat.nodes q ≠ [] := by
  refine h q hreach ?_
  rcases CutGraph.reaches_iff.1 hreach with hzero | ⟨r, hr, hstep⟩
  · exact .inl hzero
  · have hlt := (CutGraph.lt_of_mem_successors hstep).1
    exact .inr (.inr ⟨r, by omega, hr, hstep⟩)

variable [DecidableEq σ] [Cost R] {d : Decoder σ R} {singlePath : Bool} {k : Nat}
  {lat' : Lattice σ R}

/-- **One step of a search**: behind each edge that leaves its position there are nodes. -/
theorem absorb (hk : 1 ≤ k) (h : lat.PassableUpTo g frontier p)
    (heq : Decoder.absorb lat (if (lat.hypotheses p k).isEmpty then []
      else d.attemptsAt g singlePath frontier (lat.hypotheses p k) p) = (lat', .ok ())) :
    lat'.PassableUpTo g frontier (p + 1) := by
  intro q hq hcase
  by_cases hold : q = 0 ∨ q < frontier ∨ ∃ r < p, g.Reaches 0 r ∧ q ∈ g.successors r
  · exact (Decoder.grows_of_absorb heq).nodes_ne_nil (h q hq hold)
  -- Only an edge that leaves the position itself is left.
  have hfront : frontier ≤ q := by
    by_contra hlt
    exact hold (.inr (.inl (by omega)))
  obtain ⟨hp, hstep⟩ : g.Reaches 0 p ∧ q ∈ g.successors p := by
    rcases hcase with hcase | hcase | ⟨r, hr, hreach, hstep⟩
    · exact (hold (.inl hcase)).elim
    · exact (hold (.inr (.inl hcase))).elim
    · obtain rfl : r = p := by
        by_contra hne
        exact hold (.inr (.inr ⟨r, by omega, hreach, hstep⟩))
      exact ⟨hreach, hstep⟩
  have hne := hypotheses_ne_nil hk (h.nodes_ne_nil (Nat.le_refl p) hp)
  rw [if_neg (by simpa using hne), Decoder.absorb_attemptsAt hne] at heq
  have hok : ∀ mv ∈ (d.movesFrom g singlePath p).filter (fun mv => frontier ≤ mv.stop),
      ∀ n ∈ lat.hypotheses p k, ¬ mv.FailsIn d n.state := by
    intro mv hmv n hn hfail
    obtain ⟨e, he⟩ := Decoder.error_mem_tryAll_iff.2 ⟨mv, hmv, n, hn, hfail⟩
    obtain ⟨lat'', e', herror⟩ := Decoder.absorb_of_error he lat
    rw [herror] at heq
    cases heq
  obtain ⟨mv, hmv, hstop, hkept⟩ := d.exists_move_of_mem_successors hstep singlePath
  obtain ⟨prev, hprev⟩ := List.exists_mem_of_ne_nil _ hne
  have hmem : mv ∈ (d.movesFrom g singlePath p).filter fun mv => frontier ≤ mv.stop :=
    List.mem_filter.2 ⟨hmv, by simpa [hstop] using hfront⟩
  obtain ⟨n, hn⟩ : ∃ n, mv.node d prev.unnumbered = some n := by
    rw [Move.node_unnumbered, Move.node]
    cases hout : mv.outcome d prev.state with
    | error e => exact (hok mv hmem prev hprev ⟨e, hout⟩).elim
    | ok made =>
        cases made with
        | none => exact (hkept prev.state hout).elim
        | some made => exact ⟨_, rfl⟩
  obtain ⟨lat'', hlat, hnodes⟩ := Decoder.unnumberedNodes_absorb_tryAll hok lat
  rw [heq, Prod.mk.injEq] at hlat
  rw [← hlat.1] at hnodes
  have hgrown : n ∈ lat'.unnumberedNodes q := by
    rw [hnodes]
    refine List.mem_append_right _ (Decoder.mem_grow.2 ⟨mv, ?_, _, List.mem_map_of_mem hprev, hn⟩)
    exact List.mem_filter.2 ⟨hmem, by simpa using hstop⟩
  exact mt Lattice.unnumberedNodes_eq_nil.2 (List.ne_nil_of_mem hgrown)

/-- **A sweep** leaves nodes behind each edge that it passes. -/
theorem sweep (hk : 1 ≤ k) (h : lat.PassableUpTo g frontier p) (count : Nat)
    (heq : d.sweep g singlePath k frontier lat (List.range' p count) = (lat', .ok ())) :
    lat'.PassableUpTo g frontier (p + count) := by
  induction count generalizing p lat with
  | zero =>
      cases heq
      exact h
  | succ count ih =>
      rw [List.range'_succ, Decoder.sweep] at heq
      split at heq
      · next hstep =>
        have hrest := ih (h.absorb hk hstep) heq
        rwa [Nat.add_right_comm] at hrest
      · cases heq

end PassableUpTo

end Lattice

end Pinyin
