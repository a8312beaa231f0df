import Pinyin.Proofs.Decoder.Outcome
import Pinyin.Proofs.Lattice.Link

/-!
# Pinyin.Proofs.Decoder.Link

A search extends only what its lattice holds.

* `follows_of_outcome` — what a move makes of a partial sentence goes on from it;
* `Linked.absorb`, `Linked.sweep` — a step of a search keeps a lattice linked, and so does a sweep,
  whether they come to their end or fail.
-/

namespace Pinyin

variable {σ R : Type} [Cost R]

namespace Decoder

variable {d : Decoder σ R} {allowed : Decoder σ R → Prop} {g : CutGraph}

/-- The moves at a position make arcs that go on from the partial sentences there. -/
theorem follows_of_outcome (hd : allowed d) {singlePath : Bool} {mv : Move} {prev : Node σ R}
    {arc : Arc σ R} {cost? : Option R} (hmv : mv ∈ d.movesFrom g singlePath prev.stop)
    (hout : mv.outcome d prev.state = .ok (some (arc, cost?))) :
    arc.Follows allowed g prev (raise prev.score cost?) := by
  rcases mem_movesFrom_cases hmv with ⟨hsep, q, hq, rfl⟩ | ⟨path, hpath, hmv⟩
  · simp only [Move.outcome, Except.ok.injEq, Option.some.injEq, Prod.mk.injEq] at hout
    obtain ⟨rfl, rfl⟩ := hout
    exact {
      start_eq := rfl
      isWay := ⟨Nat.le_refl 2, List.isChain_cons_cons.2 ⟨hq, List.isChain_singleton q⟩⟩
      separator := fun _ => ⟨⟨rfl, rfl⟩, rfl, rfl⟩
      word := fun hnot => (hnot hsep).elim }
  · rcases mem_movesOn_cases hmv with ⟨-, -, m, -, forced, rfl⟩ | ⟨e, -, rfl⟩
    · obtain ⟨q, rest, hcons, hchain⟩ := CutGraph.isChain_of_mem_spansFrom hpath
      have hnot := CutGraph.not_isSeparator_of_mem_spans hpath
      simp only [Move.outcome] at hout
      split at hout
      · cases hout
      · split at hout
        · cases hout
        · simp only [Except.ok.injEq, Option.some.injEq, Prod.mk.injEq] at hout
          obtain ⟨rfl, rfl⟩ := hout
          have hstart : path.headD 0 = prev.stop := by rw [hcons]; rfl
          exact {
            start_eq := hstart
            isWay := ⟨by simp [wordArc, hcons], hchain⟩
            separator := fun hsep => (hnot (hstart ▸ hsep)).elim
            word := fun _ => ⟨rfl, d, hd, rfl⟩ }
    · cases hout

end Decoder

namespace Lattice.Linked

variable {d : Decoder σ R} {allowed : Decoder σ R → Prop} {g : CutGraph} {lat : Lattice σ R}

/-- **One step of a search** keeps a lattice linked, also where it fails. -/
theorem absorb (hl : lat.Linked allowed g) (hd : allowed d) {hyps : List (Node σ R)} {p : Nat}
    (hhyps : ∀ n ∈ hyps, n ∈ lat.nodes p) (singlePath : Bool) (frontier : Nat) :
    (Decoder.absorb lat (if hyps.isEmpty then []
      else d.attemptsAt g singlePath frontier hyps p)).1.Linked allowed g := by
  by_cases hnil : hyps = []
  · rw [hnil]
    exact hl
  rw [if_neg (by simpa using hnil), Decoder.absorb_attemptsAt hnil]
  -- The nodes that are extended are still there after some drafts.
  refine (Decoder.absorb_induct (P := fun l : Lattice σ R =>
    l.Linked allowed g ∧ ∀ n ∈ hyps, n ∈ l.log.toList) (fun draft hdraft l hl => ?_)
    ⟨hl, fun n hn => (mem_nodes.1 (hhyps n hn)).1⟩).1
  obtain ⟨mv, hmv, prev, hprev, cost?, hout, hmade⟩ := Decoder.exists_outcome_of_mem_tryAll hdraft
  obtain rfl : prev.stop = p := (mem_nodes.1 (hhyps prev hprev)).2
  have hf := Decoder.follows_of_outcome hd (List.mem_filter.1 hmv).1 hout
  rw [hmade]
  refine ⟨hl.1.push (hl.2 prev hprev) hf, fun n hn => ?_⟩
  rw [Lattice.push, Array.toList_push]
  exact List.mem_append_left _ (hl.2 n hn)

/-- **A sweep** keeps a lattice linked. -/
theorem sweep [DecidableEq σ] (hl : lat.Linked allowed g) (hd : allowed d) (singlePath : Bool)
    (k frontier : Nat) (positions : List Nat) :
    (d.sweep g singlePath k frontier lat positions).1.Linked allowed g := by
  induction positions generalizing lat with
  | nil => exact hl
  | cons p positions ih =>
      have hhyps : ∀ n ∈ lat.hypotheses p k, n ∈ lat.nodes p := fun n hn => mem_of_mem_select hn
      have hstep := hl.absorb hd hhyps singlePath frontier
      rw [Decoder.sweep]
      split
      · next heq =>
        rw [heq] at hstep
        exact ih hstep
      · next heq =>
        rw [heq] at hstep
        exact hstep

end Lattice.Linked

end Pinyin
