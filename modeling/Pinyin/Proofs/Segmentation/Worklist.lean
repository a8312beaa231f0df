import Mathlib.Algebra.Order.BigOperators.Group.List
import Mathlib.Algebra.Order.Group.Nat
import Mathlib.Logic.Relation
import Pinyin.Proofs.Segmentation.Plan

/-!
# Pinyin.Proofs.Segmentation.Worklist

A plan lists the edges in the order in which a search lays them that keeps a list of the positions
where it is to go on.

* `Worklist.next` — the lowest position that waits is cut from, once;
* `Worklist.run_planFrom`, `Worklist.run_start` — the search comes to an end, and has laid the
  edges of the plan.
-/

namespace Pinyin

/-- Positions before the one where a text begins have no bearing on its plan. -/
theorem planFrom_congr {opts : ReadingOptions} {rest : List Char} {p : Nat} {due due' : List Nat}
    (h : ∀ q, p ≤ q → (q ∈ due ↔ q ∈ due')) :
    planFrom opts rest p due = planFrom opts rest p due' := by
  induction rest generalizing p due due' with
  | nil => rfl
  | cons c rest ih =>
      by_cases hp : p ∈ due
      · rw [planFrom_of_mem hp, planFrom_of_mem ((h p (Nat.le_refl p)).1 hp)]
        refine congrArg _ (ih fun q hq => ?_)
        simp only [List.mem_append, h q (Nat.le_of_succ_le hq)]
      · rw [planFrom_of_notMem hp, planFrom_of_notMem (mt (h p (Nat.le_refl p)).2 hp)]
        exact ih fun q hq => h q (Nat.le_of_succ_le hq)

/-- The state of a search: the positions that wait, those that were cut from, and the edges that
were laid, in order. -/
structure Worklist where
  waiting : List Nat
  visited : List Nat
  plan : List (Nat × Nat)

namespace Worklist

/-- At first the start waits, and no edges are laid. -/
def start : Worklist := ⟨[0], [], []⟩

/-- The state after a position that waits is cut from, where a text begins: the ends of its cuts
wait now. -/
def cut (opts : ReadingOptions) (rest : List Char) (p : Nat) (w : Worklist) : Worklist where
  waiting := w.waiting.erase p ++ frontStops opts rest p
  visited := p :: w.visited
  plan := w.plan ++ frontEdges opts rest p

/-- The lowest position that waits is taken from the list, and it is cut from; the end of the text
is not, and neither is a position that was cut from. -/
def next (opts : ReadingOptions) (text : List Char) (w : Worklist) : Option Worklist :=
  w.waiting.min?.map fun p =>
    if p < text.length ∧ p ∉ w.visited then w.cut opts (text.drop p) p
    else { w with waiting := w.waiting.erase p }

/-- A search comes from one state to another. -/
def Run (opts : ReadingOptions) (text : List Char) : Worklist → Worklist → Prop :=
  Relation.ReflTransGen fun w w' => w.next opts text = some w'

variable {opts : ReadingOptions} {text : List Char} {w : Worklist} {p : Nat}

theorem next_of_visited (hp : p ∈ w.waiting) (hmin : ∀ q ∈ w.waiting, p ≤ q)
    (hskip : text.length ≤ p ∨ p ∈ w.visited) :
    w.next opts text = some { w with waiting := w.waiting.erase p } := by
  have hlow : w.waiting.min? = some p := List.min?_eq_some_iff.2 ⟨hp, hmin⟩
  have hold : ¬ (p < text.length ∧ p ∉ w.visited) := by
    rintro ⟨hlt, hnew⟩
    exact hskip.elim (Nat.not_le_of_lt hlt) hnew
  rw [next, hlow, Option.map_some, if_neg hold]

theorem next_of_new (hp : p ∈ w.waiting) (hmin : ∀ q ∈ w.waiting, p ≤ q)
    (hlt : p < text.length) (hnew : p ∉ w.visited) :
    w.next opts text = some (w.cut opts (text.drop p) p) := by
  have hlow : w.waiting.min? = some p := List.min?_eq_some_iff.2 ⟨hp, hmin⟩
  rw [next, hlow, Option.map_some, if_pos ⟨hlt, hnew⟩]

/-- Positions below a bound from which nothing is cut any more are taken from the list. -/
theorem run_skip (opts : ReadingOptions) (w : Worklist) (bound : Nat)
    (h : ∀ q ∈ w.waiting, q < bound → text.length ≤ q ∨ q ∈ w.visited) :
    ∃ waiting, Run opts text w { w with waiting } ∧
      ∀ q, q ∈ waiting ↔ q ∈ w.waiting ∧ bound ≤ q := by
  by_cases hlow : ∃ p ∈ w.waiting, (∀ q ∈ w.waiting, p ≤ q) ∧ p < bound
  case neg =>
    refine ⟨w.waiting, .refl, fun q => ⟨fun hq => ⟨hq, ?_⟩, And.left⟩⟩
    cases hmin : w.waiting.min? with
    | none => rw [List.min?_eq_none_iff.1 hmin] at hq; cases hq
    | some p =>
        obtain ⟨hp, hmin⟩ := List.min?_eq_some_iff.1 hmin
        have hbound : bound ≤ p := Nat.le_of_not_lt fun hlt => hlow ⟨p, hp, hmin, hlt⟩
        exact Nat.le_trans hbound (hmin q hq)
  case pos =>
    obtain ⟨p, hp, hmin, hbound⟩ := hlow
    have hshorter : (w.waiting.erase p).length < w.waiting.length := by
      rw [List.length_erase_of_mem hp]
      exact Nat.sub_one_lt_of_lt (List.length_pos_of_mem hp)
    have hstep : w.next opts text = some { w with waiting := w.waiting.erase p } :=
      next_of_visited hp hmin (h p hp hbound)
    obtain ⟨waiting, hrun, hmem⟩ := run_skip opts { w with waiting := w.waiting.erase p } bound
      fun q hq => h q (List.mem_of_mem_erase hq)
    refine ⟨waiting, .head hstep hrun, fun q => ?_⟩
    rw [hmem]
    refine and_congr_left fun hq => List.mem_erase_of_ne ?_
    omega
termination_by w.waiting.length

/-- The lowest position is cut from once, however often it waits. -/
theorem run_cut (opts : ReadingOptions) (hp : p ∈ w.waiting) (hmin : ∀ q ∈ w.waiting, p ≤ q)
    (hlt : p < text.length) (hnew : p ∉ w.visited) :
    ∃ waiting, Run opts text w
        ⟨waiting, p :: w.visited, w.plan ++ frontEdges opts (text.drop p) p⟩ ∧
      ∀ q, q ∈ waiting ↔ q ∈ w.waiting ++ frontStops opts (text.drop p) p ∧ p < q := by
  obtain ⟨waiting, hrun, hmem⟩ := run_skip opts (w.cut opts (text.drop p) p) (p + 1)
    fun q hq hle => by
      have hrest : text.drop p ≠ [] := by simpa using hlt
      rcases List.mem_append.1 hq with hq | hq
      · have := hmin q (List.mem_of_mem_erase hq)
        exact .inr (List.mem_cons.2 (.inl (by omega)))
      · have := mem_frontStops hrest hq
        omega
  refine ⟨waiting, .head (next_of_new hp hmin hlt hnew) hrun, fun q => ?_⟩
  rw [hmem, cut, List.mem_append, List.mem_append]
  refine and_congr_left fun hq => or_congr_left (List.mem_erase_of_ne ?_)
  omega

/-- **A search lays the edges of a plan, and comes to an end**: where nothing waits before a
position, the plan goes on from there with all that waits. -/
theorem run_planFrom {rest : List Char} (hrest : text.drop p = rest)
    (hwaiting : ∀ q ∈ w.waiting, p ≤ q) (hvisited : ∀ q ∈ w.visited, q < p) :
    ∃ w', Run opts text w w' ∧ w'.waiting = [] ∧
      w'.plan = w.plan ++ planFrom opts rest p w.waiting := by
  induction rest generalizing p w with
  | nil =>
      have hend : text.length ≤ p := List.drop_eq_nil_iff.1 hrest
      obtain ⟨waiting, hrun, hmem⟩ := run_skip opts w (w.waiting.sum + 1)
        fun q hq _ => .inl (Nat.le_trans hend (hwaiting q hq))
      refine ⟨_, hrun, List.eq_nil_iff_forall_not_mem.2 fun q hq => ?_, by simp [planFrom]⟩
      obtain ⟨hq, hover⟩ := (hmem q).1 hq
      have hsum := List.le_sum_of_mem hq
      omega
  | cons c rest ih =>
      have hlt : p < text.length := by
        have hne : text.drop p ≠ [] := by simp [hrest]
        simpa using hne
      have htail : text.drop (p + 1) = rest := by rw [← List.tail_drop, hrest, List.tail_cons]
      by_cases hp : p ∈ w.waiting
      case neg =>
        rw [planFrom_of_notMem hp]
        refine ih htail (fun q hq => ?_) fun q hq => Nat.lt_succ_of_lt (hvisited q hq)
        exact Nat.lt_of_le_of_ne (hwaiting q hq) fun heq => hp (heq ▸ hq)
      case pos =>
        have hnew : p ∉ w.visited := fun hmem => Nat.lt_irrefl p (hvisited p hmem)
        obtain ⟨waiting, hcut, hmem⟩ := run_cut opts hp hwaiting hlt hnew
        rw [hrest] at hcut hmem
        obtain ⟨w', hrun, hempty, hplan⟩ :=
          @ih ⟨waiting, p :: w.visited, w.plan ++ frontEdges opts (c :: rest) p⟩ (p + 1) htail
            (fun q hq => ((hmem q).1 hq).2)
            (List.forall_mem_cons.2
              ⟨Nat.lt_succ_self p, fun q hq => Nat.lt_succ_of_lt (hvisited q hq)⟩)
        refine ⟨w', hcut.trans hrun, hempty, ?_⟩
        have hdue : planFrom opts rest (p + 1) waiting
            = planFrom opts rest (p + 1) (w.waiting ++ frontStops opts (c :: rest) p) :=
          planFrom_congr fun q hq => (hmem q).trans (and_iff_left hq)
        rw [hplan, planFrom_of_mem hp, hdue, List.append_assoc]

/-- A search from the start lays the edges of the whole plan. -/
theorem run_start (opts : ReadingOptions) (text : List Char) :
    ∃ w, Run opts text start w ∧ w.waiting = [] ∧ w.plan = planFrom opts text 0 [0] :=
  run_planFrom List.drop_zero (fun q _ => Nat.zero_le q) fun _ hq => nomatch hq

end Worklist

end Pinyin
