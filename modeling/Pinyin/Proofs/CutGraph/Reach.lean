import Mathlib.Logic.Relation
import Pinyin.Code
import Pinyin.Proofs.CutGraph.Crossing

/-!
# Pinyin.Proofs.CutGraph.Reach

What can be reached along the edges of a graph.

* `Reaches` — a position can be reached from another;
* `isConnected_iff` — a graph is connected if its end can be reached from its start;
* `HasNoDeadEnds` — whatever can be reached from the start can be left, up to the end;
* `HasNoDeadEnds.reaches_size`, `HasNoDeadEnds.arrival_preferredFrom` — so every way can be
  completed, and the preferred one is complete.
-/

namespace Pinyin.CutGraph

/-- A position can be reached from another along edges. -/
def Reaches (g : CutGraph) : Nat → Nat → Prop :=
  Relation.ReflTransGen fun p q => q ∈ g.successors p

variable {g : CutGraph} {p q : Nat}

theorem Reaches.tail {r : Nat} (h : g.Reaches p q) (hr : r ∈ g.successors q) : g.Reaches p r :=
  Relation.ReflTransGen.tail h hr

theorem reaches_iff : g.Reaches p q ↔ q = p ∨ ∃ r, g.Reaches p r ∧ q ∈ g.successors r :=
  Relation.ReflTransGen.cases_tail_iff ..

theorem le_size_of_reaches (h : g.Reaches 0 q) : q ≤ g.size := by
  rcases reaches_iff.1 h with rfl | ⟨r, -, hq⟩
  · exact Nat.zero_le _
  · exact (lt_of_mem_successors hq).2

/-! ## Connection -/

/-- What is found once the positions before `n` have been left. -/
def foundBefore (g : CutGraph) (n : Nat) : List Nat :=
  (List.range n).foldl
    (fun found p => if p ∈ found then (g.successors p).foldl (fun qs q => qs.insert q) found
      else found)
    [0]

/-- Edges run forward, so that a position is found before it is left. -/
theorem mem_foundBefore_iff {n : Nat} :
    q ∈ g.foundBefore n ↔ q = 0 ∨ ∃ r < n, g.Reaches 0 r ∧ q ∈ g.successors r := by
  induction n generalizing q with
  | zero => simp [foundBefore]
  | succ n ih =>
      have hn : n ∈ g.foundBefore n ↔ g.Reaches 0 n := by
        rw [ih, reaches_iff]
        exact or_congr_right ⟨fun ⟨r, _, hr⟩ => ⟨r, hr⟩,
          fun ⟨r, hr⟩ => ⟨r, (lt_of_mem_successors hr.2).1, hr⟩⟩
      have hstep : g.foundBefore (n + 1) = if n ∈ g.foundBefore n
          then (g.successors n).foldl (fun qs q => qs.insert q) (g.foundBefore n)
          else g.foundBefore n := by
        rw [foundBefore, List.range_succ, List.foldl_append]
        rfl
      have hmem : q ∈ g.foundBefore (n + 1) ↔
          q ∈ g.foundBefore n ∨ g.Reaches 0 n ∧ q ∈ g.successors n := by
        rw [hstep, ← hn]
        by_cases hfound : n ∈ g.foundBefore n <;> simp [hfound, mem_foldl_insert]
      rw [hmem, ih]
      grind

/-- The positions that are found are those that can be reached from the start. -/
theorem mem_reached_iff : q ∈ g.reached ↔ g.Reaches 0 q := by
  have hfound : g.reached = g.foundBefore (g.size + 1) := rfl
  rw [hfound, mem_foundBefore_iff, reaches_iff]
  refine or_congr_right ⟨fun ⟨r, _, hr⟩ => ⟨r, hr⟩, fun ⟨r, hr⟩ => ⟨r, ?_, hr⟩⟩
  exact Nat.lt_succ_of_le (le_size_of_reaches hr.1)

theorem isConnected_iff : g.IsConnected ↔ g.Reaches 0 g.size := mem_reached_iff

/-! ## Dead ends -/

/-- Every position that can be reached from the start can be left, up to the end. -/
def HasNoDeadEnds (g : CutGraph) : Prop := ∀ p, g.Reaches 0 p → p < g.size → g.edgesAt p ≠ []

/-- The preferred way takes the first edge. -/
theorem preferredFrom_eq (g : CutGraph) (p : Nat) :
    g.preferredFrom p =
      match g.edgesAt p with
      | [] => []
      | e :: _ => (p, e) :: g.preferredFrom e.stop := by
  rw [preferredFrom]
  split
  · next hnil => rw [List.attach_eq_nil_iff.1 hnil]
  · next e others hcons =>
    have hedges := congrArg (List.map Subtype.val) hcons
    rw [List.attach_map_subtype_val, List.map_cons] at hedges
    conv_rhs => rw [hedges]

namespace HasNoDeadEnds

/-- Every way from the start can be completed. -/
theorem reaches_size (h : g.HasNoDeadEnds) {p : Nat} (hp : g.Reaches 0 p) :
    g.Reaches p g.size := by
  by_cases hlt : p < g.size
  case neg =>
    have heq : p = g.size := Nat.le_antisymm (le_size_of_reaches hp) (Nat.le_of_not_lt hlt)
    rw [heq]
    exact .refl
  case pos =>
    obtain ⟨e, he⟩ := List.exists_mem_of_ne_nil _ (h p hp hlt)
    have hforward := lt_stop he
    have hstop : e.stop ∈ g.successors p := List.mem_map_of_mem he
    exact .head hstop (h.reaches_size (hp.tail hstop))
termination_by g.size - p

theorem isConnected (h : g.HasNoDeadEnds) : g.IsConnected :=
  isConnected_iff.2 (h.reaches_size .refl)

/-- The last edge of the preferred way leads to the end. -/
theorem getLast?_preferredFrom (h : g.HasNoDeadEnds) {p : Nat} (hp : g.Reaches 0 p)
    (hlt : p < g.size) : ∃ last ∈ (g.preferredFrom p).getLast?, last.2.stop = g.size := by
  cases hedges : g.edgesAt p with
  | nil => exact (h p hp hlt hedges).elim
  | cons e others =>
      have he : e ∈ g.edgesAt p := by rw [hedges]; exact List.mem_cons_self
      have hforward := lt_stop he
      have hinside := stop_le_size he
      have hreach : g.Reaches 0 e.stop := hp.tail (List.mem_map_of_mem he)
      have hway : g.preferredFrom p = (p, e) :: g.preferredFrom e.stop := by
        rw [preferredFrom_eq, hedges]
      rcases Nat.lt_or_eq_of_le hinside with hstop | hstop
      · obtain ⟨last, hlast, hend⟩ := h.getLast?_preferredFrom hreach hstop
        refine ⟨last, ?_, hend⟩
        rw [hway, List.getLast?_cons, Option.mem_def.1 hlast]
        rfl
      · have hdone : g.preferredFrom e.stop = [] := by
          rw [preferredFrom_eq, edgesAt_eq_nil (Nat.le_of_eq hstop.symm)]
        exact ⟨(p, e), by rw [hway, hdone]; rfl, hstop⟩
termination_by g.size - p

/-- **The preferred way arrives at the end.** -/
theorem arrival_preferredFrom (h : g.HasNoDeadEnds) : arrival (g.preferredFrom 0) = g.size := by
  rcases Nat.eq_zero_or_pos g.size with hzero | hpos
  · rw [preferredFrom_eq, edgesAt_eq_nil (Nat.le_of_eq hzero), hzero]
    rfl
  · obtain ⟨⟨p, e⟩, hlast, hend⟩ := h.getLast?_preferredFrom .refl hpos
    rw [arrival, Option.mem_def.1 hlast]
    exact hend

end HasNoDeadEnds

end Pinyin.CutGraph
