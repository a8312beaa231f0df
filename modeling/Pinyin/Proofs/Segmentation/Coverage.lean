import Pinyin.Proofs.CutGraph.Reach
import Pinyin.Proofs.Segmentation.Positions

/-!
# Pinyin.Proofs.Segmentation.Coverage

The graph of a text has all edges of its plan, and therefore no dead ends.

* `mem_successors_ofPinyin_iff` — an edge of the graph is one of the plan;
* `foldlM_add_planFrom` — none of them is refused;
* `hasNoDeadEnds_ofPinyin` — whatever can be reached can be left.
-/

namespace Pinyin.CutGraph

theorem mem_successors_insert_iff {g : CutGraph} {start p q : Nat} {e : Edge}
    (h : start < e.stop ∧ e.stop ≤ g.size) :
    q ∈ (g.insert start e).successors p ↔ q ∈ g.successors p ∨ (p, q) = (start, e.stop) := by
  rw [successors, edgesAt_insert, Prod.mk.injEq]
  split
  · next hnew =>
    rw [List.map_append, List.mem_append, successors, List.map_singleton, List.mem_singleton]
    simp [hnew.1]
  · next hold =>
    refine (or_iff_left_of_imp ?_).symm
    rintro ⟨rfl, rfl⟩
    by_contra hnew
    exact hold ⟨rfl, h, hnew⟩

/-- An edge that runs forward inside the text is not refused. -/
theorem add_of_forward {g : CutGraph} {start stop : Nat} (h : start < stop ∧ stop ≤ g.size)
    (readings : List Reading) :
    g.add start stop readings = .ok (g.insert start ⟨stop, readings⟩) := by
  rw [add, if_pos (by omega), Int.toNat_natCast, Int.toNat_natCast]

/-! ## Laying a plan -/

/-- The graph with the edges of a plan added to it, each with its label. -/
def lay (label : Nat → Nat → List Reading) (g : CutGraph) (plan : List (Nat × Nat)) : CutGraph :=
  plan.foldl (fun g (start, stop) => g.insert start ⟨stop, label start stop⟩) g

section

variable {label : Nat → Nat → List Reading} {g : CutGraph} {plan : List (Nat × Nat)}

/-- All edges of a plan that run forward inside the text are laid, and no others. -/
theorem mem_successors_lay_iff {p q : Nat}
    (h : ∀ edge ∈ plan, edge.1 < edge.2 ∧ edge.2 ≤ g.size) :
    q ∈ (g.lay label plan).successors p ↔ q ∈ g.successors p ∨ (p, q) ∈ plan := by
  induction plan generalizing g with
  | nil => simp [lay]
  | cons edge plan ih =>
      rw [List.forall_mem_cons] at h
      have hfirst : q ∈ (g.insert edge.1 ⟨edge.2, label edge.1 edge.2⟩).successors p ↔
          q ∈ g.successors p ∨ (p, q) = edge := mem_successors_insert_iff h.1
      have hrest := @ih (g.insert edge.1 ⟨edge.2, label edge.1 edge.2⟩)
        (by rw [size_insert]; exact h.2)
      rw [lay, List.foldl_cons, ← lay, hrest, hfirst, List.mem_cons, or_assoc]

/-- Adding them one after the other, none is refused. -/
theorem foldlM_add_eq_lay (h : ∀ edge ∈ plan, edge.1 < edge.2 ∧ edge.2 ≤ g.size) :
    plan.foldlM (fun g (edge : Nat × Nat) => g.add edge.1 edge.2 (label edge.1 edge.2)) g
      = .ok (g.lay label plan) := by
  induction plan generalizing g with
  | nil => rfl
  | cons edge plan ih =>
      rw [List.forall_mem_cons] at h
      have hrest := @ih (g.insert edge.1 ⟨edge.2, label edge.1 edge.2⟩)
        (by rw [size_insert]; exact h.2)
      rw [List.foldlM_cons, add_of_forward h.1]
      exact hrest

end

/-! ## The graph of a text -/

section

variable {opts : ReadingOptions} {text : List Char} {p q : Nat}

@[simp] theorem size_ofPinyin : (ofPinyin opts text).size = text.length := by
  rw [size, text_ofPinyin]

theorem forward_of_mem_plan : ∀ edge ∈ planFrom opts text 0 [0],
    edge.1 < edge.2 ∧ edge.2 ≤ (ofText text).size := by
  rintro ⟨start, stop⟩ hedge
  have hforward := forward_of_mem_planFrom hedge
  rw [size, text_ofText]
  omega

/-- The edges of the graph are those of the plan. -/
theorem mem_successors_ofPinyin_iff :
    q ∈ (ofPinyin opts text).successors p ↔ (p, q) ∈ planFrom opts text 0 [0] := by
  have hlay : (ofPinyin opts text).successors p
      = ((ofText text).lay (labelOf opts.fuzzy text) (planFrom opts text 0 [0])).successors p := rfl
  rw [hlay, mem_successors_lay_iff forward_of_mem_plan]
  simp [successors]

/-- The graph is built edge by edge, and none is refused. -/
theorem foldlM_add_planFrom (opts : ReadingOptions) (text : List Char) :
    (planFrom opts text 0 [0]).foldlM
      (fun g (edge : Nat × Nat) => g.add edge.1 edge.2 (labelOf opts.fuzzy text edge.1 edge.2))
      (ofText text) = .ok (ofPinyin opts text) :=
  foldlM_add_eq_lay forward_of_mem_plan

/-- **The graph of a text has no dead ends.** -/
theorem hasNoDeadEnds_ofPinyin (opts : ReadingOptions) (text : List Char) :
    (ofPinyin opts text).HasNoDeadEnds := by
  intro p hp hlt
  rw [size_ofPinyin] at hlt
  have hbegin : p = 0 ∨ ∃ start, (start, p) ∈ planFrom opts text 0 [0] := by
    rcases reaches_iff.1 hp with rfl | ⟨start, -, hedge⟩
    · exact .inl rfl
    · exact .inr ⟨start, mem_successors_ofPinyin_iff.1 hedge⟩
  obtain ⟨stop, hstop⟩ := exists_mem_plan hbegin hlt
  obtain ⟨e, he, -⟩ := List.mem_map.1 (mem_successors_ofPinyin_iff.2 hstop)
  exact List.ne_nil_of_mem he

end

end Pinyin.CutGraph
