import Pinyin.Proofs.List
import Pinyin.Proofs.Segmentation.Coverage

/-!
# Pinyin.Proofs.Segmentation.Edges

The edges out of each position of the graph of a text, in their order.

* `stopsFrom` — where the edges of a plan lead that leave a position;
* `edgesAt_ofPinyin`, `mem_edgesAt_ofPinyin_iff` — the edges out of a position are those of the plan,
  the first of each;
* `cut_of_mem_edgesAt` — they are cuts of the text from there, at positions with whatever property
  the cuts preserve.
-/

namespace Pinyin

/-- Where the edges of a plan lead that leave a position, in the order of the plan. -/
def stopsFrom (plan : List (Nat × Nat)) (p : Nat) : List Nat :=
  (plan.filter fun edge => edge.1 = p).map Prod.snd

section

variable {plan plan' : List (Nat × Nat)} {p q : Nat}

@[simp] theorem stopsFrom_nil (p : Nat) : stopsFrom [] p = [] := rfl

@[simp] theorem stopsFrom_append :
    stopsFrom (plan ++ plan') p = stopsFrom plan p ++ stopsFrom plan' p := by
  simp [stopsFrom]

theorem stopsFrom_cons (edge : Nat × Nat) :
    stopsFrom (edge :: plan) p = if edge.1 = p then edge.2 :: stopsFrom plan p
      else stopsFrom plan p := by
  by_cases h : edge.1 = p <;> simp [stopsFrom, h]

theorem mem_stopsFrom : q ∈ stopsFrom plan p ↔ (p, q) ∈ plan := by
  simp [stopsFrom]

theorem stopsFrom_eq_nil (h : ∀ edge ∈ plan, edge.1 ≠ p) : stopsFrom plan p = [] := by
  simpa [stopsFrom] using h

end

namespace CutGraph

/-- **Laying a plan** on an empty graph gives each position the edges of the plan that leave it,
each of them once and in the place where it comes first. -/
theorem edgesAt_lay {text : List Char} {label : Nat → Nat → List Reading}
    {plan : List (Nat × Nat)} (h : ∀ edge ∈ plan, edge.1 < edge.2 ∧ edge.2 ≤ text.length)
    (p : Nat) :
    ((ofText text).lay label plan).edgesAt p
      = (stopsFrom plan p).eraseDups.map fun stop => ⟨stop, label p stop⟩ := by
  induction plan using List.reverseRecOn with
  | nil => simp [lay]
  | append_singleton plan edge ih =>
      obtain ⟨start, stop⟩ := edge
      have hplan : ∀ edge ∈ plan, edge.1 < edge.2 ∧ edge.2 ≤ text.length :=
        fun edge hedge => h edge (List.mem_append_left _ hedge)
      have hforward : ∀ edge ∈ plan, edge.1 < edge.2 ∧ edge.2 ≤ (ofText text).size := hplan
      have hlast : start < stop ∧ stop ≤ text.length := h (start, stop) (by simp)
      have hsize : ((ofText text).lay label plan).size = text.length :=
        congrArg List.length (text_foldl_insert label plan (ofText text))
      have hlay : (ofText text).lay label (plan ++ [(start, stop)])
          = ((ofText text).lay label plan).insert start ⟨stop, label start stop⟩ := by
        rw [lay, List.foldl_append]
        rfl
      have hold :
          stop ∈ ((ofText text).lay label plan).successors start ↔ (start, stop) ∈ plan := by
        rw [mem_successors_lay_iff hforward]
        simp [successors]
      rw [hlay, edgesAt_insert, ih hplan, hsize, stopsFrom_append, stopsFrom_cons, stopsFrom_nil]
      by_cases hp : start = p
      · subst hp
        simp only [hold, if_true, eraseDups_append_singleton, mem_stopsFrom]
        by_cases hmem : (start, stop) ∈ plan <;> simp [hmem, hlast]
      · simp [hp, Ne.symm hp]

/-- The edges out of a position of the graph of a text are those of its plan. -/
theorem edgesAt_ofPinyin (opts : ReadingOptions) (text : List Char) (p : Nat) :
    (ofPinyin opts text).edgesAt p
      = (stopsFrom (planFrom opts text 0 [0]) p).eraseDups.map
          fun stop => ⟨stop, labelOf opts.fuzzy text p stop⟩ :=
  edgesAt_lay forward_of_mem_plan p

/-- Where no separator stands, an edge is labelled with the readings of its piece. -/
theorem labelOf_add {fz : FuzzySet} {text : List Char} {p : Nat}
    (h : (text.drop p).head? ≠ some separator) (n : Nat) :
    labelOf fz text p (p + n) = Pinyin.readings fz ((text.drop p).take n) := by
  rw [List.head?_drop] at h
  rw [labelOf, if_neg h, Nat.add_sub_cancel_left]

/-- The edges of the graph of a text are those of its plan, with their labels. -/
theorem mem_edgesAt_ofPinyin_iff {opts : ReadingOptions} {text : List Char} {p : Nat} {e : Edge} :
    e ∈ (ofPinyin opts text).edgesAt p ↔
      (p, e.stop) ∈ planFrom opts text 0 [0] ∧ e.readings = labelOf opts.fuzzy text p e.stop := by
  rw [edgesAt_ofPinyin, List.mem_map]
  constructor
  · rintro ⟨stop, hstop, rfl⟩
    exact ⟨mem_stopsFrom.1 (List.mem_eraseDups.1 hstop), rfl⟩
  · rintro ⟨hedge, hlabel⟩
    exact ⟨e.stop, List.mem_eraseDups.2 (mem_stopsFrom.2 hedge), by rw [← hlabel]⟩

/-- What holds of a text and is preserved by every cut holds of the text from where an edge begins,
and the edge is a cut of it. -/
theorem cut_of_mem_edgesAt {opts : ReadingOptions} {text : List Char} {P : List Char → Prop}
    (hinner : opts.inner = false)
    (hstep : ∀ rest, rest ≠ [] → P rest → ∀ n ∈ frontCuts opts.fuzzy rest, P (rest.drop n))
    (htext : P text) {p : Nat} {e : Edge} (h : e ∈ (ofPinyin opts text).edgesAt p) :
    P (text.drop p) ∧ ∃ n ∈ frontCuts opts.fuzzy (text.drop p),
      e = ⟨p + n, labelOf opts.fuzzy text p (p + n)⟩ := by
  obtain ⟨hedge, hlabel⟩ := mem_edgesAt_ofPinyin_iff.1 h
  obtain ⟨hp, hstop⟩ := (mem_plan_whole_iff hinner).1 hedge
  obtain ⟨n, hn, hstop⟩ := List.mem_map.1 hstop
  refine ⟨drop_of_mem_cutPositions hstep htext hp, n, hn, ?_⟩
  rw [hstop, ← hlabel]

end CutGraph

end Pinyin
