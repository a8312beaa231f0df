import Pinyin.Proofs.Lattice.Numbering

/-!
# Pinyin.Proofs.Lattice.Growth

Lattices that grow by drafts only, as they do in a search.

* `Lattice.Grows` — one lattice comes from another by drafts that end at a position or
  after it;
* `Grows.nodes_eq` — what ends before that position stays as it is.
-/

namespace Pinyin

variable {σ R : Type}

/-- The node of a draft without numbers. -/
def Draft.node (draft : Draft σ R) : Node σ R :=
  .link draft.prev.unnumbered draft.arc draft.score 0

namespace Lattice

theorem unnumberedNodes_push (lat : Lattice σ R) (draft : Draft σ R) (p : Nat) :
    (lat.push draft).unnumberedNodes p
      = lat.unnumberedNodes p ++ if draft.arc.stop = p then [draft.node] else [] := by
  rw [unnumberedNodes, nodes_push, List.map_append]
  congr 1
  split <;> rfl

theorem unnumberedNodes_foldl_push (lat : Lattice σ R) (drafts : List (Draft σ R)) (p : Nat) :
    (drafts.foldl push lat).unnumberedNodes p
      = lat.unnumberedNodes p ++
        (drafts.filter fun draft => draft.arc.stop = p).map Draft.node := by
  induction drafts generalizing lat with
  | nil => simp
  | cons draft drafts ih =>
      rw [List.foldl_cons, ih, unnumberedNodes_push, List.filter_cons]
      by_cases hp : draft.arc.stop = p <;> simp [hp]

/-- A lattice comes from another by further drafts, which all end at `since` or after it. -/
def Grows (since : Nat) (lat lat' : Lattice σ R) : Prop :=
  ∃ drafts : List (Draft σ R),
    (∀ draft ∈ drafts, since ≤ draft.arc.stop) ∧ lat' = drafts.foldl push lat

namespace Grows

variable {since : Nat} {lat lat' lat'' : Lattice σ R}

theorem refl (since : Nat) (lat : Lattice σ R) : Grows since lat lat := ⟨[], by simp, rfl⟩

theorem trans (h : Grows since lat lat') (h' : Grows since lat' lat'') :
    Grows since lat lat'' := by
  obtain ⟨xs, hxs, rfl⟩ := h
  obtain ⟨ys, hys, rfl⟩ := h'
  refine ⟨xs ++ ys, fun draft hd => ?_, List.foldl_append.symm⟩
  exact (List.mem_append.1 hd).elim (hxs draft) (hys draft)

theorem push {draft : Draft σ R} (h : since ≤ draft.arc.stop) (lat : Lattice σ R) :
    Grows since lat (lat.push draft) :=
  ⟨[draft], by simpa using h, rfl⟩

/-- A property that pushing keeps is kept by growth. -/
theorem induct {P : Lattice σ R → Prop} (h : Grows since lat lat')
    (hpush : ∀ lat draft, P lat → P (lat.push draft)) (hlat : P lat) : P lat' := by
  obtain ⟨drafts, -, rfl⟩ := h
  induction drafts generalizing lat with
  | nil => exact hlat
  | cons draft drafts ih => exact ih (hpush lat draft hlat)

theorem ascending (h : Grows since lat lat') (hlat : lat.Ascending) : lat'.Ascending :=
  h.induct (fun _ draft hasc => hasc.push draft) hlat

theorem frontier_eq (h : Grows since lat lat') : lat'.frontier = lat.frontier :=
  h.induct (P := fun l => l.frontier = lat.frontier) (fun _ _ heq => heq) rfl

theorem purpose_eq (h : Grows since lat lat') : lat'.purpose = lat.purpose :=
  h.induct (P := fun l => l.purpose = lat.purpose) (fun _ _ heq => heq) rfl

theorem singlePath_eq (h : Grows since lat lat') : lat'.singlePath = lat.singlePath :=
  h.induct (P := fun l => l.singlePath = lat.singlePath) (fun _ _ heq => heq) rfl

/-- The positions before all drafts keep their nodes. -/
theorem nodes_eq (h : Grows since lat lat') {p : Nat} (hp : p < since) :
    lat'.nodes p = lat.nodes p := by
  obtain ⟨drafts, hstop, rfl⟩ := h
  induction drafts generalizing lat with
  | nil => rfl
  | cons draft drafts ih =>
      have hdraft := hstop draft List.mem_cons_self
      rw [List.foldl_cons, ih fun d hd => hstop d (List.mem_cons_of_mem _ hd), nodes_push,
        if_neg (by omega), List.append_nil]

end Grows

end Lattice

end Pinyin
