import Pinyin.Proofs.Segmentation.Coverage
import Pinyin.Proofs.Segmentation.Worklist

/-!
# Pinyin.Proofs.Segmentation.Preferred

Typed text along its preferred cuts.

* `CutGraph.IsUnreadable` — an edge of a syllable without readings;
* `syllablesOf_eq` — the syllables of a text, or the first piece that cannot be read;
* `segmentation_covers` — a text is cut to its end, and only what cannot be read is refused.
-/

namespace Pinyin

namespace CutGraph

/-- An edge is one of a syllable, and there is no way to read it. -/
def IsUnreadable (g : CutGraph) (edge : Nat × Edge) : Prop :=
  ¬ g.IsSeparator edge.1 ∧ edge.2.readings = []

instance (g : CutGraph) (edge : Nat × Edge) : Decidable (g.IsUnreadable edge) := by
  unfold IsUnreadable; infer_instance

/-- The syllable of the preferred reading of an edge, if it is one of a syllable that has any. -/
def preferredSyllable (g : CutGraph) (edge : Nat × Edge) : List Syllable :=
  if g.IsSeparator edge.1 then [] else (edge.2.readings.head?.map Reading.syllable).toList

theorem edgeSyllables_eq (g : CutGraph) (edge : Nat × Edge) :
    g.edgeSyllables edge.1 edge.2 =
      if g.IsUnreadable edge then .error (.unreadable (g.piece edge.1 edge.2.stop) g.text)
      else .ok (g.preferredSyllable edge) := by
  by_cases hsep : g.IsSeparator edge.1 <;> cases hreadings : edge.2.readings <;>
    simp [edgeSyllables, IsUnreadable, preferredSyllable, hsep, hreadings]

end CutGraph

/-- Where elements fail by themselves, a list fails with the first that does. -/
theorem mapM_eq_of_find? {α β ε : Type} {f : α → Except ε β} {Fails : α → Prop} [DecidablePred Fails]
    {error : α → ε} {value : α → β}
    (h : ∀ x, f x = if Fails x then .error (error x) else .ok (value x)) (xs : List α) :
    xs.mapM f =
      match xs.find? fun x => Fails x with
      | some x => .error (error x)
      | none => .ok (xs.map value) := by
  induction xs with
  | nil => rfl
  | cons x xs ih =>
      by_cases hx : Fails x
      · simp [h, hx, bind, Except.bind]
      · rw [List.mapM_cons, h, if_neg hx, ih, List.find?_cons_of_neg (by simpa using hx)]
        cases xs.find? fun x => Fails x <;> rfl

/-- The syllables of a text are those of its preferred cuts; the first that cannot be read is named
where there is one. -/
theorem syllablesOf_eq {text : List Char} {g : CutGraph} (hg : CutGraph.ofPinyin .plain text = g) :
    syllablesOf text =
      match (g.preferredFrom 0).find? fun edge => g.IsUnreadable edge with
      | some edge => .error (.unreadable (g.piece edge.1 edge.2.stop) text)
      | none => .ok ((g.preferredFrom 0).flatMap g.preferredSyllable) := by
  have harrives : arrival (g.preferredFrom 0) = g.size := by
    rw [← hg]
    exact (CutGraph.hasNoDeadEnds_ofPinyin .plain text).arrival_preferredFrom
  have htext : g.text = text := by rw [← hg, CutGraph.text_ofPinyin]
  have hway := mapM_eq_of_find? g.edgeSyllables_eq (g.preferredFrom 0)
  rw [htext] at hway
  simp only [syllablesOf, hg, hway, if_pos harrives]
  cases (g.preferredFrom 0).find? fun edge => g.IsUnreadable edge with
  | some edge => rfl
  | none => exact congrArg Except.ok List.flatMap_def.symm

/-- The code of a text is that of its syllables. -/
theorem encodePinyin_eq {text : List Char} {g : CutGraph}
    (hg : CutGraph.ofPinyin .plain text = g) :
    encodePinyin text =
      match (g.preferredFrom 0).find? fun edge => g.IsUnreadable edge with
      | some edge => .error (.unreadable (g.piece edge.1 edge.2.stop) text)
      | none => .ok (codeOf ((g.preferredFrom 0).flatMap g.preferredSyllable)) := by
  rw [encodePinyin, syllablesOf_eq hg]
  cases (g.preferredFrom 0).find? fun edge => g.IsUnreadable edge <;> rfl

/-- A text is refused exactly if one of the pieces between its preferred cuts cannot be read. -/
theorem exists_encodePinyin_eq_error_iff {text : List Char} {g : CutGraph}
    (hg : CutGraph.ofPinyin .plain text = g) :
    (∃ e, encodePinyin text = .error e) ↔ ∃ edge ∈ g.preferredFrom 0, g.IsUnreadable edge := by
  have hfound : (∃ edge ∈ g.preferredFrom 0, g.IsUnreadable edge) ↔
      ((g.preferredFrom 0).find? fun edge => g.IsUnreadable edge).isSome := by
    simp [List.find?_isSome]
  rw [encodePinyin_eq hg, hfound]
  cases (g.preferredFrom 0).find? fun edge => g.IsUnreadable edge <;> simp

/-- **A text is cut to its end.**  The search that lays the edges of its graph stops, every edge
runs forward inside the text, and none is refused; whatever can be reached along them leads on to
the end.  So the preferred cuts always cover the text, and it is refused exactly if one of the
pieces between them, which is no separator, has no reading; the first of these is named. -/
theorem segmentation_covers (text : List Char) :
    (∀ opts : ReadingOptions,
      let plan := planFrom opts text 0 [0]
      let g := CutGraph.ofPinyin opts text
      (∃ w, Worklist.Run opts text .start w ∧ w.waiting = [] ∧ w.plan = plan) ∧
      (∀ edge ∈ plan, edge.1 < edge.2 ∧ edge.2 ≤ text.length) ∧
      plan.foldlM (fun (g : CutGraph) (edge : Nat × Nat) =>
        g.add edge.1 edge.2 (CutGraph.labelOf opts.fuzzy text edge.1 edge.2))
        (CutGraph.ofText text) = .ok g ∧
      (∀ p q, q ∈ g.successors p ↔ (p, q) ∈ plan) ∧
      (∀ p, g.Reaches 0 p → g.Reaches p g.size) ∧ g.IsConnected) ∧
    let g := CutGraph.ofPinyin .plain text
    let way := g.preferredFrom 0
    arrival way = g.size ∧
    encodePinyin text =
      (match way.find? fun edge => g.IsUnreadable edge with
      | some edge => .error (.unreadable (g.piece edge.1 edge.2.stop) text)
      | none => .ok (codeOf (way.flatMap g.preferredSyllable))) ∧
    (∀ cause, encodePinyin text ≠ .error (.uncovered cause)) ∧
    ((∃ e, encodePinyin text = .error e) ↔ ∃ edge ∈ way, g.IsUnreadable edge) := by
  refine ⟨fun opts => ?_, ?_, encodePinyin_eq rfl, fun cause h => ?_,
    exists_encodePinyin_eq_error_iff rfl⟩
  · have hcovers := CutGraph.hasNoDeadEnds_ofPinyin opts text
    exact ⟨Worklist.run_start opts text, CutGraph.forward_of_mem_plan,
      CutGraph.foldlM_add_planFrom opts text, fun p q => CutGraph.mem_successors_ofPinyin_iff,
      fun p hp => hcovers.reaches_size hp, hcovers.isConnected⟩
  · exact (CutGraph.hasNoDeadEnds_ofPinyin .plain text).arrival_preferredFrom
  · rw [encodePinyin_eq rfl] at h
    split at h <;> cases h

/-- The middle of a syllable that is cut in two is reached and left; a stray sign cannot be
read. -/
theorem segmentation_covers_sample :
    let g := CutGraph.ofPinyin ⟨FuzzySet.empty, true⟩ "xian".toList
    g.Reaches 0 2 ∧ g.Reaches 2 4 ∧ ∃ e, encodePinyin "ni!".toList = .error e := by
  obtain ⟨hcovers, -⟩ := segmentation_covers "xian".toList
  obtain ⟨-, -, -, hplan, hreaches, -⟩ := hcovers ⟨FuzzySet.empty, true⟩
  obtain ⟨-, -, -, -, hrefused⟩ := segmentation_covers "ni!".toList
  have hmiddle : (0, 2) ∈ planFrom ⟨FuzzySet.empty, true⟩ "xian".toList 0 [0] := by decide +kernel
  have hreached := CutGraph.reaches_iff.2 (.inr ⟨0, .refl, (hplan 0 2).2 hmiddle⟩)
  have hend := hreaches 2 hreached
  rw [CutGraph.size_ofPinyin] at hend
  exact ⟨hreached, hend, hrefused.2 (by decide +kernel)⟩

end Pinyin
