import Mathlib.Data.List.Basic
import Pinyin.Proofs.Segmentation.Plan

/-!
# Pinyin.Proofs.Segmentation.Positions

The positions that a text is cut from, and what is laid from each of them.

* `cutPositionsFrom`, `cutPositions` — these positions, ascending; whether syllables are also cut in
  two has no bearing on them;
* `planFrom_eq_flatMap` — a plan lays the edges of one such position after the other;
* `mem_cutPositions_iff` — they are the start, and where the cuts from other ones end;
* `mem_plan_iff`, `mem_plan_whole_iff` — the edges of a plan, by the positions they are laid from;
* `drop_of_mem_cutPositions` — what every cut preserves holds wherever a text is cut from;
* `exists_mem_plan` — from every position where an edge ends another one begins, up to the end.
-/

namespace Pinyin

/-- The positions that are cut from, from position `p` on, where `rest` begins. -/
def cutPositionsFrom (fz : FuzzySet) : (rest : List Char) → (p : Nat) → (due : List Nat) → List Nat
  | [], _, _ => []
  | c :: rest, p, due =>
    if p ∈ due then
      p :: cutPositionsFrom fz rest (p + 1) (due ++ (frontCuts fz (c :: rest)).map (p + ·))
    else cutPositionsFrom fz rest (p + 1) due

/-- The positions that a text is cut from. -/
def cutPositions (fz : FuzzySet) (text : List Char) : List Nat := cutPositionsFrom fz text 0 [0]

section

variable {opts : ReadingOptions} {fz : FuzzySet} {text rest : List Char} {c : Char} {p q : Nat}
  {due : List Nat}

theorem cutPositionsFrom_of_mem (h : p ∈ due) :
    cutPositionsFrom fz (c :: rest) p due
      = p :: cutPositionsFrom fz rest (p + 1) (due ++ (frontCuts fz (c :: rest)).map (p + ·)) := by
  rw [cutPositionsFrom, if_pos h]

theorem cutPositionsFrom_of_notMem (h : p ∉ due) :
    cutPositionsFrom fz (c :: rest) p due = cutPositionsFrom fz rest (p + 1) due := by
  rw [cutPositionsFrom, if_neg h]

/-- What is left of a text behind its first character. -/
theorem drop_succ_of_drop_eq_cons (h : text.drop p = c :: rest) : text.drop (p + 1) = rest := by
  rw [← List.tail_drop, h, List.tail_cons]

theorem lt_length_of_drop_eq_cons (h : text.drop p = c :: rest) : p < text.length := by
  have hne : text.drop p ≠ [] := by simp [h]
  simpa using hne

/-- **A plan lays the edges of one position after the other.** -/
theorem planFrom_eq_flatMap (opts : ReadingOptions) (hrest : text.drop p = rest) (due : List Nat) :
    planFrom opts rest p due
      = (cutPositionsFrom opts.fuzzy rest p due).flatMap fun q =>
          frontEdges opts (text.drop q) q := by
  induction rest generalizing p due with
  | nil => rfl
  | cons c rest ih =>
      have htail := drop_succ_of_drop_eq_cons hrest
      by_cases hp : p ∈ due
      · rw [planFrom_of_mem hp, cutPositionsFrom_of_mem hp, List.flatMap_cons, hrest, ih htail]
        rfl
      · rw [planFrom_of_notMem hp, cutPositionsFrom_of_notMem hp, ih htail]

/-- A position is cut from if it is due, and from then on if a cut ends there. -/
theorem mem_cutPositionsFrom_iff (hrest : text.drop p = rest) :
    q ∈ cutPositionsFrom fz rest p due ↔
      (p ≤ q ∧ q < text.length) ∧
        (q ∈ due ∨ ∃ r ∈ cutPositionsFrom fz rest p due, ∃ n ∈ frontCuts fz (text.drop r),
          q = r + n) := by
  induction rest generalizing p due q with
  | nil =>
      have hend : text.length ≤ p := List.drop_eq_nil_iff.1 hrest
      simp only [cutPositionsFrom, List.not_mem_nil, false_iff]
      omega
  | cons c rest ih =>
      have htail := drop_succ_of_drop_eq_cons hrest
      have hlt := lt_length_of_drop_eq_cons hrest
      by_cases hp : p ∈ due
      case neg =>
        rw [cutPositionsFrom_of_notMem hp]
        have hlater : ∀ r ∈ cutPositionsFrom fz rest (p + 1) due, p < r := fun r hr =>
          ((ih htail).1 hr).1.1
        rw [ih htail]
        refine ⟨fun ⟨hin, h⟩ => ⟨⟨by omega, hin.2⟩, h⟩, fun ⟨hin, h⟩ => ⟨⟨?_, hin.2⟩, h⟩⟩
        rcases h with hq | ⟨r, hr, n, -, rfl⟩
        · have : q ≠ p := fun heq => hp (heq ▸ hq)
          omega
        · have := hlater r hr
          omega
      case pos =>
        rw [cutPositionsFrom_of_mem hp, List.mem_cons, ih htail, List.mem_append, List.mem_map]
        by_cases hq : q = p
        · simp [hq, hp, hlt]
        · simp only [hq, false_or, List.exists_mem_cons_iff, hrest]
          have hstart : p + 1 ≤ q ↔ p ≤ q := by omega
          simp only [hstart, or_assoc, eq_comm]

theorem pairwise_cutPositionsFrom (hrest : text.drop p = rest) (due : List Nat) :
    (cutPositionsFrom fz rest p due).Pairwise (· < ·) := by
  induction rest generalizing p due with
  | nil => exact .nil
  | cons c rest ih =>
      have htail := drop_succ_of_drop_eq_cons hrest
      by_cases hp : p ∈ due
      · rw [cutPositionsFrom_of_mem hp, List.pairwise_cons]
        exact ⟨fun q hq => ((mem_cutPositionsFrom_iff htail).1 hq).1.1, ih htail _⟩
      · rw [cutPositionsFrom_of_notMem hp]
        exact ih htail due

/-- **The positions that are cut from** are the start of a text, and where the cuts from other ones
end. -/
theorem mem_cutPositions_iff :
    q ∈ cutPositions fz text ↔
      q < text.length ∧
        (q = 0 ∨ ∃ r ∈ cutPositions fz text, ∃ n ∈ frontCuts fz (text.drop r), q = r + n) := by
  rw [cutPositions, mem_cutPositionsFrom_iff List.drop_zero]
  simp

theorem pairwise_cutPositions (fz : FuzzySet) (text : List Char) :
    (cutPositions fz text).Pairwise (· < ·) :=
  pairwise_cutPositionsFrom List.drop_zero [0]

theorem drop_ne_nil_of_mem_cutPositions (h : q ∈ cutPositions fz text) : text.drop q ≠ [] := by
  simpa using (mem_cutPositions_iff.1 h).1

/-- The edges of a plan are those that are laid from the positions that are cut from. -/
theorem mem_plan_iff {edge : Nat × Nat} :
    edge ∈ planFrom opts text 0 [0] ↔
      ∃ q ∈ cutPositions opts.fuzzy text, edge ∈ frontEdges opts (text.drop q) q := by
  rw [planFrom_eq_flatMap opts List.drop_zero, List.mem_flatMap]
  rfl

/-- Where no syllable is cut in two the edges are the cuts. -/
theorem mem_plan_whole_iff (hinner : opts.inner = false) {stop : Nat} :
    (q, stop) ∈ planFrom opts text 0 [0] ↔
      q ∈ cutPositions opts.fuzzy text ∧ stop ∈ frontStops opts (text.drop q) q := by
  simp only [mem_plan_iff, mem_frontEdges, frontSplits_eq_nil hinner]
  constructor
  · rintro ⟨r, hr, ⟨rfl, hstop⟩ | ⟨split, hsplit, -⟩⟩
    · exact ⟨hr, hstop⟩
    · cases hsplit
  · rintro ⟨hq, hstop⟩
    exact ⟨q, hq, .inl ⟨rfl, hstop⟩⟩

/-- **What holds of a text and is preserved by every cut** holds of what is left of it wherever it is
cut from. -/
theorem drop_of_mem_cutPositions {P : List Char → Prop}
    (hstep : ∀ rest, rest ≠ [] → P rest → ∀ n ∈ frontCuts fz rest, P (rest.drop n))
    (htext : P text) (hq : q ∈ cutPositions fz text) : P (text.drop q) := by
  induction q using Nat.strongRecOn with
  | ind q ih =>
      obtain ⟨-, rfl | ⟨r, hr, n, hn, rfl⟩⟩ := mem_cutPositions_iff.1 hq
      · simpa using htext
      · -- The cut that ends here was made at an earlier position.
        have hrest := drop_ne_nil_of_mem_cutPositions hr
        have hpos := (mem_frontCuts hrest hn).1
        have hnext := hstep _ hrest (ih r (by omega) hr) n hn
        rwa [List.drop_drop] at hnext

/-- **From every position where an edge ends another one begins**, up to the end of the text: the
position is cut from, or it is the middle of a syllable, from where the second part goes on. -/
theorem exists_mem_plan (hq : q = 0 ∨ ∃ start, (start, q) ∈ planFrom opts text 0 [0])
    (hlt : q < text.length) : ∃ stop, (q, stop) ∈ planFrom opts text 0 [0] := by
  have hcut : q ∈ cutPositions opts.fuzzy text → ∃ stop, (q, stop) ∈ planFrom opts text 0 [0] := by
    intro hq
    obtain ⟨n, hn⟩ := List.exists_mem_of_ne_nil _ (frontCuts_ne_nil opts.fuzzy (text.drop q))
    exact ⟨q + n, mem_plan_iff.2 ⟨q, hq, mem_frontEdges.2 (.inl ⟨rfl, List.mem_map_of_mem hn⟩)⟩⟩
  have hstop : ∀ r ∈ cutPositions opts.fuzzy text, q ∈ frontStops opts (text.drop r) r →
      q ∈ cutPositions opts.fuzzy text := by
    intro r hr hstop
    obtain ⟨n, hn, rfl⟩ := List.mem_map.1 hstop
    exact mem_cutPositions_iff.2 ⟨hlt, .inr ⟨r, hr, n, hn, rfl⟩⟩
  rcases hq with rfl | ⟨start, hedge⟩
  · exact hcut (mem_cutPositions_iff.2 ⟨hlt, .inl rfl⟩)
  · obtain ⟨r, hr, hedge⟩ := mem_plan_iff.1 hedge
    rcases mem_frontEdges.1 hedge with ⟨-, hend⟩ | ⟨split, hsplit, ⟨-, rfl⟩ | ⟨-, rfl⟩⟩
    · exact hcut (hstop r hr hend)
    · refine ⟨r + split.2, mem_plan_iff.2 ⟨r, hr, ?_⟩⟩
      exact mem_frontEdges.2 (.inr ⟨split, hsplit, .inr ⟨rfl, rfl⟩⟩)
    · exact hcut (hstop r hr (add_mem_frontStops hsplit))

end

end Pinyin
