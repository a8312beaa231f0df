import Pinyin.Segmentation

/-!
# Pinyin.Proofs.Segmentation.Plan

Where the edges of a segmentation run.

* `mem_cutLengths_cases` — when the longest piece is cut off whole, and when it lends a letter;
* `mem_frontCuts`, `mem_frontSplits` — a cut is a part of the text that is left, and a syllable
  that is cut in two has two parts;
* `mem_frontEdges` — the edges that are laid when a position is cut from;
* `forward_of_mem_planFrom` — every edge runs forward inside the text.
-/

namespace Pinyin

/-! ## Cuts -/

section

variable {fz : FuzzySet} {rest : List Char} {n : Nat}

theorem length_longestMatch_pos (fz : FuzzySet) (rest : List Char) :
    0 < (longestMatch fz rest).length :=
  length_longestUpTo_pos fz rest maxSpelling

theorem length_longestMatch_le (fz : FuzzySet) (hrest : rest ≠ []) :
    (longestMatch fz rest).length ≤ rest.length :=
  length_longestUpTo_le fz maxSpelling hrest

/-- The longest piece is cut off whole unless it does better to lend a letter, and without its last
letter if it may lend it and does no worse. -/
theorem mem_cutLengths_cases {m : Nat} (hm : (longestMatch fz rest).length = m)
    (h : n ∈ cutLengths fz rest) :
    (n = m ∧ ((longestMatch fz rest).complete = true → MayLend fz rest m →
      reach (m - 1) (longestMatch fz (rest.drop (m - 1)))
        ≤ reach m (longestMatch fz (rest.drop m)))) ∨
    (n = m - 1 ∧ (longestMatch fz rest).complete = true ∧ MayLend fz rest m ∧
      reach m (longestMatch fz (rest.drop m))
        ≤ reach (m - 1) (longestMatch fz (rest.drop (m - 1)))) := by
  subst hm
  rw [cutLengths] at h
  split at h
  case isFalse hnone =>
    exact .inl ⟨List.mem_singleton.1 h, fun hcomplete hlend => (hnone ⟨hcomplete, hlend⟩).elim⟩
  case isTrue hlend =>
    rcases List.mem_append.1 h with h | h
    · split at h
      · next hle => exact .inl ⟨List.mem_singleton.1 h, fun _ _ => hle⟩
      · cases h
    · split at h
      · next hle => exact .inr ⟨List.mem_singleton.1 h, hlend.1, hlend.2, hle⟩
      · cases h

/-- A piece is cut off whole, or without a letter that it may lend. -/
theorem mem_cutLengths (h : n ∈ cutLengths fz rest) :
    n = (longestMatch fz rest).length ∨
      n + 1 = (longestMatch fz rest).length ∧ 1 < (longestMatch fz rest).length := by
  rcases mem_cutLengths_cases rfl h with ⟨hn, -⟩ | ⟨hn, -, ⟨hlong, -⟩, -⟩
  · exact .inl hn
  · exact .inr ⟨by omega, hlong⟩

/-- Of two cuts that compete one at least wins. -/
theorem cutLengths_ne_nil (fz : FuzzySet) (rest : List Char) : cutLengths fz rest ≠ [] := by
  unfold cutLengths
  simp only
  split
  · split
    · simp
    · next hless => simp [Nat.le_of_not_le hless]
  · simp

theorem frontCuts_ne_nil (fz : FuzzySet) (rest : List Char) : frontCuts fz rest ≠ [] := by
  unfold frontCuts
  split
  · simp
  · exact cutLengths_ne_nil fz rest

/-- A cut off the front of a text is a part of it. -/
theorem mem_frontCuts (hrest : rest ≠ []) (h : n ∈ frontCuts fz rest) :
    0 < n ∧ n ≤ rest.length := by
  unfold frontCuts at h
  split at h
  · next hsep =>
    obtain ⟨rest', rfl⟩ := List.head?_eq_some_iff.1 hsep
    rw [List.mem_singleton.1 h]
    exact ⟨by simp, (List.takeWhile_sublist _).length_le⟩
  · have hpos := length_longestMatch_pos fz rest
    have hle := length_longestMatch_le fz hrest
    rcases mem_cutLengths h with hn | ⟨hn, hlong⟩ <;> omega

/-- Both parts of a text that is cut in two have letters. -/
theorem length_of_innerSplit? {cs head tail : List Char} (h : innerSplit? cs = some (head, tail)) :
    0 < head.length ∧ head.length < cs.length := by
  have htext : ∀ s ∈ Syllable.full, 0 < s.text.length := by decide +kernel
  obtain ⟨happend, -, ⟨s, hs, -, rfl⟩, ⟨t, ht, -, rfl⟩⟩ := parts_of_innerSplit? h
  have hhead := htext s hs
  have htail := htext t ht
  have hlen := congrArg List.length happend
  rw [List.length_append] at hlen
  omega

/-- What is cut in two is one of the cuts. -/
theorem innerSplit?_of_mem_frontSplits {opts : ReadingOptions} {m : Nat}
    (h : (m, n) ∈ frontSplits opts rest) :
    n ∈ frontCuts opts.fuzzy rest ∧
      ∃ head tail, innerSplit? (rest.take n) = some (head, tail) ∧ head.length = m := by
  unfold frontSplits at h
  split at h
  · next hsplit =>
    obtain ⟨n, hn, hsome⟩ := List.mem_filterMap.1 h
    obtain ⟨⟨head, tail⟩, hinner, heq⟩ := Option.map_eq_some_iff.1 hsome
    cases heq
    rw [frontCuts, if_neg hsplit.2.1]
    exact ⟨hn, head, tail, hinner, rfl⟩
  · cases h

/-- A syllable is cut in two within one of the cuts. -/
theorem mem_frontSplits {opts : ReadingOptions} {m : Nat} (h : (m, n) ∈ frontSplits opts rest) :
    0 < m ∧ m < n ∧ n ∈ frontCuts opts.fuzzy rest := by
  obtain ⟨hn, head, tail, hinner, rfl⟩ := innerSplit?_of_mem_frontSplits h
  obtain ⟨hpos, hlt⟩ := length_of_innerSplit? hinner
  rw [List.length_take] at hlt
  exact ⟨hpos, by omega, hn⟩

end

/-! ## Edges -/

section

variable {opts : ReadingOptions} {rest : List Char} {c : Char} {p start stop : Nat}
  {due : List Nat}

/-- The edges that are laid when a position is cut from, where a text begins. -/
def frontEdges (opts : ReadingOptions) (rest : List Char) (p : Nat) : List (Nat × Nat) :=
  (frontCuts opts.fuzzy rest).map (fun n => (p, p + n)) ++
    (frontSplits opts rest).flatMap fun (m, n) => [(p, p + m), (p + m, p + n)]

/-- The positions that are cut from later, after a position is cut from. -/
def frontStops (opts : ReadingOptions) (rest : List Char) (p : Nat) : List Nat :=
  (frontCuts opts.fuzzy rest).map (p + ·)

theorem planFrom_of_mem (h : p ∈ due) :
    planFrom opts (c :: rest) p due
      = frontEdges opts (c :: rest) p ++
        planFrom opts rest (p + 1) (due ++ frontStops opts (c :: rest) p) := by
  rw [planFrom, if_pos h]
  rfl

theorem planFrom_of_notMem (h : p ∉ due) :
    planFrom opts (c :: rest) p due = planFrom opts rest (p + 1) due := by
  rw [planFrom, if_neg h]

theorem mem_frontEdges :
    (start, stop) ∈ frontEdges opts rest p ↔
      (start = p ∧ stop ∈ frontStops opts rest p) ∨
      ∃ split ∈ frontSplits opts rest,
        (start = p ∧ stop = p + split.1) ∨ (start = p + split.1 ∧ stop = p + split.2) := by
  simp only [frontEdges, frontStops, List.mem_append, List.mem_map, List.mem_flatMap,
    List.mem_cons, List.not_mem_nil, or_false, Prod.mk.injEq]
  grind

theorem mem_frontStops (hrest : rest ≠ []) (h : stop ∈ frontStops opts rest p) :
    p < stop ∧ stop ≤ p + rest.length := by
  obtain ⟨n, hn, rfl⟩ := List.mem_map.1 h
  have := mem_frontCuts hrest hn
  omega

theorem add_mem_frontStops {split : Nat × Nat} (h : split ∈ frontSplits opts rest) :
    p + split.2 ∈ frontStops opts rest p :=
  List.mem_map_of_mem (mem_frontSplits h).2.2

theorem forward_of_mem_frontEdges (hrest : rest ≠ []) (h : (start, stop) ∈ frontEdges opts rest p) :
    p ≤ start ∧ start < stop ∧ stop ≤ p + rest.length := by
  rcases mem_frontEdges.1 h with ⟨rfl, hstop⟩ | ⟨split, hsplit, hends⟩
  · have := mem_frontStops hrest hstop
    omega
  · have hparts := mem_frontSplits hsplit
    have hstop : p + split.2 ∈ frontStops opts rest p := add_mem_frontStops hsplit
    have hwhole := mem_frontStops hrest hstop
    omega

/-- **Every edge runs forward inside the text.** -/
theorem forward_of_mem_planFrom (h : (start, stop) ∈ planFrom opts rest p due) :
    p ≤ start ∧ start < stop ∧ stop ≤ p + rest.length := by
  induction rest generalizing p due with
  | nil => cases h
  | cons c rest ih =>
      by_cases hp : p ∈ due
      · rw [planFrom_of_mem hp, List.mem_append] at h
        rcases h with h | h
        · exact forward_of_mem_frontEdges (List.cons_ne_nil c rest) h
        · have := ih h
          rw [List.length_cons]
          omega
      · rw [planFrom_of_notMem hp] at h
        have := ih h
        rw [List.length_cons]
        omega

theorem frontSplits_eq_nil (hinner : opts.inner = false) (rest : List Char) :
    frontSplits opts rest = [] := by
  simp [frontSplits, hinner]

end

end Pinyin
