import Pinyin.Proofs.CutGraph.Traversal
import Pinyin.Proofs.Segmentation.Labels

/-!
# Pinyin.Proofs.Segmentation.Halves

What it adds to the graph of a text that syllables are also cut in two.

* `mem_frontSplits_iff` — a cut is also cut in two wherever its text can be parted;
* `CutGraph.IsHalved`, `CutGraph.IsHalf` — the edges that are cut in two, and their halves;
* `CutGraph.mem_successors_halved_iff` — the plan with halves is the plan without, and they;
* `CutGraph.halves_added` — so all edges stay as they are, and all ways along them, and the edges
  that are new are halves of old ones.
-/

namespace Pinyin

section

variable {fz : FuzzySet} {rest : List Char} {m n : Nat}

/-- A cut that can be parted is no run of separators, and the longest piece there is complete. -/
theorem complete_of_innerSplit? {parts : List Char × List Char} (hn : n ∈ frontCuts fz rest)
    (hinner : innerSplit? (rest.take n) = some parts) :
    rest.head? ≠ some separator ∧ (longestMatch fz rest).complete = true := by
  obtain ⟨-, ⟨hlen, s, hs, htext⟩, -, -⟩ := parts_of_innerSplit? hinner
  have hsep : rest.head? ≠ some separator := by
    intro hsep
    refine s.separator_notMem_text ?_
    obtain ⟨rest, rfl⟩ := List.head?_eq_some_iff.1 hsep
    cases n with
    | zero => simp at hlen
    | succ n => simp [htext]
  refine ⟨hsep, ?_⟩
  rw [frontCuts, if_neg hsep] at hn
  rcases mem_cutLengths_cases rfl hn with ⟨rfl, -⟩ | ⟨-, hcomplete, -⟩
  · refine complete_longestMatch_iff.2 ⟨?_, ?_, ?_⟩
    · rw [← htext]
      exact List.ne_nil_of_mem (mem_fullReadings_text (Syllable.mem_full.1 hs) fz)
    · rintro heq
      simp [heq] at hlen
    · rintro heq
      simp [heq] at hlen
  · exact hcomplete

/-- **A cut is also cut in two** wherever its text can be parted. -/
theorem mem_frontSplits_iff :
    (m, n) ∈ frontSplits ⟨fz, true⟩ rest ↔
      n ∈ frontCuts fz rest ∧
        ∃ head tail, innerSplit? (rest.take n) = some (head, tail) ∧ head.length = m := by
  refine ⟨innerSplit?_of_mem_frontSplits, ?_⟩
  rintro ⟨hn, head, tail, hinner, rfl⟩
  obtain ⟨hsep, hcomplete⟩ := complete_of_innerSplit? hn hinner
  rw [frontCuts, if_neg hsep] at hn
  rw [frontSplits, if_pos ⟨rfl, hsep, hcomplete⟩, List.mem_filterMap]
  exact ⟨n, hn, by rw [hinner]; rfl⟩

end

namespace CutGraph

/-- An edge is cut in two: the text between the positions it joins can be parted in the middle. -/
def IsHalved (g : CutGraph) (top mid stop : Nat) : Prop :=
  stop ∈ g.successors top ∧
    ∃ head tail, innerSplit? (g.piece top stop) = some (head, tail) ∧ top + head.length = mid

/-- Two positions are the ends of a half of an edge that is cut in two. -/
def IsHalf (g : CutGraph) (p q : Nat) : Prop :=
  ∃ top mid stop, g.IsHalved top mid stop ∧ ((p = top ∧ q = mid) ∨ (p = mid ∧ q = stop))

section

variable {fz : FuzzySet} {text : List Char} {p q top mid stop : Nat}

/-- Where no syllable is cut in two the edges are the cuts. -/
theorem mem_successors_whole_iff :
    q ∈ (ofPinyin ⟨fz, false⟩ text).successors p ↔
      p ∈ cutPositions fz text ∧ q ∈ frontStops ⟨fz, false⟩ (text.drop p) p :=
  mem_successors_ofPinyin_iff.trans (mem_plan_whole_iff rfl)

/-- The edges that are cut in two are those that are laid in two halves besides. -/
theorem isHalved_whole_iff :
    (ofPinyin ⟨fz, false⟩ text).IsHalved top mid stop ↔
      top ∈ cutPositions fz text ∧
        ∃ split ∈ frontSplits ⟨fz, true⟩ (text.drop top),
          mid = top + split.1 ∧ stop = top + split.2 := by
  rw [IsHalved, mem_successors_whole_iff, and_assoc]
  refine and_congr_right fun _ => ?_
  rw [piece, text_ofPinyin]
  constructor
  · rintro ⟨hstop, head, tail, hinner, rfl⟩
    obtain ⟨n, hn, rfl⟩ := List.mem_map.1 hstop
    rw [Nat.add_sub_cancel_left] at hinner
    exact ⟨(head.length, n), mem_frontSplits_iff.2 ⟨hn, head, tail, hinner, rfl⟩, rfl, rfl⟩
  · rintro ⟨⟨m, n⟩, hsplit, rfl, rfl⟩
    obtain ⟨hn, head, tail, hinner, rfl⟩ := mem_frontSplits_iff.1 hsplit
    rw [Nat.add_sub_cancel_left]
    exact ⟨List.mem_map_of_mem hn, head, tail, hinner, rfl⟩

/-- **With halves the plan is the one without, and they.** -/
theorem mem_successors_halved_iff :
    q ∈ (ofPinyin ⟨fz, true⟩ text).successors p ↔
      q ∈ (ofPinyin ⟨fz, false⟩ text).successors p ∨ (ofPinyin ⟨fz, false⟩ text).IsHalf p q := by
  rw [mem_successors_whole_iff, mem_successors_ofPinyin_iff, mem_plan_iff]
  simp only [IsHalf, isHalved_whole_iff, mem_frontEdges]
  constructor
  · rintro ⟨r, hr, ⟨rfl, hq⟩ | ⟨split, hsplit, hends⟩⟩
    · exact .inl ⟨hr, hq⟩
    · exact .inr ⟨r, _, _, ⟨hr, split, hsplit, rfl, rfl⟩, hends⟩
  · rintro (⟨hp, hq⟩ | ⟨top, mid, stop, ⟨htop, split, hsplit, rfl, rfl⟩, hends⟩)
    · exact ⟨p, hp, .inl ⟨rfl, hq⟩⟩
    · exact ⟨top, htop, .inr ⟨split, hsplit, hends⟩⟩

/-- A half is a piece. -/
theorem IsHalf.isPiece (h : (ofPinyin ⟨fz, false⟩ text).IsHalf p q) :
    p < q ∧ IsPiece fz ((text.drop p).take (q - p)) := by
  obtain ⟨top, mid, stop, hhalved, hends⟩ := h
  obtain ⟨-, ⟨m, n⟩, hsplit, rfl, rfl⟩ := isHalved_whole_iff.1 hhalved
  obtain ⟨hpos, hlt, -⟩ := mem_frontSplits hsplit
  obtain ⟨hhead, htail⟩ := isPiece_of_mem_frontSplits hsplit
  rcases hends with ⟨rfl, rfl⟩ | ⟨rfl, rfl⟩
  · rw [Nat.add_sub_cancel_left]
    exact ⟨by omega, hhead⟩
  · rw [Nat.add_sub_add_left, ← List.drop_drop]
    exact ⟨by omega, htail⟩

/-- So it is labelled with its readings. -/
theorem IsHalf.labelOf_eq (h : (ofPinyin ⟨fz, false⟩ text).IsHalf p q) :
    labelOf fz text p q = Pinyin.readings fz ((ofPinyin ⟨fz, false⟩ text).piece p q) := by
  obtain ⟨hlt, hpiece⟩ := h.isPiece
  have hsep : separator ∉ (ofPinyin ⟨fz, false⟩ text).piece p q := by
    rw [piece, text_ofPinyin]
    exact hpiece.separator_notMem
  rw [← labelOf_of_notMem hlt hsep, text_ofPinyin]

/-- Every way of a graph is one of a graph with more edges. -/
theorem mem_paths_of_successors_subset {g g' : CutGraph} (hsize : g.size = g'.size)
    (hmore : ∀ p q, q ∈ g.successors p → q ∈ g'.successors p) {path : Path} (h : path ∈ g.paths) :
    path ∈ g'.paths := by
  have hway := mem_pathsFrom_iff.1 h
  refine mem_pathsFrom_iff.2 ⟨hway.head?_eq, hway.isChain.imp fun p q => hmore p q, ?_⟩
  rw [← hsize]
  exact hway.getLast?_eq

end

/-- **Cutting syllables in two only adds halves.**  All edges are laid that are laid otherwise, with
the same readings, and so all ways along them are left; what is laid besides are the halves of such
edges, with the readings of their pieces. -/
theorem halves_added (fz : FuzzySet) (text : List Char) :
    let whole := ofPinyin ⟨fz, false⟩ text
    let halved := ofPinyin ⟨fz, true⟩ text
    (∀ p e, e ∈ halved.edgesAt p ↔ e ∈ whole.edgesAt p ∨
      (whole.IsHalf p e.stop ∧ e.readings = Pinyin.readings fz (whole.piece p e.stop))) ∧
    ∀ path ∈ whole.paths, path ∈ halved.paths := by
  intro whole halved
  refine ⟨fun p e => ?_, fun path => ?_⟩
  · have hplan : (p, e.stop) ∈ planFrom ⟨fz, true⟩ text 0 [0] ↔
        (p, e.stop) ∈ planFrom ⟨fz, false⟩ text 0 [0] ∨ whole.IsHalf p e.stop := by
      rw [← mem_successors_ofPinyin_iff, ← mem_successors_ofPinyin_iff, mem_successors_halved_iff]
    rw [mem_edgesAt_ofPinyin_iff, mem_edgesAt_ofPinyin_iff, hplan, or_and_right]
    exact or_congr_right (and_congr_right fun hhalf => by rw [hhalf.labelOf_eq])
  · refine mem_paths_of_successors_subset (by simp [whole, halved]) fun p q hq => ?_
    exact mem_successors_halved_iff.2 (.inl hq)

/-- "xian" has the halves "xi" and "an", and two ways. -/
example :
    let whole := ofPinyin ⟨FuzzySet.empty, false⟩ "xian".toList
    let halved := ofPinyin ⟨FuzzySet.empty, true⟩ "xian".toList
    whole.paths = [[0, 4]] ∧ halved.paths = [[0, 4], [0, 2, 4]] := by
  decide +kernel

end CutGraph

end Pinyin
