import Pinyin.Proofs.Segmentation.Edges
import Pinyin.Proofs.Segmentation.Pieces

/-!
# Pinyin.Proofs.Segmentation.Labels

What stands on the edges of the graph of a text.

* `IsWholeRun` — a run of separators that goes on at neither end;
* `isPiece_of_mem_cutLengths` — what is cut off elsewhere is a piece, or a character where none
  begins;
* `isPiece_of_mem_frontSplits` — the parts of a syllable that is cut in two are pieces;
* `CutGraph.isWholeRun_or_readings_eq` — so an edge is a whole run of separators, or it is labelled
  with the readings of its piece.
-/

namespace Pinyin

/-! ## Runs of separators -/

/-- Separators stand from one position to another, and none right before or behind them. -/
structure IsWholeRun (text : List Char) (start stop : Nat) : Prop where
  lt : start < stop
  separators : ∀ q, start ≤ q → q < stop → text[q]? = some separator
  before : ∀ q, q + 1 = start → text[q]? ≠ some separator
  behind : text[stop]? ≠ some separator

section

variable {fz : FuzzySet} {text rest : List Char} {n q : Nat}

/-- The separators at the front of a text are counted to the last. -/
theorem getElem?_run (rest : List Char) :
    (∀ i < (rest.takeWhile (· == separator)).length, rest[i]? = some separator) ∧
      rest[(rest.takeWhile (· == separator)).length]? ≠ some separator := by
  induction rest with
  | nil => simp
  | cons c rest ih =>
      by_cases hc : c = separator
      · subst hc
        rw [List.takeWhile_cons_of_pos (by simp), List.length_cons, List.getElem?_cons_succ]
        refine ⟨fun i hi => ?_, ih.2⟩
        cases i with
        | zero => rfl
        | succ i => exact ih.1 i (by omega)
      · rw [List.takeWhile_cons_of_neg (by simpa using hc)]
        simpa using hc

/-! ## Pieces -/

/-- **What is cut off is a piece**, or a single character where none begins. -/
theorem isPiece_of_mem_cutLengths (h : n ∈ cutLengths fz rest) :
    IsPiece fz (rest.take n) ∨ n = 1 ∧ ∀ cs, cs <+: rest → ¬ IsPiece fz cs := by
  rcases mem_cutLengths_cases rfl h with ⟨rfl, -⟩ | ⟨rfl, -, hlend, -⟩
  · by_cases hpiece : IsPiece fz (rest.take (longestMatch fz rest).length)
    · exact .inl hpiece
    · have hpos := length_longestMatch_pos fz rest
      have hone : (longestMatch fz rest).length = 1 := by
        by_contra hne
        exact hpiece (isPiece_longestMatch (by omega))
      refine .inr ⟨hone, fun cs hcs hread => hpiece ?_⟩
      have hlong := le_length_longestMatch hread.length_le hcs.length_le
        (List.prefix_iff_eq_take.1 hcs ▸ hread)
      have hne : cs.length ≠ 0 := by
        rw [Ne, List.length_eq_zero_iff]
        rintro rfl
        exact not_isPiece_nil fz hread
      rwa [hone, show 1 = cs.length by omega, ← List.prefix_iff_eq_take.1 hcs]
  · exact .inl (.inl hlend.2.2.2)

/-- No separator is cut off with a piece. -/
theorem separator_notMem_take (hrest : rest ≠ []) (hsep : rest.head? ≠ some separator)
    (h : n ∈ cutLengths fz rest) : separator ∉ rest.take n := by
  rcases isPiece_of_mem_cutLengths h with hpiece | ⟨rfl, -⟩
  · exact hpiece.separator_notMem
  · obtain ⟨c, rest, rfl⟩ := List.exists_cons_of_ne_nil hrest
    simpa [eq_comm] using hsep

/-- The character before a position that is cut from is no separator if one stands there. -/
theorem getElem?_before_cutPosition (hq : q + 1 ∈ cutPositions fz text)
    (hsep : text[q + 1]? = some separator) : text[q]? ≠ some separator := by
  intro hbefore
  obtain ⟨-, hzero | ⟨r, hr, n, hn, heq⟩⟩ := mem_cutPositions_iff.1 hq
  · cases hzero
  have hrest := drop_ne_nil_of_mem_cutPositions hr
  have hpos := (mem_frontCuts hrest hn).1
  -- The cut that ends here is a whole run of separators, or it ends with a letter.
  rw [frontCuts] at hn
  split at hn
  · rw [heq, ← List.getElem?_drop, List.mem_singleton.1 hn] at hsep
    exact (getElem?_run _).2 hsep
  · next hfirst =>
    refine separator_notMem_take hrest hfirst hn (List.mem_iff_getElem?.2 ⟨n - 1, ?_⟩)
    rw [List.getElem?_take, if_pos (by omega), List.getElem?_drop, ← hbefore]
    congr 1
    omega

/-- A run of separators is cut off whole. -/
theorem isWholeRun_of_mem_cutPositions (hq : q ∈ cutPositions fz text)
    (hsep : (text.drop q).head? = some separator) (hn : n ∈ frontCuts fz (text.drop q)) :
    IsWholeRun text q (q + n) := by
  have hpos := (mem_frontCuts (drop_ne_nil_of_mem_cutPositions hq) hn).1
  rw [frontCuts, if_pos hsep, List.mem_singleton] at hn
  refine ⟨by omega, fun r hle hlt => ?_, fun r hr => ?_, ?_⟩
  · rw [show r = q + (r - q) by omega, ← List.getElem?_drop]
    exact (getElem?_run _).1 _ (by omega)
  · subst hr
    rw [List.head?_drop] at hsep
    exact getElem?_before_cutPosition hq hsep
  · rw [← List.getElem?_drop, hn]
    exact (getElem?_run _).2

end

/-! ## Parts of syllables -/

section

variable {cs : List Char}

theorem IsSplitHead.isPiece (h : IsSplitHead cs) (fz : FuzzySet) : IsPiece fz cs := by
  obtain ⟨s, hs, -, rfl⟩ := h
  exact Syllable.IsKnown.isPiece (.inl (Syllable.mem_full.1 hs)) fz

theorem IsSplitTail.isPiece (h : IsSplitTail cs) (fz : FuzzySet) : IsPiece fz cs := by
  obtain ⟨s, hs, -, rfl⟩ := h
  exact Syllable.IsKnown.isPiece (.inl (Syllable.mem_full.1 hs)) fz

/-- Each part of a syllable that is cut in two is a piece. -/
theorem isPiece_of_mem_frontSplits {opts : ReadingOptions} {rest : List Char} {m n : Nat}
    (h : (m, n) ∈ frontSplits opts rest) :
    IsPiece opts.fuzzy (rest.take m) ∧ IsPiece opts.fuzzy ((rest.drop m).take (n - m)) := by
  obtain ⟨-, head, tail, hinner, rfl⟩ := innerSplit?_of_mem_frontSplits h
  obtain ⟨hwhole, -, hhead, htail⟩ := parts_of_innerSplit? hinner
  have hlt := (length_of_innerSplit? hinner).2
  rw [List.length_take] at hlt
  have hfirst : rest.take head.length = head := by
    rw [← Nat.min_eq_left (show head.length ≤ n by omega), ← List.take_take, ← hwhole,
      List.take_left]
  have hsecond : (rest.drop head.length).take (n - head.length) = tail := by
    rw [← List.drop_take, ← hwhole, List.drop_left]
  rw [hfirst, hsecond]
  exact ⟨hhead.isPiece _, htail.isPiece _⟩

end

/-! ## Labels -/

namespace CutGraph

/-- An edge stands for a piece without separators and is labelled with its readings.  There are none
only where no piece begins, and then it is a single character. -/
structure IsLabelledPiece (fz : FuzzySet) (g : CutGraph) (p : Nat) (e : Edge) : Prop where
  separator_notMem : separator ∉ g.piece p e.stop
  length_le : (g.piece p e.stop).length ≤ maxSpelling
  readings_eq : e.readings = Pinyin.readings fz (g.piece p e.stop)
  unread : e.readings = [] →
    (g.piece p e.stop).length = 1 ∧ ∀ cs, cs <+: g.text.drop p → ¬ IsPiece fz cs

section

variable {fz : FuzzySet} {g : CutGraph} {p : Nat} {e : Edge}

/-- What holds no separator is labelled with its readings. -/
theorem labelOf_of_notMem {stop : Nat} (hlt : p < stop) (h : separator ∉ g.piece p stop) :
    labelOf fz g.text p stop = Pinyin.readings fz (g.piece p stop) := by
  refine if_neg fun hsep => h (List.mem_iff_getElem?.2 ⟨0, ?_⟩)
  rw [piece, List.getElem?_take, if_pos (by omega), List.getElem?_drop]
  exact hsep

/-- A piece is labelled with its readings, and it has some. -/
theorem isLabelledPiece_of_isPiece (hlt : p < e.stop)
    (hlabel : e.readings = labelOf fz g.text p e.stop) (h : IsPiece fz (g.piece p e.stop)) :
    g.IsLabelledPiece fz p e := by
  have hreadings := hlabel.trans (labelOf_of_notMem hlt h.separator_notMem)
  refine ⟨h.separator_notMem, h.length_le, hreadings, fun hnone => ?_⟩
  exact absurd (hreadings ▸ hnone) (readings_ne_nil_iff.2 h)

end

/-- **Every edge of the graph of a text is what its label says**: it is a whole run of separators,
and has no readings, or it is a piece that is labelled with its readings. -/
theorem isWholeRun_or_isLabelledPiece (opts : ReadingOptions) (text : List Char) {p : Nat}
    {e : Edge} (h : e ∈ (ofPinyin opts text).edgesAt p) :
    (IsWholeRun text p e.stop ∧ e.readings = []) ∨
      (ofPinyin opts text).IsLabelledPiece opts.fuzzy p e := by
  have hlt := lt_stop h
  obtain ⟨hedge, hlabel⟩ := mem_edgesAt_ofPinyin_iff.1 h
  rw [← text_ofPinyin opts text] at hlabel
  obtain ⟨q, hq, hedge⟩ := mem_plan_iff.1 hedge
  rcases mem_frontEdges.1 hedge with ⟨rfl, hstop⟩ | ⟨⟨m, n⟩, hsplit, hends⟩
  · obtain ⟨n, hn, hstop⟩ := List.mem_map.1 hstop
    by_cases hsep : (text.drop p).head? = some separator
    · refine .inl ⟨hstop ▸ isWholeRun_of_mem_cutPositions hq hsep hn, ?_⟩
      rw [hlabel, labelOf, text_ofPinyin, if_pos (List.head?_drop ▸ hsep)]
    · have hpiece : (ofPinyin opts text).piece p e.stop = (text.drop p).take n := by
        rw [piece, text_ofPinyin, ← hstop, Nat.add_sub_cancel_left]
      rw [frontCuts, if_neg hsep] at hn
      refine .inr ?_
      rcases isPiece_of_mem_cutLengths hn with hread | ⟨rfl, hnone⟩
      · exact isLabelledPiece_of_isPiece hlt hlabel (hpiece ▸ hread)
      · have hrest := drop_ne_nil_of_mem_cutPositions hq
        have hmem := separator_notMem_take hrest hsep hn
        rw [← hpiece] at hmem
        have hlen : ((ofPinyin opts text).piece p e.stop).length = 1 := by
          rw [hpiece, List.length_take, Nat.min_eq_left (List.length_pos_iff.2 hrest)]
        refine ⟨hmem, by rw [hlen]; decide, hlabel.trans (labelOf_of_notMem hlt hmem),
          fun _ => ⟨hlen, ?_⟩⟩
        rwa [text_ofPinyin]
  · obtain ⟨hhead, htail⟩ := isPiece_of_mem_frontSplits hsplit
    refine .inr (isLabelledPiece_of_isPiece hlt hlabel ?_)
    rw [piece, text_ofPinyin]
    rcases hends with ⟨rfl, hstop⟩ | ⟨rfl, hstop⟩
    · rwa [hstop, Nat.add_sub_cancel_left]
    · rwa [hstop, Nat.add_sub_add_left, ← List.drop_drop]

/-- Two separators make one edge, the sign behind them cannot be read, and the parts of "xian"
can. -/
theorem isWholeRun_or_isLabelledPiece_sample :
    let opts : ReadingOptions := ⟨fun _ => true, true⟩
    let g := ofPinyin opts "xian''!".toList
    (⟨6, []⟩ ∈ g.edgesAt 4 ∧ IsWholeRun "xian''!".toList 4 6) ∧
    (⟨7, []⟩ ∈ g.edgesAt 6 ∧ ∀ cs, cs <+: ['!'] → ¬ IsPiece opts.fuzzy cs) ∧
    ∃ e ∈ g.edgesAt 2, e.stop = 4 ∧ e.readings = Pinyin.readings opts.fuzzy "an".toList ∧
      e.readings ≠ [] := by
  intro opts g
  have hlabels : ∀ p, ∀ e ∈ g.edgesAt p, _ := fun p e =>
    isWholeRun_or_isLabelledPiece opts "xian''!".toList
  have hpiece : ∀ p q, g.piece p q = ("xian''!".toList.drop p).take (q - p) := fun p q => by
    rw [piece, text_ofPinyin]
  refine ⟨?_, ?_, ?_⟩
  · have hrun : ⟨6, []⟩ ∈ g.edgesAt 4 := by decide +kernel
    refine ⟨hrun, ?_⟩
    rcases hlabels 4 _ hrun with ⟨hwhole, -⟩ | hlabel
    · exact hwhole
    · exact absurd (hpiece 4 6 ▸ hlabel.separator_notMem) (by decide)
  · have hsign : ⟨7, []⟩ ∈ g.edgesAt 6 := by decide +kernel
    refine ⟨hsign, ?_⟩
    rcases hlabels 6 _ hsign with ⟨hwhole, -⟩ | hlabel
    · exact absurd (hwhole.separators 6 (by decide) (by decide)) (by decide)
    · have hnone := (hlabel.unread rfl).2
      rwa [text_ofPinyin] at hnone
  · have hpart : 4 ∈ g.successors 2 := by decide +kernel
    obtain ⟨e, he, hstop⟩ := List.mem_map.1 hpart
    refine ⟨e, he, hstop, ?_⟩
    rcases hlabels 2 _ he with ⟨hwhole, -⟩ | hlabel
    · exact absurd (hwhole.separators 2 (by decide) (by rw [hstop]; decide)) (by decide)
    · have hreadings := hlabel.readings_eq
      rw [hstop, hpiece] at hreadings
      exact ⟨hreadings, by rw [hreadings]; decide +kernel⟩

end CutGraph

end Pinyin
