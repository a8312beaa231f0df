import Pinyin.Proofs.Segmentation.Halves

/-!
# Pinyin.Proofs.Segmentation.FirstEdge

The first edge out of a position, where syllables are also cut in two.

* `stopsFrom_plan` — from a position that is cut from, the second halves come first that begin
  there, then the cuts, then the first halves;
* `one_notMem_frontCuts_of_tie` — a letter that is lent in a tie is not cut off alone;
* `CutGraph.IsFirstHalved`, `CutGraph.head?_secondHalves_eq_some_iff` — the edge whose second half
  comes first of all;
* `CutGraph.head?_edgesAt_halved` — so the first edge is another one where an edge is cut in two at
  the position, unless its second half is the first edge there anyway.
-/

namespace Pinyin

/-! ## Order of the edges -/

section

variable {opts : ReadingOptions} {text rest : List Char} {p q n : Nat}

theorem stopsFrom_flatMap (xs : List Nat) (plans : Nat → List (Nat × Nat)) (p : Nat) :
    stopsFrom (xs.flatMap plans) p = xs.flatMap fun x => stopsFrom (plans x) p := by
  induction xs with
  | nil => rfl
  | cons x xs ih => rw [List.flatMap_cons, stopsFrom_append, ih, List.flatMap_cons]

/-- Where the second halves lead that begin at a position, of the edges from another one. -/
def secondHalves (opts : ReadingOptions) (text : List Char) (p q : Nat) : List Nat :=
  ((frontSplits opts (text.drop q)).filter fun split => q + split.1 = p).map fun split =>
    q + split.2

theorem mem_secondHalves {stop : Nat} :
    stop ∈ secondHalves opts text p q ↔
      ∃ split ∈ frontSplits opts (text.drop q), p = q + split.1 ∧ stop = q + split.2 := by
  simp [secondHalves, and_assoc, eq_comm]

/-- A second half begins behind the position that its edge is laid from. -/
theorem secondHalves_eq_nil (h : p ≤ q) : secondHalves opts text p q = [] := by
  rw [List.eq_nil_iff_forall_not_mem]
  intro stop hstop
  obtain ⟨split, hsplit, hp, -⟩ := mem_secondHalves.1 hstop
  have := (mem_frontSplits hsplit).1
  omega

/-- At another position only second halves begin. -/
theorem stopsFrom_frontEdges_of_ne (h : q ≠ p) :
    stopsFrom (frontEdges opts (text.drop q) q) p = secondHalves opts text p q := by
  have hcuts : stopsFrom ((frontCuts opts.fuzzy (text.drop q)).map fun n => (q, q + n)) p = [] := by
    refine stopsFrom_eq_nil fun edge hedge => ?_
    obtain ⟨n, -, rfl⟩ := List.mem_map.1 hedge
    exact h
  rw [frontEdges, stopsFrom_append, hcuts, List.nil_append, secondHalves]
  induction frontSplits opts (text.drop q) with
  | nil => rfl
  | cons split splits ih =>
      rw [List.flatMap_cons, stopsFrom_append, ih, stopsFrom_cons, if_neg h, stopsFrom_cons,
        stopsFrom_nil]
      by_cases hmid : q + split.1 = p <;> simp [hmid]

/-- At the position itself the cuts begin, and the first halves behind them. -/
theorem stopsFrom_frontEdges_self (opts : ReadingOptions) (rest : List Char) (p : Nat) :
    stopsFrom (frontEdges opts rest p) p
      = frontStops opts rest p ++ (frontSplits opts rest).map fun split => p + split.1 := by
  have hcuts : stopsFrom ((frontCuts opts.fuzzy rest).map fun n => (p, p + n)) p
      = frontStops opts rest p := by
    rw [frontStops]
    induction frontCuts opts.fuzzy rest with
    | nil => rfl
    | cons n cuts ih => rw [List.map_cons, stopsFrom_cons, if_pos rfl, ih, List.map_cons]
  have hpos : ∀ split ∈ frontSplits opts rest, 0 < split.1 := fun split hsplit =>
    (mem_frontSplits hsplit).1
  rw [frontEdges, stopsFrom_append, hcuts]
  congr 1
  revert hpos
  induction frontSplits opts rest with
  | nil => exact fun _ => rfl
  | cons split splits ih =>
      intro hpos
      rw [List.forall_mem_cons] at hpos
      have hne : p + split.1 ≠ p := by omega
      rw [List.flatMap_cons, stopsFrom_append, ih hpos.2, stopsFrom_cons, if_pos rfl,
        stopsFrom_cons, if_neg hne, stopsFrom_nil]
      rfl

/-- **The order of the edges from a position that is cut from**: the second halves that begin there,
then the cuts, then their first halves. -/
theorem stopsFrom_plan (hp : p ∈ cutPositions opts.fuzzy text) :
    stopsFrom (planFrom opts text 0 [0]) p
      = (cutPositions opts.fuzzy text).flatMap (secondHalves opts text p) ++
        (frontStops opts (text.drop p) p ++
          (frontSplits opts (text.drop p)).map fun split => p + split.1) := by
  have hsorted := pairwise_cutPositions opts.fuzzy text
  obtain ⟨before, after, hsplit⟩ := List.append_of_mem hp
  rw [planFrom_eq_flatMap opts List.drop_zero, ← cutPositions, stopsFrom_flatMap]
  rw [hsplit, List.pairwise_append, List.pairwise_cons] at hsorted
  obtain ⟨-, ⟨hafter, -⟩, hbefore⟩ := hsorted
  have hothers : ∀ qs : List Nat, (∀ q ∈ qs, q ≠ p) →
      (qs.flatMap fun q => stopsFrom (frontEdges opts (text.drop q) q) p)
        = qs.flatMap (secondHalves opts text p) := fun qs hqs =>
    List.flatMap_congr fun q hq => stopsFrom_frontEdges_of_ne (hqs q hq)
  -- Second halves begin behind the position of their edge, so none comes from here or later on.
  have hnone : (p :: after).flatMap (secondHalves opts text p) = [] := by
    rw [List.flatMap_eq_nil_iff, List.forall_mem_cons]
    exact ⟨secondHalves_eq_nil (Nat.le_refl p), fun q hq => secondHalves_eq_nil (hafter q hq).le⟩
  have hlater : after.flatMap (secondHalves opts text p) = [] := by
    rw [List.flatMap_cons, List.append_eq_nil_iff] at hnone
    exact hnone.2
  rw [hsplit, List.flatMap_append, List.flatMap_append, hnone, List.flatMap_cons,
    hothers before fun q hq => (hbefore q hq p List.mem_cons_self).ne,
    hothers after fun q hq => (hafter q hq).ne', hlater, stopsFrom_frontEdges_self]
  simp only [List.append_nil]

/-- The longer cut is laid first. -/
theorem pairwise_cutLengths (fz : FuzzySet) (rest : List Char) :
    (cutLengths fz rest).Pairwise (· > ·) := by
  have hpos := length_longestMatch_pos fz rest
  have hless : (longestMatch fz rest).length - 1 < (longestMatch fz rest).length := by omega
  rw [cutLengths]
  split
  · dsimp only
    split <;> split <;> simp [hless]
  · exact List.pairwise_singleton _ _

/-- And so are the second halves of the longer one. -/
theorem pairwise_secondHalves (opts : ReadingOptions) (text : List Char) (p q : Nat) :
    (secondHalves opts text p q).Pairwise (· ≥ ·) := by
  refine List.pairwise_map.2 (.filter _ ?_)
  rw [frontSplits]
  split
  · refine (pairwise_cutLengths opts.fuzzy (text.drop q)).filterMap _ ?_
    intro n n' hlt split hsplit split' hsplit'
    obtain ⟨parts, -, rfl⟩ := Option.map_eq_some_iff.1 hsplit
    obtain ⟨parts', -, rfl⟩ := Option.map_eq_some_iff.1 hsplit'
    show q + n ≥ q + n'
    omega
  · exact .nil

/-! ## Ties -/

/-- Where a piece is cut off both with its last letter and without, the letter begins a piece that
ends where the one behind the letter does. -/
theorem length_longestMatch_of_tie {fz : FuzzySet} {m : Nat} (hm : m ∈ cutLengths fz rest)
    (hn : n ∈ cutLengths fz rest) (hlt : m < n) :
    n = m + 1 ∧ (longestMatch fz (rest.drop m)).length
      = (longestMatch fz (rest.drop (m + 1))).length + 1 := by
  have hpos := length_longestMatch_pos fz rest
  rcases mem_cutLengths_cases rfl hn with ⟨hn, hwhole⟩ | ⟨hn, -⟩
  · rcases mem_cutLengths_cases rfl hm with ⟨hm, -⟩ | ⟨hm, hcomplete, hlend, hshort⟩
    · omega
    · have hreach := Nat.le_antisymm hshort (hwhole hcomplete hlend)
      rw [← hm, ← hn, show n = m + 1 by omega, reach, reach] at hreach
      have hnext := Bool.toNat_le (longestMatch fz (rest.drop m)).complete
      have hbehind := Bool.toNat_le (longestMatch fz (rest.drop (m + 1))).complete
      omega
  · rcases mem_cutLengths hm with hm | hm <;> omega

/-- A piece that ends where the one behind its first letter does is not cut down to that letter. -/
theorem one_notMem_cutLengths {fz : FuzzySet}
    (h : (longestMatch fz rest).length = (longestMatch fz (rest.drop 1)).length + 1) :
    1 ∉ cutLengths fz rest := by
  intro hone
  have hpos := length_longestMatch_pos fz (rest.drop 1)
  rcases mem_cutLengths_cases rfl hone with ⟨hwhole, -⟩ | ⟨hshort, -, -, hreach⟩
  · omega
  · -- The piece has two letters, and behind both of them the cut reaches further.
    have hlong := length_longestMatch_pos fz (rest.drop (longestMatch fz rest).length)
    have hnext := Bool.toNat_le (longestMatch fz (rest.drop 1)).complete
    rw [← hshort, reach, reach] at hreach
    omega

/-- **A letter that is lent in a tie** is the last one of the longer cut, and goes on with more than
itself. -/
theorem one_notMem_frontCuts_of_tie {fz : FuzzySet} {m : Nat} (hm : m ∈ frontCuts fz rest)
    (hn : n ∈ frontCuts fz rest) (hlt : m < n) : n = m + 1 ∧ 1 ∉ frontCuts fz (rest.drop m) := by
  rw [frontCuts] at hm hn
  split at hm
  · next hrun =>
    rw [if_pos hrun, List.mem_singleton] at hn
    rw [List.mem_singleton] at hm
    omega
  · next hpiece =>
    rw [if_neg hpiece] at hn
    obtain ⟨rfl, hlen⟩ := length_longestMatch_of_tie hm hn hlt
    rw [← List.drop_drop] at hlen
    have hpos := length_longestMatch_pos fz ((rest.drop m).drop 1)
    have hlong : 1 < (longestMatch fz (rest.drop m)).length := by omega
    have hsep : (rest.drop m).head? ≠ some separator := by
      -- What is cut off there has more than one character, and so it is a piece.
      intro hsep
      obtain ⟨tail, htail⟩ := List.head?_eq_some_iff.1 hsep
      refine (isPiece_longestMatch hlong).separator_notMem ?_
      rw [hlen, htail, List.take_succ_cons]
      exact List.mem_cons_self
    rw [frontCuts, if_neg hsep]
    exact ⟨rfl, one_notMem_cutLengths hlen⟩

end

/-! ## The first edge -/

namespace CutGraph

/-- Of all edges that are cut in two at a position, this one begins first, and of those that begin
there it goes furthest. -/
def IsFirstHalved (g : CutGraph) (top mid stop : Nat) : Prop :=
  g.IsHalved top mid stop ∧
    ∀ top' stop', g.IsHalved top' mid stop' → top < top' ∨ top = top' ∧ stop' ≤ stop

section

variable {fz : FuzzySet} {text : List Char} {p top stop : Nat}

theorem mem_secondHalves_iff_isHalved :
    top ∈ cutPositions fz text ∧ stop ∈ secondHalves ⟨fz, true⟩ text p top ↔
      (ofPinyin ⟨fz, false⟩ text).IsHalved top p stop := by
  rw [isHalved_whole_iff, mem_secondHalves]

/-- Of all second halves that begin at a position, that of the edge that is cut in two first comes
first. -/
theorem head?_secondHalves_eq_some_iff :
    ((cutPositions fz text).flatMap (secondHalves ⟨fz, true⟩ text p)).head? = some stop ↔
      ∃ top, (ofPinyin ⟨fz, false⟩ text).IsFirstHalved top p stop := by
  rw [head?_flatMap_eq_some_iff (pairwise_cutPositions fz text) (pairwise_secondHalves _ text p)]
  simp only [IsFirstHalved, ← mem_secondHalves_iff_isHalved, and_assoc, and_imp]
  refine exists_congr fun top => and_congr_right fun _ => and_congr_right fun _ => ?_
  exact forall_congr' fun top' => forall_comm

/-- The first edge of the graph is the first of its plan. -/
theorem head?_edgesAt_ofPinyin (opts : ReadingOptions) (text : List Char) (p : Nat) :
    ((ofPinyin opts text).edgesAt p).head?
      = (stopsFrom (planFrom opts text 0 [0]) p).head?.map
          fun stop => ⟨stop, labelOf opts.fuzzy text p stop⟩ := by
  rw [edgesAt_ofPinyin, List.head?_map, head?_eraseDups]

/-- Where no syllable is cut in two the first edge is the first cut. -/
theorem head?_stopsFrom_whole (hp : p ∈ cutPositions fz text) :
    (stopsFrom (planFrom ⟨fz, false⟩ text 0 [0]) p).head?
      = (frontStops ⟨fz, false⟩ (text.drop p) p).head? := by
  have hnone : (cutPositions fz text).flatMap (secondHalves ⟨fz, false⟩ text p) = [] := by
    refine List.flatMap_eq_nil_iff.2 fun q _ => ?_
    rw [secondHalves, frontSplits_eq_nil rfl]
    rfl
  rw [stopsFrom_plan hp, hnone, frontSplits_eq_nil rfl]
  simp

/-- Otherwise the second halves that begin there come before the first cut. -/
theorem head?_stopsFrom_halved (hp : p ∈ cutPositions fz text) :
    (stopsFrom (planFrom ⟨fz, true⟩ text 0 [0]) p).head?
      = ((cutPositions fz text).flatMap (secondHalves ⟨fz, true⟩ text p)).head?.or
          (frontStops ⟨fz, false⟩ (text.drop p) p).head? := by
  have hcuts : frontStops ⟨fz, true⟩ (text.drop p) p ≠ [] := by
    simpa [frontStops] using frontCuts_ne_nil fz (text.drop p)
  rw [stopsFrom_plan hp, List.head?_append, List.head?_append_of_ne_nil _ hcuts]
  rfl

theorem mem_cutPositions_of_edgesAt (h : (ofPinyin ⟨fz, false⟩ text).edgesAt p ≠ []) :
    p ∈ cutPositions fz text := by
  obtain ⟨e, he⟩ := List.exists_mem_of_ne_nil _ h
  exact (mem_successors_whole_iff.1 (List.mem_map_of_mem he)).1

/-- Where a letter is lent in a tie, a second half that consists of this letter is no cut. -/
theorem notMem_successors_of_tie (h : (ofPinyin ⟨fz, false⟩ text).IsHalved top p stop)
    (hp : p ∈ (ofPinyin ⟨fz, false⟩ text).successors top) :
    stop ∉ (ofPinyin ⟨fz, false⟩ text).successors p := by
  have hlt := (IsHalf.isPiece ⟨top, p, stop, h, .inr ⟨rfl, rfl⟩⟩).1
  obtain ⟨n, hn, rfl⟩ := List.mem_map.1 (mem_successors_whole_iff.1 h.1).2
  obtain ⟨m, hm, rfl⟩ := List.mem_map.1 (mem_successors_whole_iff.1 hp).2
  obtain ⟨rfl, hone⟩ := one_notMem_frontCuts_of_tie hm hn (by omega)
  intro hstop
  obtain ⟨k, hk, heq⟩ := List.mem_map.1 (mem_successors_whole_iff.1 hstop).2
  obtain rfl : k = 1 := by omega
  rw [List.drop_drop] at hone
  exact hone hk

/-- Where no edge is cut in two the first edge stays. -/
theorem head?_edgesAt_of_not_isHalved (hp : p ∈ cutPositions fz text)
    (h : ∀ top stop, ¬ (ofPinyin ⟨fz, false⟩ text).IsHalved top p stop) :
    ((ofPinyin ⟨fz, true⟩ text).edgesAt p).head?
      = ((ofPinyin ⟨fz, false⟩ text).edgesAt p).head? := by
  have hnone : (cutPositions fz text).flatMap (secondHalves ⟨fz, true⟩ text p) = [] := by
    refine List.flatMap_eq_nil_iff.2 fun q hq => ?_
    refine List.eq_nil_iff_forall_not_mem.2 fun stop hstop => ?_
    exact h q stop (mem_secondHalves_iff_isHalved.1 ⟨hq, hstop⟩)
  rw [head?_edgesAt_ofPinyin, head?_edgesAt_ofPinyin, head?_stopsFrom_halved hp,
    head?_stopsFrom_whole hp, hnone]
  rfl

/-- Where edges are cut in two the second half of the first of them is the first edge. -/
theorem head?_edgesAt_of_isFirstHalved (hp : p ∈ cutPositions fz text)
    (h : (ofPinyin ⟨fz, false⟩ text).IsFirstHalved top p stop) :
    ((ofPinyin ⟨fz, true⟩ text).edgesAt p).head? = some ⟨stop, labelOf fz text p stop⟩ := by
  rw [head?_edgesAt_ofPinyin, head?_stopsFrom_halved hp, head?_secondHalves_eq_some_iff.2 ⟨top, h⟩]
  rfl

/-- Of the edges that are cut in two at a position one is the first. -/
theorem exists_isFirstHalved (h : (ofPinyin ⟨fz, false⟩ text).IsHalved top p stop) :
    ∃ top stop, (ofPinyin ⟨fz, false⟩ text).IsFirstHalved top p stop := by
  obtain ⟨htop, hstop⟩ := mem_secondHalves_iff_isHalved.2 h
  have hne := List.ne_nil_of_mem (List.mem_flatMap.2 ⟨top, htop, hstop⟩)
  obtain ⟨top, hfirst⟩ := head?_secondHalves_eq_some_iff.1 (List.head?_eq_some_head hne)
  exact ⟨top, _, hfirst⟩

/-- The second half is the first edge otherwise too if that ends where it does. -/
theorem head?_edgesAt_eq_iff (hp : p ∈ cutPositions fz text)
    (h : (ofPinyin ⟨fz, false⟩ text).IsFirstHalved top p stop) :
    ((ofPinyin ⟨fz, true⟩ text).edgesAt p).head?
        = ((ofPinyin ⟨fz, false⟩ text).edgesAt p).head? ↔
      ((ofPinyin ⟨fz, false⟩ text).successors p).head? = some stop := by
  rw [head?_edgesAt_of_isFirstHalved hp h, successors, List.head?_map]
  constructor
  · intro hfirst
    rw [← hfirst]
    rfl
  · intro hfirst
    obtain ⟨e, he, rfl⟩ := Option.map_eq_some_iff.1 hfirst
    have hlabel := (mem_edgesAt_ofPinyin_iff.1 (List.mem_of_head? he)).2
    rw [he, ← hlabel]

end

/-- **The first edge out of a position, where syllables are also cut in two**: it is the first one
otherwise, unless an edge is cut in two there.  Then it is the second half of the first such edge;
and that is another one wherever the position is also reached from where this edge begins, as the
last letter of the edge is lent in a tie. -/
theorem head?_edgesAt_halved (fz : FuzzySet) (text : List Char) {p : Nat}
    (hp : (ofPinyin ⟨fz, false⟩ text).edgesAt p ≠ []) :
    let whole := ofPinyin ⟨fz, false⟩ text
    let halved := ofPinyin ⟨fz, true⟩ text
    (∀ top stop, whole.IsFirstHalved top p stop →
      (halved.edgesAt p).head? = some ⟨stop, Pinyin.readings fz (whole.piece p stop)⟩) ∧
    ((halved.edgesAt p).head? = (whole.edgesAt p).head? ↔
      (∀ top stop, ¬ whole.IsHalved top p stop) ∨
        ∃ top stop, whole.IsFirstHalved top p stop ∧ (whole.successors p).head? = some stop) ∧
    ∀ top stop, whole.IsFirstHalved top p stop → p ∈ whole.successors top →
      (halved.edgesAt p).head? ≠ (whole.edgesAt p).head? := by
  intro whole halved
  have hp := mem_cutPositions_of_edgesAt hp
  refine ⟨fun top stop h => ?_, ⟨fun heq => ?_, ?_⟩, fun top stop h hlent heq => ?_⟩
  · rw [head?_edgesAt_of_isFirstHalved hp h, IsHalf.labelOf_eq ⟨top, p, stop, h.1, .inr ⟨rfl, rfl⟩⟩]
  · by_cases hnone : ∀ top stop, ¬ whole.IsHalved top p stop
    · exact .inl hnone
    · simp only [not_forall, not_not] at hnone
      obtain ⟨top, stop, hhalved⟩ := hnone
      obtain ⟨top, stop, h⟩ := exists_isFirstHalved hhalved
      exact .inr ⟨top, stop, h, (head?_edgesAt_eq_iff hp h).1 heq⟩
  · rintro (hnone | ⟨top, stop, h, hfirst⟩)
    · exact head?_edgesAt_of_not_isHalved hp hnone
    · exact (head?_edgesAt_eq_iff hp h).2 hfirst
  · have hfirst := (head?_edgesAt_eq_iff hp h).1 heq
    exact notMem_successors_of_tie h.1 hlent (List.mem_of_head? hfirst)

/-- In "shuao" the "a" is lent in a tie, since "shu" and "ao" go as far as "shua" and "o"; where
"shua" is also cut in two it becomes the first edge behind "shu". -/
theorem head?_edgesAt_halved_sample :
    let whole := ofPinyin ⟨FuzzySet.empty, false⟩ "shuao".toList
    let halved := ofPinyin ⟨FuzzySet.empty, true⟩ "shuao".toList
    whole.edgesAt 3 ≠ [] ∧ whole.IsFirstHalved 0 3 4 ∧
      (halved.edgesAt 3).head? = some ⟨4, [⟨⟨.zero, .a⟩, false⟩]⟩ ∧
      (halved.edgesAt 3).head? ≠ (whole.edgesAt 3).head? := by
  intro whole halved
  have hp : whole.edgesAt 3 ≠ [] := by decide +kernel
  have hcuts : whole.successors 0 = [4, 3] := by decide +kernel
  have hsplit : innerSplit? (whole.piece 0 4) = some ("shu".toList, "a".toList) := by
    decide +kernel
  have hfirst : whole.IsFirstHalved 0 3 4 := by
    refine ⟨⟨by simp [hcuts], _, _, hsplit, rfl⟩, fun top stop hother => ?_⟩
    cases top with
    | zero =>
        have hstop := hother.1
        rw [hcuts] at hstop
        exact .inr ⟨rfl, by simp at hstop; omega⟩
    | succ top => exact .inl top.succ_pos
  have hreadings : Pinyin.readings FuzzySet.empty (whole.piece 3 4) = [⟨⟨.zero, .a⟩, false⟩] := by
    decide +kernel
  obtain ⟨hhead, -, hlent⟩ := head?_edgesAt_halved FuzzySet.empty "shuao".toList hp
  have hlast : 3 ∈ whole.successors 0 := by simp [hcuts]
  exact ⟨hp, hfirst, hreadings ▸ hhead 0 4 hfirst, hlent 0 4 hfirst hlast⟩

/-- So the first edge out of a position depends on whether syllables are also cut in two. -/
theorem not_head?_edgesAt_eq_sample :
    ¬ ∀ (fz : FuzzySet) (text : List Char) (p : Nat),
      (ofPinyin ⟨fz, false⟩ text).edgesAt p ≠ [] →
        ((ofPinyin ⟨fz, true⟩ text).edgesAt p).head?
          = ((ofPinyin ⟨fz, false⟩ text).edgesAt p).head? :=
  fun h => absurd (h FuzzySet.empty "shuao".toList 3 (by decide +kernel)) (by decide +kernel)

/-- In "eraniang" the cuts "e", "ran" and "i" lead into the middle of "niang", but "ang" is the first
edge there anyway. -/
example :
    let whole := ofPinyin ⟨FuzzySet.empty, false⟩ "eraniang".toList
    let halved := ofPinyin ⟨FuzzySet.empty, true⟩ "eraniang".toList
    whole.successors 3 = [8] ∧ halved.successors 3 = [8, 5] ∧
      whole.successors 5 = [8] ∧ halved.successors 5 = [8] := by
  decide +kernel

end CutGraph

end Pinyin
