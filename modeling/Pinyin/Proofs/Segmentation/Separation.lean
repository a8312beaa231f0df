import Mathlib.Data.List.TakeWhile
import Pinyin.Proofs.Reading.Spelling
import Pinyin.Proofs.Segmentation.Edges
import Pinyin.Proofs.Segmentation.Worklist

/-!
# Pinyin.Proofs.Segmentation.Separation

A run of separators parts a text into two that are cut each by itself.

* `longestMatch_append`, `frontCuts_append`, `frontSplits_append` — no cut looks beyond a separator;
* `planFrom_append_separator`, `planFrom_shift` — a plan goes through the front alone, and begins
  anew behind the run;
* `planFrom_separated` — the plan of a text that is parted, by the plans of its parts;
* `isSeparator_separated` — separators stand where they do in the parts, and between them;
* `edgesAt_separated` — its graph is made of the graphs of the two parts.
-/

namespace Pinyin

/-! ## Cuts before a separator -/

section

variable {fz : FuzzySet} {rest : List Char} {n : Nat}

/-- The longest piece ends before a separator. -/
theorem longestUpTo_append (fz : FuzzySet) (rest more : List Char) (n : Nat) :
    longestUpTo fz (rest ++ separator :: more) n = longestUpTo fz rest n := by
  induction n with
  | zero => rfl
  | succ n ih =>
      unfold longestUpTo
      by_cases hn : n + 1 ≤ rest.length
      · rw [List.take_append_of_le_length hn, ih]
      · -- What is longer than the text contains the separator, and is no piece.
        have hshort : (rest.take (n + 1)).length ≤ n := by
          rw [List.length_take]
          omega
        have hsep : separator ∈ (rest ++ separator :: more).take (n + 1) := by
          rw [List.take_append, show n + 1 - rest.length = n - rest.length + 1 by omega,
            List.take_succ_cons]
          simp
        simp only [if_pos hshort, ih]
        rw [if_neg fun h => separator_notMem_of_isReadable h hsep,
          if_neg fun h => separator_notMem_of_ofText? h hsep, ite_self]

theorem longestMatch_append (fz : FuzzySet) (rest more : List Char) :
    longestMatch fz (rest ++ separator :: more) = longestMatch fz rest :=
  longestUpTo_append fz rest more maxSpelling

/-- A piece does not lend a letter to a separator. -/
theorem mayLend_append_iff (hn : 0 < n) (hle : n ≤ rest.length) (more : List Char) :
    MayLend fz (rest ++ separator :: more) n ↔ MayLend fz rest n := by
  have hnext : (∃ c ∈ (rest ++ separator :: more)[n]?, c ≠ separator) ↔
      ∃ c ∈ rest[n]?, c ≠ separator := by
    rcases Nat.lt_or_eq_of_le hle with hlt | rfl
    · rw [List.getElem?_append_left hlt]
    · simp
  rw [MayLend, MayLend, hnext, List.getElem?_append_left (by omega),
    List.take_append_of_le_length (by omega)]

theorem cutLengths_append (hrest : rest ≠ []) (more : List Char) :
    cutLengths fz (rest ++ separator :: more) = cutLengths fz rest := by
  have hpos := length_longestMatch_pos fz rest
  have hle := length_longestMatch_le fz hrest
  simp only [cutLengths, longestMatch_append, mayLend_append_iff hpos hle,
    List.drop_append_of_le_length hle,
    List.drop_append_of_le_length (Nat.le_trans (Nat.sub_le _ 1) hle)]

/-- A run of separators at the front of a text ends inside it if its last character is none. -/
theorem takeWhile_separator_append (hrest : rest ≠ []) (hlast : rest.getLast? ≠ some separator)
    (more : List Char) :
    (rest ++ more).takeWhile (· == separator) = rest.takeWhile (· == separator) := by
  rw [List.takeWhile_append]
  split
  · next hall =>
    have hself := (List.takeWhile_prefix _).eq_of_length hall
    have hsep := List.takeWhile_eq_self_iff.1 hself _ (List.getLast_mem hrest)
    rw [beq_iff_eq] at hsep
    rw [List.getLast?_eq_some_getLast hrest, hsep] at hlast
    exact (hlast rfl).elim
  · rfl

/-- The edges from the front of a text end before a separator behind it. -/
theorem frontCuts_append (hrest : rest ≠ []) (hlast : rest.getLast? ≠ some separator)
    (more : List Char) :
    frontCuts fz (rest ++ separator :: more) = frontCuts fz rest := by
  rw [frontCuts, frontCuts, List.head?_append_of_ne_nil rest hrest,
    takeWhile_separator_append hrest hlast, cutLengths_append hrest]

theorem frontSplits_append {opts : ReadingOptions} (hrest : rest ≠ []) (more : List Char) :
    frontSplits opts (rest ++ separator :: more) = frontSplits opts rest := by
  have hcut : ∀ n ∈ cutLengths opts.fuzzy rest,
      (rest ++ separator :: more).take n = rest.take n := by
    intro n hn
    have hle := length_longestMatch_le opts.fuzzy hrest
    refine List.take_append_of_le_length ?_
    rcases mem_cutLengths hn with rfl | ⟨hn, -⟩ <;> omega
  rw [frontSplits, frontSplits, List.head?_append_of_ne_nil rest hrest, longestMatch_append,
    cutLengths_append hrest]
  split
  · refine List.filterMap_congr fun n hn => ?_
    rw [hcut n hn]
  · rfl

end

/-! ## Plans of parts -/

section

variable {opts : ReadingOptions} {p k : Nat} {due : List Nat}

/-- A plan goes through a text up to a separator as if the text ended there, and is due to go on
from the separator. -/
theorem planFrom_append_separator {front : List Char} (hlast : front.getLast? ≠ some separator)
    (more : List Char) (hdue : ∃ q ∈ due, p ≤ q) (hinside : ∀ q ∈ due, q ≤ p + front.length) :
    planFrom opts (front ++ separator :: more) p due
      = planFrom opts front p due ++
        planFrom opts (separator :: more) (p + front.length) [p + front.length] := by
  -- At each position something is due there or behind it, and nothing behind the separator.
  induction front generalizing p due with
  | nil =>
      obtain ⟨last, hlast, hle⟩ := hdue
      obtain rfl : p = last := Nat.le_antisymm hle (hinside last hlast)
      have hsame : ∀ q, p ≤ q → (q ∈ due ↔ q ∈ [p]) := by
        intro q hq
        rw [List.mem_singleton]
        constructor
        · exact fun hmem => Nat.le_antisymm (hinside q hmem) hq
        · rintro rfl
          exact hlast
      exact planFrom_congr hsame
  | cons c front ih =>
      have hfront : front.getLast? ≠ some separator := by
        intro h
        rw [List.getLast?_cons, h] at hlast
        exact hlast rfl
      have hne : c :: front ≠ [] := List.cons_ne_nil c front
      have hlen : p + (c :: front).length = p + 1 + front.length := by
        rw [List.length_cons]
        omega
      rw [hlen] at hinside ⊢
      rw [List.cons_append]
      by_cases hp : p ∈ due
      case neg =>
        rw [planFrom_of_notMem hp, planFrom_of_notMem hp]
        refine ih hfront ?_ hinside
        obtain ⟨q, hmem, hle⟩ := hdue
        have hother : p ≠ q := fun heq => hp (heq ▸ hmem)
        exact ⟨q, hmem, by omega⟩
      case pos =>
        have hstops : frontStops opts (c :: (front ++ separator :: more)) p
            = frontStops opts (c :: front) p := by
          rw [frontStops, ← List.cons_append, frontCuts_append hne hlast, frontStops]
        have hedges : frontEdges opts (c :: (front ++ separator :: more)) p
            = frontEdges opts (c :: front) p := by
          rw [frontEdges, ← List.cons_append, frontCuts_append hne hlast, frontSplits_append hne,
            frontEdges]
        rw [planFrom_of_mem hp, planFrom_of_mem hp, hstops, hedges, List.append_assoc]
        refine congrArg _ (ih hfront ?_ ?_)
        · obtain ⟨n, hn⟩ := List.exists_mem_of_ne_nil _ (frontCuts_ne_nil opts.fuzzy (c :: front))
          have hstop : p + n ∈ frontStops opts (c :: front) p := List.mem_map_of_mem hn
          exact ⟨p + n, List.mem_append_right _ hstop, (mem_frontStops hne hstop).1⟩
        · intro q hq
          rcases List.mem_append.1 hq with hq | hq
          · exact hinside q hq
          · have := mem_frontStops hne hq
            omega

/-- Where nothing is due inside a piece of text, a plan skips it. -/
theorem planFrom_skip {front : List Char} (more : List Char)
    (hdue : ∀ q ∈ due, q < p ∨ p + front.length ≤ q) :
    planFrom opts (front ++ more) p due = planFrom opts more (p + front.length) due := by
  induction front generalizing p with
  | nil => rfl
  | cons c front ih =>
      have hp : p ∉ due := by
        intro hp
        have := hdue p hp
        rw [List.length_cons] at this
        omega
      rw [List.cons_append, planFrom_of_notMem hp, ih fun q hq => ?_, List.length_cons]
      · congr 1
        omega
      · have := hdue q hq
        rw [List.length_cons] at this
        omega

/-- An edge of a text that begins at a position. -/
def shiftEdge (s : Nat) (edge : Nat × Nat) : Nat × Nat := (s + edge.1, s + edge.2)

/-- The plan of a text that begins at another position. -/
theorem planFrom_shift (s : Nat) (rest : List Char) (p : Nat) (due : List Nat) :
    planFrom opts rest (s + p) (due.map (s + ·))
      = (planFrom opts rest p due).map (shiftEdge s) := by
  induction rest generalizing p due with
  | nil => rfl
  | cons c rest ih =>
      have hmem : s + p ∈ due.map (s + ·) ↔ p ∈ due := by simp
      have hstops : frontStops opts (c :: rest) (s + p)
          = (frontStops opts (c :: rest) p).map (s + ·) := by
        simp [frontStops, Nat.add_assoc]
      have hedges : frontEdges opts (c :: rest) (s + p)
          = (frontEdges opts (c :: rest) p).map (shiftEdge s) := by
        simp [frontEdges, List.map_flatMap, shiftEdge, Nat.add_assoc]
      by_cases hp : p ∈ due
      · rw [planFrom_of_mem hp, planFrom_of_mem (hmem.2 hp), hstops, hedges, ← List.map_append,
          Nat.add_assoc, ih, List.map_append]
      · rw [planFrom_of_notMem hp, planFrom_of_notMem (mt hmem.1 hp), Nat.add_assoc, ih]

/-- A run of separators is one edge, and the text behind it is cut by itself. -/
theorem planFrom_run (hk : 0 < k) {back : List Char} (hback : back.head? ≠ some separator)
    (s : Nat) :
    planFrom opts (List.replicate k separator ++ back) s [s]
      = (s, s + k) :: (planFrom opts back 0 [0]).map (shiftEdge (s + k)) := by
  obtain ⟨k, rfl⟩ := Nat.exists_eq_add_one.2 hk
  have hhead : (List.replicate (k + 1) separator ++ back).head? = some separator := rfl
  have hrun : ((List.replicate (k + 1) separator ++ back).takeWhile (· == separator)).length
      = k + 1 := by
    have hnone : back.takeWhile (· == separator) = [] := by
      cases back with
      | nil => rfl
      | cons c back => exact List.takeWhile_cons_of_neg (by simpa using hback)
    rw [List.takeWhile_append_of_pos (by simp), hnone, List.append_nil, List.length_replicate]
  have hcuts : frontCuts opts.fuzzy (List.replicate (k + 1) separator ++ back) = [k + 1] := by
    rw [frontCuts, if_pos hhead, hrun]
  have hsplits : frontSplits opts (List.replicate (k + 1) separator ++ back) = [] := by
    rw [frontSplits, if_neg fun h => h.2.1 hhead]
  have hedges : frontEdges opts (List.replicate (k + 1) separator ++ back) s
      = [(s, s + (k + 1))] := by
    rw [frontEdges, hcuts, hsplits]
    rfl
  have hstops : frontStops opts (List.replicate (k + 1) separator ++ back) s = [s + (k + 1)] := by
    rw [frontStops, hcuts]
    rfl
  have hlen : s + 1 + (List.replicate k separator).length = s + (k + 1) := by
    rw [List.length_replicate]
    omega
  have hskip : planFrom opts (List.replicate k separator ++ back) (s + 1) ([s] ++ [s + (k + 1)])
      = planFrom opts back (s + (k + 1)) [s + (k + 1)] := by
    rw [planFrom_skip back (by rw [hlen]; simp), hlen]
    refine planFrom_congr fun q hq => ?_
    simp only [List.mem_append, List.mem_singleton]
    omega
  rw [List.replicate_succ, List.cons_append] at hedges hstops ⊢
  rw [planFrom_of_mem (List.mem_singleton_self s), hedges, hstops, hskip, ← planFrom_shift]
  rfl

/-- **The plan of a text that is parted by separators** is made of the plans of the two parts, with
the edge over the separators between them. -/
theorem planFrom_separated {front back : List Char} (hfront : front.getLast? ≠ some separator)
    (hback : back.head? ≠ some separator) (hk : 0 < k) :
    planFrom opts (front ++ List.replicate k separator ++ back) 0 [0]
      = planFrom opts front 0 [0] ++ (front.length, front.length + k) ::
        (planFrom opts back 0 [0]).map (shiftEdge (front.length + k)) := by
  have hrun : planFrom opts _ front.length [front.length] = _ := planFrom_run hk hback front.length
  obtain ⟨k, rfl⟩ := Nat.exists_eq_add_one.2 hk
  rw [List.append_assoc]
  rw [List.replicate_succ, List.cons_append] at hrun ⊢
  rw [planFrom_append_separator hfront _ ⟨0, by simp, Nat.le_refl 0⟩ (by simp), Nat.zero_add, hrun]

end

/-! ## Graphs of parts -/

theorem stopsFrom_map_shiftEdge (s : Nat) (plan : List (Nat × Nat)) (p : Nat) :
    stopsFrom (plan.map (shiftEdge s)) (s + p) = (stopsFrom plan p).map (s + ·) := by
  simp [stopsFrom, List.filter_map, Function.comp_def, shiftEdge]

/-- Edges that have been shifted begin no earlier. -/
theorem stopsFrom_map_shiftEdge_eq_nil {s p : Nat} (h : p < s) (plan : List (Nat × Nat)) :
    stopsFrom (plan.map (shiftEdge s)) p = [] := by
  refine stopsFrom_eq_nil fun edge hedge => ?_
  obtain ⟨edge, -, rfl⟩ := List.mem_map.1 hedge
  simp only [shiftEdge]
  omega

/-- The first occurrences stay the first ones when all elements are shifted. -/
theorem eraseDups_map_add (s : Nat) (xs : List Nat) :
    (xs.map (s + ·)).eraseDups = xs.eraseDups.map (s + ·) := by
  induction xs using List.reverseRecOn with
  | nil => rfl
  | append_singleton xs x ih =>
      rw [List.map_append, List.map_singleton, eraseDups_append_singleton,
        eraseDups_append_singleton, ih, List.map_append]
      by_cases hx : x ∈ xs <;> simp [hx]

/-- An edge of a text in another one, which has more text before it. -/
def Edge.shift (s : Nat) (e : Edge) : Edge := ⟨s + e.stop, e.readings⟩

namespace CutGraph

section

variable {fz : FuzzySet}

theorem labelOf_append {front : List Char} {p q : Nat} (hp : p < front.length)
    (hq : q ≤ front.length) (more : List Char) : labelOf fz (front ++ more) p q = labelOf fz front p q := by
  have hpiece : ((front ++ more).drop p).take (q - p) = (front.drop p).take (q - p) := by
    rw [List.drop_append_of_le_length (by omega), List.take_append_of_le_length]
    rw [List.length_drop]
    omega
  rw [labelOf, labelOf, List.getElem?_append_left hp, hpiece]

theorem labelOf_behind (before text : List Char) (p q : Nat) :
    labelOf fz (before ++ text) (before.length + p) (before.length + q) = labelOf fz text p q := by
  have hchar : (before ++ text)[before.length + p]? = text[p]? := by
    rw [List.getElem?_append_right (by omega), Nat.add_sub_cancel_left]
  rw [labelOf, labelOf, hchar, List.drop_append, List.drop_eq_nil_of_le (by omega), List.nil_append,
    Nat.add_sub_cancel_left, Nat.add_sub_add_left]

end

section

variable {opts : ReadingOptions} {front back : List Char} {k p : Nat}

/-- Before, at and behind the separators the same characters are separators as in the parts. -/
theorem isSeparator_separated (opts : ReadingOptions) (front back : List Char) (hk : 0 < k) :
    let g := ofPinyin opts (front ++ List.replicate k separator ++ back)
    (∀ p < front.length, g.IsSeparator p ↔ (ofPinyin opts front).IsSeparator p) ∧
    g.IsSeparator front.length ∧
    ∀ p, g.IsSeparator (front.length + k + p) ↔ (ofPinyin opts back).IsSeparator p := by
  have hlen : (front ++ List.replicate k separator).length = front.length + k := by
    rw [List.length_append, List.length_replicate]
  simp only [IsSeparator, text_ofPinyin]
  refine ⟨fun p hp => ?_, ?_, fun p => ?_⟩
  · rw [List.append_assoc, List.getElem?_append_left hp]
  · rw [List.append_assoc, List.getElem?_append_right (Nat.le_refl _), Nat.sub_self,
      List.getElem?_append_left (by rwa [List.length_replicate]), List.getElem?_replicate,
      if_pos hk]
  · rw [List.getElem?_append_right (by omega), hlen, Nat.add_sub_cancel_left]

/-- No edge of a text begins at its end or behind it. -/
theorem stopsFrom_planFrom_eq_nil (h : front.length ≤ p) :
    stopsFrom (planFrom opts front 0 [0]) p = [] := by
  refine stopsFrom_eq_nil fun ⟨start, stop⟩ hedge => ?_
  have hforward := forward_of_mem_planFrom hedge
  simp only
  omega

/-- In front of the separators the edges are those of the front. -/
theorem edgesAt_before_separators (hfront : front.getLast? ≠ some separator)
    (hback : back.head? ≠ some separator) (hk : 0 < k) (hp : p < front.length) :
    (ofPinyin opts (front ++ List.replicate k separator ++ back)).edgesAt p
      = (ofPinyin opts front).edgesAt p := by
  have hother : stopsFrom ((front.length, front.length + k) ::
      (planFrom opts back 0 [0]).map (shiftEdge (front.length + k))) p = [] := by
    rw [stopsFrom_cons, if_neg (Nat.ne_of_gt hp), stopsFrom_map_shiftEdge_eq_nil (by omega)]
  rw [edgesAt_ofPinyin, edgesAt_ofPinyin, planFrom_separated hfront hback hk, stopsFrom_append,
    hother, List.append_nil]
  refine List.map_congr_left fun q hq => ?_
  have hforward := forward_of_mem_planFrom (mem_stopsFrom.1 (List.mem_eraseDups.1 hq))
  rw [List.append_assoc, labelOf_append hp (by omega)]

/-- The separators are one edge, without readings. -/
theorem edgesAt_separators (hfront : front.getLast? ≠ some separator)
    (hback : back.head? ≠ some separator) (hk : 0 < k) :
    (ofPinyin opts (front ++ List.replicate k separator ++ back)).edgesAt front.length
      = [⟨front.length + k, []⟩] := by
  have hsep := (isSeparator_separated opts front back hk).2.1
  rw [IsSeparator, text_ofPinyin] at hsep
  rw [edgesAt_ofPinyin, planFrom_separated hfront hback hk, stopsFrom_append,
    stopsFrom_planFrom_eq_nil (Nat.le_refl _), stopsFrom_cons, if_pos rfl,
    stopsFrom_map_shiftEdge_eq_nil (Nat.lt_add_of_pos_right hk), List.nil_append,
    List.eraseDups_cons, List.filter_nil, List.eraseDups_nil, List.map_singleton, labelOf,
    if_pos hsep]

/-- No edge begins between two separators. -/
theorem edgesAt_between_separators (hfront : front.getLast? ≠ some separator)
    (hback : back.head? ≠ some separator) (hlt : front.length < p) (hp : p < front.length + k) :
    (ofPinyin opts (front ++ List.replicate k separator ++ back)).edgesAt p = [] := by
  have hnone : stopsFrom (planFrom opts (front ++ List.replicate k separator ++ back) 0 [0]) p
      = [] := by
    rw [planFrom_separated hfront hback (by omega), stopsFrom_append, stopsFrom_cons,
      if_neg (Nat.ne_of_lt hlt), stopsFrom_planFrom_eq_nil (Nat.le_of_lt hlt),
      stopsFrom_map_shiftEdge_eq_nil hp, List.append_nil]
  rw [edgesAt_ofPinyin, hnone]
  rfl

/-- Behind the separators the edges are those of the back. -/
theorem edgesAt_behind_separators (hfront : front.getLast? ≠ some separator)
    (hback : back.head? ≠ some separator) (hk : 0 < k) (p : Nat) :
    (ofPinyin opts (front ++ List.replicate k separator ++ back)).edgesAt (front.length + k + p)
      = ((ofPinyin opts back).edgesAt p).map (Edge.shift (front.length + k)) := by
  have hlen : (front ++ List.replicate k separator).length = front.length + k := by
    rw [List.length_append, List.length_replicate]
  rw [edgesAt_ofPinyin, edgesAt_ofPinyin, planFrom_separated hfront hback hk, stopsFrom_append,
    stopsFrom_planFrom_eq_nil (by omega), stopsFrom_cons, if_neg (by simp only; omega),
    List.nil_append, stopsFrom_map_shiftEdge, eraseDups_map_add, List.map_map, List.map_map]
  refine List.map_congr_left fun q _ => ?_
  have hlabel : labelOf opts.fuzzy _ _ _ = _ :=
    labelOf_behind (front ++ List.replicate k separator) back p q
  rw [hlen] at hlabel
  simp only [Function.comp_apply, Edge.shift, hlabel]

/-- **Separators part a text**: its graph is that of the text in front of them, one edge over all of
them, and that of the text behind them. -/
theorem edgesAt_separated (opts : ReadingOptions) (hfront : front.getLast? ≠ some separator)
    (hback : back.head? ≠ some separator) (hk : 0 < k) :
    let g := ofPinyin opts (front ++ List.replicate k separator ++ back)
    (∀ p < front.length, g.edgesAt p = (ofPinyin opts front).edgesAt p) ∧
    g.edgesAt front.length = [⟨front.length + k, []⟩] ∧
    (∀ p, front.length < p → p < front.length + k → g.edgesAt p = []) ∧
    ∀ p, g.edgesAt (front.length + k + p)
      = ((ofPinyin opts back).edgesAt p).map (Edge.shift (front.length + k)) :=
  ⟨fun _ hp => edgesAt_before_separators hfront hback hk hp, edgesAt_separators hfront hback hk,
    fun _ hlt hp => edgesAt_between_separators hfront hback hlt hp,
    edgesAt_behind_separators hfront hback hk⟩

/-- Without the separators "xiang" would be cut off first. -/
theorem edgesAt_separated_sample :
    let opts : ReadingOptions := ⟨fun _ => true, true⟩
    let g := ofPinyin opts ("xian".toList ++ List.replicate 2 separator ++ "gang".toList)
    ("xian".toList.getLast? ≠ some separator ∧ "gang".toList.head? ≠ some separator ∧ 0 < 2) ∧
    (g.successors 0 = [4, 2] ∧ g.edgesAt 4 = [⟨6, []⟩] ∧ g.edgesAt 5 = [] ∧
      g.successors 6 = [10]) ∧
    (ofPinyin opts "xiangang".toList).successors 0 = [5, 4, 2] := by
  intro opts g
  have hfront : "xian".toList.getLast? ≠ some separator := by decide
  have hback : "gang".toList.head? ≠ some separator := by decide
  obtain ⟨hbefore, hrun, hbetween, hbehind⟩ :=
    edgesAt_separated opts (k := 2) hfront hback (by decide)
  refine ⟨⟨hfront, hback, by decide⟩, ⟨?_, hrun, hbetween 5 (by decide) (by decide), ?_⟩, ?_⟩
  · rw [successors, hbefore 0 (by decide)]
    decide +kernel
  · have hsix : g.edgesAt 6 = _ := hbehind 0
    rw [successors, hsix]
    decide +kernel
  · decide +kernel

end

end CutGraph

end Pinyin
