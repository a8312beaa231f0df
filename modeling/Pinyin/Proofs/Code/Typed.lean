import Pinyin.Proofs.Segmentation.Longest
import Pinyin.Proofs.Segmentation.Preferred
import Pinyin.Proofs.Segmentation.Separation

/-!
# Pinyin.Proofs.Code.Typed

The syllables of typed text, where separators stand between them.

* `syllablesOf_eq_ok_iff` — a text has syllables where every piece between its preferred cuts can
  be read, `syllablesOf_eq_ok_iff_readings` — and these are the first readings of the pieces;
* `preferredReadings_text` — the text of one syllable is cut off whole;
* `preferredFrom_separated`, `preferredReadings_separated`, `syllablesOf_separated` — separators part
  the preferred cuts, and with them the readings and the syllables;
* `preferredReadings_joinPieces`, `syllablesOf_joinPieces` — the texts of syllables, joined by
  separators, are cut into these texts, and are read as these syllables.
-/

namespace Pinyin

/-! ## Texts with syllables -/

theorem syllablesOf_eq_ok_iff {text : List Char} {ss : List Syllable} {g : CutGraph}
    (hg : CutGraph.ofPinyin .plain text = g) :
    syllablesOf text = .ok ss ↔
      (∀ edge ∈ g.preferredFrom 0, ¬ g.IsUnreadable edge) ∧
        (g.preferredFrom 0).flatMap g.preferredSyllable = ss := by
  rw [syllablesOf_eq hg]
  cases hfind : (g.preferredFrom 0).find? fun edge => g.IsUnreadable edge with
  | none =>
      have hall : ∀ edge ∈ g.preferredFrom 0, ¬ g.IsUnreadable edge := by
        simpa using List.find?_eq_none.1 hfind
      rw [Except.ok.injEq]
      exact (and_iff_right hall).symm
  | some edge =>
      have hmem := List.mem_of_find?_eq_some hfind
      have hbad : g.IsUnreadable edge := by simpa using List.find?_some hfind
      simp only [reduceCtorEq, false_iff, not_and]
      exact fun hall => (hall edge hmem hbad).elim

namespace CutGraph

/-- The readings of the syllables among some edges. -/
def syllableReadings (g : CutGraph) (way : List (Nat × Edge)) : List (List Reading) :=
  (way.filter fun edge => ¬ g.IsSeparator edge.1).map fun edge => edge.2.readings

/-- The readings of the syllables on the preferred way. -/
def preferredReadings (g : CutGraph) : List (List Reading) := g.syllableReadings (g.preferredFrom 0)

variable {g h : CutGraph} {way : List (Nat × Edge)} {edge : Nat × Edge}

theorem syllableReadings_cons_of_isSeparator (hsep : g.IsSeparator edge.1) :
    g.syllableReadings (edge :: way) = g.syllableReadings way := by
  simp [syllableReadings, hsep]

theorem syllableReadings_cons_of_not_isSeparator (hsep : ¬ g.IsSeparator edge.1) :
    g.syllableReadings (edge :: way) = edge.2.readings :: g.syllableReadings way := by
  simp [syllableReadings, hsep]

theorem syllableReadings_append (g : CutGraph) (way way' : List (Nat × Edge)) :
    g.syllableReadings (way ++ way') = g.syllableReadings way ++ g.syllableReadings way' := by
  simp [syllableReadings]

theorem syllableReadings_congr
    (hsep : ∀ edge ∈ way, g.IsSeparator edge.1 ↔ h.IsSeparator edge.1) :
    g.syllableReadings way = h.syllableReadings way :=
  congrArg _ (List.filter_congr fun edge hedge => by simp [hsep edge hedge])

theorem map_head?_syllableReadings_eq_iff {ss : List Syllable} :
    ((g.syllableReadings way).map fun rs => rs.head?.map Reading.syllable) = ss.map some ↔
      (∀ edge ∈ way, ¬ g.IsUnreadable edge) ∧ way.flatMap g.preferredSyllable = ss := by
  induction way generalizing ss with
  | nil => cases ss <;> simp [syllableReadings]
  | cons edge way ih =>
      rw [List.forall_mem_cons, List.flatMap_cons]
      by_cases hsep : g.IsSeparator edge.1
      · simp [syllableReadings_cons_of_isSeparator hsep, ih, IsUnreadable, preferredSyllable, hsep]
      · rw [syllableReadings_cons_of_not_isSeparator hsep]
        cases hreadings : edge.2.readings with
        | nil => cases ss <;> simp [hreadings, IsUnreadable, hsep]
        | cons r rs =>
            cases ss with
            | nil => simp [hreadings, preferredSyllable, hsep]
            | cons s ss =>
                simp [hreadings, ih, IsUnreadable, preferredSyllable, hsep, and_left_comm]

end CutGraph

/-- The syllables of a text are the first readings on its preferred way. -/
theorem syllablesOf_eq_ok_iff_readings {text : List Char} {ss : List Syllable} :
    syllablesOf text = .ok ss ↔
      ((CutGraph.ofPinyin .plain text).preferredReadings.map fun rs =>
        rs.head?.map Reading.syllable) = ss.map some :=
  (syllablesOf_eq_ok_iff rfl).trans CutGraph.map_head?_syllableReadings_eq_iff.symm

/-! ## One syllable -/

section

variable {fz : FuzzySet} {text : List Char}

/-- A text that is a piece is the longest piece of itself. -/
theorem length_longestMatch_of_whole (hne : text ≠ []) (hlen : text.length ≤ maxSpelling)
    (h : IsPiece fz text) : (longestMatch fz text).length = text.length :=
  Nat.le_antisymm (length_longestMatch_le fz hne)
    (le_length_longestMatch hlen (Nat.le_refl _) (by rwa [List.take_length]))

/-- Such a text is one cut. -/
theorem cutLengths_of_whole (hwhole : (longestMatch fz text).length = text.length) :
    cutLengths fz text = [text.length] := by
  have hlend : ¬ MayLend fz text text.length := by
    rintro ⟨-, ⟨c, hc, -⟩, -⟩
    simp at hc
  simp only [cutLengths, hwhole]
  rw [if_neg fun h => hlend h.2]

/-- The plan of such a text begins with an edge around it. -/
theorem planFrom_of_whole {opts : ReadingOptions} (hne : text ≠ []) (hsep : separator ∉ text)
    (hwhole : (longestMatch opts.fuzzy text).length = text.length) :
    ∃ splits, planFrom opts text 0 [0] = (0, text.length) :: splits := by
  obtain ⟨c, rest, rfl⟩ := List.exists_cons_of_ne_nil hne
  have hhead : (c :: rest).head? ≠ some separator := fun h => hsep (List.mem_of_head? h)
  have hcuts : frontCuts opts.fuzzy (c :: rest) = [(c :: rest).length] := by
    rw [frontCuts, if_neg hhead, cutLengths_of_whole hwhole]
  rw [planFrom_of_mem (List.mem_singleton_self 0), frontEdges, hcuts, List.map_singleton,
    Nat.zero_add]
  exact ⟨_, rfl⟩

end

namespace CutGraph

theorem preferredFrom_of_cons {g : CutGraph} {p : Nat} {e : Edge} {others : List Edge}
    (h : g.edgesAt p = e :: others) : g.preferredFrom p = (p, e) :: g.preferredFrom e.stop := by
  rw [preferredFrom_eq, h]

theorem preferredFrom_of_nil {g : CutGraph} {p : Nat} (h : g.edgesAt p = []) :
    g.preferredFrom p = [] := by
  rw [preferredFrom_eq, h]

/-- The preferred cut of such a text is around it. -/
theorem preferredFrom_of_whole {opts : ReadingOptions} {text : List Char} (hne : text ≠ [])
    (hsep : separator ∉ text) (hwhole : (longestMatch opts.fuzzy text).length = text.length) :
    (ofPinyin opts text).preferredFrom 0 = [(0, ⟨text.length, readings opts.fuzzy text⟩)] := by
  have hlabel : labelOf opts.fuzzy text 0 text.length = readings opts.fuzzy text := by
    rw [labelOf, if_neg fun h => hsep (List.mem_of_getElem? h), List.drop_zero, Nat.sub_zero,
      List.take_length]
  obtain ⟨splits, hplan⟩ := planFrom_of_whole hne hsep hwhole
  have hedges : ∃ others, (ofPinyin opts text).edgesAt 0
      = ⟨text.length, readings opts.fuzzy text⟩ :: others := by
    rw [edgesAt_ofPinyin, hplan, stopsFrom_cons, if_pos rfl, List.eraseDups_cons, List.map_cons,
      hlabel]
    exact ⟨_, rfl⟩
  have hend : (ofPinyin opts text).preferredFrom text.length = [] :=
    preferredFrom_of_nil (edgesAt_eq_nil (Nat.le_of_eq size_ofPinyin))
  obtain ⟨others, hedges⟩ := hedges
  rw [preferredFrom_of_cons hedges, hend]

end CutGraph

/-- The text of a syllable is its own longest piece. -/
theorem length_longestMatch_text {s : Syllable} (h : s.IsKnown) (fz : FuzzySet) :
    (longestMatch fz s.text).length = s.text.length :=
  length_longestMatch_of_whole h.text_ne_nil s.length_text_le (h.isPiece fz)

/-- **The text of a syllable** is cut off whole. -/
theorem preferredReadings_text {s : Syllable} (h : s.IsKnown) (opts : ReadingOptions) :
    (CutGraph.ofPinyin opts s.text).preferredReadings = [readings opts.fuzzy s.text] := by
  have hsep : ¬ (CutGraph.ofPinyin opts s.text).IsSeparator 0 := by
    rw [CutGraph.IsSeparator, CutGraph.text_ofPinyin]
    exact fun h => s.separator_notMem_text (List.mem_of_getElem? h)
  rw [CutGraph.preferredReadings, CutGraph.preferredFrom_of_whole h.text_ne_nil
    s.separator_notMem_text (length_longestMatch_text h opts.fuzzy)]
  simp [CutGraph.syllableReadings, hsep]

/-! ## Texts that are parted -/

namespace CutGraph

variable {g h : CutGraph}

/-- The preferred way goes along edges. -/
theorem mem_edgesAt_of_mem_preferredFrom {p : Nat} {edge : Nat × Edge}
    (hedge : edge ∈ g.preferredFrom p) : edge.2 ∈ g.edgesAt edge.1 := by
  cases hedges : g.edgesAt p with
  | nil =>
      rw [preferredFrom_of_nil hedges] at hedge
      cases hedge
  | cons e others =>
      have he : e ∈ g.edgesAt p := hedges ▸ List.mem_cons_self
      have hlt := lt_stop he
      have hle := stop_le_size he
      rw [preferredFrom_of_cons hedges] at hedge
      rcases List.mem_cons.1 hedge with rfl | hedge
      · exact he
      · exact mem_edgesAt_of_mem_preferredFrom hedge
termination_by g.size - p

/-- A graph that begins with another one is first crossed as that one is. -/
theorem preferredFrom_append (hsame : ∀ p < h.size, g.edgesAt p = h.edgesAt p)
    (hcovers : h.HasNoDeadEnds) {p : Nat} (hp : h.Reaches 0 p) :
    g.preferredFrom p = h.preferredFrom p ++ g.preferredFrom h.size := by
  by_cases hlt : p < h.size
  case neg =>
    obtain rfl : p = h.size := Nat.le_antisymm (le_size_of_reaches hp) (Nat.le_of_not_lt hlt)
    rw [preferredFrom_of_nil (edgesAt_eq_nil (Nat.le_refl h.size)), List.nil_append]
  case pos =>
    cases hedges : h.edgesAt p with
    | nil => exact (hcovers p hp hlt hedges).elim
    | cons e others =>
        have he : e ∈ h.edgesAt p := hedges ▸ List.mem_cons_self
        have hforward := lt_stop he
        have hrest := preferredFrom_append hsame hcovers (hp.tail (List.mem_map_of_mem he))
        rw [preferredFrom_of_cons ((hsame p hlt).trans hedges), preferredFrom_of_cons hedges, hrest,
          List.cons_append]
termination_by h.size - p

/-- An edge of a graph in one that has another graph before it. -/
def shiftStart (s : Nat) (edge : Nat × Edge) : Nat × Edge := (s + edge.1, edge.2.shift s)

/-- A graph that ends with another one is crossed as that one is in the end. -/
theorem preferredFrom_shift {s : Nat}
    (hsame : ∀ p, g.edgesAt (s + p) = (h.edgesAt p).map (Edge.shift s)) (p : Nat) :
    g.preferredFrom (s + p) = (h.preferredFrom p).map (shiftStart s) := by
  have hshifted := hsame p
  cases hedges : h.edgesAt p with
  | nil =>
      rw [hedges] at hshifted
      rw [preferredFrom_of_nil hedges, preferredFrom_of_nil hshifted]
      rfl
  | cons e others =>
      rw [hedges] at hshifted
      have he : e ∈ h.edgesAt p := hedges ▸ List.mem_cons_self
      have hforward := lt_stop he
      have hinside := stop_le_size he
      have hrest : g.preferredFrom (e.shift s).stop = (h.preferredFrom e.stop).map (shiftStart s) :=
        preferredFrom_shift hsame e.stop
      rw [preferredFrom_of_cons hedges, preferredFrom_of_cons hshifted, hrest]
      rfl
termination_by h.size - p

/-- The readings in a graph that ends with another one are those in that one. -/
theorem syllableReadings_map_shiftStart {s : Nat}
    (hsep : ∀ p, g.IsSeparator (s + p) ↔ h.IsSeparator p) (way : List (Nat × Edge)) :
    g.syllableReadings (way.map (shiftStart s)) = h.syllableReadings way := by
  have hfilter : (way.filter fun edge => ¬ g.IsSeparator (shiftStart s edge).1)
      = way.filter fun edge => ¬ h.IsSeparator edge.1 :=
    List.filter_congr fun edge _ => by simp [shiftStart, hsep]
  rw [syllableReadings, List.filter_map, List.map_map]
  exact congrArg _ hfilter

end CutGraph

section

variable {front back : List Char} {k : Nat}

/-- **Separators part the preferred cuts.** -/
theorem preferredFrom_separated (opts : ReadingOptions) (hfront : front.getLast? ≠ some separator)
    (hback : back.head? ≠ some separator) (hk : 0 < k) :
    (CutGraph.ofPinyin opts (front ++ List.replicate k separator ++ back)).preferredFrom 0
      = (CutGraph.ofPinyin opts front).preferredFrom 0 ++
        (front.length, ⟨front.length + k, []⟩) ::
          ((CutGraph.ofPinyin opts back).preferredFrom 0).map
            (CutGraph.shiftStart (front.length + k)) := by
  have hbefore := CutGraph.preferredFrom_append
    (g := CutGraph.ofPinyin opts (front ++ List.replicate k separator ++ back))
    (h := CutGraph.ofPinyin opts front)
    (fun p hp => CutGraph.edgesAt_before_separators hfront hback hk (by simpa using hp))
    (CutGraph.hasNoDeadEnds_ofPinyin opts front) (p := 0) .refl
  have hbehind :
      (CutGraph.ofPinyin opts (front ++ List.replicate k separator ++ back)).preferredFrom
          (front.length + k)
        = ((CutGraph.ofPinyin opts back).preferredFrom 0).map
            (CutGraph.shiftStart (front.length + k)) :=
    CutGraph.preferredFrom_shift (CutGraph.edgesAt_behind_separators hfront hback hk) 0
  rw [hbefore, CutGraph.size_ofPinyin,
    CutGraph.preferredFrom_of_cons (CutGraph.edgesAt_separators hfront hback hk), hbehind]

/-- **Separators part the readings** on the preferred way. -/
theorem preferredReadings_separated (opts : ReadingOptions)
    (hfront : front.getLast? ≠ some separator) (hback : back.head? ≠ some separator) (hk : 0 < k) :
    (CutGraph.ofPinyin opts (front ++ List.replicate k separator ++ back)).preferredReadings
      = (CutGraph.ofPinyin opts front).preferredReadings ++
        (CutGraph.ofPinyin opts back).preferredReadings := by
  obtain ⟨hbefore, hat, hbehind⟩ := CutGraph.isSeparator_separated opts front back hk
  rw [CutGraph.preferredReadings, preferredFrom_separated opts hfront hback hk]
  generalize CutGraph.ofPinyin opts (front ++ List.replicate k separator ++ back) = g at *
  have hinFront : ∀ edge ∈ (CutGraph.ofPinyin opts front).preferredFrom 0,
      g.IsSeparator edge.1 ↔ (CutGraph.ofPinyin opts front).IsSeparator edge.1 := by
    intro edge hedge
    have hmem := CutGraph.mem_edgesAt_of_mem_preferredFrom hedge
    have hlt := CutGraph.lt_stop hmem
    have hle := CutGraph.stop_le_size hmem
    rw [CutGraph.size_ofPinyin] at hle
    exact hbefore edge.1 (by omega)
  rw [CutGraph.syllableReadings_append, CutGraph.syllableReadings_congr hinFront,
    CutGraph.syllableReadings_cons_of_isSeparator hat,
    CutGraph.syllableReadings_map_shiftStart hbehind]
  rfl

/-- **Separators part the syllables of a text.** -/
theorem syllablesOf_separated (hfront : front.getLast? ≠ some separator)
    (hback : back.head? ≠ some separator) (hk : 0 < k) {ss ts : List Syllable}
    (hss : syllablesOf front = .ok ss) (hts : syllablesOf back = .ok ts) :
    syllablesOf (front ++ List.replicate k separator ++ back) = .ok (ss ++ ts) := by
  rw [syllablesOf_eq_ok_iff_readings] at hss hts ⊢
  rw [preferredReadings_separated .plain hfront hback hk, List.map_append, hss, hts,
    List.map_append]

end

/-! ## Joined texts -/

theorem joinPieces_cons_cons (part next : List Char) (parts : List (List Char)) :
    joinPieces (part :: next :: parts)
      = part ++ List.replicate 1 separator ++ joinPieces (next :: parts) := by
  simp [joinPieces, List.intercalate]

/-- Joined texts begin with the first of them. -/
theorem head?_joinPieces {part : List Char} (hne : part ≠ []) (parts : List (List Char)) :
    (joinPieces (part :: parts)).head? = part.head? := by
  cases parts with
  | nil => simp [joinPieces, List.intercalate]
  | cons next parts =>
      rw [joinPieces_cons_cons, List.append_assoc, List.head?_append_of_ne_nil part hne]

/-- **The texts of syllables, joined by separators**, are cut into these texts. -/
theorem preferredReadings_joinPieces {ss : List Syllable} (h : ∀ s ∈ ss, s.IsKnown)
    (opts : ReadingOptions) :
    (CutGraph.ofPinyin opts (joinPieces (ss.map Syllable.text))).preferredReadings
      = ss.map fun s => readings opts.fuzzy s.text := by
  match ss with
  | [] =>
      have hend : (CutGraph.ofPinyin opts []).preferredFrom 0 = [] :=
        CutGraph.preferredFrom_of_nil <|
          CutGraph.edgesAt_eq_nil (Nat.le_of_eq CutGraph.size_ofPinyin)
      have hnone : (CutGraph.ofPinyin opts []).preferredReadings = [] := by
        rw [CutGraph.preferredReadings, hend]
        rfl
      exact hnone
  | [s] =>
      have hone : joinPieces [s.text] = s.text := by simp [joinPieces, List.intercalate]
      rw [List.map_singleton, List.map_singleton, hone]
      exact preferredReadings_text (h s (List.mem_singleton_self s)) opts
  | s :: t :: ss =>
      obtain ⟨hs, hrest⟩ := List.forall_mem_cons.1 h
      have hlast : s.text.getLast? ≠ some separator :=
        fun hlast => s.separator_notMem_text (List.mem_of_getLast? hlast)
      have hfirst : (joinPieces ((t :: ss).map Syllable.text)).head? ≠ some separator := by
        rw [List.map_cons, head?_joinPieces (hrest t List.mem_cons_self).text_ne_nil]
        exact fun hfirst => t.separator_notMem_text (List.mem_of_head? hfirst)
      have hparts := preferredReadings_separated opts hlast hfirst Nat.one_pos
      rw [preferredReadings_text hs, preferredReadings_joinPieces hrest] at hparts
      rw [List.map_cons, List.map_cons, joinPieces_cons_cons]
      exact hparts

/-- **They have these syllables**, or the interjections that are typed alike. -/
theorem syllablesOf_joinPieces {ss : List Syllable} (h : ∀ s ∈ ss, s.IsKnown) :
    syllablesOf (joinPieces (ss.map Syllable.text)) = .ok (ss.map Syllable.asTyped) := by
  rw [syllablesOf_eq_ok_iff_readings, preferredReadings_joinPieces h, List.map_map, List.map_map]
  exact List.map_congr_left fun s hs => congrArg (Option.map Reading.syllable)
    (head?_readings_text (h s hs))

end Pinyin
