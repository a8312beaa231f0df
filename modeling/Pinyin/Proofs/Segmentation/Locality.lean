import Pinyin.Proofs.CutGraph.Agreement
import Pinyin.Proofs.Segmentation.Pieces
import Pinyin.Proofs.Segmentation.Separation

/-!
# Pinyin.Proofs.Segmentation.Locality

How far ahead the cuts of a text look.

* `longestMatch_append_of_le` — six characters decide on the longest piece;
* `cutLengths_of_sibilant` — no letter is lent to a piece that begins with "z", "c" or "s";
* `frontCuts_append_of_le` — so eleven characters decide on the cuts, not twelve;
* `CutGraph.edgesAt_append` — the edges out of a position that is not near the end of a text stay
  the same, whatever is appended;
* `CutGraph.merge_append` — what a merge of two continuations of a text makes stale.
-/

namespace Pinyin

/-! ## Letters of pieces -/

/-- Only a sibilant begins a spelling of six letters. -/
theorem Spelling.sibilant_of_length {sp : Spelling} (h : sp.letters.length = maxSpelling) :
    ∃ c ∈ sp.letters.head?, c ∈ sibilants := by
  have hall : ∀ i ∈ Initial.all, ∀ f ∈ Final.all, ∀ swapped,
      (letters ⟨i, f, swapped⟩).length = maxSpelling →
        (letters ⟨i, f, swapped⟩).head?.any sibilants.contains = true := by decide +kernel
  have hany : sp.letters.head?.any sibilants.contains = true :=
    hall sp.initial (Initial.mem_all _) sp.final (Final.mem_all _) sp.swapped h
  simpa [Option.any_eq_true] using hany

/-- No spelling begins with a letter that can be lent, and a sibilant behind it. -/
theorem Spelling.letters_ne_of_borrowable (sp : Spelling) {c d : Char} (hc : c ∈ borrowable)
    (hd : d ∈ sibilants) (cs : List Char) : sp.letters ≠ c :: d :: cs := by
  have hall : ∀ i ∈ Initial.all, ∀ f ∈ Final.all, ∀ swapped,
      ¬ ((letters ⟨i, f, swapped⟩).head?.any borrowable.contains = true ∧
        (letters ⟨i, f, swapped⟩)[1]?.any sibilants.contains = true) := by decide +kernel
  have hnone : ¬ (sp.letters.head?.any borrowable.contains = true ∧
      sp.letters[1]?.any sibilants.contains = true) :=
    hall sp.initial (Initial.mem_all _) sp.final (Final.mem_all _) sp.swapped
  intro heq
  simp [heq, hc, hd] at hnone

/-! ## Cuts and what follows -/

section

variable {fz : FuzzySet} {rest : List Char} {n : Nat}

/-- The longest piece of at most `n` characters is found in the first `n`. -/
theorem longestUpTo_append_of_le (h : n ≤ rest.length) (more : List Char) :
    longestUpTo fz (rest ++ more) n = longestUpTo fz rest n := by
  induction n with
  | zero => rfl
  | succ n ih => rw [longestUpTo, longestUpTo, List.take_append_of_le_length h, ih (by omega)]

theorem longestMatch_append_of_le (h : maxSpelling ≤ rest.length) (more : List Char) :
    longestMatch fz (rest ++ more) = longestMatch fz rest :=
  longestUpTo_append_of_le h more

/-- Where no sibilant begins a text, its longest piece has no six letters. -/
theorem longestMatch_eq_longestUpTo_five (h : ∀ c ∈ rest.head?, c ∉ sibilants) :
    longestMatch fz rest = longestUpTo fz rest 5 := by
  have hnone : 5 < rest.length → ¬ IsPiece fz (rest.take 6) := by
    intro hlen hpiece
    obtain ⟨sp, hsp⟩ := hpiece.exists_letters
    have hsix : sp.letters.length = 6 := by
      rw [hsp, List.length_take]
      omega
    obtain ⟨c, hc, hsibilant⟩ := sp.sibilant_of_length hsix
    rw [hsp, List.head?_take, if_neg (by decide)] at hc
    exact h c hc hsibilant
  rcases longestUpTo_succ_cases fz rest 5 with ⟨hlen, hread, -⟩ | ⟨hlen, -, hinitial, -⟩ | ⟨-, h⟩
  · exact (hnone hlen (.inl hread)).elim
  · exact (hnone hlen (.inr hinitial)).elim
  · exact h

/-- Five characters decide on a piece that begins with no sibilant. -/
theorem longestMatch_append_of_head (hlen : 5 ≤ rest.length)
    (h : ∀ c ∈ rest.head?, c ∉ sibilants) (more : List Char) :
    longestMatch fz (rest ++ more) = longestMatch fz rest := by
  have hne : rest ≠ [] := List.ne_nil_of_length_pos (by omega)
  have hmore : ∀ c ∈ (rest ++ more).head?, c ∉ sibilants := by
    rwa [List.head?_append_of_ne_nil rest hne]
  rw [longestMatch_eq_longestUpTo_five h, longestMatch_eq_longestUpTo_five hmore,
    longestUpTo_append_of_le hlen]

/-- A letter that can be lent is cut off alone before a sibilant. -/
theorem length_longestMatch_of_borrowable {c d : Char} (hc : c ∈ borrowable) (hd : d ∈ sibilants)
    (cs : List Char) : (longestMatch fz (c :: d :: cs)).length = 1 := by
  have hpos := length_longestMatch_pos fz (c :: d :: cs)
  refine Nat.le_antisymm (Nat.le_of_not_lt fun hlong => ?_) hpos
  obtain ⟨sp, hsp⟩ := (isPiece_longestMatch hlong).exists_letters
  obtain ⟨k, hk⟩ := Nat.exists_eq_add_of_le' hlong
  rw [hk] at hsp
  exact sp.letters_ne_of_borrowable hc hd (cs.take k) hsp

/-- **No letter is lent to a piece that begins with a sibilant.** -/
theorem cutLengths_of_sibilant {d : Char} (hd : rest[(longestMatch fz rest).length]? = some d)
    (hsibilant : d ∈ sibilants) : cutLengths fz rest = [(longestMatch fz rest).length] := by
  rw [cutLengths]
  split
  case isFalse => rfl
  case isTrue hlend =>
    obtain ⟨-, hlong, -, ⟨c, hc, hborrowable⟩, -⟩ := hlend
    obtain ⟨n, hn⟩ : ∃ n, (longestMatch fz rest).length = n + 1 :=
      Nat.exists_eq_add_one.2 (by omega)
    simp only [hn, Nat.add_sub_cancel] at hd hc ⊢
    have hdrop : rest.drop n = c :: d :: rest.drop (n + 2) := by
      obtain ⟨hlt, rfl⟩ := List.getElem?_eq_some_iff.1 hc
      obtain ⟨hlt', rfl⟩ := List.getElem?_eq_some_iff.1 hd
      rw [List.drop_eq_getElem_cons hlt, List.drop_eq_getElem_cons hlt']
    -- The letter alone does not reach beyond itself.
    have hshort : reach n (longestMatch fz (rest.drop n)) < 2 * (n + 2) := by
      have hone : (longestMatch fz (c :: d :: rest.drop (n + 2))).length = 1 :=
        length_longestMatch_of_borrowable hborrowable hsibilant _
      rw [reach, hdrop, hone]
      have := Bool.toNat_le (longestMatch fz (c :: d :: rest.drop (n + 2))).complete
      omega
    have hwhole : 2 * (n + 2) ≤ reach (n + 1) (longestMatch fz (rest.drop (n + 1))) := by
      have := length_longestMatch_pos fz (rest.drop (n + 1))
      rw [reach]
      omega
    rw [if_pos (by omega), if_neg (by omega), List.append_nil]

/-- **Eleven characters decide on the cuts.**  Twelve are looked at if a piece of six letters may
lend its last one; but the last of them matters only for another piece of six letters, to which
no letter is lent. -/
theorem cutLengths_append_of_le (h : 11 ≤ rest.length) (more : List Char) :
    cutLengths fz (rest ++ more) = cutLengths fz rest := by
  have hfront : longestMatch fz (rest ++ more) = longestMatch fz rest :=
    longestMatch_append_of_le (Nat.le_trans (by decide) h) more
  have hpos := length_longestMatch_pos fz rest
  have hsix : (longestMatch fz rest).length ≤ 6 := length_longestMatch_le_maxSpelling fz rest
  have hnext : (rest ++ more)[(longestMatch fz rest).length]?
      = rest[(longestMatch fz rest).length]? := List.getElem?_append_left (by omega)
  by_cases hsibilant : ∃ d, rest[(longestMatch fz rest).length]? = some d ∧ d ∈ sibilants
  case pos =>
    obtain ⟨d, hd, hsibilant⟩ := hsibilant
    rw [cutLengths_of_sibilant hd hsibilant,
      cutLengths_of_sibilant (by rw [hfront, hnext, hd]) hsibilant, hfront]
  case neg =>
    have hwhole : longestMatch fz (rest.drop (longestMatch fz rest).length ++ more)
        = longestMatch fz (rest.drop (longestMatch fz rest).length) := by
      refine longestMatch_append_of_head ?_ (fun c hc hmem => ?_) more
      · rw [List.length_drop]
        omega
      · rw [List.head?_drop] at hc
        exact hsibilant ⟨c, hc, hmem⟩
    have hshort : longestMatch fz (rest.drop ((longestMatch fz rest).length - 1) ++ more)
        = longestMatch fz (rest.drop ((longestMatch fz rest).length - 1)) := by
      refine longestMatch_append_of_le ?_ more
      rw [List.length_drop]
      have : maxSpelling = 6 := rfl
      omega
    have hlend : MayLend fz (rest ++ more) (longestMatch fz rest).length
        ↔ MayLend fz rest (longestMatch fz rest).length := by
      rw [MayLend, MayLend, hnext, List.getElem?_append_left (by omega),
        List.take_append_of_le_length (by omega)]
    have hdrop : ∀ k ≤ rest.length, (rest ++ more).drop k = rest.drop k ++ more :=
      fun k hk => List.drop_append_of_le_length hk
    simp only [cutLengths, hfront, hlend]
    rw [hdrop _ (by omega), hdrop _ (by omega), hwhole, hshort]

theorem frontCuts_append_of_le (h : 11 ≤ rest.length) (hlast : rest.getLast? ≠ some separator)
    (more : List Char) : frontCuts fz (rest ++ more) = frontCuts fz rest := by
  have hrest : rest ≠ [] := List.ne_nil_of_length_pos (by omega)
  rw [frontCuts, frontCuts, List.head?_append_of_ne_nil rest hrest,
    takeWhile_separator_append hrest hlast, cutLengths_append_of_le h]

theorem frontSplits_append_of_le {opts : ReadingOptions} (h : 11 ≤ rest.length)
    (more : List Char) : frontSplits opts (rest ++ more) = frontSplits opts rest := by
  have hrest : rest ≠ [] := List.ne_nil_of_length_pos (by omega)
  have hfront : longestMatch opts.fuzzy (rest ++ more) = longestMatch opts.fuzzy rest :=
    longestMatch_append_of_le (Nat.le_trans (by decide) h) more
  have hcut : ∀ n ∈ cutLengths opts.fuzzy rest, (rest ++ more).take n = rest.take n := by
    intro n hn
    have hle := length_longestMatch_le opts.fuzzy hrest
    refine List.take_append_of_le_length ?_
    rcases mem_cutLengths hn with rfl | ⟨hn, -⟩ <;> omega
  rw [frontSplits, frontSplits, List.head?_append_of_ne_nil rest hrest, hfront,
    cutLengths_append_of_le h]
  split
  · exact List.filterMap_congr fun n hn => by rw [hcut n hn]
  · rfl

end

/-! ## Edges and what follows -/

section

variable {opts : ReadingOptions} {p q : Nat}

/-- No edge of a plan leaves a position before the one where the text begins. -/
theorem stopsFrom_planFrom_of_lt (h : q < p) (rest : List Char) (due : List Nat) :
    stopsFrom (planFrom opts rest p due) q = [] := by
  refine stopsFrom_eq_nil fun edge hedge => ?_
  have := (forward_of_mem_planFrom hedge).1
  omega

/-- A plan lays the same edges from every position that is not near the end, whatever follows. -/
theorem stopsFrom_planFrom_append {front : List Char} (hq : q + 11 ≤ p + front.length)
    (hlast : front.getLast? ≠ some separator) (more : List Char) (due : List Nat) :
    stopsFrom (planFrom opts (front ++ more) p due) q
      = stopsFrom (planFrom opts front p due) q := by
  induction front generalizing p due with
  | nil =>
      rw [List.length_nil] at hq
      rw [stopsFrom_planFrom_of_lt (by omega), stopsFrom_planFrom_of_lt (by omega)]
  | cons c front ih =>
      by_cases hlt : q < p
      case pos => rw [stopsFrom_planFrom_of_lt hlt, stopsFrom_planFrom_of_lt hlt]
      case neg =>
        have hlen : 11 ≤ (c :: front).length := by omega
        have hfront : front.getLast? ≠ some separator := by
          intro h
          simp [List.getLast?_cons, h] at hlast
        rw [List.length_cons] at hq
        have hedges : frontEdges opts (c :: (front ++ more)) p
            = frontEdges opts (c :: front) p := by
          rw [frontEdges, ← List.cons_append, frontCuts_append_of_le hlen hlast,
            frontSplits_append_of_le hlen, frontEdges]
        have hstops : frontStops opts (c :: (front ++ more)) p
            = frontStops opts (c :: front) p := by
          rw [frontStops, ← List.cons_append, frontCuts_append_of_le hlen hlast, frontStops]
        rw [List.cons_append]
        by_cases hp : p ∈ due
        · rw [planFrom_of_mem hp, planFrom_of_mem hp, stopsFrom_append, stopsFrom_append, hedges,
            hstops, ih (by omega) hfront]
        · rw [planFrom_of_notMem hp, planFrom_of_notMem hp, ih (by omega) hfront]

end

namespace CutGraph

section

variable {text : List Char} {p : Nat}

/-- **What is appended to a text changes only edges near its end.** -/
theorem edgesAt_append (opts : ReadingOptions) (hlast : text.getLast? ≠ some separator)
    (hp : p + 11 ≤ text.length) (more : List Char) :
    (ofPinyin opts (text ++ more)).edgesAt p = (ofPinyin opts text).edgesAt p := by
  rw [edgesAt_ofPinyin, edgesAt_ofPinyin, stopsFrom_planFrom_append (by omega) hlast]
  refine List.map_congr_left fun q hq => ?_
  have hforward := forward_of_mem_planFrom (mem_stopsFrom.1 (List.mem_eraseDups.1 hq))
  rw [labelOf_append (by omega) (by omega)]

theorem length_le_commonLength (text more more' : List Char) :
    text.length ≤ commonLength (text ++ more) (text ++ more') := by
  induction text with
  | nil => exact Nat.zero_le _
  | cons c text ih => simpa [commonLength] using ih

/-- **An edit behind a text makes only a bounded tail stale.**  Two continuations of a text whose
last character is no separator have the same edges with the same readings, in the same order, out
of every position that is followed by eleven characters of the text, and a merge of them keeps
these positions. -/
theorem merge_append (opts : ReadingOptions) (hlast : text.getLast? ≠ some separator)
    (more more' : List Char) :
    let g := ofPinyin opts (text ++ more)
    let h := ofPinyin opts (text ++ more')
    (∀ p ∈ (merge g h).2, ¬ p + 11 ≤ text.length) ∧
    ∀ p, p + 11 ≤ text.length →
      g.edgesAt p = h.edgesAt p ∧ (g.IsSeparator p ↔ h.IsSeparator p) ∧
      ∀ e ∈ g.edgesAt p, e.stop ≤ text.length ∧ g.piece p e.stop = h.piece p e.stop := by
  intro g h
  have hcommon : text.length ≤ commonLength g.text h.text := by
    rw [text_ofPinyin, text_ofPinyin]
    exact length_le_commonLength text more more'
  have hedges : ∀ p, p + 11 ≤ text.length →
      g.edgesAt p = h.edgesAt p ∧ ∀ e ∈ g.edgesAt p, e.stop ≤ text.length := by
    intro p hp
    have hg : g.edgesAt p = (ofPinyin opts text).edgesAt p := edgesAt_append opts hlast hp more
    have hh : h.edgesAt p = (ofPinyin opts text).edgesAt p := edgesAt_append opts hlast hp more'
    refine ⟨hg.trans hh.symm, fun e he => ?_⟩
    have hstop := stop_le_size (hg ▸ he)
    rwa [size, text_ofPinyin] at hstop
  refine ⟨fun p hp hlow => ?_, fun p hp => ⟨(hedges p hp).1, ?_, fun e he => ?_⟩⟩
  · have hdivergence : p ≤ divergence g h := by
      refine le_divergence_of_agreeAt (by omega) fun r hr => ?_
      obtain ⟨hsame, hstops⟩ := hedges r (by omega)
      exact ⟨hsame, fun e he => Nat.le_trans (hstops e he) hcommon⟩
    have := (mem_stalePositions.1 hp).1
    omega
  · rw [IsSeparator, IsSeparator, text_ofPinyin, text_ofPinyin,
      List.getElem?_append_left (by omega), List.getElem?_append_left (by omega)]
  · have hstop := (hedges p hp).2 e he
    exact ⟨hstop, piece_eq_of_le_commonLength (Nat.le_trans hstop hcommon)⟩

/-- Whether "xian" lends its last letter depends on what follows; the front of the text stays. -/
theorem merge_append_sample :
    let text := "zhongguorenxian".toList
    text.getLast? ≠ some separator ∧
      ∀ p ∈ (merge (ofPinyin .plain (text ++ "g".toList))
        (ofPinyin .plain (text ++ "gang".toList))).2, ¬ p + 11 ≤ text.length := by
  intro text
  have hlast : text.getLast? ≠ some separator := by decide
  exact ⟨hlast, (merge_append .plain hlast "g".toList "gang".toList).1⟩

end

end CutGraph

end Pinyin
