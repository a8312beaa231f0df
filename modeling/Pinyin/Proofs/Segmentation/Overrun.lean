import Pinyin.Proofs.Lexicon.Canonical
import Pinyin.Proofs.Segmentation.RunTogether

/-!
# Pinyin.Proofs.Segmentation.Overrun

Which ways through a text of syllables have readings everywhere, if the syllables may begin with
vowels.

* `Overruns` — the longest piece takes so much that what follows begins with a glide, and cannot
  give its last letter back;
* `Landing`, `Landing.cut` — cuts lead to the beginning of a syllable or to a letter inside one that
  can be lent, unless the piece overruns;
* `CutGraph.reads_iff_of_mem_pathsFrom` — a way has readings everywhere if it meets no overrun;
* `paths_read_iff` — this holds of all ways through the text, and there is one;
* `not_exists_reads_sample` — a text of syllables without a way that has readings everywhere.
-/

namespace Pinyin

/-- The longest piece is a syllable, and a glide follows it, with which nothing begins; and without
its last letter it is none, so that it keeps this letter. -/
def Overruns (rest : List Char) : Prop :=
  let front := longestMatch FuzzySet.empty rest
  front.complete = true ∧ BeginsWith glides.contains (rest.drop front.length) ∧
    ¬ IsReadable FuzzySet.empty (rest.take (front.length - 1))

instance (rest : List Char) : Decidable (Overruns rest) := by
  unfold Overruns; infer_instance

/-! ## Where cuts lead -/

/-- What is left of a text of syllables from a place where a piece can be cut off: a syllable begins
there, or a letter of one stands there that can be lent. -/
inductive Landing : List Char → Prop
  | finished : Landing []
  | letters {s : Syllable} {front tail : List Char} {ss : List Syllable} (hs : s.HasVowel)
      (hss : ∀ t ∈ ss, t.HasVowel) (htext : s.text = front ++ tail) (htail : tail ≠ [])
      (hfront : front = [] ∨ BeginsWith borrowable.contains tail) :
      Landing (tail ++ runTogether ss)

/-- Where a text of syllables is parted that begins behind the front of a syllable: inside this
syllable, or behind some letters of a later one. -/
inductive Parted (front : List Char) : (cut left : List Char) → Prop
  | inside {s : Syllable} {cut tail : List Char} {ss : List Syllable} (hs : s.HasVowel)
      (hss : ∀ t ∈ ss, t.HasVowel) (htext : s.text = front ++ (cut ++ tail)) (htail : tail ≠ []) :
      Parted front cut (tail ++ runTogether ss)
  | later {before begun tail : List Char} {s : Syllable} {ss : List Syllable} (hs : s.HasVowel)
      (hss : ∀ t ∈ ss, t.HasVowel) (htext : s.text = begun ++ tail) (htail : tail ≠ [])
      (hbefore : EndsWith isFinalLetter before) :
      Parted front (before ++ begun) (tail ++ runTogether ss)

section

variable {s : Syllable} {ss : List Syllable} {front tail rest : List Char} {n : Nat}

theorem landing_runTogether (hss : ∀ t ∈ ss, t.HasVowel) : Landing (runTogether ss) := by
  cases ss with
  | nil => exact .finished
  | cons s ss =>
      rw [List.forall_mem_cons] at hss
      have htext : s.text = [] ++ s.text := rfl
      exact .letters hss.1 hss.2 htext hss.1.text_ne_nil (.inl rfl)

/-- Behind letters that end a syllable a text is parted in a later one. -/
theorem parted_later {before : List Char} (hbefore : EndsWith isFinalLetter before)
    (hss : ∀ t ∈ ss, t.HasVowel) (hle : before.length ≤ n)
    (hlt : n < (before ++ runTogether ss).length) :
    Parted front ((before ++ runTogether ss).take n) ((before ++ runTogether ss).drop n) := by
  induction ss generalizing before with
  | nil =>
      rw [runTogether_nil, List.append_nil] at hlt
      omega
  | cons s ss ih =>
      rw [List.forall_mem_cons] at hss
      obtain ⟨k, rfl⟩ := Nat.exists_eq_add_of_le hle
      by_cases hk : k < s.text.length
      · have hcut : (before ++ runTogether (s :: ss)).take (before.length + k)
            = before ++ s.text.take k := by
          rw [List.take_length_add_append, runTogether_cons,
            List.take_append_of_le_length (by omega)]
        have hleft : (before ++ runTogether (s :: ss)).drop (before.length + k)
            = s.text.drop k ++ runTogether ss := by
          rw [List.drop_length_add_append, runTogether_cons,
            List.drop_append_of_le_length (by omega)]
        rw [hcut, hleft]
        exact .later hss.1 hss.2 (List.take_append_drop k s.text).symm (by simpa using hk) hbefore
      · have hend : EndsWith isFinalLetter (before ++ s.text) :=
          (endsWith_append hss.1.text_ne_nil).2 hss.1.endsWith
        rw [runTogether_cons, ← List.append_assoc] at hlt ⊢
        exact ih hend hss.2 (by rw [List.length_append]; omega) hlt

/-- Every place of such a text is inside the first syllable or in a later one. -/
theorem parted_of_lt (hs : s.HasVowel) (hss : ∀ t ∈ ss, t.HasVowel) (htext : s.text = front ++ tail)
    (htail : tail ≠ []) (hlt : n < (tail ++ runTogether ss).length) :
    Parted front ((tail ++ runTogether ss).take n) ((tail ++ runTogether ss).drop n) := by
  by_cases hn : n < tail.length
  · rw [List.take_append_of_le_length (by omega), List.drop_append_of_le_length (by omega)]
    exact .inside hs hss (by rw [List.take_append_drop, htext]) (by simpa using hn)
  · have hend := hs.endsWith
    rw [htext, endsWith_append htail] at hend
    exact parted_later hend hss (Nat.le_of_not_lt hn) hlt

namespace Landing

/-- A letter that can be lent is a place to land on. -/
theorem drop (h : Landing rest) (hnext : BeginsWith borrowable.contains (rest.drop n)) :
    Landing (rest.drop n) := by
  have hlt : n < rest.length := by
    by_contra hle
    rw [List.drop_eq_nil_of_le (Nat.le_of_not_lt hle)] at hnext
    cases hnext
  cases h with
  | finished => cases hlt
  | letters hs hss htext htail hfront =>
      have hparted := parted_of_lt hs hss htext htail hlt
      revert hnext
      generalize List.take n _ = cut at hparted
      generalize List.drop n _ = left at hparted ⊢
      intro hnext
      cases hparted with
      | inside hs hss htext htail =>
          rw [← List.append_assoc] at htext
          exact .letters hs hss htext htail (.inr ((beginsWith_append htail).1 hnext))
      | later hs hss htext htail hbefore =>
          exact .letters hs hss htext htail (.inr ((beginsWith_append htail).1 hnext))

/-- No separator stands at such a place, and no glide. -/
theorem head_not (h : Landing rest) :
    rest.head? ≠ some separator ∧ ¬ BeginsWith glides.contains rest := by
  cases h with
  | finished => exact ⟨by simp, beginsWith_nil⟩
  | @letters s front tail ss hs hss htext htail hfront =>
      obtain ⟨c, tail, rfl⟩ := List.exists_cons_of_ne_nil htail
      refine ⟨fun hsep => s.separator_notMem_text ?_, fun hglide => ?_⟩
      · obtain rfl : c = separator := Option.some.inj hsep
        simp [htext]
      · have hnone : borrowable.all (!glides.contains ·) = true := by decide
        rcases hfront with rfl | hborrowable
        · exact hs.isPiece.not_glide (htext ▸ hglide)
        · have hnot := List.all_eq_true.1 hnone c (by simpa using hborrowable)
          have hyes : glides.contains c = true := hglide
          rw [hyes] at hnot
          cases hnot

/-- At such a place a piece is cut off. -/
theorem isPiece (h : Landing rest) (hne : rest ≠ []) :
    IsPiece FuzzySet.empty (rest.take (longestMatch FuzzySet.empty rest).length) := by
  cases h with
  | finished => exact (hne rfl).elim
  | @letters s front tail ss hs hss htext htail hfront =>
      rcases hfront with rfl | hborrowable
      · rw [List.nil_append] at htext
        subst htext
        exact (longestMatch_of_isPiece htail s.length_text_le hs.isPiece _).2
      · obtain ⟨x, tail, rfl, hx⟩ := hborrowable.exists_cons
        have hall : ∀ cs ∈ borrowable.map ([·]), IsPiece FuzzySet.empty cs := by decide
        have hpiece : IsPiece FuzzySet.empty [x] :=
          hall [x] (List.mem_map_of_mem (by simpa using hx))
        exact (longestMatch_of_isPiece (List.cons_ne_nil x []) hpiece.length_le hpiece
          (tail ++ runTogether ss)).2

/-- Inside the syllable where a piece begins one may land behind it, unless it is the front of a
longer piece. -/
theorem of_inside {cut back : List Char} {c : Char} (hs : s.HasVowel) (hss : ∀ t ∈ ss, t.HasVowel)
    (htext : s.text = front ++ (cut ++ c :: back)) (hcut : cut ≠ [])
    (hfront : front = [] ∨ BeginsWith borrowable.contains cut)
    (hlongest : ¬ IsPiece FuzzySet.empty (cut ++ [c])) :
    Landing (c :: back ++ runTogether ss) := by
  have hsplit : s.text = (front ++ cut) ++ c :: back := by rw [htext, List.append_assoc]
  rcases Syllable.inside_cases hsplit (by simp [hcut]) with hglide | hborrowable | ⟨rfl, hsibilant⟩
  · exact (hlongest (.inl (hs.isReadable_glide htext hcut hglide hfront))).elim
  · exact .letters hs hss hsplit (List.cons_ne_nil c back) (.inr (by simpa using hborrowable))
  · have hall : ∀ cs ∈ sibilants.map ([·, 'h']), IsPiece FuzzySet.empty cs := by decide
    obtain ⟨x, hx, hsingle⟩ := List.mem_map.1 hsibilant
    rcases List.append_eq_singleton_iff.1 hsingle.symm with ⟨-, rfl⟩ | ⟨-, rfl⟩
    · exact (hlongest (hall _ (List.mem_map_of_mem hx))).elim
    · exact (hcut rfl).elim

/-- Inside a later syllable one may land behind a piece, unless a glide follows that belongs to the
last letter of the piece. -/
theorem of_later {before begun back : List Char} {c : Char} (hs : s.HasVowel)
    (hss : ∀ t ∈ ss, t.HasVowel) (htext : s.text = begun ++ c :: back)
    (hbefore : EndsWith isFinalLetter before) (hpiece : IsPiece FuzzySet.empty (before ++ begun)) :
    Landing (c :: back ++ runTogether ss) ∨
      c ∈ glides ∧ ∃ x ∈ borrowable, begun = [x] ∧ IsReadable FuzzySet.empty [x, c] := by
  have htail : c :: back ≠ [] := List.cons_ne_nil c back
  by_cases hbegun : begun = []
  · exact .inl (.letters hs hss htext htail (.inl hbegun))
  rcases Syllable.inside_cases htext hbegun with hglide | hborrowable | ⟨rfl, hsibilant⟩
  · refine .inr ⟨hglide, ?_⟩
    have hcoda : BeginsWith isVowel begun ∨ begun ∈ codas := by
      obtain ⟨y, begun, rfl⟩ := List.exists_cons_of_ne_nil hbegun
      cases hy : isVowel y with
      | true => exact .inl hy
      | false => exact .inr (hpiece.eq_coda hbefore (by simp [hy]))
    obtain ⟨x, hx, rfl⟩ := List.mem_map.1 (hs.eq_singleton_of_glide htext hglide hcoda)
    have hstart : s.text = [] ++ ([x] ++ c :: back) := htext
    exact ⟨x, hx, rfl, hs.isReadable_glide hstart hbegun hglide (.inl rfl)⟩
  · exact .inl (.letters hs hss htext htail (.inr (by simpa using hborrowable)))
  · -- A piece that ends with a sibilant has no other letter.
    obtain ⟨x, hx, rfl⟩ := List.mem_map.1 hsibilant
    have hne : before ≠ [] := by
      rintro rfl
      cases hbefore
    have hlong : 1 < (before ++ [x]).length := by
      have := List.length_pos_iff.2 hne
      rw [List.length_append, List.length_singleton]
      omega
    have hend := hpiece.endsWith_of_length hlong
    rw [endsWith_append hbegun, endsWith_singleton] at hend
    simp [isFinalLetter, hx] at hend

/-- **Behind the longest piece** one may land, or a glide stands there that belongs to its last
letter; this letter can be lent then, and more stands before it. -/
theorem after_longestMatch (h : Landing rest) (hne : rest ≠ []) :
    Landing (rest.drop (longestMatch FuzzySet.empty rest).length) ∨
      ∃ before x c back, rest = before ++ x :: c :: back ∧ before ≠ [] ∧
        (longestMatch FuzzySet.empty rest).length = before.length + 1 ∧
        x ∈ borrowable ∧ c ∈ glides ∧ IsReadable FuzzySet.empty [x, c] := by
  have hpiece := h.isPiece hne
  have hpos := length_longestMatch_pos FuzzySet.empty rest
  have hlongest := @not_isPiece_longer rest
  have hrest := List.take_append_drop (longestMatch FuzzySet.empty rest).length rest
  have hlen : (rest.take (longestMatch FuzzySet.empty rest).length).length
      = (longestMatch FuzzySet.empty rest).length := by
    rw [List.length_take]
    exact Nat.min_eq_left (length_longestMatch_le FuzzySet.empty hne)
  rcases Nat.eq_or_lt_of_le (length_longestMatch_le FuzzySet.empty hne) with hend | hlt
  · rw [hend, List.drop_length]
    exact .inl .finished
  cases h with
  | finished => exact (hne rfl).elim
  | @letters s front tail ss hs hss htext htail hfront =>
      obtain ⟨cut, left, hcut, hleft, hparted⟩ : ∃ cut left,
          (tail ++ runTogether ss).take _ = cut ∧ (tail ++ runTogether ss).drop _ = left ∧
            Parted front cut left := ⟨_, _, rfl, rfl, parted_of_lt hs hss htext htail hlt⟩
      rw [hcut] at hpiece hlongest hrest hlen
      rw [hleft] at hlongest hrest ⊢
      cases hparted with
      | @inside s _ tail' ss hs hss htext htail' =>
          obtain ⟨c, back, rfl⟩ := List.exists_cons_of_ne_nil htail'
          have hne : cut ≠ [] := List.ne_nil_of_length_pos (by omega)
          have hbegin : front = [] ∨ BeginsWith borrowable.contains cut :=
            hfront.imp id fun hborrowable => by
              rwa [← beginsWith_append hne, hrest, beginsWith_append htail]
          exact .inl (of_inside hs hss htext hne hbegin (hlongest rfl))
      | @later before begun tail' s ss hs hss htext htail' hbefore =>
          obtain ⟨c, back, rfl⟩ := List.exists_cons_of_ne_nil htail'
          rcases of_later hs hss htext hbefore hpiece with hland | ⟨hglide, x, hx, rfl, hread⟩
          · exact .inl hland
          · refine .inr ⟨before, x, c, back ++ runTogether ss, ?_, ?_, ?_, hx, hglide, hread⟩
            · rw [← hrest]
              simp
            · rintro rfl
              cases hbefore
            · simpa using hlen.symm

end Landing

/-! ## Cuts -/

/-- No piece begins with a glide, and so it is cut off alone, without readings. -/
theorem not_isPiece_of_glide (hglide : BeginsWith glides.contains rest) (hn : 0 < n) :
    ¬ IsPiece FuzzySet.empty (rest.take n) := by
  obtain ⟨c, tail, rfl, hc⟩ := hglide.exists_cons
  obtain ⟨k, rfl⟩ := Nat.exists_eq_add_one.2 hn
  exact fun hpiece => hpiece.not_glide hc

theorem longestMatch_of_glide (hglide : BeginsWith glides.contains rest) :
    longestMatch FuzzySet.empty rest = ⟨1, false⟩ := by
  have hpos := length_longestMatch_pos FuzzySet.empty rest
  have hlen : (longestMatch FuzzySet.empty rest).length = 1 := by
    by_contra hlong
    exact not_isPiece_of_glide hglide hpos (isPiece_longestMatch (by omega))
  have hcomplete : (longestMatch FuzzySet.empty rest).complete = false := by
    by_contra hread
    rw [Bool.not_eq_false, complete_longestMatch_iff] at hread
    exact not_isPiece_of_glide hglide hpos (.inl hread.1)
  generalize longestMatch FuzzySet.empty rest = front at hlen hcomplete
  obtain ⟨length, complete⟩ := front
  subst hlen hcomplete
  rfl

/-- With the glide behind it the letter reaches further than the glide alone. -/
theorem reach_glide_lt {x c : Char} {back : List Char} (hc : c ∈ glides)
    (hread : IsReadable FuzzySet.empty [x, c]) (n : Nat) :
    reach (n + 1) (longestMatch FuzzySet.empty (c :: back))
      < reach n (longestMatch FuzzySet.empty (x :: c :: back)) := by
  have hglide : BeginsWith glides.contains (c :: back) := by simpa using hc
  have hne : [x, c] ≠ [] := List.cons_ne_nil x [c]
  have hpiece : IsPiece FuzzySet.empty [x, c] := .inl hread
  have htwo : 2 ≤ (longestMatch FuzzySet.empty (x :: c :: back)).length :=
    (longestMatch_of_isPiece hne hpiece.length_le hpiece back).1
  rw [longestMatch_of_glide hglide, reach, reach, Bool.toNat_false]
  rcases Nat.eq_or_lt_of_le htwo with hlen | hlong
  · have hcomplete : (longestMatch FuzzySet.empty (x :: c :: back)).complete = true := by
      rw [complete_longestMatch_iff, ← hlen]
      exact ⟨hread, by simp, by simp⟩
    rw [← hlen, hcomplete, Bool.toNat_true]
    simp only
    omega
  · simp only
    omega

theorem mayLend_of_glide {before back : List Char} {x c : Char} (hbefore : before ≠ [])
    (hread : IsReadable FuzzySet.empty before) (hx : x ∈ borrowable) (hc : c ∈ glides) :
    MayLend FuzzySet.empty (before ++ x :: c :: back) (before.length + 1) := by
  have hpos := List.length_pos_iff.2 hbefore
  refine ⟨by omega, ⟨c, ?_, ?_⟩, ⟨x, ?_, hx⟩, ?_⟩
  · rw [List.getElem?_append_right (by omega), Nat.add_sub_cancel_left]
    rfl
  · rintro rfl
    exact absurd hc (by decide)
  · rw [Nat.add_sub_cancel, List.getElem?_append_right (Nat.le_refl _), Nat.sub_self]
    rfl
  · rwa [Nat.add_sub_cancel, List.take_left]

/-- **A cut from a landing leads to a landing**, unless the longest piece overruns; then it leads to
a glide.  What is cut off is a piece in any case. -/
theorem Landing.cut (h : Landing rest) (hne : rest ≠ [])
    (hn : n ∈ cutLengths FuzzySet.empty rest) :
    IsPiece FuzzySet.empty (rest.take n) ∧
      (¬ Overruns rest → Landing (rest.drop n)) ∧
      (Overruns rest → BeginsWith glides.contains (rest.drop n)) := by
  rcases mem_cutLengths_cases rfl hn with ⟨rfl, hreach⟩ | ⟨rfl, -, hlend, -⟩
  · have hpiece := h.isPiece hne
    refine ⟨hpiece, fun hno => ?_, fun hover => hover.2.1⟩
    rcases h.after_longestMatch hne with
      hland | ⟨before, x, c, back, rfl, hbefore, hlen, hx, hc, hread⟩
    · exact hland
    -- The piece may lend its last letter, and this does better than to keep it.
    have htake : (before ++ x :: c :: back).take (before.length + 1) = before ++ [x] := by
      rw [List.take_length_add_append]
      rfl
    have hdrop : (before ++ x :: c :: back).drop (before.length + 1) = c :: back := by
      rw [List.drop_length_add_append]
      rfl
    have hlong : 1 < (before ++ [x]).length := by
      have := List.length_pos_iff.2 hbefore
      rw [List.length_append, List.length_singleton]
      omega
    rw [hlen, htake] at hpiece
    have hcomplete : (longestMatch FuzzySet.empty (before ++ x :: c :: back)).complete = true := by
      rw [complete_longestMatch_iff, hlen, htake]
      have hlast : EndsWith borrowable.contains (before ++ [x]) := by
        rw [endsWith_append (List.cons_ne_nil x []), endsWith_singleton]
        simpa using hx
      refine ⟨hpiece.isReadable_of_borrowable hlong hlast, fun hm => ?_, fun hm => ?_⟩ <;>
        · rw [hm] at hlong
          exact absurd hlong (by decide)
    have hshort : IsReadable FuzzySet.empty before := by
      by_contra hunread
      refine hno ⟨hcomplete, ?_, ?_⟩
      · rw [hlen, hdrop]
        simpa using hc
      · rwa [hlen, Nat.add_sub_cancel, List.take_left]
    have hkept := hreach hcomplete (hlen ▸ mayLend_of_glide hbefore hshort hx hc)
    rw [hlen, Nat.add_sub_cancel, List.drop_left, hdrop] at hkept
    exact (Nat.not_le_of_lt (reach_glide_lt hc hread before.length) hkept).elim
  · obtain ⟨hlong, -, ⟨x, hx, hborrowable⟩, hread⟩ := hlend
    refine ⟨.inl hread, fun _ => h.drop ?_, fun hover => (hover.2.2 hread).elim⟩
    rw [BeginsWith, List.head?_drop, Option.mem_def.1 hx]
    simpa using hborrowable

end

/-! ## Ways -/

namespace CutGraph

/-- Each edge of a way has a reading. -/
def Reads (g : CutGraph) (path : Path) : Prop := path.IsChain fun p q => g.readingsOf p q ≠ []

variable {text : List Char} {p q : Nat} {path : Path}

/-- Where no separator stands an edge is a cut, and it has readings if a piece is cut off. -/
theorem exists_cut_of_mem_successors (hsep : (text.drop p).head? ≠ some separator)
    (h : q ∈ (ofPinyin .plain text).successors p) :
    ∃ n ∈ cutLengths FuzzySet.empty (text.drop p), q = p + n ∧
      ((ofPinyin .plain text).readingsOf p q ≠ [] ↔
        IsPiece FuzzySet.empty ((text.drop p).take n)) := by
  obtain ⟨e, he, rfl⟩ := List.mem_map.1 h
  have hreadings := readingsOf_stop he
  obtain ⟨-, n, hn, rfl⟩ := @cut_of_mem_edgesAt .plain text (fun _ => True) rfl
    (fun _ _ _ _ _ => trivial) trivial p e he
  rw [frontCuts, if_neg hsep] at hn
  refine ⟨n, hn, rfl, ?_⟩
  rw [hreadings, labelOf_add hsep]
  exact readings_ne_nil_iff

/-- A way that comes upon a glide does not read on. -/
theorem not_reads_of_glide (hglide : BeginsWith glides.contains (text.drop p))
    (h : path ∈ (ofPinyin .plain text).pathsFrom p) : ¬ (ofPinyin .plain text).Reads path := by
  have hp : p ≠ (ofPinyin .plain text).size := by
    rintro rfl
    rw [size_ofPinyin, List.drop_length] at hglide
    cases hglide
  rw [pathsFrom_of_ne hp] at h
  obtain ⟨q, hq, h⟩ := List.mem_flatMap.1 h
  obtain ⟨path, hpath, rfl⟩ := List.mem_map.1 h
  obtain ⟨rest, rfl⟩ := exists_cons_of_mem_pathsFrom hpath
  have hsep : (text.drop p).head? ≠ some separator := by
    obtain ⟨c, tail, htail, hc⟩ := hglide.exists_cons
    rw [htail, List.head?_cons]
    rintro ⟨rfl⟩
    exact absurd hc (by decide)
  obtain ⟨n, -, rfl, hreads⟩ := exists_cut_of_mem_successors hsep hq
  have hpos : 0 < n := by
    have := (lt_of_mem_successors hq).1
    omega
  intro hchain
  exact not_isPiece_of_glide hglide hpos (hreads.1 (List.isChain_cons_cons.1 hchain).1)

/-- **A way has readings everywhere if it meets no overrun**, and only then. -/
theorem reads_iff_of_mem_pathsFrom {p : Nat} {path : Path} (hland : Landing (text.drop p))
    (h : path ∈ (ofPinyin .plain text).pathsFrom p) :
    (ofPinyin .plain text).Reads path ↔ ∀ q ∈ path, ¬ Overruns (text.drop q) := by
  by_cases hp : p = (ofPinyin .plain text).size
  case pos =>
    rw [hp, pathsFrom_size, List.mem_singleton] at h
    have hnone : ¬ Overruns [] := by decide
    subst h
    simp [Reads, hnone]
  case neg =>
    rw [pathsFrom_of_ne hp] at h
    obtain ⟨q, hq, h⟩ := List.mem_flatMap.1 h
    obtain ⟨path, hpath, rfl⟩ := List.mem_map.1 h
    have hforward := lt_of_mem_successors hq
    have hne : text.drop p ≠ [] := by
      rw [size_ofPinyin] at hforward
      rw [Ne, List.drop_eq_nil_iff]
      omega
    obtain ⟨n, hn, rfl, hreads⟩ := exists_cut_of_mem_successors hland.head_not.1 hq
    obtain ⟨hpiece, hnext, hover⟩ := hland.cut hne hn
    rw [List.drop_drop] at hnext hover
    have hcons : (ofPinyin .plain text).Reads (p :: path) ↔ (ofPinyin .plain text).Reads path := by
      obtain ⟨rest, rfl⟩ := exists_cons_of_mem_pathsFrom hpath
      exact List.isChain_cons_cons.trans (and_iff_right (hreads.2 hpiece))
    rw [hcons, List.forall_mem_cons]
    by_cases hhere : Overruns (text.drop p)
    · have hstuck := not_reads_of_glide (hover hhere) hpath
      simp [hstuck, hhere]
    · have hrest := reads_iff_of_mem_pathsFrom (hnext hhere) hpath
      simp [hrest, hhere]
termination_by text.length - p
decreasing_by
  rw [size_ofPinyin] at hforward
  omega

end CutGraph

/-- **Which ways through syllables have readings everywhere.**  A text that can be cut into full
syllables, of which some may begin with vowels but none is an interjection without a vowel, has
ways from its start to its end.  Such a way has a reading on each edge exactly if the longest piece
overruns at none of its positions; so there is one with readings on all edges exactly if some way
meets no overrun. -/
theorem paths_read_iff (ss : List Syllable) (hss : ∀ s ∈ ss, s.HasVowel) :
    let text := runTogether ss
    let g := CutGraph.ofPinyin .plain text
    g.paths ≠ [] ∧
    (∀ path ∈ g.paths, g.Reads path ↔ ∀ p ∈ path, ¬ Overruns (text.drop p)) ∧
    ((∃ path ∈ g.paths, g.Reads path) ↔
      ∃ path ∈ g.paths, ∀ p ∈ path, ¬ Overruns (text.drop p)) := by
  intro text g
  have hreads : ∀ path ∈ g.paths, g.Reads path ↔ ∀ p ∈ path, ¬ Overruns (text.drop p) :=
    fun path hpath => CutGraph.reads_iff_of_mem_pathsFrom (p := 0) (landing_runTogether hss) hpath
  have hpath : g.preferredPath ∈ g.paths :=
    CutGraph.preferredPath_mem_paths (CutGraph.hasNoDeadEnds_ofPinyin .plain text)
  exact ⟨List.ne_nil_of_mem hpath, hreads, exists_congr fun path => and_congr_right (hreads path)⟩

/-- The longest piece "xiang" lends its "g", and the way through "xian" and "gao" reads on. -/
theorem paths_read_iff_sample :
    let ss : List Syllable := [⟨.x, .i⟩, ⟨.zero, .an⟩, ⟨.g, .ao⟩]
    let g := CutGraph.ofPinyin .plain (runTogether ss)
    (∀ s ∈ ss, s.HasVowel) ∧ [0, 4, 7] ∈ g.paths ∧ g.Reads [0, 4, 7] := by
  intro ss g
  have hss : ∀ s ∈ ss, s.HasVowel := by decide
  have hpath : [0, 4, 7] ∈ g.paths :=
    CutGraph.mem_pathsFrom_of_isChain (by decide) (by decide)
  obtain ⟨-, hreads, -⟩ := paths_read_iff ss hss
  exact ⟨hss, hpath, (hreads _ hpath).2 (by decide)⟩

/-- **A text of syllables that no way reads through**: "bi", "a" and "ou" are cut into "biao", which
is none without its last letter, and a "u" that begins nothing. -/
theorem not_exists_reads_sample :
    let ss : List Syllable := [⟨.b, .i⟩, ⟨.zero, .a⟩, ⟨.zero, .ou⟩]
    let g := CutGraph.ofPinyin .plain "biaou".toList
    (∀ s ∈ ss, s.HasVowel) ∧ "biaou".toList = runTogether ss ∧
      ¬ ∃ path ∈ g.paths, g.Reads path := by
  intro ss g
  have hss : ∀ s ∈ ss, s.HasVowel := by decide
  refine ⟨hss, rfl, ?_⟩
  rintro ⟨path, hpath, hreads⟩
  have hland : Landing ("biaou".toList.drop 0) := landing_runTogether hss
  have hclear := (CutGraph.reads_iff_of_mem_pathsFrom hland hpath).1 hreads
  obtain ⟨rest, rfl⟩ := CutGraph.exists_cons_of_mem_pathsFrom hpath
  exact hclear 0 List.mem_cons_self (by decide)

end Pinyin
