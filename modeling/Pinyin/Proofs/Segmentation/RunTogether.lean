import Pinyin.Proofs.Code.Typed
import Pinyin.Proofs.Segmentation.Pieces

/-!
# Pinyin.Proofs.Segmentation.RunTogether

Syllables that are typed one after the other, without separators between them.

* `runTogether` — the text;
* `length_longestMatch_over` — a piece reaches no further than one letter into a syllable that
  begins with a consonant;
* `AtSyllable.cut` — a cut leads from a syllable to a syllable, which may be another one without
  its onset;
* `runTogether_read` — syllables that all begin with consonants are never broken.
-/

namespace Pinyin

/-- The texts of some syllables, one after the other. -/
def runTogether (ss : List Syllable) : List Char := ss.flatMap Syllable.text

@[simp] theorem runTogether_nil : runTogether [] = [] := rfl

@[simp] theorem runTogether_cons (s : Syllable) (ss : List Syllable) :
    runTogether (s :: ss) = s.text ++ runTogether ss := rfl

/-- What is left of such a text, syllables with an onset, where a cut may end: all of the next
syllable, or a part of it that is a syllable too. -/
inductive AtSyllable : List Char → Prop
  | finished : AtSyllable []
  | syllable {s : Syllable} {ss : List Syllable} (hs : s.HasVowel) (hss : ∀ t ∈ ss, t.HasOnset) :
      AtSyllable (s.text ++ runTogether ss)

section

variable {s : Syllable} {ss : List Syllable} {front back : List Char} {n : Nat}

theorem atSyllable_runTogether (hss : ∀ t ∈ ss, t.HasOnset) : AtSyllable (runTogether ss) := by
  cases ss with
  | nil => exact .finished
  | cons s ss =>
      rw [List.forall_mem_cons] at hss
      exact .syllable hss.1.hasVowel hss.2

/-! ## The longest piece -/

/-- A piece with a vowel is complete. -/
theorem complete_longestMatch_of_vowel {rest : List Char}
    (hpiece : IsPiece FuzzySet.empty (rest.take (longestMatch FuzzySet.empty rest).length))
    (hvowel : (rest.take (longestMatch FuzzySet.empty rest).length).any isVowel = true) :
    (longestMatch FuzzySet.empty rest).complete = true := by
  obtain ⟨t, ht, htext⟩ := hpiece.exists_hasVowel hvowel
  rw [complete_longestMatch_iff, ← htext]
  refine ⟨ht.isReadable, fun hm => ?_, fun hn => ?_⟩
  · have := ht.any_isVowel
    rw [hm] at this
    exact absurd this (by decide)
  · have := ht.any_isVowel
    rw [hn] at this
    exact absurd this (by decide)

/-- Where a syllable with a vowel stands, another one is cut off that begins with it. -/
theorem longestMatch_text_append (hs : s.HasVowel) (back : List Char) :
    let match' := longestMatch FuzzySet.empty (s.text ++ back)
    s.text.length ≤ match'.length ∧ match'.complete = true ∧
      ∃ t : Syllable, t.HasVowel ∧ t.text = (s.text ++ back).take match'.length := by
  obtain ⟨hle, hpiece⟩ := longestMatch_of_isPiece hs.text_ne_nil s.length_text_le hs.isPiece back
  have hvowel : ((s.text ++ back).take
      (longestMatch FuzzySet.empty (s.text ++ back)).length).any isVowel = true := by
    rw [List.take_append, List.take_of_length_le hle, List.any_append, hs.any_isVowel,
      Bool.true_or]
  exact ⟨hle, complete_longestMatch_of_vowel hpiece hvowel, hpiece.exists_hasVowel hvowel⟩

/-- **A piece reaches no further than one letter into a syllable that begins with a consonant**,
and the rest of this syllable begins with a vowel. -/
theorem length_longestMatch_over (hfront : EndsWith isFinalLetter front)
    (hss : ∀ t ∈ ss, t.HasOnset)
    (hlong : front.length < (longestMatch FuzzySet.empty (front ++ runTogether ss)).length) :
    (longestMatch FuzzySet.empty (front ++ runTogether ss)).length = front.length + 1 ∧
      ∃ s ss' c d tail, ss = s :: ss' ∧ s.text = c :: d :: tail ∧ c ∈ borrowable ∧
        isVowel d = true := by
  have hne : front ≠ [] := by
    rintro rfl
    cases hfront
  have hpos := List.length_pos_iff.2 hne
  have hpiece : IsPiece FuzzySet.empty ((front ++ runTogether ss).take
      (longestMatch FuzzySet.empty (front ++ runTogether ss)).length) :=
    isPiece_longestMatch (by omega)
  have hnil : front ++ runTogether ss ≠ [] := by simp [hne]
  have hle := length_longestMatch_le FuzzySet.empty hnil
  cases ss with
  | nil =>
      rw [runTogether_nil, List.append_nil] at hlong hle
      omega
  | cons s ss =>
      obtain ⟨c, d, tail, htext, hc, hd⟩ := (hss s List.mem_cons_self).text_eq
      obtain ⟨k, hk⟩ : ∃ k, (longestMatch FuzzySet.empty (front ++ runTogether (s :: ss))).length
          = front.length + 1 + k := Nat.exists_eq_add_of_le hlong
      rw [hk, runTogether_cons, htext, List.take_append, List.take_of_length_le (by omega),
        show front.length + 1 + k - front.length = k + 1 by omega] at hpiece
      have hback : (c :: (d :: (tail ++ runTogether ss)).take k) ∈ codas :=
        hpiece.eq_coda hfront (by simpa using hc)
      -- A second letter could only be the "g" of "ng", and no syllable begins so.
      have hfirst : ∀ coda ∈ codas,
          BeginsWith (fun x => borrowable.contains x && !sibilants.contains x) coda := by decide
      have hsecond : ∀ coda ∈ codas, coda.tail.any isVowel = false := by decide
      obtain ⟨hborrowable, hsibilant⟩ : c ∈ borrowable ∧ c ∉ sibilants := by
        simpa using hfirst _ hback
      have hvowel : isVowel d = true := hd.resolve_right hsibilant
      cases k with
      | zero => exact ⟨hk, s, ss, c, d, tail, rfl, htext, hborrowable, hvowel⟩
      | succ k =>
          have hnone := hsecond _ hback
          simp [hvowel] at hnone

/-! ## Cuts -/

/-- A cut of the length of a syllable leads to the next one. -/
theorem AtSyllable.cut_text (hs : s.HasVowel) (hss : ∀ t ∈ ss, t.HasOnset) :
    (∃ t : Syllable, t.HasVowel ∧ t.text = (s.text ++ runTogether ss).take s.text.length) ∧
      AtSyllable ((s.text ++ runTogether ss).drop s.text.length) := by
  rw [List.take_left, List.drop_left]
  exact ⟨⟨s, hs, rfl⟩, atSyllable_runTogether hss⟩

/-- A syllable that is the longest piece keeps its last letter: with this letter the next piece
would not end behind the onset of the next syllable. -/
theorem AtSyllable.not_short (hs : s.HasVowel) (hss : ∀ t ∈ ss, t.HasOnset) (hne : ss ≠ []) :
    reach (s.text.length - 1)
        (longestMatch FuzzySet.empty ((s.text ++ runTogether ss).drop (s.text.length - 1)))
      < reach s.text.length
        (longestMatch FuzzySet.empty ((s.text ++ runTogether ss).drop s.text.length)) := by
  obtain ⟨init, x, htext⟩ := (List.eq_nil_or_concat' s.text).resolve_left hs.text_ne_nil
  have hlen : s.text.length = init.length + 1 := by simp [htext]
  have hlast : EndsWith isFinalLetter [x] := by
    have hend := hs.endsWith
    rwa [htext, endsWith_append (List.cons_ne_nil x [])] at hend
  have hdrop : (s.text ++ runTogether ss).drop (s.text.length - 1) = [x] ++ runTogether ss := by
    rw [hlen, Nat.add_sub_cancel, htext, List.append_assoc, List.drop_left]
  rw [hdrop, List.drop_left]
  have hshort : (longestMatch FuzzySet.empty ([x] ++ runTogether ss)).length ≤ 2 := by
    by_contra hlong
    have hover := (length_longestMatch_over hlast hss (by simp at hlong ⊢; omega)).1
    rw [List.length_singleton] at hover
    omega
  have hwhole : 2 ≤ (longestMatch FuzzySet.empty (runTogether ss)).length := by
    obtain ⟨t, ss, rfl⟩ := List.exists_cons_of_ne_nil hne
    have ht := hss t List.mem_cons_self
    obtain ⟨c, d, tail, htext, -⟩ := ht.text_eq
    have hlong := (longestMatch_text_append ht.hasVowel (runTogether ss)).1
    rw [htext] at hlong
    simp only [List.length_cons, runTogether_cons, htext] at hlong ⊢
    omega
  have := Bool.toNat_le (longestMatch FuzzySet.empty ([x] ++ runTogether ss)).complete
  rw [reach, reach]
  omega

/-- A syllable that has taken the onset of the next one lends it, unless what follows the onset is a
syllable too. -/
theorem AtSyllable.exists_text {c d : Char} {tail : List Char}
    (hs : s.HasOnset) (htext : s.text = c :: d :: tail) (hvowel : isVowel d = true) {n : Nat}
    (hreach : reach n (longestMatch FuzzySet.empty (runTogether (s :: ss)))
      ≤ reach (n + 1) (longestMatch FuzzySet.empty (d :: tail ++ runTogether ss))) :
    ∃ t : Syllable, t.HasVowel ∧ t.text = d :: tail := by
  obtain ⟨hlong, hcomplete, -⟩ := longestMatch_text_append hs.hasVowel (runTogether ss)
  rw [runTogether_cons, reach, reach, hcomplete, Bool.toNat_true] at hreach
  rw [htext, List.length_cons] at hlong
  have htoNat := Bool.toNat_le (longestMatch FuzzySet.empty (d :: tail ++ runTogether ss)).complete
  have hle : (d :: tail).length
      ≤ (longestMatch FuzzySet.empty (d :: tail ++ runTogether ss)).length := by
    rw [htext] at hreach
    omega
  have hpiece : IsPiece FuzzySet.empty ((d :: tail ++ runTogether ss).take
      (longestMatch FuzzySet.empty (d :: tail ++ runTogether ss)).length) := by
    cases hread : (longestMatch FuzzySet.empty (d :: tail ++ runTogether ss)).complete with
    | true => exact .inl (complete_longestMatch_iff.1 hread).1
    | false =>
        -- It has to reach further then, beyond one character.
        rw [hread, Bool.toNat_false, htext] at hreach
        rw [List.length_cons] at hlong
        exact isPiece_longestMatch (by omega)
  rw [List.take_append, List.take_of_length_le hle] at hpiece
  exact hpiece.exists_hasVowel_front (by simpa using hvowel)

/-- **A cut leads from a syllable to a syllable**, and so the piece that is cut off is one. -/
theorem AtSyllable.cut (hs : s.HasVowel) (hss : ∀ t ∈ ss, t.HasOnset)
    (hn : n ∈ cutLengths FuzzySet.empty (s.text ++ runTogether ss)) :
    (∃ t : Syllable, t.HasVowel ∧ t.text = (s.text ++ runTogether ss).take n) ∧
      AtSyllable ((s.text ++ runTogether ss).drop n) := by
  obtain ⟨hle, hcomplete, hpiece⟩ := longestMatch_text_append hs (runTogether ss)
  rcases Nat.eq_or_lt_of_le hle with hlen | hlong
  · -- The syllable itself is the longest piece.
    rcases mem_cutLengths_cases hlen.symm hn with ⟨rfl, -⟩ | ⟨-, -, ⟨-, ⟨c, hc, -⟩, -⟩, hless⟩
    · exact cut_text hs hss
    · have hne : ss ≠ [] := by
        rintro rfl
        simp at hc
      exact (Nat.not_le_of_lt (not_short hs hss hne) hless).elim
  · -- It has taken the onset of the next one.
    obtain ⟨hlen, t, ss, c, d, tail, rfl, htext, hc, hd⟩ :=
      length_longestMatch_over hs.endsWith hss hlong
    rw [List.forall_mem_cons] at hss
    have hrun : s.text ++ runTogether (t :: ss)
        = s.text ++ [c] ++ (d :: tail ++ runTogether ss) := by
      simp [htext]
    have hdrop : (s.text ++ runTogether (t :: ss)).drop (s.text.length + 1)
        = d :: tail ++ runTogether ss := by
      rw [hrun]
      exact List.drop_left' (by simp)
    rcases mem_cutLengths_cases hlen hn with ⟨rfl, hreach⟩ | ⟨rfl, -⟩
    · rw [hlen] at hpiece
      refine ⟨hpiece, ?_⟩
      have hlend :
          MayLend FuzzySet.empty (s.text ++ runTogether (t :: ss)) (s.text.length + 1) := by
        have hpos := List.length_pos_iff.2 hs.text_ne_nil
        refine ⟨by omega, ⟨d, ?_, ?_⟩, ⟨c, ?_, hc⟩, ?_⟩
        · rw [hrun, List.getElem?_append_right (by simp)]
          simp
        · rintro rfl
          exact t.separator_notMem_text (by simp [htext])
        · rw [Nat.add_sub_cancel, hrun, List.append_assoc,
            List.getElem?_append_right (Nat.le_refl _), Nat.sub_self]
          rfl
        · rw [Nat.add_sub_cancel, List.take_left]
          exact hs.isReadable
      have hshort := hreach hcomplete hlend
      rw [Nat.add_sub_cancel, List.drop_left, hdrop] at hshort
      obtain ⟨t', ht', htail⟩ := exists_text hss.1 htext hd hshort
      rw [hdrop, ← htail]
      exact .syllable ht' hss.2
    · rw [Nat.add_sub_cancel]
      exact cut_text hs (List.forall_mem_cons.2 hss)

end

/-! ## Texts -/

/-- **Syllables with onsets are never broken.**  Where such syllables are typed one after the other,
without separators, every edge of the graph stands for a full syllable and has this syllable, read
exactly, for its only reading; so the text has a code. -/
theorem runTogether_read (ss : List Syllable) (hss : ∀ s ∈ ss, s.HasOnset) :
    let g := CutGraph.ofPinyin .plain (runTogether ss)
    (∀ p, ∀ e ∈ g.edgesAt p, ∃ s : Syllable, s.HasVowel ∧ s.text = g.piece p e.stop ∧
      e.readings = [⟨s, false⟩]) ∧
    ∃ code, encodePinyin (runTogether ss) = .ok code := by
  intro g
  have hsep : ∀ rest, rest ≠ [] → AtSyllable rest → rest.head? ≠ some separator := by
    intro rest hne hrest hhead
    cases hrest with
    | finished => exact hne rfl
    | @syllable s ss hs hss =>
        rw [List.head?_append_of_ne_nil _ hs.text_ne_nil] at hhead
        exact s.separator_notMem_text (List.mem_of_head? hhead)
  have hcut : ∀ rest, rest ≠ [] → AtSyllable rest → ∀ n ∈ frontCuts FuzzySet.empty rest,
      (∃ t : Syllable, t.HasVowel ∧ t.text = rest.take n) ∧ AtSyllable (rest.drop n) := by
    intro rest hne hrest n hn
    rw [frontCuts, if_neg (hsep rest hne hrest)] at hn
    cases hrest with
    | finished => exact (hne rfl).elim
    | syllable hs hss => exact AtSyllable.cut hs hss hn
  have hedges : ∀ p, ∀ e ∈ g.edgesAt p, ∃ s : Syllable, s.HasVowel ∧ s.text = g.piece p e.stop ∧
      e.readings = [⟨s, false⟩] := by
    intro p e he
    obtain ⟨hrest, n, hn, rfl⟩ := @CutGraph.cut_of_mem_edgesAt .plain _ AtSyllable rfl
      (fun rest hne hrest n hn => (hcut rest hne hrest n hn).2) (atSyllable_runTogether hss) p e he
    have hne : (runTogether ss).drop p ≠ [] := by
      have hlt := CutGraph.lt_stop he
      have hle := CutGraph.stop_le_size he
      rw [CutGraph.size_ofPinyin] at hle
      rw [Ne, List.drop_eq_nil_iff]
      omega
    obtain ⟨⟨t, ht, htext⟩, -⟩ := hcut _ hne hrest n hn
    refine ⟨t, ht, ?_, ?_⟩
    · rw [CutGraph.piece, CutGraph.text_ofPinyin, Nat.add_sub_cancel_left, htext]
    · rw [CutGraph.labelOf_add (hsep _ hne hrest), ← htext]
      exact ht.readings_text
  refine ⟨hedges, ?_⟩
  cases hcode : encodePinyin (runTogether ss) with
  | ok code => exact ⟨code, rfl⟩
  | error e =>
      obtain ⟨edge, hedge, -, hnone⟩ := (exists_encodePinyin_eq_error_iff rfl).1 ⟨e, hcode⟩
      obtain ⟨s, -, -, hreadings⟩ :=
        hedges edge.1 edge.2 (CutGraph.mem_edgesAt_of_mem_preferredFrom hedge)
      simp [hreadings] at hnone

/-- The "g" may end the first syllable or begin the second one; both ways are kept. -/
theorem runTogether_read_sample :
    let ss : List Syllable := [⟨.f, .an⟩, ⟨.g, .an⟩]
    let g := CutGraph.ofPinyin .plain (runTogether ss)
    (∀ s ∈ ss, s.HasOnset) ∧ g.successors 0 = [4, 3] ∧
      (∀ p, ∀ e ∈ g.edgesAt p, e.readings.length = 1) ∧
      ∃ code, encodePinyin (runTogether ss) = .ok code := by
  intro ss g
  have hss : ∀ s ∈ ss, s.HasOnset := by decide
  obtain ⟨hedges, hcode⟩ := runTogether_read ss hss
  refine ⟨hss, by decide, fun p e he => ?_, hcode⟩
  obtain ⟨s, -, -, hreadings⟩ := hedges p e he
  rw [hreadings]
  rfl

end Pinyin
