import Pinyin.Proofs.Reading.Spelling

/-!
# Pinyin.Proofs.Reading.Exact

Reading without fuzzy rules, and the exact reading that any rules leave.

* `Spelling.ofText?_append_of_finalOf?` — an initial and a final are read back from their letters;
* `mem_readings_empty` — a syllable is read only where its own text stands;
* `Syllable.asTyped`, `head?_readings_text` — the text of a syllable is read as that syllable, but
  "m" and "n" alone as the interjections;
* `mem_readings_text` — with any fuzzy rules this reading is there, and exact.
-/

namespace Pinyin

/-! ## Initials and finals in a text -/

/-- The letters that finals begin with, the final "ng" apart. -/
def isVowel (c : Char) : Bool := ['a', 'e', 'i', 'o', 'u', 'v'].contains c

namespace Spelling

/-- The letters of a final: they begin with a vowel, or they are two and none is. -/
def IsFinalLike (cs : List Char) : Prop :=
  cs.head?.any isVowel = true ∨ cs.length = 2 ∧ cs.any isVowel = false

instance (cs : List Char) : Decidable (IsFinalLike cs) := by
  unfold IsFinalLike; infer_instance

/-- The letters before a final. -/
def beforeFinal (cs : List Char) : List Char :=
  if cs.any isVowel then cs.takeWhile (!isVowel ·) else cs.take (cs.length - 2)

theorem any_isVowel_initial (i : Initial) : i.text.any isVowel = false := by
  cases i <;> decide

theorem isFinalLike_of_finalOf? {cs : List Char} {found : Final × Bool}
    (h : finalOf? cs = some found) : IsFinalLike cs := by
  have hplain : ∀ f ∈ Final.lettered, IsFinalLike f.text := by decide +kernel
  have hswapped : ∀ f ∈ Final.lettered, ∀ cs ∈ f.swappedText?, IsFinalLike cs := by decide +kernel
  obtain ⟨f, hf, hfound⟩ := List.exists_of_findSome?_eq_some h
  split at hfound
  · next htext => exact htext ▸ hplain f hf
  · split at hfound
    · next htext => exact hswapped f hf cs htext
    · cases hfound

/-- What stands before a final is the initial. -/
theorem beforeFinal_append (i : Initial) {cs : List Char} (h : IsFinalLike cs) :
    beforeFinal (i.text ++ cs) = i.text := by
  have hinitial : ∀ c ∈ i.text, !isVowel c := by simpa using any_isVowel_initial i
  rw [beforeFinal, List.any_append, any_isVowel_initial, Bool.false_or]
  rcases h with hvowel | ⟨hlen, hnone⟩
  · match cs with
    | c :: rest =>
        have hc : isVowel c = true := hvowel
        rw [if_pos (by simp [hc]), List.takeWhile_append_of_pos hinitial,
          List.takeWhile_cons_of_neg (by simp [hc]), List.append_nil]
  · rw [if_neg (by simp [hnone]), List.length_append, hlen, Nat.add_sub_cancel]
    exact List.take_left

theorem text_eq_nil_iff {i : Initial} : i.text = [] ↔ i = .zero := by
  cases i <;> simp [Initial.text]

/-- The letters of an initial tell it from the others. -/
theorem initial_eq_of_text_eq {i i' : Initial} (h : i.text = i'.text) : i = i' := by
  by_cases hi : i = .zero
  · rw [hi, eq_comm, ← text_eq_nil_iff, ← h, hi]
    rfl
  · have hi' : i' ≠ .zero := fun hi' => hi (text_eq_nil_iff.1 (h.trans (text_eq_nil_iff.2 hi')))
    exact Option.some.inj ((Initial.ofText?_text hi).symm.trans (h ▸ Initial.ofText?_text hi'))

/-- A final makes more of an initial than one consonant. -/
theorem append_ne_singleton (i : Initial) {cs : List Char} (h : IsFinalLike cs) {x : Char}
    (hx : isVowel x = false) : i.text ++ cs ≠ [x] := by
  intro heq
  rcases h with hvowel | ⟨hlen, -⟩
  · match cs with
    | c :: rest =>
        have hmem : c ∈ i.text ++ c :: rest := List.mem_append_right _ List.mem_cons_self
        rw [heq, List.mem_singleton] at hmem
        have hc : isVowel c = true := hvowel
        rw [hmem, hx] at hc
        cases hc
  · have hone := congrArg List.length heq
    rw [List.length_append, List.length_singleton] at hone
    omega

/-- An initial is read back from the letters in front of those of a final. -/
theorem ofText?_append_of_finalOf? (i : Initial) {cs : List Char} {f : Final} {swapped : Bool}
    (hfinal : finalOf? cs = some (f, swapped)) : ofText? (i.text ++ cs) = some ⟨i, f, swapped⟩ := by
  have hlike := isFinalLike_of_finalOf? hfinal
  have hstrip : stripLetters? i.text (i.text ++ cs) = some cs := stripLetters?_eq_some_iff.2 rfl
  have hm : i.text ++ cs ≠ Initial.m.text := append_ne_singleton i hlike (by decide)
  have hn : i.text ++ cs ≠ Initial.n.text := append_ne_singleton i hlike (by decide)
  rw [ofText?, if_neg hm, if_neg hn]
  cases hsome : Initial.all.findSome? _ with
  | none =>
      have hnone := List.findSome?_eq_none_iff.1 hsome i (Initial.mem_all i)
      simp [hstrip, hfinal] at hnone
  | some sp =>
      -- Whatever initial it was found for is the one before the final.
      obtain ⟨i', -, hi'⟩ := List.exists_of_findSome?_eq_some hsome
      obtain ⟨rest, hrest, hi'⟩ := Option.bind_eq_some_iff.1 hi'
      obtain ⟨found, hfound, hi'⟩ := Option.bind_eq_some_iff.1 hi'
      have heq := stripLetters?_eq_some_iff.1 hrest
      have hbefore := beforeFinal_append i hlike
      rw [heq, beforeFinal_append i' (isFinalLike_of_finalOf? hfound)] at hbefore
      obtain rfl := initial_eq_of_text_eq hbefore
      obtain rfl := List.append_cancel_left heq
      rw [hfinal] at hfound
      cases hfound
      exact hi'.symm

/-- An initial and a final are read back from their letters. -/
theorem ofText?_append (i : Initial) {f : Final} (hf : f ∈ Final.lettered) :
    ofText? (i.text ++ f.text) = some ⟨i, f, false⟩ := by
  have hall : ∀ f ∈ Final.lettered, finalOf? f.text = some (f, false) := by decide +kernel
  exact ofText?_append_of_finalOf? i (hall f hf)

end Spelling

/-! ## No fuzzy rules -/

theorem Initial.partners_empty (i : Initial) : i.partners FuzzySet.empty = [i] := by
  simp [partners, partnersIn, FuzzySet.empty]

theorem Final.partners_empty (f : Final) : f.partners FuzzySet.empty = [f] := by
  simp [partners, partnersIn, FuzzySet.empty]

/-- A spelling stands for its own initial and final only. -/
theorem Spelling.readings_empty (sp : Spelling) :
    sp.readings FuzzySet.empty
      = if sp.swapped = false ∧ Syllable.IsFull ⟨sp.initial, sp.final⟩ then
          [⟨⟨sp.initial, sp.final⟩, false⟩]
        else [] := by
  obtain ⟨i, f, swapped⟩ := sp
  by_cases hfull : Syllable.IsFull ⟨i, f⟩ <;> cases swapped <;>
    simp [readings, candidates, Initial.partners_empty, Final.partners_empty, hfull, exactFirst,
      FuzzySet.empty]

theorem mem_fullReadings_empty {cs : List Char} {r : Reading}
    (h : r ∈ fullReadings FuzzySet.empty cs) :
    r.fuzzy = false ∧ r.syllable.IsFull ∧ r.syllable.text = cs := by
  unfold fullReadings at h
  cases hsp : Spelling.ofText? cs with
  | none => simp [hsp] at h
  | some sp =>
      simp only [hsp, Spelling.readings_empty] at h
      split at h
      · next hfull =>
        rw [List.mem_singleton.1 h]
        refine ⟨rfl, hfull.2, ?_⟩
        rw [← Spelling.letters_of_ofText? hsp, Spelling.letters, hfull.1]
        rfl
      · cases h

theorem mem_bareReadings_empty {cs : List Char} {r : Reading}
    (h : r ∈ bareReadings FuzzySet.empty cs) :
    r.fuzzy = false ∧ r.syllable.IsBare ∧ r.syllable.text = cs := by
  unfold bareReadings at h
  cases hi : Initial.ofText? cs with
  | none => simp [hi] at h
  | some i =>
      simp only [hi, Initial.partners_empty, List.map_singleton, List.mem_singleton] at h
      have htext := Initial.text_eq_of_ofText? hi
      have hne : i ≠ .zero := by
        rintro rfl
        rw [← htext] at hi
        cases hi
      rw [h]
      exact ⟨by simp, ⟨hne, rfl⟩, (List.append_nil _).trans htext⟩

/-- **Without fuzzy rules a syllable is read only where its own text stands.** -/
theorem mem_readings_empty {cs : List Char} {r : Reading} (h : r ∈ readings FuzzySet.empty cs) :
    r.fuzzy = false ∧ r.syllable.IsKnown ∧ r.syllable.text = cs := by
  rcases mem_readings.1 h with h | h
  · obtain ⟨hfuzzy, hfull, htext⟩ := mem_fullReadings_empty h
    exact ⟨hfuzzy, .inl hfull, htext⟩
  · obtain ⟨hfuzzy, hbare, htext⟩ := mem_bareReadings_empty h
    exact ⟨hfuzzy, .inr hbare, htext⟩

/-! ## The text of a syllable -/

namespace Syllable

/-- The syllable that the text of a syllable is read as: "m" and "n" alone are interjections. -/
def asTyped (s : Syllable) : Syllable :=
  if s = ⟨.m, .bare⟩ then ⟨.m, .empty⟩ else if s = ⟨.n, .bare⟩ then ⟨.n, .empty⟩ else s

theorem IsFull.asTyped_eq {s : Syllable} (h : s.IsFull) : s.asTyped = s := by
  have hbare := h.final_ne_bare
  rw [asTyped, if_neg, if_neg]
  · rintro rfl
    exact hbare rfl
  · rintro rfl
    exact hbare rfl

theorem text_bare (i : Initial) : text ⟨i, .bare⟩ = i.text := List.append_nil i.text

theorem IsBare.exists_eq {s : Syllable} (h : s.IsBare) : ∃ i ≠ Initial.zero, s = ⟨i, .bare⟩ := by
  obtain ⟨i, f⟩ := s
  obtain ⟨hinitial, rfl : f = .bare⟩ := h
  exact ⟨i, hinitial, rfl⟩

/-- A syllable has letters. -/
theorem IsKnown.text_ne_nil {s : Syllable} (h : s.IsKnown) : s.text ≠ [] := by
  obtain ⟨i, f⟩ := s
  intro hnil
  obtain ⟨hinitial, hfinal⟩ := List.append_eq_nil_iff.1 hnil
  obtain rfl := Spelling.text_eq_nil_iff.1 hinitial
  revert h hfinal
  cases f <;> decide

theorem length_text_le (s : Syllable) : s.text.length ≤ 6 := by
  have hinitial : s.initial.text.length ≤ 2 := by cases s.initial <;> decide
  have hfinal : s.final.text.length ≤ 4 := by cases s.final <;> decide
  rw [text, List.length_append]
  omega

end Syllable

/-- A full syllable is spelled by its text. -/
theorem Spelling.ofText?_text {s : Syllable} (h : s.IsFull) :
    ofText? s.text = some ⟨s.initial, s.final, false⟩ := by
  by_cases hempty : s.final = .empty
  · obtain ⟨i, f⟩ := s
    obtain rfl : f = .empty := hempty
    revert h
    cases i <;> decide
  · exact ofText?_append s.initial (Final.mem_lettered h.final_ne_bare hempty)

/-- A full syllable is read from its text. -/
theorem fullReadings_text {s : Syllable} (h : s.IsFull) :
    fullReadings FuzzySet.empty s.text = [⟨s, false⟩] := by
  rw [fullReadings, Spelling.ofText?_text h]
  exact (Spelling.readings_empty _).trans (if_pos ⟨rfl, h⟩)

/-- An initial alone is read as itself, but "m" and "n" as the interjections first. -/
theorem head?_readings_bare {i : Initial} (h : i ≠ .zero) :
    (readings FuzzySet.empty i.text).head? = some ⟨Syllable.asTyped ⟨i, .bare⟩, false⟩ := by
  cases i <;> first | exact absurd rfl h | decide +kernel

/-- **The text of a syllable is read as it first**, "m" and "n" alone as the interjections. -/
theorem head?_readings_text {s : Syllable} (h : s.IsKnown) :
    (readings FuzzySet.empty s.text).head? = some ⟨s.asTyped, false⟩ := by
  rcases h with hfull | hbare
  · rw [readings, fullReadings_text hfull, hfull.asTyped_eq]
    rfl
  · obtain ⟨i, hi, rfl⟩ := hbare.exists_eq
    rw [Syllable.text_bare, head?_readings_bare hi]

/-! ## Any fuzzy rules -/

namespace Syllable

/-- What a syllable is read as has its text. -/
theorem text_asTyped (s : Syllable) : s.asTyped.text = s.text := by
  unfold asTyped
  split
  · next h => rw [h]; rfl
  · split
    · next h => rw [h]; rfl
    · rfl

/-- A syllable that is not read as a full one is read as itself. -/
theorem asTyped_eq_of_not_isFull {s : Syllable} (h : ¬ s.asTyped.IsFull) : s.asTyped = s := by
  unfold asTyped at h ⊢
  split at h
  · exact absurd (by decide) h
  · split at h
    · exact absurd (by decide) h
    · next hm hn => rw [if_neg hm, if_neg hn]

end Syllable

theorem mem_fullReadings_text {s : Syllable} (h : s.IsFull) (fz : FuzzySet) :
    ⟨s, false⟩ ∈ fullReadings fz s.text := by
  have hcandidate : ⟨s, false⟩ ∈ (⟨s.initial, s.final, false⟩ : Spelling).candidates fz := by
    refine List.mem_flatMap.2 ⟨s.initial, mem_partnersIn_self _ fz _, ?_⟩
    exact List.mem_filterMap.2 ⟨s.final, mem_partnersIn_self _ fz _, by simp [h]⟩
  simpa [fullReadings, Spelling.ofText?_text h, Spelling.readings, mem_exactFirst] using hcandidate

theorem mem_bareReadings_text {i : Initial} (h : i ≠ .zero) (fz : FuzzySet) :
    ⟨⟨i, .bare⟩, false⟩ ∈ bareReadings fz i.text := by
  rw [bareReadings, Initial.ofText?_text h]
  exact List.mem_map.2 ⟨i, mem_partnersIn_self _ fz i, by simp⟩

/-- **Whatever rules are on, the text of a syllable is read as it** exactly, and "m" and "n" alone as
the interjections. -/
theorem mem_readings_text {s : Syllable} (h : s.IsKnown) (fz : FuzzySet) :
    ⟨s.asTyped, false⟩ ∈ readings fz s.text := by
  rw [mem_readings]
  by_cases hfull : s.asTyped.IsFull
  · left
    rw [← s.text_asTyped]
    exact mem_fullReadings_text hfull fz
  · right
    have hsame := Syllable.asTyped_eq_of_not_isFull hfull
    obtain ⟨i, hi, rfl⟩ := (h.resolve_left (hsame ▸ hfull)).exists_eq
    rw [hsame, Syllable.text_bare]
    exact mem_bareReadings_text hi fz

end Pinyin
