import Pinyin.CutGraph.Basic

/-!
# Pinyin.Proofs.Reading.Spelling

The letters that a reading comes from.

* `Spelling.letters` — the letters of a spelling, `letters_of_ofText?` — a text is read by the
  letters that it has;
* `separator_notMem_of_isReadable`, `separator_notMem_of_ofText?` — what can be read holds no
  separator.
-/

namespace Pinyin

/-! ## Letters -/

theorem Initial.separator_notMem_text (i : Initial) : separator ∉ i.text := by
  cases i <;> decide

theorem Final.separator_notMem_text (f : Final) : separator ∉ f.text := by
  cases f <;> decide

theorem Final.separator_notMem_swappedText? (f : Final) :
    ∀ cs ∈ f.swappedText?, separator ∉ cs := by
  cases f <;> decide

theorem Syllable.separator_notMem_text (s : Syllable) : separator ∉ s.text := by
  rw [text, List.mem_append, not_or]
  exact ⟨s.initial.separator_notMem_text, s.final.separator_notMem_text⟩

namespace Spelling

/-- The letters of a final, a closing "ng" as it was typed. -/
def finalLetters (f : Final) (swapped : Bool) : List Char :=
  if swapped then f.swappedText?.getD [] else f.text

/-- The letters that a spelling is typed with. -/
def letters (sp : Spelling) : List Char := sp.initial.text ++ finalLetters sp.final sp.swapped

theorem separator_notMem_letters (sp : Spelling) : separator ∉ sp.letters := by
  rw [letters, List.mem_append, not_or]
  refine ⟨sp.initial.separator_notMem_text, ?_⟩
  unfold finalLetters
  split
  · cases htext : sp.final.swappedText? with
    | none => exact List.not_mem_nil
    | some cs => exact sp.final.separator_notMem_swappedText? cs htext
  · exact sp.final.separator_notMem_text

theorem finalLetters_of_finalOf? {cs : List Char} {f : Final} {swapped : Bool}
    (h : finalOf? cs = some (f, swapped)) : finalLetters f swapped = cs := by
  obtain ⟨f', -, hf'⟩ := List.exists_of_findSome?_eq_some h
  split at hf'
  · next htext =>
    cases hf'
    exact htext
  · split at hf'
    · next htext =>
      cases hf'
      simp [finalLetters, htext]
    · cases hf'

/-- A text has the letters of its spelling. -/
theorem letters_of_ofText? {cs : List Char} {sp : Spelling} (h : ofText? cs = some sp) :
    sp.letters = cs := by
  unfold ofText? at h
  split at h
  · next htext =>
    cases h
    rw [htext]
    rfl
  · split at h
    · next htext =>
      cases h
      rw [htext]
      rfl
    · obtain ⟨i, -, hi⟩ := List.exists_of_findSome?_eq_some h
      obtain ⟨rest, hrest, hi⟩ := Option.bind_eq_some_iff.1 hi
      obtain ⟨⟨f, swapped⟩, hf, hi⟩ := Option.bind_eq_some_iff.1 hi
      cases hi
      rw [letters, finalLetters_of_finalOf? hf, stripLetters?_eq_some_iff.1 hrest]

end Spelling

/-! ## Separators -/

/-- What can be read holds no separator. -/
theorem separator_notMem_of_isReadable {fz : FuzzySet} {cs : List Char} (h : IsReadable fz cs) :
    separator ∉ cs := by
  unfold IsReadable fullReadings at h
  cases hsp : Spelling.ofText? cs with
  | none => simp [hsp] at h
  | some sp =>
      rw [← Spelling.letters_of_ofText? hsp]
      exact sp.separator_notMem_letters

/-- An initial holds no separator. -/
theorem separator_notMem_of_ofText? {cs : List Char} (h : (Initial.ofText? cs).isSome) :
    separator ∉ cs := by
  obtain ⟨i, hi⟩ := Option.isSome_iff_exists.1 h
  rw [← Initial.text_eq_of_ofText? hi]
  exact i.separator_notMem_text

end Pinyin
