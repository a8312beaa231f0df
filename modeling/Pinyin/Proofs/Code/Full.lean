import Pinyin.Proofs.Code.Stable

/-!
# Pinyin.Proofs.Code.Full

Full syllables that are parted by separators, and their codes.

* `pieces_joinPieces`, `joinPieces_pieces` — texts are joined and parted at the separators;
* `fullSyllableOf_eq_ok_iff` — a piece is a full syllable if it has its text;
* `encodeFull_eq_ok_iff` — encoded are the joined texts of full syllables, and only these;
* `encodeFull_decodeFull` — encoding and decoding are inverse to each other.
-/

namespace Pinyin

/-! ## Pieces -/

/-- The pieces of a text are what is left of it between the separators. -/
theorem pieces_eq_splitOn (text : List Char) : pieces text = text.splitOn separator := by
  induction text with
  | nil => rfl
  | cons c rest ih =>
      have hsplit : (c :: rest).splitOn separator
          = if c = separator then [] :: rest.splitOn separator
            else (rest.splitOn separator).modifyHead (List.cons c) := by
        simp [List.splitOn, List.splitOnP_cons_eq_if_modifyHead]
      rw [pieces, hsplit, ← ih]
      cases hrest : pieces rest with
      | nil => exact (pieces_ne_nil rest hrest).elim
      | cons front others => rfl

/-- The pieces of a text, joined again, are the text. -/
theorem joinPieces_pieces (text : List Char) : joinPieces (pieces text) = text := by
  rw [joinPieces, pieces_eq_splitOn, List.intercalate_splitOn]

/-- Texts without separators, joined by them, have these texts as their pieces. -/
theorem pieces_joinPieces {parts : List (List Char)} (hne : parts ≠ [])
    (hparts : ∀ part ∈ parts, separator ∉ part) : pieces (joinPieces parts) = parts := by
  rw [joinPieces, pieces_eq_splitOn, List.splitOn_intercalate separator hparts hne]

/-! ## Full syllables -/

/-- A piece is a full syllable if it is the text of one. -/
theorem fullSyllableOf_eq_ok_iff {part : List Char} {s : Syllable} :
    fullSyllableOf part = .ok s ↔ s.IsFull ∧ s.text = part := by
  unfold fullSyllableOf
  constructor
  · intro h
    split at h
    · next r hr =>
      cases h
      obtain ⟨-, hfull, htext⟩ := mem_fullReadings_empty (List.mem_of_find?_eq_some hr)
      exact ⟨hfull, htext⟩
    · cases h
  · rintro ⟨hfull, rfl⟩
    rw [fullReadings_text hfull]
    rfl

/-- A text has full syllables if it joins their texts. -/
theorem fullSyllablesOf_eq_ok_iff {text : List Char} {ss : List Syllable} :
    fullSyllablesOf text = .ok ss ↔
      ss ≠ [] ∧ (∀ s ∈ ss, s.IsFull) ∧ joinPieces (ss.map Syllable.text) = text := by
  rw [fullSyllablesOf, mapM_eq_ok_iff fun _ _ => fullSyllableOf_eq_ok_iff]
  constructor
  · rintro ⟨hfull, htexts⟩
    have hne : ss ≠ [] := by
      rintro rfl
      exact pieces_ne_nil text htexts.symm
    exact ⟨hne, hfull, by rw [htexts, joinPieces_pieces]⟩
  · rintro ⟨hne, hfull, rfl⟩
    refine ⟨hfull, (pieces_joinPieces (by simpa using hne) ?_).symm⟩
    rw [List.forall_mem_map]
    exact fun s _ => s.separator_notMem_text

/-- **Encoded are the joined texts of full syllables**, to the codes of these. -/
theorem encodeFull_eq_ok_iff {text : List Char} {code : Code} :
    encodeFull text = .ok code ↔
      ∃ ss : List Syllable, ss ≠ [] ∧ (∀ s ∈ ss, s.IsFull) ∧
        joinPieces (ss.map Syllable.text) = text ∧ codeOf ss = code := by
  have hencode : encodeFull text = .ok code ↔
      ∃ ss, fullSyllablesOf text = .ok ss ∧ codeOf ss = code := by
    rw [encodeFull]
    cases fullSyllablesOf text <;> simp [bind, Except.bind, pure, Except.pure]
  simp only [hencode, fullSyllablesOf_eq_ok_iff, and_assoc]

/-! ## Both ways -/

/-- A code made of the codes of full syllables, at least one. -/
def IsFullCode (code : Code) : Prop :=
  ∃ ss : List Syllable, ss ≠ [] ∧ (∀ s ∈ ss, s.IsFull) ∧ codeOf ss = code

/-- **Full pinyin and its codes are the same.**  A text that can be encoded is decoded from its
code, which is made of full syllables; a code made of full syllables can be decoded, and is encoded
from its text.  The texts are those of full syllables, joined by single separators. -/
theorem encodeFull_decodeFull :
    (∀ text code, encodeFull text = .ok code → IsFullCode code ∧ decodeFull code = .ok text) ∧
    (∀ code, IsFullCode code → ∃ text, decodeFull code = .ok text ∧ encodeFull text = .ok code) ∧
    ∀ text, (∃ code, encodeFull text = .ok code) ↔
      ∃ ss : List Syllable, ss ≠ [] ∧ (∀ s ∈ ss, s.IsFull) ∧
        joinPieces (ss.map Syllable.text) = text := by
  have hdecode : ∀ ss : List Syllable, (∀ s ∈ ss, s.IsFull) →
      decodeFull (codeOf ss) = .ok (joinPieces (ss.map Syllable.text)) := fun ss hfull =>
    decodeFull_eq_ok_iff.2 ⟨ss, fun s hs => .inl (hfull s hs), rfl, rfl⟩
  refine ⟨?_, ?_, fun text => ?_⟩
  · intro text code h
    obtain ⟨ss, hne, hfull, rfl, rfl⟩ := encodeFull_eq_ok_iff.1 h
    exact ⟨⟨ss, hne, hfull, rfl⟩, hdecode ss hfull⟩
  · rintro code ⟨ss, hne, hfull, rfl⟩
    exact ⟨_, hdecode ss hfull, encodeFull_eq_ok_iff.2 ⟨ss, hne, hfull, rfl, rfl⟩⟩
  · simp only [encodeFull_eq_ok_iff]
    exact ⟨fun ⟨_, ss, hne, hfull, htext, _⟩ => ⟨ss, hne, hfull, htext⟩,
      fun ⟨ss, hne, hfull, htext⟩ => ⟨_, ss, hne, hfull, htext, rfl⟩⟩

/-- An interjection, a syllable without initial, and one that is typed with a "v". -/
theorem encodeFull_decodeFull_sample :
    encodeFull "n'ang'nve".toList = .ok [8, 1, 1, 11, 8, 34] ∧
    IsFullCode [8, 1, 1, 11, 8, 34] ∧ decodeFull [8, 1, 1, 11, 8, 34] = .ok "n'ang'nve".toList ∧
    IsFullCode [1, 36] ∧ ∃ text, decodeFull [1, 36] = .ok text ∧ encodeFull text = .ok [1, 36] := by
  obtain ⟨hencoded, hdecoded, -⟩ := encodeFull_decodeFull
  have hcode : encodeFull "n'ang'nve".toList = .ok [8, 1, 1, 11, 8, 34] :=
    encodeFull_eq_ok_iff.2
      ⟨[⟨.n, .empty⟩, ⟨.zero, .ang⟩, ⟨.n, .ve⟩], by decide, by decide, by decide, rfl⟩
  have hng : IsFullCode [1, 36] := ⟨[⟨.zero, .ng⟩], by decide, by decide, rfl⟩
  obtain ⟨hfull, htext⟩ := hencoded _ _ hcode
  exact ⟨hcode, hfull, htext, hng, hdecoded _ hng⟩

end Pinyin
