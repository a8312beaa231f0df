import Pinyin.Proofs.Code.Typed

/-!
# Pinyin.Proofs.Code.Stable

Codes, and the texts that stand for them.

* `decodeFull_eq_ok_iff` — decoded are the codes of known syllables, and only these;
* `typedCode` — the code that the text of a code is read as;
* `CutGraph.preferredPieces` — the pieces between the preferred cuts, separators left out;
* `encodePinyin_decodeFull` — the text of a code has this code again, up to the interjections, and
  the code of a text has the pieces of this text.
-/

namespace Pinyin

/-! ## Decoded codes -/

theorem Syllable.decode_eq_ok_iff {code : Code} {s : Syllable} :
    Syllable.decode code = .ok s ↔ s.IsKnown ∧ s.code = code := by
  constructor
  · intro h
    unfold Syllable.decode at h
    split at h
    · next a b =>
      split at h
      · next i f hi hf =>
        split at h
        · next hknown =>
          cases h
          have hinitial := Initial.number_eq_of_ofNumber? hi
          have hfinal := Final.number_eq_of_ofNumber? hf
          refine ⟨hknown, ?_⟩
          simp only [Syllable.code, hinitial, hfinal, UInt8.ofNat_toNat]
        · cases h
      · cases h
    · cases h
  · rintro ⟨hknown, rfl⟩
    exact Syllable.decode_code hknown

theorem bytePairs_codeOf (ss : List Syllable) : bytePairs (codeOf ss) = ss.map Syllable.code := by
  induction ss with
  | nil => rfl
  | cons s ss ih => exact congrArg (s.code :: ·) ih

theorem flatten_bytePairs {code : Code} (h : code.length % 2 = 0) :
    (bytePairs code).flatten = code := by
  induction code using bytePairs.induct with
  | case1 a b rest ih =>
      have hrest : rest.length % 2 = 0 := by
        simp only [List.length_cons] at h
        omega
      rw [bytePairs, List.flatten_cons, ih hrest]
      rfl
  | case2 code hshort =>
      match code with
      | [] => rfl
      | [a] => cases h
      | a :: b :: rest => exact (hshort a b rest rfl).elim

/-- Pieces of code are decoded together where each of them is. -/
theorem mapM_decode_eq_ok_iff {codes : List Code} {ss : List Syllable} :
    codes.mapM Syllable.decode = .ok ss ↔
      (∀ s ∈ ss, s.IsKnown) ∧ ss.map Syllable.code = codes :=
  mapM_eq_ok_iff fun _ _ => Syllable.decode_eq_ok_iff

/-- **Decoded are the codes of known syllables**, to the texts of these. -/
theorem decodeFull_eq_ok_iff {code : Code} {text : List Char} :
    decodeFull code = .ok text ↔
      ∃ ss : List Syllable, (∀ s ∈ ss, s.IsKnown) ∧ codeOf ss = code ∧
        joinPieces (ss.map Syllable.text) = text := by
  constructor
  · intro h
    unfold decodeFull at h
    split at h
    · cases h
    · next heven =>
      cases hss : (bytePairs code).mapM Syllable.decode with
      | error e =>
          rw [hss] at h
          cases h
      | ok ss =>
          rw [hss] at h
          cases h
          obtain ⟨hall, hcodes⟩ := mapM_decode_eq_ok_iff.1 hss
          refine ⟨ss, hall, ?_, rfl⟩
          rw [← flatten_bytePairs (Decidable.not_not.1 heven), ← hcodes, codeOf, List.flatMap_def]
  · rintro ⟨ss, hall, rfl, rfl⟩
    have heven : ¬ (codeOf ss).length % 2 ≠ 0 := by
      rw [length_codeOf]
      omega
    have hdecoded : (bytePairs (codeOf ss)).mapM Syllable.decode = .ok ss :=
      mapM_decode_eq_ok_iff.2 ⟨hall, (bytePairs_codeOf ss).symm⟩
    rw [decodeFull, if_neg heven, hdecoded]
    rfl

/-! ## The code of a text of a code -/

/-- The code that the text of a code is read as: a final byte 0 behind the initials "m" and "n"
becomes 1, the other bytes stay. -/
def typedCode : Code → Code
  | a :: b :: rest =>
    a :: (if b = 0 ∧ (a.toNat = Initial.m.number ∨ a.toNat = Initial.n.number) then 1 else b) ::
      typedCode rest
  | rest => rest

theorem typedCode_code (s : Syllable) (rest : Code) :
    typedCode (s.code ++ rest) = s.asTyped.code ++ typedCode rest := by
  obtain ⟨i, f⟩ := s
  have hbyte : UInt8.ofNat f.number = 0 ↔ f = .bare := by cases f <;> decide
  have hinitial : (UInt8.ofNat i.number).toNat = i.number :=
    UInt8.toNat_ofNat_of_lt' (Initial.number_lt i)
  have hnumbers : ∀ other : Initial, i.number = other.number ↔ i = other :=
    fun _ => ⟨Initial.number_injective, congrArg Initial.number⟩
  simp only [Syllable.code, List.cons_append, List.nil_append, typedCode, hbyte, hinitial, hnumbers,
    Syllable.asTyped, Syllable.mk.injEq]
  by_cases hf : f = .bare
  · by_cases hm : i = .m
    · simp [hf, hm, Final.number]
    · by_cases hn : i = .n <;> simp [hf, hm, hn, Final.number]
  · simp [hf]

theorem typedCode_codeOf (ss : List Syllable) :
    typedCode (codeOf ss) = codeOf (ss.map Syllable.asTyped) := by
  induction ss with
  | nil => rfl
  | cons s ss ih =>
      have hcons : codeOf (s :: ss) = s.code ++ codeOf ss := rfl
      rw [hcons, typedCode_code, ih]
      rfl

/-! ## The text of a code of a text -/

namespace CutGraph

/-- The pieces between the preferred cuts, in their order and without the separators. -/
def preferredPieces (g : CutGraph) : List (List Char) :=
  ((g.preferredFrom 0).filter fun edge => ¬ g.IsSeparator edge.1).map
    fun edge => g.piece edge.1 edge.2.stop

/-- An edge of the graph of a text that is no separator has the readings of its piece. -/
theorem readings_of_mem_edgesAt {opts : ReadingOptions} {text : List Char} {p : Nat} {e : Edge}
    (he : e ∈ (ofPinyin opts text).edgesAt p) (hsep : ¬ (ofPinyin opts text).IsSeparator p) :
    e.readings = Pinyin.readings opts.fuzzy ((ofPinyin opts text).piece p e.stop) := by
  rw [edgesAt_ofPinyin] at he
  obtain ⟨stop, -, rfl⟩ := List.mem_map.1 he
  rw [IsSeparator, text_ofPinyin] at hsep
  rw [labelOf, if_neg hsep, piece, text_ofPinyin]

/-- An edge that can be read and is no separator comes to one syllable, and the piece of the edge is
the text of this syllable. -/
theorem preferredSyllable_of_readable {text : List Char} {g : CutGraph}
    (hg : ofPinyin .plain text = g) {edge : Nat × Edge} (he : edge.2 ∈ g.edgesAt edge.1)
    (hread : ¬ g.IsUnreadable edge) (hsep : ¬ g.IsSeparator edge.1) :
    ∃ s : Syllable, s.IsKnown ∧ s.asTyped = s ∧ g.preferredSyllable edge = [s] ∧
      s.text = g.piece edge.1 edge.2.stop := by
  subst hg
  have hreadings : edge.2.readings = Pinyin.readings FuzzySet.empty _ :=
    readings_of_mem_edgesAt he hsep
  cases hfound : edge.2.readings with
  | nil => exact (hread ⟨hsep, hfound⟩).elim
  | cons r others =>
      rw [hfound] at hreadings
      obtain ⟨-, hknown, htext⟩ := mem_readings_empty (hreadings ▸ List.mem_cons_self)
      have hhead := head?_readings_text hknown
      rw [htext, ← hreadings, List.head?_cons, Option.some.injEq] at hhead
      refine ⟨r.syllable, hknown, (congrArg Reading.syllable hhead).symm, ?_, htext⟩
      rw [preferredSyllable, if_neg hsep, hfound]
      rfl

/-- Along edges that can be read, the syllables have the pieces as their texts. -/
theorem map_text_preferredSyllable {text : List Char} {g : CutGraph}
    (hg : ofPinyin .plain text = g) {way : List (Nat × Edge)}
    (hedges : ∀ edge ∈ way, edge.2 ∈ g.edgesAt edge.1)
    (hread : ∀ edge ∈ way, ¬ g.IsUnreadable edge) :
    (∀ s ∈ way.flatMap g.preferredSyllable, s.IsKnown ∧ s.asTyped = s) ∧
      (way.flatMap g.preferredSyllable).map Syllable.text
        = (way.filter fun edge => ¬ g.IsSeparator edge.1).map
            fun edge => g.piece edge.1 edge.2.stop := by
  induction way with
  | nil => simp
  | cons edge way ih =>
      obtain ⟨he, hedges⟩ := List.forall_mem_cons.1 hedges
      obtain ⟨hr, hread⟩ := List.forall_mem_cons.1 hread
      obtain ⟨hknown, htexts⟩ := ih hedges hread
      rw [List.flatMap_cons]
      by_cases hsep : g.IsSeparator edge.1
      · have hnone : g.preferredSyllable edge = [] := if_pos hsep
        rw [hnone, List.nil_append, List.filter_cons_of_neg (by simpa using hsep)]
        exact ⟨hknown, htexts⟩
      · obtain ⟨s, hs, htyped, hone, htext⟩ := preferredSyllable_of_readable hg he hr hsep
        rw [hone, List.singleton_append, List.filter_cons_of_pos (by simpa using hsep),
          List.map_cons, List.map_cons, htext, htexts]
        exact ⟨List.forall_mem_cons.2 ⟨⟨hs, htyped⟩, hknown⟩, rfl⟩

/-- The syllables of a text have the pieces between its preferred cuts as their texts, and these
texts are read as them. -/
theorem map_text_of_syllablesOf {text : List Char} {ss : List Syllable}
    (h : syllablesOf text = .ok ss) :
    (∀ s ∈ ss, s.IsKnown ∧ s.asTyped = s) ∧
      ss.map Syllable.text = (ofPinyin .plain text).preferredPieces := by
  obtain ⟨hread, rfl⟩ := (syllablesOf_eq_ok_iff rfl).1 h
  exact map_text_preferredSyllable rfl (fun _ => mem_edgesAt_of_mem_preferredFrom) hread

end CutGraph

theorem encodePinyin_eq_ok_iff {text : List Char} {code : Code} :
    encodePinyin text = .ok code ↔ ∃ ss, syllablesOf text = .ok ss ∧ codeOf ss = code := by
  rw [encodePinyin]
  cases syllablesOf text <;> simp [bind, Except.bind, pure, Except.pure]

/-! ## Both ways -/

/-- **Typed text and codes.**  The text that a code is decoded to can be encoded, and has this code
again, where "m" and "n" alone come back as the interjections.  The code of a typed text is decoded
to the pieces between the preferred cuts of the text, joined by single separators, and this text
has the same code again. -/
theorem encodePinyin_decodeFull :
    (∀ code text, decodeFull code = .ok text → encodePinyin text = .ok (typedCode code)) ∧
    ∀ text code, encodePinyin text = .ok code →
      let joined := joinPieces (CutGraph.ofPinyin .plain text).preferredPieces
      decodeFull code = .ok joined ∧ encodePinyin joined = .ok code := by
  constructor
  · intro code text h
    obtain ⟨ss, hknown, rfl, rfl⟩ := decodeFull_eq_ok_iff.1 h
    exact encodePinyin_eq_ok_iff.2
      ⟨ss.map Syllable.asTyped, syllablesOf_joinPieces hknown, (typedCode_codeOf ss).symm⟩
  · intro text code h
    obtain ⟨ss, hss, rfl⟩ := encodePinyin_eq_ok_iff.1 h
    obtain ⟨hall, htexts⟩ := CutGraph.map_text_of_syllablesOf hss
    have hknown : ∀ s ∈ ss, s.IsKnown := fun s hs => (hall s hs).1
    have htyped : ss.map Syllable.asTyped = ss := by
      rw [List.map_congr_left fun s hs => (hall s hs).2, List.map_id']
    rw [← htexts]
    refine ⟨decodeFull_eq_ok_iff.2 ⟨ss, hknown, rfl, rfl⟩, encodePinyin_eq_ok_iff.2 ?_⟩
    exact ⟨ss.map Syllable.asTyped, syllablesOf_joinPieces hknown, by rw [htyped]⟩

/-- The codes of the bare "m" and "n" and of "ng"; and a text with separators in front, of which
two syllables are cut off without one. -/
theorem encodePinyin_decodeFull_sample :
    encodePinyin "m'n'ng".toList = .ok [4, 1, 8, 1, 1, 36] ∧
    decodeFull [5, 11, 1, 9, 4, 1] = .ok "fang'an'm".toList ∧
    encodePinyin "fang'an'm".toList = .ok [5, 11, 1, 9, 4, 1] := by
  obtain ⟨hcode, htext⟩ := encodePinyin_decodeFull
  have hjoined : joinPieces (CutGraph.ofPinyin .plain "''fangan'm".toList).preferredPieces
      = "fang'an'm".toList := by decide +kernel
  have hencoded : encodePinyin "''fangan'm".toList = .ok [5, 11, 1, 9, 4, 1] :=
    encodePinyin_eq_ok_iff.2 ⟨[⟨.f, .ang⟩, ⟨.zero, .an⟩, ⟨.m, .empty⟩],
      (syllablesOf_eq_ok_iff rfl).2 (by decide +kernel), rfl⟩
  rw [← hjoined]
  exact ⟨hcode [4, 0, 8, 0, 1, 36] _ rfl, htext _ _ hencoded⟩

end Pinyin
