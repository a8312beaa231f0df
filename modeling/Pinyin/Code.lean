import Pinyin.Segmentation

/-!
# Pinyin.Code

Syllable codes: two bytes for a syllable, the numbers of its initial and its
final.

* `Syllable.code`, `Syllable.encode`, `Syllable.decode` — one syllable;
* `syllablesOf`, `encodePinyin` — typed text along its preferred cuts, separators
  left out;
* `fullSyllablesOf`, `encodeFull` — full syllables parted by separators;
* `decodeFull` — the text of a sequence of codes, in that form.
-/

namespace Pinyin

/-- A sequence of syllable codes, or one of them. -/
abbrev Code := List UInt8

/-! ## One syllable -/

/-- The initial with a given number. -/
def Initial.ofNumber (n : Int) : Except Error Initial :=
  match Initial.ofNumber? n.toNat with
  | some i => if 0 ≤ n then .ok i else .error .noSuchNumber
  | none => .error .noSuchNumber

/-- The final with a given number. -/
def Final.ofNumber (n : Int) : Except Error Final :=
  match Final.ofNumber? n.toNat with
  | some f => if 0 ≤ n then .ok f else .error .noSuchNumber
  | none => .error .noSuchNumber

namespace Syllable

/-- The pair of an initial and a final that are given by number. -/
def ofNumbers (initial final : Int) : Except Error Syllable := do
  let i ← Initial.ofNumber initial
  let f ← Final.ofNumber final
  pure ⟨i, f⟩

/-- The numbers of the initial and of the final. -/
def code (s : Syllable) : Code :=
  [UInt8.ofNat s.initial.number, UInt8.ofNat s.final.number]

/-- The code of a known syllable; other pairs have none. -/
def encode (s : Syllable) : Except Error Code :=
  if s.IsKnown then .ok s.code else .error .unknownSyllable

/-- The known syllable that a code of two bytes names. -/
def decode : Code → Except Error Syllable
  | [a, b] =>
    match Initial.ofNumber? a.toNat, Final.ofNumber? b.toNat with
    | some i, some f =>
      if IsKnown ⟨i, f⟩ then .ok ⟨i, f⟩ else .error (.codeUnassigned [a, b])
    | _, _ => .error (.codeOutOfRange [a, b])
  | code => .error (.codeLength code.length)

theorem length_code (s : Syllable) : s.code.length = 2 := rfl

/-- Codes tell syllables apart. -/
theorem code_injective {s t : Syllable} (h : s.code = t.code) : s = t := by
  simp only [code, List.cons.injEq, and_true] at h
  have hi := congrArg UInt8.toNat h.1
  have hf := congrArg UInt8.toNat h.2
  rw [UInt8.toNat_ofNat_of_lt' (Initial.number_lt _),
    UInt8.toNat_ofNat_of_lt' (Initial.number_lt _)] at hi
  rw [UInt8.toNat_ofNat_of_lt' (Final.number_lt _),
    UInt8.toNat_ofNat_of_lt' (Final.number_lt _)] at hf
  obtain ⟨i, f⟩ := s
  obtain ⟨i', f'⟩ := t
  rw [Syllable.mk.injEq]
  exact ⟨Initial.number_injective hi, Final.number_injective hf⟩

/-- A known syllable is read back from its code. -/
theorem decode_code {s : Syllable} (h : s.IsKnown) : decode s.code = .ok s := by
  simp only [decode, code]
  rw [UInt8.toNat_ofNat_of_lt' (Initial.number_lt _),
    UInt8.toNat_ofNat_of_lt' (Final.number_lt _)]
  simp [Initial.ofNumber?_number, Final.ofNumber?_number, h]

end Syllable

/-- The codes of some syllables, one after the other. -/
def codeOf (syllables : List Syllable) : Code := syllables.flatMap Syllable.code

theorem length_codeOf (syllables : List Syllable) :
    (codeOf syllables).length = 2 * syllables.length := by
  induction syllables with
  | nil => rfl
  | cons s rest ih =>
    simp only [codeOf, List.flatMap_cons, List.length_append, Syllable.length_code] at ih ⊢
    rw [ih, List.length_cons]
    omega

/-! ## Typed text -/

namespace CutGraph

/-- The first edges out of the positions that they lead to, from a position on,
each with its start. -/
def preferredFrom (g : CutGraph) (p : Nat) : List (Nat × Edge) :=
  match (g.edgesAt p).attach with
  | [] => []
  | e :: _ => (p, e.val) :: g.preferredFrom e.val.stop
termination_by g.size - p
decreasing_by
  have := lt_stop e.property
  have := stop_le_size e.property
  omega

/-- The syllable of an edge: that of its first reading, and none for separators. -/
def edgeSyllables (g : CutGraph) (p : Nat) (e : Edge) : Except Error (List Syllable) :=
  if g.IsSeparator p then .ok []
  else
    match e.readings with
    | [] => .error (.unreadable (g.piece p e.stop) g.text)
    | r :: _ => .ok [r.syllable]

end CutGraph

/-- The position that a list of edges arrives at; the start if there is none. -/
def arrival (way : List (Nat × Edge)) : Nat :=
  match way.getLast? with
  | none => 0
  | some (_, e) => e.stop

/-- The syllables of typed text along its preferred cuts. -/
def syllablesOf (text : List Char) : Except Error (List Syllable) := do
  let g := CutGraph.ofPinyin .plain text
  let way := g.preferredFrom 0
  let found ← way.mapM fun (p, e) => g.edgeSyllables p e
  if arrival way = g.size then pure found.flatten else throw (.uncovered text)

/-- The code of typed text along its preferred cuts. -/
def encodePinyin (text : List Char) : Except Error Code := do
  pure (codeOf (← syllablesOf text))

/-! ## Full syllables -/

/-- The pieces of a text between its separators, empty ones included. -/
def pieces : List Char → List (List Char)
  | [] => [[]]
  | c :: rest =>
    if c = separator then [] :: pieces rest
    else
      match pieces rest with
      | [] => [[c]]
      | front :: others => (c :: front) :: others

/-- The pieces of a text, joined by separators. -/
def joinPieces (parts : List (List Char)) : List Char := [separator].intercalate parts

theorem pieces_ne_nil (text : List Char) : pieces text ≠ [] := by
  cases text with
  | nil => simp [pieces]
  | cons c rest =>
    unfold pieces
    split
    · simp
    · split <;> simp

/-- The full syllable that a piece spells exactly. -/
def fullSyllableOf (part : List Char) : Except Error Syllable :=
  match (fullReadings FuzzySet.empty part).find? fun r => !r.fuzzy with
  | some r => .ok r.syllable
  | none => .error (.notFullSyllable part)

/-- The full syllables of a text that parts them by separators. -/
def fullSyllablesOf (text : List Char) : Except Error (List Syllable) :=
  (pieces text).mapM fullSyllableOf

/-- The code of full syllables parted by separators. -/
def encodeFull (text : List Char) : Except Error Code := do
  pure (codeOf (← fullSyllablesOf text))

/-- A code sequence cut into codes of two bytes. -/
def bytePairs : Code → List Code
  | a :: b :: rest => [a, b] :: bytePairs rest
  | _ => []

/-- The text of a code sequence: its syllables parted by separators. -/
def decodeFull (code : Code) : Except Error (List Char) := do
  if code.length % 2 ≠ 0 then throw (.oddCode code.length)
  let syllables ← (bytePairs code).mapM Syllable.decode
  pure (joinPieces (syllables.map Syllable.text))

end Pinyin
