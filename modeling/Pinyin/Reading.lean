import Pinyin.Fuzzy

/-!
# Pinyin.Reading

How a piece of typed text is read as a syllable.

* `Spelling` — the initial and final that the letters of a text name;
* `fullReadings` — the full syllables a text stands for;
* `readings` — these, and the bare initials it stands for;
* `IsReadable` — the text stands for at least one full syllable.

Readings that spell their syllable exactly come before those that need a
fuzzy rule; within the two groups the order is that of the partner tables.
-/

namespace Pinyin

/-- A syllable that a text may stand for, and whether a fuzzy rule was needed. -/
structure Reading where
  syllable : Syllable
  fuzzy : Bool
  deriving DecidableEq, Repr

/-- The letters of a text, cut into an initial and a final.  The pair need not
be a syllable: "cuang" is none, but may be read as "chuang".  In a `swapped`
spelling the closing "ng" was typed as "gn". -/
structure Spelling where
  initial : Initial
  final : Final
  swapped : Bool
  deriving DecidableEq, Repr

/-- What is left of a text after the given letters, if it begins with them. -/
def stripLetters? : List Char → List Char → Option (List Char)
  | [], cs => some cs
  | _ :: _, [] => none
  | x :: xs, c :: cs => if x = c then stripLetters? xs cs else none

/-- Stripping gives the rest exactly when the text is the letters and the rest. -/
theorem stripLetters?_eq_some_iff {xs cs rest : List Char} :
    stripLetters? xs cs = some rest ↔ cs = xs ++ rest := by
  induction xs generalizing cs with
  | nil => simp [stripLetters?]
  | cons x xs ih =>
    cases cs with
    | nil => simp [stripLetters?]
    | cons c cs =>
      by_cases hx : x = c
      · simp [stripLetters?, hx, ih]
      · simp [stripLetters?, hx, Ne.symm hx]

namespace Spelling

/-- The final that some letters name, and whether "ng" is swapped in them. -/
def finalOf? (cs : List Char) : Option (Final × Bool) :=
  Final.lettered.findSome? fun f =>
    if f.text = cs then some (f, false)
    else if f.swappedText? = some cs then some (f, true)
    else none

/-- The spelling of a text.  "m" and "n" alone are the interjections; any other
spelling has a final with at least one letter. -/
def ofText? (cs : List Char) : Option Spelling :=
  if cs = Initial.m.text then some ⟨.m, .empty, false⟩
  else if cs = Initial.n.text then some ⟨.n, .empty, false⟩
  else Initial.all.findSome? fun i => do
    let (f, swapped) ← finalOf? (← stripLetters? i.text cs)
    pure ⟨i, f, swapped⟩

end Spelling

/-- The exact readings, then the fuzzy ones, each group in its order. -/
def exactFirst (rs : List Reading) : List Reading :=
  rs.filter (fun r => !r.fuzzy) ++ rs.filter (fun r => r.fuzzy)

theorem mem_exactFirst {rs : List Reading} {r : Reading} : r ∈ exactFirst rs ↔ r ∈ rs := by
  cases hf : r.fuzzy <;> simp [exactFirst, hf]

namespace Spelling

/-- The full syllables a spelling stands for, by initial and then by final. -/
def candidates (fz : FuzzySet) (sp : Spelling) : List Reading :=
  (sp.initial.partners fz).flatMap fun i =>
    (sp.final.partners fz).filterMap fun f =>
      if Syllable.IsFull ⟨i, f⟩ then
        some ⟨⟨i, f⟩, sp.swapped || i != sp.initial || f != sp.final⟩
      else none

/-- A swapped spelling counts only where the rule for it is on. -/
def readings (fz : FuzzySet) (sp : Spelling) : List Reading :=
  if sp.swapped && !fz .ngGn then [] else exactFirst (sp.candidates fz)

end Spelling

/-- The full syllables a text stands for, the exact one first. -/
def fullReadings (fz : FuzzySet) (cs : List Char) : List Reading :=
  match Spelling.ofText? cs with
  | none => []
  | some sp => sp.readings fz

/-- The bare initials a text stands for: the one it names and its partners. -/
def bareReadings (fz : FuzzySet) (cs : List Char) : List Reading :=
  match Initial.ofText? cs with
  | none => []
  | some i => (i.partners fz).map fun partner => ⟨⟨partner, .bare⟩, partner != i⟩

/-- All readings of a text: full syllables before bare initials, and exact
readings before fuzzy ones. -/
def readings (fz : FuzzySet) (cs : List Char) : List Reading :=
  exactFirst (fullReadings fz cs ++ bareReadings fz cs)

/-- The text stands for at least one full syllable. -/
def IsReadable (fz : FuzzySet) (cs : List Char) : Prop := fullReadings fz cs ≠ []

instance (fz : FuzzySet) (cs : List Char) : Decidable (IsReadable fz cs) := by
  unfold IsReadable; infer_instance

theorem mem_readings {fz : FuzzySet} {cs : List Char} {r : Reading} :
    r ∈ readings fz cs ↔ r ∈ fullReadings fz cs ∨ r ∈ bareReadings fz cs := by
  simp [readings, mem_exactFirst]

end Pinyin
