import Pinyin.Syllable.Basic

/-!
# Pinyin.Syllable.Split

Some syllables can also be heard as two: "xian" is one syllable, or "xi" and
"an".  `innerSplit?` gives the two parts of such a text.
-/

namespace Pinyin

/-- A text that can be the first part: any full syllable but the interjections
"m" and "n". -/
def IsSplitHead (cs : List Char) : Prop :=
  ∃ s ∈ Syllable.full, s.final ≠ .empty ∧ s.text = cs

/-- A text that can be the second part: a full syllable without an initial.
"ng" is left out, because it would part "ya" from "ng". -/
def IsSplitTail (cs : List Char) : Prop :=
  ∃ s ∈ Syllable.full, (s.initial = .zero ∧ s.final ≠ .ng) ∧ s.text = cs

instance (cs : List Char) : Decidable (IsSplitHead cs) := by
  unfold IsSplitHead; infer_instance

instance (cs : List Char) : Decidable (IsSplitTail cs) := by
  unfold IsSplitTail; infer_instance

/-- The first way, by the length of the head, to part the text of a full
syllable of four letters or more into two syllables. -/
def innerSplit? (cs : List Char) : Option (List Char × List Char) :=
  if 4 ≤ cs.length ∧ ∃ s ∈ Syllable.full, s.text = cs then
    (List.range cs.length).findSome? fun k =>
      if IsSplitHead (cs.take (k + 1)) ∧ IsSplitTail (cs.drop (k + 1)) then
        some (cs.take (k + 1), cs.drop (k + 1))
      else none
  else none

/-- What is parted is the text of a syllable of four letters or more, and each of the two parts that
make it up may stand in its place. -/
theorem parts_of_innerSplit? {cs head tail : List Char}
    (h : innerSplit? cs = some (head, tail)) :
    head ++ tail = cs ∧ (4 ≤ cs.length ∧ ∃ s ∈ Syllable.full, s.text = cs) ∧
      IsSplitHead head ∧ IsSplitTail tail := by
  unfold innerSplit? at h
  split at h
  · next hwhole =>
    obtain ⟨k, -, hk⟩ := List.exists_of_findSome?_eq_some h
    split at hk
    · next hparts =>
      simp only [Option.some.injEq, Prod.mk.injEq] at hk
      rw [← hk.1, ← hk.2]
      exact ⟨List.take_append_drop .., hwhole, hparts⟩
    · cases hk
  · cases h

end Pinyin
