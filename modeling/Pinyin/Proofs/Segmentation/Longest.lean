import Pinyin.Proofs.Reading.Exact
import Pinyin.Proofs.Segmentation.Plan

/-!
# Pinyin.Proofs.Segmentation.Longest

What is cut off the front of a text first.

* `IsPiece` — a text that can be read, or an initial; `readings_ne_nil_iff` — it has readings;
* `isPiece_longestMatch`, `le_length_longestMatch` — the longest match is a piece, and no piece at
  the front is longer;
* `longestMatch_of_isPiece` — so a piece is cut off where one stands in front;
* `complete_longestMatch_iff` — it is complete if it is read, as no interjection "m" or "n".
-/

namespace Pinyin

/-- What may be cut off a text as one piece: a text that can be read, or an initial. -/
def IsPiece (fz : FuzzySet) (cs : List Char) : Prop :=
  IsReadable fz cs ∨ (Initial.ofText? cs).isSome

instance (fz : FuzzySet) (cs : List Char) : Decidable (IsPiece fz cs) := by
  unfold IsPiece; infer_instance

/-- The pieces are what has a reading. -/
theorem readings_ne_nil_iff {fz : FuzzySet} {cs : List Char} :
    readings fz cs ≠ [] ↔ IsPiece fz cs := by
  have hbare : bareReadings fz cs = [] ↔ Initial.ofText? cs = none := by
    rw [bareReadings]
    cases Initial.ofText? cs <;> simp [Initial.partners, partnersIn]
  have hall : readings fz cs = [] ↔ fullReadings fz cs = [] ∧ bareReadings fz cs = [] := by
    simp only [List.eq_nil_iff_forall_not_mem, mem_readings, not_or, forall_and]
  rw [Ne, hall, hbare, Decidable.not_and_iff_or_not, IsPiece, Option.isSome_iff_ne_none]
  rfl

/-- No separator stands in a piece. -/
theorem IsPiece.separator_notMem {fz : FuzzySet} {cs : List Char} (h : IsPiece fz cs) :
    separator ∉ cs :=
  h.elim separator_notMem_of_isReadable separator_notMem_of_ofText?

/-- The text of a known syllable is a piece, with fuzzy rules or without. -/
theorem Syllable.IsKnown.isPiece {s : Syllable} (h : s.IsKnown) (fz : FuzzySet) :
    IsPiece fz s.text := by
  rcases h with hfull | hbare
  · exact .inl (List.ne_nil_of_mem (mem_fullReadings_text hfull fz))
  · obtain ⟨i, hi, rfl⟩ := hbare.exists_eq
    refine .inr ?_
    rw [Syllable.text_bare, Initial.ofText?_text hi]
    rfl

section

variable {fz : FuzzySet} {rest : List Char} {n k : Nat}

theorem not_isReadable_nil (fz : FuzzySet) : ¬ IsReadable fz [] := by
  have hnone : Spelling.ofText? [] = none := by decide
  simp [IsReadable, fullReadings, hnone]

theorem not_isPiece_nil (fz : FuzzySet) : ¬ IsPiece fz [] := by
  rintro (hread | hinitial)
  · exact not_isReadable_nil fz hread
  · exact absurd hinitial (by decide)

/-- The piece of the greatest length is taken if it is one. -/
theorem longestUpTo_succ_cases (fz : FuzzySet) (rest : List Char) (n : Nat) :
    (n < rest.length ∧ IsReadable fz (rest.take (n + 1)) ∧
      longestUpTo fz rest (n + 1)
        = ⟨n + 1, rest.take (n + 1) != ['m'] && rest.take (n + 1) != ['n']⟩) ∨
    (n < rest.length ∧ ¬ IsReadable fz (rest.take (n + 1)) ∧
      (Initial.ofText? (rest.take (n + 1))).isSome ∧
      longestUpTo fz rest (n + 1) = ⟨n + 1, false⟩) ∨
    ((n < rest.length → ¬ IsPiece fz (rest.take (n + 1))) ∧
      longestUpTo fz rest (n + 1) = longestUpTo fz rest n) := by
  by_cases hlen : (rest.take (n + 1)).length ≤ n
  · have hshort : ¬ n < rest.length := by
      rw [List.length_take] at hlen
      omega
    exact .inr (.inr ⟨fun h => (hshort h).elim, by rw [longestUpTo, if_pos hlen]⟩)
  have hlong : n < rest.length := by
    rw [List.length_take] at hlen
    omega
  by_cases hread : IsReadable fz (rest.take (n + 1))
  · exact .inl ⟨hlong, hread, by rw [longestUpTo, if_neg hlen, if_pos hread]⟩
  by_cases hinitial : (Initial.ofText? (rest.take (n + 1))).isSome
  · refine .inr (.inl ⟨hlong, hread, hinitial, ?_⟩)
    rw [longestUpTo, if_neg hlen, if_neg hread, if_pos hinitial]
  · refine .inr (.inr ⟨fun _ hpiece => hpiece.elim hread hinitial, ?_⟩)
    rw [longestUpTo, if_neg hlen, if_neg hread, if_neg hinitial]

theorem length_longestUpTo_le_max (fz : FuzzySet) (rest : List Char) (n : Nat) :
    (longestUpTo fz rest n).length ≤ max 1 n := by
  induction n with
  | zero => exact Nat.le_refl _
  | succ n ih =>
      rcases longestUpTo_succ_cases fz rest n with ⟨-, -, heq⟩ | ⟨-, -, -, heq⟩ | ⟨-, heq⟩
      · rw [heq]
        exact Nat.le_max_right 1 (n + 1)
      · rw [heq]
        exact Nat.le_max_right 1 (n + 1)
      · rw [heq]
        omega

theorem isPiece_longestUpTo (h : 1 < (longestUpTo fz rest n).length) :
    IsPiece fz (rest.take (longestUpTo fz rest n).length) := by
  induction n with
  | zero => exact absurd h (Nat.lt_irrefl 1)
  | succ n ih =>
      rcases longestUpTo_succ_cases fz rest n with
        ⟨-, hread, heq⟩ | ⟨-, -, hinitial, heq⟩ | ⟨-, heq⟩
      · rw [heq]
        exact .inl hread
      · rw [heq]
        exact .inr hinitial
      · rw [heq] at h ⊢
        exact ih h

theorem le_length_longestUpTo (hle : k ≤ n) (hlen : k ≤ rest.length)
    (hpiece : IsPiece fz (rest.take k)) : k ≤ (longestUpTo fz rest n).length := by
  induction n with
  | zero => omega
  | succ n ih =>
      rcases longestUpTo_succ_cases fz rest n with ⟨-, -, heq⟩ | ⟨-, -, -, heq⟩ | ⟨hnone, heq⟩
      · rw [heq]
        exact hle
      · rw [heq]
        exact hle
      · rw [heq]
        refine ih (Nat.le_of_lt_succ (Nat.lt_of_le_of_ne hle ?_))
        rintro rfl
        exact hnone hlen hpiece

theorem complete_longestUpTo_iff (hn : 0 < n) :
    (longestUpTo fz rest n).complete = true ↔
      IsReadable fz (rest.take (longestUpTo fz rest n).length) ∧
        rest.take (longestUpTo fz rest n).length ≠ ['m'] ∧
        rest.take (longestUpTo fz rest n).length ≠ ['n'] := by
  induction n with
  | zero => exact absurd hn (Nat.lt_irrefl 0)
  | succ n ih =>
      rcases longestUpTo_succ_cases fz rest n with
        ⟨-, hread, heq⟩ | ⟨-, hread, -, heq⟩ | ⟨hnone, heq⟩
      · rw [heq]
        simp [hread]
      · rw [heq]
        simp [hread]
      · rw [heq]
        cases n with
        | succ n => exact ih n.succ_pos
        | zero =>
            -- Nothing was found at all, so that the first character alone is no piece.
            have hread : ¬ IsReadable fz (rest.take 1) := by
              cases rest with
              | nil => exact not_isReadable_nil fz
              | cons c rest => exact fun h => hnone (Nat.succ_pos _) (.inl h)
            simp [longestUpTo, hread]

theorem length_longestMatch_le_maxSpelling (fz : FuzzySet) (rest : List Char) :
    (longestMatch fz rest).length ≤ maxSpelling :=
  length_longestUpTo_le_max fz rest maxSpelling

/-- What is cut off is a piece, if it is more than one character. -/
theorem isPiece_longestMatch (h : 1 < (longestMatch fz rest).length) :
    IsPiece fz (rest.take (longestMatch fz rest).length) :=
  isPiece_longestUpTo h

/-- **No piece at the front of a text is longer than the one that is cut off.** -/
theorem le_length_longestMatch (hle : k ≤ maxSpelling) (hlen : k ≤ rest.length)
    (hpiece : IsPiece fz (rest.take k)) : k ≤ (longestMatch fz rest).length :=
  le_length_longestUpTo hle hlen hpiece

/-- Where a piece stands in front, a piece is cut off, and it is no shorter. -/
theorem longestMatch_of_isPiece {front : List Char} (hne : front ≠ [])
    (hle : front.length ≤ maxSpelling) (hpiece : IsPiece fz front) (back : List Char) :
    front.length ≤ (longestMatch fz (front ++ back)).length ∧
      IsPiece fz ((front ++ back).take (longestMatch fz (front ++ back)).length) := by
  have hlong : front.length ≤ (longestMatch fz (front ++ back)).length :=
    le_length_longestMatch hle (by simp) (by rwa [List.take_left])
  refine ⟨hlong, ?_⟩
  have hpos := List.length_pos_iff.2 hne
  by_cases hone : 1 < (longestMatch fz (front ++ back)).length
  · exact isPiece_longestMatch hone
  · rwa [show (longestMatch fz (front ++ back)).length = front.length by omega, List.take_left]

/-- It is complete if it is read, as no interjection "m" or "n". -/
theorem complete_longestMatch_iff :
    (longestMatch fz rest).complete = true ↔
      IsReadable fz (rest.take (longestMatch fz rest).length) ∧
        rest.take (longestMatch fz rest).length ≠ ['m'] ∧
        rest.take (longestMatch fz rest).length ≠ ['n'] :=
  complete_longestUpTo_iff (by decide)

end

end Pinyin
