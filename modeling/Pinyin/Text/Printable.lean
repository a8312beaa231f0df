import Pinyin.Text.Unprintable

/-!
# Pinyin.Text.Printable

Which characters show when printed: all but those in the table of ranges that
do not.

* `IsPrintable` — outside every range of the table;
* `prints` — the same as a computation, which searches the table only beyond ASCII;
* `prints_iff` — the two agree.
-/

namespace Pinyin

/-- A character outside the ranges that do not print; the space is one of them. -/
def IsPrintable (c : Char) : Prop :=
  ∀ range ∈ unprintableRanges, ¬ (range.1 ≤ c.toNat ∧ c.toNat ≤ range.2)

theorem isPrintable_iff_covers {c : Char} :
    IsPrintable c ↔ ¬ covers c.toNat unprintableRanges := by
  rw [covers_iff_of_ascending ascending_unprintableRanges]
  simp only [IsPrintable, not_exists, not_and]

/-- No range that does not print reaches into the graphic ASCII characters. -/
theorem unprintableRanges_avoid_ascii :
    ∀ range ∈ unprintableRanges, range.2 < 0x20 ∨ 0x7f ≤ range.1 := by
  decide +kernel

/-- Graphic ASCII characters and the space print. -/
theorem isPrintable_of_ascii {c : Char} (hlow : 0x20 ≤ c.toNat) (hhigh : c.toNat < 0x7f) :
    IsPrintable c := by
  intro range hrange hc
  have havoid := unprintableRanges_avoid_ascii range hrange
  omega

/-- The characters before the space are controls. -/
theorem not_isPrintable_of_lt {c : Char} (h : c.toNat < 0x20) : ¬ IsPrintable c := by
  intro hc
  have hrange : (0x0, 0x1f) ∈ unprintableRanges := List.mem_cons_self
  exact hc _ hrange ⟨Nat.zero_le _, Nat.le_of_lt_succ h⟩

/-- Whether a character prints; for ASCII the table is not searched. -/
def prints (c : Char) : Bool :=
  if c.toNat < 0x7f then 0x20 ≤ c.toNat else !covers c.toNat unprintableRanges

theorem prints_iff {c : Char} : prints c ↔ IsPrintable c := by
  unfold prints
  split
  · next hhigh =>
    rw [decide_eq_true_iff]
    refine ⟨fun hlow => isPrintable_of_ascii hlow hhigh, fun h => ?_⟩
    exact Nat.le_of_not_lt fun hlow => not_isPrintable_of_lt hlow h
  · rw [isPrintable_iff_covers, Bool.not_eq_true', Bool.not_eq_true]

instance (c : Char) : Decidable (IsPrintable c) := decidable_of_iff _ prints_iff

end Pinyin
