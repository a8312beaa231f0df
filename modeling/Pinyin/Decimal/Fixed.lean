import Pinyin.Decimal.Binary64

/-!
# Pinyin.Decimal.Fixed

Doubles written with a fixed number of decimals.

* `roundHalfEven` — a quotient rounded to the nearest integer;
* `Binary64.fixed` — the text with a given number of decimals.  The exact
  binary value is rounded, and a half goes to the even neighbour.
-/

namespace Pinyin

/-- The integer nearest to `num / den`, the even one of two. -/
def roundHalfEven (num den : Nat) : Nat :=
  let quotient := num / den
  let twice := 2 * (num % den)
  if twice < den then quotient
  else if den < twice then quotient + 1
  else if quotient % 2 = 0 then quotient else quotient + 1

/-- Rounding moves a quotient by at most one half. -/
theorem roundHalfEven_near {num den : Nat} (h : 0 < den) :
    2 * (roundHalfEven num den * den) ≤ 2 * num + den ∧
      2 * num ≤ 2 * (roundHalfEven num den * den) + den := by
  have hdiv := Nat.div_add_mod num den
  have hmod := Nat.mod_lt num h
  have hmul : den * (num / den) = num / den * den := Nat.mul_comm _ _
  have hsucc : (num / den + 1) * den = num / den * den + den := Nat.succ_mul _ _
  unfold roundHalfEven
  simp only
  split
  · omega
  · split
    · omega
    · split <;> omega

namespace Binary64

/-- A digit string padded with zeros in front to at least `width` digits. -/
def padZeros (width : Nat) (cs : List Char) : List Char :=
  List.replicate (width - cs.length) '0' ++ cs

/-- The text of a count of the units `10 ^ -places`. -/
def unitsText (places units : Nat) : List Char :=
  Nat.toDigits 10 (units / Nat.pow 10 places) ++
    '.' :: padZeros places (Nat.toDigits 10 (units % Nat.pow 10 places))

/-- The text of a double with `places` decimals.  Zero has no sign, also where
it comes from rounding. -/
def fixed (places : Nat) : Binary64 → String
  | nan => "nan"
  | infinite negative => if negative then "-inf" else "inf"
  | finite negative significand exponent =>
    let units := roundHalfEven (significand * Nat.pow 10 places * Nat.pow 2 exponent.toNat)
      (Nat.pow 2 (-exponent).toNat)
    let digits := unitsText places units
    String.ofList (if negative && units != 0 then '-' :: digits else digits)

end Binary64

end Pinyin
