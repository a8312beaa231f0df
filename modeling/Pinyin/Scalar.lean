import Pinyin.Error

/-!
# Pinyin.Scalar

The numbers that costs and frequencies are computed in.  A program runs on
doubles; over the rationals the same formulas are exact.

* `Cost` — what a search needs: a zero, an addition, an order, and the cost of a
  distance, where it has one;
* `Scalar` — arithmetic with decimals, and rounding down;
* `Logarithmic` — powers of ten and their logarithm, where they exist.
-/

namespace Pinyin

/-- Costs that a search adds up and compares, and the cost of a number of fuzzy
readings. -/
class Cost (R : Type) extends Zero R, Add R, LT R where
  decLt : DecidableLT R
  ofDistance : Int → Except Error R

instance Cost.instDecidableLT [Cost R] : DecidableLT R := Cost.decLt

/-- Numbers with arithmetic.  `ofDecimal m e` is `m / 10 ^ e`. -/
class Scalar (R : Type) extends Cost R, Sub R, Mul R, Div R, Neg R where
  ofInt : Int → R
  ofDecimal : (m e : Nat) → R
  floor : R → R

/-- Numbers with powers of ten and decimal logarithms. -/
class Logarithmic (R : Type) extends Scalar R where
  power10 : R → Except Error R
  log10 : R → Except Error R

/-- What a fuzzy reading adds to the cost of a word. -/
def fuzzyPenalty : Nat := 3

/-- Exact arithmetic. -/
instance : Scalar Rat where
  toZero := Zero.ofOfNat0
  decLt := inferInstance
  ofDistance d := .ok (d * fuzzyPenalty)
  ofInt n := n
  ofDecimal m e := (m : Rat) / Rat.pow 10 e
  floor x := (x.floor : Rat)

/-- Arithmetic on doubles, rounded at every step.  A distance that no double can hold
is an error, while what it costs may round to infinity. -/
instance : Scalar Float where
  decLt := inferInstance
  ofDistance d :=
    let x := Float.ofInt d
    if x.isInf then .error .costTooLarge else .ok (x * Float.ofNat fuzzyPenalty)
  ofInt := Float.ofInt
  ofDecimal m e := Float.ofScientific m true e
  floor := Float.floor

/-- A power of a finite number that no double can hold is an error, and so is the
logarithm of a number that is not positive. -/
instance : Logarithmic Float where
  power10 x :=
    let y := Float.pow 10.0 x
    if y.isInf && x.isFinite then .error .powerTooLarge else .ok y
  log10 x := if x ≤ 0.0 then .error .logarithmOfZero else .ok (Float.log10 x)

end Pinyin
