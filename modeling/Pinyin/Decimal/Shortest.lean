import Pinyin.Decimal.Binary64

/-!
# Pinyin.Decimal.Shortest

Doubles written with the fewest digits that read back as the same double.

* `RoundingInterval` — the reals that round to a double;
* `shortestDigits` — the coarsest decimal in it; of two on one grid the nearer;
* `Binary64.shortest` — its text, positional between 0.0001 and 10^16 and
  with an exponent of at least two digits elsewhere.
-/

namespace Pinyin

/-- The reals that round to `4 * significand * 2 ^ (exponent - 2)`, as integer
bounds in units of `2 ^ (exponent - 2)`.  The bounds themselves round to it
exactly if its significand is even. -/
structure RoundingInterval where
  low : Nat
  value : Nat
  high : Nat
  closed : Bool
  exponent : Int
  deriving DecidableEq, Repr

namespace RoundingInterval

/-- The interval of a positive double.  Below a power of two the neighbours are
half as far apart as above it. -/
def ofFinite (significand : Nat) (exponent : Int) : RoundingInterval where
  low := if significand = Nat.pow 2 52 ∧ exponent ≠ -1074 then 4 * significand - 1
    else 4 * significand - 2
  value := 4 * significand
  high := 4 * significand + 2
  closed := significand % 2 == 0
  exponent := exponent - 2

/-- `a * 2 ^ e` and `b * 10 ^ k` as two integers in one common unit. -/
def scale (a : Nat) (e : Int) (b : Nat) (k : Int) : Nat × Nat :=
  (a * Nat.pow 2 e.toNat * Nat.pow 10 (-k).toNat, b * Nat.pow 10 k.toNat * Nat.pow 2 (-e).toNat)

/-- The decimal `b * 10 ^ k` rounds to the double of the interval. -/
def Contains (iv : RoundingInterval) (b : Nat) (k : Int) : Prop :=
  let (low, x) := scale iv.low iv.exponent b k
  let (high, _) := scale iv.high iv.exponent b k
  if iv.closed then low ≤ x ∧ x ≤ high else low < x ∧ x < high

instance (iv : RoundingInterval) (b : Nat) (k : Int) : Decidable (iv.Contains b k) := by
  unfold Contains
  simp only
  split <;> infer_instance

/-- The multiple of `10 ^ k` just below the double's value, or that value. -/
def floorAt (iv : RoundingInterval) (k : Int) : Nat :=
  let (value, unit) := scale iv.value iv.exponent 1 k
  value / unit

/-- The multiple of `10 ^ k` that rounds to the double, if one of the two next
to its value does; the nearer of two, and of two as near the even one. -/
def onGrid? (iv : RoundingInterval) (k : Int) : Option Nat :=
  let below := iv.floorAt k
  let above := below + 1
  if iv.Contains below k then
    if iv.Contains above k then
      let (value, sum) := scale (2 * iv.value) iv.exponent (below + above) k
      if value < sum then some below
      else if sum < value then some above
      else if below % 2 = 0 then some below else some above
    else some below
  else if iv.Contains above k then some above
  else none

end RoundingInterval

/-- The number of digits before the point of a positive `a * 2 ^ e`, less one:
the exponent of its leading digit. -/
def leadingExponent (a : Nat) (e : Int) : Int :=
  let num := a * Nat.pow 2 e.toNat
  let den := Nat.pow 2 (-e).toNat
  if den ≤ num then ((Nat.toDigits 10 (num / den)).length : Int) - 1
  else
    let guess := (Nat.toDigits 10 (den / num)).length
    if den ≤ num * Nat.pow 10 (guess - 1) then -((guess : Int) - 1) else -(guess : Int)

/-- A number without its trailing zeros, and how many there were; `fuel` bounds
their number. -/
def stripZeros : (fuel : Nat) → Nat → Nat × Nat
  | 0, n => (n, 0)
  | fuel + 1, n =>
    if n % 10 = 0 then
      let (m, zeros) := stripZeros fuel (n / 10)
      (m, zeros + 1)
    else (n, 0)

/-- The fewest digits that read back as a positive double, as a number `b` and
an exponent `k` with the meaning `b * 10 ^ k`.  Seventeen digits always do. -/
def shortestDigits (significand : Nat) (exponent : Int) : Nat × Int :=
  let iv := RoundingInterval.ofFinite significand exponent
  let lead := leadingExponent significand exponent
  let found := (List.range 17).findSome? fun (n : Nat) =>
    let k := lead - n
    (iv.onGrid? k).map fun b => (b, k)
  match found with
  | none => (0, 0)
  | some (b, k) =>
    let (m, zeros) := stripZeros 17 b
    (m, k + zeros)

namespace Binary64

/-- The text of `b * 10 ^ k` for digits without a trailing zero: with a point
among or beside the digits if the leading digit stands for at least `10 ^ -4`
and less than `10 ^ 16`, and else with an exponent. -/
def decimalText (b : Nat) (k : Int) : List Char :=
  let digits := Nat.toDigits 10 b
  let lead := k + digits.length - 1
  if -4 ≤ lead ∧ lead < 16 then
    if lead < 0 then '0' :: '.' :: (List.replicate (-lead - 1).toNat '0' ++ digits)
    else
      let whole := (lead + 1).toNat
      let padded := digits ++ List.replicate (whole + 1 - digits.length) '0'
      padded.take whole ++ '.' :: padded.drop whole
  else
    let mantissa := match digits with
      | [d] => [d]
      | d :: ds => d :: '.' :: ds
      | [] => []
    let power := Nat.toDigits 10 lead.natAbs
    mantissa ++ 'e' :: (if lead < 0 then '-' else '+') ::
      (List.replicate (2 - power.length) '0' ++ power)

/-- The text of a double in the fewest digits that read back as it. -/
def shortest : Binary64 → String
  | nan => "nan"
  | infinite negative => if negative then "-inf" else "inf"
  | finite negative significand exponent =>
    let digits :=
      if significand = 0 then ['0', '.', '0']
      else
        let (b, k) := shortestDigits significand exponent
        decimalText b k
    String.ofList (if negative then '-' :: digits else digits)

end Binary64

end Pinyin
