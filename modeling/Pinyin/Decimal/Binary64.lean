/-!
# Pinyin.Decimal.Binary64

The number that the 64 bits of a double stand for, as an exact integer times a
power of two.  The decimal texts of doubles are computed from it in integer
arithmetic alone.
-/

namespace Pinyin

/-- A double: `± significand * 2 ^ exponent`, an infinity, or not a number. -/
inductive Binary64 where
  | finite (negative : Bool) (significand : Nat) (exponent : Int)
  | infinite (negative : Bool)
  | nan
  deriving DecidableEq, Repr

namespace Binary64

/-- The double with the given bits: a sign bit, eleven bits of exponent and
fifty-two of fraction.  The exponent zero marks the subnormal numbers, which
lack the leading bit of the significand. -/
def ofBits (bits : UInt64) : Binary64 :=
  let n := bits.toNat
  let negative := n.testBit 63
  let field : Nat := n / Nat.pow 2 52 % 2048
  let fraction : Nat := n % Nat.pow 2 52
  if field = 2047 then
    if fraction = 0 then infinite negative else nan
  else if field = 0 then finite negative fraction (-1074)
  else finite negative (fraction + Nat.pow 2 52) (field - 1075)

end Binary64

end Pinyin
