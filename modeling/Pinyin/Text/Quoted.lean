import Pinyin.Bytes
import Pinyin.Text.Printable

/-!
# Pinyin.Text.Quoted

Texts and bytes in quotes, as messages show them.  The quote is an apostrophe,
or a double quote where the text holds an apostrophe and no double quote.
Inside, a backslash marks the quote, the backslash itself, and characters that
do not print.

* `quoteText` — a text;
* `quoteBytes` — bytes, marked with a leading "b".
-/

namespace Pinyin

/-- The quote that goes around some characters. -/
def quoteFor (cs : List Char) : Char :=
  if '\'' ∈ cs ∧ '"' ∉ cs then '"' else '\''

/-- A number in lower-case hexadecimal with at least `width` digits. -/
def hexNumber (width n : Nat) : List Char :=
  let digits := Nat.toDigits 16 n
  List.replicate (width - digits.length) '0' ++ digits

/-- A code point in the shortest of the three numeric escapes that holds it. -/
def numericEscape (n : Nat) : List Char :=
  if n < 0x100 then '\\' :: 'x' :: hexNumber 2 n
  else if n < 0x10000 then '\\' :: 'u' :: hexNumber 4 n
  else '\\' :: 'U' :: hexNumber 8 n

/-- A character as it stands between two quotes. -/
def escapeChar (quote c : Char) : List Char :=
  if c = quote ∨ c = '\\' then ['\\', c]
  else if c = '\n' then ['\\', 'n']
  else if c = '\t' then ['\\', 't']
  else if c = '\r' then ['\\', 'r']
  else if IsPrintable c then [c]
  else numericEscape c.toNat

/-- A text in quotes. -/
def quoteText (cs : List Char) : List Char :=
  let quote := quoteFor cs
  quote :: cs.flatMap (escapeChar quote) ++ [quote]

/-- A byte as it stands between two quotes: ASCII as text, others by number. -/
def escapeByte (quote : Char) (b : UInt8) : List Char :=
  if b.toNat < 0x80 then escapeChar quote (Char.ofNat b.toNat)
  else numericEscape b.toNat

/-- Bytes in quotes. -/
def quoteBytes (bs : List UInt8) : List Char :=
  let quote := quoteFor (bs.map fun b => Char.ofNat b.toNat)
  'b' :: quote :: bs.flatMap (escapeByte quote) ++ [quote]

end Pinyin
