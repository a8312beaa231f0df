import Pinyin.MessagePack.Value

/-!
# Pinyin.MessagePack.Writer

Writing MessagePack values, each in its shortest form.  `toBytes?` fails
exactly where a value does not fit the format: an integer outside
`-2^63 .. 2^64 - 1`, or a length beyond thirty-two bits.
-/

namespace Pinyin.MessagePack

/-- A format byte and a number of `width` bytes. -/
def tagged (format : UInt8) (width n : Nat) : List UInt8 :=
  format :: bigEndian width n

/-- An integer in the shortest of its forms. -/
def intBytes? : Int → Option (List UInt8)
  | .ofNat n =>
    if n < 0x80 then some [UInt8.ofNat n]
    else if n < Nat.pow 2 8 then some (tagged 0xcc 1 n)
    else if n < Nat.pow 2 16 then some (tagged 0xcd 2 n)
    else if n < Nat.pow 2 32 then some (tagged 0xce 4 n)
    else if n < Nat.pow 2 64 then some (tagged 0xcf 8 n)
    else none
  | .negSucc n =>
    if n < 0x20 then some [UInt8.ofNat (0xff - n)]
    else if n < Nat.pow 2 7 then some (tagged 0xd0 1 (Nat.pow 2 8 - 1 - n))
    else if n < Nat.pow 2 15 then some (tagged 0xd1 2 (Nat.pow 2 16 - 1 - n))
    else if n < Nat.pow 2 31 then some (tagged 0xd2 4 (Nat.pow 2 32 - 1 - n))
    else if n < Nat.pow 2 63 then some (tagged 0xd3 8 (Nat.pow 2 64 - 1 - n))
    else none

/-- The head of a text of `n` bytes. -/
def textHead? (n : Nat) : Option (List UInt8) :=
  if n < 0x20 then some [UInt8.ofNat (0xa0 + n)]
  else if n < Nat.pow 2 8 then some (tagged 0xd9 1 n)
  else if n < Nat.pow 2 16 then some (tagged 0xda 2 n)
  else if n < Nat.pow 2 32 then some (tagged 0xdb 4 n)
  else none

/-- The head of a binary of `n` bytes. -/
def binaryHead? (n : Nat) : Option (List UInt8) :=
  if n < Nat.pow 2 8 then some (tagged 0xc4 1 n)
  else if n < Nat.pow 2 16 then some (tagged 0xc5 2 n)
  else if n < Nat.pow 2 32 then some (tagged 0xc6 4 n)
  else none

/-- The head of a list of `n` items. -/
def listHead? (n : Nat) : Option (List UInt8) :=
  if n < 0x10 then some [UInt8.ofNat (0x90 + n)]
  else if n < Nat.pow 2 16 then some (tagged 0xdc 2 n)
  else if n < Nat.pow 2 32 then some (tagged 0xdd 4 n)
  else none

/-- The head of a map of `n` entries. -/
def mapHead? (n : Nat) : Option (List UInt8) :=
  if n < 0x10 then some [UInt8.ofNat (0x80 + n)]
  else if n < Nat.pow 2 16 then some (tagged 0xde 2 n)
  else if n < Nat.pow 2 32 then some (tagged 0xdf 4 n)
  else none

/-- The head of an extension with `n` bytes of data, up to its kind. -/
def extensionHead? (n : Nat) : Option (List UInt8) :=
  if n = 1 then some [0xd4]
  else if n = 2 then some [0xd5]
  else if n = 4 then some [0xd6]
  else if n = 8 then some [0xd7]
  else if n = 16 then some [0xd8]
  else if n < Nat.pow 2 8 then some (tagged 0xc7 1 n)
  else if n < Nat.pow 2 16 then some (tagged 0xc8 2 n)
  else if n < Nat.pow 2 32 then some (tagged 0xc9 4 n)
  else none

/-- An extension of a kind given by its byte. -/
def extensionBytes? (kind : UInt8) (bs : List UInt8) : Option (List UInt8) :=
  (extensionHead? bs.length).map fun head => head ++ kind :: bs

/-- The data of a point in time in the shortest of its layouts. -/
def timestampData (seconds : Int) (nanoseconds : Nat) : List UInt8 :=
  if 0 ≤ seconds ∧ seconds < Int.pow 2 34 then
    if nanoseconds = 0 ∧ seconds < Int.pow 2 32 then bigEndian 4 seconds.toNat
    else bigEndian 8 (nanoseconds * Nat.pow 2 34 + seconds.toNat)
  else bigEndian 4 nanoseconds ++ bigEndian 8 (seconds % Int.pow 2 64).toNat

mutual

/-- The bytes of a value, if the format can hold it. -/
def toBytes? : Value → Option (List UInt8)
  | .nil => some [0xc0]
  | .bool b => some [if b then 0xc3 else 0xc2]
  | .int n => intBytes? n
  | .float bits => some (tagged 0xcb 8 bits.toNat)
  | .text s => (textHead? (utf8 s).length).map (· ++ utf8 s)
  | .binary bs => (binaryHead? bs.length).map (· ++ bs)
  | .list items => do
    let head ← listHead? items.length
    let body ← itemsToBytes? items
    pure (head ++ body)
  | .map entries => do
    let head ← mapHead? entries.length
    let body ← entriesToBytes? entries
    pure (head ++ body)
  | .extension kind bs => extensionBytes? (UInt8.ofNat kind) bs
  | .timestamp seconds nanoseconds =>
    extensionBytes? 0xff (timestampData seconds nanoseconds)

/-- The bytes of the items of a list. -/
def itemsToBytes? : List Value → Option (List UInt8)
  | [] => some []
  | v :: rest => do
    let front ← toBytes? v
    let back ← itemsToBytes? rest
    pure (front ++ back)

/-- The bytes of the entries of a map, each key before its value. -/
def entriesToBytes? : List (Value × Value) → Option (List UInt8)
  | [] => some []
  | (k, v) :: rest => do
    let key ← toBytes? k
    let front ← toBytes? v
    let back ← entriesToBytes? rest
    pure (key ++ front ++ back)

end

end Pinyin.MessagePack
