import Pinyin.MessagePack.Value

/-!
# Pinyin.MessagePack.Reader

Reading MessagePack values from bytes.

* `readHead?` — the format byte and, for a scalar, the value itself;
* `read?` — one value from the front of some bytes, with the rest;
* `ofBytes?` — the value that all of some bytes write.

Map keys are texts or binaries; of equal keys the last value counts, in the
place of the first.  Containers nest at most `maxDepth` deep.
-/

namespace Pinyin.MessagePack

/-- How deep lists and maps may nest. -/
def maxDepth : Nat := 1024

/-- What the front of a value says: a scalar, or how many items or entries of a
container follow. -/
inductive Head where
  | scalar (v : Value)
  | list (count : Nat)
  | map (count : Nat)

/-- A number of `width` bytes, read as a natural number. -/
def readNat? (width : Nat) (bs : List UInt8) : Option (Nat × List UInt8) := do
  let (front, rest) ← takeExactly? width bs
  pure (ofBigEndian front, rest)

/-- A number of `width` bytes, read in two's complement. -/
def readInt? (width : Nat) (bs : List UInt8) : Option (Int × List UInt8) := do
  let (n, rest) ← readNat? width bs
  pure (Int.bmod n (Nat.pow 256 width), rest)

/-- A text of `length` bytes. -/
def readText? (length : Nat) (bs : List UInt8) : Option (Head × List UInt8) := do
  let (front, rest) ← takeExactly? length bs
  pure (.scalar (.text (← ofUtf8? front)), rest)

/-- A binary of `length` bytes. -/
def readBinary? (length : Nat) (bs : List UInt8) : Option (Head × List UInt8) := do
  let (front, rest) ← takeExactly? length bs
  pure (.scalar (.binary front), rest)

/-- A point in time in one of its three layouts: seconds in four bytes; thirty
bits of nanoseconds before thirty-four of seconds; four bytes of nanoseconds
before eight of signed seconds. -/
def timestamp? (bs : List UInt8) : Option Value := do
  let (seconds, nanoseconds) ←
    match bs.length with
    | 4 => some ((ofBigEndian bs : Int), 0)
    | 8 =>
      let n := ofBigEndian bs
      some (((n % Nat.pow 2 34 : Nat) : Int), n / Nat.pow 2 34)
    | 12 => do
      let (nanoseconds, rest) ← readNat? 4 bs
      let (seconds, _) ← readInt? 8 rest
      pure (seconds, nanoseconds)
    | _ => none
  if nanoseconds < Nat.pow 10 9 then some (.timestamp seconds nanoseconds) else none

/-- An extension with `length` bytes of data.  The kind -1 is a point in time;
no other kind is negative. -/
def readExtension? (length : Nat) (bs : List UInt8) : Option (Head × List UInt8) := do
  let (kind, bs) ← readInt? 1 bs
  let (front, rest) ← takeExactly? length bs
  match kind with
  | .ofNat kind => pure (.scalar (.extension kind front), rest)
  | .negSucc 0 => pure (.scalar (← timestamp? front), rest)
  | .negSucc _ => none

/-- A number of `width` bytes, and what it announces. -/
def readSized? (width : Nat) (next : Nat → List UInt8 → Option (Head × List UInt8))
    (bs : List UInt8) : Option (Head × List UInt8) := do
  let (n, rest) ← readNat? width bs
  next n rest

/-- A natural number of `width` bytes as a value. -/
def readNatural? (width : Nat) (bs : List UInt8) : Option (Head × List UInt8) := do
  let (n, rest) ← readNat? width bs
  pure (.scalar (.int n), rest)

/-- A signed number of `width` bytes as a value. -/
def readSigned? (width : Nat) (bs : List UInt8) : Option (Head × List UInt8) := do
  let (n, rest) ← readInt? width bs
  pure (.scalar (.int n), rest)

/-- A float of `width` bytes as a value; the short form is widened. -/
def readFloat? (width : Nat) (bs : List UInt8) : Option (Head × List UInt8) := do
  let (n, rest) ← readNat? width bs
  let bits := if width = 4 then (Float32.ofBits n.toUInt32).toFloat.toBits else n.toUInt64
  pure (.scalar (.float bits), rest)

/-- The front of a value, up to the items or entries of a container. -/
def readHead? : List UInt8 → Option (Head × List UInt8)
  | [] => none
  | format :: bs =>
    let code := format.toNat
    if code < 0x80 then some (.scalar (.int code), bs)
    else if code < 0x90 then some (.map (code - 0x80), bs)
    else if code < 0xa0 then some (.list (code - 0x90), bs)
    else if code < 0xc0 then readText? (code - 0xa0) bs
    else if 0xe0 ≤ code then some (.scalar (.int ((code : Int) - 0x100)), bs)
    else match code with
      | 0xc0 => some (.scalar .nil, bs)
      | 0xc2 => some (.scalar (.bool false), bs)
      | 0xc3 => some (.scalar (.bool true), bs)
      | 0xc4 => readSized? 1 readBinary? bs
      | 0xc5 => readSized? 2 readBinary? bs
      | 0xc6 => readSized? 4 readBinary? bs
      | 0xc7 => readSized? 1 readExtension? bs
      | 0xc8 => readSized? 2 readExtension? bs
      | 0xc9 => readSized? 4 readExtension? bs
      | 0xca => readFloat? 4 bs
      | 0xcb => readFloat? 8 bs
      | 0xcc => readNatural? 1 bs
      | 0xcd => readNatural? 2 bs
      | 0xce => readNatural? 4 bs
      | 0xcf => readNatural? 8 bs
      | 0xd0 => readSigned? 1 bs
      | 0xd1 => readSigned? 2 bs
      | 0xd2 => readSigned? 4 bs
      | 0xd3 => readSigned? 8 bs
      | 0xd4 => readExtension? 1 bs
      | 0xd5 => readExtension? 2 bs
      | 0xd6 => readExtension? 4 bs
      | 0xd7 => readExtension? 8 bs
      | 0xd8 => readExtension? 16 bs
      | 0xd9 => readSized? 1 readText? bs
      | 0xda => readSized? 2 readText? bs
      | 0xdb => readSized? 4 readText? bs
      | 0xdc => readSized? 2 (fun n rest => some (.list n, rest)) bs
      | 0xdd => readSized? 4 (fun n rest => some (.list n, rest)) bs
      | 0xde => readSized? 2 (fun n rest => some (.map n, rest)) bs
      | 0xdf => readSized? 4 (fun n rest => some (.map n, rest)) bs
      | _ => none

/-- A reader of one value, to be used for the items of a container. -/
abbrev ItemReader := List UInt8 → Option (Value × List UInt8)

/-- A given number of values, one after the other. -/
def readItems? (item : ItemReader) : (count : Nat) → List UInt8 →
    Option (List Value × List UInt8)
  | 0, bs => some ([], bs)
  | count + 1, bs => do
    let (v, bs) ← item bs
    let (vs, bs) ← readItems? item count bs
    pure (v :: vs, bs)

/-- The two keys are the same text or the same binary. -/
def sameKey : Value → Value → Bool
  | .text s, .text t => s == t
  | .binary bs, .binary cs => bs == cs
  | _, _ => false

/-- The entries with a value put under a key: in the place of the entry that has
this key, or at the end. -/
def putEntry (key v : Value) : List (Value × Value) → List (Value × Value)
  | [] => [(key, v)]
  | (k, old) :: rest =>
    if sameKey k key then (k, v) :: rest else (k, old) :: putEntry key v rest

/-- A given number of map entries, put one after the other into those read
before. -/
def readEntries? (item : ItemReader) : (count : Nat) → List (Value × Value) →
    List UInt8 → Option (List (Value × Value) × List UInt8)
  | 0, entries, bs => some (entries, bs)
  | count + 1, entries, bs => do
    let (key, bs) ← item bs
    guard (sameKey key key)
    let (v, bs) ← item bs
    readEntries? item count (putEntry key v entries) bs

/-- One value from the front of some bytes, with the rest; its containers nest at
most `depth` deep. -/
def read? : (depth : Nat) → ItemReader
  | 0, bs => do
    match ← readHead? bs with
    | (.scalar v, rest) => some (v, rest)
    | _ => none
  | depth + 1, bs => do
    match ← readHead? bs with
    | (.scalar v, rest) => some (v, rest)
    | (.list count, rest) =>
      let (items, rest) ← readItems? (read? depth) count rest
      pure (.list items, rest)
    | (.map count, rest) =>
      let (entries, rest) ← readEntries? (read? depth) count [] rest
      pure (.map entries, rest)

/-- The value that all of some bytes write. -/
def ofBytes? (bs : List UInt8) : Option Value :=
  match read? maxDepth bs with
  | some (v, []) => some v
  | _ => none

end Pinyin.MessagePack
