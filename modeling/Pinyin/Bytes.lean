/-!
# Pinyin.Bytes

Byte lists, as the file formats use them:

* `bigEndian`, `ofBigEndian` — numbers of a fixed width, high byte first;
* `utf8`, `ofUtf8?` — text;
* `takeExactly?` — a given number of bytes from the front, if there are so many;
* `hexDigits` — the bytes as lower-case hexadecimal text.
-/

namespace Pinyin

/-! ## Numbers -/

/-- The lowest `width` bytes of a number, high byte first. -/
def bigEndian : (width : Nat) → Nat → List UInt8
  | 0, _ => []
  | width + 1, n => UInt8.ofNat (n / Nat.pow 256 width) :: bigEndian width n

/-- The number that some bytes write, high byte first. -/
def ofBigEndian (bs : List UInt8) : Nat :=
  bs.foldl (fun n b => n * 256 + b.toNat) 0

theorem length_bigEndian (width n : Nat) : (bigEndian width n).length = width := by
  induction width with
  | zero => rfl
  | succ width ih => simp [bigEndian, ih]

theorem foldl_bigEndian (width n start : Nat) :
    (bigEndian width n).foldl (fun n b => n * 256 + b.toNat) start
      = start * Nat.pow 256 width + n % Nat.pow 256 width := by
  induction width generalizing start with
  | zero => simp [bigEndian, Nat.mod_one]
  | succ width ih =>
    have hmod : n % Nat.pow 256 (width + 1)
        = Nat.pow 256 width * (n / Nat.pow 256 width % 256) + n % Nat.pow 256 width := by
      rw [Nat.pow_eq, Nat.pow_eq, Nat.pow_succ, Nat.mod_mul, Nat.add_comm]
    rw [bigEndian, List.foldl_cons, ih, hmod, Nat.pow_eq, Nat.pow_eq, Nat.pow_succ]
    simp only [UInt8.toNat_ofNat']
    grind

/-- A number that fits its width is read back. -/
theorem ofBigEndian_bigEndian {width n : Nat} (h : n < Nat.pow 256 width) :
    ofBigEndian (bigEndian width n) = n := by
  rw [ofBigEndian, foldl_bigEndian, Nat.mod_eq_of_lt h, Nat.zero_mul, Nat.zero_add]

/-! ## Text -/

/-- The UTF-8 bytes of a text. -/
def utf8 (s : String) : List UInt8 := s.toUTF8.data.toList

/-- The text whose UTF-8 bytes these are; malformed bytes have none. -/
def ofUtf8? (bs : List UInt8) : Option String := String.fromUTF8? bs.toByteArray

theorem ofUtf8?_utf8 (s : String) : ofUtf8? (utf8 s) = some s := by
  have hbytes : (utf8 s).toByteArray = s.toUTF8 := by
    apply ByteArray.ext
    rw [List.data_toByteArray, utf8, Array.toArray_toList]
  unfold ofUtf8? String.fromUTF8?
  rw [hbytes, String.toUTF8_eq_toByteArray, dif_pos s.isValidUTF8]
  rfl

theorem utf8_of_ofUtf8? {bs : List UInt8} {s : String} (h : ofUtf8? bs = some s) :
    utf8 s = bs := by
  unfold ofUtf8? String.fromUTF8? at h
  split at h
  · rw [Option.some.injEq] at h
    subst h
    simp only [utf8, String.toUTF8_eq_toByteArray]
    exact congrArg Array.toList (List.data_toByteArray ..)
  · cases h

/-! ## Pieces -/

/-- The first `n` bytes and the rest, if there are `n` bytes. -/
def takeExactly? (n : Nat) (bs : List UInt8) : Option (List UInt8 × List UInt8) :=
  if (bs.take n).length = n then some (bs.take n, bs.drop n) else none

theorem takeExactly?_append {n : Nat} {bs rest : List UInt8} (h : bs.length = n) :
    takeExactly? n (bs ++ rest) = some (bs, rest) := by
  subst h; simp [takeExactly?]

theorem takeExactly?_eq_some_iff {n : Nat} {bs front rest : List UInt8} :
    takeExactly? n bs = some (front, rest) ↔ bs = front ++ rest ∧ front.length = n := by
  constructor
  · intro h
    unfold takeExactly? at h
    split at h
    · next hlen =>
      simp only [Option.some.injEq, Prod.mk.injEq] at h
      obtain ⟨rfl, rfl⟩ := h
      exact ⟨(List.take_append_drop n bs).symm, hlen⟩
    · cases h
  · rintro ⟨rfl, hlen⟩
    exact takeExactly?_append hlen

/-- The two hexadecimal digits of a byte. -/
def hexPair (b : UInt8) : List Char :=
  [Nat.digitChar (b.toNat / 16), Nat.digitChar (b.toNat % 16)]

/-- The bytes as lower-case hexadecimal text, two digits each. -/
def hexDigits (bs : List UInt8) : List Char := bs.flatMap hexPair

end Pinyin
