import Mathlib.Data.List.Perm.Subperm
import Pinyin.MessagePack.Reader
import Pinyin.MessagePack.Writer

/-!
# Pinyin.Proofs.MessagePack.Length

How many bytes a value takes.

* `Value.minLength` — how many bytes there are at least in any form of a value;
* `Value.NumbersFit` — no number in a value goes beyond sixty-four bits;
* `spends_read?` — whatever is read has such numbers, and took that many bytes;
* `Value.IsExact` — values of which the writer writes no byte more.
-/

namespace Pinyin.MessagePack

/-! ## Shortest forms -/

/-- The length of the shortest form of a natural number. -/
def naturalLength (n : Nat) : Nat :=
  if n < 0x80 then 1
  else if n < Nat.pow 2 8 then 2
  else if n < Nat.pow 2 16 then 3
  else if n < Nat.pow 2 32 then 5
  else 9

/-- The length of the shortest head of a text of `n` bytes. -/
def textHeadLength (n : Nat) : Nat :=
  if n < 0x20 then 1
  else if n < Nat.pow 2 8 then 2
  else if n < Nat.pow 2 16 then 3
  else 5

/-- The length of the shortest head of a map of `n` entries. -/
def mapHeadLength (n : Nat) : Nat :=
  if n < 0x10 then 1
  else if n < Nat.pow 2 16 then 3
  else 5

mutual

/-- How many bytes every form of a value has at least: those of the shortest form of a natural
number, a text or a map of such, and the one format byte of anything else. -/
def Value.minLength : Value → Nat
  | .int n => naturalLength n.toNat
  | .text s => textHeadLength (utf8 s).length + (utf8 s).length
  | .map entries => mapHeadLength entries.length + entriesMinLength entries
  | _ => 1

/-- How many bytes the entries of a map have at least. -/
def entriesMinLength : List (Value × Value) → Nat
  | [] => 0
  | (key, v) :: entries => key.minLength + v.minLength + entriesMinLength entries

end

mutual

/-- No number that is a value, or that a map holds at some depth, goes beyond sixty-four bits. -/
def Value.NumbersFit : Value → Prop
  | .int n => n < Nat.pow 2 64
  | .map entries => EntriesFit entries
  | _ => True

/-- No number in the values of a map goes beyond sixty-four bits. -/
def EntriesFit : List (Value × Value) → Prop
  | [] => True
  | (_, v) :: entries => v.NumbersFit ∧ EntriesFit entries

end

theorem entriesMinLength_perm {entries others : List (Value × Value)} (h : entries.Perm others) :
    entriesMinLength entries = entriesMinLength others := by
  induction h with
  | nil => rfl
  | cons entry _ ih => rw [entriesMinLength, entriesMinLength, ih]
  | swap first second entries =>
      simp only [entriesMinLength]
      omega
  | trans _ _ ih ih' => exact ih.trans ih'

theorem entriesMinLength_le_of_sublist {less entries : List (Value × Value)}
    (h : less.Sublist entries) : entriesMinLength less ≤ entriesMinLength entries := by
  induction h with
  | slnil => exact Nat.le_refl 0
  | cons entry _ ih => exact Nat.le_add_left_of_le ih
  | cons_cons entry _ ih => exact Nat.add_le_add_left ih _

theorem minLength_le_of_mem {entry : Value × Value} {entries : List (Value × Value)}
    (h : entry ∈ entries) : entry.1.minLength + entry.2.minLength ≤ entriesMinLength entries :=
  entriesMinLength_le_of_sublist (List.singleton_sublist.2 h)

theorem Value.one_le_minLength (v : Value) : 1 ≤ v.minLength := by
  cases v with
  | int n => grind [Value.minLength, naturalLength]
  | text s => grind [Value.minLength, textHeadLength]
  | map entries => grind [Value.minLength, mapHeadLength]
  | _ => exact Nat.le_refl 1

theorem length_le_entriesMinLength (entries : List (Value × Value)) :
    entries.length ≤ entriesMinLength entries := by
  induction entries with
  | nil => exact Nat.le_refl 0
  | cons entry entries ih =>
      have hkey := entry.1.one_le_minLength
      rw [entriesMinLength, List.length_cons]
      omega

theorem entriesFit_iff {entries : List (Value × Value)} :
    EntriesFit entries ↔ ∀ entry ∈ entries, entry.2.NumbersFit := by
  induction entries with
  | nil => simp [EntriesFit]
  | cons entry entries ih => rw [EntriesFit, ih, List.forall_mem_cons]

theorem mapHeadLength_mono {n m : Nat} (h : n ≤ m) : mapHeadLength n ≤ mapHeadLength m := by
  unfold mapHeadLength
  grind

/-! ## What is read -/

/-- What a reader gives, and how many bytes it takes for that, satisfy a condition. -/
def Spends {α : Type} (read : List UInt8 → Option (α × List UInt8)) (P : α → Nat → Prop) : Prop :=
  ∀ bs x rest, read bs = some (x, rest) → ∃ n, bs.length = n + rest.length ∧ P x n

namespace Spends

variable {α β : Type} {read : List UInt8 → Option (α × List UInt8)} {P Q : α → Nat → Prop}

theorem imp (h : Spends read P) (hPQ : ∀ x n, P x n → Q x n) : Spends read Q := by
  intro bs x rest hread
  obtain ⟨n, hlen, hx⟩ := h bs x rest hread
  exact ⟨n, hlen, hPQ x n hx⟩

/-- What is given without reading takes no bytes. -/
theorem of_pure {x : α} (h : P x 0) : Spends (fun bs => some (x, bs)) P := by
  intro bs a rest hread
  cases hread
  exact ⟨0, by omega, h⟩

/-- What is found without reading, before more is read, takes no bytes. -/
theorem of_find {γ : Type} {found : Option γ} (next : γ → List UInt8 → Option (α × List UInt8))
    (h : ∀ a ∈ found, Spends (next a) P) : Spends (fun bs => found >>= fun a => next a bs) P := by
  intro bs x rest hread
  obtain ⟨a, ha, hx⟩ := Option.bind_eq_some_iff.1 hread
  exact h a ha bs x rest hx

/-- Two readers one after the other take what both take. -/
theorem bind {R : β → Nat → Prop} (h : Spends read P)
    (next : α → List UInt8 → Option (β × List UInt8))
    (hnext : ∀ x n, P x n → Spends (next x) fun y k => R y (n + k)) :
    Spends (fun bs => read bs >>= fun found => next found.1 found.2) R := by
  intro bs y rest hboth
  obtain ⟨⟨x, middle⟩, hx, hy⟩ := Option.bind_eq_some_iff.1 hboth
  obtain ⟨n, hlen, hP⟩ := h bs x middle hx
  obtain ⟨k, hlen', hR⟩ := hnext x n hP middle y rest hy
  exact ⟨n + k, by omega, hR⟩

/-- A reader behind a byte takes one byte more. -/
theorem behind_byte {b : UInt8} {bs rest : List UInt8} {x : α} (hread : read bs = some (x, rest))
    (h : Spends read fun x n => P x (1 + n)) : ∃ n, (b :: bs).length = n + rest.length ∧ P x n := by
  obtain ⟨n, hlen, hx⟩ := h bs x rest hread
  exact ⟨1 + n, by rw [List.length_cons]; omega, hx⟩

/-- What is given behind a byte takes just this. -/
theorem behind_byte_of_pure {b : UInt8} {bs rest : List UInt8} {x y : α}
    (h : some (x, bs) = some (y, rest)) (hx : P x 1) :
    ∃ n, (b :: bs).length = n + rest.length ∧ P y n := by
  cases h
  exact ⟨1, Nat.add_comm .., hx⟩

end Spends

/-- A value fits in some bytes: no number in it is too large, and it need not take more. -/
structure Value.FitsIn (v : Value) (n : Nat) : Prop where
  numbers : v.NumbersFit
  length : v.minLength ≤ n

/-- The front of a value fits in some bytes. -/
def Head.FitsIn : Head → Nat → Prop
  | .scalar v, n => v.FitsIn n
  | .list _, n => 1 ≤ n
  | .map count, n => mapHeadLength count ≤ n

theorem Value.FitsIn.mono {v : Value} {n m : Nat} (h : v.FitsIn n) (hle : n ≤ m) : v.FitsIn m :=
  ⟨h.numbers, Nat.le_trans h.length hle⟩

theorem Head.FitsIn.mono {head : Head} {n m : Nat} (h : head.FitsIn n) (hle : n ≤ m) :
    head.FitsIn m := by
  cases head with
  | scalar v => exact Value.FitsIn.mono h hle
  | list count => exact Nat.le_trans h hle
  | map count => exact Nat.le_trans h hle

/-! ### Numbers -/

theorem ofBigEndian_lt (bs : List UInt8) : ofBigEndian bs < Nat.pow 256 bs.length := by
  have hfold : ∀ start, bs.foldl (fun n b => n * 256 + b.toNat) start
      < (start + 1) * 256 ^ bs.length := by
    induction bs with
    | nil => simp
    | cons b bs ih =>
        intro start
        have hb : b.toNat < 256 := b.toNat_lt
        calc
          (b :: bs).foldl (fun n b => n * 256 + b.toNat) start
            < (start * 256 + b.toNat + 1) * 256 ^ bs.length := ih _
          _ ≤ ((start + 1) * 256) * 256 ^ bs.length := Nat.mul_le_mul_right _ (by omega)
          _ = (start + 1) * 256 ^ (b :: bs).length := by
            rw [List.length_cons, Nat.pow_succ', Nat.mul_assoc]
  simpa [ofBigEndian] using hfold 0

theorem spends_takeExactly? (width : Nat) :
    Spends (takeExactly? width) fun front n => front.length = n ∧ n = width := by
  intro bs front rest h
  obtain ⟨rfl, hlen⟩ := takeExactly?_eq_some_iff.1 h
  exact ⟨width, by simp [hlen], hlen, rfl⟩

theorem spends_readNat? (width : Nat) :
    Spends (readNat? width) fun n taken => n < Nat.pow 256 width ∧ taken = width := by
  refine (spends_takeExactly? width).bind (fun front rest => some (ofBigEndian front, rest)) ?_
  rintro front taken ⟨rfl, rfl⟩
  exact .of_pure ⟨ofBigEndian_lt front, rfl⟩

theorem spends_readInt? (width : Nat) :
    Spends (readInt? width) fun n taken => n < Nat.pow 256 width ∧ taken = width := by
  refine (spends_readNat? width).bind
    (fun n rest => some (Int.bmod n (Nat.pow 256 width), rest)) ?_
  rintro n taken ⟨hn, rfl⟩
  refine .of_pure ⟨?_, rfl⟩
  rw [Int.bmod_def, Int.emod_eq_of_lt (by omega) (by omega)]
  split <;> omega

/-- A number of one of the widths of the format is written in so many bytes and a format byte. -/
theorem naturalLength_le {width n : Nat} (hwidth : width ∈ [1, 2, 4, 8])
    (h : n < Nat.pow 256 width) : n < Nat.pow 2 64 ∧ naturalLength n ≤ 1 + width := by
  simp only [List.mem_cons, List.not_mem_nil, or_false] at hwidth
  obtain rfl | rfl | rfl | rfl := hwidth <;> simp only [naturalLength, Nat.pow_eq] at h ⊢ <;> grind

/-- A text whose length has one of these widths is written with a head of so many bytes and a
format byte. -/
theorem textHeadLength_le {width n : Nat} (hwidth : width ∈ [1, 2, 4])
    (h : n < Nat.pow 256 width) : textHeadLength n ≤ 1 + width := by
  simp only [List.mem_cons, List.not_mem_nil, or_false] at hwidth
  obtain rfl | rfl | rfl := hwidth <;> simp only [textHeadLength, Nat.pow_eq] at h ⊢ <;> grind

theorem mapHeadLength_le {width n : Nat} (hwidth : width ∈ [2, 4])
    (h : n < Nat.pow 256 width) : mapHeadLength n ≤ 1 + width := by
  simp only [List.mem_cons, List.not_mem_nil, or_false] at hwidth
  obtain rfl | rfl := hwidth <;> simp only [mapHeadLength, Nat.pow_eq] at h ⊢ <;> grind

theorem fitsIn_int {n : Int} {taken : Nat} (hn : n < Nat.pow 2 64)
    (h : naturalLength n.toNat ≤ taken) : (Head.scalar (.int n)).FitsIn taken :=
  ⟨hn, h⟩

theorem spends_readNatural? {width : Nat} (hwidth : width ∈ [1, 2, 4, 8]) :
    Spends (readNatural? width) fun head taken => head.FitsIn (1 + taken) := by
  refine (spends_readNat? width).bind (fun n rest => some (Head.scalar (.int n), rest)) ?_
  rintro n taken ⟨hn, rfl⟩
  obtain ⟨hfits, hlength⟩ := naturalLength_le hwidth hn
  exact .of_pure (fitsIn_int (by omega) hlength)

theorem spends_readSigned? {width : Nat} (hwidth : width ∈ [1, 2, 4, 8]) :
    Spends (readSigned? width) fun head taken => head.FitsIn (1 + taken) := by
  refine (spends_readInt? width).bind (fun n rest => some (Head.scalar (.int n), rest)) ?_
  rintro n taken ⟨hn, rfl⟩
  have hpos : 0 < Nat.pow 256 taken := Nat.pow_pos (by decide)
  obtain ⟨hfits, hlength⟩ := naturalLength_le hwidth (n := n.toNat) (by omega)
  exact .of_pure (fitsIn_int (by omega) hlength)

/-! ### Heads -/

theorem spends_readFloat? (width : Nat) :
    Spends (readFloat? width) fun head taken => head.FitsIn (1 + taken) := by
  refine (spends_readNat? width).bind (fun n rest => some (Head.scalar (.float
    (if width = 4 then (Float32.ofBits n.toUInt32).toFloat.toBits else n.toUInt64)), rest)) ?_
  exact fun n taken _ => .of_pure ⟨trivial, Nat.le_add_right 1 _⟩

theorem spends_readBinary? (length : Nat) :
    Spends (readBinary? length) fun head taken => head.FitsIn (1 + taken) :=
  (spends_takeExactly? length).bind (fun front rest => some (Head.scalar (.binary front), rest))
    fun _ _ _ => .of_pure ⟨trivial, Nat.le_add_right 1 _⟩

theorem spends_readText? (length : Nat) :
    Spends (readText? length) fun head taken => head.FitsIn (textHeadLength length + taken) := by
  refine (spends_takeExactly? length).bind
    (fun front rest => ofUtf8? front >>= fun s => some (Head.scalar (.text s), rest)) ?_
  rintro front taken ⟨hlen, rfl⟩
  refine .of_find (fun s rest => some (Head.scalar (.text s), rest)) fun s hs =>
    .of_pure ⟨trivial, ?_⟩
  rw [Value.minLength, utf8_of_ofUtf8? hs, hlen]
  exact Nat.le_refl _

/-- What is read as a point in time is one. -/
theorem exists_timestamp_of_timestamp? {bs : List UInt8} {v : Value} (h : timestamp? bs = some v) :
    ∃ seconds nanoseconds, v = .timestamp seconds nanoseconds := by
  have hchecked : ∀ (seconds : Int) (nanoseconds : Nat),
      (if nanoseconds < Nat.pow 10 9 then some (Value.timestamp seconds nanoseconds) else none)
        = some v → ∃ seconds nanoseconds, v = .timestamp seconds nanoseconds := by
    intro seconds nanoseconds hv
    split at hv
    · exact ⟨seconds, nanoseconds, (Option.some.inj hv).symm⟩
    · cases hv
  unfold timestamp? at h
  split at h
  · exact hchecked (ofBigEndian bs) 0 h
  · exact hchecked (ofBigEndian bs % Nat.pow 2 34 : Nat) (ofBigEndian bs / Nat.pow 2 34) h
  · obtain ⟨⟨nanoseconds, rest⟩, -, h⟩ := Option.bind_eq_some_iff.1 h
    obtain ⟨⟨seconds, rest⟩, -, h⟩ := Option.bind_eq_some_iff.1 h
    exact hchecked seconds nanoseconds h
  · cases h

theorem spends_readExtension? (length : Nat) :
    Spends (readExtension? length) fun head taken => head.FitsIn (1 + taken) := by
  intro bs head rest h
  simp only [readExtension?, Option.bind_eq_bind, Option.bind_eq_some_iff] at h
  obtain ⟨⟨kind, middle⟩, hkind, ⟨front, rest'⟩, htake, hhead⟩ := h
  obtain ⟨n, hbs, -⟩ := spends_readInt? 1 bs kind middle hkind
  obtain ⟨k, hmiddle, -⟩ := spends_takeExactly? length middle front rest' htake
  have hlength : bs.length = n + k + rest'.length := by rw [hbs, hmiddle, Nat.add_assoc]
  match kind with
  | .ofNat kind =>
    cases hhead
    exact ⟨n + k, hlength, trivial, Nat.le_add_right 1 _⟩
  | .negSucc 0 =>
    obtain ⟨v, hv, hhead⟩ := Option.bind_eq_some_iff.1 hhead
    obtain ⟨seconds, nanoseconds, rfl⟩ := exists_timestamp_of_timestamp? hv
    cases hhead
    exact ⟨n + k, hlength, trivial, Nat.le_add_right 1 _⟩
  | .negSucc (_ + 1) => cases hhead

theorem spends_readSized? (width : Nat)
    {next : Nat → List UInt8 → Option (Head × List UInt8)} {P : Head → Nat → Prop}
    (h : ∀ n < Nat.pow 256 width, Spends (next n) fun head taken => P head (width + taken)) :
    Spends (readSized? width next) P := by
  refine (spends_readNat? width).bind next ?_
  rintro n taken ⟨hn, rfl⟩
  exact h n hn

theorem spends_readSized?_binary (width : Nat) :
    Spends (readSized? width readBinary?) fun head taken => head.FitsIn (1 + taken) :=
  spends_readSized? width fun n _ => (spends_readBinary? n).imp fun _ _ h => h.mono (by omega)

theorem spends_readSized?_extension (width : Nat) :
    Spends (readSized? width readExtension?) fun head taken => head.FitsIn (1 + taken) :=
  spends_readSized? width fun n _ => (spends_readExtension? n).imp fun _ _ h => h.mono (by omega)

theorem spends_readSized?_text {width : Nat} (hwidth : width ∈ [1, 2, 4]) :
    Spends (readSized? width readText?) fun head taken => head.FitsIn (1 + taken) := by
  refine spends_readSized? width fun n hn => (spends_readText? n).imp fun _ _ h => h.mono ?_
  have hhead := textHeadLength_le hwidth hn
  omega

theorem spends_readSized?_list (width : Nat) :
    Spends (readSized? width fun n rest => some (.list n, rest))
      fun head taken => head.FitsIn (1 + taken) :=
  spends_readSized? width fun _ _ => .of_pure (Nat.le_add_right 1 _)

theorem spends_readSized?_map {width : Nat} (hwidth : width ∈ [2, 4]) :
    Spends (readSized? width fun n rest => some (.map n, rest))
      fun head taken => head.FitsIn (1 + taken) :=
  spends_readSized? width fun _ hn => .of_pure (mapHeadLength_le hwidth hn)

/-- The front of a value fits in the bytes that are read for it. -/
theorem spends_readHead? : Spends readHead? Head.FitsIn := by
  intro bs head rest h
  match bs with
  | [] => cases h
  | format :: bs =>
    have hformat : format.toNat < 256 := format.toNat_lt
    unfold readHead? at h
    simp only at h
    split at h
    · next hshort =>
      have hlength : naturalLength format.toNat ≤ 1 := Nat.le_of_eq (if_pos hshort)
      exact Spends.behind_byte_of_pure h (fitsIn_int (by simp only [Nat.pow_eq]; omega) hlength)
    split at h
    · have hlength : mapHeadLength (format.toNat - 0x80) ≤ 1 := Nat.le_of_eq (if_pos (by omega))
      exact Spends.behind_byte_of_pure h hlength
    split at h
    · exact Spends.behind_byte_of_pure h (Nat.le_refl 1)
    split at h
    · have hlength : textHeadLength (format.toNat - 0xa0) = 1 := if_pos (by omega)
      exact Spends.behind_byte h (hlength ▸ spends_readText? _)
    split at h
    · have hlength : naturalLength ((format.toNat : Int) - 0x100).toNat ≤ 1 :=
        Nat.le_of_eq (if_pos (by omega))
      exact Spends.behind_byte_of_pure h (fitsIn_int (by simp only [Nat.pow_eq]; omega) hlength)
    -- What is left is one case for each format byte, in families of a few widths.
    split at h
    case h_1 | h_2 | h_3 => exact Spends.behind_byte_of_pure h ⟨trivial, Nat.le_refl 1⟩
    case h_4 | h_5 | h_6 => exact Spends.behind_byte h (spends_readSized?_binary _)
    case h_7 | h_8 | h_9 => exact Spends.behind_byte h (spends_readSized?_extension _)
    case h_10 | h_11 => exact Spends.behind_byte h (spends_readFloat? _)
    case h_12 | h_13 | h_14 | h_15 => exact Spends.behind_byte h (spends_readNatural? (by decide))
    case h_16 | h_17 | h_18 | h_19 => exact Spends.behind_byte h (spends_readSigned? (by decide))
    case h_20 | h_21 | h_22 | h_23 | h_24 => exact Spends.behind_byte h (spends_readExtension? _)
    case h_25 | h_26 | h_27 => exact Spends.behind_byte h (spends_readSized?_text (by decide))
    case h_28 | h_29 => exact Spends.behind_byte h (spends_readSized?_list _)
    case h_30 | h_31 => exact Spends.behind_byte h (spends_readSized?_map (by decide))
    case h_32 => cases h

/-! ### Containers -/

/-- Entries of a map fit in some places and bytes: no number in them is too large, and they need
not take more. -/
structure EntriesFitIn (entries : List (Value × Value)) (places bytes : Nat) : Prop where
  numbers : EntriesFit entries
  places : entries.length ≤ places
  length : entriesMinLength entries ≤ bytes

theorem length_putEntry_le (key v : Value) (entries : List (Value × Value)) :
    (putEntry key v entries).length ≤ entries.length + 1 := by
  induction entries with
  | nil => exact Nat.le_refl 1
  | cons entry entries ih => grind [putEntry]

theorem entriesMinLength_putEntry_le (key v : Value) (entries : List (Value × Value)) :
    entriesMinLength (putEntry key v entries)
      ≤ entriesMinLength entries + (key.minLength + v.minLength) := by
  induction entries with
  | nil => simp [putEntry, entriesMinLength]
  | cons entry entries ih => grind [putEntry, entriesMinLength]

theorem entriesFit_putEntry {key v : Value} {entries : List (Value × Value)}
    (hv : v.NumbersFit) (h : EntriesFit entries) : EntriesFit (putEntry key v entries) := by
  induction entries with
  | nil => exact ⟨hv, trivial⟩
  | cons entry entries ih => grind [putEntry, EntriesFit]

namespace EntriesFitIn

variable {entries less : List (Value × Value)} {places bytes : Nat}

theorem nil : EntriesFitIn [] 0 0 := ⟨trivial, Nat.le_refl 0, Nat.le_refl 0⟩

/-- An entry that is put takes one place and its own bytes more. -/
theorem putEntry (h : EntriesFitIn entries places bytes) (key : Value) {v : Value}
    (hv : v.NumbersFit) :
    EntriesFitIn (putEntry key v entries) (places + 1) (bytes + (key.minLength + v.minLength)) where
  numbers := entriesFit_putEntry hv h.numbers
  places := Nat.le_trans (length_putEntry_le key v entries) (Nat.add_le_add_right h.places 1)
  length :=
    Nat.le_trans (entriesMinLength_putEntry_le key v entries) (Nat.add_le_add_right h.length _)

theorem subperm (h : EntriesFitIn entries places bytes) (hless : less.Subperm entries) :
    EntriesFitIn less places bytes where
  numbers := entriesFit_iff.2 fun entry hmem => entriesFit_iff.1 h.numbers entry (hless.subset hmem)
  places := Nat.le_trans hless.length_le h.places
  length := by
    obtain ⟨between, hperm, hsublist⟩ := hless
    rw [← entriesMinLength_perm hperm]
    exact Nat.le_trans (entriesMinLength_le_of_sublist hsublist) h.length

theorem map (h : EntriesFitIn entries places bytes) :
    (Value.map entries).FitsIn (mapHeadLength places + bytes) :=
  ⟨h.numbers, Nat.add_le_add (mapHeadLength_mono h.places) h.length⟩

end EntriesFitIn

theorem spends_readItems? {item : ItemReader} {P : Value → Nat → Prop} (h : Spends item P)
    (count : Nat) : Spends (readItems? item count) fun _ _ => True := by
  induction count with
  | zero => exact .of_pure trivial
  | succ count ih =>
      refine h.bind (fun v bs => readItems? item count bs >>= fun found =>
        some (v :: found.1, found.2)) fun v _ _ => ?_
      exact ih.bind (fun vs bs => some (v :: vs, bs)) fun _ _ _ => .of_pure trivial

/-- Entries fit in the bytes that are read for them, on top of those found before. -/
theorem spends_readEntries? {item : ItemReader} (h : Spends item Value.FitsIn) (count : Nat)
    {found : List (Value × Value)} {places bytes : Nat} (hfound : EntriesFitIn found places bytes) :
    Spends (readEntries? item count found) fun entries n =>
      EntriesFitIn entries (places + count) (bytes + n) := by
  induction count generalizing found places bytes with
  | zero => exact .of_pure hfound
  | succ count ih =>
      refine h.bind (fun key bs => guard (sameKey key key = true) >>= fun _ =>
        item bs >>= fun read => readEntries? item count (putEntry key read.1 found) read.2)
        fun key n hkey => ?_
      refine .of_find (fun _ bs => item bs >>= fun read =>
        readEntries? item count (putEntry key read.1 found) read.2) fun _ _ => ?_
      refine h.bind (fun v bs => readEntries? item count (putEntry key v found) bs)
        fun v k hv => ?_
      refine (ih (hfound.putEntry key hv.numbers)).imp fun entries m hentries => ?_
      have hplaces := hentries.places
      have hlength := hentries.length
      have hkeyLength := hkey.length
      have hvLength := hv.length
      exact ⟨hentries.numbers, by omega, by omega⟩

/-- The items or entries of a value, after its head. -/
def readBody? : (depth : Nat) → Head → ItemReader
  | _, .scalar v, bs => some (v, bs)
  | 0, _, _ => none
  | depth + 1, .list count, bs =>
    readItems? (read? depth) count bs >>= fun found => some (.list found.1, found.2)
  | depth + 1, .map count, bs =>
    readEntries? (read? depth) count [] bs >>= fun found => some (.map found.1, found.2)

theorem read?_eq (depth : Nat) :
    read? depth = fun bs => readHead? bs >>= fun found => readBody? depth found.1 found.2 := by
  funext bs
  cases depth <;> rw [read?] <;> congr <;> funext ⟨head, rest⟩ <;> cases head <;> rfl

/-- **Every value that is read fits in the bytes it is read from.** -/
theorem spends_read? (depth : Nat) : Spends (read? depth) Value.FitsIn := by
  induction depth with
  | zero =>
      rw [read?_eq]
      refine spends_readHead?.bind (readBody? 0) fun head n hhead => ?_
      cases head with
      | scalar v => exact .of_pure hhead
      | list | map => exact fun bs v rest h => by cases h
  | succ depth ih =>
      rw [read?_eq]
      refine spends_readHead?.bind (readBody? (depth + 1)) fun head n hhead => ?_
      cases head with
      | scalar v => exact .of_pure hhead
      | list count =>
          refine (spends_readItems? ih count).bind
            (fun items rest => some (Value.list items, rest)) fun items k _ => ?_
          exact .of_pure ⟨trivial, Nat.le_add_right_of_le hhead⟩
      | map count =>
          refine (spends_readEntries? ih count .nil).bind
            (fun entries rest => some (Value.map entries, rest)) fun entries k hentries => ?_
          rw [Nat.zero_add, Nat.zero_add] at hentries
          exact .of_pure (hentries.map.mono (Nat.add_le_add_right hhead k))

theorem fitsIn_of_ofBytes? {bs : List UInt8} {v : Value} (h : ofBytes? bs = some v) :
    v.FitsIn bs.length := by
  unfold ofBytes? at h
  split at h
  · next hread =>
    cases h
    obtain ⟨n, hlen, hfits⟩ := spends_read? maxDepth bs v [] hread
    rwa [hlen]
  · cases h

/-! ## What is written -/

/-- Every form of a value that is written is as short as can be. -/
def Value.IsExact (v : Value) : Prop := ∀ bs, toBytes? v = some bs → bs.length = v.minLength

theorem isExact_natural (n : Nat) : (Value.int n).IsExact := by
  intro bs h
  have hlength : (Value.int n).minLength = naturalLength n := rfl
  rw [hlength]
  simp only [toBytes?, intBytes?] at h
  unfold naturalLength
  grind [tagged, length_bigEndian]

theorem length_textHead? {n : Nat} {head : List UInt8} (h : textHead? n = some head) :
    head.length = textHeadLength n := by
  unfold textHead? at h
  unfold textHeadLength
  grind [tagged, length_bigEndian]

theorem length_mapHead? {n : Nat} {head : List UInt8} (h : mapHead? n = some head) :
    head.length = mapHeadLength n := by
  unfold mapHead? at h
  unfold mapHeadLength
  grind [tagged, length_bigEndian]

theorem isExact_text (s : String) : (Value.text s).IsExact := by
  intro bs h
  obtain ⟨head, hhead, rfl⟩ := Option.map_eq_some_iff.1 h
  rw [List.length_append, length_textHead? hhead, Value.minLength]

theorem length_entriesToBytes? {entries : List (Value × Value)} {bs : List UInt8}
    (hexact : ∀ entry ∈ entries, entry.1.IsExact ∧ entry.2.IsExact)
    (h : entriesToBytes? entries = some bs) : bs.length = entriesMinLength entries := by
  induction entries generalizing bs with
  | nil =>
      cases h
      rfl
  | cons entry entries ih =>
      simp only [entriesToBytes?, Option.bind_eq_bind, Option.bind_eq_some_iff] at h
      obtain ⟨key, hkey, front, hfront, back, hback, hbs⟩ := h
      cases hbs
      rw [List.forall_mem_cons] at hexact
      rw [List.length_append, List.length_append, hexact.1.1 key hkey, hexact.1.2 front hfront,
        ih hexact.2 hback, entriesMinLength]

/-- A map of values that are written as short as can be is written so. -/
theorem isExact_map {entries : List (Value × Value)}
    (hexact : ∀ entry ∈ entries, entry.1.IsExact ∧ entry.2.IsExact) :
    (Value.map entries).IsExact := by
  intro bs h
  simp only [toBytes?, Option.bind_eq_bind, Option.bind_eq_some_iff] at h
  obtain ⟨head, hhead, body, hbody, hbs⟩ := h
  cases hbs
  rw [List.length_append, length_mapHead? hhead, length_entriesToBytes? hexact hbody,
    Value.minLength]

end Pinyin.MessagePack
