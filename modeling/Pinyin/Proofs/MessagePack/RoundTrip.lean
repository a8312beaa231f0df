import Pinyin.MessagePack.Reader
import Pinyin.MessagePack.Writer

/-!
# Pinyin.Proofs.MessagePack.RoundTrip

Values are read back from their bytes, whatever follows these.

* `readHead?_intBytes?` and its like — the front of a value is read back;
* `isSome_toBytes?_map_iff` and its like — what fits the format;
* `Portable` — the values that are read back: no extensions, keys that are texts or binaries and
  differ from each other, and a bound on the nesting;
* `Portable.readsBack` — such a value is read back;
* `ofBytes?_toBytes?` — and so is one whose bytes are all there is.
-/

namespace Pinyin.MessagePack

/-! ## Numbers -/

theorem readNat?_bigEndian {width n : Nat} (h : n < Nat.pow 256 width) (rest : List UInt8) :
    readNat? width (bigEndian width n ++ rest) = some (n, rest) := by
  simp [readNat?, takeExactly?_append (length_bigEndian width n), ofBigEndian_bigEndian h]

theorem readInt?_bigEndian {width n : Nat} (h : n < Nat.pow 256 width) (rest : List UInt8) :
    readInt? width (bigEndian width n ++ rest) = some (Int.bmod n (Nat.pow 256 width), rest) := by
  simp [readInt?, readNat?_bigEndian h]

theorem readSized?_bigEndian {width n : Nat} (h : n < Nat.pow 256 width)
    (next : Nat → List UInt8 → Option (Head × List UInt8)) (rest : List UInt8) :
    readSized? width next (bigEndian width n ++ rest) = next n rest := by
  simp [readSized?, readNat?_bigEndian h]

theorem readNatural?_bigEndian {width n : Nat} (h : n < Nat.pow 256 width) (rest : List UInt8) :
    readNatural? width (bigEndian width n ++ rest) = some (.scalar (.int n), rest) := by
  simp [readNatural?, readNat?_bigEndian h]

/-- A negative number is read back from its two's complement. -/
theorem readSigned?_bigEndian {width n : Nat} (h : 2 * (n + 1) ≤ Nat.pow 256 width)
    (rest : List UInt8) :
    readSigned? width (bigEndian width (Nat.pow 256 width - 1 - n) ++ rest)
      = some (.scalar (.int (.negSucc n)), rest) := by
  have hlt : Nat.pow 256 width - 1 - n < Nat.pow 256 width := by omega
  have hbmod : Int.bmod ((Nat.pow 256 width - 1 - n : Nat) : Int) (Nat.pow 256 width)
      = .negSucc n := by
    rw [Int.bmod_def, Int.emod_eq_of_lt (by omega) (by omega)]
    split <;> omega
  rw [readSigned?, readInt?_bigEndian hlt, hbmod]
  rfl

/-! ## Short heads -/

section Short

variable {base n : Nat} (bs : List UInt8)

theorem toNat_ofNat_add (h : base + n < 256) : (UInt8.ofNat (base + n)).toNat = base + n :=
  UInt8.toNat_ofNat_of_lt' h

theorem readHead?_shortNatural (h : n < 0x80) :
    readHead? (UInt8.ofNat n :: bs) = some (.scalar (.int n), bs) := by
  have hcode : (UInt8.ofNat n).toNat = n := UInt8.toNat_ofNat_of_lt' (Nat.lt_trans h (by decide))
  simp [readHead?, hcode, h]

theorem readHead?_shortMap (h : n < 0x10) :
    readHead? (UInt8.ofNat (0x80 + n) :: bs) = some (.map n, bs) := by
  have hcode := @toNat_ofNat_add 0x80 n (by omega)
  simp only [readHead?, hcode]
  rw [if_neg (by omega), if_pos (by omega), Nat.add_sub_cancel_left]

theorem readHead?_shortList (h : n < 0x10) :
    readHead? (UInt8.ofNat (0x90 + n) :: bs) = some (.list n, bs) := by
  have hcode := @toNat_ofNat_add 0x90 n (by omega)
  simp only [readHead?, hcode]
  rw [if_neg (by omega), if_neg (by omega), if_pos (by omega), Nat.add_sub_cancel_left]

theorem readHead?_shortText (h : n < 0x20) :
    readHead? (UInt8.ofNat (0xa0 + n) :: bs) = readText? n bs := by
  have hcode := @toNat_ofNat_add 0xa0 n (by omega)
  simp only [readHead?, hcode]
  rw [if_neg (by omega), if_neg (by omega), if_neg (by omega), if_pos (by omega),
    Nat.add_sub_cancel_left]

theorem readHead?_shortNegative (h : n < 0x20) :
    readHead? (UInt8.ofNat (0xff - n) :: bs) = some (.scalar (.int (.negSucc n)), bs) := by
  have hcode : (UInt8.ofNat (0xff - n)).toNat = 0xff - n :=
    UInt8.toNat_ofNat_of_lt' (Nat.lt_of_le_of_lt (Nat.sub_le ..) (by decide))
  have hvalue : ((0xff - n : Nat) : Int) - 0x100 = .negSucc n := by omega
  simp only [readHead?, hcode]
  rw [if_neg (by omega), if_neg (by omega), if_neg (by omega), if_neg (by omega),
    if_pos (by omega), hvalue]

end Short

/-! ## Heads -/

/-- An integer is read back. -/
theorem readHead?_intBytes? {n : Int} {bs : List UInt8} (h : intBytes? n = some bs)
    (rest : List UInt8) : readHead? (bs ++ rest) = some (.scalar (.int n), rest) := by
  cases n with
  | ofNat n =>
      simp only [intBytes?] at h
      split at h
      · next hn =>
        cases h
        exact readHead?_shortNatural rest hn
      · repeat' split at h
        all_goals cases h
        all_goals next hn => exact readNatural?_bigEndian hn rest
  | negSucc n =>
      simp only [intBytes?] at h
      split at h
      · next hn =>
        cases h
        exact readHead?_shortNegative rest hn
      · repeat' split at h
        all_goals cases h
        all_goals next hn => exact readSigned?_bigEndian (Nat.mul_le_mul_left 2 hn) rest

/-- The head of a text announces its length. -/
theorem readHead?_textHead? {n : Nat} {head : List UInt8} (h : textHead? n = some head)
    (rest : List UInt8) : readHead? (head ++ rest) = readText? n rest := by
  unfold textHead? at h
  split at h
  · next hn =>
    cases h
    exact readHead?_shortText rest hn
  · repeat' split at h
    all_goals cases h
    all_goals next hn => exact readSized?_bigEndian hn readText? rest

/-- The head of a binary announces its length. -/
theorem readHead?_binaryHead? {n : Nat} {head : List UInt8} (h : binaryHead? n = some head)
    (rest : List UInt8) : readHead? (head ++ rest) = readBinary? n rest := by
  unfold binaryHead? at h
  repeat' split at h
  all_goals cases h
  all_goals next hn => exact readSized?_bigEndian hn readBinary? rest

/-- The head of a list announces how many items follow. -/
theorem readHead?_listHead? {n : Nat} {head : List UInt8} (h : listHead? n = some head)
    (rest : List UInt8) : readHead? (head ++ rest) = some (.list n, rest) := by
  unfold listHead? at h
  split at h
  · next hn =>
    cases h
    exact readHead?_shortList rest hn
  · repeat' split at h
    all_goals cases h
    all_goals next hn => exact readSized?_bigEndian hn (fun n rest => some (.list n, rest)) rest

/-- The head of a map announces how many entries follow. -/
theorem readHead?_mapHead? {n : Nat} {head : List UInt8} (h : mapHead? n = some head)
    (rest : List UInt8) : readHead? (head ++ rest) = some (.map n, rest) := by
  unfold mapHead? at h
  split at h
  · next hn =>
    cases h
    exact readHead?_shortMap rest hn
  · repeat' split at h
    all_goals cases h
    all_goals next hn => exact readSized?_bigEndian hn (fun n rest => some (.map n, rest)) rest

/-! ## What fits -/

theorem isSome_intBytes?_iff {n : Int} :
    (intBytes? n).isSome ↔ -(Nat.pow 2 63 : Int) ≤ n ∧ n < Nat.pow 2 64 := by
  cases n with
  | ofNat n =>
      simp only [intBytes?, Nat.pow_eq]
      repeat' split
      all_goals simp
      all_goals omega
  | negSucc n =>
      simp only [intBytes?, Nat.pow_eq]
      repeat' split
      all_goals simp
      all_goals omega

theorem isSome_textHead?_iff {n : Nat} : (textHead? n).isSome ↔ n < Nat.pow 2 32 := by
  simp only [textHead?, Nat.pow_eq]
  repeat' split
  all_goals simp
  all_goals omega

theorem isSome_binaryHead?_iff {n : Nat} : (binaryHead? n).isSome ↔ n < Nat.pow 2 32 := by
  simp only [binaryHead?, Nat.pow_eq]
  repeat' split
  all_goals simp
  all_goals omega

theorem isSome_listHead?_iff {n : Nat} : (listHead? n).isSome ↔ n < Nat.pow 2 32 := by
  simp only [listHead?, Nat.pow_eq]
  repeat' split
  all_goals simp
  all_goals omega

theorem isSome_mapHead?_iff {n : Nat} : (mapHead? n).isSome ↔ n < Nat.pow 2 32 := by
  simp only [mapHead?, Nat.pow_eq]
  repeat' split
  all_goals simp
  all_goals omega

theorem isSome_toBytes?_int_iff {n : Int} :
    (toBytes? (.int n)).isSome ↔ -(Nat.pow 2 63 : Int) ≤ n ∧ n < Nat.pow 2 64 := by
  rw [toBytes?, isSome_intBytes?_iff]

theorem isSome_toBytes?_text_iff {s : String} :
    (toBytes? (.text s)).isSome ↔ (utf8 s).length < Nat.pow 2 32 := by
  rw [toBytes?, Option.isSome_map, isSome_textHead?_iff]

theorem isSome_toBytes?_binary_iff {bs : List UInt8} :
    (toBytes? (.binary bs)).isSome ↔ bs.length < Nat.pow 2 32 := by
  rw [toBytes?, Option.isSome_map, isSome_binaryHead?_iff]

theorem isSome_itemsToBytes?_iff {items : List Value} :
    (itemsToBytes? items).isSome ↔ ∀ v ∈ items, (toBytes? v).isSome := by
  induction items with
  | nil => simp [itemsToBytes?]
  | cons v items ih =>
      rw [List.forall_mem_cons, ← ih]
      cases hv : toBytes? v <;> cases hvs : itemsToBytes? items <;> simp [itemsToBytes?, hv, hvs]

/-- A list fits if the number of its items does, and each of them. -/
theorem isSome_toBytes?_list_iff {items : List Value} :
    (toBytes? (.list items)).isSome ↔ items.length < Nat.pow 2 32 ∧
      ∀ v ∈ items, (toBytes? v).isSome := by
  rw [← isSome_listHead?_iff, ← isSome_itemsToBytes?_iff]
  cases hhead : listHead? items.length <;> cases hbody : itemsToBytes? items <;>
    simp [toBytes?, hhead, hbody]

theorem isSome_entriesToBytes?_iff {entries : List (Value × Value)} :
    (entriesToBytes? entries).isSome ↔
      ∀ entry ∈ entries, (toBytes? entry.1).isSome ∧ (toBytes? entry.2).isSome := by
  induction entries with
  | nil => simp [entriesToBytes?]
  | cons entry entries ih =>
      obtain ⟨k, v⟩ := entry
      rw [List.forall_mem_cons, ← ih]
      cases hk : toBytes? k <;> cases hv : toBytes? v <;> cases hes : entriesToBytes? entries <;>
        simp [entriesToBytes?, hk, hv, hes]

/-- A map fits if the number of its entries does, and each key and each value. -/
theorem isSome_toBytes?_map_iff {entries : List (Value × Value)} :
    (toBytes? (.map entries)).isSome ↔ entries.length < Nat.pow 2 32 ∧
      ∀ entry ∈ entries, (toBytes? entry.1).isSome ∧ (toBytes? entry.2).isSome := by
  rw [← isSome_mapHead?_iff, ← isSome_entriesToBytes?_iff]
  cases hhead : mapHead? entries.length <;> cases hbody : entriesToBytes? entries <;>
    simp [toBytes?, hhead, hbody]

/-! ## Scalars -/

/-- A reader reads a value back from its bytes, whatever follows these. -/
def ReadsBack (item : ItemReader) (v : Value) : Prop :=
  ∀ bs, toBytes? v = some bs → ∀ rest, item (bs ++ rest) = some (v, rest)

/-- A scalar whose head is read back is read back. -/
theorem readsBack_of_scalar {depth : Nat} {v : Value}
    (h : ∀ bs, toBytes? v = some bs → ∀ rest, readHead? (bs ++ rest) = some (.scalar v, rest)) :
    ReadsBack (read? depth) v := by
  intro bs hbs rest
  cases depth <;> simp [read?, h bs hbs rest]

/-! ## Containers -/

theorem readItems?_itemsToBytes? {item : ItemReader} {items : List Value} {bs : List UInt8}
    (hitems : ∀ v ∈ items, ReadsBack item v) (h : itemsToBytes? items = some bs)
    (rest : List UInt8) :
    readItems? item items.length (bs ++ rest) = some (items, rest) := by
  induction items generalizing bs with
  | nil =>
      cases h
      rfl
  | cons v items ih =>
      simp only [itemsToBytes?, Option.bind_eq_bind, Option.bind_eq_some_iff] at h
      obtain ⟨front, hfront, back, hback, hbs⟩ := h
      cases hbs
      rw [List.forall_mem_cons] at hitems
      have hv := hitems.1 front hfront (back ++ rest)
      have hrest := ih hitems.2 hback
      simp [readItems?, List.append_assoc, hv, hrest]

/-- An entry with a new key is put at the end. -/
theorem putEntry_of_new {key v : Value} {entries : List (Value × Value)}
    (h : ∀ entry ∈ entries, sameKey entry.1 key = false) :
    putEntry key v entries = entries ++ [(key, v)] := by
  induction entries with
  | nil => rfl
  | cons entry entries ih =>
      rw [List.forall_mem_cons] at h
      simp [putEntry, h.1, ih h.2]

/-- The keys of a map are texts or binaries, each of them once. -/
structure KeysDistinct (entries : List (Value × Value)) : Prop where
  keys : ∀ entry ∈ entries, sameKey entry.1 entry.1 = true
  distinct : entries.Pairwise fun first second => sameKey first.1 second.1 = false

/-- An entry whose key and value are read is put among those that were found. -/
theorem readEntries?_succ_of_read {item : ItemReader} {key v : Value} {bs middle rest : List UInt8}
    (hkey : item bs = some (key, middle)) (hself : sameKey key key = true)
    (hv : item middle = some (v, rest)) (count : Nat) (found : List (Value × Value)) :
    readEntries? item (count + 1) found bs
      = readEntries? item count (putEntry key v found) rest := by
  have hguard : (guard (sameKey key key = true) : Option Unit) = some () := if_pos hself
  calc
    readEntries? item (count + 1) found bs
      = item bs >>= fun first => guard (sameKey first.1 first.1 = true) >>= fun _ =>
          item first.2 >>= fun second =>
            readEntries? item count (putEntry first.1 second.1 found) second.2 := rfl
    _ = guard (sameKey key key = true) >>= fun _ => item middle >>= fun second =>
          readEntries? item count (putEntry key second.1 found) second.2 := by rw [hkey]; rfl
    _ = readEntries? item count (putEntry key v found) rest := by rw [hguard, hv]; rfl

theorem readEntries?_entriesToBytes? {item : ItemReader} (found : List (Value × Value))
    {entries : List (Value × Value)} {bs : List UInt8} (hkeys : KeysDistinct (found ++ entries))
    (hentries : ∀ entry ∈ entries, ReadsBack item entry.1 ∧ ReadsBack item entry.2)
    (h : entriesToBytes? entries = some bs) (rest : List UInt8) :
    readEntries? item entries.length found (bs ++ rest) = some (found ++ entries, rest) := by
  induction entries generalizing found bs with
  | nil =>
      cases h
      rw [List.append_nil]
      rfl
  | cons entry entries ih =>
      obtain ⟨k, v⟩ := entry
      simp only [entriesToBytes?, Option.bind_eq_bind, Option.bind_eq_some_iff] at h
      obtain ⟨key, hkey, front, hfront, back, hback, hbs⟩ := h
      cases hbs
      rw [List.forall_mem_cons] at hentries
      have hk := hentries.1.1 key hkey (front ++ (back ++ rest))
      have hv := hentries.1.2 front hfront (back ++ rest)
      have hself : sameKey k k = true := hkeys.keys (k, v) (by simp)
      have hnew : ∀ entry ∈ found, sameKey entry.1 k = false := fun entry hentry =>
        (List.pairwise_append.1 hkeys.distinct).2.2 entry hentry (k, v) List.mem_cons_self
      rw [List.append_cons] at hkeys
      have hrest := ih (found ++ [(k, v)]) hkeys hentries.2 hback
      rw [List.append_assoc, List.singleton_append] at hrest
      rw [List.length_cons, List.append_assoc, List.append_assoc,
        readEntries?_succ_of_read hk hself hv, putEntry_of_new hnew, hrest]

/-! ## Values -/

/-- A value that every reader understands, with containers that nest at most `depth` deep: it
has no extensions, and the keys of its maps are distinct. -/
inductive Portable : (depth : Nat) → Value → Prop where
  | nil {depth : Nat} : Portable depth .nil
  | bool {depth : Nat} (b : Bool) : Portable depth (.bool b)
  | int {depth : Nat} (n : Int) : Portable depth (.int n)
  | float {depth : Nat} (bits : UInt64) : Portable depth (.float bits)
  | text {depth : Nat} (s : String) : Portable depth (.text s)
  | binary {depth : Nat} (bs : List UInt8) : Portable depth (.binary bs)
  | list {depth : Nat} {items : List Value} (hitems : ∀ v ∈ items, Portable depth v) :
      Portable (depth + 1) (.list items)
  | map {depth : Nat} {entries : List (Value × Value)} (hkeys : KeysDistinct entries)
      (hvalues : ∀ entry ∈ entries, Portable depth entry.2) :
      Portable (depth + 1) (.map entries)

theorem readsBack_text (depth : Nat) (s : String) : ReadsBack (read? depth) (.text s) := by
  refine readsBack_of_scalar fun bs h rest => ?_
  simp only [toBytes?, Option.map_eq_some_iff] at h
  obtain ⟨head, hhead, rfl⟩ := h
  rw [List.append_assoc, readHead?_textHead? hhead]
  simp [readText?, takeExactly?_append rfl, ofUtf8?_utf8]

theorem readsBack_binary (depth : Nat) (bs : List UInt8) :
    ReadsBack (read? depth) (.binary bs) := by
  refine readsBack_of_scalar fun bs h rest => ?_
  simp only [toBytes?, Option.map_eq_some_iff] at h
  obtain ⟨head, hhead, rfl⟩ := h
  rw [List.append_assoc, readHead?_binaryHead? hhead]
  simp [readBinary?, takeExactly?_append rfl]

theorem readsBack_float (depth : Nat) (bits : UInt64) :
    ReadsBack (read? depth) (.float bits) := by
  refine readsBack_of_scalar fun bs h rest => ?_
  cases h
  have hread : readNat? 8 (bigEndian 8 bits.toNat ++ rest) = some (bits.toNat, rest) :=
    readNat?_bigEndian (UInt64.toNat_lt bits) rest
  have hfloat : readHead? (tagged 0xcb 8 bits.toNat ++ rest)
      = readFloat? 8 (bigEndian 8 bits.toNat ++ rest) := rfl
  rw [hfloat, readFloat?, hread]
  simp

theorem readsBack_of_sameKey (depth : Nat) {key : Value} (h : sameKey key key = true) :
    ReadsBack (read? depth) key := by
  cases key with
  | text s => exact readsBack_text depth s
  | binary bs => exact readsBack_binary depth bs
  | _ => cases h

/-- **A portable value is read back** from its bytes, and what follows these is left. -/
theorem Portable.readsBack {depth : Nat} {v : Value} (hv : Portable depth v) :
    ReadsBack (read? depth) v := by
  induction hv with
  | nil =>
      refine readsBack_of_scalar fun bs h rest => ?_
      cases h
      rfl
  | bool b =>
      refine readsBack_of_scalar fun bs h rest => ?_
      cases h
      cases b <;> rfl
  | int n => exact readsBack_of_scalar fun bs h rest => readHead?_intBytes? h rest
  | float bits => exact readsBack_float _ bits
  | text s => exact readsBack_text _ s
  | binary bs => exact readsBack_binary _ bs
  | list hitems ih =>
      intro bs h rest
      simp only [toBytes?, Option.bind_eq_bind, Option.bind_eq_some_iff] at h
      obtain ⟨head, hhead, body, hbody, hbs⟩ := h
      cases hbs
      have hread := readHead?_listHead? hhead (body ++ rest)
      have hbody := readItems?_itemsToBytes? ih hbody rest
      simp [read?, List.append_assoc, hread, hbody]
  | @map depth entries hkeys hvalues ih =>
      intro bs h rest
      simp only [toBytes?, Option.bind_eq_bind, Option.bind_eq_some_iff] at h
      obtain ⟨head, hhead, body, hbody, hbs⟩ := h
      cases hbs
      have hread := readHead?_mapHead? hhead (body ++ rest)
      have hentries : ∀ entry ∈ entries,
          ReadsBack (read? depth) entry.1 ∧ ReadsBack (read? depth) entry.2 :=
        fun entry hentry => ⟨readsBack_of_sameKey depth (hkeys.keys entry hentry), ih entry hentry⟩
      have hbody : readEntries? (read? depth) entries.length [] (body ++ rest)
          = some (entries, rest) := readEntries?_entriesToBytes? [] hkeys hentries hbody rest
      simp [read?, List.append_assoc, hread, hbody]

/-- A portable value is read back from its bytes. -/
theorem ofBytes?_toBytes? {v : Value} (hv : Portable maxDepth v) {bs : List UInt8}
    (h : toBytes? v = some bs) : ofBytes? bs = some v := by
  have hread := hv.readsBack bs h []
  rw [List.append_nil] at hread
  rw [ofBytes?, hread]

end Pinyin.MessagePack
