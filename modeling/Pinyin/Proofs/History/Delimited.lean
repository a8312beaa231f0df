import Pinyin.History.File

/-!
# Pinyin.Proofs.History.Delimited

Readers that know where what they read ends.

* `SourceReader.Takes` — a reader takes exactly some bytes: it gives the same whatever follows
  them, and refuses every part of them as cut short;
* `SourceReader.IsDelimited` — whatever a reader accepts begins with such bytes;
* `Takes.andThen`, `IsDelimited.andThen` — readers one after the other;
* `isDelimited_readStream` — the stream of a history;
* `load_append_of_takes`, `load_take_of_takes` — what is loaded, and what is refused.
-/

namespace Pinyin

namespace SourceReader

variable {α β : Type}

/-- A reader refuses some bytes because they end too early. -/
def RefusesAsCut (read : SourceReader α) (bs : List UInt8) : Prop :=
  ∃ wanted got, got < wanted ∧ read (.ofBytes bs) = .error (.truncatedHistory wanted got)

/-- A reader takes exactly some bytes for a thing: whatever follows them is left, and no part of
them is enough. -/
structure Takes (read : SourceReader α) (front : List UInt8) (x : α) : Prop where
  accepts : ∀ rest, read (.ofBytes (front ++ rest)) = .ok (x, .ofBytes rest)
  refuses : ∀ k < front.length, read.RefusesAsCut (front.take k)

/-- Whatever a reader accepts begins with bytes that it takes exactly. -/
def IsDelimited (read : SourceReader α) : Prop :=
  ∀ bs x source, read (.ofBytes bs) = .ok (x, source) →
    ∃ front rest, bs = front ++ rest ∧ source = .ofBytes rest ∧ read.Takes front x

/-- One thing after the other. -/
def andThen (read : SourceReader α) (next : α → SourceReader β) : SourceReader β :=
  fun source => read source >>= fun found => next found.1 found.2

/-- A thing that is found without reading, or the lack of it. -/
def give (x : Except Error α) : SourceReader α := fun source => do pure (← x, source)

theorem andThen_of_ok {read : SourceReader α} {next : α → SourceReader β} {source rest : Source}
    {x : α} (h : read source = .ok (x, rest)) : read.andThen next source = next x rest := by
  simp [andThen, h, bind, Except.bind]

/-! ## Single readers -/

theorem takes_take {n : Nat} {front : List UInt8} (h : front.length = n) :
    Takes (fun source => source.take n) front front where
  accepts rest := by
    simp [Source.take, Source.ofBytes, WithinLimit, takeExactly?_append h]
  refuses k hk := by
    have hlen : (front.take k).length = k := List.length_take_of_le (by omega)
    refine ⟨n, k, by omega, ?_⟩
    have hnone : takeExactly? n (front.take k) = none := by
      rw [takeExactly?, if_neg (by rw [List.length_take]; omega)]
    simp [Source.take, Source.ofBytes, WithinLimit, hnone, hlen]

theorem isDelimited_take (n : Nat) : IsDelimited fun source => source.take n := by
  intro bs front source h
  cases htake : takeExactly? n bs with
  | none => simp [Source.take, Source.ofBytes, WithinLimit, htake] at h
  | some found =>
      obtain ⟨found, rest⟩ := found
      obtain ⟨rfl, hlen⟩ := takeExactly?_eq_some_iff.1 htake
      simp [Source.take, Source.ofBytes, WithinLimit, htake] at h
      obtain ⟨rfl, rfl⟩ := h
      exact ⟨found, rest, rfl, rfl, takes_take hlen⟩

theorem takes_give {x : Except Error α} {a : α} (h : x = .ok a) :
    Takes (give x) [] a where
  accepts rest := by simp [give, h, bind, Except.bind, pure, Except.pure]
  refuses k hk := by simp at hk

theorem isDelimited_give (x : Except Error α) : IsDelimited (give x) := by
  intro bs a source h
  cases x with
  | error e => cases h
  | ok a' =>
      cases h
      exact ⟨[], bs, rfl, rfl, takes_give rfl⟩

/-! ## Readers one after the other -/

/-- Two readers take exactly what the one and then the other takes. -/
theorem Takes.andThen {read : SourceReader α} {next : α → SourceReader β}
    {front back : List UInt8} {x : α} {y : β} (hread : read.Takes front x)
    (hnext : (next x).Takes back y) : (read.andThen next).Takes (front ++ back) y where
  accepts rest := by
    rw [List.append_assoc, andThen_of_ok (hread.accepts (back ++ rest)), hnext.accepts rest]
  refuses k hk := by
    by_cases hfront : k < front.length
    · obtain ⟨wanted, got, hgot, hcut⟩ := hread.refuses k hfront
      refine ⟨wanted, got, hgot, ?_⟩
      rw [List.take_append_of_le_length (by omega)]
      simp [SourceReader.andThen, hcut, bind, Except.bind]
    · obtain ⟨wanted, got, hgot, hcut⟩ := hnext.refuses (k - front.length) (by simp at hk; omega)
      refine ⟨wanted, got, hgot, ?_⟩
      rw [List.take_append, List.take_of_length_le (by omega),
        andThen_of_ok (hread.accepts _), hcut]

theorem IsDelimited.andThen {read : SourceReader α} {next : α → SourceReader β}
    (hread : read.IsDelimited) (hnext : ∀ x, (next x).IsDelimited) :
    (read.andThen next).IsDelimited := by
  intro bs y source h
  cases hx : read (.ofBytes bs) with
  | error e => simp [SourceReader.andThen, hx, bind, Except.bind] at h
  | ok found =>
      obtain ⟨x, middle⟩ := found
      obtain ⟨front, rest, rfl, rfl, hfront⟩ := hread bs x middle hx
      rw [andThen_of_ok hx] at h
      obtain ⟨back, rest, rfl, rfl, hback⟩ := hnext x rest y source h
      exact ⟨front ++ back, rest, (List.append_assoc ..).symm, rfl, hfront.andThen hback⟩

/-- What is found without reading takes no bytes. -/
theorem Takes.andThen_give {read : SourceReader α} {find : α → Except Error β}
    {front : List UInt8} {x : α} {y : β} (hread : read.Takes front x) (hfind : find x = .ok y) :
    (read.andThen fun x => give (find x)).Takes front y := by
  have hboth : (read.andThen fun x => give (find x)).Takes (front ++ []) y :=
    hread.andThen (takes_give hfind)
  rwa [List.append_nil] at hboth

/-! ## Many things of a kind -/

theorem readMany_succ (item : SourceReader α) (count : Nat) :
    readMany item (count + 1) =
      item.andThen fun x => SourceReader.andThen (readMany item count) fun xs =>
        give (.ok (x :: xs)) :=
  rfl

theorem takes_readMany {item : SourceReader α} {bytes : α → List UInt8} {xs : List α}
    (h : ∀ x ∈ xs, item.Takes (bytes x) x) :
    Takes (readMany item xs.length) (xs.flatMap bytes) xs := by
  induction xs with
  | nil => exact takes_give rfl
  | cons x xs ih =>
      rw [List.forall_mem_cons] at h
      rw [List.length_cons, readMany_succ, List.flatMap_cons]
      exact h.1.andThen ((ih h.2).andThen_give rfl)

theorem isDelimited_readMany {item : SourceReader α} (h : item.IsDelimited) (count : Nat) :
    IsDelimited (readMany item count) := by
  induction count with
  | zero => exact isDelimited_give (.ok [])
  | succ count ih =>
      exact h.andThen fun x => ih.andThen fun xs => isDelimited_give (.ok (x :: xs))

/-! ## The stream of a history -/

theorem takeNumber_eq :
    Source.takeNumber = andThen (fun source => source.take 4) fun front =>
      give (.ok (ofBigEndian front)) :=
  rfl

/-- A number takes four bytes. -/
theorem takes_takeNumber {n : Nat} (h : FitsNumber n) :
    Takes Source.takeNumber (numberBytes n) n := by
  have htake : Takes (fun source => source.take 4) (numberBytes n) (numberBytes n) :=
    takes_take (length_bigEndian 4 n)
  rw [takeNumber_eq]
  exact htake.andThen_give (congrArg Except.ok (ofBigEndian_bigEndian h))

theorem isDelimited_takeNumber : IsDelimited Source.takeNumber :=
  (isDelimited_take 4).andThen fun front => isDelimited_give (.ok (ofBigEndian front))

theorem readWord_eq :
    readWord = andThen Source.takeNumber fun length =>
      andThen (fun source => source.take length) fun front => give (wordOfBytes front) :=
  rfl

theorem isDelimited_readWord : IsDelimited readWord :=
  isDelimited_takeNumber.andThen fun length =>
    (isDelimited_take length).andThen fun front => isDelimited_give (wordOfBytes front)

theorem isDelimited_readSentence : IsDelimited readSentence :=
  isDelimited_takeNumber.andThen fun size => isDelimited_readMany isDelimited_readWord size

theorem isDelimited_readSentences : IsDelimited readSentences :=
  isDelimited_takeNumber.andThen fun count => isDelimited_readMany isDelimited_readSentence count

theorem readTally_eq :
    readTally = andThen Source.takeNumber fun length =>
      andThen (fun source => source.take length) fun front => give (tallyOfBytes front) :=
  rfl

theorem isDelimited_readTally : IsDelimited readTally :=
  isDelimited_takeNumber.andThen fun length =>
    (isDelimited_take length).andThen fun front => isDelimited_give (tallyOfBytes front)

theorem readStream_eq :
    History.readStream = andThen readSentences fun sentences =>
      andThen readTally fun archive => give (.ok (sentences, archive)) :=
  rfl

/-- A history knows where its stream ends. -/
theorem isDelimited_readStream : IsDelimited History.readStream :=
  isDelimited_readSentences.andThen fun sentences =>
    isDelimited_readTally.andThen fun archive => isDelimited_give (.ok (sentences, archive))

end SourceReader

/-! ## Loading -/

namespace History

variable {front : List UInt8} {sentences : List Sentence} {archive : Tally}

/-- Bytes that the reader takes exactly are loaded as what it finds, whatever follows them. -/
theorem load_append_of_takes (htakes : SourceReader.Takes readStream front (sentences, archive))
    (h : History) (more : List UInt8) :
    h.load (.ofBytes (front ++ more))
      = .ok ((withArchive h.maxRecent h.maxRecent_pos archive).learnAll sentences) := by
  rw [load, htakes.accepts more]
  rfl

theorem load_of_takes (htakes : SourceReader.Takes readStream front (sentences, archive))
    (h : History) :
    h.load (.ofBytes front)
      = .ok ((withArchive h.maxRecent h.maxRecent_pos archive).learnAll sentences) := by
  have hload := load_append_of_takes htakes h []
  rwa [List.append_nil] at hload

/-- Where such bytes are cut, they are refused as too short. -/
theorem load_take_of_takes (htakes : SourceReader.Takes readStream front (sentences, archive))
    (h : History) {k : Nat} (hk : k < front.length) :
    ∃ wanted got, got < wanted ∧
      h.load (.ofBytes (front.take k)) = .error (.truncatedHistory wanted got) := by
  obtain ⟨wanted, got, hgot, hcut⟩ := htakes.refuses k hk
  refine ⟨wanted, got, hgot, ?_⟩
  rw [load, hcut]
  rfl

end History

end Pinyin
