import Pinyin.Proofs.History.Reload
import Pinyin.Proofs.List
import Pinyin.Proofs.MessagePack.Length

/-!
# Pinyin.Proofs.History.Resave

What was loaded can be saved again, unless its counts have outgrown the format.

* `Tally.fits_iff` — a stream can hold a tally whose counts stay below a bound, and whose form is
  not too long;
* `fitsIn_toValue_of_tallyOfValue` — a tally that is read fits where the value fits that describes
  it;
* `SourceReader.Yields` — what a reader gives satisfies a condition;
* `yields_readStream` — a stream holds only what another stream can hold;
* `load_save` — so a history that was loaded can be saved, unless sentences that were evicted
  meanwhile have made the counts of the archive too large.
-/

namespace Pinyin

open MessagePack (Value entriesMinLength mapHeadLength mapHeadLength_mono EntriesFit EntriesFitIn
  entriesFit_iff isExact_natural isExact_text isExact_map fitsIn_of_ofBytes?)

/-! ## The form of a tally -/

/-- Every count of a tally is below a bound. -/
structure Tally.CountsBelow (t : Tally) (bound : Nat) : Prop where
  size : t.size < bound
  unigram : ∀ word, t.unigram.count word < bound
  bigram : ∀ key, t.bigram.count key < bound

theorem CountEntries.count_of_mem {entries : CountEntries} (hnodup : entries.keys.Nodup)
    {entry : String × Nat} (hmem : entry ∈ entries) : entries.count entry.1 = entry.2 := by
  induction entries with
  | nil => cases hmem
  | cons first entries ih =>
      simp only [keys, List.map_cons, List.nodup_cons] at hnodup
      cases hmem with
      | head => exact if_pos rfl
      | tail _ hmem =>
          have hne : first.1 ≠ entry.1 := fun heq =>
            hnodup.1 (heq ▸ List.mem_map_of_mem hmem)
          exact (if_neg hne).trans (ih hnodup.2 hmem)

theorem CountEntries.count_lt {entries : CountEntries} {bound : Nat} (hbound : 0 < bound)
    (h : ∀ entry ∈ entries, entry.2 < bound) (key : String) : entries.count key < bound := by
  induction entries with
  | nil => exact hbound
  | cons entry entries ih =>
      rw [List.forall_mem_cons] at h
      unfold count
      split
      · exact h.1
      · exact ih h.2

theorem Counts.numbersFit_toValue_iff {c : Counts} :
    c.toValue.NumbersFit ↔ ∀ key, c.count key < Nat.pow 2 64 := by
  have hentries : c.toValue.NumbersFit ↔ ∀ entry ∈ c.entries, entry.2 < Nat.pow 2 64 := by
    rw [Counts.toValue, Value.NumbersFit, entriesFit_iff, List.forall_mem_map]
    exact forall₂_congr fun entry _ => Int.ofNat_lt
  rw [hentries]
  constructor
  · exact fun h => CountEntries.count_lt (by decide) h
  · exact fun h entry hmem => CountEntries.count_of_mem c.nodup hmem ▸ h entry.1

theorem Tally.numbersFit_toValue_iff {t : Tally} :
    t.toValue.NumbersFit ↔ t.CountsBelow (Nat.pow 2 64) := by
  have hparts : t.toValue.NumbersFit ↔
      (Value.int t.size).NumbersFit ∧ t.unigram.toValue.NumbersFit ∧
        t.bigram.toValue.NumbersFit ∧ True := Iff.rfl
  rw [hparts, Counts.numbersFit_toValue_iff, Counts.numbersFit_toValue_iff]
  exact ⟨fun ⟨hsize, hunigram, hbigram, _⟩ => ⟨Int.ofNat_lt.1 hsize, hunigram, hbigram⟩,
    fun h => ⟨Int.ofNat_lt.2 h.size, h.unigram, h.bigram, trivial⟩⟩

theorem Counts.isExact_toValue (c : Counts) : c.toValue.IsExact := by
  refine isExact_map ?_
  rw [List.forall_mem_map]
  exact fun entry _ => ⟨isExact_text entry.1, isExact_natural entry.2⟩

theorem Tally.isExact_toValue (t : Tally) : t.toValue.IsExact := by
  refine isExact_map ?_
  simp only [List.forall_mem_cons]
  exact ⟨⟨isExact_text _, isExact_natural t.size⟩, ⟨isExact_text _, t.unigram.isExact_toValue⟩,
    ⟨isExact_text _, t.bigram.isExact_toValue⟩, by simp⟩

theorem CountEntries.length_toValues (entries : CountEntries) :
    entries.toValues.length = entries.length :=
  List.length_map _

theorem CountEntries.minLength_le_of_mem {entries : CountEntries} {entry : String × Nat}
    (hmem : entry ∈ entries) :
    (Value.text entry.1).minLength + (Value.int entry.2).minLength
      ≤ entriesMinLength entries.toValues := by
  have hvalues : (Value.text entry.1, Value.int entry.2) ∈ entries.toValues :=
    List.mem_map.2 ⟨entry, hmem, rfl⟩
  exact MessagePack.minLength_le_of_mem hvalues

theorem Counts.minLength_toValue (c : Counts) :
    c.toValue.minLength
      = mapHeadLength c.entries.length + entriesMinLength c.entries.toValues := by
  rw [← CountEntries.length_toValues]
  rfl

theorem Counts.fits_of_fitsIn {c : Counts} {n : Nat} (h : c.toValue.FitsIn n)
    (hn : n < Nat.pow 2 32) : c.Fits := by
  have hlength := h.length
  rw [Counts.minLength_toValue] at hlength
  refine ⟨?_, fun entry hmem => ?_, fun entry hmem => ?_⟩
  · have hentries := MessagePack.length_le_entriesMinLength c.entries.toValues
    rw [CountEntries.length_toValues] at hentries
    omega
  · have hentry := CountEntries.minLength_le_of_mem hmem
    have htext : (utf8 entry.1).length ≤ (Value.text entry.1).minLength := Nat.le_add_left _ _
    omega
  · rw [← CountEntries.count_of_mem c.nodup hmem]
    exact Counts.numbersFit_toValue_iff.1 h.numbers entry.1

/-- A tally whose form fits in the bytes that a length can say fits. -/
theorem Tally.fits_of_fitsIn {t : Tally} {n : Nat} (h : t.toValue.FitsIn n) (hn : FitsNumber n) :
    t.Fits := by
  have hbound : n < Nat.pow 2 32 := hn
  have hlength : mapHeadLength 3 + entriesMinLength t.fields ≤ n := h.length
  have hcounts := Tally.numbersFit_toValue_iff.1 h.numbers
  have hpart : ∀ (name : String) (c : Counts), (Value.text name, c.toValue) ∈ t.fields →
      c.toValue.NumbersFit → c.Fits := by
    intro name c hmem hnumbers
    have hc : (Value.text name).minLength + c.toValue.minLength ≤ entriesMinLength t.fields :=
      MessagePack.minLength_le_of_mem hmem
    exact Counts.fits_of_fitsIn ⟨hnumbers, by omega⟩ hbound
  refine ⟨hcounts.size, hpart "unigram" _ (by simp [fields]) h.numbers.2.1,
    hpart "bigram" _ (by simp [fields]) h.numbers.2.2.1, fun bs hbs => ?_⟩
  have hbytes : bs.length ≤ n := t.isExact_toValue bs hbs ▸ h.length
  exact Nat.lt_of_le_of_lt hbytes hn

/-- **A stream can hold a tally** whose counts are below a bound, and whose form is not too long. -/
theorem Tally.fits_iff {t : Tally} :
    t.Fits ↔ t.CountsBelow (Nat.pow 2 64) ∧ FitsNumber t.toValue.minLength := by
  constructor
  · intro h
    have hsome := Tally.isSome_toBytes?_iff.2 ⟨h.size, h.unigram, h.bigram⟩
    obtain ⟨bs, hbs⟩ := Option.isSome_iff_exists.1 hsome
    exact ⟨⟨h.size, CountEntries.count_lt (by decide) h.unigram.counts,
      CountEntries.count_lt (by decide) h.bigram.counts⟩,
      t.isExact_toValue bs hbs ▸ h.length bs hbs⟩
  · exact fun ⟨hcounts, hlength⟩ =>
      Tally.fits_of_fitsIn ⟨Tally.numbersFit_toValue_iff.2 hcounts, Nat.le_refl _⟩ hlength

/-! ## A tally that is read -/

theorem mem_of_lookup? {key : String} {fields : List (Value × Value)} {v : Value}
    (h : Value.lookup? key fields = some v) : (.text key, v) ∈ fields := by
  fun_induction Value.lookup? key fields with
  | case1 => cases h
  | case2 rest found =>
      cases h
      exact List.mem_cons_self
  | case3 s found rest hne ih => exact List.mem_cons_of_mem _ (ih h)
  | case4 entry rest hother ih => exact List.mem_cons_of_mem _ (ih h)

/-- A count that is put in a table is an entry that is put in the map of the table. -/
theorem CountEntries.toValues_put (key : String) (n : Nat) (entries : CountEntries) :
    (put key n entries).toValues = MessagePack.putEntry (.text key) (.int n) entries.toValues := by
  induction entries with
  | nil => rfl
  | cons entry entries ih =>
      obtain ⟨k, old⟩ := entry
      by_cases hk : k = key
      · simp [put, toValues, MessagePack.putEntry, MessagePack.sameKey, hk]
      · simp only [toValues] at ih
        simp [put, toValues, MessagePack.putEntry, MessagePack.sameKey, hk, ih]

theorem eq_int_of_countOfValue {name : String} {v : Value} {n : Nat}
    (h : countOfValue name v = .ok n) : v = .int n := by
  unfold countOfValue at h
  split at h <;> cases h
  rfl

/-- A count that is put fits where its entry fits. -/
theorem entriesFitIn_of_putValue {table : CountTable} {entry : Value × Value} {c d : Counts}
    {places bytes : Nat} (hc : EntriesFitIn c.entries.toValues places bytes)
    (hentry : entry.2.NumbersFit) (h : putValue table c entry = .ok d) :
    EntriesFitIn d.entries.toValues (places + 1)
      (bytes + (entry.1.minLength + entry.2.minLength)) := by
  unfold putValue at h
  split at h
  · next key v =>
    obtain ⟨n, hn, hd⟩ := bind_eq_ok_iff.1 h
    cases hd
    obtain rfl := eq_int_of_countOfValue hn
    have hput := hc.putEntry (.text key) hentry
    rw [← CountEntries.toValues_put] at hput
    unfold Counts.put
    split
    · exact hput
    · -- A count of zero is not put, and whatever stood under its key is gone.
      have hsublist : (CountEntries.erase key c.entries).toValues.Sublist c.entries.toValues :=
        List.filter_sublist.map _
      have hrest := hc.subperm hsublist.subperm
      exact ⟨hrest.numbers, Nat.le_trans hrest.places (by omega),
        Nat.le_trans hrest.length (by omega)⟩
  · cases h

/-- A table fits where the map fits that it is read from. -/
theorem entriesFitIn_of_foldlM_putValue {table : CountTable} {entries : List (Value × Value)}
    {c d : Counts} {places bytes : Nat} (hc : EntriesFitIn c.entries.toValues places bytes)
    (hnumbers : EntriesFit entries) (h : entries.foldlM (putValue table) c = .ok d) :
    EntriesFitIn d.entries.toValues (places + entries.length)
      (bytes + entriesMinLength entries) := by
  induction entries generalizing c places bytes with
  | nil =>
      cases h
      exact hc
  | cons entry entries ih =>
      rw [List.foldlM_cons, bind_eq_ok_iff] at h
      obtain ⟨next, hnext, h⟩ := h
      have hd := ih (entriesFitIn_of_putValue hc hnumbers.1 hnext) hnumbers.2 h
      rw [List.length_cons, entriesMinLength]
      exact ⟨hd.numbers, Nat.le_trans hd.places (by omega), Nat.le_trans hd.length (by omega)⟩

/-- A table is read from a map under its name, and fits where this does. -/
theorem exists_mem_of_countsOfValue {table : CountTable} {fields : List (Value × Value)}
    {c : Counts} (hfields : EntriesFit fields) (h : countsOfValue table fields = .ok c) :
    ∃ v, (.text table.name, v) ∈ fields ∧ c.toValue.FitsIn v.minLength := by
  unfold countsOfValue at h
  split at h
  · next entries hlookup =>
    have hmem := mem_of_lookup? hlookup
    have hnumbers : EntriesFit entries := entriesFit_iff.1 hfields _ hmem
    have hc := entriesFitIn_of_foldlM_putValue (c := Counts.empty) .nil hnumbers h
    rw [Nat.zero_add, Nat.zero_add] at hc
    exact ⟨.map entries, hmem, hc.map⟩
  · cases h

theorem mem_of_countOfValue {key name : String} {fields : List (Value × Value)} {n : Nat}
    (h : countOfValue name ((Value.lookup? key fields).getD .nil) = .ok n) :
    (.text key, .int n) ∈ fields := by
  have hv := eq_int_of_countOfValue h
  cases hlookup : Value.lookup? key fields with
  | none => simp [hlookup] at hv
  | some v =>
      rw [hlookup, Option.getD_some] at hv
      exact hv ▸ mem_of_lookup? hlookup

/-- **A tally fits where the value fits that describes it.** -/
theorem fitsIn_toValue_of_tallyOfValue {v : Value} {t : Tally} {n : Nat} (hv : v.FitsIn n)
    (h : tallyOfValue v = .ok t) : t.toValue.FitsIn n := by
  unfold tallyOfValue at h
  split at h
  · next fields =>
    obtain ⟨size, hsize, h⟩ := bind_eq_ok_iff.1 h
    obtain ⟨unigram, hunigram, h⟩ := bind_eq_ok_iff.1 h
    obtain ⟨bigram, hbigram, h⟩ := bind_eq_ok_iff.1 h
    cases h
    have hfields : EntriesFit fields := hv.numbers
    have hsize := mem_of_countOfValue hsize
    obtain ⟨first, hfirst, hunigram⟩ := exists_mem_of_countsOfValue hfields hunigram
    obtain ⟨second, hsecond, hbigram⟩ := exists_mem_of_countsOfValue hfields hbigram
    have hsubperm : [(Value.text "size", Value.int size), (.text "unigram", first),
        (.text "bigram", second)].Subperm fields := by
      refine List.subperm_of_subset (by simp) fun entry hentry => ?_
      simp only [List.mem_cons, List.not_mem_nil, or_false] at hentry
      obtain rfl | rfl | rfl := hentry
      · exact hsize
      · exact hfirst
      · exact hsecond
    have hall : EntriesFitIn fields fields.length (entriesMinLength fields) :=
      ⟨hfields, Nat.le_refl _, Nat.le_refl _⟩
    have hparts := hall.subperm hsubperm
    have hhead : mapHeadLength 3 ≤ mapHeadLength fields.length := mapHeadLength_mono hparts.places
    refine ⟨⟨hparts.numbers.1, hunigram.numbers, hbigram.numbers, trivial⟩, ?_⟩
    have hlength := hparts.length
    have hfirstLength := hunigram.length
    have hsecondLength := hbigram.length
    calc
      (⟨unigram, bigram, size⟩ : Tally).toValue.minLength
        = mapHeadLength 3 + entriesMinLength (Tally.fields ⟨unigram, bigram, size⟩) := rfl
      _ ≤ mapHeadLength fields.length + entriesMinLength fields := by
        simp only [Tally.fields, entriesMinLength] at hlength ⊢
        omega
      _ ≤ n := hv.length
  · cases h

theorem fits_of_tallyOfBytes {bs : List UInt8} {t : Tally} (hlen : FitsNumber bs.length)
    (h : tallyOfBytes bs = .ok t) : t.Fits := by
  unfold tallyOfBytes at h
  split at h
  · next hvalue =>
    exact Tally.fits_of_fitsIn (fitsIn_toValue_of_tallyOfValue (fitsIn_of_ofBytes? hvalue) h) hlen
  · cases h

/-! ## A stream that is read -/

namespace SourceReader

variable {α β : Type} {P : α → Prop} {Q : β → Prop}

/-- Whatever a reader gives satisfies a condition. -/
def Yields (read : SourceReader α) (P : α → Prop) : Prop :=
  ∀ source x rest, read source = .ok (x, rest) → P x

theorem Yields.andThen {read : SourceReader α} {next : α → SourceReader β} (hread : read.Yields P)
    (hnext : ∀ x, P x → (next x).Yields Q) : (read.andThen next).Yields Q := by
  intro source y rest h
  obtain ⟨⟨x, middle⟩, hx, hy⟩ := bind_eq_ok_iff.1 h
  exact hnext x (hread source x middle hx) middle y rest hy

theorem yields_give {x : Except Error α} (h : ∀ a, x = .ok a → P a) : (give x).Yields P := by
  intro source a rest hgive
  obtain ⟨_, hx, ha⟩ := bind_eq_ok_iff.1 hgive
  cases ha
  exact h a hx

theorem yields_take (n : Nat) :
    Yields (fun source => source.take n) fun front => front.length = n := by
  intro source front rest h
  simp only [Source.take] at h
  split at h
  · split at h
    · next htake =>
      cases h
      exact (takeExactly?_eq_some_iff.1 htake).2
    · cases h
  · cases h

theorem yields_takeNumber : Yields Source.takeNumber FitsNumber := by
  rw [takeNumber_eq]
  refine (yields_take 4).andThen fun front hlen => yields_give fun n hn => ?_
  cases hn
  have hlt := MessagePack.ofBigEndian_lt front
  rwa [hlen] at hlt

theorem yields_readMany {item : SourceReader α} (h : item.Yields P) (count : Nat) :
    Yields (readMany item count) fun xs => xs.length = count ∧ ∀ x ∈ xs, P x := by
  induction count with
  | zero => exact yields_give (x := .ok []) fun xs hxs => by cases hxs; simp
  | succ count ih =>
      rw [readMany_succ]
      refine h.andThen fun x hx => ih.andThen fun xs hxs => yields_give fun ys hys => ?_
      cases hys
      exact ⟨congrArg (· + 1) hxs.1, List.forall_mem_cons.2 ⟨hx, hxs.2⟩⟩

theorem yields_readWord : Yields readWord fun word => FitsNumber (utf8 word).length := by
  rw [readWord_eq]
  refine yields_takeNumber.andThen fun length hfits => (yields_take length).andThen
    fun front hlen => yields_give fun word hword => ?_
  unfold wordOfBytes at hword
  split at hword
  · next htext =>
    cases hword
    rwa [utf8_of_ofUtf8? htext, hlen]
  · cases hword

theorem yields_readSentences : Yields readSentences SentencesFit := by
  have hsentence : Yields readSentence fun sentence => FitsNumber sentence.length ∧
      ∀ word ∈ sentence, FitsNumber (utf8 word).length :=
    yields_takeNumber.andThen fun size hsize source sentence rest h => by
      obtain ⟨hlen, hwords⟩ := yields_readMany yields_readWord size source sentence rest h
      exact ⟨hlen ▸ hsize, hwords⟩
  refine yields_takeNumber.andThen fun count hcount source sentences rest h => ?_
  obtain ⟨hlen, hsentences⟩ := yields_readMany hsentence count source sentences rest h
  exact ⟨hlen ▸ hcount, hsentences⟩

theorem yields_readTally : Yields readTally Tally.Fits := by
  rw [readTally_eq]
  exact yields_takeNumber.andThen fun length hfits => (yields_take length).andThen
    fun front hlen => yields_give fun t ht => fits_of_tallyOfBytes (hlen ▸ hfits) ht

/-- **A stream holds only what another stream can hold.** -/
theorem yields_readStream :
    Yields History.readStream fun found => SentencesFit found.1 ∧ found.2.Fits := by
  rw [readStream_eq]
  refine yields_readSentences.andThen fun sentences hsentences => yields_readTally.andThen
    fun archive harchive => yields_give fun found hfound => ?_
  cases hfound
  exact ⟨hsentences, harchive⟩

end SourceReader

/-! ## Saving what was loaded -/

theorem SentencesFit.sublist {sentences fewer : List Sentence} (h : SentencesFit sentences)
    (hfewer : fewer.Sublist sentences) : SentencesFit fewer :=
  ⟨Nat.lt_of_le_of_lt hfewer.length_le h.1, fun sentence hmem => h.2 sentence (hfewer.subset hmem)⟩

/-- A tally that does not fit is refused as too large. -/
theorem tallyBytes_of_not_fits {t : Tally} (h : ¬ t.Fits) :
    tallyBytes t = .error .integerTooLarge := by
  rw [← exists_tallyBytes_iff] at h
  unfold tallyBytes at h ⊢
  split
  · next hbs =>
    rw [if_neg]
    intro hlen
    simp [hbs, hlen] at h
  · rfl

namespace History

/-- A history that does not fit is refused as too large. -/
theorem toBytes_of_not_fits {h : History} (hfits : ¬ h.Fits) :
    h.toBytes = .error .integerTooLarge := by
  by_cases hsentences : SentencesFit h.sentences
  · have harchive : ¬ h.archive.Fits := fun harchive => hfits ⟨hsentences, harchive⟩
    simp [toBytes, save, hsentences, tallyBytes_of_not_fits harchive, Sink.write, Sink.unlimited,
      WithinLimit, bind, Except.bind]
  · simp [toBytes, save, hsentences, bind, Except.bind, throw, throwThe, MonadExceptOf.throw]

/-- What is loaded keeps the record of the stream, whose sentences and archive fit. -/
theorem exists_keeps_of_load {h loaded : History} {source : Source}
    (hload : h.load source = .ok loaded) :
    ∃ sentences archive rest, readStream source = .ok ((sentences, archive), rest) ∧
      SentencesFit sentences ∧ archive.Fits ∧ loaded.maxRecent = h.maxRecent ∧
      loaded.Keeps ((Record.begin archive).noteAll sentences) := by
  obtain ⟨⟨⟨sentences, archive⟩, rest⟩, hread, hloaded⟩ := bind_eq_ok_iff.1 hload
  cases hloaded
  obtain ⟨hsentences, harchive⟩ := SourceReader.yields_readStream source _ rest hread
  exact ⟨sentences, archive, rest, hread, hsentences, harchive, maxRecent_learnAll ..,
    (keeps_withArchive h.maxRecent h.maxRecent_pos archive).learnAll sentences⟩

/-- **What was loaded can be saved**, exactly if the archive still fits.  It does as long as no
sentence was evicted meanwhile; otherwise its counts may have grown too large, and the history is
refused.  What is saved is loaded again as it is, wherever there is as much room. -/
theorem load_save (h : History) (source : Source) (loaded : History)
    (hload : h.load source = .ok loaded) :
    ∃ sentences archive rest, readStream source = .ok ((sentences, archive), rest) ∧
      let r := (Record.begin archive).noteAll sentences
      let evicted := r.learned.drop h.maxRecent
      loaded.sentences = r.learned.take h.maxRecent ∧ loaded.archive.IsSumOf archive evicted ∧
      ((∃ bs, loaded.toBytes = .ok bs) ↔
        loaded.archive.CountsBelow (Nat.pow 2 64) ∧ FitsNumber loaded.archive.toValue.minLength) ∧
      (evicted = [] → ∃ bs, loaded.toBytes = .ok bs) ∧
      ((¬ ∃ bs, loaded.toBytes = .ok bs) → loaded.toBytes = .error .integerTooLarge) ∧
      ∀ (bs : List UInt8) (other : History), loaded.toBytes = .ok bs →
        other.maxRecent = h.maxRecent →
        ∃ again, other.load (.ofBytes bs) = .ok again ∧ again.sentences = loaded.sentences ∧
          again.recent.SameCounts loaded.recent ∧ again.archive = loaded.archive := by
  obtain ⟨sentences, archive, rest, hread, hsentences, harchive, hroom, hkeeps⟩ :=
    exists_keeps_of_load hload
  refine ⟨sentences, archive, rest, hread, ?_⟩
  intro r evicted
  have hremembered : loaded.sentences = r.learned.take h.maxRecent := hroom ▸ hkeeps.sentences
  have harchived : loaded.archive = archive.addAll evicted.reverse := by
    rw [hkeeps.archive, hroom, Record.stored_noteAll]
    rfl
  have hfit : SentencesFit loaded.sentences := by
    rw [hremembered, Record.learned_noteAll]
    refine hsentences.reverse.sublist ((List.take_sublist ..).trans ?_)
    rw [show (Record.begin archive).learned = [] from rfl, List.append_nil]
    exact List.filter_sublist.reverse
  have hfits : loaded.Fits ↔ loaded.archive.Fits := ⟨History.Fits.archive, fun h => ⟨hfit, h⟩⟩
  refine ⟨hremembered, ?_, ?_, fun hnone => ?_, fun hnot => ?_, fun bs other hbs hother => ?_⟩
  · have hsum := hkeeps.archive_isSumOf
    rwa [hroom, Record.stored_noteAll] at hsum
  · rw [exists_toBytes_iff, hfits, Tally.fits_iff]
  · rw [hnone] at harchived
    rw [exists_toBytes_iff, hfits, harchived]
    exact harchive
  · rw [exists_toBytes_iff] at hnot
    exact toBytes_of_not_fits hnot
  · have hlen : loaded.sentences.length ≤ other.maxRecent := by
      rw [hremembered, hother]
      exact List.length_take_le ..
    exact ⟨_, load_of_toBytes hbs other, hkeeps.reload_of_length_le other.maxRecent_pos hlen⟩

/-- A history of two sentences on top of an archive that has as many as a count can say. -/
def crowded : History :=
  (withArchive 2 Nat.two_pos ⟨Counts.empty, Counts.empty, Nat.pow 2 64 - 1⟩).learnAll [["a"], ["b"]]

/-- The stream of the crowded history. -/
def crowdedStream : List UInt8 := crowded.toBytes.toOption.getD []

theorem toBytes_crowded : crowded.toBytes = .ok crowdedStream := rfl

theorem load_save_sample :
    ∃ loaded again : History, ∃ bs,
      (withArchive 2 (by decide) Tally.empty).load (.ofBytes crowdedStream) = .ok loaded ∧
      loaded.archive.size = Nat.pow 2 64 - 1 ∧ loaded.toBytes = .ok bs ∧
      (withArchive 2 (by decide) Tally.empty).load (.ofBytes bs) = .ok again ∧
      again.sentences = [["b"], ["a"]] := by
  have hload := load_of_toBytes toBytes_crowded (withArchive 2 (by decide) Tally.empty)
  obtain ⟨sentences, archive, rest, hread, hremembered, harchive, -, hsaved, -, hreloaded⟩ :=
    load_save _ _ _ hload
  have hstream := (SourceReader.takes_readStream toBytes_crowded).accepts []
  rw [List.append_nil, hread] at hstream
  cases hstream
  obtain ⟨bs, hbs⟩ := hsaved rfl
  obtain ⟨again, hagain, hsentences, -⟩ := hreloaded bs _ hbs rfl
  exact ⟨_, again, bs, hload, harchive.size, hbs, hagain, hsentences.trans hremembered⟩

/-- Where there is room for one only, the archive has too many with the other. -/
theorem crowded_overflows :
    ∃ loaded, (withArchive 1 (by decide) Tally.empty).load (.ofBytes crowdedStream) = .ok loaded ∧
      loaded.sentences = [["b"]] ∧ loaded.archive.size = Nat.pow 2 64 ∧
      loaded.toBytes = .error .integerTooLarge :=
  ⟨_, load_of_toBytes toBytes_crowded (withArchive 1 (by decide) Tally.empty), by decide +kernel,
    by decide +kernel, rfl⟩

end History

end Pinyin
