import Pinyin.Proofs.History.Delimited
import Pinyin.Proofs.MessagePack.RoundTrip

/-!
# Pinyin.Proofs.History.Saved

What is written of a history is what is read of it.

* `Counts.Fits`, `Tally.Fits`, `History.Fits` — what a stream can hold;
* `exists_toBytes_iff` — exactly the histories that fit have a stream;
* `tallyOfValue_toValue` — a tally is described by its map;
* `takes_readStream` — a reader takes exactly the stream of a history.
-/

namespace Pinyin

open MessagePack (Value Portable KeysDistinct sameKey isSome_toBytes?_text_iff
  isSome_toBytes?_int_iff isSome_toBytes?_map_iff ofBytes?_toBytes?)

/-! ## What fits -/

/-- A map can hold some counts: the number of texts, the length of each and its count fit. -/
structure Counts.Fits (c : Counts) : Prop where
  entries : c.entries.length < Nat.pow 2 32
  keys : ∀ entry ∈ c.entries, (utf8 entry.1).length < Nat.pow 2 32
  counts : ∀ entry ∈ c.entries, entry.2 < Nat.pow 2 64

/-- A stream can hold a tally: its counts fit, and the length of its map does. -/
structure Tally.Fits (t : Tally) : Prop where
  size : t.size < Nat.pow 2 64
  unigram : t.unigram.Fits
  bigram : t.bigram.Fits
  length : ∀ bs, MessagePack.toBytes? t.toValue = some bs → FitsNumber bs.length

/-- A stream can hold a history: its sentences fit, and the tally of its archive does. -/
structure History.Fits (h : History) : Prop where
  sentences : SentencesFit h.sentences
  archive : h.archive.Fits

theorem SentencesFit.reverse {sentences : List Sentence} (h : SentencesFit sentences) :
    SentencesFit sentences.reverse := by
  simpa [SentencesFit] using h

theorem isSome_toBytes?_count_iff {n : Nat} :
    (MessagePack.toBytes? (.int n)).isSome ↔ n < Nat.pow 2 64 := by
  rw [isSome_toBytes?_int_iff]
  omega

theorem Counts.isSome_toBytes?_iff {c : Counts} :
    (MessagePack.toBytes? c.toValue).isSome ↔ c.Fits := by
  rw [Counts.toValue, isSome_toBytes?_map_iff]
  simp only [List.length_map, List.forall_mem_map, isSome_toBytes?_text_iff,
    isSome_toBytes?_count_iff]
  exact ⟨fun ⟨hlen, h⟩ => ⟨hlen, fun e he => (h e he).1, fun e he => (h e he).2⟩,
    fun h => ⟨h.entries, fun e he => ⟨h.keys e he, h.counts e he⟩⟩⟩

theorem Tally.isSome_toBytes?_iff {t : Tally} :
    (MessagePack.toBytes? t.toValue).isSome ↔
      t.size < Nat.pow 2 64 ∧ t.unigram.Fits ∧ t.bigram.Fits := by
  have hname : ∀ name ∈ ["size", "unigram", "bigram"],
      (MessagePack.toBytes? (.text name)).isSome := by decide +kernel
  simp only [List.forall_mem_cons] at hname
  rw [Tally.toValue, isSome_toBytes?_map_iff]
  simp [hname, isSome_toBytes?_count_iff, Counts.isSome_toBytes?_iff]

/-- Exactly the tallies that fit have bytes. -/
theorem exists_tallyBytes_iff {t : Tally} : (∃ bs, tallyBytes t = .ok bs) ↔ t.Fits := by
  have hmap := t.isSome_toBytes?_iff
  cases hbytes : MessagePack.toBytes? t.toValue with
  | none =>
      have hnot : ¬ t.Fits := fun h => by simpa [hbytes] using hmap.2 ⟨h.size, h.unigram, h.bigram⟩
      simp [tallyBytes, hbytes, hnot]
  | some bs =>
      obtain ⟨hsize, hunigram, hbigram⟩ := hmap.1 (by simp [hbytes])
      have hfits : t.Fits ↔ FitsNumber bs.length :=
        ⟨fun h => h.length bs hbytes, fun h => ⟨hsize, hunigram, hbigram, by simpa [hbytes] using h⟩⟩
      rw [hfits]
      by_cases hlen : FitsNumber bs.length <;> simp [tallyBytes, hbytes, hlen]

namespace History

variable {h : History} {bs : List UInt8}

theorem toBytes_eq_ok_iff :
    h.toBytes = .ok bs ↔ SentencesFit h.sentences ∧
      ∃ back, tallyBytes h.archive = .ok back ∧ sentencesBytes h.sentences.reverse ++ back = bs := by
  by_cases hfit : SentencesFit h.sentences <;> cases htally : tallyBytes h.archive <;>
    simp [toBytes, save, hfit, htally, Sink.write, Sink.unlimited, WithinLimit, bind, Except.bind,
      pure, Except.pure, throw, throwThe, MonadExceptOf.throw]

/-- **Exactly the histories that fit have a stream.** -/
theorem exists_toBytes_iff : (∃ bs, h.toBytes = .ok bs) ↔ h.Fits := by
  simp only [toBytes_eq_ok_iff]
  constructor
  · rintro ⟨bs, hsentences, back, hback, -⟩
    exact ⟨hsentences, exists_tallyBytes_iff.1 ⟨back, hback⟩⟩
  · intro hfits
    obtain ⟨back, hback⟩ := exists_tallyBytes_iff.2 hfits.archive
    exact ⟨_, hfits.sentences, back, hback, rfl⟩

/-- The stream of a history depends on its sentences and on its archive only. -/
theorem toBytes_congr {h other : History} (hsentences : h.sentences = other.sentences)
    (harchive : h.archive = other.archive) : h.toBytes = other.toBytes := by
  simp [toBytes, save, hsentences, harchive]

end History

/-! ## A tally and its map -/

theorem CountEntries.put_of_notMem {key : String} {n : Nat} {entries : CountEntries}
    (h : key ∉ entries.keys) : put key n entries = entries ++ [(key, n)] := by
  induction entries with
  | nil => rfl
  | cons entry entries ih =>
      simp only [keys, List.map_cons, List.mem_cons, not_or] at h
      simp [put, Ne.symm h.1, ih h.2]

/-- The entries of a table as the entries of a map. -/
def CountEntries.toValues (entries : CountEntries) : List (Value × Value) :=
  entries.map fun (key, n) => (.text key, .int n)

/-- Putting the entries of a table one after the other behind others gives the table. -/
theorem foldlM_putValue (table : CountTable) (entries : CountEntries) (c d : Counts)
    (h : d.entries = c.entries ++ entries) :
    entries.toValues.foldlM (putValue table) c = .ok d := by
  induction entries generalizing c with
  | nil =>
      have hd : d = c := Counts.ext (by simpa using h)
      rw [hd]
      rfl
  | cons entry entries ih =>
      obtain ⟨key, n⟩ := entry
      have hpos : 0 < n := d.pos (key, n) (by simp [h])
      have hnew : key ∉ c.entries.keys := by
        have hnodup := d.nodup
        rw [h, CountEntries.keys, List.map_append, List.nodup_append] at hnodup
        exact fun hmem => hnodup.2.2 key hmem key (by simp) rfl
      have hput : (c.put key n).entries = c.entries ++ [(key, n)] := by
        simp [Counts.put, hpos, CountEntries.put_of_notMem hnew]
      exact ih (c.put key n) (by rw [h, hput, List.append_assoc, List.singleton_append])

theorem countsOfValue_of_lookup? {table : CountTable} {fields : List (Value × Value)}
    {c : Counts} (h : Value.lookup? table.name fields = some c.toValue) :
    countsOfValue table fields = .ok c := by
  have hfold : c.entries.toValues.foldlM (putValue table) Counts.empty = .ok c :=
    foldlM_putValue table c.entries Counts.empty c rfl
  rw [countsOfValue, h]
  exact hfold

/-- The fields of the map of a tally. -/
def Tally.fields (t : Tally) : List (Value × Value) :=
  [(.text "size", .int t.size), (.text "unigram", t.unigram.toValue),
    (.text "bigram", t.bigram.toValue)]

/-- A tally is described by its map. -/
theorem tallyOfValue_toValue (t : Tally) : tallyOfValue t.toValue = .ok t := by
  have hsize : Value.lookup? "size" t.fields = some (.int t.size) := rfl
  have hunigram : countsOfValue .unigram t.fields = .ok t.unigram := countsOfValue_of_lookup? rfl
  have hbigram : countsOfValue .bigram t.fields = .ok t.bigram := countsOfValue_of_lookup? rfl
  have hmap : t.toValue = .map t.fields := rfl
  rw [hmap, tallyOfValue, hsize, hunigram, hbigram]
  rfl

theorem Counts.portable_toValue (c : Counts) (depth : Nat) :
    Portable (depth + 1) c.toValue := by
  refine .map ⟨?_, ?_⟩ ?_
  · rw [List.forall_mem_map]
    exact fun entry _ => beq_self_eq_true entry.1
  · have hnodup := c.nodup
    rw [CountEntries.keys, List.Nodup, List.pairwise_map] at hnodup
    rw [List.pairwise_map]
    exact hnodup.imp fun hne => by simpa [sameKey] using hne
  · rw [List.forall_mem_map]
    exact fun entry _ => .int entry.2

theorem Tally.portable_toValue (t : Tally) (depth : Nat) : Portable (depth + 2) t.toValue := by
  refine .map ⟨?_, ?_⟩ ?_
  · simp [sameKey]
  · simp [sameKey]
  · simp only [List.forall_mem_cons]
    exact ⟨.int t.size, t.unigram.portable_toValue depth, t.bigram.portable_toValue depth, by simp⟩

/-- A tally is read back from its bytes. -/
theorem tallyOfBytes_of_toBytes? {t : Tally} {bs : List UInt8}
    (h : MessagePack.toBytes? t.toValue = some bs) : tallyOfBytes bs = .ok t := by
  rw [tallyOfBytes, ofBytes?_toBytes? (t.portable_toValue _) h]
  exact tallyOfValue_toValue t

/-! ## Reading what was written -/

namespace SourceReader

theorem takes_readWord {word : String} (h : FitsNumber (utf8 word).length) :
    Takes readWord (wordBytes word) word := by
  have htext : wordOfBytes (utf8 word) = .ok word := by rw [wordOfBytes, ofUtf8?_utf8]
  rw [readWord_eq]
  exact (takes_takeNumber h).andThen ((takes_take rfl).andThen_give htext)

theorem takes_readSentence {sentence : Sentence} (hlen : FitsNumber sentence.length)
    (hwords : ∀ word ∈ sentence, FitsNumber (utf8 word).length) :
    Takes readSentence (sentenceBytes sentence) sentence :=
  (takes_takeNumber hlen).andThen <| takes_readMany fun word hword =>
    takes_readWord (hwords word hword)

theorem takes_readSentences {sentences : List Sentence} (h : SentencesFit sentences) :
    Takes readSentences (sentencesBytes sentences) sentences :=
  (takes_takeNumber h.1).andThen <| takes_readMany fun sentence hsentence =>
    takes_readSentence (h.2 sentence hsentence).1 (h.2 sentence hsentence).2

theorem takes_readTally {t : Tally} {bs : List UInt8} (h : tallyBytes t = .ok bs) :
    Takes readTally bs t := by
  unfold tallyBytes at h
  split at h
  · next back hback =>
    split at h
    · next hlen =>
      cases h
      have htally : tallyOfBytes back = .ok t := tallyOfBytes_of_toBytes? hback
      rw [readTally_eq]
      exact (takes_takeNumber hlen).andThen ((takes_take rfl).andThen_give htally)
    · cases h
  · cases h

/-- **A reader takes exactly the stream of a history**: its sentences, oldest first, and its
archive. -/
theorem takes_readStream {h : History} {bs : List UInt8} (hbs : h.toBytes = .ok bs) :
    Takes History.readStream bs (h.sentences.reverse, h.archive) := by
  obtain ⟨hsentences, back, hback, rfl⟩ := History.toBytes_eq_ok_iff.1 hbs
  rw [readStream_eq]
  exact (takes_readSentences hsentences.reverse).andThen ((takes_readTally hback).andThen_give rfl)

end SourceReader

end Pinyin
