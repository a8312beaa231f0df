import Pinyin.History.Basic
import Pinyin.MessagePack.Reader
import Pinyin.MessagePack.Writer

/-!
# Pinyin.History.File

Histories as streams of bytes.  First come the remembered sentences, oldest
first, with every number in four bytes:

```
count (size (length utf8-bytes)* )*
```

The tally of the archive follows as a MessagePack map, again after its length.
What comes after that is not part of the history.

* `Sink`, `Source` — where bytes go and where they come from, both of which may
  refuse to go past a limit;
* `save`, `load` — the stream of a history, and the history of a stream.
-/

namespace Pinyin

open MessagePack (Value)

/-! ## Streams -/

/-- The bytes that were written, and how many can be written in all before the
stream fails for a given reason. -/
structure Sink where
  written : List UInt8
  limit : Option Nat
  reason : String

/-- The bytes that can be read, and how far one may ask to read before the stream
fails for a given reason. -/
structure Source where
  bytes : List UInt8
  limit : Option Nat
  reason : String

/-- A number of bytes is within a limit, if there is one. -/
def WithinLimit (n : Nat) (limit : Option Nat) : Prop := ∀ most ∈ limit, n ≤ most

instance (n : Nat) (limit : Option Nat) : Decidable (WithinLimit n limit) := by
  unfold WithinLimit; infer_instance

/-- The sink with more bytes written. -/
def Sink.write (sink : Sink) (bs : List UInt8) : Except Error Sink :=
  let written := sink.written ++ bs
  if WithinLimit written.length sink.limit then .ok { sink with written }
  else .error (.writeFailed sink.reason)

/-- A sink without limit. -/
def Sink.unlimited : Sink := ⟨[], none, ""⟩

/-- A source without limit. -/
def Source.ofBytes (bs : List UInt8) : Source := ⟨bs, none, ""⟩

/-- The next `n` bytes of a source, and the source after them. -/
def Source.take (source : Source) (n : Nat) : Except Error (List UInt8 × Source) :=
  if WithinLimit n source.limit then
    match takeExactly? n source.bytes with
    | some (front, rest) =>
      .ok (front, { source with bytes := rest, limit := source.limit.map (· - n) })
    | none => .error (.truncatedHistory n source.bytes.length)
  else .error (.readFailed source.reason)

/-- The next number of a source: four bytes. -/
def Source.takeNumber (source : Source) : Except Error (Nat × Source) := do
  let (front, source) ← source.take 4
  pure (ofBigEndian front, source)

/-! ## Writing -/

/-- A number as four bytes. -/
def numberBytes (n : Nat) : List UInt8 := bigEndian 4 n

/-- Four bytes can hold a number. -/
def FitsNumber (n : Nat) : Prop := n < Nat.pow 256 4

instance (n : Nat) : Decidable (FitsNumber n) := by unfold FitsNumber; infer_instance

/-- A word as its length and its bytes. -/
def wordBytes (word : String) : List UInt8 :=
  let bs := utf8 word
  numberBytes bs.length ++ bs

/-- A sentence as the number of its words and the words. -/
def sentenceBytes (sentence : Sentence) : List UInt8 :=
  numberBytes sentence.length ++ sentence.flatMap wordBytes

/-- Sentences as their number and each of them. -/
def sentencesBytes (sentences : List Sentence) : List UInt8 :=
  numberBytes sentences.length ++ sentences.flatMap sentenceBytes

/-- The numbers of sentences, of their words and of the bytes of these fit four bytes. -/
def SentencesFit (sentences : List Sentence) : Prop :=
  FitsNumber sentences.length ∧ ∀ sentence ∈ sentences,
    FitsNumber sentence.length ∧ ∀ word ∈ sentence, FitsNumber (utf8 word).length

instance (sentences : List Sentence) : Decidable (SentencesFit sentences) := by
  unfold SentencesFit; infer_instance

/-- A table of counts as a map. -/
def Counts.toValue (c : Counts) : Value :=
  .map (c.entries.map fun (key, n) => (.text key, .int n))

/-- A tally as a map of its three parts. -/
def Tally.toValue (t : Tally) : Value :=
  .map [(.text "size", .int t.size), (.text "unigram", t.unigram.toValue),
    (.text "bigram", t.bigram.toValue)]

/-- A tally as the length of its MessagePack form and that form. -/
def tallyBytes (t : Tally) : Except Error (List UInt8) :=
  match MessagePack.toBytes? t.toValue with
  | some bs =>
    if FitsNumber bs.length then .ok (numberBytes bs.length ++ bs) else .error .integerTooLarge
  | none => .error .integerTooLarge

namespace History

/-- Writes the remembered sentences, oldest first, and then the archive.  An archive
with a count beyond sixty-four bits is refused after the sentences are written. -/
def save (h : History) (sink : Sink) : Except Error Sink := do
  if ¬ SentencesFit h.sentences then throw .integerTooLarge
  let sink ← sink.write (sentencesBytes h.sentences.reverse)
  sink.write (← tallyBytes h.archive)

/-- The stream of a history. -/
def toBytes (h : History) : Except Error (List UInt8) := do
  pure (← h.save Sink.unlimited).written

end History

/-! ## Reading -/

/-- A reader of one thing from a source. -/
abbrev SourceReader (α : Type) := Source → Except Error (α × Source)

/-- As many things as a number says, one after the other. -/
def readMany (item : SourceReader α) : (count : Nat) → SourceReader (List α)
  | 0, source => .ok ([], source)
  | count + 1, source => do
    let (x, source) ← item source
    let (xs, source) ← readMany item count source
    pure (x :: xs, source)

/-- The word that some bytes are. -/
def wordOfBytes (bs : List UInt8) : Except Error String :=
  match ofUtf8? bs with
  | some word => .ok word
  | none => .error .historyWordNotText

/-- A word after its length. -/
def readWord : SourceReader String := fun source => do
  let (length, source) ← source.takeNumber
  let (front, source) ← source.take length
  pure (← wordOfBytes front, source)

/-- The words of a sentence after their number. -/
def readSentence : SourceReader Sentence := fun source => do
  let (size, source) ← source.takeNumber
  readMany readWord size source

/-- Sentences after their number. -/
def readSentences : SourceReader (List Sentence) := fun source => do
  let (count, source) ← source.takeNumber
  readMany readSentence count source

/-- A count: an integer that is not negative. -/
def countOfValue (name : String) : Value → Except Error Nat
  | .int (.ofNat n) => .ok n
  | v => .error (.invalidCount name v)

/-- The counts with an entry of a table. -/
def putValue (table : CountTable) (c : Counts) (entry : Value × Value) :
    Except Error Counts :=
  match entry with
  | (.text key, v) => do pure (c.put key (← countOfValue table.name v))
  | (key, _) => .error (.countKeyNotText table key)

/-- One of the tables of a tally. -/
def countsOfValue (table : CountTable) (fields : List (Value × Value)) :
    Except Error Counts :=
  match Value.lookup? table.name fields with
  | some (.map entries) => entries.foldlM (putValue table) Counts.empty
  | _ => .error (.countTableMissing table)

/-- The tally that a value describes. -/
def tallyOfValue : Value → Except Error Tally
  | .map fields => do
    let size ← countOfValue "size" ((Value.lookup? "size" fields).getD .nil)
    let unigram ← countsOfValue .unigram fields
    let bigram ← countsOfValue .bigram fields
    pure ⟨unigram, bigram, size⟩
  | _ => .error .finalPoolNotMap

/-- The tally whose MessagePack form some bytes are. -/
def tallyOfBytes (bs : List UInt8) : Except Error Tally :=
  match MessagePack.ofBytes? bs with
  | some v => tallyOfValue v
  | none => .error .malformedFinalPool

/-- A tally after the length of its MessagePack form. -/
def readTally : SourceReader Tally := fun source => do
  let (length, source) ← source.takeNumber
  let (front, source) ← source.take length
  pure (← tallyOfBytes front, source)

namespace History

/-- What a stream holds: the sentences, oldest first, and the archive. -/
def readStream : SourceReader (List Sentence × Tally) := fun source => do
  let (sentences, source) ← readSentences source
  let (archive, source) ← readTally source
  pure ((sentences, archive), source)

/-- The history of a stream, with the bound of a given one.  The sentences are learned
anew on top of the archive, so that some may move there. -/
def load (h : History) (source : Source) : Except Error History := do
  let ((sentences, archive), _) ← readStream source
  pure ((withArchive h.maxRecent h.maxRecent_pos archive).learnAll sentences)

end History

end Pinyin
