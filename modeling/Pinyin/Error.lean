import Pinyin.MessagePack.Value

/-!
# Pinyin.Error

Everything that can be refused, by its cause, and the text that says so.

* `Error` — the causes;
* `Error.message` — the text shown to a user.
-/

namespace Pinyin

/-- A part of the long-term counts that a saved history holds. -/
inductive CountTable where
  | unigram | bigram
  deriving DecidableEq, Repr

/-- The name of a table in the file and in messages. -/
def CountTable.name : CountTable → String
  | unigram => "unigram"
  | bigram => "bigram"

/-- Why something was refused. -/
inductive Error where
  /-- An edge that does not run forward inside the text. -/
  | invalidEdge (start stop : Int) (size : Nat)
  /-- A graph whose end cannot be reached. -/
  | disconnected (text : List Char)
  /-- A position outside the graph or the text. -/
  | positionOutOfRange
  /-- A number that names no initial, or no final. -/
  | noSuchNumber
  /-- A pair of initial and final that is no syllable. -/
  | unknownSyllable
  /-- A syllable code of a length other than two. -/
  | codeLength (length : Nat)
  /-- A syllable code whose bytes name no initial or no final. -/
  | codeOutOfRange (code : List UInt8)
  /-- A syllable code that names no syllable. -/
  | codeUnassigned (code : List UInt8)
  /-- A sequence of syllable codes with a byte left over. -/
  | oddCode (length : Nat)
  /-- A text whose graph has no edge where one must go on. -/
  | uncovered (text : List Char)
  /-- A piece of a text that has no reading. -/
  | unreadable (piece text : List Char)
  /-- A piece that does not spell exactly one full syllable. -/
  | notFullSyllable (piece : List Char)
  /-- A word to be added under a pinyin without syllables. -/
  | emptyPinyin
  /-- A dictionary file that is not one MessagePack value. -/
  | malformedDictionary
  /-- A dictionary file whose value is not a map. -/
  | dictionaryNotMap
  /-- A dictionary file of another version. -/
  | dictionaryVersion (expected : String) (found : MessagePack.Value)
  /-- A dictionary file without a list of entries. -/
  | dictionaryEntriesMissing
  /-- An entry that is not a code, a word and an index. -/
  | badDictionaryEntry
  /-- An integer beyond what a file can hold. -/
  | integerTooLarge
  /-- A history that is to remember no sentence at all. -/
  | maxRecentTooSmall
  /-- A saved history that ends too early. -/
  | truncatedHistory (wanted got : Nat)
  /-- A word of a saved history that is not UTF-8. -/
  | historyWordNotText
  /-- A final section that is not one MessagePack value. -/
  | malformedFinalPool
  /-- A final section whose value is not a map. -/
  | finalPoolNotMap
  /-- A count that is not a natural number. -/
  | invalidCount (name : String) (found : MessagePack.Value)
  /-- A final section without one of its tables. -/
  | countTableMissing (table : CountTable)
  /-- A key of a table that is not text. -/
  | countKeyNotText (table : CountTable) (found : MessagePack.Value)
  /-- A source of bytes that failed. -/
  | readFailed (reason : String)
  /-- A sink of bytes that failed. -/
  | writeFailed (reason : String)
  /-- A weight outside `[0, 1)`. -/
  | weightOutOfRange
  /-- A power of ten too large to represent. -/
  | powerTooLarge
  /-- An integer too large to be a cost. -/
  | costTooLarge
  /-- The logarithm of zero. -/
  | logarithmOfZero
  /-- A bound of no sentences. -/
  | nbestTooSmall
  /-- A bound of no syllables in a word. -/
  | maxSyllablesTooSmall
  /-- A sentence that the last search did not give. -/
  | noSuchResult

namespace Error

/-- A text in quotes, as messages show it. -/
def quoted (cs : List Char) : String := String.ofList (quoteText cs)

/-- Bytes in hexadecimal, as messages show them. -/
def hex (bs : List UInt8) : String := String.ofList (hexDigits bs)

/-- A value, as messages show it. -/
def shown (v : MessagePack.Value) : String := String.ofList v.describe

/-- What is said of an error; `path` stands for the name of a dictionary file. -/
def message (path : String) : Error → String
  | invalidEdge start stop size => s!"invalid edge {start}->{stop} for input of size {size}"
  | disconnected text => s!"graph for {quoted text} is not connected"
  | positionOutOfRange => "position out of range"
  | noSuchNumber => "no such initial or final"
  | unknownSyllable => "not a known syllable"
  | codeLength length => s!"syllable code must be 2 bytes, got {length}"
  | codeOutOfRange code => s!"syllable code out of range: {hex code}"
  | codeUnassigned code => s!"no syllable for code {hex code}"
  | oddCode length => s!"syllable code sequence has odd length {length}"
  | uncovered text => s!"no segmentation covers {quoted text}"
  | unreadable piece text => s!"{quoted piece} in {quoted text} is not pinyin"
  | notFullSyllable piece => s!"{quoted piece} is not a full pinyin syllable"
  | emptyPinyin => "pinyin must not be empty"
  | malformedDictionary => "malformed dictionary"
  | dictionaryNotMap => s!"dictionary {path} is not a map"
  | dictionaryVersion expected found =>
    s!"Expected dictionary version {quoted expected.toList}, got {shown found}"
  | dictionaryEntriesMissing => s!"dictionary {path} has no entry list"
  | badDictionaryEntry => "bad dictionary entry"
  | integerTooLarge => "integer too large to save"
  | maxRecentTooSmall => "max_recent must be >= 1"
  | truncatedHistory wanted got =>
    s!"truncated history data: wanted {wanted} bytes, got {got}"
  | historyWordNotText => "history word is not UTF-8"
  | malformedFinalPool => "malformed final pool section"
  | finalPoolNotMap => "final pool section is not a map"
  | invalidCount name found => s!"invalid {name} count {shown found}"
  | countTableMissing table => s!"final pool {table.name} table missing"
  | countKeyNotText table found =>
    s!"final pool {table.name} key {shown found} is not text"
  | readFailed reason => s!"history read failed: {reason}"
  | writeFailed reason => s!"history write failed: {reason}"
  | weightOutOfRange => "history_weight must be in [0, 1)"
  | powerTooLarge => "power of ten too large"
  | costTooLarge => "integer too large for a cost"
  | logarithmOfZero => "logarithm of zero"
  | nbestTooSmall => "nbest must be >= 1"
  | maxSyllablesTooSmall => "max_syllables must be >= 1"
  | noSuchResult => "no such result"

end Error

end Pinyin
