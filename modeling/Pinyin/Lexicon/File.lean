import Pinyin.Lexicon.Basic
import Pinyin.MessagePack.Reader
import Pinyin.MessagePack.Writer

/-!
# Pinyin.Lexicon.File

Lexicons as files: a MessagePack map with the version of the format and the list
of entries, each a code, a word and an index.

* `toBytes` — the file of a lexicon;
* `ofBytes` — the lexicon of a file.
-/

namespace Pinyin

open MessagePack (Value)

namespace Lexicon

/-- The version of the format that is written and read. -/
def fileVersion : String := "1.0"

/-- An entry with its code, as the file holds it. -/
def entryValue (code : Code) (e : Entry) : Value :=
  .list [.binary code, .text e.word, .int e.index]

/-- A lexicon as a value. -/
def toValue (lex : Lexicon) : Value :=
  .map [(.text "version", .text fileVersion),
    (.text "entries", .list (lex.entries.map fun (code, e) => entryValue code e))]

/-- The file of a lexicon; every index must fit sixty-four bits. -/
def toBytes (lex : Lexicon) : Except Error (List UInt8) :=
  match MessagePack.toBytes? lex.toValue with
  | some bs => .ok bs
  | none => .error .integerTooLarge

/-- An index in a file: an integer, or a truth value for one and zero. -/
def index? : Value → Option Int
  | .int n => some n
  | .bool b => some b.toInt
  | _ => none

/-- The lexicon with a further entry from a file. -/
def insertValue (lex : Lexicon) : Value → Except Error Lexicon
  | .list [.binary code, .text word, index] =>
    match index? index with
    | some n =>
      if h : IsWordCode code then .ok (lex.insert code h ⟨word, n⟩)
      else .error .badDictionaryEntry
    | none => .error .badDictionaryEntry
  | _ => .error .badDictionaryEntry

/-- The lexicon that a value describes. -/
def ofValue : Value → Except Error Lexicon
  | .map fields =>
    match (Value.lookup? "version" fields).getD .nil with
    | .text version =>
      if version = fileVersion then
        match Value.lookup? "entries" fields with
        | some (.list items) => items.foldlM insertValue empty
        | _ => .error .dictionaryEntriesMissing
      else .error (.dictionaryVersion fileVersion (.text version))
    | other => .error (.dictionaryVersion fileVersion other)
  | _ => .error .dictionaryNotMap

/-- The lexicon of a file. -/
def ofBytes (bs : List UInt8) : Except Error Lexicon :=
  match MessagePack.ofBytes? bs with
  | some v => ofValue v
  | none => .error .malformedDictionary

end Lexicon

end Pinyin
