import Pinyin.Code

/-!
# Pinyin.Lexicon.Basic

A list of words by the code of their pinyin.  Codes keep the order in which
they first came, and so do the words under one code.

* `Lexicon` — the rows, one for each code;
* `insert` — a further word, unless its code has it already;
* `addWord` — the same for a word whose pinyin is typed, `addWord_eq_ok_iff` — when it is added;
* `entries`, `size`, `entriesOf` — views.
-/

namespace Pinyin

/-- A word and the index by which a language model knows it. -/
structure Entry where
  word : String
  index : Int
  deriving DecidableEq, Repr

/-- The words of one code. -/
structure LexiconRow where
  code : Code
  entries : List Entry
  deriving DecidableEq, Repr

/-- A code of at least one syllable; which bytes it has does not matter. -/
def IsWordCode (code : Code) : Prop := code ≠ [] ∧ code.length % 2 = 0

instance (code : Code) : Decidable (IsWordCode code) := by
  unfold IsWordCode; infer_instance

theorem isWordCode_codeOf {syllables : List Syllable} (h : syllables ≠ []) :
    IsWordCode (codeOf syllables) := by
  have hlen := length_codeOf syllables
  have hpos := List.length_pos_iff.2 h
  exact ⟨List.ne_nil_of_length_pos (by omega), by omega⟩

namespace LexiconRow

/-- The index of a word of the row. -/
def indexOf? (row : LexiconRow) (word : String) : Option Int :=
  (row.entries.find? fun e => e.word == word).map Entry.index

/-- The row with a further word, unless it has the word. -/
def insert (row : LexiconRow) (e : Entry) : LexiconRow :=
  if e.word ∈ row.entries.map Entry.word then row
  else { row with entries := row.entries ++ [e] }

@[simp] theorem code_insert (row : LexiconRow) (e : Entry) :
    (row.insert e).code = row.code := by
  unfold insert; split <;> rfl

/-- The words of a row stay distinct. -/
theorem nodup_insert {row : LexiconRow} {e : Entry}
    (h : (row.entries.map Entry.word).Nodup) :
    ((row.insert e).entries.map Entry.word).Nodup := by
  unfold insert
  split
  · exact h
  · next hnot =>
    rw [List.map_append, List.nodup_append]
    refine ⟨h, by simp, ?_⟩
    intro w hw w' hw' heq
    simp only [List.map_cons, List.map_nil, List.mem_singleton] at hw'
    exact hnot (hw' ▸ heq ▸ hw)

end LexiconRow

/-- The rows with a further word under a code: in the row of that code, or in a
new one at the end. -/
def insertRow (code : Code) (e : Entry) : List LexiconRow → List LexiconRow
  | [] => [⟨code, [e]⟩]
  | row :: rows =>
    if row.code = code then row.insert e :: rows else row :: insertRow code e rows

theorem mem_code_insertRow {code c : Code} {e : Entry} {rows : List LexiconRow} :
    c ∈ (insertRow code e rows).map LexiconRow.code
      ↔ c = code ∨ c ∈ rows.map LexiconRow.code := by
  induction rows with
  | nil => simp [insertRow]
  | cons row rows ih =>
    unfold insertRow
    split
    · next h => simp only [List.map_cons, LexiconRow.code_insert, List.mem_cons]; grind
    · simp only [List.map_cons, List.mem_cons, ih]; grind

theorem nodup_insertRow {code : Code} {e : Entry} {rows : List LexiconRow}
    (h : (rows.map LexiconRow.code).Nodup) :
    ((insertRow code e rows).map LexiconRow.code).Nodup := by
  induction rows with
  | nil => simp [insertRow]
  | cons row rows ih =>
    rw [List.map_cons, List.nodup_cons] at h
    unfold insertRow
    split
    · simpa using h
    · next hne =>
      rw [List.map_cons, List.nodup_cons, mem_code_insertRow]
      exact ⟨fun hc => hc.elim hne h.1, ih h.2⟩

/-- What holds of a new row and stays true of a row with a further word holds of
every row. -/
theorem forall_mem_insertRow {P : LexiconRow → Prop} {code : Code} {e : Entry}
    {rows : List LexiconRow} (hnew : P ⟨code, [e]⟩)
    (hold : ∀ row, P row → P (row.insert e)) (h : ∀ row ∈ rows, P row) :
    ∀ row ∈ insertRow code e rows, P row := by
  induction rows with
  | nil => simpa [insertRow] using hnew
  | cons row rows ih =>
    rw [List.forall_mem_cons] at h
    unfold insertRow
    split
    · exact List.forall_mem_cons.2 ⟨hold row h.1, h.2⟩
    · exact List.forall_mem_cons.2 ⟨h.1, ih h.2⟩

/-- Words by code: one row for each code, no word twice in a row, and each code of
at least one syllable. -/
@[ext] structure Lexicon where
  rows : List LexiconRow
  nodup : (rows.map LexiconRow.code).Nodup
  distinct : ∀ row ∈ rows, (row.entries.map Entry.word).Nodup
  wordCodes : ∀ row ∈ rows, IsWordCode row.code

namespace Lexicon

/-- The lexicon without words. -/
def empty : Lexicon := ⟨[], by simp, by simp, by simp⟩

/-- All words with their codes, in order. -/
def entries (lex : Lexicon) : List (Code × Entry) :=
  lex.rows.flatMap fun row => row.entries.map fun e => (row.code, e)

/-- The number of words, counted under each code. -/
def size (lex : Lexicon) : Nat := lex.entries.length

/-- The words of a code. -/
def entriesOf (lex : Lexicon) (code : Code) : List Entry :=
  match lex.rows.find? fun row => row.code == code with
  | some row => row.entries
  | none => []

/-- The index that a word has under a code. -/
def indexOf? (lex : Lexicon) (code : Code) (word : String) : Option Int :=
  ((lex.entriesOf code).find? fun e => e.word == word).map Entry.index

/-- The lexicon with a further word under a code; a word that the code has already
keeps its index. -/
def insert (lex : Lexicon) (code : Code) (h : IsWordCode code) (e : Entry) : Lexicon where
  rows := insertRow code e lex.rows
  nodup := nodup_insertRow lex.nodup
  distinct := forall_mem_insertRow (by simp) (fun _ hrow => LexiconRow.nodup_insert hrow)
    lex.distinct
  wordCodes := forall_mem_insertRow h (fun row hrow => by simpa using hrow) lex.wordCodes

/-- Adds a word under typed pinyin, and tells the index it has then: the one it had
before, the one given, or else the number of words so far. -/
def addWord (lex : Lexicon) (pinyin : List Char) (word : String) (index? : Option Int) :
    Except Error (Lexicon × Int) := do
  let syllables ← syllablesOf pinyin
  if h : syllables = [] then throw .emptyPinyin
  else
    let code := codeOf syllables
    let index := index?.getD lex.size
    pure (lex.insert code (isWordCode_codeOf h) ⟨word, index⟩,
      (lex.indexOf? code word).getD index)

/-- A word is added exactly if its pinyin has a syllable at all and each of them can be read. -/
theorem addWord_eq_ok_iff {lex lex' : Lexicon} {pinyin : List Char} {word : String}
    {index? : Option Int} {index : Int} :
    lex.addWord pinyin word index? = .ok (lex', index) ↔
      ∃ (syllables : List Syllable) (h : syllables ≠ []), syllablesOf pinyin = .ok syllables ∧
        lex.insert (codeOf syllables) (isWordCode_codeOf h) ⟨word, index?.getD lex.size⟩ = lex' ∧
        (lex.indexOf? (codeOf syllables) word).getD (index?.getD lex.size) = index := by
  cases hread : syllablesOf pinyin with
  | error e => simp [addWord, hread, bind, Except.bind]
  | ok syllables =>
    by_cases hempty : syllables = []
    · simp [addWord, hread, hempty, bind, Except.bind, throw, throwThe, MonadExceptOf.throw]
    · simp [addWord, hread, hempty, bind, Except.bind, pure, Except.pure]

end Lexicon

end Pinyin
