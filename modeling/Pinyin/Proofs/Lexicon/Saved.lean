import Pinyin.Lexicon.File
import Pinyin.Proofs.Lexicon.Index
import Pinyin.Proofs.MessagePack.RoundTrip

/-!
# Pinyin.Proofs.Lexicon.Saved

What is written of a lexicon is what is read of it.

* `Lexicon.Reached` — the lexicons that adding words and loading files lead to;
* `Reached.entries_ne_nil`, `Reached.exists_isBuilt` — each of their codes has a word, and each of
  them has groups of codes that came with its words;
* `insertAll_entries` — its entries, put in one after the other, give the rows back;
* `Lexicon.Fits`, `exists_toBytes_iff` — exactly the lexicons that fit have a file;
* `Reached.ofBytes_toBytes` — the file of a lexicon is read as this lexicon.
-/

namespace Pinyin

open MessagePack (Value Portable sameKey isSome_toBytes?_text_iff isSome_toBytes?_binary_iff
  isSome_toBytes?_int_iff isSome_toBytes?_list_iff isSome_toBytes?_map_iff ofBytes?_toBytes?)

/-! ## Rows and their entries -/

/-- The rows with further words, one after the other. -/
def insertAll (entries : List (Code × Entry)) (rows : List LexiconRow) : List LexiconRow :=
  entries.foldl (fun rows entry => insertRow entry.1 entry.2 rows) rows

theorem insertAll_append (first second : List (Code × Entry)) (rows : List LexiconRow) :
    insertAll (first ++ second) rows = insertAll second (insertAll first rows) :=
  List.foldl_append

/-- A word of a new code comes into a new row at the end. -/
theorem insertRow_of_notMem {code : Code} {rows : List LexiconRow}
    (h : code ∉ rows.map LexiconRow.code) (e : Entry) :
    insertRow code e rows = rows ++ [⟨code, [e]⟩] := by
  induction rows with
  | nil => rfl
  | cons row rows ih =>
      simp only [List.map_cons, List.mem_cons, not_or] at h
      simp [insertRow, Ne.symm h.1, ih h.2]

/-- A new word of the last code comes to the end of the last row. -/
theorem insertRow_append_singleton {code : Code} {rows : List LexiconRow} {entries : List Entry}
    {e : Entry} (hcode : code ∉ rows.map LexiconRow.code)
    (hword : e.word ∉ entries.map Entry.word) :
    insertRow code e (rows ++ [⟨code, entries⟩]) = rows ++ [⟨code, entries ++ [e]⟩] := by
  induction rows with
  | nil => simp [insertRow, LexiconRow.insert, hword]
  | cons row rows ih =>
      simp only [List.map_cons, List.mem_cons, not_or] at hcode
      simp [insertRow, Ne.symm hcode.1, ih hcode.2]

/-- The words of a row, put in one after the other, give this row. -/
theorem insertAll_row {code : Code} {rows : List LexiconRow}
    (hcode : code ∉ rows.map LexiconRow.code) {entries : List Entry} (hne : entries ≠ [])
    (hdistinct : (entries.map Entry.word).Nodup) :
    insertAll (entries.map fun e => (code, e)) rows = rows ++ [⟨code, entries⟩] := by
  induction entries using List.reverseRecOn with
  | nil => exact absurd rfl hne
  | append_singleton entries e ih =>
      rw [List.map_append, insertAll_append]
      rw [List.map_append, List.nodup_append] at hdistinct
      have hword : e.word ∉ entries.map Entry.word := fun h =>
        hdistinct.2.2 e.word h e.word (by simp) rfl
      rcases eq_or_ne entries [] with rfl | hentries
      · exact insertRow_of_notMem hcode e
      · rw [ih hentries hdistinct.1]
        exact insertRow_append_singleton hcode hword

/-- **The entries of some rows, put in one after the other**, give these rows. -/
theorem insertAll_entries {rows : List LexiconRow} (hnodup : (rows.map LexiconRow.code).Nodup)
    (hne : ∀ row ∈ rows, row.entries ≠ [])
    (hdistinct : ∀ row ∈ rows, (row.entries.map Entry.word).Nodup) :
    insertAll (rows.flatMap fun row => row.entries.map fun e => (row.code, e)) [] = rows := by
  induction rows using List.reverseRecOn with
  | nil => rfl
  | append_singleton rows row ih =>
      rw [List.map_append, List.nodup_append] at hnodup
      rw [List.forall_mem_append] at hne hdistinct
      have hcode : row.code ∉ rows.map LexiconRow.code := fun h =>
        hnodup.2.2 row.code h row.code (by simp) rfl
      have hrow := insertAll_row hcode (hne.2 row (by simp)) (hdistinct.2 row (by simp))
      rw [List.flatMap_append, insertAll_append, ih hnodup.1 hne.1 hdistinct.1]
      simpa using hrow

namespace Lexicon

variable {lex : Lexicon} {bs : List UInt8}

/-! ## Lexicons that are reached -/

/-- A lexicon that adding words and loading files lead to. -/
inductive Reached : Lexicon → Prop
  | empty : Reached empty
  | addWord {lex lex' : Lexicon} {pinyin : List Char} {word : String} {index? : Option Int}
      {index : Int} (h : Reached lex) (hadd : lex.addWord pinyin word index? = .ok (lex', index)) :
      Reached lex'
  | load {lex : Lexicon} {bs : List UInt8} (h : ofBytes bs = .ok lex) : Reached lex

/-- What holds of the lexicon without words and stays true with a further word. -/
structure IsInvariant (P : Lexicon → Prop) : Prop where
  empty : P empty
  insert : ∀ {lex : Lexicon}, P lex → ∀ (code : Code) (h : IsWordCode code) (e : Entry),
    P (lex.insert code h e)

namespace IsInvariant

variable {P : Lexicon → Prop} (hP : IsInvariant P)

include hP

theorem addWord {lex' : Lexicon} {pinyin : List Char} {word : String} {index? : Option Int}
    {index : Int} (hadd : lex.addWord pinyin word index? = .ok (lex', index)) (h : P lex) :
    P lex' := by
  obtain ⟨syllables, hsyllables, -, rfl, -⟩ := addWord_eq_ok_iff.1 hadd
  exact hP.insert h _ (isWordCode_codeOf hsyllables) _

theorem insertValue {lex' : Lexicon} {v : Value} (hinsert : lex.insertValue v = .ok lex')
    (h : P lex) : P lex' := by
  unfold Lexicon.insertValue at hinsert
  repeat' split at hinsert
  all_goals cases hinsert
  exact hP.insert h _ _ _

theorem foldlM_insertValue {lex' : Lexicon} {items : List Value}
    (hitems : items.foldlM Lexicon.insertValue lex = .ok lex') (h : P lex) : P lex' := by
  induction items generalizing lex with
  | nil =>
      cases hitems
      exact h
  | cons v items ih =>
      rw [List.foldlM_cons, bind_eq_ok_iff] at hitems
      obtain ⟨next, hinsert, hitems⟩ := hitems
      exact ih hitems (hP.insertValue hinsert h)

theorem ofBytes (hload : ofBytes bs = .ok lex) : P lex := by
  unfold Lexicon.ofBytes ofValue at hload
  repeat' split at hload
  all_goals first | exact hP.foldlM_insertValue hload hP.empty | cases hload

/-- **An invariant holds** of every lexicon that is reached. -/
theorem of_reached (h : lex.Reached) : P lex := by
  induction h with
  | empty => exact hP.empty
  | addWord _ hadd ih => exact hP.addWord hadd ih
  | load hload => exact hP.ofBytes hload

end IsInvariant

/-- Every code has a word. -/
theorem isInvariant_entries_ne_nil :
    IsInvariant fun lex => ∀ row ∈ lex.rows, row.entries ≠ [] where
  empty := by simp [empty]
  insert := by
    intro lex h code hcode e
    refine forall_mem_insertRow (by simp) (fun row hrow => ?_) h
    unfold LexiconRow.insert
    split
    · exact hrow
    · simp

/-- The codes can be kept in groups. -/
theorem isInvariant_exists_isBuilt :
    IsInvariant fun lex => ∃ d : IndexedLexicon, d.IsBuilt ∧ d.lexicon = lex where
  empty := ⟨.empty, .empty, rfl⟩
  insert := by
    rintro _ ⟨d, hd, rfl⟩ code hcode e
    exact ⟨d.insert code hcode e, hd.insert code hcode e, rfl⟩

namespace Reached

theorem entries_ne_nil (h : lex.Reached) : ∀ row ∈ lex.rows, row.entries ≠ [] :=
  isInvariant_entries_ne_nil.of_reached h

theorem exists_isBuilt (h : lex.Reached) : ∃ d : IndexedLexicon, d.IsBuilt ∧ d.lexicon = lex :=
  isInvariant_exists_isBuilt.of_reached h

end Reached

/-! ## What fits -/

/-- A file can hold a lexicon: the number of entries, the length of each code and word and each
index fit. -/
structure Fits (lex : Lexicon) : Prop where
  size : lex.size < Nat.pow 2 32
  codes : ∀ entry ∈ lex.entries, entry.1.length < Nat.pow 2 32
  words : ∀ entry ∈ lex.entries, (utf8 entry.2.word).length < Nat.pow 2 32
  indices : ∀ entry ∈ lex.entries,
    -(Nat.pow 2 63 : Int) ≤ entry.2.index ∧ entry.2.index < Nat.pow 2 64

theorem isSome_toBytes?_entryValue_iff {code : Code} {e : Entry} :
    (MessagePack.toBytes? (entryValue code e)).isSome ↔
      code.length < Nat.pow 2 32 ∧ (utf8 e.word).length < Nat.pow 2 32 ∧
        -(Nat.pow 2 63 : Int) ≤ e.index ∧ e.index < Nat.pow 2 64 := by
  rw [entryValue, isSome_toBytes?_list_iff]
  simp [isSome_toBytes?_binary_iff, isSome_toBytes?_text_iff, isSome_toBytes?_int_iff]

theorem isSome_toBytes?_iff : (MessagePack.toBytes? lex.toValue).isSome ↔ lex.Fits := by
  have htext : ∀ text ∈ ["version", fileVersion, "entries"],
      (MessagePack.toBytes? (.text text)).isSome := by decide +kernel
  simp only [List.forall_mem_cons] at htext
  rw [toValue, isSome_toBytes?_map_iff]
  simp only [List.forall_mem_cons, htext, isSome_toBytes?_list_iff, List.length_map,
    List.forall_mem_map, isSome_toBytes?_entryValue_iff]
  constructor
  · rintro ⟨-, -, ⟨-, hsize, hentries⟩, -⟩
    exact ⟨hsize, fun e he => (hentries e he).1, fun e he => (hentries e he).2.1,
      fun e he => (hentries e he).2.2⟩
  · intro h
    have hfields : 2 < Nat.pow 2 32 := by decide
    exact ⟨hfields, by simp, ⟨trivial, h.size, fun e he =>
      ⟨h.codes e he, h.words e he, h.indices e he⟩⟩, by simp⟩

theorem toBytes_eq_ok_iff : lex.toBytes = .ok bs ↔ MessagePack.toBytes? lex.toValue = some bs := by
  rw [toBytes]
  cases MessagePack.toBytes? lex.toValue <;> simp

/-- **Exactly the lexicons that fit have a file.** -/
theorem exists_toBytes_iff : (∃ bs, lex.toBytes = .ok bs) ↔ lex.Fits := by
  simp only [toBytes_eq_ok_iff, ← isSome_toBytes?_iff, Option.isSome_iff_exists]

/-! ## Reading what was written -/

theorem portable_toValue (lex : Lexicon) (depth : Nat) : Portable (depth + 3) lex.toValue := by
  refine .map ⟨by simp [sameKey], by simp [sameKey]⟩ ?_
  simp only [List.forall_mem_cons]
  refine ⟨.text fileVersion, .list ?_, by simp⟩
  rw [List.forall_mem_map]
  intro entry _
  refine .list ?_
  simp only [List.forall_mem_cons]
  exact ⟨.binary entry.1, .text entry.2.word, .int entry.2.index, by simp⟩

/-- Entries with codes of words are put in as they are read. -/
theorem foldlM_entryValue {entries : List (Code × Entry)} (h : ∀ entry ∈ entries, IsWordCode entry.1)
    (lex : Lexicon) :
    ∃ lex', (entries.map fun (code, e) => entryValue code e).foldlM insertValue lex = .ok lex' ∧
      lex'.rows = insertAll entries lex.rows := by
  induction entries generalizing lex with
  | nil => exact ⟨lex, rfl, rfl⟩
  | cons entry entries ih =>
      obtain ⟨code, e⟩ := entry
      obtain ⟨hcode, hentries⟩ := List.forall_mem_cons.1 h
      obtain ⟨lex', hfold, hrows⟩ := ih hentries (lex.insert code hcode e)
      have hinsert : lex.insertValue (entryValue code e) = .ok (lex.insert code hcode e) := by
        simp only [entryValue, insertValue, index?, hcode, dite_true]
      refine ⟨lex', ?_, hrows⟩
      rw [List.map_cons, List.foldlM_cons, hinsert]
      exact hfold

/-- A lexicon in which every code has a word is described by its value. -/
theorem ofValue_toValue (h : ∀ row ∈ lex.rows, row.entries ≠ []) :
    ofValue lex.toValue = .ok lex := by
  have hcodes : ∀ entry ∈ lex.entries, IsWordCode entry.1 := by
    rintro ⟨code, e⟩ hentry
    obtain ⟨row, hrow, rfl, -⟩ := mem_entries.1 hentry
    exact lex.wordCodes row hrow
  obtain ⟨lex', hfold, hrows⟩ := foldlM_entryValue hcodes empty
  have hlex : lex' = lex := Lexicon.ext (hrows.trans (insertAll_entries lex.nodup h lex.distinct))
  calc
    ofValue lex.toValue
      = (lex.entries.map fun (code, e) => entryValue code e).foldlM insertValue empty := rfl
    _ = .ok lex := hlex ▸ hfold

theorem ofBytes_of_toBytes (h : ∀ row ∈ lex.rows, row.entries ≠ []) (hbytes : lex.toBytes = .ok bs) :
    ofBytes bs = .ok lex := by
  rw [ofBytes, ofBytes?_toBytes? (lex.portable_toValue _) (toBytes_eq_ok_iff.1 hbytes)]
  exact ofValue_toValue h

/-- **Loading what was saved changes nothing.**  A lexicon that is reached is described by its value,
whatever its size.  It has a file exactly if it fits, and the file is read as the same lexicon: with
the same entries in the same order, and so with the same words at every lookup and the same indices
for words that are added later.  The groups of its codes are built again as they were. -/
theorem ofBytes_toBytes (h : lex.Reached) :
    ofValue lex.toValue = .ok lex ∧ ((∃ bs, lex.toBytes = .ok bs) ↔ lex.Fits) ∧
      ∀ bs, lex.toBytes = .ok bs → ofBytes bs = .ok lex ∧
        ∃ d : IndexedLexicon, d.IsBuilt ∧ d.lexicon = lex ∧
          ∀ loaded : IndexedLexicon, loaded.IsBuilt → ofBytes bs = .ok loaded.lexicon →
            loaded = d := by
  refine ⟨ofValue_toValue h.entries_ne_nil, exists_toBytes_iff, fun bs hbytes => ?_⟩
  have hload : ofBytes bs = .ok lex := ofBytes_of_toBytes h.entries_ne_nil hbytes
  obtain ⟨d, hd, hlexicon⟩ := h.exists_isBuilt
  refine ⟨hload, d, hd, hlexicon, fun loaded hloaded hsame => hloaded.eq_of_lexicon_eq hd ?_⟩
  rw [hload, Except.ok.injEq] at hsame
  exact hsame.symm.trans hlexicon.symm

/-- A word that has two pronunciations, the second one with an index of its own. -/
theorem ofBytes_toBytes_sample :
    let once := empty.insert (codeOf [⟨.l, .e⟩]) (by decide) ⟨"乐", 0⟩
    let lex := once.insert (codeOf [⟨.y, .ue⟩]) (by decide) ⟨"乐", -1⟩
    lex.Reached ∧ ∃ bs, lex.toBytes = .ok bs ∧ ofBytes bs = .ok lex := by
  intro once lex
  have honce : empty.addWord "le".toList "乐" none = .ok (once, 0) :=
    addWord_eq_ok_iff.2 ⟨[⟨.l, .e⟩], by simp, by cbv, rfl, rfl⟩
  have hlex : once.addWord "yue".toList "乐" (some (-1)) = .ok (lex, -1) :=
    addWord_eq_ok_iff.2 ⟨[⟨.y, .ue⟩], by simp, by cbv, rfl, rfl⟩
  have hreached : lex.Reached := .addWord (.addWord .empty honce) hlex
  have hfits : lex.Fits := ⟨by decide, by decide, by decide +kernel, by decide⟩
  obtain ⟨-, hiff, hload⟩ := ofBytes_toBytes hreached
  obtain ⟨bs, hbytes⟩ := hiff.2 hfits
  exact ⟨hreached, bs, hbytes, (hload bs hbytes).1⟩

end Lexicon

end Pinyin
