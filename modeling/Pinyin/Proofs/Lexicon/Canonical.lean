import Pinyin.Proofs.Code.Stable
import Pinyin.Proofs.Lexicon.Lookup

/-!
# Pinyin.Proofs.Lexicon.Canonical

A word is found under the text of its code.

* `CutGraph.preferredPath`, `readingsAmong_preferredPath` — the way along the first edges, and the
  readings on it;
* `Lexicon.mem_entries_insert` — a word that is added is there, with the index that it then has;
* `spells_codeOf`, `exists_choice_joinPieces` — the texts of syllables have an exact choice of
  readings that spells the code of these;
* `lookup_decodeFull` — so a word is found under the text of its code, whatever rules are on.
-/

namespace Pinyin

/-! ## The preferred way -/

namespace CutGraph

/-- The way along the first edges from a position on. -/
def preferredPathFrom (g : CutGraph) (p : Nat) : Path :=
  p :: (g.preferredFrom p).map fun edge => edge.2.stop

/-- The way along the first edges. -/
def preferredPath (g : CutGraph) : Path := g.preferredPathFrom 0

variable {g : CutGraph}

theorem edgesAlong_preferredPathFrom (g : CutGraph) (p : Nat) :
    edgesAlong (g.preferredPathFrom p)
      = (g.preferredFrom p).map fun edge => (edge.1, edge.2.stop) := by
  cases hedges : g.edgesAt p with
  | nil =>
      rw [preferredPathFrom, preferredFrom_of_nil hedges]
      rfl
  | cons e others =>
      have he : e ∈ g.edgesAt p := hedges ▸ List.mem_cons_self
      have hforward := lt_stop he
      have hinside := stop_le_size he
      have hrest := edgesAlong_preferredPathFrom g e.stop
      have hway : g.preferredPathFrom p = p :: g.preferredPathFrom e.stop := by
        rw [preferredPathFrom, preferredFrom_of_cons hedges]
        rfl
      rw [preferredFrom_of_cons hedges, List.map_cons, ← hrest, hway]
      rfl
termination_by g.size - p

theorem isChain_preferredPath (g : CutGraph) :
    g.preferredPath.IsChain fun p q => q ∈ g.successors p := by
  rw [isChain_iff, preferredPath, edgesAlong_preferredPathFrom, List.forall_mem_map]
  exact fun edge hedge => List.mem_map_of_mem (mem_edgesAt_of_mem_preferredFrom hedge)

/-- Where every way can be completed, it is one of the ways to the end. -/
theorem preferredPath_mem_paths (h : g.HasNoDeadEnds) : g.preferredPath ∈ g.paths := by
  refine mem_pathsFrom_of_isChain g.isChain_preferredPath ?_
  have harrives := h.arrival_preferredFrom
  rw [arrival] at harrives
  rw [← harrives, List.getLastD_cons, List.getLastD_eq_getLast?, List.getLast?_map]
  cases (g.preferredFrom 0).getLast? <;> rfl

theorem readingsOf_stop {p : Nat} {e : Edge} (he : e ∈ g.edgesAt p) :
    g.readingsOf p e.stop = e.readings := by
  have hfind : (g.edgesAt p).find? (fun other => other.stop == e.stop) = some e :=
    find?_key_eq_some (g.nodup p) he
  rw [readingsOf, hfind]

theorem readingsAmong_preferredPath (g : CutGraph) :
    g.readingsAmong (edgesAlong g.preferredPath) = g.preferredReadings := by
  rw [preferredPath, edgesAlong_preferredPathFrom, readingsAmong, syllablesAmong, List.filter_map,
    List.map_map]
  refine List.map_congr_left fun edge hedge => ?_
  exact readingsOf_stop (mem_edgesAt_of_mem_preferredFrom (List.mem_filter.1 hedge).1)

end CutGraph

/-! ## Words that are added -/

/-- A row has a word that is put into it, with the index that the word had before or gets. -/
theorem LexiconRow.mem_insert (row : LexiconRow) (e : Entry) :
    ⟨e.word, (row.indexOf? e.word).getD e.index⟩ ∈ (row.insert e).entries := by
  rw [indexOf?, insert]
  cases hfind : row.entries.find? fun other => other.word == e.word with
  | none =>
      have hnew : e.word ∉ row.entries.map Entry.word := by simpa using hfind
      rw [if_neg hnew]
      exact List.mem_append_right _ (List.mem_singleton_self e)
  | some other =>
      have hother := List.mem_of_find?_eq_some hfind
      have hword : other.word = e.word := by simpa using List.find?_some hfind
      rw [if_pos (hword ▸ List.mem_map_of_mem hother), ← hword]
      exact hother

/-- So has the row of its code, where a word is put into rows. -/
theorem exists_row_mem_insertRow (code : Code) (e : Entry) (rows : List LexiconRow) :
    ∃ row ∈ insertRow code e rows, row.code = code ∧
      ⟨e.word, ((rows.find? fun row => row.code == code).bind fun row =>
        row.indexOf? e.word).getD e.index⟩ ∈ row.entries := by
  induction rows with
  | nil => exact ⟨_, List.mem_singleton_self _, rfl, List.mem_singleton_self e⟩
  | cons row rows ih =>
      by_cases hcode : row.code = code
      · refine ⟨row.insert e, by simp [insertRow, hcode], by simpa using hcode, ?_⟩
        rw [List.find?_cons_of_pos (by simpa using hcode), Option.bind_some]
        exact row.mem_insert e
      · obtain ⟨found, hfound, hsame, hentry⟩ := ih
        refine ⟨found, by simp [insertRow, hcode, hfound], hsame, ?_⟩
        rwa [List.find?_cons_of_neg (by simpa using hcode)]

namespace Lexicon

/-- **A word that is put into a lexicon is there**, with the index that it had before or gets. -/
theorem mem_entries_insert (lex : Lexicon) (code : Code) (h : IsWordCode code) (e : Entry) :
    (code, ⟨e.word, (lex.indexOf? code e.word).getD e.index⟩) ∈ (lex.insert code h e).entries := by
  have hindex : lex.indexOf? code e.word
      = (lex.rows.find? fun row => row.code == code).bind fun row => row.indexOf? e.word := by
    rw [indexOf?, entriesOf]
    cases lex.rows.find? fun row => row.code == code <;> rfl
  rw [hindex, mem_entries]
  exact exists_row_mem_insertRow code e lex.rows

end Lexicon

/-! ## Exact choices -/

theorem Syllable.agrees_code (s : Syllable) :
    s.Agrees (UInt8.ofNat s.initial.number) (UInt8.ofNat s.final.number) := by
  refine ⟨?_, .inr ?_⟩
  · rw [UInt8.toNat_ofNat_of_lt' (Initial.number_lt _)]
  · rw [UInt8.toNat_ofNat_of_lt' (Final.number_lt _)]

/-- A choice spells the code of its syllables. -/
theorem spells_codeOf (choice : List Reading) :
    Spells choice (codeOf (choice.map Reading.syllable)) := by
  induction choice with
  | nil => rfl
  | cons r choice ih => exact ⟨r.syllable.agrees_code, ih⟩

/-- The exact reading of the text of a syllable. -/
def exactReading (s : Syllable) : Reading := ⟨s.asTyped, false⟩

section

variable {ss : List Syllable}

theorem fuzziness_exactReading (ss : List Syllable) : fuzziness (ss.map exactReading) = 0 := by
  rw [fuzziness, List.countP_map, List.countP_eq_zero]
  exact fun _ _ => Bool.false_ne_true

theorem exactReading_mem_choices (h : ∀ s ∈ ss, s.IsKnown) (fz : FuzzySet) :
    ss.map exactReading ∈ choices (ss.map fun s => readings fz s.text) := by
  rw [mem_choices, List.forall₂_map_left_iff, List.forall₂_map_right_iff, List.forall₂_same]
  exact fun s hs => mem_readings_text (h s hs) fz

theorem spells_exactReading (ss : List Syllable) :
    Spells (ss.map exactReading) (codeOf (ss.map Syllable.asTyped)) := by
  have hspells := spells_codeOf (ss.map exactReading)
  rwa [List.map_map] at hspells

end

namespace Lexicon

/-! ## Looking up -/

/-- An entry under the code of some syllables is found once where their texts are read, at no
distance. -/
theorem exists_mem_matchesOf {lex : Lexicon} {ss : List Syllable} (h : ∀ s ∈ ss, s.IsKnown)
    {e : Entry} (he : (codeOf (ss.map Syllable.asTyped), e) ∈ lex.entries) (fz : FuzzySet) :
    ∃ m, ((lex.matchesOf (ss.map fun s => readings fz s.text)).filter fun m =>
      m.word = e.word ∧ m.index = e.index) = [m] ∧ m.distance = 0 := by
  have hnearest := lex.isNearest_matchesOf (ss.map fun s => readings fz s.text)
  have hexact : ⟨e.word, e.index, codeOf (ss.map Syllable.asTyped), 0⟩ ∈
      lex.allMatches (ss.map fun s => readings fz s.text) :=
    mem_allMatches.2 ⟨ss.map exactReading, exactReading_mem_choices h fz, he,
      spells_exactReading ss, by rw [fuzziness_exactReading]; rfl⟩
  obtain ⟨m, hm, hkey, hle⟩ := hnearest.covers _ hexact
  obtain ⟨choice, -, -, -, hdistance⟩ := mem_allMatches.1 (hnearest.subset m hm)
  have hzero : m.distance = 0 :=
    Int.le_antisymm hle (hdistance ▸ Int.natCast_nonneg (fuzziness choice))
  have hsame : ∀ other : WordMatch, (other.word = e.word ∧ other.index = e.index) ↔
      other.key = m.key := fun other => by
    rw [hkey, WordMatch.key, WordMatch.key, Prod.mk.injEq]
  refine ⟨m, ?_, hzero⟩
  simp only [hsame]
  exact hnearest.filter_key_eq hm

/-- **A word is found under the text of its code, whatever rules are on.**  The text that a code is
decoded to can be added with any word, and gives it an index.  The lookup along the first edges
through the graph of this text finds the word with this index then, once and at no distance. -/
theorem lookup_decodeFull {code : Code} {pinyin : List Char}
    (hdecode : decodeFull code = .ok pinyin) (hne : code ≠ []) (lex : Lexicon) (word : String)
    (index? : Option Int) :
    ∃ lex' index, lex.addWord pinyin word index? = .ok (lex', index) ∧
      ∀ opts : ReadingOptions,
        let g := CutGraph.ofPinyin opts pinyin
        g.preferredPath ∈ g.paths ∧
          ∃ found m, lex'.lookup g g.preferredPath = .ok found ∧
            (found.filter fun m => m.word = word ∧ m.index = index) = [m] ∧ m.distance = 0 := by
  obtain ⟨ss, hknown, rfl, rfl⟩ := decodeFull_eq_ok_iff.1 hdecode
  have hss : ss.map Syllable.asTyped ≠ [] := by
    rintro hnil
    rw [List.map_eq_nil_iff.1 hnil] at hne
    exact hne rfl
  refine ⟨_, _, addWord_eq_ok_iff.2 ⟨_, hss, syllablesOf_joinPieces hknown, rfl, rfl⟩, ?_⟩
  intro opts
  refine ⟨CutGraph.preferredPath_mem_paths (CutGraph.hasNoDeadEnds_ofPinyin opts _), ?_⟩
  have hentry := lex.mem_entries_insert (codeOf (ss.map Syllable.asTyped)) (isWordCode_codeOf hss)
    ⟨word, index?.getD lex.size⟩
  obtain ⟨m, hfilter, hdistance⟩ := exists_mem_matchesOf hknown hentry opts.fuzzy
  refine ⟨_, m, lookup_eq _ (CutGraph.isChain_preferredPath _), ?_, hdistance⟩
  rw [CutGraph.readingsAmong_preferredPath, preferredReadings_joinPieces hknown]
  exact hfilter

/-- A syllable that may be cut in two and one that is an initial only, with all rules on. -/
theorem lookup_decodeFull_sample :
    let code := codeOf [⟨.x, .ian⟩, ⟨.n, .bare⟩]
    let pinyin := "xian'n".toList
    let g := CutGraph.ofPinyin ⟨fun _ => true, true⟩ pinyin
    decodeFull code = .ok pinyin ∧ code ≠ [] ∧
      ∃ lex index, empty.addWord pinyin "鲜嫩" (some 7) = .ok (lex, index) ∧
        ∃ found m, lex.lookup g g.preferredPath = .ok found ∧
          (found.filter fun m => m.word = "鲜嫩" ∧ m.index = index) = [m] ∧ m.distance = 0 := by
  intro code pinyin g
  have hdecode : decodeFull code = .ok pinyin :=
    decodeFull_eq_ok_iff.2 ⟨[⟨.x, .ian⟩, ⟨.n, .bare⟩], by decide, rfl, by decide⟩
  have hne : code ≠ [] := by decide
  obtain ⟨lex, index, hadd, hlookup⟩ := lookup_decodeFull hdecode hne empty "鲜嫩" (some 7)
  exact ⟨hdecode, hne, lex, index, hadd, (hlookup ⟨fun _ => true, true⟩).2⟩

end Lexicon

end Pinyin
