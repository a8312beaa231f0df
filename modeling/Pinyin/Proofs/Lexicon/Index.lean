import Pinyin.Proofs.Lexicon.Nearest
import Pinyin.Proofs.List

/-!
# Pinyin.Proofs.Lexicon.Index

A lexicon that also keeps its codes by their initials, so that a search need not go through all
rows.

* `InitialGroups` — the codes with the same initials, `groupOf_groupsOf` — no code is lost, and
  each group keeps the order of the codes;
* `IndexedLexicon` — a lexicon with such groups, `IndexedLexicon.IsBuilt` — the groups came with
  its words;
* `IsBuilt.groups_eq` — the groups depend on the lexicon only, not on how it was built;
* `IsBuilt.lookup_eq` — looking up by groups finds the same words in the same order.
-/

namespace Pinyin

/-! ## Initials and finals -/

/-- The initials of the syllables of a code. -/
def initialsOf : Code → Code
  | initial :: _ :: rest => initial :: initialsOf rest
  | rest => rest

/-- The finals of the syllables of a code. -/
def finalsOf : Code → Code
  | _ :: final :: rest => final :: finalsOf rest
  | _ => []

/-- The initials of the syllables that are chosen. -/
def chosenInitials (choice : List Reading) : Code :=
  choice.map fun r => UInt8.ofNat r.syllable.initial.number

/-- The finals that are chosen are those given, and one that is left out may be any. -/
def FinalsAgree (choice : List Reading) (finals : Code) : Prop :=
  ∀ pair ∈ choice.zip finals,
    pair.1.syllable.final = .bare ∨ pair.1.syllable.final.number = pair.2.toNat

instance (choice : List Reading) (finals : Code) : Decidable (FinalsAgree choice finals) := by
  unfold FinalsAgree; infer_instance

/-- A choice spells a code if it has its initials and agrees with its finals. -/
theorem spells_iff {choice : List Reading} {code : Code} (heven : code.length % 2 = 0) :
    Spells choice code ↔
      initialsOf code = chosenInitials choice ∧ FinalsAgree choice (finalsOf code) := by
  induction choice generalizing code with
  | nil =>
      match code with
      | [] => simp [Spells, initialsOf, chosenInitials, FinalsAgree]
      | [_] => cases heven
      | _ :: _ :: _ => simp [Spells, initialsOf, chosenInitials]
  | cons r choice ih =>
      match code with
      | [] => simp [Spells, initialsOf, chosenInitials]
      | [_] => cases heven
      | initial :: final :: rest =>
          have hrest : rest.length % 2 = 0 := by
            simp only [List.length_cons] at heven
            omega
          have hinitial : r.syllable.initial.number = initial.toNat ↔
              initial = UInt8.ofNat r.syllable.initial.number := by
            rw [← UInt8.toNat_inj, UInt8.toNat_ofNat_of_lt' (Initial.number_lt _), eq_comm]
          simp only [Spells, Syllable.Agrees, ih hrest, hinitial, initialsOf, finalsOf,
            chosenInitials, List.map_cons, List.cons.injEq, FinalsAgree, List.zip_cons_cons,
            List.forall_mem_cons]
          tauto

/-! ## Groups of codes -/

/-- Codes in groups with the same initials, each group and the codes in it in the order in which
they came. -/
abbrev InitialGroups := List (Code × List Code)

/-- The groups with a further code: in the group of its initials, or in a new one at the end. -/
def addToGroup (code : Code) : InitialGroups → InitialGroups
  | [] => [(initialsOf code, [code])]
  | (initials, codes) :: groups =>
    if initials = initialsOf code then (initials, codes ++ [code]) :: groups
    else (initials, codes) :: addToGroup code groups

/-- The codes with given initials. -/
def groupOf (initials : Code) : InitialGroups → List Code
  | [] => []
  | (key, codes) :: groups => if key = initials then codes else groupOf initials groups

/-- The groups of some codes, put into them one after the other. -/
def groupsOf (codes : List Code) : InitialGroups :=
  codes.foldl (fun groups code => addToGroup code groups) []

theorem groupsOf_append_singleton (codes : List Code) (code : Code) :
    groupsOf (codes ++ [code]) = addToGroup code (groupsOf codes) :=
  List.foldl_append

theorem groupOf_addToGroup (initials code : Code) (groups : InitialGroups) :
    groupOf initials (addToGroup code groups)
      = groupOf initials groups ++ if initialsOf code = initials then [code] else [] := by
  induction groups with
  | nil => simp [addToGroup, groupOf]
  | cons group groups ih =>
      obtain ⟨key, codes⟩ := group
      by_cases hcode : key = initialsOf code
      · by_cases hkey : key = initials
        · simp [addToGroup, groupOf, ← hcode, hkey]
        · simp [addToGroup, groupOf, ← hcode, hkey]
      · by_cases hkey : key = initials
        · have hother : initialsOf code ≠ initials := fun h => hcode (hkey.trans h.symm)
          simp [addToGroup, groupOf, hkey, hother, Ne.symm hother]
        · simp [addToGroup, groupOf, hcode, hkey, ih]

/-- **A group holds the codes with its initials**, in their order. -/
theorem groupOf_groupsOf (initials : Code) (codes : List Code) :
    groupOf initials (groupsOf codes) = codes.filter fun code => initialsOf code = initials := by
  induction codes using List.reverseRecOn with
  | nil => rfl
  | append_singleton codes code ih =>
      rw [groupsOf_append_singleton, groupOf_addToGroup, ih, List.filter_append, List.filter_singleton]
      simp

/-! ## Lexicons with groups -/

theorem map_code_insertRow (code : Code) (e : Entry) (rows : List LexiconRow) :
    (insertRow code e rows).map LexiconRow.code
      = if code ∈ rows.map LexiconRow.code then rows.map LexiconRow.code
        else rows.map LexiconRow.code ++ [code] := by
  induction rows with
  | nil => rfl
  | cons row rows ih =>
      by_cases hcode : row.code = code
      · simp [insertRow, hcode]
      · simp only [insertRow, if_neg hcode, List.map_cons, ih, List.mem_cons, Ne.symm hcode,
          false_or, List.cons_append]
        split <;> rfl

namespace Lexicon

/-- The codes that have words, in the order in which they came. -/
def codes (lex : Lexicon) : List Code := lex.rows.map LexiconRow.code

theorem entriesOf_code {lex : Lexicon} {row : LexiconRow} (h : row ∈ lex.rows) :
    lex.entriesOf row.code = row.entries := by
  rw [entriesOf, find?_key_eq_some lex.nodup h]

end Lexicon

/-- A lexicon with its codes in groups by their initials. -/
@[ext] structure IndexedLexicon where
  lexicon : Lexicon
  groups : InitialGroups

namespace IndexedLexicon

/-- The lexicon without words, and without groups. -/
def empty : IndexedLexicon := ⟨.empty, []⟩

/-- The lexicon with a further word; a code without words before is put into its group. -/
def insert (d : IndexedLexicon) (code : Code) (h : IsWordCode code) (e : Entry) : IndexedLexicon :=
  ⟨d.lexicon.insert code h e,
    if code ∈ d.lexicon.codes then d.groups else addToGroup code d.groups⟩

/-- For every choice of readings the words of the codes that it spells, looked for among those with
its initials. -/
def allMatches (d : IndexedLexicon) (options : List (List Reading)) : List WordMatch :=
  (choices options).flatMap fun choice =>
    ((groupOf (chosenInitials choice) d.groups).filter fun code =>
      FinalsAgree choice (finalsOf code)).flatMap fun code =>
        (d.lexicon.entriesOf code).map fun e => ⟨e.word, e.index, code, fuzziness choice⟩

/-- The nearest of these, in the order in which they are found. -/
def matchesOf (d : IndexedLexicon) (options : List (List Reading)) : List WordMatch :=
  if options.isEmpty then []
  else (d.allMatches options).foldl (fun found m => improve m found) []

/-- The words that a way through a graph spells. -/
def lookup (d : IndexedLexicon) (g : CutGraph) (path : Path) : Except Error (List WordMatch) := do
  match ← spanReadings g (path.zip path.tail) with
  | none => pure []
  | some options => pure (d.matchesOf options)

/-- A lexicon whose groups came with its words. -/
inductive IsBuilt : IndexedLexicon → Prop
  | empty : IsBuilt empty
  | insert {d : IndexedLexicon} (hd : IsBuilt d) (code : Code) (h : IsWordCode code) (e : Entry) :
      IsBuilt (d.insert code h e)

namespace IsBuilt

variable {d : IndexedLexicon}

/-- **The groups are those of the codes** of the lexicon. -/
theorem groups_eq (h : d.IsBuilt) : d.groups = groupsOf d.lexicon.codes := by
  induction h with
  | empty => rfl
  | @insert d _ code hcode e ih =>
      have hcodes : (d.lexicon.insert code hcode e).codes
          = if code ∈ d.lexicon.codes then d.lexicon.codes else d.lexicon.codes ++ [code] :=
        map_code_insertRow code e d.lexicon.rows
      simp only [IndexedLexicon.insert, hcodes, ih]
      split
      · rfl
      · exact (groupsOf_append_singleton d.lexicon.codes code).symm

/-- The groups do not depend on the way in which a lexicon was built. -/
theorem eq_of_lexicon_eq (h : d.IsBuilt) {other : IndexedLexicon} (hother : other.IsBuilt)
    (heq : d.lexicon = other.lexicon) : d = other :=
  IndexedLexicon.ext heq (by rw [h.groups_eq, hother.groups_eq, heq])

/-- **Searching by groups** finds what searching all rows does. -/
theorem allMatches_eq (h : d.IsBuilt) (options : List (List Reading)) :
    d.allMatches options = d.lexicon.allMatches options := by
  refine List.flatMap_congr fun choice _ => ?_
  have hrows : (groupOf (chosenInitials choice) d.groups).filter
        (fun code => FinalsAgree choice (finalsOf code))
      = (d.lexicon.rows.filter fun row => Spells choice row.code).map LexiconRow.code := by
    rw [h.groups_eq, groupOf_groupsOf, Lexicon.codes, List.filter_filter, List.filter_map]
    refine congrArg _ (List.filter_congr fun row hrow => ?_)
    have hspells : Spells choice row.code ↔ _ := spells_iff (d.lexicon.wordCodes row hrow).2
    simp [hspells, and_comm]
  rw [hrows, List.flatMap_map]
  refine List.flatMap_congr fun row hrow => ?_
  rw [Lexicon.entriesOf_code (List.mem_filter.1 hrow).1, LexiconRow.matchesAt]

/-- **Looking up by groups** gives the same words in the same order. -/
theorem lookup_eq (h : d.IsBuilt) (g : CutGraph) (path : Path) :
    d.lookup g path = d.lexicon.lookup g path := by
  have hmatches : ∀ options, d.matchesOf options = d.lexicon.matchesOf options := by
    intro options
    rw [matchesOf, h.allMatches_eq, ← Lexicon.matchesOf_eq, ite_eq_right_iff]
    intro hempty
    rw [Lexicon.matchesOf, if_pos hempty]
  rw [lookup, Lexicon.lookup]
  cases spanReadings g (path.zip path.tail) with
  | error e => rfl
  | ok options? =>
      cases options? with
      | none => rfl
      | some options => exact congrArg Except.ok (hmatches options)

end IsBuilt

end IndexedLexicon

end Pinyin
