import Mathlib.Data.List.Forall2
import Mathlib.Data.List.Induction
import Mathlib.Data.List.Nodup
import Pinyin.Lexicon.Lookup

/-!
# Pinyin.Proofs.Lexicon.Nearest

The words that some readings spell, found by trying every choice of them.

* `choices` — one reading for each syllable, in every way;
* `Spells` — a choice of readings spells a code;
* `Lexicon.allMatches` — for every choice the words of the codes that it spells, with the number of
  fuzzy readings that it has;
* `IsNearest`, `isNearest_foldl` — of the matches with the same word and index one is kept, at the
  least distance;
* `Lexicon.matchesOf_eq`, `Lexicon.isNearest_matchesOf` — what is found is the nearest of all
  matches.
-/

namespace Pinyin

/-! ## Choices of readings -/

/-- One reading for each syllable, in every way; the first syllable changes last. -/
def choices : List (List Reading) → List (List Reading)
  | [] => [[]]
  | rs :: options => rs.flatMap fun r => (choices options).map (r :: ·)

theorem mem_choices {options : List (List Reading)} {choice : List Reading} :
    choice ∈ choices options ↔ List.Forall₂ (· ∈ ·) choice options := by
  induction options generalizing choice with
  | nil => simp [choices]
  | cons rs options ih =>
      simp only [choices, List.mem_flatMap, List.mem_map, ih]
      constructor
      · rintro ⟨r, hr, rest, hrest, rfl⟩
        exact .cons hr hrest
      · rintro (_ | ⟨hr, hrest⟩)
        exact ⟨_, hr, _, hrest, rfl⟩

/-- A syllable without readings leaves nothing to choose. -/
theorem choices_eq_nil {options : List (List Reading)} (h : [] ∈ options) :
    choices options = [] := by
  induction options with
  | nil => cases h
  | cons rs options ih =>
      rcases List.mem_cons.1 h with rfl | h
      · rfl
      · simp [choices, ih h]

/-- The number of fuzzy readings in a choice. -/
def fuzziness (choice : List Reading) : Nat := choice.countP Reading.fuzzy

theorem fuzziness_cons (r : Reading) (choice : List Reading) :
    fuzziness (r :: choice) = r.fuzzy.toNat + fuzziness choice := by
  cases h : r.fuzzy <;> simp [fuzziness, h, Nat.add_comm]

/-- A choice of readings spells a code: there are as many syllables in both, and each reading
agrees with the initial and the final in its place. -/
def Spells : List Reading → Code → Prop
  | [], code => code = []
  | r :: choice, initial :: final :: rest => r.syllable.Agrees initial final ∧ Spells choice rest
  | _ :: _, _ => False

instance Spells.decidable : (choice : List Reading) → (code : Code) → Decidable (Spells choice code)
  | [], code => inferInstanceAs (Decidable (code = []))
  | r :: choice, initial :: final :: rest =>
    have := Spells.decidable choice rest
    inferInstanceAs (Decidable (r.syllable.Agrees initial final ∧ Spells choice rest))
  | _ :: _, [] => inferInstanceAs (Decidable False)
  | _ :: _, [_] => inferInstanceAs (Decidable False)

/-- A code of a word is not spelled by no reading at all. -/
theorem Spells.ne_nil {choice : List Reading} {code : Code} (h : Spells choice code)
    (hcode : IsWordCode code) : choice ≠ [] := by
  rintro rfl
  exact hcode.1 h

/-! ## Rows that a choice spells -/

/-- The candidates that remain after a reading are those that it begins to spell. -/
theorem filter_filterMap_step? (r : Reading) (choice : List Reading) (cands : List Candidate) :
    ((cands.filterMap (Candidate.step? r)).filter fun cand => Spells choice cand.2).map Prod.fst
      = (cands.filter fun cand => Spells (r :: choice) cand.2).map Prod.fst := by
  induction cands with
  | nil => rfl
  | cons cand cands ih =>
      obtain ⟨row, code⟩ := cand
      match code with
      | [] => exact ih
      | [_] => exact ih
      | initial :: final :: rest =>
          by_cases hagrees : r.syllable.Agrees initial final <;>
            by_cases hrest : Spells choice rest <;>
              simpa [Candidate.step?, Spells, hagrees, hrest] using ih

/-- Narrowing down some rows tries every choice on every row. -/
theorem narrow_eq (options : List (List Reading)) (distance : Nat) (cands : List Candidate) :
    narrow options distance cands
      = (choices options).flatMap fun choice =>
          ((cands.filter fun cand => Spells choice cand.2).map Prod.fst).map
            fun row => (distance + fuzziness choice, row) := by
  induction options generalizing distance cands with
  | nil =>
      have hdone : ∀ code : Code, code.isEmpty = decide (Spells [] code) := fun code => by
        rw [Bool.eq_iff_iff, List.isEmpty_iff, decide_eq_true_eq, Spells]
      simp [narrow, choices, fuzziness, hdone, Function.comp_def]
  | cons rs options ih =>
      rw [narrow]
      by_cases hempty : cands.isEmpty
      · rw [if_pos hempty, List.isEmpty_iff.1 hempty]
        simp
      · rw [if_neg hempty, choices, List.flatMap_assoc]
        refine List.flatMap_congr fun r _ => ?_
        simp only [ih, List.flatMap_map, filter_filterMap_step?, fuzziness_cons, Nat.add_assoc]

/-! ## The nearest matches -/

/-- What tells matches of different words apart. -/
def WordMatch.key (m : WordMatch) : String × Int := (m.word, m.index)

/-- Some matches are the nearest of all: they are among them, no word comes twice with the same
index, and each of all comes at most as far away as it is. -/
structure IsNearest (found all : List WordMatch) : Prop where
  nodup : (found.map WordMatch.key).Nodup
  subset : ∀ m ∈ found, m ∈ all
  covers : ∀ m ∈ all, ∃ best ∈ found, best.key = m.key ∧ best.distance ≤ m.distance

theorem map_key_improve (m : WordMatch) (found : List WordMatch) :
    (improve m found).map WordMatch.key
      = if m.key ∈ found.map WordMatch.key then found.map WordMatch.key
        else found.map WordMatch.key ++ [m.key] := by
  induction found with
  | nil => rfl
  | cons best rest ih =>
      have hsame : (best.word = m.word ∧ best.index = m.index) ↔ best.key = m.key := by
        simp [WordMatch.key]
      by_cases hkey : best.key = m.key
      · by_cases hless : m.distance < best.distance <;> simp [improve, hsame, hkey, hless]
      · have hother : m.key ∈ (best :: rest).map WordMatch.key ↔ m.key ∈ rest.map WordMatch.key := by
          rw [List.map_cons, List.mem_cons, or_iff_right (Ne.symm hkey)]
        simp only [improve, hsame, hkey, if_false, List.map_cons, ih, List.cons_append] at hother ⊢
        simp only [hother]
        split <;> rfl

theorem mem_of_mem_improve {m other : WordMatch} {found : List WordMatch}
    (h : other ∈ improve m found) : other = m ∨ other ∈ found := by
  induction found with
  | nil => exact .inl (List.mem_singleton.1 h)
  | cons best rest ih =>
      unfold improve at h
      repeat' split at h
      all_goals grind

/-- A further match is covered, and what was covered before still is. -/
theorem exists_mem_improve {m other : WordMatch} {found : List WordMatch}
    (h : other = m ∨ other ∈ found) :
    ∃ best ∈ improve m found, best.key = other.key ∧ best.distance ≤ other.distance := by
  induction found with
  | nil =>
      obtain rfl : other = m := by simpa using h
      exact ⟨other, List.mem_singleton_self other, rfl, Int.le_refl other.distance⟩
  | cons first rest ih =>
      have hsame : (first.word = m.word ∧ first.index = m.index) ↔ first.key = m.key := by
        simp [WordMatch.key]
      simp only [improve, hsame]
      grind

theorem IsNearest.improve {found all : List WordMatch} (h : IsNearest found all) (m : WordMatch) :
    IsNearest (improve m found) (all ++ [m]) where
  nodup := by
    rw [map_key_improve]
    split
    · exact h.nodup
    · next hnew => exact List.nodup_append.2 ⟨h.nodup, by simp, by simpa using hnew⟩
  subset := by
    intro other hother
    rcases mem_of_mem_improve hother with rfl | hmem
    · exact List.mem_append_right all (List.mem_singleton_self other)
    · exact List.mem_append_left [m] (h.subset other hmem)
  covers := by
    intro other hother
    rcases List.mem_append.1 hother with hmem | hnew
    · obtain ⟨best, hbest, hkey, hle⟩ := h.covers other hmem
      obtain ⟨better, hbetter, hkey', hle'⟩ := exists_mem_improve (m := m) (.inr hbest)
      exact ⟨better, hbetter, hkey'.trans hkey, Int.le_trans hle' hle⟩
    · exact exists_mem_improve (.inl (List.mem_singleton.1 hnew))

/-- **Improving by one match after the other** leaves the nearest of them. -/
theorem isNearest_foldl (all : List WordMatch) :
    IsNearest (all.foldl (fun found m => improve m found) []) all := by
  induction all using List.reverseRecOn with
  | nil => exact ⟨List.nodup_nil, by simp, by simp⟩
  | append_singleton all m ih =>
      rw [List.foldl_append]
      exact ih.improve m

namespace IsNearest

variable {found all : List WordMatch} {m : WordMatch}

/-- A match that is kept is the nearest of its word and index. -/
theorem distance_le (h : IsNearest found all) (hm : m ∈ found) {other : WordMatch}
    (hother : other ∈ all) (hkey : other.key = m.key) : m.distance ≤ other.distance := by
  obtain ⟨best, hbest, hbestKey, hle⟩ := h.covers other hother
  obtain rfl : best = m := List.inj_on_of_nodup_map h.nodup hbest hm (hbestKey.trans hkey)
  exact hle

/-- It is the only one that is kept of them. -/
theorem filter_key_eq (h : IsNearest found all) (hm : m ∈ found) :
    (found.filter fun other => other.key = m.key) = [m] := by
  have hnodup : (found.filter fun other => other.key = m.key).Nodup :=
    (List.Nodup.of_map _ h.nodup).filter _
  refine List.perm_singleton.1 ((List.perm_ext_iff_of_nodup hnodup (List.nodup_singleton m)).2 ?_)
  intro other
  rw [List.mem_filter, List.mem_singleton, decide_eq_true_eq]
  constructor
  · rintro ⟨hother, hkey⟩
    exact List.inj_on_of_nodup_map h.nodup hother hm hkey
  · rintro rfl
    exact ⟨hm, rfl⟩

end IsNearest

/-! ## The words of a lexicon -/

namespace Lexicon

/-- For every choice of readings the words of the codes that it spells. -/
def allMatches (lex : Lexicon) (options : List (List Reading)) : List WordMatch :=
  (choices options).flatMap fun choice =>
    (lex.rows.filter fun row => Spells choice row.code).flatMap fun row =>
      row.matchesAt (fuzziness choice)

theorem mem_entries {lex : Lexicon} {code : Code} {e : Entry} :
    (code, e) ∈ lex.entries ↔ ∃ row ∈ lex.rows, row.code = code ∧ e ∈ row.entries := by
  simp only [entries, List.mem_flatMap, List.mem_map, Prod.mk.injEq]
  grind

/-- The matches are the entries that some choice spells, each as far away as the choice is fuzzy. -/
theorem mem_allMatches {lex : Lexicon} {options : List (List Reading)} {m : WordMatch} :
    m ∈ lex.allMatches options ↔
      ∃ choice ∈ choices options, (m.code, ⟨m.word, m.index⟩) ∈ lex.entries ∧
        Spells choice m.code ∧ m.distance = fuzziness choice := by
  obtain ⟨word, index, code, distance⟩ := m
  simp only [allMatches, LexiconRow.matchesAt, List.mem_flatMap, List.mem_filter, List.mem_map,
    decide_eq_true_eq, mem_entries, WordMatch.mk.injEq]
  constructor
  · rintro ⟨choice, hchoice, row, ⟨hrow, hspells⟩, e, he, rfl, rfl, rfl, rfl⟩
    exact ⟨choice, hchoice, ⟨row, hrow, rfl, he⟩, hspells, rfl⟩
  · rintro ⟨choice, hchoice, ⟨row, hrow, rfl, he⟩, hspells, rfl⟩
    exact ⟨choice, hchoice, row, ⟨hrow, hspells⟩, _, he, rfl, rfl, rfl, rfl⟩

/-- **What is found** is what is left of all matches. -/
theorem matchesOf_eq (lex : Lexicon) (options : List (List Reading)) :
    lex.matchesOf options
      = (lex.allMatches options).foldl (fun found m => improve m found) [] := by
  rw [matchesOf]
  split
  · next hempty =>
    -- No code of a word is spelled by no reading at all.
    have hnone : lex.allMatches options = [] := by
      rw [List.eq_nil_iff_forall_not_mem]
      intro m hm
      obtain ⟨choice, hchoice, hentry, hspells, -⟩ := mem_allMatches.1 hm
      obtain ⟨row, hrow, hcode, -⟩ := mem_entries.1 hentry
      rw [List.isEmpty_iff.1 hempty, choices, List.mem_singleton] at hchoice
      exact hspells.ne_nil (hcode ▸ lex.wordCodes row hrow) hchoice
    rw [hnone]
    rfl
  · have hrows : ∀ choice : List Reading,
        ((lex.rows.map fun row => (row, row.code)).filter fun cand => Spells choice cand.2).map
          Prod.fst = lex.rows.filter fun row => Spells choice row.code := by
      intro choice
      simp [List.filter_map, Function.comp_def]
    simp only [narrow_eq, hrows, allMatches, List.foldl_flatMap, List.foldl_map, Nat.zero_add]

theorem isNearest_matchesOf (lex : Lexicon) (options : List (List Reading)) :
    IsNearest (lex.matchesOf options) (lex.allMatches options) := by
  rw [matchesOf_eq]
  exact isNearest_foldl _

/-- Nothing is found where a syllable has no reading. -/
theorem matchesOf_eq_nil {lex : Lexicon} {options : List (List Reading)} (h : [] ∈ options) :
    lex.matchesOf options = [] := by
  rw [matchesOf_eq, allMatches, choices_eq_nil h]
  rfl

end Lexicon

end Pinyin
