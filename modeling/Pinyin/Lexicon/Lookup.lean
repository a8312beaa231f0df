import Pinyin.Lexicon.Basic
import Pinyin.CutGraph.Path

/-!
# Pinyin.Lexicon.Lookup

Finding the words that a way through a graph spells.

* `spanReadings` — the readings of the syllables on a way, separators left out;
* `narrow` — the rows that agree with a choice of readings, for every choice;
* `Lexicon.lookup` — the words, each with the fewest fuzzy readings it needs.
-/

namespace Pinyin

/-- A word that a way through a graph spells, its code, and how many fuzzy readings
it took to reach it. -/
structure WordMatch where
  word : String
  index : Int
  code : Code
  distance : Int
  deriving DecidableEq, Repr

/-- The readings of each syllable on a way, given by its edges; nothing where an edge
has none.  The start of every edge must lie in the text. -/
def spanReadings (g : CutGraph) : List (Nat × Nat) →
    Except Error (Option (List (List Reading)))
  | [] => .ok (some [])
  | (start, stop) :: rest => do
    if ← g.separatorAt start then spanReadings g rest
    else
      match g.readingsOf start stop with
      | [] => .ok none
      | r :: rs => do
        let later ← spanReadings g rest
        pure (later.map fun options => (r :: rs) :: options)

/-- A syllable agrees with the two bytes of a code: its initial is the same, and so
is its final if it has one. -/
def Syllable.Agrees (s : Syllable) (initial final : UInt8) : Prop :=
  s.initial.number = initial.toNat ∧ (s.final = .bare ∨ s.final.number = final.toNat)

instance (s : Syllable) (initial final : UInt8) : Decidable (s.Agrees initial final) := by
  unfold Syllable.Agrees; infer_instance

/-- A row, and the part of its code that has not been compared yet. -/
abbrev Candidate := LexiconRow × Code

/-- The candidate with the next two bytes compared, if they agree. -/
def Candidate.step? (r : Reading) (cand : Candidate) : Option Candidate :=
  match cand.2 with
  | initial :: final :: rest =>
    if r.syllable.Agrees initial final then some (cand.1, rest) else none
  | _ => none

/-- The rows that agree with some choice of one reading for each syllable, with the
number of fuzzy readings chosen; choices in order, and for each the rows in
order. -/
def narrow : List (List Reading) → (distance : Nat) → List Candidate →
    List (Nat × LexiconRow)
  | [], distance, cands =>
    (cands.filter fun cand => cand.2.isEmpty).map fun cand => (distance, cand.1)
  | rs :: options, distance, cands =>
    if cands.isEmpty then []
    else rs.flatMap fun r =>
      narrow options (distance + r.fuzzy.toNat) (cands.filterMap (Candidate.step? r))

/-- The matches with a further one.  Of two with the same word and index the nearer
one counts, in the place of the earlier one. -/
def improve (m : WordMatch) : List WordMatch → List WordMatch
  | [] => [m]
  | best :: rest =>
    if best.word = m.word ∧ best.index = m.index then
      (if m.distance < best.distance then m else best) :: rest
    else best :: improve m rest

/-- The matches that a row gives at a distance. -/
def LexiconRow.matchesAt (row : LexiconRow) (distance : Nat) : List WordMatch :=
  row.entries.map fun e => ⟨e.word, e.index, row.code, distance⟩

namespace Lexicon

/-- The words that some choice of readings spells, in the order in which they are
found, each with its least distance. -/
def matchesOf (lex : Lexicon) (options : List (List Reading)) : List WordMatch :=
  if options.isEmpty then []
  else
    (narrow options 0 (lex.rows.map fun row => (row, row.code))).foldl
      (fun found (distance, row) =>
        (row.matchesAt distance).foldl (fun found m => improve m found) found)
      []

/-- The words that a way through a graph spells. -/
def lookup (lex : Lexicon) (g : CutGraph) (path : Path) : Except Error (List WordMatch) := do
  match ← spanReadings g (path.zip path.tail) with
  | none => pure []
  | some options => pure (lex.matchesOf options)

end Lexicon

end Pinyin
