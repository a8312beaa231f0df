import Pinyin.CutGraph.Basic
import Pinyin.Syllable.Split

/-!
# Pinyin.Segmentation

Cutting typed text into syllables.  At each position that a cut reaches:

* a run of separators is one edge without readings;
* elsewhere the longest readable piece is cut off (`longestMatch`);
* if its last letter may as well begin the next syllable, as in "xian|gong",
  the cut before that letter competes, and the one that reaches further wins;
  both are kept if they reach as far (`cutLengths`);
* on demand a syllable that can be heard as two is also cut in two.

`planFrom` lists the edges in the order of their insertion, and `CutGraph.ofPinyin`
is the graph they make.
-/

namespace Pinyin

/-- How a text is read: under which fuzzy rules, and whether syllables such as
"xian" are also cut in two. -/
structure ReadingOptions where
  fuzzy : FuzzySet
  inner : Bool

namespace ReadingOptions

/-- Texts are read as they stand, and no syllable is cut in two. -/
def plain : ReadingOptions := ⟨FuzzySet.empty, false⟩

/-- The options given by the bits of a number: the fuzzy rules, then the cutting
of syllables.  Higher bits have no meaning. -/
def ofBits (bits : Nat) : ReadingOptions := ⟨FuzzySet.ofBits bits, bits.testBit 14⟩

end ReadingOptions

/-! ## The longest piece -/

/-- The most letters that a spelling has. -/
def maxSpelling : Nat := 6

/-- A piece at the front of a text, by its length.  It is `complete` if it spells a
syllable, the interjections "m" and "n" apart. -/
structure FrontMatch where
  length : Nat
  complete : Bool
  deriving DecidableEq, Repr

/-- The longest piece of at most `n` characters at the front of a text that is
readable, or else an initial; a single character if there is none. -/
def longestUpTo (fz : FuzzySet) (rest : List Char) : (n : Nat) → FrontMatch
  | 0 => ⟨1, false⟩
  | n + 1 =>
    let piece := rest.take (n + 1)
    if piece.length ≤ n then longestUpTo fz rest n
    else if IsReadable fz piece then ⟨n + 1, piece != ['m'] && piece != ['n']⟩
    else if (Initial.ofText? piece).isSome then ⟨n + 1, false⟩
    else longestUpTo fz rest n

/-- The longest piece at the front of a text. -/
def longestMatch (fz : FuzzySet) (rest : List Char) : FrontMatch :=
  longestUpTo fz rest maxSpelling

theorem length_longestUpTo_pos (fz : FuzzySet) (rest : List Char) (n : Nat) :
    0 < (longestUpTo fz rest n).length := by
  induction n with
  | zero => simp [longestUpTo]
  | succ n ih =>
    unfold longestUpTo
    simp only
    split
    · exact ih
    · split
      · simp
      · split
        · simp
        · exact ih

/-- A piece reaches no further than the text. -/
theorem length_longestUpTo_le (fz : FuzzySet) {rest : List Char} (n : Nat)
    (h : rest ≠ []) : (longestUpTo fz rest n).length ≤ rest.length := by
  have hpos : 0 < rest.length := List.length_pos_iff.2 h
  induction n with
  | zero => exact hpos
  | succ n ih =>
    unfold longestUpTo
    simp only [List.length_take]
    split
    · exact ih
    · split
      · simp only; omega
      · split
        · simp only; omega
        · exact ih

/-! ## Cuts at the front of a text -/

/-- The letters that may belong to the next syllable: those that end one syllable
and begin another. -/
def borrowable : List Char := ['a', 'e', 'g', 'n', 'o', 'r']

/-- How well a cut does: where the piece after it ends, and at the same place
whether that piece is complete. -/
def reach (cut : Nat) (next : FrontMatch) : Nat :=
  2 * (cut + next.length) + next.complete.toNat

/-- The piece of `n` letters at the front may give its last letter away: another
syllable follows, the letter may begin it, and the piece is readable without. -/
def MayLend (fz : FuzzySet) (rest : List Char) (n : Nat) : Prop :=
  1 < n ∧ (∃ c ∈ rest[n]?, c ≠ separator) ∧ (∃ c ∈ rest[n - 1]?, c ∈ borrowable) ∧
    IsReadable fz (rest.take (n - 1))

instance (fz : FuzzySet) (rest : List Char) (n : Nat) : Decidable (MayLend fz rest n) :=
  -- Named here, since the search for an instance may find one that tries all characters.
  letI : Decidable (∃ c ∈ rest[n]?, c ≠ separator) := Option.decidableExistsMem rest[n]?
  letI : Decidable (∃ c ∈ rest[n - 1]?, c ∈ borrowable) :=
    Option.decidableExistsMem rest[n - 1]?
  inferInstanceAs (Decidable (_ ∧ _ ∧ _ ∧ _))

/-- The lengths of the pieces to cut off the front of a text that begins with no
separator, the longer first. -/
def cutLengths (fz : FuzzySet) (rest : List Char) : List Nat :=
  let front := longestMatch fz rest
  let n := front.length
  if front.complete ∧ MayLend fz rest n then
    let whole := reach n (longestMatch fz (rest.drop n))
    let short := reach (n - 1) (longestMatch fz (rest.drop (n - 1)))
    (if short ≤ whole then [n] else []) ++ (if whole ≤ short then [n - 1] else [])
  else [n]

/-- The lengths of the edges to lay from the front of a text: over a whole run of
separators, or over pieces. -/
def frontCuts (fz : FuzzySet) (rest : List Char) : List Nat :=
  if rest.head? = some separator then [(rest.takeWhile (· == separator)).length]
  else cutLengths fz rest

/-- The pieces at the front that are also cut in two, as the lengths of the first
part and of the whole. -/
def frontSplits (opts : ReadingOptions) (rest : List Char) : List (Nat × Nat) :=
  if opts.inner ∧ rest.head? ≠ some separator ∧ (longestMatch opts.fuzzy rest).complete then
    (cutLengths opts.fuzzy rest).filterMap fun n =>
      (innerSplit? (rest.take n)).map fun (head, _) => (head.length, n)
  else []

/-! ## The graph -/

/-- The edges of the graph of a text in the order of their insertion, from position
`p` on, where `rest` begins.  Only positions that are `due`, because a cut
ends there, are cut from; the middle of a syllable cut in two is not. -/
def planFrom (opts : ReadingOptions) : (rest : List Char) → (p : Nat) → (due : List Nat) →
    List (Nat × Nat)
  | [], _, _ => []
  | c :: rest, p, due =>
    if p ∈ due then
      let cuts := frontCuts opts.fuzzy (c :: rest)
      cuts.map (fun n => (p, p + n)) ++
        (frontSplits opts (c :: rest)).flatMap
          (fun (m, n) => [(p, p + m), (p + m, p + n)]) ++
        planFrom opts rest (p + 1) (due ++ cuts.map (p + ·))
    else planFrom opts rest (p + 1) due

namespace CutGraph

/-- The readings that the edge between two positions of a text is labelled with. -/
def labelOf (fz : FuzzySet) (text : List Char) (start stop : Nat) : List Reading :=
  if text[start]? = some separator then []
  else Pinyin.readings fz ((text.drop start).take (stop - start))

/-- The graph of the ways to cut a text into syllables. -/
def ofPinyin (opts : ReadingOptions) (text : List Char) : CutGraph :=
  (planFrom opts text 0 [0]).foldl
    (fun g (start, stop) => g.insert start ⟨stop, labelOf opts.fuzzy text start stop⟩)
    (ofText text)

theorem text_foldl_insert (label : Nat → Nat → List Reading) (plan : List (Nat × Nat))
    (g : CutGraph) :
    (plan.foldl (fun g (start, stop) => g.insert start ⟨stop, label start stop⟩) g).text
      = g.text := by
  induction plan generalizing g with
  | nil => rfl
  | cons entry plan ih => rw [List.foldl_cons, ih, text_insert]

@[simp] theorem text_ofPinyin (opts : ReadingOptions) (text : List Char) :
    (ofPinyin opts text).text = text :=
  text_foldl_insert _ _ _

end CutGraph

end Pinyin
