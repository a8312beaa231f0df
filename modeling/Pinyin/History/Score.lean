import Pinyin.History.Basic
import Pinyin.Scalar

/-!
# Pinyin.History.Score

How likely a word is to follow another, judged by a history.  An archived
occurrence counts for a twentieth of a recent one.

* `unigramFrequency`, `bigramFrequency`, `weightedSize` — weighted counts;
* `estimate` — the probability: the share of the pair among the occurrences of
  its first word, mixed with the share of the second word among the sentences;
* `score` — its decimal logarithm.
-/

namespace Pinyin.History

section Frequencies

variable {R : Type} [Scalar R]

/-- What an archived occurrence counts for. -/
def decay : R := Scalar.ofDecimal 5 2

/-- The share of the pair in an estimate. -/
def bigramWeight : R := Scalar.ofDecimal 68 2

/-- The share of the single word in an estimate. -/
def unigramWeight : R := Scalar.ofDecimal 32 2

/-- What is added to a count before it divides another. -/
def smoothing : R := Scalar.ofDecimal 5 1

/-- A recent and an archived count, added up with their weights. -/
def weighted (recent archived : Nat) : R :=
  Scalar.ofInt recent + Scalar.ofInt archived * decay

/-- How often a word occurs. -/
def unigramFrequency (h : History) (word : String) : R :=
  weighted (h.recent.unigram.count word) (h.archive.unigram.count word)

/-- How often a word is followed by another. -/
def bigramFrequency (h : History) (first second : String) : R :=
  let key := bigramKey first second
  weighted (h.recent.bigram.count key) (h.archive.bigram.count key)

/-- How many sentences there are. -/
def weightedSize (h : History) : R := weighted h.recent.size h.archive.size

/-- The probability that `second` follows `first`.  Frequencies are rounded down,
so that archived words count once there are enough of them. -/
def estimate (h : History) (first second : String) : R :=
  let firsts : R := Scalar.floor (h.unigramFrequency first)
  let pairs : R := Scalar.floor (h.bigramFrequency first second)
  let seconds : R := Scalar.floor (h.unigramFrequency second)
  bigramWeight * pairs / (firsts + smoothing)
    + unigramWeight * seconds / (h.weightedSize + smoothing)

end Frequencies

/-- A word that is empty, or occurs nowhere. -/
def IsUnknown (h : History) (word : String) : Prop :=
  word = "" ∨ h.recent.unigram.count word = 0 ∧ h.archive.unigram.count word = 0

instance (h : History) (word : String) : Decidable (h.IsUnknown word) := by
  unfold IsUnknown; infer_instance

/-- The decimal logarithm of the estimate, at most zero; `unknown` where there is
nothing to estimate from. -/
def score {R : Type} [Logarithmic R] (h : History) (unknown : R) (first second : String) :
    Except Error R :=
  let p : R := h.estimate first second
  if p < Scalar.ofInt 1 then
    if (0 : R) < p then Logarithmic.log10 p else .ok unknown
  else .ok 0

end Pinyin.History
