import Pinyin.History.Counts

/-!
# Pinyin.History.Tally

How often words, and pairs of words in a row, occur in some sentences.

* `bigramKey` — the text under which a pair is counted;
* `Tally` — the counts of words, of pairs and of sentences;
* `add`, `remove` — one sentence more, or one less.
-/

namespace Pinyin

/-- The text under which a pair of words is counted. -/
def bigramKey (first second : String) : String := first ++ "|" ++ second

/-- The keys of the pairs of words in a row, in order. -/
def bigramKeys (sentence : List String) : List String :=
  (sentence.zip sentence.tail).map fun (first, second) => bigramKey first second

/-- The counts of words, of pairs of words, and of sentences. -/
@[ext] structure Tally where
  unigram : Counts
  bigram : Counts
  size : Nat

namespace Tally

/-- The tally of no sentences. -/
def empty : Tally := ⟨Counts.empty, Counts.empty, 0⟩

/-- The tally with one more sentence. -/
def add (t : Tally) (sentence : List String) : Tally where
  unigram := sentence.foldl Counts.bump t.unigram
  bigram := (bigramKeys sentence).foldl Counts.bump t.bigram
  size := t.size + 1

/-- The tally with one sentence less. -/
def remove (t : Tally) (sentence : List String) : Tally where
  unigram := sentence.foldl Counts.drop t.unigram
  bigram := (bigramKeys sentence).foldl Counts.drop t.bigram
  size := t.size - 1

theorem count_foldl_bump (c : Counts) (keys : List String) (k : String) :
    (keys.foldl Counts.bump c).count k = c.count k + keys.count k := by
  induction keys generalizing c with
  | nil => simp
  | cons key keys ih =>
    rw [List.foldl_cons, ih, Counts.count_bump, List.count_cons]
    grind

theorem count_foldl_drop (c : Counts) (keys : List String) (k : String) :
    (keys.foldl Counts.drop c).count k = c.count k - keys.count k := by
  induction keys generalizing c with
  | nil => simp
  | cons key keys ih =>
    rw [List.foldl_cons, ih, Counts.count_drop, List.count_cons]
    grind

end Tally

end Pinyin
