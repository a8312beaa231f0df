import Pinyin.Error
import Pinyin.History.Tally

/-!
# Pinyin.History.Basic

What a user has written, as far as it is remembered.

The last sentences are kept word by word and tallied.  When there are too many,
the oldest one is moved to the archive, which keeps only its tally.

* `History` — the sentences, their tally and the archive;
* `learn` — a further sentence.
-/

namespace Pinyin

/-- A sentence as the list of its words. -/
abbrev Sentence := List String

/-- The sentences that are remembered, newest first, with their tally, and the tally
of those that are not; at least one can be remembered. -/
@[ext] structure History where
  maxRecent : Nat
  sentences : List Sentence
  recent : Tally
  archive : Tally
  maxRecent_pos : 0 < maxRecent

namespace History

/-- How many sentences are remembered unless told otherwise. -/
def defaultMaxRecent : Nat := 8192

/-- A history that remembers at most `n` sentences, and none yet, with an archive. -/
def withArchive (n : Nat) (h : 0 < n) (archive : Tally) : History :=
  ⟨n, [], Tally.empty, archive, h⟩

/-- An empty history. -/
def empty : History := withArchive defaultMaxRecent (by decide) Tally.empty

/-- An empty history that remembers at most `n` sentences. -/
def ofMaxRecent (n : Int) : Except Error History :=
  if h : 0 < n.toNat then .ok (withArchive n.toNat h Tally.empty)
  else .error .maxRecentTooSmall

/-- Moves the oldest sentences to the archive until no more than `keep` are
remembered. -/
def evict (h : History) (keep : Nat) : History :=
  let evicted := (h.sentences.drop keep).reverse
  { h with
    sentences := h.sentences.take keep
    recent := evicted.foldl Tally.remove h.recent
    archive := evicted.foldl Tally.add h.archive }

/-- The history with one more sentence; a sentence without words changes nothing. -/
def learn (h : History) (sentence : Sentence) : History :=
  if sentence.isEmpty then h
  else
    let h := h.evict (h.maxRecent - 1)
    { h with sentences := sentence :: h.sentences, recent := h.recent.add sentence }

/-- The history with more sentences, one after the other. -/
def learnAll (h : History) (sentences : List Sentence) : History :=
  sentences.foldl learn h

/-- The history with everything forgotten. -/
def clear (h : History) : History := withArchive h.maxRecent h.maxRecent_pos Tally.empty

@[simp] theorem maxRecent_learn (h : History) (sentence : Sentence) :
    (h.learn sentence).maxRecent = h.maxRecent := by
  unfold learn
  split <;> rfl

/-- No more than `maxRecent` sentences are remembered after learning one. -/
theorem length_sentences_learn (h : History) {sentence : Sentence} (hs : sentence ≠ []) :
    (h.learn sentence).sentences.length ≤ h.maxRecent := by
  have hpos := h.maxRecent_pos
  have hne : sentence.isEmpty = false := by simpa using hs
  simp only [learn, hne, Bool.false_eq_true, if_false, evict, List.length_cons, List.length_take]
  omega

end History

end Pinyin
