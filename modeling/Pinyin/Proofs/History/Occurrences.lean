import Mathlib.Data.List.Perm.Basic
import Pinyin.History.Basic

/-!
# Pinyin.Proofs.History.Occurrences

What a tally counts.

* `Tally.IsSumOf` — a tally counts the words, pairs and sentences of some sentences, on top of
  another tally;
* `IsSumOf.addAll`, `IsSumOf.removeAll` — sentences that are added are counted too, and
  sentences that are removed are not counted any more.
-/

namespace Pinyin.Tally

/-- A tally counts what occurs in some sentences, on top of what another tally counts: every
word, the key of every pair of words in a row, and every sentence. -/
structure IsSumOf (t base : Tally) (sentences : List Sentence) : Prop where
  unigram : ∀ word, t.unigram.count word = base.unigram.count word + sentences.flatten.count word
  bigram : ∀ key,
    t.bigram.count key = base.bigram.count key + (sentences.flatMap bigramKeys).count key
  size : t.size = base.size + sentences.length

/-- The tally with more sentences, one after the other. -/
def addAll (t : Tally) (sentences : List Sentence) : Tally := sentences.foldl add t

/-- The tally without some sentences, removed one after the other. -/
def removeAll (t : Tally) (sentences : List Sentence) : Tally := sentences.foldl remove t

theorem addAll_append (t : Tally) (xs ys : List Sentence) :
    t.addAll (xs ++ ys) = (t.addAll xs).addAll ys :=
  List.foldl_append

namespace IsSumOf

variable {t base : Tally} {sentence : Sentence} {sentences others : List Sentence}

theorem refl (t : Tally) : t.IsSumOf t [] := ⟨by simp, by simp, by simp⟩

/-- The order of the sentences does not matter. -/
theorem perm (h : t.IsSumOf base sentences) (hperm : sentences.Perm others) :
    t.IsSumOf base others where
  unigram word := by rw [h.unigram, hperm.flatten.count_eq]
  bigram key := by rw [h.bigram, (hperm.flatMap_right bigramKeys).count_eq]
  size := by rw [h.size, hperm.length_eq]

/-- A sentence that is added is counted too. -/
theorem add (h : t.IsSumOf base sentences) (sentence : Sentence) :
    (t.add sentence).IsSumOf base (sentence :: sentences) where
  unigram word := by
    simp only [Tally.add, count_foldl_bump, h.unigram, List.flatten_cons, List.count_append]
    omega
  bigram key := by
    simp only [Tally.add, count_foldl_bump, h.bigram, List.flatMap_cons, List.count_append]
    omega
  size := by
    simp only [Tally.add, h.size, List.length_cons]
    omega

/-- A counted sentence that is removed is not counted any more. -/
theorem remove (h : t.IsSumOf base (sentence :: sentences)) :
    (t.remove sentence).IsSumOf base sentences where
  unigram word := by
    have hword := h.unigram word
    simp only [List.flatten_cons, List.count_append] at hword
    simp only [Tally.remove, count_foldl_drop]
    omega
  bigram key := by
    have hkey := h.bigram key
    simp only [List.flatMap_cons, List.count_append] at hkey
    simp only [Tally.remove, count_foldl_drop]
    omega
  size := by
    have hsize := h.size
    simp only [List.length_cons] at hsize
    simp only [Tally.remove]
    omega

theorem addAll (h : t.IsSumOf base sentences) (more : List Sentence) :
    (t.addAll more).IsSumOf base (sentences ++ more) := by
  induction more generalizing t sentences with
  | nil => simpa [Tally.addAll] using h
  | cons sentence more ih =>
      have hadd := (h.add sentence).perm (List.perm_append_singleton sentence sentences).symm
      simpa [Tally.addAll] using ih hadd

theorem removeAll {gone : List Sentence} (h : t.IsSumOf base (gone ++ sentences)) :
    (t.removeAll gone).IsSumOf base sentences := by
  induction gone generalizing t with
  | nil => simpa [Tally.removeAll] using h
  | cons sentence gone ih => exact ih h.remove

end IsSumOf

end Pinyin.Tally
