import Mathlib.Data.List.Basic
import Pinyin.History.Score
import Pinyin.Proofs.History.Reload

/-!
# Pinyin.Proofs.History.Pairs

What the count of a pair of words stands for.  A pair is counted under one text, in which a bar
joins its words; pairs that are joined to the same text share one count.

* `pairsIn` — the pairs of words in a row, `Tally.CountsPairs` — each of them has its own count;
* `bigramKey_eq_iff` — a text without further bars belongs to one pair only;
* `IsSumOf.countsPairs_iff` — all counts are right exactly where no paired word holds a bar;
* `bigram_contributions` — what the frequency of a pair is made of after any run;
* `not_countsPairs_sample` — a pair that was never seen, and is counted.
-/

namespace Pinyin

/-- The character that joins the words of a pair. -/
def bar : Char := '|'

/-! ## Joined words -/

theorem toList_bigramKey (first second : String) :
    (bigramKey first second).toList = first.toList ++ bar :: second.toList := by
  simp [bigramKey, bar]

/-- A pair of words without bars shares its text with no other pair. -/
theorem bigramKey_eq_iff {first second x y : String} (hfirst : bar ∉ first.toList)
    (hsecond : bar ∉ second.toList) :
    bigramKey x y = bigramKey first second ↔ (x, y) = (first, second) := by
  rw [eq_comm, ← String.toList_inj, toList_bigramKey, toList_bigramKey,
    List.append_cons_inj_of_notMem hfirst hsecond, String.toList_inj, String.toList_inj,
    eq_self, true_and, ← Prod.mk.injEq, eq_comm]

/-- A pair with a bar in one of its words shares its text with another pair. -/
theorem exists_bigramKey_eq {x y : String} (h : bar ∈ x.toList ∨ bar ∈ y.toList) :
    ∃ other, bigramKey x y = bigramKey other.1 other.2 ∧ (x, y) ≠ other := by
  -- The text is parted at the other bar.
  rcases h with h | h
  · obtain ⟨front, back, hx⟩ := List.append_of_mem h
    refine ⟨(.ofList front, .ofList (back ++ bar :: y.toList)), ?_, fun heq => ?_⟩
    · rw [← String.toList_inj, toList_bigramKey, toList_bigramKey, hx]
      simp
    · obtain ⟨rfl, -⟩ := Prod.mk.inj heq
      simp at hx
  · obtain ⟨front, back, hy⟩ := List.append_of_mem h
    refine ⟨(.ofList (x.toList ++ bar :: front), .ofList back), ?_, fun heq => ?_⟩
    · rw [← String.toList_inj, toList_bigramKey, toList_bigramKey, hy]
      simp
    · obtain ⟨-, rfl⟩ := Prod.mk.inj heq
      have hlen := congrArg List.length hy
      simp at hlen
      omega

/-! ## Pairs of words in a row -/

/-- The pairs of words in a row in some sentences, in order. -/
def pairsIn (sentences : List Sentence) : List (String × String) :=
  sentences.flatMap fun sentence => sentence.zip sentence.tail

theorem flatMap_bigramKeys (sentences : List Sentence) :
    sentences.flatMap bigramKeys = (pairsIn sentences).map fun pair => bigramKey pair.1 pair.2 := by
  rw [pairsIn, List.map_flatMap]
  rfl

/-- The text of a pair occurs as often as pairs that are joined to it. -/
theorem count_flatMap_bigramKeys (sentences : List Sentence) (first second : String) :
    (sentences.flatMap bigramKeys).count (bigramKey first second)
      = (pairsIn sentences).countP fun pair =>
          bigramKey pair.1 pair.2 = bigramKey first second := by
  rw [flatMap_bigramKeys, List.count_eq_countP, List.countP_map]
  exact List.countP_congr fun pair _ => by simp

/-- The elements with a property are one element's occurrences only if no other one has it. -/
theorem countP_eq_count_iff {α : Type} [BEq α] [LawfulBEq α] {p : α → Bool} {a : α}
    (ha : p a = true) (xs : List α) :
    xs.countP p = xs.count a ↔ ∀ x ∈ xs, p x = true → x = a := by
  induction xs with
  | nil => simp
  | cons x xs ih =>
      have hle : xs.count a ≤ xs.countP p :=
        List.countP_mono_left fun y _ hy => by rwa [eq_of_beq hy]
      rw [List.forall_mem_cons, List.countP_cons, List.count_cons]
      by_cases hx : x = a
      · simp [hx, ha, ih]
      · cases hpx : p x
        · simp [hx, ih]
        · simp [hx]
          omega

namespace Tally

/-- A tally has counted each pair of words as often as it occurs in some sentences. -/
def CountsPairs (t : Tally) (sentences : List Sentence) : Prop :=
  ∀ first second,
    t.bigram.count (bigramKey first second) = (pairsIn sentences).count (first, second)

namespace IsSumOf

variable {t : Tally} {sentences : List Sentence} {first second : String}

/-- A pair's count is that of all pairs that are joined to the same text. -/
theorem count_bigramKey (h : t.IsSumOf empty sentences) (first second : String) :
    t.bigram.count (bigramKey first second)
      = (pairsIn sentences).countP fun pair =>
          bigramKey pair.1 pair.2 = bigramKey first second := by
  rw [h.bigram, empty, Counts.count_empty, Nat.zero_add, count_flatMap_bigramKeys]

/-- It is the pair's own exactly if no other pair that occurs is joined to its text. -/
theorem count_bigramKey_eq_count_iff (h : t.IsSumOf empty sentences) :
    t.bigram.count (bigramKey first second) = (pairsIn sentences).count (first, second) ↔
      ∀ pair ∈ pairsIn sentences,
        bigramKey pair.1 pair.2 = bigramKey first second → pair = (first, second) := by
  rw [h.count_bigramKey, countP_eq_count_iff (by simp)]
  simp only [decide_eq_true_eq]

/-- So it is the pair's own where its words have no bars, whatever the other words are. -/
theorem count_bigramKey_eq_count (h : t.IsSumOf empty sentences) (hfirst : bar ∉ first.toList)
    (hsecond : bar ∉ second.toList) :
    t.bigram.count (bigramKey first second) = (pairsIn sentences).count (first, second) :=
  h.count_bigramKey_eq_count_iff.2 fun _ _ hsame => (bigramKey_eq_iff hfirst hsecond).1 hsame

/-- **All pairs have counts of their own exactly if no word that stands in one holds a bar.** -/
theorem countsPairs_iff (h : t.IsSumOf empty sentences) :
    t.CountsPairs sentences ↔
      ∀ pair ∈ pairsIn sentences, bar ∉ pair.1.toList ∧ bar ∉ pair.2.toList := by
  constructor
  · intro hcounts pair hpair
    rw [← not_or]
    intro hbar
    obtain ⟨other, hsame, hne⟩ := exists_bigramKey_eq hbar
    exact hne (h.count_bigramKey_eq_count_iff.1 (hcounts other.1 other.2) pair hpair hsame)
  · intro hbars first second
    refine h.count_bigramKey_eq_count_iff.2 fun pair hpair hsame => ?_
    exact ((bigramKey_eq_iff (hbars pair hpair).1 (hbars pair hpair).2).1 hsame.symm).symm

end IsSumOf

end Tally

/-! ## Runs -/

namespace History

/-- **What the frequency of a pair is made of.**  After a history has learned any sentences, the
recent and the archived count of a pair are those of all pairs in the remembered and in the
evicted sentences that are joined to the same text.  These are the places of the pair itself if
its words hold no bars; they are for all pairs exactly if no word in a pair holds one. -/
theorem bigram_contributions {m : Int} (hm : 1 ≤ m) (sentences : List Sentence) :
    ∃ start, ofMaxRecent m = .ok start ∧
      let h := start.learnAll sentences
      let told := (sentences.filter fun sentence => !sentence.isEmpty).reverse
      let evicted := told.drop m.toNat
      let recent := fun first second => h.recent.bigram.count (bigramKey first second)
      let archived := fun first second => h.archive.bigram.count (bigramKey first second)
      h.sentences = told.take m.toNat ∧
      (∀ first second (R : Type) [Scalar R],
        h.bigramFrequency first second
          = (weighted (recent first second) (archived first second) : R)) ∧
      (∀ first second,
        let joined : String × String → Bool := fun pair =>
          bigramKey pair.1 pair.2 = bigramKey first second
        recent first second = (pairsIn h.sentences).countP joined ∧
          archived first second = (pairsIn evicted).countP joined) ∧
      (∀ first second, bar ∉ first.toList → bar ∉ second.toList →
        recent first second = (pairsIn h.sentences).count (first, second) ∧
          archived first second = (pairsIn evicted).count (first, second)) ∧
      (h.recent.CountsPairs h.sentences ↔
        ∀ pair ∈ pairsIn h.sentences, bar ∉ pair.1.toList ∧ bar ∉ pair.2.toList) ∧
      (h.archive.CountsPairs evicted ↔
        ∀ pair ∈ pairsIn evicted, bar ∉ pair.1.toList ∧ bar ∉ pair.2.toList) := by
  have hpos : 0 < m.toNat := by omega
  have hstart : ofMaxRecent m = .ok (withArchive m.toNat hpos Tally.empty) := dif_pos hpos
  refine ⟨_, hstart, ?_⟩
  obtain ⟨hmax, hkeeps⟩ := keeps_learnAll_of_ofMaxRecent hstart sentences
  intro h told evicted recent archived
  have hroom : h.maxRecent = m.toNat := by
    have hint : (h.maxRecent : Int) = m := hmax
    omega
  have hlearned : ((Record.begin Tally.empty).noteAll sentences).learned = told := by
    rw [Record.learned_noteAll]
    exact List.append_nil _
  have hsentences : h.sentences = told.take m.toNat := by
    rw [← hroom, ← hlearned]
    exact hkeeps.sentences
  have hrecent : h.recent.IsSumOf Tally.empty h.sentences := hkeeps.recent
  have harchive : h.archive.IsSumOf Tally.empty evicted := by
    have hsum := hkeeps.archive_isSumOf
    rwa [Record.stored_noteAll, hlearned, hroom] at hsum
  refine ⟨hsentences, fun first second R _ => rfl, fun first second => ?_,
    fun first second hfirst hsecond => ?_, hrecent.countsPairs_iff, harchive.countsPairs_iff⟩
  · exact ⟨hrecent.count_bigramKey first second, harchive.count_bigramKey first second⟩
  · exact ⟨hrecent.count_bigramKey_eq_count hfirst hsecond,
      harchive.count_bigramKey_eq_count hfirst hsecond⟩

/-- One of two sentences is evicted, and the words "a" and "b" stand in both. -/
theorem bigram_contributions_sample :
    (1 : Int) ≤ 1 ∧ ∃ start, ofMaxRecent 1 = .ok start ∧
      let h := start.learnAll [["a", "b", "a", "b"], [], ["a", "b", "|"]]
      h.recent.bigram.count (bigramKey "a" "b") = 1 ∧
        h.archive.bigram.count (bigramKey "a" "b") = 2 := by
  obtain ⟨start, hstart, hsentences, -, -, hplain, -⟩ :=
    bigram_contributions (by decide : (1 : Int) ≤ 1) [["a", "b", "a", "b"], [], ["a", "b", "|"]]
  obtain ⟨hrecent, harchive⟩ := hplain "a" "b" (by decide) (by decide)
  refine ⟨by decide, start, hstart, hrecent.trans ?_, harchive.trans (by decide)⟩
  rw [hsentences]
  decide

/-- A pair that was never seen, and is counted: the pair that was seen is joined to the same
text. -/
theorem not_countsPairs_sample :
    ∃ start, ofMaxRecent 8192 = .ok start ∧
      let h := start.learnAll [["a|b", "c"]]
      h.sentences = [["a|b", "c"]] ∧ (pairsIn h.sentences).count ("a", "b|c") = 0 ∧
        h.recent.bigram.count (bigramKey "a" "b|c") = 1 ∧ ¬ h.recent.CountsPairs h.sentences := by
  have hpairs : (pairsIn [["a|b", "c"]]).count ("a", "b|c") = 0 := by decide
  refine ⟨withArchive 8192 (by decide) Tally.empty, rfl, rfl, hpairs, by decide, fun hcounts => ?_⟩
  exact absurd ((hcounts "a" "b|c").trans hpairs) (by decide)

end History

end Pinyin
