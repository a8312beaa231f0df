import Mathlib.Algebra.Order.Field.Basic
import Mathlib.Data.Rat.Floor
import Mathlib.Tactic.Linarith
import Mathlib.Tactic.Positivity
import Pinyin.Proofs.History.Pairs

/-!
# Pinyin.Proofs.History.Estimate

A pair of words that is learned is more likely than before.

* `Tally.IsBalanced` — no pair is counted more often than its first word, and no word more often
  than there are sentences;
* `IsSumOf.isBalanced` — sentences that repeat no word keep a tally balanced;
* `estimate_eq` — the estimate as two shares of smoothed counts;
* `estimate_lt_estimate_learn` — in a balanced history with room, both shares of a pair grow when it
  is learned;
* `estimate_rises` — so it is after every run over sentences that repeat no word.
-/

namespace Pinyin

/-! ## Balanced tallies -/

/-- No pair of words, neither of which holds a bar, is counted more often than its first word, and
no word more often than there are sentences. -/
structure Tally.IsBalanced (t : Tally) : Prop where
  pair : ∀ first second, bar ∉ first.toList → bar ∉ second.toList →
    t.bigram.count (bigramKey first second) ≤ t.unigram.count first
  word : ∀ word, t.unigram.count word ≤ t.size

theorem Tally.isBalanced_empty : Tally.empty.IsBalanced :=
  ⟨fun _ _ _ _ => Nat.le_refl 0, fun _ => Nat.le_refl 0⟩

theorem count_zip_le (xs ys : List String) (x y : String) :
    (xs.zip ys).count (x, y) ≤ xs.count x := by
  induction xs generalizing ys with
  | nil => simp
  | cons x' xs ih =>
      cases ys with
      | nil => simp
      | cons y' ys =>
          have hrest := ih ys
          rw [List.zip_cons_cons, List.count_cons, List.count_cons]
          by_cases hx : x' = x
          · rw [if_pos (beq_iff_eq.2 hx)]
            split <;> omega
          · rw [if_neg (by simp [hx])]
            omega

/-- A pair stands in a row in some sentences at most as often as its first word does. -/
theorem count_pairsIn_le (sentences : List Sentence) (first second : String) :
    (pairsIn sentences).count (first, second) ≤ sentences.flatten.count first := by
  induction sentences with
  | nil => simp [pairsIn]
  | cons sentence sentences ih =>
      have hsentence := count_zip_le sentence sentence.tail first second
      simp only [pairsIn, List.flatMap_cons, List.count_append, List.flatten_cons] at ih ⊢
      omega

/-- Sentences that repeat no word hold each word at most once. -/
theorem count_flatten_le_length {sentences : List Sentence} (h : ∀ s ∈ sentences, s.Nodup)
    (word : String) : sentences.flatten.count word ≤ sentences.length := by
  induction sentences with
  | nil => simp
  | cons sentence sentences ih =>
      rw [List.forall_mem_cons] at h
      have hrest := ih h.2
      have hone := List.nodup_iff_count_le_one.1 h.1 word
      rw [List.flatten_cons, List.count_append, List.length_cons]
      omega

/-- The text of a pair without bars occurs as often as the pair. -/
theorem count_flatMap_bigramKeys_eq_count (sentences : List Sentence) {first second : String}
    (hfirst : bar ∉ first.toList) (hsecond : bar ∉ second.toList) :
    (sentences.flatMap bigramKeys).count (bigramKey first second)
      = (pairsIn sentences).count (first, second) := by
  rw [count_flatMap_bigramKeys, countP_eq_count_iff (by simp)]
  exact fun pair _ hsame =>
    (bigramKey_eq_iff hfirst hsecond).1 (of_decide_eq_true hsame)

/-- **Sentences that repeat no word keep a tally balanced.** -/
theorem Tally.IsSumOf.isBalanced {t base : Tally} {sentences : List Sentence}
    (h : t.IsSumOf base sentences) (hbase : base.IsBalanced) (hnodup : ∀ s ∈ sentences, s.Nodup) :
    t.IsBalanced where
  pair first second hfirst hsecond := by
    have hpair := hbase.pair first second hfirst hsecond
    have hpairs := count_pairsIn_le sentences first second
    rw [h.bigram, h.unigram, count_flatMap_bigramKeys_eq_count sentences hfirst hsecond]
    omega
  word word := by
    have hword := hbase.word word
    have hwords := count_flatten_le_length hnodup word
    rw [h.unigram, h.size]
    omega

namespace History

/-! ## The estimate -/

/-- A weighted count as a rational number, rounded down. -/
def floored (recent archived : Nat) : Rat := Scalar.floor (weighted recent archived)

theorem weighted_eq (recent archived : Nat) :
    (weighted recent archived : Rat) = recent + archived / 20 := by
  have hdecay : (decay : Rat) = 1 / 20 := by decide +kernel
  have hunfold : (weighted recent archived : Rat) = recent + archived * (decay : Rat) := rfl
  rw [hunfold, hdecay]
  ring

theorem floored_eq (recent archived : Nat) :
    floored recent archived = ((recent + archived / 20 : Rat).floor : Rat) := by
  rw [floored, weighted_eq]
  rfl

/-- The share of a count in a total, smoothed, with a weight. -/
def share (weight count total : Rat) : Rat := weight * count / (total + 1 / 2)

/-- The estimate is the share of the pair among the occurrences of its first word, and that of the
second word among the sentences. -/
theorem estimate_eq (h : History) (first second : String) :
    h.estimate first second
      = share (17 / 25)
          (floored (h.recent.bigram.count (bigramKey first second))
            (h.archive.bigram.count (bigramKey first second)))
          (floored (h.recent.unigram.count first) (h.archive.unigram.count first))
        + share (8 / 25) (floored (h.recent.unigram.count second) (h.archive.unigram.count second))
            (h.recent.size + h.archive.size / 20) := by
  have hbigram : (bigramWeight : Rat) = 17 / 25 := by decide +kernel
  have hunigram : (unigramWeight : Rat) = 8 / 25 := by decide +kernel
  have hsmoothing : (smoothing : Rat) = 1 / 2 := by decide +kernel
  rw [← weighted_eq, share, share, ← hbigram, ← hunigram, ← hsmoothing]
  rfl

/-! ## Shares that grow -/

theorem floored_nonneg (recent archived : Nat) : 0 ≤ floored recent archived := by
  rw [floored_eq]
  exact_mod_cast Rat.le_floor_iff.2 (by positivity)

theorem floored_le (recent archived : Nat) : floored recent archived ≤ recent + archived / 20 := by
  rw [floored_eq]
  exact Rat.floor_le _

theorem floored_mono {recent archived recent' archived' : Nat} (hrecent : recent ≤ recent')
    (harchived : archived ≤ archived') : floored recent archived ≤ floored recent' archived' := by
  have hle : (recent + archived / 20 : Rat) ≤ recent' + archived' / 20 := by
    have := Nat.cast_le (α := Rat).2 hrecent
    have := Nat.cast_le (α := Rat).2 harchived
    linarith
  rw [floored_eq, floored_eq]
  exact_mod_cast Rat.floor_monotone hle

theorem floored_add_one (recent archived : Nat) :
    floored (recent + 1) archived = floored recent archived + 1 := by
  have hsum : ((recent + 1 : Nat) + archived / 20 : Rat) = recent + archived / 20 + 1 := by
    push_cast
    ring
  rw [floored_eq, floored_eq, hsum, Rat.floor_add_one]
  push_cast
  rfl

/-- A share of less than everything grows with one more of its kind. -/
theorem share_lt_share {weight count total : Rat} (hweight : 0 < weight) (hcount : 0 ≤ count)
    (hle : count ≤ total) : share weight count total < share weight (count + 1) (total + 1) := by
  have hold : 0 < total + 1 / 2 := by linarith
  have hnew : 0 < total + 1 + 1 / 2 := by linarith
  rw [share, share, div_lt_div_iff₀ hold hnew]
  calc
    weight * count * (total + 1 + 1 / 2)
      < weight * count * (total + 1 + 1 / 2) + weight * (total - count + 1 / 2) := by
        have : 0 < weight * (total - count + 1 / 2) := mul_pos hweight (by linarith)
        linarith
    _ = weight * (count + 1) * (total + 1 / 2) := by ring

/-! ## Learning a pair -/

/-- A history with room learns a sentence without evicting any. -/
theorem learn_of_room {h : History} (hroom : h.sentences.length < h.maxRecent) {sentence : Sentence}
    (hne : sentence.isEmpty = false) :
    h.learn sentence =
      { h with sentences := sentence :: h.sentences, recent := h.recent.add sentence } := by
  obtain ⟨n, hn⟩ := Nat.exists_eq_add_one.2 h.maxRecent_pos
  have htake : h.sentences.take n = h.sentences := List.take_of_length_le (by omega)
  have hdrop : h.sentences.drop n = [] := List.drop_of_length_le (by omega)
  rw [h.learn_of_isEmpty_eq_false hn hne, htake, hdrop]
  rfl

/-- A sentence of two words is counted once, and so are its words and its pair. -/
theorem count_add_pair (t : Tally) {first second : String} (hne : first ≠ second) :
    (t.add [first, second]).unigram.count first = t.unigram.count first + 1 ∧
      (t.add [first, second]).unigram.count second = t.unigram.count second + 1 ∧
      (t.add [first, second]).bigram.count (bigramKey first second)
        = t.bigram.count (bigramKey first second) + 1 ∧
      (t.add [first, second]).size = t.size + 1 := by
  simp only [Tally.add, Tally.count_foldl_bump, bigramKeys]
  simp [hne, hne.symm]

/-- **A pair that is learned is more likely than before**, where the counts are balanced and there
is room for it. -/
theorem estimate_lt_estimate_learn {h : History} (hrecent : h.recent.IsBalanced)
    (harchive : h.archive.IsBalanced) (hroom : h.sentences.length < h.maxRecent)
    {first second : String} (hne : first ≠ second) (hfirst : bar ∉ first.toList)
    (hsecond : bar ∉ second.toList) :
    (h.estimate first second : Rat) < (h.learn [first, second]).estimate first second := by
  obtain ⟨hunigram, hunigram', hbigram, hsize⟩ := count_add_pair h.recent hne
  have hpair : floored (h.recent.bigram.count (bigramKey first second))
        (h.archive.bigram.count (bigramKey first second))
      ≤ floored (h.recent.unigram.count first) (h.archive.unigram.count first) :=
    floored_mono (hrecent.pair first second hfirst hsecond)
      (harchive.pair first second hfirst hsecond)
  have hword : floored (h.recent.unigram.count second) (h.archive.unigram.count second)
      ≤ h.recent.size + h.archive.size / 20 := by
    have hrecent := Nat.cast_le (α := Rat).2 (hrecent.word second)
    have harchive := Nat.cast_le (α := Rat).2 (harchive.word second)
    have hfloor := floored_le (h.recent.unigram.count second) (h.archive.unigram.count second)
    linarith
  have hsize' : ((h.recent.size + 1 : Nat) + h.archive.size / 20 : Rat)
      = h.recent.size + h.archive.size / 20 + 1 := by
    push_cast
    ring
  rw [estimate_eq, estimate_eq, learn_of_room hroom rfl]
  simp only [hunigram, hunigram', hbigram, hsize, floored_add_one, hsize']
  exact add_lt_add (share_lt_share (by norm_num) (floored_nonneg ..) hpair)
    (share_lt_share (by norm_num) (floored_nonneg ..) hword)

/-! ## Runs -/

/-- An action that brings in sentences that repeat no word: one is learned, or everything is
forgotten, or a stream is loaded that holds such sentences on top of a balanced tally. -/
def Action.RepeatsNoWord : Action → Prop
  | .learn sentence => sentence.Nodup
  | .clear => True
  | .load source => ∀ sentences archive rest,
      readStream source = .ok ((sentences, archive), rest) →
        archive.IsBalanced ∧ ∀ sentence ∈ sentences, sentence.Nodup

theorem isBalanced_act {r : Record} {a : Action} (ha : a.RepeatsNoWord)
    (hr : r.stored.IsBalanced ∧ ∀ s ∈ r.learned, s.Nodup) :
    (r.act a).stored.IsBalanced ∧ ∀ s ∈ (r.act a).learned, s.Nodup := by
  cases a with
  | learn sentence =>
      simp only [Record.act, Record.note]
      split
      · exact ⟨hr.1, List.forall_mem_cons.2 ⟨ha, hr.2⟩⟩
      · exact hr
  | clear => exact ⟨Tally.isBalanced_empty, by simp [Record.act, Record.begin]⟩
  | load source =>
      cases hread : readStream source with
      | error e => simpa [Record.act, hread] using hr
      | ok found =>
          obtain ⟨⟨sentences, archive⟩, rest⟩ := found
          obtain ⟨harchive, hsentences⟩ := ha sentences archive rest hread
          simp only [Record.act, hread, Record.stored_noteAll, Record.learned_noteAll]
          refine ⟨harchive, fun s hs => ?_⟩
          have hmem : s ∈ sentences ∧ s.isEmpty = false := by
            simpa [Record.begin] using hs
          exact hsentences s hmem.1

/-- What is remembered and archived after such actions is balanced. -/
theorem isBalanced_run (n : Nat) (hn : 0 < n) {actions : List Action}
    (hactions : ∀ a ∈ actions, a.RepeatsNoWord) :
    let h := (withArchive n hn Tally.empty).run actions
    h.recent.IsBalanced ∧ h.archive.IsBalanced := by
  intro h
  have hkeeps : h.Keeps (Record.ofActions actions) := keeps_run n hn actions
  have hrecord : (Record.ofActions actions).stored.IsBalanced ∧
      ∀ s ∈ (Record.ofActions actions).learned, s.Nodup := by
    clear hkeeps h
    induction actions using List.reverseRecOn with
    | nil => exact ⟨Tally.isBalanced_empty, by simp [Record.ofActions, Record.begin]⟩
    | append_singleton actions a ih =>
        rw [List.forall_mem_append, List.forall_mem_singleton] at hactions
        rw [Record.ofActions_append_singleton]
        exact isBalanced_act hactions.2 (ih hactions.1)
  refine ⟨hkeeps.recent.isBalanced Tally.isBalanced_empty fun s hs => ?_,
    hkeeps.archive_isSumOf.isBalanced hrecord.1 fun s hs => ?_⟩
  · rw [hkeeps.sentences] at hs
    exact hrecord.2 s (List.mem_of_mem_take hs)
  · exact hrecord.2 s (List.mem_of_mem_drop hs)

/-- **Learning a pair raises its estimate.**  After any run over sentences that repeat no word, a
history with room finds a pair of different words more likely once it has learned it. -/
theorem estimate_rises {m : Int} (hm : 1 ≤ m) (actions : List Action)
    (hactions : ∀ a ∈ actions, a.RepeatsNoWord) :
    ∃ start, ofMaxRecent m = .ok start ∧
      let h := start.run actions
      h.sentences.length < h.maxRecent →
        ∀ first second, first ≠ second → bar ∉ first.toList → bar ∉ second.toList →
          (h.estimate first second : Rat) < (h.learn [first, second]).estimate first second := by
  have hpos : 0 < m.toNat := by omega
  obtain ⟨hrecent, harchive⟩ := isBalanced_run m.toNat hpos hactions
  exact ⟨withArchive m.toNat hpos Tally.empty, dif_pos hpos, fun hroom first second =>
    estimate_lt_estimate_learn hrecent harchive hroom⟩

/-- The pair was learned once before, so that its estimate rises from 266 / 375. -/
theorem estimate_rises_sample :
    (1 : Int) ≤ 3 ∧ ∃ start, ofMaxRecent 3 = .ok start ∧
      let h := start.run [.learn ["c"], .clear, .learn ["a", "b"], .learn ["b", "c"]]
      h.sentences.length < h.maxRecent ∧ (h.estimate "a" "b" : Rat) = 266 / 375 ∧
        (h.estimate "a" "b" : Rat) < (h.learn ["a", "b"]).estimate "a" "b" := by
  have hactions : ∀ a ∈ [Action.learn ["c"], .clear, .learn ["a", "b"], .learn ["b", "c"]],
      a.RepeatsNoWord := by simp [Action.RepeatsNoWord]
  obtain ⟨start, hstart, hrises⟩ := estimate_rises (by decide : (1 : Int) ≤ 3) _ hactions
  obtain rfl : withArchive 3 (by decide) Tally.empty = start := Except.ok.inj hstart
  have hroom : ((withArchive 3 (by decide) Tally.empty).run
      [.learn ["c"], .clear, .learn ["a", "b"], .learn ["b", "c"]]).sentences.length < 3 := by
    decide
  exact ⟨by decide, _, hstart, hroom, by decide +kernel,
    hrises hroom "a" "b" (by decide) (by decide) (by decide)⟩

end History

end Pinyin
