import Mathlib.Data.List.Induction
import Mathlib.Data.List.TakeDrop
import Pinyin.History.File
import Pinyin.Proofs.History.Occurrences

/-!
# Pinyin.Proofs.History.Bookkeeping

A history never loses a sentence, and never counts one twice.

* `History.Action`, `History.run` — what is done with a history, and what becomes of it;
* `Record` — all that a history was told since it was last cleared or loaded;
* `History.Keeps` — a history remembers the newest sentences of a record and has archived the
  others;
* `keeps_run` — it does after every run;
* `bookkeeping` — what the counts are then.
-/

namespace Pinyin

/-- What is done with a history: a sentence is learned, everything is forgotten, or a stream is
loaded. -/
inductive History.Action where
  | learn (sentence : Sentence)
  | clear
  | load (source : Source)

/-- What a history was told: the tally it began with, and the sentences that came after that,
the newest first; each of them has words. -/
structure Record where
  stored : Tally
  learned : List Sentence
  hasWords : ∀ sentence ∈ learned, sentence.isEmpty = false

namespace Record

/-- A record that begins with a tally. -/
def begin (stored : Tally) : Record := ⟨stored, [], by simp⟩

/-- The record with one more sentence, if it has words. -/
def note (r : Record) (sentence : Sentence) : Record :=
  if h : sentence.isEmpty = false then
    ⟨r.stored, sentence :: r.learned, List.forall_mem_cons.2 ⟨h, r.hasWords⟩⟩
  else r

/-- The record with more sentences, one after the other. -/
def noteAll (r : Record) (sentences : List Sentence) : Record := sentences.foldl note r

/-- The record after an action.  A stream begins a new record with its tally and tells its
sentences; one that is refused tells nothing. -/
def act (r : Record) : History.Action → Record
  | .learn sentence => r.note sentence
  | .clear => begin Tally.empty
  | .load source =>
    match History.readStream source with
    | .ok ((sentences, archive), _) => (begin archive).noteAll sentences
    | .error _ => r

/-- The record of some actions. -/
def ofActions (actions : List History.Action) : Record := actions.foldl act (begin Tally.empty)

@[simp] theorem ofActions_append_singleton (actions : List History.Action) (a : History.Action) :
    ofActions (actions ++ [a]) = (ofActions actions).act a := by
  simp [ofActions]

theorem stored_noteAll (r : Record) (sentences : List Sentence) :
    (r.noteAll sentences).stored = r.stored := by
  induction sentences generalizing r with
  | nil => rfl
  | cons sentence sentences ih =>
      refine (ih (r.note sentence)).trans ?_
      unfold note
      split <;> rfl

theorem learned_noteAll (r : Record) (sentences : List Sentence) :
    (r.noteAll sentences).learned
      = (sentences.filter fun sentence => !sentence.isEmpty).reverse ++ r.learned := by
  induction sentences generalizing r with
  | nil => rfl
  | cons sentence sentences ih =>
      refine (ih (r.note sentence)).trans ?_
      cases hne : sentence.isEmpty <;> simp [note, hne]

end Record

namespace History

/-- The history after an action.  A stream that is refused changes nothing. -/
def act (h : History) : Action → History
  | .learn sentence => h.learn sentence
  | .clear => h.clear
  | .load source =>
    match h.load source with
    | .ok loaded => loaded
    | .error _ => h

/-- The history after some actions. -/
def run (h : History) (actions : List Action) : History := actions.foldl act h

@[simp] theorem run_append_singleton (h : History) (actions : List Action) (a : Action) :
    h.run (actions ++ [a]) = (h.run actions).act a := by
  simp [run]

/-- A history remembers the newest sentences of a record, as many as it has room for, and
counts them; the others are added to the tally that the record began with. -/
structure Keeps (h : History) (r : Record) : Prop where
  sentences : h.sentences = r.learned.take h.maxRecent
  recent : h.recent.IsSumOf Tally.empty h.sentences
  archive : h.archive = r.stored.addAll (r.learned.drop h.maxRecent).reverse

/-! ## One step -/

/-- What a front part has behind a place, and what follows that part, is all behind the place. -/
theorem drop_take_append_drop_of_le (xs : List α) {n m : Nat} (hle : n ≤ m) :
    (xs.take m).drop n ++ xs.drop m = xs.drop n := by
  have hsplit := List.drop_take_append_drop xs n (m - n)
  rwa [Nat.add_sub_cancel' hle, ← List.drop_take] at hsplit

theorem keeps_withArchive (n : Nat) (hn : 0 < n) (archive : Tally) :
    (withArchive n hn archive).Keeps (.begin archive) where
  sentences := by simp [withArchive, Record.begin]
  recent := .refl _
  archive := by simp [withArchive, Record.begin, Tally.addAll]

/-- Learning moves to the archive the sentences for which there is no room any more. -/
theorem learn_of_isEmpty_eq_false (h : History) {n : Nat} (hn : h.maxRecent = n + 1)
    {sentence : Sentence} (hne : sentence.isEmpty = false) :
    h.learn sentence =
      { h with
        sentences := sentence :: h.sentences.take n
        recent := (h.recent.removeAll (h.sentences.drop n).reverse).add sentence
        archive := h.archive.addAll (h.sentences.drop n).reverse } := by
  simp [learn, hne, evict, hn, Tally.removeAll, Tally.addAll]

namespace Keeps

variable {h : History} {r : Record}

theorem cons (hkeeps : h.Keeps r) {sentence : Sentence} (hne : sentence.isEmpty = false) :
    (h.learn sentence).Keeps (r.note sentence) := by
  obtain ⟨n, hn⟩ := Nat.exists_eq_add_one.2 h.maxRecent_pos
  have hsentences : h.sentences = r.learned.take (n + 1) := by
    rw [hkeeps.sentences, hn]
  rw [h.learn_of_isEmpty_eq_false hn hne, Record.note, dif_pos hne]
  constructor
  · simp [hn, hsentences, List.take_take]
  · have hperm : h.sentences.Perm ((h.sentences.drop n).reverse ++ h.sentences.take n) := by
      calc
        h.sentences = h.sentences.take n ++ h.sentences.drop n := (List.take_append_drop ..).symm
        List.Perm _ (h.sentences.drop n ++ h.sentences.take n) := List.perm_append_comm
        List.Perm _ ((h.sentences.drop n).reverse ++ h.sentences.take n) :=
          (List.reverse_perm _).symm.append_right _
    exact (hkeeps.recent.perm hperm).removeAll.add sentence
  · -- The sentence that is evicted now was the last of those that were retained.
    have hdrop := drop_take_append_drop_of_le r.learned (Nat.le_succ n)
    have harchive : h.archive = r.stored.addAll (r.learned.drop (n + 1)).reverse := by
      rw [hkeeps.archive, hn]
    simp only [hn, List.drop_succ_cons]
    rw [hsentences, harchive, ← Tally.addAll_append, ← List.reverse_append, hdrop]

/-- A history that learns a sentence keeps the record that notes it. -/
theorem learn (hkeeps : h.Keeps r) (sentence : Sentence) :
    (h.learn sentence).Keeps (r.note sentence) := by
  cases hne : sentence.isEmpty with
  | true => simpa [History.learn, Record.note, hne] using hkeeps
  | false => exact hkeeps.cons hne

theorem learnAll (hkeeps : h.Keeps r) (sentences : List Sentence) :
    (h.learnAll sentences).Keeps (r.noteAll sentences) := by
  induction sentences generalizing h r with
  | nil => exact hkeeps
  | cons sentence sentences ih => exact ih (hkeeps.learn sentence)

/-- **Every action keeps the books.** -/
theorem act (hkeeps : h.Keeps r) (a : Action) : (h.act a).Keeps (r.act a) := by
  cases a with
  | learn sentence => exact hkeeps.learn sentence
  | clear => exact keeps_withArchive _ h.maxRecent_pos Tally.empty
  | load source =>
      cases hread : readStream source with
      | error e => simpa [History.act, Record.act, load, hread] using hkeeps
      | ok found =>
          obtain ⟨⟨sentences, archive⟩, rest⟩ := found
          have hstart := (keeps_withArchive h.maxRecent h.maxRecent_pos archive).learnAll sentences
          simpa [History.act, Record.act, load, hread] using hstart

end Keeps

/-! ## Runs -/

@[simp] theorem maxRecent_learnAll (h : History) (sentences : List Sentence) :
    (h.learnAll sentences).maxRecent = h.maxRecent := by
  induction sentences generalizing h with
  | nil => rfl
  | cons sentence sentences ih => exact (ih _).trans (h.maxRecent_learn sentence)

@[simp] theorem maxRecent_act (h : History) (a : Action) : (h.act a).maxRecent = h.maxRecent := by
  cases a with
  | learn sentence => exact h.maxRecent_learn sentence
  | clear => rfl
  | load source =>
      cases hread : readStream source with
      | error e => simp [act, load, hread]
      | ok found => simp [act, load, hread, withArchive]

theorem maxRecent_run (h : History) (actions : List Action) :
    (h.run actions).maxRecent = h.maxRecent := by
  induction actions using List.reverseRecOn with
  | nil => rfl
  | append_singleton actions a ih => simp [ih]

/-- After every run a history keeps the record of what it was told. -/
theorem keeps_run (n : Nat) (hn : 0 < n) (actions : List Action) :
    ((withArchive n hn Tally.empty).run actions).Keeps (Record.ofActions actions) := by
  induction actions using List.reverseRecOn with
  | nil => exact keeps_withArchive n hn Tally.empty
  | append_singleton actions a ih => simpa using ih.act a

/-- A history that keeps a record counts, in the end, all that was learned. -/
theorem Keeps.archive_isSumOf {h : History} {r : Record} (hkeeps : h.Keeps r) :
    h.archive.IsSumOf r.stored (r.learned.drop h.maxRecent) := by
  rw [hkeeps.archive]
  exact ((Tally.IsSumOf.refl r.stored).addAll _).perm (by simp [List.reverse_perm])

/-- **The books are exact.**  After every run a history remembers the newest sentences that it
was told, as many as it has room for, and counts exactly these; the archive counts the others,
on top of the tally that was loaded.  So the two together count every sentence once, and no
count is zero. -/
theorem bookkeeping {m : Int} (hm : 1 ≤ m) (actions : List Action) :
    ∃ start, ofMaxRecent m = .ok start ∧
      let h := start.run actions
      let r := Record.ofActions actions
      (h.sentences = r.learned.take m.toNat ∧
        h.sentences.length = min r.learned.length m.toNat) ∧
      h.recent.IsSumOf Tally.empty h.sentences ∧
      h.archive.IsSumOf r.stored (r.learned.drop m.toNat) ∧
      (∀ word, h.recent.unigram.count word + h.archive.unigram.count word
        = r.stored.unigram.count word + r.learned.flatten.count word) ∧
      ∀ counts ∈ [h.recent.unigram, h.recent.bigram, h.archive.unigram, h.archive.bigram],
        ∀ entry ∈ counts.entries, 1 ≤ entry.2 := by
  have hpos : 0 < m.toNat := by omega
  refine ⟨withArchive m.toNat hpos Tally.empty, dif_pos hpos, ?_⟩
  intro h r
  have hkeeps : h.Keeps r := keeps_run m.toNat hpos actions
  have hroom : h.maxRecent = m.toNat := maxRecent_run _ actions
  have hsentences : h.sentences = r.learned.take m.toNat := hroom ▸ hkeeps.sentences
  have harchive : h.archive.IsSumOf r.stored (r.learned.drop m.toNat) :=
    hroom ▸ hkeeps.archive_isSumOf
  refine ⟨⟨hsentences, ?_⟩, hkeeps.recent, harchive, fun word => ?_, fun counts _ => counts.pos⟩
  · rw [hsentences, List.length_take, Nat.min_comm]
  · have hsplit : r.learned.flatten.count word
        = h.sentences.flatten.count word + (r.learned.drop m.toNat).flatten.count word := by
      rw [hsentences, ← List.count_append, ← List.flatten_append, List.take_append_drop]
    have hrecent := hkeeps.recent.unigram word
    rw [Tally.empty, Counts.count_empty, Nat.zero_add] at hrecent
    rw [hsplit, hrecent, harchive.unigram word]
    omega

/-- The stream of a history that has archived one sentence and remembers three. -/
def sampleStream : List UInt8 :=
  let h := (withArchive 3 (by decide) Tally.empty).learnAll [["a", "b"], ["a"], ["b", "a"], ["c"]]
  h.toBytes.toOption.getD []

/-- A run that loads more sentences than there is room for. -/
def sampleActions : List Action :=
  [.learn ["c"], .load (Source.ofBytes sampleStream), .learn [], .learn ["a", "b"]]

theorem bookkeeping_sample :
    (1 : Int) ≤ 2 ∧ ∃ start, ofMaxRecent 2 = .ok start ∧
      let h := start.run sampleActions
      let r := Record.ofActions sampleActions
      h.sentences = [["a", "b"], ["c"]] ∧ h.recent.IsSumOf Tally.empty [["a", "b"], ["c"]] ∧
      h.archive.IsSumOf r.stored [["b", "a"], ["a"]] ∧
      r.stored.unigram.count "a" = 1 ∧ h.archive.unigram.count "a" = 3 := by
  obtain ⟨start, hstart, ⟨hsentences, -⟩, hrecent, harchive, -⟩ :=
    bookkeeping (by decide : (1 : Int) ≤ 2) sampleActions
  have hlearned : (Record.ofActions sampleActions).learned
      = [["a", "b"], ["c"], ["b", "a"], ["a"]] := by decide +kernel
  have hstored : (Record.ofActions sampleActions).stored.unigram.count "a" = 1 := by decide +kernel
  rw [hlearned] at hsentences harchive
  rw [hsentences] at hrecent
  refine ⟨by decide, start, hstart, hsentences, hrecent, harchive, hstored, ?_⟩
  rw [harchive.unigram, hstored]
  decide

end History

end Pinyin
