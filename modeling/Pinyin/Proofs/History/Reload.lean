import Pinyin.Proofs.History.Bookkeeping
import Pinyin.Proofs.History.Saved

/-!
# Pinyin.Proofs.History.Reload

A history that is saved and loaded goes on as if nothing had happened.

* `History.IsReached` — the histories that a user can have;
* `Keeps.reload` — a history with less room that loads a stream keeps the record of the one that
  wrote it;
* `save_load` — saving and loading commutes with learning.
-/

namespace Pinyin

/-- Two tallies count the same, in whatever order their texts were first counted. -/
structure Tally.SameCounts (t u : Tally) : Prop where
  unigram : t.unigram.count = u.unigram.count
  bigram : t.bigram.count = u.bigram.count
  size : t.size = u.size

theorem Tally.IsSumOf.sameCounts {t u base : Tally} {sentences : List Sentence}
    (ht : t.IsSumOf base sentences) (hu : u.IsSumOf base sentences) : t.SameCounts u where
  unigram := funext fun word => by rw [ht.unigram, hu.unigram]
  bigram := funext fun key => by rw [ht.bigram, hu.bigram]
  size := by rw [ht.size, hu.size]

namespace History

/-- A history that a user can have: one that began empty, after some actions. -/
def IsReached (h : History) : Prop :=
  ∃ n start actions, ofMaxRecent n = .ok start ∧ h = start.run actions

theorem eq_withArchive_of_ofMaxRecent {n : Int} {start : History}
    (h : ofMaxRecent n = .ok start) :
    start = withArchive start.maxRecent start.maxRecent_pos Tally.empty ∧ start.maxRecent = n := by
  unfold ofMaxRecent at h
  split at h
  · next hpos =>
    cases h
    exact ⟨rfl, Int.toNat_of_nonneg (by omega)⟩
  · cases h

theorem keeps_learnAll_of_ofMaxRecent {n : Int} {start : History}
    (h : ofMaxRecent n = .ok start) (sentences : List Sentence) :
    (start.learnAll sentences).maxRecent = n ∧
      (start.learnAll sentences).Keeps ((Record.begin Tally.empty).noteAll sentences) := by
  obtain ⟨hstart, hn⟩ := eq_withArchive_of_ofMaxRecent h
  rw [maxRecent_learnAll, hn, hstart]
  exact ⟨rfl, (keeps_withArchive _ start.maxRecent_pos Tally.empty).learnAll sentences⟩

theorem IsReached.keeps {h : History} (hreached : h.IsReached) : ∃ r, h.Keeps r := by
  obtain ⟨n, start, actions, hstart, rfl⟩ := hreached
  rw [(eq_withArchive_of_ofMaxRecent hstart).1]
  exact ⟨_, keeps_run _ start.maxRecent_pos actions⟩

/-! ## Loading what was saved -/

/-- What a history with room for `n` sentences becomes when it loads the stream of `h`. -/
def reload (h : History) (n : Nat) (hn : 0 < n) : History :=
  (withArchive n hn h.archive).learnAll h.sentences.reverse

@[simp] theorem maxRecent_reload (h : History) (n : Nat) (hn : 0 < n) :
    (h.reload n hn).maxRecent = n :=
  maxRecent_learnAll _ _

theorem load_of_toBytes {h : History} {bs : List UInt8} (hbs : h.toBytes = .ok bs)
    (other : History) :
    other.load (.ofBytes bs) = .ok (h.reload other.maxRecent other.maxRecent_pos) :=
  load_of_takes (SourceReader.takes_readStream hbs) other

namespace Keeps

variable {h other : History} {r : Record}

/-- The sentences that a history remembers are the record of its stream, on top of its archive. -/
theorem reload_saved (hkeeps : h.Keeps r) (n : Nat) (hn : 0 < n) :
    ∃ saved : Record, saved.stored = h.archive ∧ saved.learned = h.sentences ∧
      (h.reload n hn).Keeps saved := by
  refine ⟨(Record.begin h.archive).noteAll h.sentences.reverse, Record.stored_noteAll .., ?_,
    (keeps_withArchive n hn h.archive).learnAll h.sentences.reverse⟩
  have hwords : ∀ sentence ∈ h.sentences.reverse, (!sentence.isEmpty) = true := by
    intro sentence hmem
    rw [List.mem_reverse, hkeeps.sentences] at hmem
    simpa using r.hasWords sentence (List.mem_of_mem_take hmem)
  rw [Record.learned_noteAll, List.filter_eq_self.2 hwords, List.reverse_reverse]
  exact List.append_nil _

/-- **A history with less room keeps the record of the history it was loaded from.**  What the
writer had archived is followed by what has no room any more. -/
theorem reload (hkeeps : h.Keeps r) {n : Nat} (hn : 0 < n) (hle : n ≤ h.maxRecent) :
    (h.reload n hn).Keeps r := by
  obtain ⟨saved, hstored, hlearned, hsaved⟩ := hkeeps.reload_saved n hn
  have hnewest : h.sentences.take n = r.learned.take n := by
    rw [hkeeps.sentences, List.take_take, Nat.min_eq_left hle]
  have holdest : h.sentences.drop n ++ r.learned.drop h.maxRecent = r.learned.drop n := by
    rw [hkeeps.sentences, drop_take_append_drop_of_le r.learned hle]
  constructor
  · rw [hsaved.sentences, hlearned, maxRecent_reload, hnewest]
  · exact hsaved.recent
  · calc
      (h.reload n hn).archive
        = h.archive.addAll (h.sentences.drop n).reverse := by
          rw [hsaved.archive, hstored, hlearned, maxRecent_reload]
      _ = r.stored.addAll ((r.learned.drop h.maxRecent).reverse ++ (h.sentences.drop n).reverse) := by
          rw [hkeeps.archive, Tally.addAll_append]
      _ = r.stored.addAll (r.learned.drop (h.reload n hn).maxRecent).reverse := by
          rw [← List.reverse_append, holdest, maxRecent_reload]

/-- A history with room for all sentences remembers and has archived the same as before. -/
theorem reload_of_length_le (hkeeps : h.Keeps r) {n : Nat} (hn : 0 < n)
    (hle : h.sentences.length ≤ n) :
    (h.reload n hn).sentences = h.sentences ∧ (h.reload n hn).recent.SameCounts h.recent ∧
      (h.reload n hn).archive = h.archive := by
  obtain ⟨saved, hstored, hlearned, hsaved⟩ := hkeeps.reload_saved n hn
  have hsentences : (h.reload n hn).sentences = h.sentences := by
    rw [hsaved.sentences, hlearned, maxRecent_reload, List.take_of_length_le hle]
  refine ⟨hsentences, ?_, ?_⟩
  · exact (hsentences ▸ hsaved.recent).sameCounts hkeeps.recent
  · rw [hsaved.archive, hstored, hlearned, maxRecent_reload, List.drop_of_length_le hle]
    rfl

/-- A record and the room there is decide what a history remembers, counts and has archived. -/
theorem unique (hkeeps : h.Keeps r) (hother : other.Keeps r)
    (hroom : h.maxRecent = other.maxRecent) :
    h.sentences = other.sentences ∧ h.recent.SameCounts other.recent ∧
      h.archive = other.archive := by
  have hsentences : h.sentences = other.sentences := by
    rw [hkeeps.sentences, hother.sentences, hroom]
  refine ⟨hsentences, ?_, ?_⟩
  · exact (hsentences ▸ hkeeps.recent).sameCounts hother.recent
  · rw [hkeeps.archive, hother.archive, hroom]

end Keeps

/-- **Saving and loading commutes with learning.**  A stream can be loaded wherever there is room
for its sentences, and nothing is different then; where there is less room than the writer had,
the history is the one that would have learned the same sentences with that room. -/
theorem save_load :
    (∀ h other : History, h.IsReached → h.Fits → h.sentences.length ≤ other.maxRecent →
      ∃ bs loaded, h.toBytes = .ok bs ∧ other.load (.ofBytes bs) = .ok loaded ∧
        loaded.maxRecent = other.maxRecent ∧ loaded.sentences = h.sentences ∧
        loaded.recent.SameCounts h.recent ∧ loaded.archive = h.archive ∧
        loaded.toBytes = .ok bs) ∧
    ∀ (m n : Int) (large small other : History) (sentences : List Sentence), n ≤ m →
      ofMaxRecent m = .ok large → ofMaxRecent n = .ok small → other.maxRecent = n →
      (large.learnAll sentences).Fits →
      ∃ bs loaded, (large.learnAll sentences).toBytes = .ok bs ∧
        other.load (.ofBytes bs) = .ok loaded ∧
        loaded.sentences = (small.learnAll sentences).sentences ∧
        loaded.recent.SameCounts (small.learnAll sentences).recent ∧
        loaded.archive = (small.learnAll sentences).archive ∧
        loaded.toBytes = (small.learnAll sentences).toBytes := by
  constructor
  · intro h other hreached hfits hle
    obtain ⟨r, hkeeps⟩ := hreached.keeps
    obtain ⟨bs, hbs⟩ := exists_toBytes_iff.2 hfits
    obtain ⟨hsentences, hrecent, harchive⟩ :=
      hkeeps.reload_of_length_le other.maxRecent_pos hle
    refine ⟨bs, _, hbs, load_of_toBytes hbs other, maxRecent_learnAll _ _, hsentences, hrecent,
      harchive, ?_⟩
    rw [toBytes_congr hsentences harchive, hbs]
  · intro m n large small other sentences hle hlarge hsmall hother hfits
    obtain ⟨bs, hbs⟩ := exists_toBytes_iff.2 hfits
    obtain ⟨hm, hkeepsLarge⟩ := keeps_learnAll_of_ofMaxRecent hlarge sentences
    obtain ⟨hn, hkeepsSmall⟩ := keeps_learnAll_of_ofMaxRecent hsmall sentences
    have hreload := hkeepsLarge.reload other.maxRecent_pos (by omega)
    have hroom : ((large.learnAll sentences).reload other.maxRecent other.maxRecent_pos).maxRecent
        = (small.learnAll sentences).maxRecent := by
      rw [maxRecent_reload]
      omega
    obtain ⟨hsentences, hrecent, harchive⟩ := hreload.unique hkeepsSmall hroom
    exact ⟨bs, _, hbs, load_of_toBytes hbs other, hsentences, hrecent, harchive,
      toBytes_congr hsentences harchive⟩

/-- Sentences of which the first has to be archived where there is room for two. -/
def sampleSentences : List Sentence := [["a", "b", "a"], ["b"], [], ["a", "b"]]

theorem save_load_sample :
    ∃ large small : History, ofMaxRecent 3 = .ok large ∧ ofMaxRecent 2 = .ok small ∧
      (∃ bs loaded, (large.learnAll sampleSentences).toBytes = .ok bs ∧
        (large.learnAll sampleSentences).load (.ofBytes bs) = .ok loaded ∧
        loaded.sentences = [["a", "b"], ["b"], ["a", "b", "a"]] ∧ loaded.toBytes = .ok bs) ∧
      ∃ bs loaded, (large.learnAll sampleSentences).toBytes = .ok bs ∧
        small.load (.ofBytes bs) = .ok loaded ∧ loaded.sentences = [["a", "b"], ["b"]] ∧
        loaded.archive.unigram.entries = [("a", 2), ("b", 1)] ∧
        loaded.toBytes = (small.learnAll sampleSentences).toBytes := by
  obtain ⟨hsame, hless⟩ := save_load
  have hlarge : ofMaxRecent 3 = .ok (withArchive 3 (by decide) Tally.empty) := rfl
  have hsmall : ofMaxRecent 2 = .ok (withArchive 2 (by decide) Tally.empty) := rfl
  have hreached : ((withArchive 3 (by decide) Tally.empty).learnAll sampleSentences).IsReached :=
    ⟨3, _, sampleSentences.map .learn, hlarge, rfl⟩
  have hfits : ((withArchive 3 (by decide) Tally.empty).learnAll sampleSentences).Fits :=
    exists_toBytes_iff.1 ⟨_, rfl⟩
  refine ⟨_, _, hlarge, hsmall, ?_, ?_⟩
  · obtain ⟨bs, loaded, hbs, hload, -, hsentences, -, -, hagain⟩ :=
      hsame _ ((withArchive 3 (by decide) Tally.empty).learnAll sampleSentences) hreached hfits
        (by decide)
    exact ⟨bs, loaded, hbs, hload, hsentences.trans (by decide), hagain⟩
  · obtain ⟨bs, loaded, hbs, hload, hsentences, -, harchive, hagain⟩ :=
      hless 3 2 _ _ (withArchive 2 (by decide) Tally.empty) sampleSentences (by decide) hlarge
        hsmall rfl hfits
    exact ⟨bs, loaded, hbs, hload, hsentences.trans (by decide),
      harchive ▸ by decide, hagain⟩

end History

end Pinyin
