import Pinyin.Proofs.History.Bookkeeping
import Pinyin.Proofs.History.Saved

/-!
# Pinyin.Proofs.History.Truncation

A stream of a history ends where it ends: more bytes change nothing, and fewer are refused.

* `History.EndsAt` — the place up to which some bytes are a stream;
* `EndsAt.unique` — there is no other;
* `load_delimited` — whatever is loaded has such a place, and what is saved ends there.
-/

namespace Pinyin.History

/-- A history refuses to load some bytes because they end too early, and stays as it was. -/
def RefusesAsTruncated (h : History) (bs : List UInt8) : Prop :=
  (∃ wanted got, got < wanted ∧
    h.load (.ofBytes bs) = .error (.truncatedHistory wanted got)) ∧
  h.act (.load (.ofBytes bs)) = h

/-- The first `n` of some bytes are a stream that a history loads as another one.  Whatever
follows them is left alone, and no part of them is enough. -/
structure EndsAt (h : History) (bs : List UInt8) (loaded : History) (n : Nat) : Prop where
  inside : n ≤ bs.length
  accepts : ∀ more, h.load (.ofBytes (bs.take n ++ more)) = .ok loaded
  refuses : ∀ k < n, h.RefusesAsTruncated (bs.take k)

variable {h loaded : History} {bs front : List UInt8} {sentences : List Sentence}
  {archive : Tally}

/-- A stream cannot end at two places: cut at the first it would be accepted and refused. -/
theorem EndsAt.unique {n m : Nat} (hn : h.EndsAt bs loaded n) (hm : h.EndsAt bs loaded m) :
    n = m := by
  have not_lt : ∀ {n m : Nat}, h.EndsAt bs loaded n → h.EndsAt bs loaded m → ¬ n < m := by
    intro n m hn hm hlt
    obtain ⟨⟨wanted, got, -, hrefused⟩, -⟩ := hm.refuses n hlt
    have haccepted := hn.accepts []
    rw [List.append_nil, hrefused] at haccepted
    cases haccepted
  have hle := not_lt hm hn
  have hge := not_lt hn hm
  omega

/-! ## Loading what a reader takes exactly -/

theorem refusesAsTruncated_of_takes
    (htakes : SourceReader.Takes readStream front (sentences, archive)) (h : History) {k : Nat}
    (hk : k < front.length) : h.RefusesAsTruncated (front.take k) := by
  obtain ⟨wanted, got, hgot, hrefused⟩ := load_take_of_takes htakes h hk
  exact ⟨⟨wanted, got, hgot, hrefused⟩, by rw [act, hrefused]⟩

theorem endsAt_of_takes (htakes : SourceReader.Takes readStream front (sentences, archive))
    (h : History) (rest : List UInt8) :
    h.EndsAt (front ++ rest)
      ((withArchive h.maxRecent h.maxRecent_pos archive).learnAll sentences) front.length where
  inside := by simp
  accepts more := by rw [List.take_left, load_append_of_takes htakes]
  refuses k hk := by
    rw [List.take_append_of_le_length (Nat.le_of_lt hk)]
    exact refusesAsTruncated_of_takes htakes h hk

/-- **A stream is self-delimiting.**  Whatever bytes are loaded, exactly one place ends their
stream.  What was saved loads as the same history whatever follows it, and no part of it loads. -/
theorem load_delimited (h : History) :
    (∀ bs loaded, h.load (.ofBytes bs) = .ok loaded → ∃! n, h.EndsAt bs loaded n) ∧
    ∀ (saved : History) (bs : List UInt8), saved.toBytes = .ok bs →
      ∃ loaded, h.load (.ofBytes bs) = .ok loaded ∧
        (∀ more, h.load (.ofBytes (bs ++ more)) = .ok loaded) ∧
        ∀ k < bs.length, h.RefusesAsTruncated (bs.take k) := by
  constructor
  · intro bs loaded hload
    cases hread : readStream (.ofBytes bs) with
    | error e => simp [load, hread, bind, Except.bind] at hload
    | ok found =>
        obtain ⟨⟨sentences, archive⟩, source⟩ := found
        obtain ⟨front, rest, rfl, -, htakes⟩ :=
          SourceReader.isDelimited_readStream bs (sentences, archive) source hread
        obtain rfl : _ = loaded :=
          Except.ok.inj ((load_append_of_takes htakes h rest).symm.trans hload)
        have hends := endsAt_of_takes htakes h rest
        exact ⟨front.length, hends, fun n hn => hn.unique hends⟩
  · intro saved bs hbs
    have htakes := SourceReader.takes_readStream hbs
    exact ⟨_, load_of_takes htakes h, load_append_of_takes htakes h,
      fun k hk => refusesAsTruncated_of_takes htakes h hk⟩

theorem load_delimited_sample :
    ∃ bs loaded, ((withArchive 2 (by decide) Tally.empty).learnAll
        [["a", "b", "a"], ["b"], ["a", "b"]]).toBytes = .ok bs ∧ bs.length = 71 ∧
      History.empty.load (.ofBytes (bs ++ [0, 1])) = .ok loaded ∧
      (∃! n, History.empty.EndsAt (bs ++ [0, 1]) loaded n) ∧
      History.empty.RefusesAsTruncated (bs.take 70) := by
  obtain ⟨hends, hsaved⟩ := load_delimited History.empty
  have hbytes : ∃ bs, ((withArchive 2 (by decide) Tally.empty).learnAll
      [["a", "b", "a"], ["b"], ["a", "b"]]).toBytes = .ok bs ∧ bs.length = 71 := ⟨_, rfl, rfl⟩
  obtain ⟨bs, hbs, hlen⟩ := hbytes
  obtain ⟨loaded, -, hmore, hcut⟩ := hsaved _ bs hbs
  exact ⟨bs, loaded, hbs, hlen, hmore [0, 1], hends _ loaded (hmore [0, 1]), hcut 70 (by omega)⟩

end Pinyin.History
