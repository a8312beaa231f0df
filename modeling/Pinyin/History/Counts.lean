/-!
# Pinyin.History.Counts

Counts of texts, kept in the order in which the texts were first counted.  A
text whose count falls to zero is forgotten.

* `Counts` — the counts, each positive and of another text;
* `count` — the view: how often a text was counted;
* `bump`, `drop`, `put` — one more, one less, and a given count, each with what
  it does to the view.
-/

namespace Pinyin

/-- The entries of a table of counts: a text and how often it was counted. -/
abbrev CountEntries := List (String × Nat)

namespace CountEntries

/-- How often a text was counted. -/
def count (key : String) : CountEntries → Nat
  | [] => 0
  | (k, n) :: rest => if k = key then n else count key rest

/-- The entries with the count of a text replaced, or added at the end. -/
def put (key : String) (n : Nat) : CountEntries → CountEntries
  | [] => [(key, n)]
  | (k, old) :: rest => if k = key then (k, n) :: rest else (k, old) :: put key n rest

/-- The entries without a text. -/
def erase (key : String) (entries : CountEntries) : CountEntries :=
  entries.filter fun entry => entry.1 != key

/-- The texts that are counted, in order. -/
def keys (entries : CountEntries) : List String := entries.map Prod.fst

theorem count_put (key : String) (n : Nat) (entries : CountEntries) (k : String) :
    count k (put key n entries) = if k = key then n else count k entries := by
  induction entries with
  | nil => grind [put, count]
  | cons entry rest ih => grind [put, count]

theorem count_erase (key : String) (entries : CountEntries) (k : String) :
    count k (erase key entries) = if k = key then 0 else count k entries := by
  induction entries with
  | nil => simp [erase, count]
  | cons entry rest ih =>
    obtain ⟨k', n⟩ := entry
    unfold erase at ih ⊢
    by_cases hk : k' = key
    · subst hk
      simp only [bne_self_eq_false, Bool.false_eq_true, not_false_eq_true,
        List.filter_cons_of_neg, ih, count]
      grind
    · simp only [bne_iff_ne, ne_eq, hk, not_false_eq_true, List.filter_cons_of_pos, count, ih]
      grind

theorem mem_keys_put {key : String} {n : Nat} {entries : CountEntries} {k : String} :
    k ∈ keys (put key n entries) ↔ k = key ∨ k ∈ keys entries := by
  induction entries with
  | nil => simp [put, keys]
  | cons entry rest ih => grind [put, keys]

theorem nodup_put {key : String} {n : Nat} {entries : CountEntries}
    (h : (keys entries).Nodup) : (keys (put key n entries)).Nodup := by
  induction entries with
  | nil => simp [put, keys]
  | cons entry rest ih =>
    obtain ⟨k, old⟩ := entry
    simp only [keys, List.map_cons, List.nodup_cons] at h
    unfold put
    split
    · simpa [keys] using h
    · next hne =>
      simp only [keys, List.map_cons, List.nodup_cons]
      refine ⟨fun hmem => ?_, ih h.2⟩
      exact (mem_keys_put.1 hmem).elim hne h.1

theorem nodup_erase {key : String} {entries : CountEntries} (h : (keys entries).Nodup) :
    (keys (erase key entries)).Nodup :=
  h.sublist (List.filter_sublist.map _)

theorem pos_put {key : String} {n : Nat} {entries : CountEntries} (hn : 0 < n)
    (h : ∀ entry ∈ entries, 0 < entry.2) : ∀ entry ∈ put key n entries, 0 < entry.2 := by
  induction entries with
  | nil => simpa [put] using hn
  | cons entry rest ih =>
    rw [List.forall_mem_cons] at h
    unfold put
    split
    · exact List.forall_mem_cons.2 ⟨hn, h.2⟩
    · exact List.forall_mem_cons.2 ⟨h.1, ih h.2⟩

theorem pos_erase {key : String} {entries : CountEntries}
    (h : ∀ entry ∈ entries, 0 < entry.2) : ∀ entry ∈ erase key entries, 0 < entry.2 :=
  fun entry hmem => h entry (List.mem_filter.1 hmem).1

end CountEntries

/-- Counts of texts: no text has two entries, and none is counted zero times. -/
@[ext] structure Counts where
  entries : CountEntries
  nodup : entries.keys.Nodup
  pos : ∀ entry ∈ entries, 0 < entry.2

namespace Counts

/-- Nothing has been counted. -/
def empty : Counts := ⟨[], by simp [CountEntries.keys], by simp⟩

/-- How often a text was counted. -/
def count (c : Counts) (key : String) : Nat := c.entries.count key

/-- The counts with a text counted a given number of times; zero times is not at
all. -/
def put (c : Counts) (key : String) (n : Nat) : Counts :=
  if h : 0 < n then
    ⟨c.entries.put key n, CountEntries.nodup_put c.nodup, CountEntries.pos_put h c.pos⟩
  else
    ⟨c.entries.erase key, CountEntries.nodup_erase c.nodup, CountEntries.pos_erase c.pos⟩

/-- A text is counted once more. -/
def bump (c : Counts) (key : String) : Counts := c.put key (c.count key + 1)

/-- A text is counted once less; one that is not counted stays so. -/
def drop (c : Counts) (key : String) : Counts := c.put key (c.count key - 1)

@[simp] theorem count_empty (key : String) : empty.count key = 0 := rfl

theorem count_put (c : Counts) (key : String) (n : Nat) (k : String) :
    (c.put key n).count k = if k = key then n else c.count k := by
  unfold put count
  split
  · exact CountEntries.count_put ..
  · next h =>
    rw [CountEntries.count_erase]
    have : n = 0 := by omega
    simp [this]

theorem count_bump (c : Counts) (key k : String) :
    (c.bump key).count k = c.count k + if k = key then 1 else 0 := by
  unfold bump
  rw [count_put]
  split
  · next h => rw [h]
  · rfl

theorem count_drop (c : Counts) (key k : String) :
    (c.drop key).count k = c.count k - if k = key then 1 else 0 := by
  unfold drop
  rw [count_put]
  split
  · next h => rw [h]
  · rfl

end Counts

end Pinyin
