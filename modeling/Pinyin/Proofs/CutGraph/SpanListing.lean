import Pinyin.Proofs.CutGraph.Span

/-!
# Pinyin.Proofs.CutGraph.SpanListing

Which ways the spans of a graph are.

* `IsSpan` — a way along edges with a syllable first and last, and a limited number of them;
* `IsSpanTail` — the same where a separator may come first, as what follows within a word;
* `mem_spansFrom_iff`, `nodup_spansFrom` — the tails from a position are listed, each once;
* `spans_complete` — and so are the spans.
-/

namespace Pinyin.CutGraph

variable {g : CutGraph} {most p : Nat} {path : Path}

/-! ## Spans -/

/-- The number of the edges of a way that are syllables; an edge starts at each of its positions
but the last. -/
def syllableCount (g : CutGraph) (path : Path) : Nat :=
  path.dropLast.countP fun p => ¬ g.IsSeparator p

/-- A way along edges whose last edge is a syllable, with one to `most` syllables. -/
structure IsSpanTail (g : CutGraph) (most p : Nat) (path : Path) : Prop where
  head?_eq : path.head? = some p
  isChain : path.IsChain fun a b => b ∈ g.successors a
  closes : ∀ q ∈ path.dropLast.getLast?, ¬ g.IsSeparator q
  one_le : 1 ≤ g.syllableCount path
  le_most : g.syllableCount path ≤ most

/-- A way along edges whose first and last edges are syllables, with one to `most` of them and any
number of separators in between. -/
structure IsSpan (g : CutGraph) (most p : Nat) (path : Path) : Prop
    extends IsSpanTail g most p path where
  opens : ∀ q ∈ path.dropLast.head?, ¬ g.IsSeparator q

theorem syllableCount_cons_cons (p q : Nat) (rest : Path) :
    g.syllableCount (p :: q :: rest)
      = g.syllableCount (q :: rest) + if g.IsSeparator p then 0 else 1 := by
  simp [syllableCount, List.countP_cons]

/-- A way that ends with a syllable has one. -/
theorem one_le_syllableCount (hne : path.dropLast ≠ [])
    (hcloses : ∀ q ∈ path.dropLast.getLast?, ¬ g.IsSeparator q) : 1 ≤ g.syllableCount path := by
  have hlast := hcloses _ (List.getLast?_eq_some_getLast hne)
  exact List.one_le_countP_iff.2 ⟨_, List.getLast_mem hne, by simpa using hlast⟩

namespace IsSpanTail

/-- A tail has an edge. -/
theorem exists_cons_cons (h : g.IsSpanTail most p path) :
    ∃ q rest, path = p :: q :: rest ∧ q ∈ g.successors p := by
  match path, h with
  | [], h => simpa using h.head?_eq
  | [a], h => simpa [syllableCount] using h.one_le
  | a :: q :: rest, h =>
      obtain rfl : a = p := by simpa using h.head?_eq
      exact ⟨q, rest, rfl, (List.isChain_cons_cons.1 h.isChain).1⟩

/-- A syllable is a tail. -/
theorem syllable {q : Nat} (hsep : ¬ g.IsSeparator p) (hq : q ∈ g.successors p) :
    g.IsSpanTail (most + 1) p [p, q] where
  head?_eq := rfl
  isChain := List.isChain_cons_cons.2 ⟨hq, List.isChain_singleton q⟩
  closes := by simpa using hsep
  one_le := by simp [syllableCount, hsep]
  le_most := by simp [syllableCount, hsep]

/-- A tail may have one more edge before it, and one more syllable if that edge is one. -/
theorem cons {q : Nat} (hq : q ∈ g.successors p) (h : g.IsSpanTail most q path) :
    g.IsSpanTail (most + if g.IsSeparator p then 0 else 1) p (p :: path) := by
  obtain ⟨r, rest, rfl, -⟩ := h.exists_cons_cons
  have hcount := g.syllableCount_cons_cons p q (r :: rest)
  have hone := h.one_le
  have hle := h.le_most
  refine ⟨rfl, List.isChain_cons_cons.2 ⟨hq, h.isChain⟩, ?_, by omega, by omega⟩
  simpa using h.closes

/-- What follows the first edge of a longer tail is a tail. -/
theorem tail {q r : Nat} {rest : Path} (h : g.IsSpanTail most p (p :: q :: r :: rest)) :
    g.IsSpanTail (most - if g.IsSeparator p then 0 else 1) q (q :: r :: rest) := by
  have hcloses : ∀ a ∈ (q :: r :: rest).dropLast.getLast?, ¬ g.IsSeparator a := by
    simpa using h.closes
  have hone := one_le_syllableCount (by simp) hcloses
  have hcount := g.syllableCount_cons_cons p q (r :: rest)
  have hle := h.le_most
  exact ⟨rfl, (List.isChain_cons_cons.1 h.isChain).2, hcloses, hone, by omega⟩

end IsSpanTail

/-- A tail that passes a separator goes on with another tail. -/
theorem isSpanTail_iff_of_isSeparator (hsep : g.IsSeparator p) :
    g.IsSpanTail most p path ↔
      ∃ q ∈ g.successors p, ∃ tail, g.IsSpanTail most q tail ∧ p :: tail = path := by
  constructor
  · intro h
    obtain ⟨q, rest, rfl, hq⟩ := h.exists_cons_cons
    cases rest with
    | nil => exact absurd hsep (by simpa using h.closes)
    | cons r rest => exact ⟨q, hq, q :: r :: rest, by simpa [hsep] using h.tail, rfl⟩
  · rintro ⟨q, hq, tail, htail, rfl⟩
    simpa [hsep] using htail.cons hq

/-- A tail that begins with a syllable ends there, or goes on with a tail of fewer syllables. -/
theorem isSpanTail_iff_of_not_isSeparator (hsep : ¬ g.IsSeparator p) :
    g.IsSpanTail (most + 1) p path ↔
      ∃ q ∈ g.successors p,
        path = [p, q] ∨ ∃ tail, g.IsSpanTail most q tail ∧ p :: tail = path := by
  constructor
  · intro h
    obtain ⟨q, rest, rfl, hq⟩ := h.exists_cons_cons
    cases rest with
    | nil => exact ⟨q, hq, .inl rfl⟩
    | cons r rest => exact ⟨q, hq, .inr ⟨q :: r :: rest, by simpa [hsep] using h.tail, rfl⟩⟩
  · rintro ⟨q, hq, rfl | ⟨tail, htail, rfl⟩⟩
    · exact .syllable hsep hq
    · simpa [hsep] using htail.cons hq

/-! ## Listing -/

/-- **The tails from a position are listed**, and nothing else is. -/
theorem mem_spansFrom_iff {most p : Nat} {path : Path} :
    path ∈ g.spansFrom most true p ↔ g.IsSpanTail most p path := by
  cases most with
  | zero =>
      have hnone : ¬ g.IsSpanTail 0 p path := fun h => by
        have hone := h.one_le
        have hle := h.le_most
        omega
      simp [spansFrom_zero, hnone]
  | succ rest =>
      by_cases hsep : g.IsSeparator p
      · rw [spansFrom_of_isSeparator hsep, isSpanTail_iff_of_isSeparator hsep, if_pos rfl,
          List.mem_flatMap]
        refine exists_congr fun q => and_congr_right fun hq => ?_
        have hlt := lt_of_mem_successors hq
        rw [List.mem_map]
        exact exists_congr fun tail => and_congr_left' mem_spansFrom_iff
      · rw [spansFrom_of_not_isSeparator hsep, isSpanTail_iff_of_not_isSeparator hsep,
          List.mem_flatMap]
        refine exists_congr fun q => and_congr_right fun hq => ?_
        have hlt := lt_of_mem_successors hq
        rw [List.mem_cons, List.mem_map]
        exact or_congr_right (exists_congr fun tail => and_congr_left' mem_spansFrom_iff)
termination_by g.size - p

/-- **No tail is listed twice**: one ends after its first edge, and the others go on with tails. -/
theorem nodup_spansFrom (g : CutGraph) (most p : Nat) : (g.spansFrom most true p).Nodup := by
  have hhead : ∀ (most q : Nat), ∀ tail ∈ g.spansFrom most true q, tail.head? = some q :=
    fun _ _ _ htail => (mem_spansFrom_iff.1 htail).head?_eq
  cases most with
  | zero => simp [spansFrom_zero]
  | succ rest =>
      by_cases hsep : g.IsSeparator p
      · rw [spansFrom_of_isSeparator hsep, if_pos rfl]
        refine nodup_flatMap_cons (fun q hq => ?_) fun q _ => hhead (rest + 1) q
        have hlt := lt_of_mem_successors hq
        exact nodup_spansFrom g (rest + 1) q
      · rw [spansFrom_of_not_isSeparator hsep]
        refine nodup_flatMap_cons (f := fun q => [q] :: g.spansFrom rest true q)
          (fun q hq => ?_) fun q _ => ?_
        · have hlt := lt_of_mem_successors hq
          refine List.nodup_cons.2 ⟨fun hmem => ?_, nodup_spansFrom g rest q⟩
          obtain ⟨r, tail, htail, -⟩ := (mem_spansFrom_iff.1 hmem).exists_cons_cons
          cases htail
        · simpa using hhead rest q
termination_by g.size - p

/-- A word is opened by its first edge. -/
theorem spans_eq (g : CutGraph) (most start : Nat) :
    g.spans most start = if g.IsSeparator start then [] else g.spansFrom most true start := by
  cases most with
  | zero => simp [spans, spansFrom_zero]
  | succ rest =>
      by_cases hsep : g.IsSeparator start
      · simp [spans, spansFrom_of_isSeparator hsep, hsep]
      · simp [spans, spansFrom_of_not_isSeparator hsep, hsep]

/-- A span is a tail that begins with a syllable. -/
theorem isSpan_iff : g.IsSpan most p path ↔ ¬ g.IsSeparator p ∧ g.IsSpanTail most p path := by
  have hfirst : g.IsSpanTail most p path → path.dropLast.head? = some p := fun h => by
    obtain ⟨q, rest, rfl, -⟩ := h.exists_cons_cons
    rfl
  constructor
  · intro h
    exact ⟨h.opens p (hfirst h.toIsSpanTail), h.toIsSpanTail⟩
  · rintro ⟨hsep, h⟩
    exact ⟨h, by simpa [hfirst h] using hsep⟩

/-- **The spans are listed, each once**: the ways along edges from a position whose first and last
edges are syllables, and that have one to `most` syllables. -/
theorem spans_complete (g : CutGraph) (most start : Nat) :
    (∀ path, path ∈ g.spans most start ↔ g.IsSpan most start path) ∧
      (g.spans most start).Nodup := by
  rw [spans_eq]
  by_cases hsep : g.IsSeparator start
  · simp [hsep, isSpan_iff]
  · simp [hsep, isSpan_iff, mem_spansFrom_iff, nodup_spansFrom]

/-- A separator is passed between two syllables; it ends no span, and opens none. -/
example :
    let g := (((ofText ['a', separator, 'b']).insert 0 ⟨1, []⟩).insert 1 ⟨2, []⟩).insert 2 ⟨3, []⟩
    g.spans 2 0 = [[0, 1], [0, 1, 2, 3]] ∧ g.spans 1 0 = [[0, 1]] ∧ g.spans 2 1 = [] := by
  decide +kernel

end Pinyin.CutGraph
