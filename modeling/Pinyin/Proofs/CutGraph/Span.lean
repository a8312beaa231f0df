import Mathlib.Data.List.Chain
import Mathlib.Data.List.Nodup
import Pinyin.Decoder.Span

/-!
# Pinyin.Proofs.CutGraph.Span

The spans of a graph are ways along its edges:

* `isChain_of_mem_spansFrom` — each step of a span is an edge;
* `lt_getLastD_of_mem_spansFrom` — a span ends after its start, and inside the text;
* `mem_pathsFrom_of_isChain` — ways along edges that arrive at the end are the ways of the graph;
* `exists_cons_of_mem_pathsFrom` — each of them begins with its first position;
* `nodup_flatMap_cons` — ways that take different edges first are different.
-/

namespace Pinyin.CutGraph

/-! ## Equations -/

/-- The spans of no syllable. -/
theorem spansFrom_zero (g : CutGraph) (opened : Bool) (p : Nat) : g.spansFrom 0 opened p = [] := by
  rw [spansFrom]

/-- A separator is passed within a word, and opens none. -/
theorem spansFrom_of_isSeparator {g : CutGraph} {p : Nat} (h : g.IsSeparator p) (rest : Nat)
    (opened : Bool) :
    g.spansFrom (rest + 1) opened p
      = if opened then
          (g.successors p).flatMap fun q => (g.spansFrom (rest + 1) true q).map (p :: ·)
        else [] := by
  rw [spansFrom, if_pos h]
  cases opened with
  | false => rfl
  | true =>
      rw [if_pos rfl, if_pos rfl,
        flatMap_attach _ fun q => (g.spansFrom (rest + 1) true q).map (p :: ·)]

/-- A syllable is a span, and so is what can follow it within a word. -/
theorem spansFrom_of_not_isSeparator {g : CutGraph} {p : Nat} (h : ¬ g.IsSeparator p) (rest : Nat)
    (opened : Bool) :
    g.spansFrom (rest + 1) opened p
      = (g.successors p).flatMap fun q => [p, q] :: (g.spansFrom rest true q).map (p :: ·) := by
  rw [spansFrom, if_neg h,
    flatMap_attach _ fun q => [p, q] :: (g.spansFrom rest true q).map (p :: ·)]

/-- Without edges there are no spans. -/
theorem spansFrom_eq_nil {g : CutGraph} {p : Nat} (h : g.successors p = []) (most : Nat)
    (opened : Bool) : g.spansFrom most opened p = [] := by
  cases most with
  | zero => exact spansFrom_zero g opened p
  | succ rest =>
      by_cases hs : g.IsSeparator p
      · rw [spansFrom_of_isSeparator hs, h]
        cases opened <;> rfl
      · rw [spansFrom_of_not_isSeparator hs, h]
        rfl

/-! ## Spans as ways -/

/-- A span begins with an edge, and each of its further steps is one. -/
theorem isChain_of_mem_spansFrom {g : CutGraph} {most : Nat} {opened : Bool} {p : Nat}
    {path : Path} (h : path ∈ g.spansFrom most opened p) :
    ∃ q rest, path = p :: q :: rest ∧ path.IsChain fun a b => b ∈ g.successors a := by
  induction most, opened, p using spansFrom.induct (g := g) generalizing path with
  | case1 opened p =>
      rw [spansFrom_zero] at h
      cases h
  | case2 p rest hsep ih =>
      rw [spansFrom_of_isSeparator hsep, if_pos rfl] at h
      obtain ⟨q, hq, h⟩ := List.mem_flatMap.1 h
      obtain ⟨tail, htail, rfl⟩ := List.mem_map.1 h
      obtain ⟨r, rest', rfl, hchain⟩ := ih ⟨q, hq⟩ htail
      exact ⟨q, r :: rest', rfl, List.isChain_cons_cons.2 ⟨hq, hchain⟩⟩
  | case3 opened p rest hsep hopened =>
      rw [spansFrom_of_isSeparator hsep, if_neg hopened] at h
      cases h
  | case4 opened p rest hsep ih =>
      rw [spansFrom_of_not_isSeparator hsep] at h
      obtain ⟨q, hq, h⟩ := List.mem_flatMap.1 h
      rcases List.mem_cons.1 h with rfl | h
      · exact ⟨q, [], rfl, List.isChain_cons_cons.2 ⟨hq, List.isChain_singleton q⟩⟩
      · obtain ⟨tail, htail, rfl⟩ := List.mem_map.1 h
        obtain ⟨r, rest', rfl, hchain⟩ := ih ⟨q, hq⟩ htail
        exact ⟨q, r :: rest', rfl, List.isChain_cons_cons.2 ⟨hq, hchain⟩⟩

/-- A way with an edge ends after its start, and inside the text. -/
theorem lt_getLastD_of_isChain {g : CutGraph} {p q : Nat} {rest : Path}
    (h : (p :: q :: rest).IsChain fun a b => b ∈ g.successors a) :
    p < (p :: q :: rest).getLastD 0 ∧ (p :: q :: rest).getLastD 0 ≤ g.size := by
  induction rest generalizing p q with
  | nil => exact lt_of_mem_successors (List.isChain_cons_cons.1 h).1
  | cons r rest ih =>
      obtain ⟨hq, htail⟩ := List.isChain_cons_cons.1 h
      have hlt := (lt_of_mem_successors hq).1
      have hrest := ih htail
      have hlast : (p :: q :: r :: rest).getLastD 0 = (q :: r :: rest).getLastD 0 := rfl
      omega

/-- A way along edges that arrives at the end is one of the ways to the end. -/
theorem mem_pathsFrom_of_isChain {g : CutGraph} {p : Nat} {rest : Path}
    (h : (p :: rest).IsChain fun a b => b ∈ g.successors a)
    (hend : (p :: rest).getLastD 0 = g.size) : p :: rest ∈ g.pathsFrom p := by
  induction rest generalizing p with
  | nil =>
      obtain rfl : p = g.size := hend
      rw [pathsFrom_size]
      exact List.mem_singleton_self _
  | cons q rest ih =>
      obtain ⟨hq, htail⟩ := List.isChain_cons_cons.1 h
      have hlt := lt_of_mem_successors hq
      rw [pathsFrom_of_ne (by omega)]
      exact List.mem_flatMap.2 ⟨q, hq, List.mem_map_of_mem (ih htail hend)⟩

/-- A way to the end begins where it should. -/
theorem exists_cons_of_mem_pathsFrom {g : CutGraph} {p : Nat} {path : Path}
    (h : path ∈ g.pathsFrom p) : ∃ rest, path = p :: rest := by
  by_cases hp : p = g.size
  · rw [hp, pathsFrom_size, List.mem_singleton] at h
    exact ⟨[], h.trans (by rw [hp])⟩
  · rw [pathsFrom_of_ne hp] at h
    obtain ⟨q, -, hq⟩ := List.mem_flatMap.1 h
    obtain ⟨rest, -, rfl⟩ := List.mem_map.1 hq
    exact ⟨rest, rfl⟩

/-- Ways that take different edges first are different. -/
theorem nodup_flatMap_cons {g : CutGraph} {p : Nat} {f : Nat → List Path}
    (hnodup : ∀ q ∈ g.successors p, (f q).Nodup)
    (hhead : ∀ q ∈ g.successors p, ∀ tail ∈ f q, tail.head? = some q) :
    ((g.successors p).flatMap fun q => (f q).map (p :: ·)).Nodup := by
  have hsucc : (g.successors p).Nodup := g.nodup p
  rw [List.nodup_flatMap]
  refine ⟨fun q hq => (hnodup q hq).map List.cons_injective, ?_⟩
  refine hsucc.imp_of_mem fun {q r} hq hr hne path hpath hpath' => ?_
  obtain ⟨tail, htail, rfl⟩ := List.mem_map.1 hpath
  obtain ⟨tail', htail', heq⟩ := List.mem_map.1 hpath'
  obtain rfl : tail' = tail := (List.cons.inj heq).2
  exact hne (Option.some.inj ((hhead q hq _ htail).symm.trans (hhead r hr _ htail')))

/-- A word does not begin with a separator. -/
theorem not_isSeparator_of_mem_spans {g : CutGraph} {most p : Nat} {path : Path}
    (h : path ∈ g.spans most p) : ¬ g.IsSeparator p := by
  intro hsep
  cases most with
  | zero =>
      rw [spans, spansFrom_zero] at h
      cases h
  | succ rest =>
      rw [spans, spansFrom_of_isSeparator hsep, if_neg Bool.false_ne_true] at h
      cases h

theorem lt_getLastD_of_mem_spansFrom {g : CutGraph} {most : Nat} {opened : Bool} {p : Nat}
    {path : Path} (h : path ∈ g.spansFrom most opened p) :
    p < path.getLastD 0 ∧ path.getLastD 0 ≤ g.size := by
  obtain ⟨q, rest, rfl, hchain⟩ := isChain_of_mem_spansFrom h
  exact lt_getLastD_of_isChain hchain

end Pinyin.CutGraph
