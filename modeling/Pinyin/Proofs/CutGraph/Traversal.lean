import Pinyin.Proofs.CutGraph.Reach
import Pinyin.Proofs.CutGraph.Span

/-!
# Pinyin.Proofs.CutGraph.Traversal

Listing the ways through a graph, counting them, and finding out whether there are any.

* `mem_pathsFrom_iff`, `nodup_pathsFrom` — the ways along edges to the end are listed, each once;
* `countsDownTo_eq` — adding up backwards from the end counts them;
* `pathsFrom_ne_nil_iff` — there is one where the end can be reached;
* `traversals_agree` — so listing, counting and reaching give the same answer.
-/

namespace Pinyin.CutGraph

variable {g : CutGraph} {p : Nat} {path : Path}

/-! ## Listing -/

/-- A way along edges from a position to the end. -/
structure IsWayFrom (g : CutGraph) (p : Nat) (path : Path) : Prop where
  head?_eq : path.head? = some p
  isChain : path.IsChain fun a b => b ∈ g.successors a
  getLast?_eq : path.getLast? = some g.size

/-- Edges run forward, and so do ways along them. -/
theorem IsWayFrom.pairwise_lt (h : g.IsWayFrom p path) : path.Pairwise (· < ·) :=
  List.isChain_iff_pairwise.1 (h.isChain.imp fun _ _ hedge => (lt_of_mem_successors hedge).1)

theorem isWayFrom_size : g.IsWayFrom g.size [g.size] :=
  ⟨rfl, List.isChain_singleton _, rfl⟩

/-- A way goes on with an edge. -/
theorem IsWayFrom.cons {q : Nat} (hq : q ∈ g.successors p) (h : g.IsWayFrom q path) :
    g.IsWayFrom p (p :: path) := by
  obtain ⟨rest, rfl⟩ := List.head?_eq_some_iff.1 h.head?_eq
  exact ⟨rfl, List.isChain_cons_cons.2 ⟨hq, h.isChain⟩, h.getLast?_eq⟩

/-- What is listed are ways along edges to the end. -/
theorem isWayFrom_of_mem_pathsFrom {p : Nat} {path : Path} (h : path ∈ g.pathsFrom p) :
    g.IsWayFrom p path := by
  by_cases hp : p = g.size
  · rw [hp, pathsFrom_size, List.mem_singleton] at h
    rw [hp, h]
    exact isWayFrom_size
  · rw [pathsFrom_of_ne hp] at h
    obtain ⟨q, hq, h⟩ := List.mem_flatMap.1 h
    obtain ⟨rest, hrest, rfl⟩ := List.mem_map.1 h
    have hforward := lt_of_mem_successors hq
    exact (isWayFrom_of_mem_pathsFrom hrest).cons hq
termination_by g.size - p

/-- **The ways along edges to the end are listed**, and nothing else is. -/
theorem mem_pathsFrom_iff : path ∈ g.pathsFrom p ↔ g.IsWayFrom p path := by
  refine ⟨isWayFrom_of_mem_pathsFrom, fun h => ?_⟩
  obtain ⟨rest, rfl⟩ := List.head?_eq_some_iff.1 h.head?_eq
  refine mem_pathsFrom_of_isChain h.isChain ?_
  rw [List.getLastD_eq_getLast?, h.getLast?_eq, Option.getD_some]

/-- **No way is listed twice**: two ways take different edges from some position on. -/
theorem nodup_pathsFrom (g : CutGraph) (p : Nat) : (g.pathsFrom p).Nodup := by
  by_cases hp : p = g.size
  · rw [hp, pathsFrom_size]
    exact List.nodup_singleton _
  · rw [pathsFrom_of_ne hp]
    refine nodup_flatMap_cons (fun q hq => ?_) fun q hq tail htail => ?_
    · have hforward := lt_of_mem_successors hq
      exact nodup_pathsFrom g q
    · exact (mem_pathsFrom_iff.1 htail).head?_eq
termination_by g.size - p

/-! ## Counting -/

/-- The count of a position is added up from those of the positions after it. -/
theorem countsDownTo_of_le (h : p ≤ g.size) :
    g.countsDownTo p
      = (if p = g.size then 1
          else (g.successors p).foldr
            (fun q n => (g.countsDownTo (p + 1)).getD (q - p - 1) 0 + n) 0) ::
        g.countsDownTo (p + 1) := by
  have hlen : g.size + 1 - p = g.size + 1 - (p + 1) + 1 := by omega
  rw [countsDownTo, hlen, List.range'_succ, List.foldr_cons, ← countsDownTo]

/-- **Adding up backwards counts the ways**: from each position on, those that lead to the end. -/
theorem countsDownTo_eq (g : CutGraph) (p : Nat) :
    g.countsDownTo p = (List.range' p (g.size + 1 - p)).map fun q => (g.pathsFrom q).length := by
  by_cases hp : p ≤ g.size
  case neg =>
    have hnone : g.size + 1 - p = 0 := by omega
    rw [countsDownTo, hnone]
    rfl
  case pos =>
    have hlen : g.size + 1 - p = g.size + 1 - (p + 1) + 1 := by omega
    rw [countsDownTo_of_le hp, hlen, List.range'_succ, List.map_cons, countsDownTo_eq g (p + 1)]
    congr 1
    split
    · next hend => rw [hend, pathsFrom_size]; rfl
    · next hend =>
      rw [pathsFrom_of_ne hend, List.length_flatMap, List.sum_eq_foldr, List.foldr_map]
      refine List.foldr_ext _ _ _ fun q hq n => congrArg (· + n) ?_
      have hforward := lt_of_mem_successors hq
      have hplace : (List.range' (p + 1) (g.size + 1 - (p + 1)))[q - p - 1]? = some q := by
        rw [List.getElem?_range' (by omega)]
        congr 1
        omega
      rw [List.getD_eq_getElem?_getD, List.getElem?_map, hplace, List.length_map]
      rfl
termination_by g.size + 1 - p

theorem pathCount_eq (g : CutGraph) : g.pathCount = g.paths.length := by
  rw [pathCount, countsDownTo_eq, Nat.sub_zero, List.range'_succ]
  rfl

/-! ## Reaching -/

/-- **There is a way where the end can be reached.** -/
theorem pathsFrom_ne_nil_iff : g.pathsFrom p ≠ [] ↔ g.Reaches p g.size := by
  constructor
  · intro h
    obtain ⟨path, hpath⟩ := List.exists_mem_of_ne_nil _ h
    have hway := mem_pathsFrom_iff.1 hpath
    obtain ⟨rest, rfl⟩ := List.head?_eq_some_iff.1 hway.head?_eq
    refine List.relationReflTransGen_of_exists_isChain_cons rest hway.isChain ?_
    exact Option.some.inj ((List.getLast?_eq_some_getLast _).symm.trans hway.getLast?_eq)
  · intro h
    induction h using Relation.ReflTransGen.head_induction_on with
    | refl =>
        rw [pathsFrom_size]
        exact List.cons_ne_nil _ _
    | head hq _ ih =>
        obtain ⟨path, hpath⟩ := List.exists_mem_of_ne_nil _ ih
        exact List.ne_nil_of_mem (mem_pathsFrom_iff.2 ((mem_pathsFrom_iff.1 hpath).cons hq))

/-- **Listing, counting and reaching agree.**  The ways that are listed are the ascending ways along
edges from the start to the end, each of them once; their number is what is counted backwards from
the end; and there is one exactly if the graph is connected, all of whose edges run forward. -/
theorem traversals_agree (g : CutGraph) :
    (∀ path, path ∈ g.paths ↔ g.IsWayFrom 0 path ∧ path.Pairwise (· < ·)) ∧
    g.paths.Nodup ∧ g.pathCount = g.paths.length ∧
    ((∀ edge ∈ g.allEdges, edge.1 < edge.2.stop ∧ edge.2.stop ≤ g.size) ∧ g.IsConnected ↔
      g.paths ≠ []) := by
  refine ⟨fun path => ?_, nodup_pathsFrom g 0, pathCount_eq g, ?_⟩
  · exact mem_pathsFrom_iff.trans ⟨fun h => ⟨h, h.pairwise_lt⟩, And.left⟩
  · have hforward : ∀ edge ∈ g.allEdges, edge.1 < edge.2.stop ∧ edge.2.stop ≤ g.size := by
      intro edge hedge
      obtain ⟨p, -, hp⟩ := List.mem_flatMap.1 hedge
      obtain ⟨e, he, rfl⟩ := List.mem_map.1 hp
      exact ⟨lt_stop he, stop_le_size he⟩
    rw [and_iff_right hforward, isConnected_iff, paths, pathsFrom_ne_nil_iff]

/-- Of a graph with the dead end 2 and the position 1, which cannot be reached, one way is left. -/
example :
    let g := (((ofText ['a', 'b', 'c']).insert 0 ⟨2, []⟩).insert 1 ⟨3, []⟩).insert 0 ⟨3, []⟩
    g.paths = [[0, 3]] ∧ g.pathCount = 1 ∧ g.IsConnected := by
  decide +kernel

end Pinyin.CutGraph
