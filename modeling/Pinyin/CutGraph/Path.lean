import Pinyin.CutGraph.Basic

/-!
# Pinyin.CutGraph.Path

The ways through a graph, as the lists of the positions they pass.

* `pathsFrom`, `paths` — all ways to the end, depth first;
* `visit` — the same walk, cut short where a visitor asks for it;
* `pathCount` — how many ways there are, without listing them;
* `IsConnected` — there is a way at all.
-/

namespace Pinyin

/-- The positions that a way through a graph passes. -/
abbrev Path := List Nat

namespace CutGraph

/-! ## Listing -/

/-- Going through a list with the membership proofs at hand is going through it. -/
theorem flatMap_attach (xs : List α) (f : α → List β) :
    (xs.attach.flatMap fun x => f x.val) = xs.flatMap f := by
  rw [← List.flatMap_map, List.attach_map_subtype_val]

/-- All ways from a position to the end, in the order of the edges. -/
def pathsFrom (g : CutGraph) (p : Nat) : List Path :=
  if p = g.size then [[p]]
  else (g.successors p).attach.flatMap fun q => (pathsFrom g q.val).map (p :: ·)
termination_by g.size - p
decreasing_by
  have := lt_of_mem_successors q.property
  omega

theorem pathsFrom_size (g : CutGraph) : g.pathsFrom g.size = [[g.size]] := by
  rw [pathsFrom, if_pos rfl]

theorem pathsFrom_of_ne {g : CutGraph} {p : Nat} (h : p ≠ g.size) :
    g.pathsFrom p = (g.successors p).flatMap fun q => (g.pathsFrom q).map (p :: ·) := by
  rw [pathsFrom, if_neg h, flatMap_attach _ fun q => (g.pathsFrom q).map (p :: ·)]

/-- All ways from the start to the end. -/
def paths (g : CutGraph) : List Path := g.pathsFrom 0

/-- The front of a list up to and with the first element that halts. -/
def takeThrough (halt : α → Bool) : List α → List α
  | [] => []
  | x :: xs => if halt x then [x] else x :: takeThrough halt xs

theorem mem_of_mem_takeThrough {halt : α → Bool} {x : α} {xs : List α}
    (h : x ∈ takeThrough halt xs) : x ∈ xs := by
  induction xs with
  | nil => exact h
  | cons y ys ih =>
    unfold takeThrough at h
    split at h
    · simp_all
    · rcases List.mem_cons.1 h with rfl | h
      · exact List.mem_cons_self
      · exact List.mem_cons_of_mem _ (ih h)

/-- The next positions that a visitor is led to: all, or those up to the end if
the visitor does not `keep` on after the way that goes there. -/
def siblings (g : CutGraph) (keep : Path → Bool) (before : Path) (p : Nat) : List Nat :=
  takeThrough (fun q => q == g.size && !keep (before ++ [p, q])) (g.successors p)

/-- The complete ways that a visitor sees, walking on from a position reached by
the positions `before` it.  Where the visitor does not `keep` on after a way,
the edges that follow its last one are skipped. -/
def visitFrom (g : CutGraph) (keep : Path → Bool) (before : Path) (p : Nat) : List Path :=
  if p = g.size then [before ++ [p]]
  else
    (g.siblings keep before p).attach.flatMap fun q =>
      visitFrom g keep (before ++ [p]) q.val
termination_by g.size - p
decreasing_by
  have := lt_of_mem_successors (mem_of_mem_takeThrough q.property)
  omega

theorem visitFrom_size (g : CutGraph) (keep : Path → Bool) (before : Path) :
    g.visitFrom keep before g.size = [before ++ [g.size]] := by
  rw [visitFrom, if_pos rfl]

theorem visitFrom_of_ne {g : CutGraph} {keep : Path → Bool} {before : Path} {p : Nat}
    (h : p ≠ g.size) :
    g.visitFrom keep before p
      = (g.siblings keep before p).flatMap fun q => g.visitFrom keep (before ++ [p]) q := by
  rw [visitFrom, if_neg h, flatMap_attach _ fun q => g.visitFrom keep (before ++ [p]) q]

/-- The complete ways that a visitor sees from the start. -/
def visit (g : CutGraph) (keep : Path → Bool) : List Path := g.visitFrom keep [] 0

/-! ## Counting -/

/-- How many ways lead to the end from each position, from `p` on: a position
adds up the counts of the positions after it. -/
def countsDownTo (g : CutGraph) (p : Nat) : List Nat :=
  (List.range' p (g.size + 1 - p)).foldr
    (fun q later =>
      (if q = g.size then 1
        else (g.successors q).foldr (fun stop n => later.getD (stop - q - 1) 0 + n) 0) :: later)
    []

/-- How many ways lead from the start to the end. -/
def pathCount (g : CutGraph) : Nat := (g.countsDownTo 0).headD 0

/-! ## Connection -/

/-- The positions that can be reached from the start, found in ascending order. -/
def reached (g : CutGraph) : List Nat :=
  (List.range (g.size + 1)).foldl
    (fun found p => if p ∈ found then (g.successors p).foldl (fun qs q => qs.insert q) found
      else found)
    [0]

/-- The end can be reached from the start. -/
def IsConnected (g : CutGraph) : Prop := g.size ∈ g.reached

instance (g : CutGraph) : Decidable g.IsConnected := by
  unfold IsConnected; infer_instance

end CutGraph

end Pinyin
