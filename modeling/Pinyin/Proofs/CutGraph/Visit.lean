import Mathlib.Data.List.Nodup
import Mathlib.Data.Set.Basic
import Pinyin.Proofs.CutGraph.Span

/-!
# Pinyin.Proofs.CutGraph.Visit

What a visitor sees who does not go on after some of the ways.

* `takeThrough_eq_filter` — of different elements those are left out that follow the last one;
* `IsSkipped` — a way that leaves a position by an edge behind the one to the end of the graph,
  where the visitor does not go on after the way that takes this one;
* `visitFrom_eq` — all other ways are seen, in their order;
* `walk` — the walk that hands a signal back from each position to the one before it;
* `walkFrom_eq` — the signal stops that one position, so the walk comes to what a visitor sees;
* `visit_eq_filter_paths` — these are all ways that are not skipped.
-/

namespace Pinyin.CutGraph

/-! ## Edges that are left out -/

/-- Where elements are taken through a certain one, those that follow it are left out. -/
theorem takeThrough_eq_filter [DecidableEq α] {xs : List α} (h : xs.Nodup) (a : α)
    (halts : Prop) [Decidable halts] :
    takeThrough (fun x => x == a && decide halts) xs
      = xs.filter fun x => ¬ (halts ∧ [a, x].Sublist xs) := by
  induction xs with
  | nil => rfl
  | cons y ys ih =>
      obtain ⟨hy, hys⟩ := List.nodup_cons.1 h
      have hsublist : ∀ x, [a, x].Sublist (y :: ys) ↔ [a, x].Sublist ys ∨ a = y ∧ x ∈ ys := by
        intro x
        rw [List.cons_sublist_cons', List.singleton_sublist]
      have hmem : ∀ x, [a, x].Sublist ys → a ∈ ys ∧ x ∈ ys := fun x hx =>
        ⟨hx.subset List.mem_cons_self, hx.subset (by simp)⟩
      by_cases hlast : y = a ∧ halts
      · obtain ⟨rfl, hhalts⟩ := hlast
        have hself : ¬ [y, y].Sublist (y :: ys) := fun htwice =>
          hy (((hsublist y).1 htwice).elim (fun hx => (hmem y hx).1) And.right)
        have hrest : ∀ x ∈ ys, [y, x].Sublist (y :: ys) := fun x hx =>
          (hsublist x).2 (.inr ⟨rfl, hx⟩)
        have hnone : ys.filter (fun x => ¬ (halts ∧ [y, x].Sublist (y :: ys))) = [] :=
          List.filter_eq_nil_iff.2 fun x hx => by simp [hhalts, hrest x hx]
        rw [takeThrough, if_pos (by simp [hhalts]), List.filter_cons_of_pos (by simp [hself]), hnone]
      · have hsame : ∀ x, halts ∧ [a, x].Sublist (y :: ys) ↔ halts ∧ [a, x].Sublist ys :=
          fun x => and_congr_right fun hhalts => (hsublist x).trans
            (or_iff_left fun hx => hlast ⟨hx.1.symm, hhalts⟩)
        have hself : ¬ [a, y].Sublist ys := fun hy' => hy (hmem y hy').2
        simp only [hsame]
        rw [takeThrough, if_neg (by simpa using hlast), List.filter_cons_of_pos (by simp [hself]),
          ih hys]

/-- Elements that come to nothing may as well be left out before. -/
theorem flatMap_filter_eq {xs : List α} {keep : α → Bool} {f f' : α → List β}
    (hkept : ∀ x ∈ xs, keep x = true → f x = f' x) (hout : ∀ x ∈ xs, keep x = false → f' x = []) :
    (xs.filter keep).flatMap f = xs.flatMap f' := by
  induction xs with
  | nil => rfl
  | cons x xs ih =>
      rw [List.forall_mem_cons] at hkept hout
      have hrest := ih hkept.2 hout.2
      cases hx : keep x
      · rw [List.filter_cons_of_neg (by simp [hx]), List.flatMap_cons, hout.1 hx, List.nil_append,
          hrest]
      · rw [List.filter_cons_of_pos hx, List.flatMap_cons, List.flatMap_cons, hkept.1 hx, hrest]

/-! ## Ways that are skipped -/

/-- At a position that is reached by the positions `before` it, the edge to `q` was inserted after
one to the end of the graph, and the visitor stops after the way that takes this one. -/
def IsLeftOut (g : CutGraph) (stops : Set Path) (before : Path) (p q : Nat) : Prop :=
  (before ++ [p, g.size] ∈ g.paths ∧ before ++ [p, g.size] ∈ stops) ∧
    [g.size, q].Sublist (g.successors p)

/-- What is left of a way takes an edge that is left out, once the way has passed the positions
`before`. -/
def IsSkippedAfter (g : CutGraph) (stops : Set Path) (before path : Path) : Prop :=
  ∃ front p q rest, path = front ++ p :: q :: rest ∧ g.IsLeftOut stops (before ++ front) p q

/-- A way takes an edge that is left out: it goes on by this edge from the last position of its
`front`, although there is an edge from there to the end that was inserted before, and the visitor
stops after the way that takes that one. -/
def IsSkipped (g : CutGraph) (stops : Set Path) (path : Path) : Prop :=
  ∃ front p q rest, path = front ++ p :: q :: rest ∧ g.IsLeftOut stops front p q

variable {g : CutGraph} {stops : Set Path} {before : Path} {p q : Nat}

theorem not_isSkippedAfter_of_length {path : Path} (h : path.length < 2) :
    ¬ g.IsSkippedAfter stops before path := by
  rintro ⟨front, p, q, rest, rfl, -⟩
  simp only [List.length_append, List.length_cons] at h
  omega

theorem isSkippedAfter_cons_cons {rest : Path} :
    g.IsSkippedAfter stops before (p :: q :: rest) ↔
      g.IsLeftOut stops before p q ∨ g.IsSkippedAfter stops (before ++ [p]) (q :: rest) := by
  constructor
  · rintro ⟨front, p', q', rest', hpath, hleft⟩
    cases front with
    | nil =>
        obtain ⟨rfl, rfl, -⟩ : p = p' ∧ q = q' ∧ rest = rest' := by simpa using hpath
        exact .inl (by simpa using hleft)
    | cons r front =>
        obtain ⟨rfl, hrest⟩ := List.cons.inj hpath
        exact .inr ⟨front, p', q', rest', hrest, by simpa using hleft⟩
  · rintro (hleft | ⟨front, p', q', rest', hpath, hleft⟩)
    · exact ⟨[], p, q, rest, rfl, by simpa using hleft⟩
    · exact ⟨p :: front, p', q', rest', congrArg (p :: ·) hpath, by simpa using hleft⟩

instance [DecidablePred (· ∈ stops)] : Decidable (g.IsLeftOut stops before p q) := by
  unfold IsLeftOut; infer_instance

/-- Whether a way is skipped can be found out edge by edge. -/
def decideIsSkippedAfter (g : CutGraph) (stops : Set Path) [DecidablePred (· ∈ stops)] :
    (before path : Path) → Decidable (g.IsSkippedAfter stops before path)
  | _, [] => isFalse (not_isSkippedAfter_of_length Nat.two_pos)
  | _, [_] => isFalse (not_isSkippedAfter_of_length Nat.one_lt_two)
  | before, p :: q :: rest =>
    have := decideIsSkippedAfter g stops (before ++ [p]) (q :: rest)
    decidable_of_iff _ isSkippedAfter_cons_cons.symm

instance [DecidablePred (· ∈ stops)] (path : Path) :
    Decidable (g.IsSkippedAfter stops before path) :=
  decideIsSkippedAfter g stops before path

instance [DecidablePred (· ∈ stops)] (path : Path) : Decidable (g.IsSkipped stops path) :=
  decideIsSkippedAfter g stops [] path

/-! ## Ways that are seen -/

/-- A visitor is led along the edges that are not left out. -/
theorem siblings_eq [DecidablePred (· ∈ stops)]
    (hreal : g.size ∈ g.successors p → before ++ [p, g.size] ∈ g.paths) :
    g.siblings (fun path => path ∉ stops) before p
      = (g.successors p).filter fun q => ¬ g.IsLeftOut stops before p q := by
  have hhalts : (fun q => q == g.size && !decide (before ++ [p, q] ∉ stops))
      = fun q => q == g.size && decide (before ++ [p, g.size] ∈ stops) := by
    funext q
    by_cases hq : q = g.size
    · simp [hq]
    · simp [beq_false_of_ne hq]
  have hleft : ∀ q, before ++ [p, g.size] ∈ stops ∧ [g.size, q].Sublist (g.successors p) ↔
      g.IsLeftOut stops before p q := fun q =>
    ⟨fun h => ⟨⟨hreal (h.2.subset List.mem_cons_self), h.1⟩, h.2⟩, fun h => ⟨h.1.2, h.2⟩⟩
  have hnodup : (g.successors p).Nodup := g.nodup p
  rw [siblings, hhalts, takeThrough_eq_filter hnodup]
  exact List.filter_congr fun q _ => by simp only [hleft]

/-- **A visitor sees the ways that are not skipped**, walking on from a position that belongs to
ways from the start. -/
theorem visitFrom_eq [DecidablePred (· ∈ stops)] (before : Path) (p : Nat)
    (hreal : ∀ path ∈ g.pathsFrom p, before ++ path ∈ g.paths) :
    g.visitFrom (fun path => path ∉ stops) before p
      = ((g.pathsFrom p).filter fun path => ¬ g.IsSkippedAfter stops before path).map
          (before ++ ·) := by
  by_cases hp : p = g.size
  · have hshort : ¬ g.IsSkippedAfter stops before [g.size] :=
      not_isSkippedAfter_of_length Nat.one_lt_two
    rw [hp, visitFrom_size, pathsFrom_size]
    simp [hshort]
  · have hedge : ∀ q ∈ g.successors p, ∀ path ∈ g.pathsFrom q, p :: path ∈ g.pathsFrom p := by
      intro q hq path hpath
      rw [pathsFrom_of_ne hp]
      exact List.mem_flatMap.2 ⟨q, hq, List.mem_map_of_mem hpath⟩
    have hend : g.size ∈ g.successors p → before ++ [p, g.size] ∈ g.paths := fun hsize =>
      hreal _ (hedge g.size hsize [g.size] (by rw [pathsFrom_size]; exact List.mem_singleton_self _))
    have hskipped : ∀ q, ∀ path ∈ g.pathsFrom q, g.IsSkippedAfter stops before (p :: path) ↔
        g.IsLeftOut stops before p q ∨ g.IsSkippedAfter stops (before ++ [p]) path := by
      intro q path hpath
      obtain ⟨rest, rfl⟩ := exists_cons_of_mem_pathsFrom hpath
      exact isSkippedAfter_cons_cons
    rw [visitFrom_of_ne hp, siblings_eq hend, pathsFrom_of_ne hp, List.filter_flatMap,
      List.map_flatMap]
    refine flatMap_filter_eq (fun q hq hkept => ?_) fun q hq hout => ?_
    · have hforward := lt_of_mem_successors hq
      have hnext := visitFrom_eq (before ++ [p]) q fun path hpath => by
        rw [List.append_assoc]
        exact hreal _ (hedge q hq path hpath)
      have hleft : ¬ g.IsLeftOut stops before p q := of_decide_eq_true hkept
      rw [hnext, List.filter_map, List.map_map]
      have hsame : (g.pathsFrom q).filter (fun path => ¬ g.IsSkippedAfter stops (before ++ [p]) path)
          = (g.pathsFrom q).filter fun path => ¬ g.IsSkippedAfter stops before (p :: path) :=
        List.filter_congr fun path hpath => by simp [hskipped q path hpath, hleft]
      rw [hsame]
      exact List.map_congr_left fun path _ => List.append_assoc ..
    · have hleft : g.IsLeftOut stops before p q := by simpa using hout
      rw [List.filter_map, List.map_map, List.map_eq_nil_iff, List.filter_eq_nil_iff]
      intro path hpath
      simp [hskipped q path hpath, hleft]
termination_by g.size - p

/-! ## The signal -/

/-- Goes through a list until a step signals to stop. -/
def untilStop (step : α → σ → Bool × σ) : List α → σ → σ
  | [], s => s
  | x :: xs, s =>
    match step x s with
    | (true, s) => untilStop step xs s
    | (false, s) => s

/-- The walk of a visitor who keeps a state: from the end of a way comes the visitor's own signal
whether to go on, and from any other position that the one before it may go on. -/
def walkFrom (g : CutGraph) (visitor : Path → σ → Bool × σ) (before : Path) (p : Nat) (s : σ) :
    Bool × σ :=
  if p = g.size then visitor (before ++ [p]) s
  else (true, untilStop (fun q => walkFrom g visitor (before ++ [p]) q.val) (g.successors p).attach s)
termination_by g.size - p
decreasing_by
  have := lt_of_mem_successors q.property
  omega

/-- What a visitor knows after the walk from the start. -/
def walk (g : CutGraph) (visitor : Path → σ → Bool × σ) (s : σ) : σ :=
  (g.walkFrom visitor [] 0 s).2

theorem walkFrom_size (visitor : Path → σ → Bool × σ) :
    g.walkFrom visitor before g.size = visitor (before ++ [g.size]) := by
  funext s
  rw [walkFrom, if_pos rfl]

theorem untilStop_map (step : β → σ → Bool × σ) (f : α → β) (xs : List α) (s : σ) :
    untilStop step (xs.map f) s = untilStop (fun x => step (f x)) xs s := by
  induction xs generalizing s with
  | nil => rfl
  | cons x xs ih =>
      simp only [List.map_cons, untilStop]
      split
      · exact ih _
      · rfl

theorem walkFrom_of_ne (hp : p ≠ g.size) (visitor : Path → σ → Bool × σ) (s : σ) :
    g.walkFrom visitor before p s
      = (true, untilStop (g.walkFrom visitor (before ++ [p])) (g.successors p) s) := by
  have hattach := untilStop_map (g.walkFrom visitor (before ++ [p])) Subtype.val
    (g.successors p).attach s
  rw [List.attach_map_subtype_val] at hattach
  rw [walkFrom, if_neg hp, hattach]

/-- Steps that note what they come to, and signal to stop at some elements, come to what lies in
front of the first of these, and to what it comes to itself. -/
theorem untilStop_eq {step : α → σ → Bool × σ} {note : β → σ → σ} {halt : α → Bool}
    {found : α → List β} {xs : List α}
    (h : ∀ x ∈ xs, ∀ s, step x s = (!halt x, (found x).foldl (fun s y => note y s) s)) (s : σ) :
    untilStop step xs s = ((takeThrough halt xs).flatMap found).foldl (fun s y => note y s) s := by
  induction xs generalizing s with
  | nil => rfl
  | cons x xs ih =>
      rw [List.forall_mem_cons] at h
      rw [untilStop, h.1]
      cases hx : halt x
      · rw [takeThrough, if_neg (by simp [hx]), List.flatMap_cons, List.foldl_append]
        exact ih h.2 _
      · rw [takeThrough, if_pos hx, List.flatMap_cons, List.flatMap_nil, List.append_nil]
        rfl

/-- **The signal stops one position.**  The walk comes to the ways that a visitor sees, and only the
last position of a way hands the visitor's signal back. -/
theorem walkFrom_eq (keep : Path → Bool) (note : Path → σ → σ) (before : Path) (p : Nat) (s : σ) :
    g.walkFrom (fun path s => (keep path, note path s)) before p s
      = (p != g.size || keep (before ++ [p]),
          (g.visitFrom keep before p).foldl (fun s path => note path s) s) := by
  by_cases hp : p = g.size
  · rw [hp, walkFrom_size, visitFrom_size]
    simp
  · have hsteps : ∀ q ∈ g.successors p, ∀ s,
        g.walkFrom (fun path s => (keep path, note path s)) (before ++ [p]) q s
          = (!(q == g.size && !keep (before ++ [p, q])),
              (g.visitFrom keep (before ++ [p]) q).foldl (fun s path => note path s) s) := by
      intro q hq s
      have hforward := lt_of_mem_successors hq
      rw [walkFrom_eq keep note (before ++ [p]) q s]
      simp [bne]
    rw [walkFrom_of_ne hp, visitFrom_of_ne hp, untilStop_eq hsteps, siblings]
    simp [hp]
termination_by g.size - p

/-- **A visitor who stops after some ways** sees the ways from the start to the end that are not
skipped, in their order: those that at no position go on behind an edge to the end that belongs to
one of these ways.  This is what the walk comes to, whatever the visitor notes of a way. -/
theorem visit_eq_filter_paths (g : CutGraph) (stops : Set Path) [DecidablePred (· ∈ stops)] :
    let seen := g.paths.filter fun path => ¬ g.IsSkipped stops path
    g.visit (fun path => path ∉ stops) = seen ∧
    ∀ {σ : Type} (note : Path → σ → σ) (s : σ),
      g.walk (fun path s => (decide (path ∉ stops), note path s)) s
        = seen.foldl (fun s path => note path s) s := by
  intro seen
  have hvisit : g.visit (fun path => path ∉ stops) = seen := by
    rw [visit, visitFrom_eq [] 0 fun path hpath => hpath]
    exact List.map_id _
  refine ⟨hvisit, fun note s => ?_⟩
  rw [walk, walkFrom_eq, ← hvisit, visit]

/-- Of the ways (0, 1, 3), (0, 1, 2, 3) and (0, 3) the second is skipped after the first. -/
example :
    let g := ((((ofText ['a', 'b', 'c']).insert 0 ⟨1, []⟩).insert 1 ⟨3, []⟩).insert 1 ⟨2, []⟩).insert
      2 ⟨3, []⟩ |>.insert 0 ⟨3, []⟩
    g.visit (fun path => path ≠ [0, 1, 3]) = [[0, 1, 3], [0, 3]] := by
  decide +kernel

end Pinyin.CutGraph
