import Pinyin.Lattice.Transcription

/-!
# Pinyin.Proofs.Lattice.Numbering

Nodes up to the numbers of their creation.  The numbers matter to a search only
through the order of the nodes of one position, and this order is that of the list:

* `Node.unnumbered` — a node without the numbers of its chain;
* `Lattice.Ascending` — the log of a lattice is in the order of creation;
* `unnumbered_hypotheses`, `transcriptions_eq` — what a search reads off a lattice is
  a function of the unnumbered nodes of a position.
-/

namespace Pinyin

variable {σ R : Type}

/-! ## Stable sorting -/

/-- Sorting compares an earlier element with a later one only, so a map commutes with it
that keeps the order of such pairs. -/
theorem map_mergeSort_of_pairwise {r : α → α → Bool} {s : β → β → Bool} {f : α → β}
    {l : List α} (h : l.Pairwise fun a b => r a b = s (f a) (f b)) :
    (l.mergeSort r).map f = (l.map f).mergeSort s := by
  match l with
  | [] => simp
  | [x] => simp
  | a :: b :: l =>
      -- As `mergeSort` does: both halves, then their merge.
      generalize hxs : a :: b :: l = xs at h
      have hlen : 1 < xs.length := by rw [← hxs, List.length_cons, List.length_cons]; omega
      have hsplit : xs.take ((xs.length + 1) / 2) ++ xs.drop ((xs.length + 1) / 2) = xs :=
        List.take_append_drop ..
      rw [← hsplit, List.pairwise_append] at h
      obtain ⟨hfront, hback, hacross⟩ := h
      have hmerge : ∀ u ∈ (xs.take ((xs.length + 1) / 2)).mergeSort r,
          ∀ v ∈ (xs.drop ((xs.length + 1) / 2)).mergeSort r, r u v = s (f u) (f v) :=
        fun u hu v hv => hacross u (List.mem_mergeSort.1 hu) v (List.mem_mergeSort.1 hv)
      have hunfold : xs.mergeSort r
          = ((xs.take ((xs.length + 1) / 2)).mergeSort r).merge
              ((xs.drop ((xs.length + 1) / 2)).mergeSort r) r := by
        rw [← hxs, List.mergeSort]
        simp
      have hunfold' : (xs.map f).mergeSort s
          = (((xs.map f).take ((xs.length + 1) / 2)).mergeSort s).merge
              (((xs.map f).drop ((xs.length + 1) / 2)).mergeSort s) s := by
        rw [← hxs, List.map_cons, List.map_cons, List.mergeSort]
        simp
      rw [hunfold, List.map_merge hmerge, map_mergeSort_of_pairwise hfront,
        map_mergeSort_of_pairwise hback, hunfold', List.map_take, List.map_drop]
termination_by l.length
decreasing_by
  all_goals
    simp only [List.length_take, List.length_drop]
    omega

/-! ## Nodes without numbers -/

namespace Node

/-- The node with the number zero for itself and for those that it extends. -/
def unnumbered : Node σ R → Node σ R
  | start state => .start state
  | link prev arc score _ => .link prev.unnumbered arc score 0

@[simp] theorem unnumbered_unnumbered (n : Node σ R) : n.unnumbered.unnumbered = n.unnumbered := by
  induction n with
  | start => rfl
  | link prev arc score seq ih => simp [unnumbered, ih]

@[simp] theorem state_unnumbered (n : Node σ R) : n.unnumbered.state = n.state := by
  cases n <;> rfl

@[simp] theorem seq_unnumbered (n : Node σ R) : n.unnumbered.seq = 0 := by
  cases n <;> rfl

@[simp] theorem score_unnumbered [Zero R] (n : Node σ R) : n.unnumbered.score = n.score := by
  cases n <;> rfl

@[simp] theorem arcs_unnumbered (n : Node σ R) : n.unnumbered.arcs = n.arcs := by
  induction n with
  | start => rfl
  | link prev arc score seq ih => simp [unnumbered, arcs, ih]

@[simp] theorem transcription_unnumbered [Zero R] (n : Node σ R) :
    n.unnumbered.transcription = n.transcription := by
  simp [transcription]

/-- Without numbers a node ranks as it does before a node that was created later. -/
theorem rankLe_unnumbered [Cost R] {a b : Node σ R} (h : a.seq ≤ b.seq) :
    rankLe a b = rankLe a.unnumbered b.unnumbered := by
  simp [rankLe, h]

end Node

/-- The best nodes of each state among some nodes, at most `k` for a state. -/
def select [DecidableEq σ] [Cost R] (k : Nat) (ns : List (Node σ R)) : List (Node σ R) :=
  (ns.map Node.state).eraseDups.flatMap fun s =>
    ((ns.filter fun n => n.state = s).mergeSort Node.rankLe).take k

theorem mem_of_mem_select [DecidableEq σ] [Cost R] {k : Nat} {ns : List (Node σ R)}
    {n : Node σ R} (h : n ∈ select k ns) : n ∈ ns := by
  obtain ⟨s, -, hn⟩ := List.mem_flatMap.1 h
  exact (List.mem_filter.1 (List.mem_mergeSort.1 (List.mem_of_mem_take hn))).1

/-- Nodes in the order of creation are selected alike without their numbers. -/
theorem unnumbered_select [DecidableEq σ] [Cost R] {ns : List (Node σ R)}
    (h : ns.Pairwise fun a b => a.seq < b.seq) (k : Nat) :
    (select k ns).map Node.unnumbered = select k (ns.map Node.unnumbered) := by
  have hstates : (ns.map Node.unnumbered).map Node.state = ns.map Node.state := by
    simp [Function.comp_def]
  unfold select
  rw [List.map_flatMap, hstates]
  congr 1
  funext s
  have hgroup : ((ns.filter fun n => n.state = s).map Node.unnumbered)
      = (ns.map Node.unnumbered).filter fun n => n.state = s := by
    simp [List.filter_map, Function.comp_def]
  have hsorted : (ns.filter fun n => n.state = s).Pairwise fun a b =>
      Node.rankLe a b = Node.rankLe a.unnumbered b.unnumbered :=
    (h.filter _).imp fun hlt => Node.rankLe_unnumbered (Nat.le_of_lt hlt)
  rw [List.map_take, map_mergeSort_of_pairwise hsorted, hgroup]

/-! ## Lattices in the order of creation -/

namespace Lattice

/-- The log lists its nodes in the order of creation, and the next number is new. -/
structure Ascending (lat : Lattice σ R) : Prop where
  pairwise : lat.log.toList.Pairwise fun a b => a.seq < b.seq
  lt_counter : ∀ n ∈ lat.log.toList, n.seq < lat.counter

/-- The nodes of a position without their numbers, in the order of their creation. -/
def unnumberedNodes (lat : Lattice σ R) (p : Nat) : List (Node σ R) :=
  (lat.nodes p).map Node.unnumbered

theorem unnumberedNodes_eq_nil {lat : Lattice σ R} {p : Nat} :
    lat.unnumberedNodes p = [] ↔ lat.nodes p = [] := by
  simp [unnumberedNodes]

namespace Ascending

variable {lat : Lattice σ R}

theorem nodes (h : lat.Ascending) (p : Nat) :
    (lat.nodes p).Pairwise fun a b => a.seq < b.seq :=
  h.pairwise.filter _

theorem empty : (Lattice.empty : Lattice σ R).Ascending where
  pairwise := List.Pairwise.nil
  lt_counter := by simp [Lattice.empty]

theorem push (h : lat.Ascending) (draft : Draft σ R) : (lat.push draft).Ascending where
  pairwise := by
    simp only [Lattice.push, Array.toList_push, List.pairwise_append]
    refine ⟨h.pairwise, by simp, fun n hn m hm => ?_⟩
    rw [List.mem_singleton] at hm
    subst hm
    exact h.lt_counter n hn
  lt_counter := by
    intro n hn
    simp only [Lattice.push, Array.toList_push, List.mem_append, List.mem_singleton] at hn ⊢
    rcases hn with hn | rfl
    · exact Nat.lt_succ_of_lt (h.lt_counter n hn)
    · exact Nat.lt_succ_self _

theorem discard (h : lat.Ascending) (positions : List Nat) : (lat.discard positions).Ascending := by
  unfold Lattice.discard
  split
  · exact h
  · refine ⟨?_, fun n hn => h.lt_counter n ?_⟩
    · simpa using h.pairwise.filter _
    · simp only [Array.toList_filter, List.mem_filter] at hn
      exact hn.1

theorem prepare [DecidableEq σ] (h : lat.Ascending) (purpose : Purpose σ) :
    (lat.prepare purpose).Ascending := by
  unfold Lattice.prepare
  split
  · exact h
  · exact ⟨List.pairwise_singleton .., by simp [Node.seq]⟩

theorem settle (h : lat.Ascending) (singlePath : Bool) : (lat.settle singlePath).Ascending := by
  unfold Lattice.settle
  cases hs : lat.singlePath with
  | none => exact ⟨h.pairwise, h.lt_counter⟩
  | some before =>
      by_cases hb : before = singlePath
      · simp only [hb, if_true]
        exact ⟨h.pairwise, h.lt_counter⟩
      · simp only [hb, if_false]
        exact ⟨(h.discard [1]).pairwise, (h.discard [1]).lt_counter⟩

end Ascending

/-- The hypotheses of a position are selected from its unnumbered nodes. -/
theorem unnumbered_hypotheses [DecidableEq σ] [Cost R] {lat : Lattice σ R} (h : lat.Ascending)
    (p k : Nat) :
    (lat.hypotheses p k).map Node.unnumbered = select k (lat.unnumberedNodes p) :=
  unnumbered_select (h.nodes p) k

/-- The nodes of a position from the best on, without their numbers. -/
theorem unnumbered_ranked [Cost R] {lat : Lattice σ R} (h : lat.Ascending) (p : Nat) :
    ((lat.nodes p).mergeSort Node.rankLe).map Node.unnumbered
      = (lat.unnumberedNodes p).mergeSort Node.rankLe :=
  map_mergeSort_of_pairwise <|
    (h.nodes p).imp fun hlt => Node.rankLe_unnumbered (Nat.le_of_lt hlt)

/-- The sentences of a position are read off its unnumbered nodes. -/
theorem transcriptions_eq [Cost R] {lat : Lattice σ R} (h : lat.Ascending) (stop : Nat)
    (nbest : Int) :
    lat.transcriptions stop nbest
      = (distinctBy Transcription.words []
          (((lat.unnumberedNodes stop).mergeSort Node.rankLe).map Node.transcription)).take
            (max 1 nbest).toNat := by
  have hmap : ((lat.nodes stop).mergeSort Node.rankLe).map Node.transcription
      = (((lat.nodes stop).mergeSort Node.rankLe).map Node.unnumbered).map Node.transcription := by
    simp [Function.comp_def]
  simp only [transcriptions]
  rw [hmap, unnumbered_ranked h]

end Lattice

end Pinyin
