import Mathlib.Data.List.Induction
import Mathlib.Data.List.Sort
import Pinyin.Proofs.Lattice.Numbering
import Pinyin.Proofs.List

/-!
# Pinyin.Proofs.Lattice.Ranking

The best nodes of a position, and what can be left out without changing them.

* `OrderedCost` — costs that are compared and added as numbers are;
* `LinearOn`, `pairwise_score_mergeSort` — some costs can be compared, and nodes are ranked by
  them;
* `mergeSort_eq_insertionSort` — sorting in a form in which closed terms can be evaluated;
* `take_mergeSort_append` — an element is not among the best `k` if `k` earlier ones are as
  good;
* `Thinned` — a list of nodes without some that have `k` rivals in it;
* `Thinned.take_mergeSort`, `Thinned.select_eq` — the best nodes, overall and of each state,
  stay the same.
-/

namespace Pinyin

/-! ## Ordered costs -/

/-- Costs whose order is a linear preorder that addition on the right keeps. -/
class OrderedCost (R : Type) [Cost R] : Prop where
  asymm : ∀ a b : R, a < b → ¬ b < a
  trans : ∀ a b c : R, ¬ b < a → ¬ c < b → ¬ c < a
  add : ∀ a b c : R, ¬ b < a → ¬ b + c < a + c

instance : OrderedCost Rat where
  asymm _ _ h := Rat.not_lt.2 (Rat.le_of_lt h)
  trans _ _ _ h h' := Rat.not_lt.2 (Rat.le_trans (Rat.not_lt.1 h) (Rat.not_lt.1 h'))
  add _ _ _ h := Rat.not_lt.2 (Rat.add_le_add_right.2 (Rat.not_lt.1 h))

variable {σ R : Type}

namespace Node

variable [Cost R]

theorem rankLe_iff {a b : Node σ R} :
    rankLe a b = true ↔ a.score < b.score ∨ ¬ b.score < a.score ∧ a.seq ≤ b.seq := by
  simp [rankLe]

theorem rankLe_total (a b : Node σ R) : rankLe a b || rankLe b a := by
  rw [Bool.or_eq_true, rankLe_iff, rankLe_iff]
  have hseq := Nat.le_total a.seq b.seq
  tauto

theorem rankLe_trans [OrderedCost R] (a b c : Node σ R) (hab : rankLe a b) (hbc : rankLe b c) :
    rankLe a c := by
  rw [rankLe_iff] at *
  have hasymm := OrderedCost.asymm (R := R)
  have htrans := OrderedCost.trans (R := R)
  grind

end Node

/-! ## Costs that occur -/

/-- Among some costs the order is a linear preorder. -/
structure LinearOn [LT R] (P : R → Prop) : Prop where
  asymm : ∀ a b, P a → P b → a < b → ¬ b < a
  trans : ∀ a b c, P a → P b → P c → ¬ b < a → ¬ c < b → ¬ c < a

theorem OrderedCost.linearOn [Cost R] [OrderedCost R] (P : R → Prop) : LinearOn P where
  asymm a b _ _ := OrderedCost.asymm a b
  trans a b c _ _ _ := OrderedCost.trans a b c

/-- Nodes in the order of rank have ascending scores, if these can be compared. -/
theorem pairwise_score_mergeSort [Cost R] {ns : List (Node σ R)}
    (h : LinearOn fun score => ∃ n ∈ ns, n.score = score) :
    (ns.mergeSort Node.rankLe).Pairwise fun m n => ¬ n.score < m.score := by
  -- Sorting is known to work for orders of a whole type: here that of the nodes in the list.
  have hmap : (ns.attach.mergeSort fun m n => Node.rankLe m.val n.val).map Subtype.val
      = ns.mergeSort Node.rankLe := by
    have hsort := List.map_mergeSort (r := fun m n : { n // n ∈ ns } => Node.rankLe m.val n.val)
      (s := Node.rankLe) (f := Subtype.val) (l := ns.attach) fun _ _ _ _ => rfl
    rw [hsort, List.attach_map_subtype_val]
  have hscore : ∀ n : { n // n ∈ ns }, ∃ m ∈ ns, m.score = n.val.score :=
    fun n => ⟨n.val, n.property, rfl⟩
  have htrans : ∀ a b c : { n // n ∈ ns }, Node.rankLe a.val b.val → Node.rankLe b.val c.val →
      Node.rankLe a.val c.val := by
    intro a b c hab hbc
    rw [Node.rankLe_iff] at *
    have hasymm := h.asymm
    have htrans := h.trans
    have ha := hscore a
    have hb := hscore b
    have hc := hscore c
    grind
  have hsorted := List.pairwise_mergeSort htrans (fun a b => Node.rankLe_total a.val b.val)
    ns.attach
  rw [← hmap, List.pairwise_map]
  refine hsorted.imp fun {m n} hle => ?_
  rcases Node.rankLe_iff.1 hle with hlt | hle
  · exact h.asymm _ _ (hscore m) (hscore n) hlt
  · exact hle.1

/-! ## Stable sorting -/

section

variable {le : α → α → Bool} (trans : ∀ a b c, le a b → le b c → le a c)
  (total : ∀ a b, le a b || le b a)

include trans total

/-- Sorting puts an element in front of the sorted others that it may come before. -/
theorem mergeSort_cons_eq_orderedInsert (x : α) (xs : List α) :
    (x :: xs).mergeSort le = (xs.mergeSort le).orderedInsert (fun a b => le a b = true) x := by
  obtain ⟨front, back, hcons, hrest, hfront⟩ := List.mergeSort_cons trans total x xs
  have hsorted := List.pairwise_mergeSort trans total (x :: xs)
  rw [hcons, List.pairwise_append, List.pairwise_cons] at hsorted
  have hback := hsorted.2.1.1
  rw [hcons, hrest]
  clear hcons hrest hsorted
  induction front with
  | nil =>
      cases back with
      | nil => rfl
      | cons b back => simp [hback b List.mem_cons_self]
  | cons a front ih =>
      have hlt := hfront a List.mem_cons_self
      have hrest := ih fun b hb => hfront b (List.mem_cons_of_mem a hb)
      rw [List.cons_append, List.cons_append, List.orderedInsert_cons,
        if_neg (by simpa using hlt), hrest]

/-- Sorting by merging comes to sorting by insertion, which is a structural recursion: with it,
closed terms evaluate. -/
theorem mergeSort_eq_insertionSort (xs : List α) :
    xs.mergeSort le = xs.insertionSort fun a b => le a b = true := by
  induction xs with
  | nil => rw [List.mergeSort_nil, List.insertionSort_nil]
  | cons x xs ih =>
      rw [mergeSort_cons_eq_orderedInsert trans total, ih, List.insertionSort_cons]

omit trans in
omit total in
/-- An element is inserted before or behind another one whether this is there or not. -/
theorem orderedInsert_append_cons {x : α} {back : List α} (hback : ∀ b ∈ back, le x b)
    (y : α) (front : List α) (htrans : ∀ b, le y x → le x b → le y b) :
    ∃ front' back',
      (front ++ x :: back).orderedInsert (fun a b => le a b = true) y = front' ++ x :: back' ∧
      (front ++ back).orderedInsert (fun a b => le a b = true) y = front' ++ back' ∧
      front.length + (if le y x then 1 else 0) ≤ front'.length := by
  induction front with
  | nil =>
      by_cases hyx : le y x = true
      · refine ⟨[y], back, by simp [hyx], ?_, by simp [hyx]⟩
        cases back with
        | nil => rfl
        | cons b back =>
            have hyb := htrans b hyx (hback b List.mem_cons_self)
            simp [hyb]
      · exact ⟨[], back.orderedInsert (fun a b => le a b = true) y,
          by simp [hyx], rfl, by simp [hyx]⟩
  | cons b front ih =>
      by_cases hyb : le y b = true
      · refine ⟨y :: b :: front, back, by simp [hyb],
          by simp [hyb], ?_⟩
        simp only [List.length_cons]
        split <;> omega
      · obtain ⟨front', back', hwith, hwithout, hlen⟩ := ih
        refine ⟨b :: front', back', ?_, ?_, by simp only [List.length_cons]; omega⟩
        · simp [hyb, hwith]
        · simp [hyb, hwithout]

/-- **Sorting is stable**: an element comes behind all earlier ones that are as small, and
the others are sorted as if it were not there. -/
theorem mergeSort_append_cons (front : List α) (x : α) (back : List α) :
    ∃ front' back',
      (front ++ x :: back).mergeSort le = front' ++ x :: back' ∧
      (front ++ back).mergeSort le = front' ++ back' ∧
      (front.filter fun y => le y x).length ≤ front'.length := by
  induction front with
  | nil =>
      obtain ⟨front', back', hwith, hwithout, -⟩ := List.mergeSort_cons trans total x back
      exact ⟨front', back', hwith, hwithout, Nat.zero_le _⟩
  | cons y front ih =>
      obtain ⟨front', back', hwith, hwithout, hlen⟩ := ih
      have hsorted := List.pairwise_mergeSort trans total (front ++ x :: back)
      rw [hwith, List.pairwise_append, List.pairwise_cons] at hsorted
      obtain ⟨front'', back'', hwith', hwithout', hlen'⟩ :=
        orderedInsert_append_cons hsorted.2.1.1 y front' fun b => trans y x b
      refine ⟨front'', back'', ?_, ?_, ?_⟩
      · rw [List.cons_append, mergeSort_cons_eq_orderedInsert trans total, hwith, hwith']
      · rw [List.cons_append, mergeSort_cons_eq_orderedInsert trans total, hwithout, hwithout']
      · have hcount : ((y :: front).filter fun z => le z x).length
            = (front.filter fun z => le z x).length + if le y x then 1 else 0 := by
          rw [List.filter_cons]
          split <;> rfl
        omega

/-- An element is not among the best `k` if `k` earlier ones are as good. -/
theorem take_mergeSort_append {k : Nat} {front : List α} {x : α}
    (h : k ≤ (front.filter fun y => le y x).length) (back : List α) :
    ((front ++ x :: back).mergeSort le).take k = ((front ++ back).mergeSort le).take k := by
  obtain ⟨front', back', hwith, hwithout, hlen⟩ := mergeSort_append_cons trans total front x back
  rw [hwith, hwithout, List.take_append_of_le_length (by omega),
    List.take_append_of_le_length (by omega)]

end

theorem Node.mergeSort_rankLe [Cost R] [OrderedCost R] (ns : List (Node σ R)) :
    ns.mergeSort rankLe = ns.insertionSort fun a b => rankLe a b = true :=
  mergeSort_eq_insertionSort rankLe_trans rankLe_total ns

/-! ## Rivals -/

variable [DecidableEq σ] [Cost R]

/-- The nodes among some that leave the model in the state of a node and come no later. -/
def rivals (ns : List (Node σ R)) (n : Node σ R) : List (Node σ R) :=
  ns.filter fun m => m.state = n.state ∧ m.rankLe n

/-- A node that is not selected has `k` selected rivals, with different keys if all nodes of
its state have. -/
theorem exists_rivals [OrderedCost R] {k : Nat} {ns : List (Node σ R)} {n : Node σ R}
    {key : Node σ R → α} (hn : n ∈ ns) (hselect : n ∉ select k ns)
    (hnodup : ((ns.filter fun m => m.state = n.state).map key).Nodup) :
    ∃ ms : List (Node σ R), ms.length = k ∧ (ms.map key).Nodup ∧
      ∀ m ∈ ms, m ∈ select k ns ∧ m.state = n.state ∧ m.rankLe n := by
  have hgroup : ∀ m ∈ (ns.filter fun m => m.state = n.state).mergeSort Node.rankLe,
      m.state = n.state := by
    intro m hm
    simpa using (List.mem_filter.1 (List.mem_mergeSort.1 hm)).2
  have hsorted := List.pairwise_mergeSort Node.rankLe_trans Node.rankLe_total
    (ns.filter fun m => m.state = n.state)
  have hperm := List.mergeSort_perm (ns.filter fun m => m.state = n.state) Node.rankLe
  have hmem : n ∈ (ns.filter fun m => m.state = n.state).mergeSort Node.rankLe := by
    rw [List.mem_mergeSort, List.mem_filter]
    exact ⟨hn, by simp⟩
  have htake : ∀ m ∈ ((ns.filter fun m => m.state = n.state).mergeSort Node.rankLe).take k,
      m ∈ select k ns := by
    intro m hm
    refine List.mem_flatMap.2 ⟨n.state, ?_, hm⟩
    exact List.mem_eraseDups.2 (List.mem_map_of_mem hn)
  generalize (ns.filter fun m => m.state = n.state).mergeSort Node.rankLe = group at *
  rw [← List.take_append_drop k group] at hmem hsorted
  have hback := (List.mem_append.1 hmem).resolve_left (mt (htake n) hselect)
  have hlen := List.length_pos_of_mem hback
  rw [List.length_drop] at hlen
  refine ⟨group.take k, by rw [List.length_take]; omega, ?_, fun m hm => ?_⟩
  · exact ((hperm.map key).nodup_iff.2 hnodup).sublist ((List.take_sublist k group).map key)
  · exact ⟨htake m hm, hgroup m (List.mem_of_mem_take hm),
      (List.pairwise_append.1 hsorted).2.2 m hm n hback⟩

/-- The second list is the first without some nodes, each of which follows `k` rivals. -/
inductive Thinned (k : Nat) : List (Node σ R) → List (Node σ R) → Prop where
  | nil : Thinned k [] []
  | keep {ns ms : List (Node σ R)} (n : Node σ R) (h : Thinned k ns ms) :
      Thinned k (ns ++ [n]) (ms ++ [n])
  | drop {ns ms : List (Node σ R)} (n : Node σ R) (h : Thinned k ns ms)
      (hrivals : k ≤ (rivals ns n).length) : Thinned k (ns ++ [n]) ms

namespace Thinned

variable {k : Nat} {ns ms ns' ms' : List (Node σ R)}

theorem append (h : Thinned k ns ms) (h' : Thinned k ns' ms') :
    Thinned k (ns ++ ns') (ms ++ ms') := by
  induction h' with
  | nil => simpa using h
  | keep n _ ih =>
      rw [← List.append_assoc, ← List.append_assoc]
      exact ih.keep n
  | drop n _ hrivals ih =>
      rw [← List.append_assoc]
      refine ih.drop n ?_
      rw [rivals, List.filter_append, List.length_append]
      exact Nat.le_add_left_of_le hrivals

theorem refl (ns : List (Node σ R)) : Thinned k ns ns := by
  induction ns using List.reverseRecOn with
  | nil => exact .nil
  | append_singleton ns n ih => exact ih.keep n

theorem flatMap {f g : α → List (Node σ R)} {xs : List α}
    (h : ∀ x ∈ xs, Thinned k (f x) (g x)) : Thinned k (xs.flatMap f) (xs.flatMap g) := by
  induction xs with
  | nil => exact .nil
  | cons x xs ih =>
      rw [List.flatMap_cons, List.flatMap_cons]
      exact (h x List.mem_cons_self).append (ih fun y hy => h y (List.mem_cons_of_mem x hy))

/-- Any number of nodes can be left out that all have `k` rivals. -/
theorem dropAll (h : Thinned k ns ms) (hrivals : ∀ n ∈ ns', k ≤ (rivals ns n).length) :
    Thinned k (ns ++ ns') ms := by
  induction ns' using List.reverseRecOn with
  | nil => simpa using h
  | append_singleton ns' n ih =>
      rw [← List.append_assoc]
      refine (ih fun m hm => hrivals m (List.mem_append_left _ hm)).drop n ?_
      have hle := hrivals n (by simp)
      rw [rivals, List.filter_append, List.length_append]
      exact Nat.le_add_right_of_le hle

/-- The nodes of one state are thinned as all are. -/
theorem filter_state (h : Thinned k ns ms) (s : σ) :
    Thinned k (ns.filter fun n => n.state = s) (ms.filter fun n => n.state = s) := by
  induction h with
  | nil => exact .nil
  | keep n _ ih =>
      rw [List.filter_append, List.filter_append]
      exact ih.append (.refl _)
  | @drop ns ms n _ hrivals ih =>
      rw [List.filter_append]
      by_cases hn : n.state = s
      · have hsame : rivals (ns.filter fun m => m.state = s) n = rivals ns n := by
          rw [rivals, rivals, List.filter_filter]
          refine List.filter_congr fun m _ => ?_
          rw [← hn]
          by_cases hm : m.state = n.state <;> simp [hm]
        have hone : [n].filter (fun m => m.state = s) = [n] := by simp [hn]
        rw [hone]
        exact ih.drop n (hsame ▸ hrivals)
      · have hnone : [n].filter (fun m => m.state = s) = [] := by simp [hn]
        rw [hnone, List.append_nil]
        exact ih

/-- Thinning loses no state. -/
theorem eraseDups_state (h : Thinned k ns ms) (hk : 1 ≤ k) :
    (ns.map Node.state).eraseDups = (ms.map Node.state).eraseDups := by
  induction h with
  | nil => rfl
  | @keep ns ms n _ ih =>
      have hmem : n.state ∈ ns.map Node.state ↔ n.state ∈ ms.map Node.state := by
        rw [← List.mem_eraseDups, ih, List.mem_eraseDups]
      rw [List.map_append, List.map_append, List.map_singleton, eraseDups_append_singleton,
        eraseDups_append_singleton, ih]
      simp only [hmem]
  | @drop ns ms n _ hrivals ih =>
      obtain ⟨m, hm⟩ := List.exists_mem_of_length_pos (Nat.lt_of_lt_of_le hk hrivals)
      obtain ⟨hmem, hrival⟩ := List.mem_filter.1 hm
      simp only [decide_eq_true_eq] at hrival
      have hstate : n.state ∈ ns.map Node.state := List.mem_map.2 ⟨m, hmem, hrival.1⟩
      rw [List.map_append, List.map_singleton, eraseDups_append_singleton, if_pos hstate,
        List.append_nil, ih]

variable [OrderedCost R]

/-- **Thinning keeps the best nodes.** -/
theorem take_mergeSort (h : Thinned k ns ms) :
    (ns.mergeSort Node.rankLe).take k = (ms.mergeSort Node.rankLe).take k := by
  -- A node is dropped from the middle: what was kept after it is the `back`.
  have hall : ∀ back : List (Node σ R), ((ns ++ back).mergeSort Node.rankLe).take k
      = ((ms ++ back).mergeSort Node.rankLe).take k := by
    induction h with
    | nil => exact fun _ => rfl
    | keep n _ ih =>
        intro back
        rw [List.append_assoc, List.append_assoc]
        exact ih ([n] ++ back)
    | @drop ns ms n _ hrivals ih =>
        intro back
        have hle : k ≤ (ns.filter fun m => m.rankLe n).length := by
          refine Nat.le_trans hrivals (List.Sublist.length_le ?_)
          refine List.monotone_filter_right ns fun m hm => ?_
          simp only [decide_eq_true_eq] at hm
          exact hm.2
        rw [List.append_assoc, List.singleton_append,
          take_mergeSort_append Node.rankLe_trans Node.rankLe_total hle, ih]
  simpa using hall []

/-- **Thinning keeps the best nodes of each state.** -/
theorem select_eq (h : Thinned k ns ms) (hk : 1 ≤ k) : select k ns = select k ms := by
  unfold select
  rw [h.eraseDups_state hk]
  refine List.flatMap_congr fun s _ => ?_
  exact (h.filter_state s).take_mergeSort

end Thinned

end Pinyin
