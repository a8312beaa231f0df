import Mathlib.Logic.Function.Basic
import Pinyin.Proofs.CutGraph.Agreement
import Pinyin.Proofs.List

/-!
# Pinyin.Proofs.CutGraph.Tables

A graph kept as two tables that are looked up, and what a merge makes of it.

* `splice_eq` — a graph into which another is merged is the other one, `merge_self` — and nothing
  is stale where it is the same;
* `EdgeTables` — the positions that each position leads to, and the readings of each edge;
  `EdgeTables.merge?` — a merge, unless some look-up misses;
* `CutGraph.tables` — the tables of a graph, `tables_ofText`, `tables_add`, `merge?_tables` — they
  are what the operations on tables give;
* `EdgeTables.merge?_eq` — no look-up of a merge misses, and it makes the tables equal.
-/

namespace Pinyin

namespace CutGraph

/-! ## Merges -/

/-- **A graph into which another is merged** is the other one. -/
theorem splice_eq (g other : CutGraph) : splice g other = other := by
  refine ext_edgesAt rfl fun p => ?_
  by_cases hp : p ≤ other.size
  · rw [edgesAt_splice hp]
    split
    · next hlt => exact (agreeAt_of_lt_divergence hlt).1
    · rfl
  · rw [edgesAt_eq_nil (by rw [size, text_splice, ← size]; omega), edgesAt_eq_nil (by omega)]

/-- A graph agrees with itself everywhere. -/
theorem merge_self (g : CutGraph) : g.merge g = (g, []) := by
  have hfront : commonLength g.text g.text = g.size := by
    have hself : ∀ text : List Char, commonLength text text = text.length := fun text => by
      induction text <;> simp_all [commonLength]
    exact hself g.text
  have hsize : divergence g g = g.size + 1 := by
    have hall : ∀ p, AgreeAt g g g.size p := fun p => ⟨rfl, fun _ => stop_le_size⟩
    have hnone : (List.range (g.size + 1)).find? (fun p => ¬ AgreeAt g g g.size p) = none := by
      simp [List.find?_eq_none, hall]
    rw [divergence, hfront, hnone, Option.getD_none]
  simp [merge, splice_eq, hsize, stalePositions]

/-! ## Edges by their ends -/

/-- The readings of the edge between two positions, if there is one. -/
def readings? (g : CutGraph) (start stop : Nat) : Option (List Reading) :=
  ((g.edgesAt start).find? fun e => e.stop == stop).map Edge.readings

variable {g h : CutGraph} {p q : Nat}

theorem readings?_stop {e : Edge} (he : e ∈ g.edgesAt p) :
    g.readings? p e.stop = some e.readings := by
  have hfind : (g.edgesAt p).find? (fun other => other.stop == e.stop) = some e :=
    find?_key_eq_some (g.nodup p) he
  rw [readings?, hfind, Option.map_some]

theorem isSome_readings?_iff : (g.readings? p q).isSome ↔ q ∈ g.successors p := by
  simp [readings?, successors]

/-- The edges at a position are given by their ends and their readings. -/
theorem edgesAt_eq_map (g : CutGraph) (p : Nat) :
    g.edgesAt p = (g.successors p).map fun q => ⟨q, (g.readings? p q).getD []⟩ := by
  calc
    g.edgesAt p = (g.edgesAt p).map id := (List.map_id _).symm
    _ = (g.edgesAt p).map fun e => ⟨e.stop, (g.readings? p e.stop).getD []⟩ :=
        List.map_congr_left fun e he => by rw [readings?_stop he]; rfl
    _ = (g.successors p).map fun q => ⟨q, (g.readings? p q).getD []⟩ := by
        rw [successors, List.map_map]; rfl

theorem edgesAt_eq_iff :
    g.edgesAt p = h.edgesAt p ↔
      g.successors p = h.successors p ∧ ∀ q ∈ g.successors p, g.readings? p q = h.readings? p q := by
  constructor
  · intro heq
    simp [successors, readings?, heq]
  · rintro ⟨hsucc, hreadings⟩
    rw [edgesAt_eq_map g, edgesAt_eq_map h, ← hsucc]
    exact List.map_congr_left fun q hq => by rw [hreadings q hq]

end CutGraph

/-! ## Look-ups that never miss -/

section Lookups

variable {α β : Type} {xs : List α}

theorem mapM_eq_some {f : α → Option β} {value : α → β} (h : ∀ x ∈ xs, f x = some (value x)) :
    xs.mapM f = some (xs.map value) := by
  induction xs with
  | nil => rfl
  | cons x xs ih =>
      rw [List.forall_mem_cons] at h
      simp [h.1, ih h.2]

variable {f : α → Option Bool} {P : α → Prop} [DecidablePred P]

theorem anyM_eq_some (h : ∀ x ∈ xs, f x = some (decide (P x))) :
    xs.anyM f = some (decide (∃ x ∈ xs, P x)) := by
  induction xs with
  | nil => simp [List.anyM]
  | cons x xs ih =>
      rw [List.forall_mem_cons] at h
      by_cases hx : P x <;> simp [List.anyM, h.1, ih h.2, hx]

theorem findM?_eq_some (h : ∀ x ∈ xs, f x = some (decide (P x))) :
    xs.findM? f = some (xs.find? fun x => P x) := by
  induction xs with
  | nil => rfl
  | cons x xs ih =>
      rw [List.forall_mem_cons] at h
      by_cases hx : P x <;> simp [List.findM?, h.1, ih h.2, hx]

end Lookups

/-! ## Tables -/

/-- A graph as two tables: the positions that each position leads to, and the readings of each
edge. -/
@[ext] structure EdgeTables where
  text : List Char
  nexts : List (List Nat)
  readings : Nat × Nat → Option (List Reading)

namespace EdgeTables

/-- The tables of a text without edges. -/
def ofText (text : List Char) : EdgeTables :=
  ⟨text, List.replicate (text.length + 1) [], fun _ => none⟩

/-- The tables with one more edge, placed after the others; an edge that exists already keeps its
readings. -/
def add (t : EdgeTables) (start stop : Int) (readings : List Reading) : Except Error EdgeTables :=
  if 0 ≤ start ∧ start < stop ∧ stop ≤ t.text.length then
    match t.nexts[start.toNat]? with
    | none => .error .positionOutOfRange
    | some row =>
      if stop.toNat ∈ row then .ok t
      else .ok ⟨t.text, t.nexts.set start.toNat (row ++ [stop.toNat]),
        Function.update t.readings (start.toNat, stop.toNat) (some readings)⟩
  else .error (.invalidEdge start stop t.text.length)

/-- Whether the readings of an edge differ. -/
def differsOn? (t u : EdgeTables) (p q : Nat) : Option Bool := do
  let own ← t.readings (p, q)
  let other ← u.readings (p, q)
  some (own ≠ other)

/-- Whether the edges at a position differ, or one of them passes over the common front of the
texts; readings are looked up only where both have the same edges. -/
def differsAt? (t u : EdgeTables) (front p : Nat) : Option Bool := do
  let own ← t.nexts[p]?
  let other ← u.nexts[p]?
  if own ≠ other ∨ ∃ q ∈ own, front < q then some true else own.anyM (t.differsOn? u p)

/-- The first position where they do, or the position after the common front. -/
def divergence? (t u : EdgeTables) : Option Nat := do
  let front := CutGraph.commonLength t.text u.text
  let found ← (List.range (front + 1)).findM? (t.differsAt? u front)
  some (found.getD (front + 1))

/-- The tables of the other graph, with what comes before the divergence taken from the first, and
the positions of the first that are stale; nothing if some look-up misses. -/
def merge? (t u : EdgeTables) : Option (EdgeTables × List Nat) := do
  let since ← t.divergence? u
  let nexts ← (List.range (u.text.length + 1)).mapM fun p =>
    if p < since then t.nexts[p]? else u.nexts[p]?
  some (⟨u.text, nexts, fun edge => if edge.1 < since then t.readings edge else u.readings edge⟩,
    CutGraph.stalePositions since t.text.length)

/-- Tables that some texts, further edges and merges lead to. -/
inductive Reached : EdgeTables → Prop
  | ofText (text : List Char) : Reached (ofText text)
  | add {t t' : EdgeTables} {start stop : Int} {readings : List Reading} (h : Reached t)
      (hadd : t.add start stop readings = .ok t') : Reached t'
  | merge {t u t' : EdgeTables} {stale : List Nat} (ht : Reached t) (hu : Reached u)
      (hmerge : t.merge? u = some (t', stale)) : Reached t'

end EdgeTables

/-! ## The tables of a graph -/

namespace CutGraph

/-- The tables of a graph. -/
def tables (g : CutGraph) : EdgeTables :=
  ⟨g.text, (List.range (g.size + 1)).map g.successors, fun edge => g.readings? edge.1 edge.2⟩

theorem getElem?_nexts_tables (g : CutGraph) {p : Nat} (h : p ≤ g.size) :
    g.tables.nexts[p]? = some (g.successors p) := by
  simp [tables, Nat.lt_succ_of_le h]

theorem length_nexts_tables (g : CutGraph) : g.tables.nexts.length = g.size + 1 := by
  simp [tables]

theorem getElem?_nexts_tables_of_lt {g : CutGraph} {p : Nat} (h : g.size < p) :
    g.tables.nexts[p]? = none :=
  List.getElem?_eq_none (by rw [length_nexts_tables]; omega)

theorem mem_successors_iff_nexts {g : CutGraph} {p q : Nat} :
    q ∈ g.successors p ↔ ∃ row, g.tables.nexts[p]? = some row ∧ q ∈ row := by
  by_cases hp : p ≤ g.size
  · simp [getElem?_nexts_tables g hp]
  · simp [successors, edgesAt_eq_nil (Nat.le_of_not_le hp),
      getElem?_nexts_tables_of_lt (Nat.lt_of_not_le hp)]

theorem tables_ofText (text : List Char) : (ofText text).tables = EdgeTables.ofText text := by
  refine EdgeTables.ext rfl ?_ ?_
  · have hnone : (ofText text).successors = fun _ => [] := by
      funext p
      simp [successors]
    simp [tables, EdgeTables.ofText, hnone, size, List.map_const']
  · simp [tables, EdgeTables.ofText, readings?]

section Insert

variable {g : CutGraph} {start stop : Nat} {readings : List Reading}

theorem edgesAt_insert_of_notMem (hforward : start < stop ∧ stop ≤ g.size)
    (hnew : stop ∉ g.successors start) (p : Nat) :
    (g.insert start ⟨stop, readings⟩).edgesAt p
      = if p = start then g.edgesAt p ++ [⟨stop, readings⟩] else g.edgesAt p := by
  simp only [edgesAt_insert, hforward, hnew, not_false_eq_true, and_self, and_true]

theorem successors_insert_of_notMem (hforward : start < stop ∧ stop ≤ g.size)
    (hnew : stop ∉ g.successors start) (p : Nat) :
    (g.insert start ⟨stop, readings⟩).successors p
      = if p = start then g.successors p ++ [stop] else g.successors p := by
  rw [successors, edgesAt_insert_of_notMem hforward hnew]
  split <;> simp [successors]

theorem nexts_insert_of_notMem (hforward : start < stop ∧ stop ≤ g.size)
    (hnew : stop ∉ g.successors start) :
    (g.insert start ⟨stop, readings⟩).tables.nexts
      = g.tables.nexts.set start (g.successors start ++ [stop]) := by
  refine List.ext_getElem? fun p => ?_
  have hsize := size_insert g start ⟨stop, readings⟩
  by_cases hp : p ≤ g.size
  · rw [getElem?_nexts_tables _ (hsize ▸ hp), successors_insert_of_notMem hforward hnew]
    by_cases hsame : p = start
    · rw [if_pos hsame, hsame, List.getElem?_set_self (by rw [length_nexts_tables]; omega)]
    · rw [if_neg hsame, List.getElem?_set_ne (Ne.symm hsame), getElem?_nexts_tables g hp]
  · rw [List.getElem?_set_ne (by omega), getElem?_nexts_tables_of_lt (Nat.lt_of_not_le hp),
      getElem?_nexts_tables_of_lt (hsize ▸ Nat.lt_of_not_le hp)]

theorem readings?_insert_of_notMem (hforward : start < stop ∧ stop ≤ g.size)
    (hnew : stop ∉ g.successors start) (edge : Nat × Nat) :
    (g.insert start ⟨stop, readings⟩).readings? edge.1 edge.2
      = Function.update (fun edge => g.readings? edge.1 edge.2) (start, stop) (some readings)
          edge := by
  obtain ⟨p, q⟩ := edge
  rw [readings?, edgesAt_insert_of_notMem hforward hnew, Function.update_apply]
  by_cases hp : p = start
  · have hnone : (g.edgesAt start).find? (fun e => e.stop == stop) = none := by
      simpa [successors] using hnew
    by_cases hq : q = stop
    · simp [hp, hq, hnone]
    · simp [hp, hq, Ne.symm hq, readings?]
  · simp [hp, readings?]

end Insert

/-- **A further edge** comes into both tables. -/
theorem tables_add (g : CutGraph) (start stop : Int) (readings : List Reading) :
    g.tables.add start stop readings = (g.add start stop readings).map tables := by
  have hsize : g.tables.text.length = g.size := rfl
  rw [EdgeTables.add, add, hsize]
  by_cases hforward : 0 ≤ start ∧ start < stop ∧ stop ≤ g.size
  case neg => simp [hforward, Except.map]
  obtain ⟨p, rfl⟩ := Int.eq_ofNat_of_zero_le hforward.1
  obtain ⟨q, rfl⟩ := Int.eq_ofNat_of_zero_le (by omega : 0 ≤ stop)
  have hedge : p < q ∧ q ≤ g.size := by omega
  rw [if_pos hforward, if_pos hforward, Int.toNat_natCast, Int.toNat_natCast,
    getElem?_nexts_tables g (by omega)]
  by_cases hq : q ∈ g.successors p
  · have hsame : g.insert p ⟨q, readings⟩ = g := by simp [insert, hq]
    simp [hq, hsame, Except.map]
  · simp only [hq, if_false, Except.map, Except.ok.injEq]
    refine EdgeTables.ext (text_insert _ _ _).symm (nexts_insert_of_notMem hedge hq).symm ?_
    funext edge
    exact (readings?_insert_of_notMem hedge hq edge).symm

/-- The readings of an edge of both graphs are found. -/
theorem differsOn?_tables {g other : CutGraph} {p q : Nat} (hg : q ∈ g.successors p)
    (hother : q ∈ other.successors p) :
    g.tables.differsOn? other.tables p q
      = some (decide (g.readings? p q ≠ other.readings? p q)) := by
  obtain ⟨own, hown⟩ := Option.isSome_iff_exists.1 (isSome_readings?_iff.2 hg)
  obtain ⟨others, hothers⟩ := Option.isSome_iff_exists.1 (isSome_readings?_iff.2 hother)
  simp [EdgeTables.differsOn?, tables, hown, hothers]

/-- No look-up misses at a position of both texts. -/
theorem differsAt?_tables {g other : CutGraph} {front p : Nat} (hg : p ≤ g.size)
    (hother : p ≤ other.size) :
    g.tables.differsAt? other.tables front p = some (decide (¬ AgreeAt g other front p)) := by
  have hlimit : (∀ e ∈ g.edgesAt p, e.stop ≤ front) ↔ ∀ q ∈ g.successors p, q ≤ front := by
    rw [successors, List.forall_mem_map]
  have hagree : AgreeAt g other front p ↔
      (g.successors p = other.successors p ∧ ∀ q ∈ g.successors p, q ≤ front) ∧
        ∀ q ∈ g.successors p, g.readings? p q = other.readings? p q := by
    rw [AgreeAt, edgesAt_eq_iff, hlimit, and_right_comm]
  have hdiffer : (g.successors p ≠ other.successors p ∨ ∃ q ∈ g.successors p, front < q) ↔
      ¬ (g.successors p = other.successors p ∧ ∀ q ∈ g.successors p, q ≤ front) := by
    simp only [not_and_or, not_forall, exists_prop, Nat.not_le]
  simp only [EdgeTables.differsAt?, getElem?_nexts_tables g hg, getElem?_nexts_tables other hother,
    Option.bind_eq_bind, Option.bind_some, hdiffer, hagree]
  by_cases hsame : g.successors p = other.successors p ∧ ∀ q ∈ g.successors p, q ≤ front
  · have hlookups : ∀ q ∈ g.successors p, g.tables.differsOn? other.tables p q
        = some (decide (g.readings? p q ≠ other.readings? p q)) := fun q hq =>
      differsOn?_tables hq (hsame.1 ▸ hq)
    rw [if_neg (not_not_intro hsame), anyM_eq_some hlookups, Option.some.injEq, decide_eq_decide,
      and_iff_right hsame]
    simp only [not_forall, exists_prop, ne_eq]
  · simp [hsame]

theorem divergence?_tables (g other : CutGraph) :
    g.tables.divergence? other.tables = some (divergence g other) := by
  have hfind : (List.range (commonLength g.text other.text + 1)).findM?
        (g.tables.differsAt? other.tables (commonLength g.text other.text))
      = some ((List.range (commonLength g.text other.text + 1)).find? fun p =>
          ¬ AgreeAt g other (commonLength g.text other.text) p) := by
    refine findM?_eq_some fun p hp => ?_
    have hp := List.mem_range.1 hp
    have hleft := commonLength_le_left g.text other.text
    have hright := commonLength_le_right g.text other.text
    exact differsAt?_tables (by unfold size; omega) (by unfold size; omega)
  simp only [EdgeTables.divergence?]
  rw [show commonLength g.tables.text other.tables.text = commonLength g.text other.text from rfl,
    hfind]
  rfl

/-- **A merge of tables** misses no look-up. -/
theorem merge?_tables (g other : CutGraph) :
    g.tables.merge? other.tables = some (other.tables, (g.merge other).2) := by
  have hsame : ∀ p < divergence g other, g.edgesAt p = other.edgesAt p := fun p hp =>
    (agreeAt_of_lt_divergence hp).1
  have hnexts : (List.range (other.size + 1)).mapM (fun p =>
      if p < divergence g other then g.tables.nexts[p]? else other.tables.nexts[p]?)
        = some other.tables.nexts := by
    refine mapM_eq_some fun p hp => ?_
    have hp := Nat.lt_succ_iff.1 (List.mem_range.1 hp)
    rw [getElem?_nexts_tables other hp]
    split
    · next hlt =>
      have hfront := divergence_le g other
      have hsize := commonLength_le_left g.text other.text
      rw [getElem?_nexts_tables g (by unfold size; omega), successors, successors, hsame p hlt]
    · rfl
  have hreadings : (fun edge : Nat × Nat =>
      if edge.1 < divergence g other then g.tables.readings edge else other.tables.readings edge)
        = other.tables.readings := by
    funext edge
    split
    · next hlt => simp only [tables, readings?, hsame edge.1 hlt]
    · rfl
  have htext : other.tables.text.length = other.size := rfl
  simp only [EdgeTables.merge?, divergence?_tables, Option.bind_eq_bind, Option.bind_some, htext,
    hnexts, hreadings]
  rfl

end CutGraph

/-! ## Tables that are reached -/

namespace EdgeTables

variable {t u : EdgeTables}

/-- **Tables that are reached** are those of a graph. -/
theorem Reached.exists_graph (h : t.Reached) : ∃ g : CutGraph, g.tables = t := by
  induction h with
  | ofText text => exact ⟨.ofText text, CutGraph.tables_ofText text⟩
  | @add _ _ start stop readings _ hadd ih =>
      obtain ⟨g, rfl⟩ := ih
      rw [CutGraph.tables_add] at hadd
      cases hg : g.add start stop readings with
      | error e => simp [hg, Except.map] at hadd
      | ok g' => exact ⟨g', by simpa [hg, Except.map] using hadd⟩
  | merge _ _ hmerge iht ihu =>
      obtain ⟨g, rfl⟩ := iht
      obtain ⟨other, rfl⟩ := ihu
      rw [CutGraph.merge?_tables] at hmerge
      exact ⟨other, by simpa using congrArg Prod.fst (Option.some.inj hmerge)⟩

/-- **A merge makes the tables equal**: the same text, the same positions after each position in the
same order, and the same readings, which are kept for exactly the edges.  No look-up misses on the
way, and nothing is stale where the tables were equal before.  The graphs whose tables these are
become equal too, with the same positions stale. -/
theorem merge?_eq (ht : t.Reached) (hu : u.Reached) :
    ∃ stale, t.merge? u = some (u, stale) ∧ (t = u → stale = []) ∧
      (∀ p q, (u.readings (p, q)).isSome ↔ ∃ row, u.nexts[p]? = some row ∧ q ∈ row) ∧
      ∃ g other : CutGraph, g.tables = t ∧ other.tables = u ∧ g.merge other = (other, stale) := by
  obtain ⟨g, rfl⟩ := ht.exists_graph
  obtain ⟨other, rfl⟩ := hu.exists_graph
  have hmerge := CutGraph.merge?_tables g other
  refine ⟨_, hmerge, fun hsame => ?_, fun p q => ?_, g, other, rfl, rfl, ?_⟩
  · rw [hsame, CutGraph.merge?_tables other other, CutGraph.merge_self, Option.some.injEq,
      Prod.mk.injEq] at hmerge
    exact hmerge.2.symm
  · exact CutGraph.isSome_readings?_iff.trans CutGraph.mem_successors_iff_nexts
  · rw [CutGraph.merge, CutGraph.splice_eq]

/-- A text that shrinks and keeps its first syllable. -/
theorem merge?_eq_sample :
    let ni : List Reading := [⟨⟨.n, .i⟩, false⟩]
    let he : List Reading := [⟨⟨.h, .e⟩, false⟩]
    let h : List Reading := [⟨⟨.h, .bare⟩, false⟩]
    let kept := Function.update (fun _ => none) (0, 2) (some ni)
    let t : EdgeTables := ⟨"nihe".toList, [[2], [], [4], [], []], Function.update kept (2, 4) he⟩
    let u : EdgeTables := ⟨"nih".toList, [[2], [], [3], []], Function.update kept (2, 3) h⟩
    t.Reached ∧ u.Reached ∧ ∃ stale, t.merge? u = some (u, stale) := by
  intro ni he h kept t u
  have htFirst : (ofText "nihe".toList).add 0 2 ni
      = .ok ⟨"nihe".toList, [[2], [], [], [], []], kept⟩ := rfl
  have htSecond : add ⟨"nihe".toList, [[2], [], [], [], []], kept⟩ 2 4 he = .ok t := rfl
  have huFirst : (ofText "nih".toList).add 0 2 ni
      = .ok ⟨"nih".toList, [[2], [], [], []], kept⟩ := rfl
  have huSecond : add ⟨"nih".toList, [[2], [], [], []], kept⟩ 2 3 h = .ok u := rfl
  have ht : t.Reached := .add (.add (.ofText _) htFirst) htSecond
  have hu : u.Reached := .add (.add (.ofText _) huFirst) huSecond
  obtain ⟨stale, hmerge, -⟩ := merge?_eq ht hu
  exact ⟨ht, hu, stale, hmerge⟩

end EdgeTables

end Pinyin
