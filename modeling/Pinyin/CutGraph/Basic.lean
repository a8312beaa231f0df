import Pinyin.Error
import Pinyin.Reading

/-!
# Pinyin.CutGraph.Basic

A graph of the ways to cut a text into syllables.  Its nodes are the positions
between the characters; an edge stands for the piece between two of them and
carries the readings of that piece.  The edges out of a node keep the order of
their insertion, and the first one is preferred.

* `CutGraph` — the graph; every edge runs forward inside the text, and no two
  edges join the same positions;
* `insert`, `add` — a further edge, with and without complaint;
* `edgesAt`, `successors`, `predecessors`, `readingsOf`, `piece`, `IsSeparator` — views.
-/

namespace Pinyin

/-- The character that parts syllables. -/
def separator : Char := '\''

/-- An edge, seen from the position where it starts. -/
structure Edge where
  stop : Nat
  readings : List Reading
  deriving DecidableEq, Repr

/-- The edges that leave a position, in a table by position. -/
def edgesIn (table : Array (List Edge)) (p : Nat) : List Edge := table[p]?.getD []

/-- A text and the edges out of each of its positions. -/
@[ext] structure CutGraph where
  text : List Char
  table : Array (List Edge)
  size_table : table.size = text.length + 1
  forward : ∀ p, ∀ e ∈ edgesIn table p, p < e.stop ∧ e.stop ≤ text.length
  nodup : ∀ p, ((edgesIn table p).map Edge.stop).Nodup

namespace CutGraph

/-! ## Views -/

/-- The number of characters; also the last position. -/
def size (g : CutGraph) : Nat := g.text.length

/-- The edges that leave a position, in the order of their insertion. -/
def edgesAt (g : CutGraph) (p : Nat) : List Edge := edgesIn g.table p

/-- The positions that the edges out of a position lead to. -/
def successors (g : CutGraph) (p : Nat) : List Nat := (g.edgesAt p).map Edge.stop

/-- The positions with an edge to a position, ascending. -/
def predecessors (g : CutGraph) (p : Nat) : List Nat :=
  (List.range p).filter fun q => p ∈ g.successors q

/-- All edges by start position, then in the order of their insertion. -/
def allEdges (g : CutGraph) : List (Nat × Edge) :=
  (List.range (g.size + 1)).flatMap fun p => (g.edgesAt p).map fun e => (p, e)

/-- The readings of the edge between two positions; none if there is no edge. -/
def readingsOf (g : CutGraph) (start stop : Nat) : List Reading :=
  match (g.edgesAt start).find? fun e => e.stop == stop with
  | some e => e.readings
  | none => []

/-- The characters between two positions. -/
def piece (g : CutGraph) (start stop : Nat) : List Char :=
  (g.text.drop start).take (stop - start)

/-- A separator stands at a position; the edge from there is no syllable. -/
def IsSeparator (g : CutGraph) (p : Nat) : Prop := g.text[p]? = some separator

instance (g : CutGraph) (p : Nat) : Decidable (g.IsSeparator p) := by
  unfold IsSeparator; infer_instance

theorem stop_le_size {g : CutGraph} {p : Nat} {e : Edge} (h : e ∈ g.edgesAt p) :
    e.stop ≤ g.size :=
  (g.forward p e h).2

theorem lt_stop {g : CutGraph} {p : Nat} {e : Edge} (h : e ∈ g.edgesAt p) : p < e.stop :=
  (g.forward p e h).1

theorem lt_of_mem_successors {g : CutGraph} {p q : Nat} (h : q ∈ g.successors p) :
    p < q ∧ q ≤ g.size := by
  obtain ⟨e, he, rfl⟩ := List.mem_map.1 h
  exact g.forward p e he

/-- No edge leaves the last position, or one outside the text. -/
theorem edgesAt_eq_nil {g : CutGraph} {p : Nat} (h : g.size ≤ p) : g.edgesAt p = [] := by
  rw [List.eq_nil_iff_forall_not_mem]
  intro e he
  have := g.forward p e he
  unfold size at h
  omega

/-- Graphs over one text are equal if they have the same edges everywhere. -/
theorem ext_edgesAt {g h : CutGraph} (htext : g.text = h.text)
    (hedges : ∀ p, g.edgesAt p = h.edgesAt p) : g = h := by
  have hsize : g.table.size = h.table.size := by rw [g.size_table, h.size_table, htext]
  refine CutGraph.ext htext (Array.ext hsize fun p hg hh => ?_)
  simpa [edgesAt, edgesIn, Array.getElem?_eq_getElem, hg, hh] using hedges p

/-! ## Positions from outside -/

/-- The positions that the edges out of a position of the graph lead to. -/
def successorsFrom (g : CutGraph) (p : Nat) : Except Error (List Nat) :=
  if p ≤ g.size then .ok (g.successors p) else .error .positionOutOfRange

/-- The positions with an edge to a position; it may lie just past the end, where
no edge arrives. -/
def predecessorsTo (g : CutGraph) (p : Nat) : Except Error (List Nat) :=
  if p ≤ g.size + 1 then .ok (g.predecessors p) else .error .positionOutOfRange

/-- Whether a separator stands at a position of the text. -/
def separatorAt (g : CutGraph) (p : Nat) : Except Error Bool :=
  if p < g.size then .ok (g.IsSeparator p) else .error .positionOutOfRange

/-! ## Building -/

/-- The graph of a text without edges. -/
def ofText (text : List Char) : CutGraph where
  text := text
  table := Array.replicate (text.length + 1) []
  size_table := by simp
  forward := by
    intro p e he
    simp only [edgesIn, Array.getElem?_replicate] at he
    split at he <;> simp at he
  nodup := by
    intro p
    simp only [edgesIn, Array.getElem?_replicate]
    split <;> simp

/-- Appending an edge to one row of a table changes that row only. -/
theorem edgesIn_modify {table : Array (List Edge)} {start : Nat} {e : Edge}
    (h : start < table.size) (p : Nat) :
    edgesIn (table.modify start (· ++ [e])) p
      = if p = start then edgesIn table p ++ [e] else edgesIn table p := by
  unfold edgesIn
  rw [Array.getElem?_modify]
  by_cases hp : p = start
  · subst hp
    simp [h]
  · simp [hp, Ne.symm hp]

/-- The graph with one more edge, placed after the others.  An edge that does not
run forward inside the text is left out, and so is a second one between the
same positions. -/
def insert (g : CutGraph) (start : Nat) (e : Edge) : CutGraph :=
  if h : (start < e.stop ∧ e.stop ≤ g.text.length) ∧ e.stop ∉ g.successors start then
    have hstart : start < g.table.size := by rw [g.size_table]; omega
    { text := g.text
      table := g.table.modify start (· ++ [e])
      size_table := by simp [g.size_table]
      forward := by
        intro p e' he'
        rw [edgesIn_modify hstart] at he'
        split at he'
        · next hp =>
          rcases List.mem_append.1 he' with hmem | hmem
          · exact g.forward p e' hmem
          · rw [List.mem_singleton] at hmem
            rw [hmem, hp]
            exact h.1
        · exact g.forward p e' he'
      nodup := by
        intro p
        rw [edgesIn_modify hstart]
        split
        · next hp =>
          subst hp
          rw [List.map_append, List.nodup_append]
          refine ⟨g.nodup p, by simp, ?_⟩
          intro stop hstop stop' hstop' heq
          simp only [List.map_cons, List.map_nil, List.mem_singleton] at hstop'
          exact h.2 (hstop' ▸ heq ▸ hstop)
        · exact g.nodup p }
  else g

/-- The graph with one more edge; one that does not run forward inside the text
is refused, and one that exists already changes nothing. -/
def add (g : CutGraph) (start stop : Int) (readings : List Reading) :
    Except Error CutGraph :=
  if 0 ≤ start ∧ start < stop ∧ stop ≤ g.size then
    .ok (g.insert start.toNat ⟨stop.toNat, readings⟩)
  else .error (.invalidEdge start stop g.size)

@[simp] theorem text_ofText (text : List Char) : (ofText text).text = text := rfl

@[simp] theorem edgesAt_ofText (text : List Char) (p : Nat) :
    (ofText text).edgesAt p = [] := by
  simp only [edgesAt, edgesIn, ofText, Array.getElem?_replicate]
  split <;> rfl

@[simp] theorem text_insert (g : CutGraph) (start : Nat) (e : Edge) :
    (g.insert start e).text = g.text := by
  unfold insert; split <;> rfl

theorem size_insert (g : CutGraph) (start : Nat) (e : Edge) : (g.insert start e).size = g.size := by
  rw [size, text_insert, size]

/-- What `insert` does to the edges out of each position. -/
theorem edgesAt_insert (g : CutGraph) (start : Nat) (e : Edge) (p : Nat) :
    (g.insert start e).edgesAt p
      = if p = start ∧ (start < e.stop ∧ e.stop ≤ g.size) ∧ e.stop ∉ g.successors start
        then g.edgesAt p ++ [e] else g.edgesAt p := by
  unfold insert
  split
  · next h =>
    have hstart : start < g.table.size := by rw [g.size_table]; omega
    simp only [edgesAt, edgesIn_modify hstart]
    by_cases hp : p = start
    · subst hp
      simp only [true_and, if_true]
      exact (if_pos h).symm
    · simp [hp]
  · next h => rw [if_neg fun hc => h hc.2]

end CutGraph

end Pinyin
