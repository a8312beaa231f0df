import Pinyin.CutGraph.Path
import Pinyin.Code
import Pinyin.Scalar

/-!
# Pinyin.Lattice.Basic

The partial sentences that a search has found, each as a node that points back to
the one it extends.

* `Arc` — a word on a way through the graph, `Node` — the sentence that ends with it;
* `Lattice` — all nodes in the order of their creation;
* `nodes`, `hypotheses` — views by the position where nodes end;
* `prepare`, `push`, `discard` — how it grows and shrinks.
-/

namespace Pinyin

/-- A word on a way through a graph: the positions it passes, the state of the
language model after it, its own cost, and its code. -/
structure Arc (σ R : Type) where
  word : String
  index : Int
  path : Path
  state : σ
  cost : R
  code : Code
  deriving DecidableEq, Repr

/-- The index of a word that no model knows. -/
def unknownIndex : Int := -1

namespace Arc

variable {σ R : Type}

/-- The position where an arc begins. -/
def start (a : Arc σ R) : Nat := a.path.headD 0

/-- The position where an arc ends. -/
def stop (a : Arc σ R) : Nat := a.path.getLastD 0

end Arc

/-- A partial sentence: nothing yet, or one more arc after a partial sentence.  The
score is the cost so far; `seq` numbers the nodes in the order of their
creation. -/
inductive Node (σ R : Type) where
  | start (state : σ)
  | link (prev : Node σ R) (arc : Arc σ R) (score : R) (seq : Nat)
  deriving DecidableEq, Repr

namespace Node

variable {σ R : Type}

/-- The last arc; the start counts as an arc without a word. -/
def arc [Zero R] : Node σ R → Arc σ R
  | start state => ⟨"", unknownIndex, [0], state, 0, []⟩
  | link _ arc _ _ => arc

/-- The state of the language model. -/
def state : Node σ R → σ
  | start state => state
  | link _ arc _ _ => arc.state

/-- The position where a node ends. -/
def stop : Node σ R → Nat
  | start _ => 0
  | link _ arc _ _ => arc.stop

/-- The cost so far. -/
def score [Zero R] : Node σ R → R
  | start _ => 0
  | link _ _ score _ => score

/-- The number of a node in the order of creation. -/
def seq : Node σ R → Nat
  | start _ => 0
  | link _ _ _ seq => seq

/-- The node that a node extends. -/
def prev? : Node σ R → Option (Node σ R)
  | start _ => none
  | link prev _ _ _ => some prev

/-- The arcs from the start on. -/
def arcs : Node σ R → List (Arc σ R)
  | start _ => []
  | link prev arc _ _ => prev.arcs ++ [arc]

/-- A node comes no later than another by score, and of equal scores by creation. -/
def rankLe [Cost R] (a b : Node σ R) : Bool :=
  decide (a.score < b.score) || !decide (b.score < a.score) && decide (a.seq ≤ b.seq)

end Node

/-- A node that has not been numbered yet. -/
structure Draft (σ R : Type) where
  prev : Node σ R
  arc : Arc σ R
  score : R
  deriving DecidableEq, Repr

/-- What a lattice was begun for: the number of sentences wanted, and the state of the
language model before them. -/
structure Purpose (σ : Type) where
  nbest : Nat
  state : σ
  deriving DecidableEq, Repr

/-- The nodes of a search in the order of their creation.  All nodes that end before
`frontier` are there; `singlePath` tells whether the graph of the last search
had a single way. -/
structure Lattice (σ R : Type) where
  log : Array (Node σ R)
  frontier : Nat
  purpose : Option (Purpose σ)
  counter : Nat
  singlePath : Option Bool

namespace Lattice

variable {σ R : Type}

/-- The lattice without nodes. -/
def empty : Lattice σ R := ⟨#[], 0, none, 0, none⟩

/-- The number of nodes. -/
def size (lat : Lattice σ R) : Nat := lat.log.size

/-- The nodes that end at a position, in the order of their creation. -/
def nodes (lat : Lattice σ R) (p : Nat) : List (Node σ R) :=
  lat.log.toList.filter fun n => n.stop == p

/-- The lattice with a further node. -/
def push (lat : Lattice σ R) (draft : Draft σ R) : Lattice σ R :=
  { lat with
    log := lat.log.push (.link draft.prev draft.arc draft.score lat.counter)
    counter := lat.counter + 1 }

/-- The lattice without the nodes that end at the smallest of some positions or
after it. -/
def discard (lat : Lattice σ R) (positions : List Nat) : Lattice σ R :=
  match positions.min? with
  | none => lat
  | some since =>
    { lat with
      log := lat.log.filter fun n => n.stop < since
      frontier := min lat.frontier since }

/-- The lattice made ready for a purpose: begun anew if it served another one or has
lost its start. -/
def prepare [DecidableEq σ] (lat : Lattice σ R) (purpose : Purpose σ) : Lattice σ R :=
  if lat.purpose = some purpose ∧ (lat.nodes 0).isEmpty = false then lat
  else
    { log := #[.start purpose.state]
      frontier := 0
      purpose := some purpose
      counter := 1
      singlePath := none }

/-- The lattice made ready for a graph with a single way, or with several.  Where that
changes, nodes were kept under another rule, and only the start stays. -/
def settle (lat : Lattice σ R) (singlePath : Bool) : Lattice σ R :=
  let lat := match lat.singlePath with
    | none => lat
    | some before => if before = singlePath then lat else lat.discard [1]
  { lat with singlePath := some singlePath }

/-- The best nodes of each state that end at a position, at most `k` for a state;
states in the order in which they first occur, best nodes first. -/
def hypotheses [DecidableEq σ] [Cost R] (lat : Lattice σ R) (p k : Nat) :
    List (Node σ R) :=
  let nodes := lat.nodes p
  (nodes.map Node.state).eraseDups.flatMap fun s =>
    ((nodes.filter fun n => n.state = s).mergeSort Node.rankLe).take k

theorem nodes_push (lat : Lattice σ R) (draft : Draft σ R) (p : Nat) :
    (lat.push draft).nodes p
      = lat.nodes p ++
        if draft.arc.stop = p then
          [.link draft.prev draft.arc draft.score lat.counter]
        else [] := by
  simp only [nodes, push, Array.toList_push, List.filter_append]
  congr 1
  by_cases h : draft.arc.stop = p <;> simp [Node.stop, h]

/-- Discarding empties the positions from the smallest one on, and keeps the others as
they are. -/
theorem nodes_discard (lat : Lattice σ R) {positions : List Nat} {since : Nat}
    (h : positions.min? = some since) (p : Nat) :
    (lat.discard positions).nodes p = if p < since then lat.nodes p else [] := by
  simp only [nodes, discard, h, Array.toList_filter, List.filter_filter]
  split
  · next hp =>
    refine List.filter_congr fun n _ => ?_
    by_cases hn : n.stop = p <;> simp [hn, hp]
  · next hp =>
    rw [List.filter_eq_nil_iff]
    intro n _
    by_cases hn : n.stop = p <;> simp [hn, hp]

end Lattice

end Pinyin
