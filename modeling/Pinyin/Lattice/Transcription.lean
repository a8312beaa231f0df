import Pinyin.Lattice.Basic

/-!
# Pinyin.Lattice.Transcription

The sentences that a lattice holds.

* `Transcription` — the arcs of a sentence and its score, with its words and text;
* `Lattice.transcriptions` — the best ones that end at a position, no two of them
  with the same words.
-/

namespace Pinyin

/-- A sentence as a chain of arcs, with its score. -/
structure Transcription (σ R : Type) where
  arcs : List (Arc σ R)
  score : R
  deriving DecidableEq, Repr

namespace Transcription

variable {σ R : Type}

/-- The words; separators have none. -/
def words (t : Transcription σ R) : List String :=
  (t.arcs.map Arc.word).filter fun w => w != ""

/-- The words without anything between them. -/
def text (t : Transcription σ R) : String := String.join t.words

end Transcription

/-- The sentence that ends with a node. -/
def Node.transcription {σ R : Type} [Zero R] (n : Node σ R) : Transcription σ R :=
  ⟨n.arcs, n.score⟩

/-- The elements whose key is not among those `seen` and that come first with it. -/
def distinctBy [DecidableEq β] (key : α → β) : (seen : List β) → List α → List α
  | _, [] => []
  | seen, x :: xs =>
    if key x ∈ seen then distinctBy key seen xs
    else x :: distinctBy key (key x :: seen) xs

namespace Lattice

variable {σ R : Type}

/-- The best sentences that end at a position, at most `nbest` but one in any case;
of those with the same words only the best. -/
def transcriptions [Cost R] (lat : Lattice σ R) (stop : Nat) (nbest : Int) :
    List (Transcription σ R) :=
  let ranked := (lat.nodes stop).mergeSort Node.rankLe
  (distinctBy Transcription.words [] (ranked.map Node.transcription)).take
    (max 1 nbest).toNat

end Lattice

end Pinyin
