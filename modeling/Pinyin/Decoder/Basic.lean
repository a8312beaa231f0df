import Pinyin.Decoder.Span
import Pinyin.LanguageModel.Basic
import Pinyin.Lattice.Transcription
import Pinyin.Lexicon.Lookup

/-!
# Pinyin.Decoder.Basic

From typed text to sentences: the search for the cheapest sequences of words along
the ways through a graph.

The search goes through the positions in ascending order.  At each it takes the best
partial sentences that end there, and extends each by every separator and by every
word whose span begins there.  What a lattice holds already is not built again.

* `Decoder` — a dictionary, a language model and the longest span of a word;
* `attemptsAt` — the extensions at a position, in order, each of which may fail;
* `decode` — the search, which keeps what was built before a failure.
-/

namespace Pinyin

/-- What finds the words that a way through a graph spells. -/
abbrev Dictionary := CutGraph → Path → Except Error (List WordMatch)

/-- A dictionary, a language model, and how many syllables a word may have. -/
structure Decoder (σ R : Type) where
  dictionary : Dictionary
  model : LanguageModel σ R
  maxSyllables : Nat
  maxSyllables_pos : 0 < maxSyllables

namespace Decoder

variable {σ R : Type}

/-- How many syllables a word may have unless told otherwise. -/
def defaultMaxSyllables : Nat := 8

/-- The decoder of some parts; words must be allowed at least one syllable. -/
def ofParts (dictionary : Dictionary) (model : LanguageModel σ R) (maxSyllables : Int) :
    Except Error (Decoder σ R) :=
  if h : 0 < maxSyllables.toNat then .ok ⟨dictionary, model, maxSyllables.toNat, h⟩
  else .error .maxSyllablesTooSmall

/-! ## Extensions -/

/-- An arc is worthless: an unknown word of one syllable, unless it begins the text or
the text has only one way. -/
def IsWorthless (d : Decoder σ R) (arc : Arc σ R) (singlePath : Bool) : Prop :=
  d.model.isUnknown arc.index arc.word = true ∧ arc.code.length = 2 ∧
    arc.start ≠ 0 ∧ singlePath = false

instance (d : Decoder σ R) (arc : Arc σ R) (singlePath : Bool) :
    Decidable (d.IsWorthless arc singlePath) := by
  unfold IsWorthless; infer_instance

/-- The arc, unless it is worthless; it must pass at least one position. -/
def createArc (d : Decoder σ R) (arc : Arc σ R) (singlePath : Bool) :
    Except Error (Option (Arc σ R)) :=
  if arc.path.isEmpty then .error .positionOutOfRange
  else .ok (if d.IsWorthless arc singlePath then none else some arc)

/-- The code of a way by the first reading of each of its edges. -/
def defaultCode (g : CutGraph) (path : Path) : Code :=
  (path.zip path.tail).flatMap fun (start, stop) =>
    match g.readingsOf start stop with
    | [] => []
    | r :: _ => r.syllable.code

/-- An extension that was tried: an error, nothing for a worthless arc, or a draft. -/
abbrev Attempt (σ R : Type) := Except Error (Option (Draft σ R))

/-- The arc of a word on a way, at a given cost. -/
def wordArc (d : Decoder σ R) (path : Path) (m : WordMatch) (prev : Node σ R)
    (cost : R) : Arc σ R where
  word := m.word
  index := m.index
  path := path
  state := d.model.next prev.state m.index m.word
  cost := cost
  code := m.code

/-- The cost of a word after a partial sentence: what the model asks for it, and what
its fuzzy readings add.  The fuzzy readings are asked first. -/
def wordCost [Cost R] (d : Decoder σ R) (m : WordMatch) (prev : Node σ R) : Except Error R :=
  match Cost.ofDistance m.distance, d.model.cost prev.state m.index m.word with
  | .error e, _ => .error e
  | .ok _, .error e => .error e
  | .ok penalty, .ok own => .ok (own + penalty)

/-- A partial sentence extended by a word on a way. -/
def extend [Cost R] (d : Decoder σ R) (path : Path) (m : WordMatch) (singlePath : Bool)
    (prev : Node σ R) : Attempt σ R :=
  match d.wordCost m prev with
  | .error e => .error e
  | .ok cost =>
    let arc := d.wordArc path m prev cost
    if d.IsWorthless arc singlePath then .ok none
    else .ok (some ⟨prev, arc, prev.score + cost⟩)

/-- A partial sentence extended by the separators between two positions. -/
def extendSeparator [Cost R] (start stop : Nat) (prev : Node σ R) : Attempt σ R :=
  .ok (some ⟨prev, ⟨"", unknownIndex, [start, stop], prev.state, 0, []⟩, prev.score⟩)

/-- The word that stands for a way where nothing else does: its own text. -/
def rawMatch (g : CutGraph) (path : Path) : WordMatch :=
  ⟨String.ofList (g.piece (path.headD 0) (path.getLastD 0)), unknownIndex,
    defaultCode g path, 0⟩

/-- A match with the default code of its way if it has none of its own. -/
def withCode (g : CutGraph) (path : Path) (m : WordMatch) : WordMatch :=
  if m.code.isEmpty then { m with code := defaultCode g path } else m

/-- The attempt gave a draft. -/
def Succeeds : Attempt σ R → Bool
  | .ok (some _) => true
  | _ => false

/-- The extensions of partial sentences by the words on a way: by word, then by
sentence.  A single edge that no word survives on is passed as raw text. -/
def spanAttempts [Cost R] (d : Decoder σ R) (g : CutGraph) (singlePath : Bool)
    (hyps : List (Node σ R)) (path : Path) : List (Attempt σ R) :=
  match d.dictionary g path with
  | .error e => [.error e]
  | .ok found =>
    let tried := found.flatMap fun m =>
      hyps.map (d.extend path (withCode g path m) singlePath)
    if tried.any Succeeds || path.length != 2 then tried
    else tried ++ hyps.map (d.extend path (rawMatch g path) true)

/-- The extensions at a position that end at `complete` or after it: by separators,
then by the words on each span. -/
def attemptsAt [Cost R] (d : Decoder σ R) (g : CutGraph) (singlePath : Bool)
    (complete : Nat) (hyps : List (Node σ R)) (p : Nat) : List (Attempt σ R) :=
  let separators :=
    if g.IsSeparator p then (g.successors p).filter fun q => complete ≤ q else []
  let spans := (g.spans d.maxSyllables p).filter fun path => complete ≤ path.getLastD 0
  separators.flatMap (fun q => hyps.map (extendSeparator p q)) ++
    spans.flatMap (d.spanAttempts g singlePath hyps)

/-! ## The search -/

/-- The lattice with the drafts of some attempts, up to the first error. -/
def absorb : Lattice σ R → List (Attempt σ R) → Lattice σ R × Except Error Unit
  | lat, [] => (lat, .ok ())
  | lat, .error e :: _ => (lat, .error e)
  | lat, .ok none :: rest => absorb lat rest
  | lat, .ok (some draft) :: rest => absorb (lat.push draft) rest

/-- The lattice extended at some positions, one after the other, up to the first
error. -/
def sweep [DecidableEq σ] [Cost R] (d : Decoder σ R) (g : CutGraph) (singlePath : Bool)
    (nbest complete : Nat) : Lattice σ R → (positions : List Nat) →
    Lattice σ R × Except Error Unit
  | lat, [] => (lat, .ok ())
  | lat, p :: rest =>
    let hyps := lat.hypotheses p nbest
    let attempts := if hyps.isEmpty then [] else d.attemptsAt g singlePath complete hyps p
    match absorb lat attempts with
    | (lat, .ok ()) => sweep d g singlePath nbest complete lat rest
    | (lat, .error e) => (lat, .error e)

/-- The lattice extended over a whole graph, with the best sentences.  The search begins
in a given state, or else in the start state of the model.  An error leaves the
lattice as far as it was built. -/
def decode [DecidableEq σ] [Cost R] (d : Decoder σ R) (lat : Lattice σ R) (g : CutGraph)
    (nbest : Int) (state? : Option σ) :
    Lattice σ R × Except Error (List (Transcription σ R)) :=
  if nbest < 1 then (lat, .error .nbestTooSmall)
  else if ¬ g.IsConnected then (lat, .error (.disconnected g.text))
  else
    let singlePath := g.pathCount == 1
    let purpose : Purpose σ := ⟨nbest.toNat, state?.getD d.model.start⟩
    let ready := (lat.prepare purpose).settle singlePath
    match d.sweep g singlePath nbest.toNat ready.frontier ready (List.range g.size) with
    | (lat, .error e) => (lat, .error e)
    | (lat, .ok ()) =>
      let lat := { lat with frontier := g.size + 1 }
      (lat, .ok (lat.transcriptions g.size nbest))

end Decoder

end Pinyin
