import Pinyin.Decoder.Basic
import Pinyin.Proofs.Lattice.Growth

/-!
# Pinyin.Proofs.Decoder.Move

The extensions of a search as data.  A `Move` is what a search tries on every partial
sentence of a position: a separator, a word on a span, or the failure of the dictionary
on a span.

* `Move.outcome` — what a move comes to, which the state of the model decides;
* `Decoder.movesFrom` — the moves at a position, none of which depends on the partial
  sentences there;
* `absorb_attemptsAt` — a search builds what its moves say.
-/

namespace Pinyin

variable {σ R : Type}

/-- An extension to be tried on partial sentences.  A `forced` word is kept even where it
is worthless. -/
inductive Move where
  | separator (start stop : Nat)
  | word (path : Path) (found : WordMatch) (forced : Bool)
  | failure (path : Path) (error : Error)

/-- The score of an extension: that of the sentence, raised by what a word costs. -/
def raise [Add R] (score : R) : Option R → R
  | none => score
  | some cost => score + cost

/-- The node, without numbers, that an arc makes of a partial sentence. -/
def linked [Add R] [Zero R] (arc : Arc σ R) (cost? : Option R) (prev : Node σ R) : Node σ R :=
  .link prev.unnumbered arc (raise prev.score cost?) 0

/-! ## Moves -/

namespace Move

/-- The position that a move leads to. -/
def stop : Move → Nat
  | separator _ stop => stop
  | word path _ _ => path.getLastD 0
  | failure path _ => path.getLastD 0

/-- What a move comes to in a state of the model: an error, nothing for a worthless word,
or an arc with what it costs. -/
def outcome [Cost R] (d : Decoder σ R) (s : σ) : Move → Except Error (Option (Arc σ R × Option R))
  | separator start stop => .ok (some (⟨"", unknownIndex, [start, stop], s, 0, []⟩, none))
  | word path m forced =>
    match d.wordCost m (.start s) with
    | .error e => .error e
    | .ok cost =>
      let arc := d.wordArc path m (.start s) cost
      if d.IsWorthless arc forced then .ok none else .ok (some (arc, some cost))
  | failure _ e => .error e

/-- A move tried on a partial sentence. -/
def attempt [Cost R] (d : Decoder σ R) (mv : Move) (prev : Node σ R) : Decoder.Attempt σ R :=
  match mv.outcome d prev.state with
  | .error e => .error e
  | .ok none => .ok none
  | .ok (some (arc, cost?)) => .ok (some ⟨prev, arc, raise prev.score cost?⟩)

/-- The node, without numbers, that a move makes of a partial sentence. -/
def node [Cost R] (d : Decoder σ R) (mv : Move) (prev : Node σ R) : Option (Node σ R) :=
  match mv.outcome d prev.state with
  | .ok (some (arc, cost?)) => some (linked arc cost? prev)
  | _ => none

/-- A move fails in a state of the model. -/
def FailsIn [Cost R] (d : Decoder σ R) (mv : Move) (s : σ) : Prop :=
  ∃ e, mv.outcome d s = .error e

variable [Cost R] {d : Decoder σ R} {mv : Move}

/-- The arc of a move leads where the move does. -/
theorem stop_of_outcome {s : σ} {arc : Arc σ R} {cost? : Option R}
    (h : mv.outcome d s = .ok (some (arc, cost?))) : arc.stop = mv.stop := by
  cases mv with
  | separator start stop =>
      simp only [outcome, Except.ok.injEq, Option.some.injEq, Prod.mk.injEq] at h
      rw [← h.1]
      rfl
  | word path m forced =>
      simp only [outcome] at h
      split at h
      · cases h
      · split at h
        · cases h
        · simp only [Except.ok.injEq, Option.some.injEq, Prod.mk.injEq] at h
          rw [← h.1]
          rfl
  | failure path e => cases h

theorem node_eq_some_iff {prev n : Node σ R} :
    mv.node d prev = some n ↔
      ∃ arc cost?, mv.outcome d prev.state = .ok (some (arc, cost?)) ∧
        linked arc cost? prev = n := by
  unfold node
  split
  · next arc cost? hout =>
    constructor
    · intro h
      exact ⟨arc, cost?, hout, Option.some.inj h⟩
    · rintro ⟨arc', cost?', hsome, rfl⟩
      rw [hout, Except.ok.injEq, Option.some.injEq, Prod.mk.injEq] at hsome
      rw [hsome.1, hsome.2]
  · next hout =>
    constructor
    · nofun
    · rintro ⟨arc, cost?, hsome, -⟩
      exact (hout arc cost? hsome).elim

theorem node_unnumbered (prev : Node σ R) : mv.node d prev.unnumbered = mv.node d prev := by
  simp [node, linked]

theorem filterMap_node_unnumbered (hyps : List (Node σ R)) :
    (hyps.map Node.unnumbered).filterMap (mv.node d) = hyps.filterMap (mv.node d) := by
  rw [List.filterMap_map]
  congr 1
  funext prev
  exact node_unnumbered prev

/-- The nodes that a move makes end where it leads. -/
theorem stop_of_node {prev n : Node σ R} (h : mv.node d prev = some n) : n.stop = mv.stop := by
  obtain ⟨arc, cost?, hout, rfl⟩ := node_eq_some_iff.1 h
  exact stop_of_outcome hout

theorem prev?_of_node {prev n : Node σ R} (h : mv.node d prev = some n) :
    n.prev? = some prev.unnumbered := by
  obtain ⟨arc, cost?, -, rfl⟩ := node_eq_some_iff.1 h
  rfl

end Move

/-! ## Attempts -/

namespace Decoder

/-- The drafts that some attempts gave. -/
def drafts (attempts : List (Attempt σ R)) : List (Draft σ R) :=
  attempts.filterMap fun
    | .ok draft? => draft?
    | .error _ => none

theorem absorb_append (lat : Lattice σ R) (xs ys : List (Attempt σ R)) :
    absorb lat (xs ++ ys) = match absorb lat xs with
      | (lat, .ok ()) => absorb lat ys
      | (lat, .error e) => (lat, .error e) := by
  induction xs generalizing lat with
  | nil => rfl
  | cons x xs ih =>
      match x with
      | .error e => rfl
      | .ok none => exact ih lat
      | .ok (some draft) => exact ih (lat.push draft)

/-- Without a failure all drafts are pushed. -/
theorem absorb_of_ok {lat : Lattice σ R} {xs : List (Attempt σ R)}
    (h : ∀ e, .error e ∉ xs) : absorb lat xs = ((drafts xs).foldl Lattice.push lat, .ok ()) := by
  induction xs generalizing lat with
  | nil => rfl
  | cons x xs ih =>
      have hxs : ∀ e, .error e ∉ xs := fun e he => h e (List.mem_cons_of_mem _ he)
      match x with
      | .error e => exact (h e List.mem_cons_self).elim
      | .ok none => exact ih hxs
      | .ok (some draft) => exact ih hxs

/-- A failure is reported. -/
theorem absorb_of_error {xs : List (Attempt σ R)} {e : Error} (h : .error e ∈ xs)
    (lat : Lattice σ R) : ∃ lat' e', absorb lat xs = (lat', .error e') := by
  induction xs generalizing lat with
  | nil => cases h
  | cons x xs ih =>
      match x with
      | .error e' => exact ⟨lat, e', rfl⟩
      | .ok none => exact ih ((List.mem_cons.1 h).resolve_left (by simp)) lat
      | .ok (some draft) => exact ih ((List.mem_cons.1 h).resolve_left (by simp)) (lat.push draft)

/-- What follows a failure does not matter. -/
theorem absorb_append_of_error {lat : Lattice σ R} {xs : List (Attempt σ R)} {e : Error}
    (h : .error e ∈ xs) (ys : List (Attempt σ R)) : absorb lat (xs ++ ys) = absorb lat xs := by
  obtain ⟨lat', e', heq⟩ := absorb_of_error h lat
  rw [absorb_append, heq]

theorem absorb_flatMap_congr {f g : α → List (Attempt σ R)} {xs : List α}
    (h : ∀ x ∈ xs, ∀ lat, absorb lat (f x) = absorb lat (g x)) (lat : Lattice σ R) :
    absorb lat (xs.flatMap f) = absorb lat (xs.flatMap g) := by
  induction xs generalizing lat with
  | nil => rfl
  | cons x xs ih =>
      have hxs : ∀ y ∈ xs, ∀ lat, absorb lat (f y) = absorb lat (g y) :=
        fun y hy => h y (List.mem_cons_of_mem _ hy)
      rw [List.flatMap_cons, List.flatMap_cons, absorb_append, absorb_append,
        h x List.mem_cons_self]
      split
      · exact ih hxs _
      · rfl

/-! ## The moves at a position -/

/-- A word on a way would be dropped as worthless. -/
def Drops (d : Decoder σ R) (path : Path) (m : WordMatch) (singlePath : Bool) : Prop :=
  d.model.isUnknown m.index m.word = true ∧ m.code.length = 2 ∧
    path.headD 0 ≠ 0 ∧ singlePath = false

instance (d : Decoder σ R) (path : Path) (m : WordMatch) (singlePath : Bool) :
    Decidable (d.Drops path m singlePath) := by
  unfold Drops; infer_instance

/-- The moves on a span: its words, or also its own text where it is a single edge and no
word is kept. -/
def movesOn (d : Decoder σ R) (g : CutGraph) (singlePath : Bool) (path : Path) : List Move :=
  match d.dictionary g path with
  | .error e => [.failure path e]
  | .ok found =>
    let words := found.map fun m => Move.word path (withCode g path m) singlePath
    if (∃ m ∈ found, ¬ d.Drops path (withCode g path m) singlePath) ∨ path.length ≠ 2 then words
    else words ++ [.word path (rawMatch g path) true]

/-- The moves at a position: its separators, then its spans. -/
def movesFrom (d : Decoder σ R) (g : CutGraph) (singlePath : Bool) (p : Nat) : List Move :=
  (if g.IsSeparator p then (g.successors p).map (Move.separator p) else []) ++
    (g.spans d.maxSyllables p).flatMap (d.movesOn g singlePath)

/-- Some moves tried on some partial sentences: by move, then by sentence. -/
def tryAll [Cost R] (d : Decoder σ R) (moves : List Move) (hyps : List (Node σ R)) :
    List (Attempt σ R) :=
  moves.flatMap fun mv => hyps.map (mv.attempt d)

theorem tryAll_append [Cost R] (d : Decoder σ R) (xs ys : List Move) (hyps : List (Node σ R)) :
    d.tryAll (xs ++ ys) hyps = d.tryAll xs hyps ++ d.tryAll ys hyps :=
  List.flatMap_append

theorem extend_eq_attempt [Cost R] (d : Decoder σ R) (path : Path) (m : WordMatch)
    (singlePath : Bool) (prev : Node σ R) :
    d.extend path m singlePath prev = (Move.word path m singlePath).attempt d prev := by
  have hcost : d.wordCost m (.start prev.state) = d.wordCost m prev := rfl
  simp only [extend, Move.attempt, Move.outcome, hcost]
  cases d.wordCost m prev with
  | error e => rfl
  | ok cost =>
      have harc : d.wordArc path m (.start prev.state) cost = d.wordArc path m prev cost := rfl
      simp only [harc]
      by_cases hw : d.IsWorthless (d.wordArc path m prev cost) singlePath
      · simp [hw]
      · simp [hw, raise]

/-- Whether a word is kept does not depend on the sentence it extends. -/
theorem isWorthless_wordArc_iff [Cost R] {d : Decoder σ R} {path : Path} {m : WordMatch}
    {singlePath : Bool} {prev : Node σ R} {cost : R} :
    d.IsWorthless (d.wordArc path m prev cost) singlePath ↔ d.Drops path m singlePath :=
  Iff.rfl

/-- A span is tried with its words or its own text, or the dictionary fails on it. -/
theorem mem_movesOn_cases {d : Decoder σ R} {g : CutGraph} {singlePath : Bool} {path : Path}
    {mv : Move} (h : mv ∈ d.movesOn g singlePath path) :
    (∃ found, d.dictionary g path = .ok found ∧
      ∃ m ∈ rawMatch g path :: found.map (withCode g path), ∃ forced, mv = .word path m forced) ∨
    ∃ e, d.dictionary g path = .error e ∧ mv = .failure path e := by
  unfold movesOn at h
  split at h
  · next e he => exact .inr ⟨e, he, List.mem_singleton.1 h⟩
  · next found hfound =>
    left
    have hword : ∀ {mv : Move},
        mv ∈ found.map (fun m => .word path (withCode g path m) singlePath) →
        ∃ m ∈ rawMatch g path :: found.map (withCode g path), ∃ forced,
          mv = .word path m forced := by
      intro mv hmv
      obtain ⟨m, hm, rfl⟩ := List.mem_map.1 hmv
      exact ⟨_, List.mem_cons_of_mem _ (List.mem_map_of_mem hm), _, rfl⟩
    refine ⟨found, hfound, ?_⟩
    simp only at h
    split at h
    · exact hword h
    · rcases List.mem_append.1 h with h | h
      · exact hword h
      · exact ⟨_, List.mem_cons_self, _, List.mem_singleton.1 h⟩

/-- The moves at a position are those of the separators there, or of the spans. -/
theorem mem_movesFrom_cases {d : Decoder σ R} {g : CutGraph} {singlePath : Bool} {p : Nat}
    {mv : Move} (h : mv ∈ d.movesFrom g singlePath p) :
    (g.IsSeparator p ∧ ∃ q ∈ g.successors p, mv = .separator p q) ∨
      ∃ path ∈ g.spans d.maxSyllables p, mv ∈ d.movesOn g singlePath path := by
  rcases List.mem_append.1 h with h | h
  · left
    split at h
    · next hsep =>
      obtain ⟨q, hq, rfl⟩ := List.mem_map.1 h
      exact ⟨hsep, q, hq, rfl⟩
    · cases h
  · exact .inr (List.mem_flatMap.1 h)

theorem stop_of_mem_movesOn {d : Decoder σ R} {g : CutGraph} {singlePath : Bool} {path : Path}
    {mv : Move} (h : mv ∈ d.movesOn g singlePath path) : mv.stop = path.getLastD 0 := by
  rcases mem_movesOn_cases h with ⟨-, -, m, -, forced, rfl⟩ | ⟨e, -, rfl⟩ <;> rfl

/-- Where no word fails, some attempt succeeds exactly if a word is kept. -/
theorem any_succeeds_iff [Cost R] {d : Decoder σ R} {g : CutGraph} {path : Path}
    {singlePath : Bool} {found : List WordMatch} {hyps : List (Node σ R)} (hne : hyps ≠ [])
    (hok : ∀ e, .error e ∉ found.flatMap fun m =>
      hyps.map (d.extend path (withCode g path m) singlePath)) :
    (found.flatMap fun m =>
        hyps.map (d.extend path (withCode g path m) singlePath)).any Succeeds = true ↔
      ∃ m ∈ found, ¬ d.Drops path (withCode g path m) singlePath := by
  have hcost : ∀ m ∈ found, ∀ prev ∈ hyps, ∃ cost,
      d.wordCost (withCode g path m) prev = .ok cost := by
    intro m hm prev hprev
    cases hc : d.wordCost (withCode g path m) prev with
    | ok cost => exact ⟨cost, rfl⟩
    | error e =>
        refine (hok e (List.mem_flatMap.2 ⟨m, hm, List.mem_map.2 ⟨prev, hprev, ?_⟩⟩)).elim
        simp only [extend, hc]
  have hsucc : ∀ m ∈ found, ∀ prev ∈ hyps,
      Succeeds (d.extend path (withCode g path m) singlePath prev) = true ↔
        ¬ d.Drops path (withCode g path m) singlePath := by
    intro m hm prev hprev
    obtain ⟨cost, hc⟩ := hcost m hm prev hprev
    simp only [extend, hc, isWorthless_wordArc_iff]
    by_cases hd : d.Drops path (withCode g path m) singlePath <;> simp [hd, Succeeds]
  rw [List.any_eq_true]
  constructor
  · rintro ⟨a, ha, hs⟩
    obtain ⟨m, hm, ha⟩ := List.mem_flatMap.1 ha
    obtain ⟨prev, hprev, rfl⟩ := List.mem_map.1 ha
    exact ⟨m, hm, (hsucc m hm prev hprev).1 hs⟩
  · rintro ⟨m, hm, hd⟩
    obtain ⟨prev, hprev⟩ := List.exists_mem_of_ne_nil hyps hne
    exact ⟨_, List.mem_flatMap.2 ⟨m, hm, List.mem_map.2 ⟨prev, hprev, rfl⟩⟩,
      (hsucc m hm prev hprev).2 hd⟩

theorem tryAll_separators [Cost R] (d : Decoder σ R) (p : Nat) (qs : List Nat)
    (hyps : List (Node σ R)) :
    d.tryAll (qs.map (Move.separator p)) hyps
      = qs.flatMap fun q => hyps.map (extendSeparator p q) := by
  unfold tryAll
  rw [List.flatMap_map]
  rfl

theorem tryAll_words [Cost R] (d : Decoder σ R) (g : CutGraph) (path : Path) (singlePath : Bool)
    (found : List WordMatch) (hyps : List (Node σ R)) :
    d.tryAll (found.map fun m => .word path (withCode g path m) singlePath) hyps
      = found.flatMap fun m => hyps.map (d.extend path (withCode g path m) singlePath) := by
  unfold tryAll
  rw [List.flatMap_map]
  congr 1
  funext m
  exact List.map_congr_left fun prev _ => (extend_eq_attempt ..).symm

/-- Without a failure the extensions on a span are those of its moves. -/
theorem spanAttempts_eq [Cost R] {d : Decoder σ R} {g : CutGraph} {singlePath : Bool}
    {hyps : List (Node σ R)} (hne : hyps ≠ []) {path : Path} {found : List WordMatch}
    (hfound : d.dictionary g path = .ok found)
    (hok : ∀ e, .error e ∉ found.flatMap fun m =>
      hyps.map (d.extend path (withCode g path m) singlePath)) :
    d.spanAttempts g singlePath hyps path = d.tryAll (d.movesOn g singlePath path) hyps := by
  have hany := any_succeeds_iff hne hok
  have hraw : d.tryAll [.word path (rawMatch g path) true] hyps
      = hyps.map (d.extend path (rawMatch g path) true) := by
    simp only [tryAll, List.flatMap_singleton]
    exact List.map_congr_left fun prev _ => (extend_eq_attempt ..).symm
  have hwords := tryAll_words d g path singlePath found hyps
  simp only [spanAttempts, movesOn, hfound]
  by_cases hkept : ∃ m ∈ found, ¬ d.Drops path (withCode g path m) singlePath
  · rw [hany.2 hkept, if_pos (by simp), if_pos (.inl hkept), hwords]
  · have hnone := Bool.eq_false_iff.2 (mt hany.1 hkept)
    by_cases hlen : path.length = 2
    · rw [hnone, if_neg (by simp [hlen]), if_neg (by simp [hkept, hlen]), tryAll_append, hwords,
        hraw]
    · rw [if_pos (by simp [hlen]), if_pos (.inr hlen), hwords]

/-- A search builds the same from the extensions on a span as from its moves. -/
theorem absorb_spanAttempts [Cost R] {d : Decoder σ R} {g : CutGraph} {singlePath : Bool}
    {hyps : List (Node σ R)} (hne : hyps ≠ []) (path : Path) (lat : Lattice σ R) :
    absorb lat (d.spanAttempts g singlePath hyps path)
      = absorb lat (d.tryAll (d.movesOn g singlePath path) hyps) := by
  cases hfound : d.dictionary g path with
  | error e =>
      obtain ⟨prev, rest, rfl⟩ := List.exists_cons_of_ne_nil hne
      simp [spanAttempts, movesOn, tryAll, hfound, Move.attempt, Move.outcome, absorb]
  | ok found =>
      by_cases hfail : ∃ e, .error e ∈ found.flatMap fun m =>
          hyps.map (d.extend path (withCode g path m) singlePath)
      · -- Neither side comes to the text of the span, whether it would try it or not.
        obtain ⟨e, he⟩ := hfail
        have hwords := tryAll_words d g path singlePath found hyps
        simp only [spanAttempts, movesOn, hfound]
        rw [← hwords] at he ⊢
        split <;> split <;> simp only [tryAll_append, absorb_append_of_error he]
      · rw [spanAttempts_eq hne hfound fun e he => hfail ⟨e, he⟩]

/-- The moves at a position that lead to certain others. -/
theorem filter_movesFrom (d : Decoder σ R) (g : CutGraph) (singlePath : Bool) (p : Nat)
    (leads : Nat → Bool) :
    (d.movesFrom g singlePath p).filter (fun mv => leads mv.stop)
      = (if g.IsSeparator p then (g.successors p).filter leads else []).map (Move.separator p) ++
        ((g.spans d.maxSyllables p).filter fun path => leads (path.getLastD 0)).flatMap
          (d.movesOn g singlePath) := by
  unfold movesFrom
  rw [List.filter_append]
  congr 1
  · split
    · rw [List.filter_map]
      rfl
    · rfl
  · rw [List.filter_flatMap]
    induction g.spans d.maxSyllables p with
    | nil => rfl
    | cons path paths ih =>
        have hstop : ∀ mv ∈ d.movesOn g singlePath path, mv.stop = path.getLastD 0 :=
          fun mv hmv => stop_of_mem_movesOn hmv
        rw [List.flatMap_cons, ih]
        by_cases hc : leads (path.getLastD 0) = true
        · rw [List.filter_eq_self.2 fun mv hmv => by rw [hstop mv hmv, hc], List.filter_cons,
            if_pos hc, List.flatMap_cons]
        · rw [List.filter_eq_nil_iff.2 fun mv hmv => by rwa [hstop mv hmv], List.filter_cons,
            if_neg hc, List.nil_append]

/-- **A search builds what its moves say**: the extensions at a position are the moves there,
each tried on every hypothesis. -/
theorem absorb_attemptsAt [Cost R] {d : Decoder σ R} {g : CutGraph} {singlePath : Bool}
    {hyps : List (Node σ R)} (hne : hyps ≠ []) (complete p : Nat) (lat : Lattice σ R) :
    absorb lat (d.attemptsAt g singlePath complete hyps p)
      = absorb lat (d.tryAll
          ((d.movesFrom g singlePath p).filter fun mv => complete ≤ mv.stop) hyps) := by
  have hspans : ∀ (paths : List Path) (lat : Lattice σ R),
      absorb lat (paths.flatMap (d.spanAttempts g singlePath hyps))
        = absorb lat (d.tryAll (paths.flatMap (d.movesOn g singlePath)) hyps) := by
    intro paths lat
    unfold tryAll
    rw [List.flatMap_assoc]
    exact absorb_flatMap_congr (fun path _ lat => absorb_spanAttempts hne path lat) lat
  rw [filter_movesFrom d g singlePath p fun q => complete ≤ q, tryAll_append, tryAll_separators,
    absorb_append]
  simp only [attemptsAt, absorb_append, hspans]

end Decoder

end Pinyin
