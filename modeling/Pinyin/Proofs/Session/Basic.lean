import Mathlib.Data.List.Induction
import Pinyin.CutGraph.Merge
import Pinyin.Decoder.Basic
import Pinyin.Proofs.Lattice.Numbering

/-!
# Pinyin.Proofs.Session.Basic

A lattice and a graph as they are used while a text is being edited.

* `Session` — a lattice and the graph that it goes with, `Action` — what is done with them;
* `Session.run` — what a list of actions makes of a session;
* `Session.Throughout` — a property of all decodes of a run;
* `run_induct`, `throughout_congr` — induction on runs;
* `Session.Reached` — a session comes from an empty lattice, by actions of several decoders.
-/

namespace Pinyin

variable {σ R : Type}

/-- A lattice and the graph that it goes with. -/
structure Session (σ R : Type) where
  lattice : Lattice σ R
  graph : CutGraph

/-- What is done in a session: a decode, a merge of the graph that discards from the lattice
what is stale, a discarding of any positions, and a fresh lattice. -/
inductive Action (σ : Type) where
  | decode (nbest : Int) (state? : Option σ)
  | merge (other : CutGraph)
  | discard (positions : List Nat)
  | clear

namespace Session

/-- The session that begins with a graph. -/
def begin (g : CutGraph) : Session σ R := ⟨.empty, g⟩

variable [DecidableEq σ] [Cost R]

/-- The session after an action.  A decode that fails leaves the lattice as far as it was
built. -/
def act (d : Decoder σ R) (s : Session σ R) : Action σ → Session σ R
  | .decode nbest state? => { s with lattice := (d.decode s.lattice s.graph nbest state?).1 }
  | .merge other => ⟨s.lattice.discard (s.graph.merge other).2, (s.graph.merge other).1⟩
  | .discard positions => { s with lattice := s.lattice.discard positions }
  | .clear => { s with lattice := .empty }

/-- The session after some actions. -/
def run (d : Decoder σ R) (s : Session σ R) (actions : List (Action σ)) : Session σ R :=
  actions.foldl (act d) s

/-- A property holds of every decode of a run, in the session where it takes place. -/
def Throughout (d : Decoder σ R) (s : Session σ R) (actions : List (Action σ))
    (P : Session σ R → Int → Option σ → Prop) : Prop :=
  ∀ before nbest state? after, actions = before ++ .decode nbest state? :: after →
    P (s.run d before) nbest state?

/-- A decode fails in the dictionary or the model: it is asked for sentences of a connected
graph and does not return. -/
def FailsInside (d : Decoder σ R) (s : Session σ R) (nbest : Int) (state? : Option σ) : Prop :=
  (1 ≤ nbest ∧ s.graph.IsConnected) ∧
    ∃ lat e, d.decode s.lattice s.graph nbest state? = (lat, .error e)

/-- A decode returns what a decode of the empty lattice does, and leaves the same nodes, up
to the numbers of their creation. -/
def DecodesAfresh (d : Decoder σ R) (s : Session σ R) (nbest : Int) (state? : Option σ) : Prop :=
  ∀ lat ts, d.decode s.lattice s.graph nbest state? = (lat, .ok ts) →
    ∃ full, d.decode .empty s.graph nbest state? = (full, .ok ts) ∧
      ∀ p, lat.unnumberedNodes p = full.unnumberedNodes p

theorem failsInside_iff {d : Decoder σ R} {s : Session σ R} {nbest : Int} {state? : Option σ} :
    s.FailsInside d nbest state? ↔
      (1 ≤ nbest ∧ s.graph.IsConnected) ∧
        (d.decode s.lattice s.graph nbest state?).2.isOk = false := by
  unfold FailsInside
  rcases d.decode s.lattice s.graph nbest state? with ⟨lat, _ | ts⟩ <;>
    simp [Except.isOk, Except.toBool]

variable {d : Decoder σ R} {s : Session σ R} {actions : List (Action σ)}
  {P Q : Session σ R → Int → Option σ → Prop}

@[simp] theorem run_append (xs ys : List (Action σ)) :
    s.run d (xs ++ ys) = (s.run d xs).run d ys :=
  List.foldl_append

@[simp] theorem run_singleton (a : Action σ) : s.run d [a] = s.act d a := rfl

theorem Throughout.front {xs ys : List (Action σ)} (h : s.Throughout d (xs ++ ys) P) :
    s.Throughout d xs P := by
  intro before nbest state? after hxs
  exact h before nbest state? (after ++ ys) (by rw [hxs, List.append_assoc, List.cons_append])

theorem throughout_nil : s.Throughout d [] P := by
  intro before nbest state? after h
  simp at h

theorem throughout_cons {a : Action σ} :
    s.Throughout d (a :: actions) P ↔
      (∀ nbest state?, a = .decode nbest state? → P s nbest state?) ∧
        (s.act d a).Throughout d actions P := by
  constructor
  · intro h
    refine ⟨fun nbest state? ha => h [] nbest state? actions (by rw [ha, List.nil_append]), ?_⟩
    intro before nbest state? after hactions
    exact h (a :: before) nbest state? after (by rw [hactions, List.cons_append])
  · rintro ⟨hhead, htail⟩ before nbest state? after hactions
    cases before with
    | nil =>
        rw [List.nil_append, List.cons.injEq] at hactions
        exact hhead nbest state? hactions.1
    | cons b before =>
        rw [List.cons_append, List.cons.injEq] at hactions
        obtain ⟨rfl, hrest⟩ := hactions
        exact htail before nbest state? after hrest

/-- What the actions keep, where the decodes of a run have a property, holds at its end. -/
theorem run_induct {I : Session σ R → Prop} (hstart : I s)
    (hact : ∀ s a, I s → (∀ nbest state?, a = .decode nbest state? → P s nbest state?) →
      I (s.act d a))
    (hP : s.Throughout d actions P) : I (s.run d actions) := by
  induction actions using List.reverseRecOn with
  | nil => exact hstart
  | append_singleton actions a ih =>
      rw [run_append, run_singleton]
      refine hact _ a (ih hP.front) fun nbest state? ha => ?_
      exact hP actions nbest state? [] (by rw [ha])

/-- Two properties that agree wherever a run can come to hold throughout the same runs. -/
theorem throughout_congr {I : Session σ R → Prop} (hstart : I s)
    (hact : ∀ s a, I s → (∀ nbest state?, a = .decode nbest state? → P s nbest state?) →
      I (s.act d a))
    (hiff : ∀ s nbest state?, I s → (P s nbest state? ↔ Q s nbest state?)) :
    s.Throughout d actions P ↔ s.Throughout d actions Q := by
  constructor
  · rintro h before nbest state? after rfl
    exact (hiff _ nbest state? (run_induct hstart hact h.front)).1 (h _ nbest state? after rfl)
  · rintro h before nbest state? after rfl
    have hinv : I (s.run d before) := run_induct hstart
      (fun s a hs hq => hact s a hs fun nbest state? ha =>
        (hiff s nbest state? hs).2 (hq nbest state? ha)) h.front
    exact (hiff _ nbest state? hinv).2 (h _ nbest state? after rfl)

/-! ## Several decoders -/

/-- A session comes from an empty lattice by actions, each with one of some decoders. -/
inductive Reached (allowed : Decoder σ R → Prop) : Session σ R → Prop
  | begin (g : CutGraph) : Reached allowed (begin g)
  | act {s : Session σ R} {d : Decoder σ R} (hs : Reached allowed s) (hd : allowed d)
      (a : Action σ) : Reached allowed (s.act d a)

/-- A run is what a single decoder can do. -/
theorem reached_run (d : Decoder σ R) (g : CutGraph) (actions : List (Action σ)) :
    ((begin g : Session σ R).run d actions).Reached (· = d) := by
  induction actions using List.reverseRecOn with
  | nil => exact .begin g
  | append_singleton actions a ih =>
      rw [run_append, run_singleton]
      exact ih.act rfl a

end Session

end Pinyin
