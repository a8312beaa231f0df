import Pinyin.Lexicon.Lookup
import Pinyin.Proofs.Lattice.Ranking
import Pinyin.Proofs.Session.Faithful

/-!
# Pinyin.Proofs.Session.Incremental

Decoding while a text is being edited comes to what decoding from scratch does.

* `Session.StartsTrim` — a decode finds nothing left over where it builds;
* `Faithful.decodesAfresh_iff` — in a faithful session this decides whether a decode comes
  to what one of the empty lattice does;
* `decodesAfresh_run` — after a run in which no decode failed, it does.
-/

namespace Pinyin

variable {σ R : Type}

/-! ## Trim lattices -/

namespace Lattice.IsTrim

variable {lat : Lattice σ R}

theorem empty : (Lattice.empty : Lattice σ R).IsTrim := fun _ _ _ => rfl

theorem discard (h : lat.IsTrim) (positions : List Nat) : (lat.discard positions).IsTrim := by
  intro q hpos hq
  cases hmin : positions.min? with
  | none =>
      rw [Lattice.discard, hmin] at hq ⊢
      exact h q hpos hq
  | some since =>
      rw [nodes_discard lat hmin]
      split
      · next hlt =>
        have hfront : (lat.discard positions).frontier = min lat.frontier since := by
          rw [Lattice.discard, hmin]
        exact h q hpos (by omega)
      · rfl

theorem ready [DecidableEq σ] (h : lat.IsTrim) (d : Decoder σ R) (g : CutGraph) (nbest : Int)
    (state? : Option σ) : (d.ready lat g nbest state?).IsTrim := by
  have hprepare : (lat.prepare ⟨nbest.toNat, state?.getD d.model.start⟩).IsTrim := by
    unfold prepare
    split
    · exact h
    · intro q hpos _
      simp [nodes, Node.stop, Nat.ne_of_lt hpos]
  unfold Decoder.ready settle
  split
  · exact hprepare
  · split
    · exact hprepare
    · exact hprepare.discard [1]

end Lattice.IsTrim

/-- Nothing is found outside the text. -/
theorem Search.layer_eq_nil [Cost R] {S : Search σ R} {q : Nat} (h : S.graph.size < q) :
    S.layer q = [] := by
  rw [← layerUpTo_eq_layer (Nat.zero_lt_of_lt h) (Nat.le_refl q), layerUpTo_eq_nil h]

/-! ## Decodes of faithful sessions -/

namespace Session

variable [DecidableEq σ] [Cost R] {d : Decoder σ R} {s : Session σ R} {nbest : Int}
  {state? : Option σ}

/-- Where a decode returns, it found nothing left over in the part that it built. -/
def StartsTrim (d : Decoder σ R) (s : Session σ R) (nbest : Int) (state? : Option σ) : Prop :=
  ∀ lat ts, d.decode s.lattice s.graph nbest state? = (lat, .ok ts) →
    (d.ready s.lattice s.graph nbest state?).IsTrim

namespace Faithful

/-- **A decode of a faithful session** comes to what one of the empty lattice does exactly
if it starts from a trim lattice. -/
theorem decodesAfresh_iff (h : s.Faithful d) (nbest : Int) (state? : Option σ) :
    s.DecodesAfresh d nbest state? ↔ s.StartsTrim d nbest state? := by
  have hkeeps := h.keeps_ready nbest state?
  constructor
  · intro hafresh lat ts heq
    obtain ⟨full, hfull, hnodes⟩ := hafresh lat ts heq
    have hholds := (Decoder.decode_empty hfull).1
    exact Decoder.isTrim_of_nodes_eq hkeeps heq fun q => (hnodes q).trans (hholds.nodes_eq q)
  · intro htrim lat ts heq
    obtain ⟨hholds, rfl⟩ := Decoder.decode_of_isTrim hkeeps (htrim lat ts heq) heq
    have hreturns : ∃ full ts, d.decode .empty s.graph nbest state? = (full, .ok ts) :=
      Decoder.decode_empty_iff.2 ⟨Decoder.asked_of_decode heq, hholds.unfailing⟩
    obtain ⟨full, ts, hfull⟩ := hreturns
    obtain ⟨hempty, rfl⟩ := Decoder.decode_empty hfull
    exact ⟨full, hfull, fun q => (hholds.nodes_eq q).trans (hempty.nodes_eq q).symm⟩

/-- A decode that starts from a trim lattice leaves what its search finds. -/
theorem holds_of_startsTrim (h : s.Faithful d) (htrim : s.StartsTrim d nbest state?)
    {lat : Lattice σ R} {ts : List (Transcription σ R)}
    (heq : d.decode s.lattice s.graph nbest state? = (lat, .ok ts)) :
    (d.search s.graph nbest state?).Holds lat :=
  (Decoder.decode_of_isTrim (h.keeps_ready nbest state?) (htrim lat ts heq) heq).1

/-- **Every action keeps a session faithful**, a decode if it starts from a trim lattice. -/
theorem act (hlocal : d.dictionary.IsLocal) (h : s.Faithful d) (a : Action σ)
    (htrim : ∀ nbest state?, a = .decode nbest state? → s.StartsTrim d nbest state?) :
    (s.act d a).Faithful d := by
  cases a with
  | decode nbest state? =>
      exact h.decode nbest state? fun lat ts heq =>
        h.holds_of_startsTrim (htrim nbest state? rfl) heq
  | merge other => exact h.merge hlocal other
  | discard positions => exact h.discard positions
  | clear => exact .begin d s.graph

end Faithful

/-! ## Runs without failures -/

/-- A decode that does not fail inside leaves a trim lattice trim. -/
theorem isTrim_decode (h : s.Faithful d) (htrim : s.lattice.IsTrim)
    (hok : ¬ s.FailsInside d nbest state?) :
    (s.act d (.decode nbest state?)).lattice.IsTrim := by
  have hact : (s.act d (.decode nbest state?)).lattice
      = (d.decode s.lattice s.graph nbest state?).1 := rfl
  rw [hact]
  rcases Decoder.decode_cases d s.graph nbest state? s.lattice with
    ⟨-, e, heq⟩ | ⟨hask, lat, -, ⟨e, heq⟩ | ⟨ts, heq⟩⟩
  · rw [heq]
    exact htrim
  · exact (hok ⟨hask, lat, e, heq⟩).elim
  · have hholds := h.holds_of_startsTrim
      (fun _ _ _ => htrim.ready d s.graph nbest state?) heq
    rw [heq]
    intro q _ hq
    rw [← Lattice.unnumberedNodes_eq_nil, hholds.nodes_eq]
    exact Search.layer_eq_nil hq

/-- **Incremental decoding is full decoding.**  After a run in which no decode failed inside,
a decode returns what one of the empty lattice returns, and leaves the same nodes. -/
theorem decodesAfresh_run (hlocal : d.dictionary.IsLocal) (g : CutGraph)
    (actions : List (Action σ))
    (hok : (begin g).Throughout d actions fun s nbest state? => ¬ s.FailsInside d nbest state?)
    (nbest : Int) (state? : Option σ) :
    ((begin g).run d actions).DecodesAfresh d nbest state? := by
  have hinv : ((begin g).run d actions).Faithful d ∧
      ((begin g).run d actions).lattice.IsTrim := by
    refine run_induct (I := fun s => s.Faithful d ∧ s.lattice.IsTrim) ⟨.begin d g, .empty⟩ ?_ hok
    rintro s a ⟨hfaithful, htrim⟩ hok
    have hstarts : ∀ nbest state?, s.StartsTrim d nbest state? :=
      fun nbest state? _ _ _ => htrim.ready d s.graph nbest state?
    refine ⟨hfaithful.act hlocal a fun nbest state? _ => hstarts nbest state?, ?_⟩
    cases a with
    | decode nbest state? => exact isTrim_decode hfaithful htrim (hok nbest state? rfl)
    | merge other => exact htrim.discard _
    | discard positions => exact htrim.discard positions
    | clear => exact .empty
  rw [hinv.1.decodesAfresh_iff]
  exact fun _ _ _ => hinv.2.ready d _ nbest state?

/-! ## A small session -/

/-- Two words for "ni", and one each for "hao" and "huo". -/
def sampleLexicon : Lexicon where
  rows := [⟨codeOf [⟨.n, .i⟩], [⟨"你", 0⟩, ⟨"泥", 1⟩]⟩, ⟨codeOf [⟨.h, .ao⟩], [⟨"好", 2⟩]⟩,
    ⟨codeOf [⟨.h, .uo⟩], [⟨"火", 3⟩]⟩]
  nodup := by decide
  distinct := by decide
  wordCodes := by decide

/-- The decoder of these words with a cost for each index. -/
def sampleDecoder (cost : Int → Except Error Rat) : Decoder Unit Rat where
  dictionary := sampleLexicon.lookup
  model := ⟨(), fun _ index _ => cost index, fun index _ => index < 0, fun _ _ _ => ()⟩
  maxSyllables := 2
  maxSyllables_pos := by decide

/-- The graph of two syllables with a single way through it. -/
def sampleGraph (first second : Syllable) : CutGraph :=
  ((CutGraph.ofText (first.text ++ second.text)).insert 0
    ⟨first.text.length, [⟨first, false⟩]⟩).insert
      first.text.length ⟨(first.text ++ second.text).length, [⟨second, false⟩]⟩

theorem decodesAfresh_run_sample :
    let d := sampleDecoder fun index => .ok (index + 1)
    let actions : List (Action Unit) := [.decode 2 none, .merge (sampleGraph ⟨.n, .i⟩ ⟨.h, .uo⟩)]
    let s := (begin (sampleGraph ⟨.n, .i⟩ ⟨.h, .ao⟩) : Session Unit Rat).run d actions
    d.dictionary.IsLocal ∧
    ((begin (sampleGraph ⟨.n, .i⟩ ⟨.h, .ao⟩)).Throughout d actions fun s nbest state? =>
      ¬ s.FailsInside d nbest state?) ∧
    s.DecodesAfresh d 2 none ∧
    (d.decode s.lattice s.graph 2 none).2.toOption.map (List.map Transcription.text)
      = some ["你火", "泥火"] := by
  intro d actions s
  have hok : (begin (sampleGraph ⟨.n, .i⟩ ⟨.h, .ao⟩)).Throughout d actions fun s nbest state? =>
      ¬ s.FailsInside d nbest state? := by
    refine throughout_cons.2 ⟨fun nbest state? ha => ?_, throughout_cons.2 ⟨nofun, throughout_nil⟩⟩
    cases ha
    have hreturns : (d.decode .empty (sampleGraph ⟨.n, .i⟩ ⟨.h, .ao⟩) 2 none).2.isOk = true := by
      simp only [Decoder.decode, Decoder.sweep_eq_foldl, Lattice.hypotheses,
        Lattice.transcriptions, Node.mergeSort_rankLe]
      decide +kernel
    exact fun hfails => Bool.false_ne_true ((failsInside_iff.1 hfails).2.symm.trans hreturns)
  have htexts : (d.decode s.lattice s.graph 2 none).2.toOption.map (List.map Transcription.text)
      = some ["你火", "泥火"] := by
    simp only [s, actions, begin, run, List.foldl, act, Decoder.decode, Decoder.sweep_eq_foldl,
      Lattice.hypotheses, Lattice.transcriptions, Node.mergeSort_rankLe]
    decide +kernel
  exact ⟨isLocal_lookup sampleLexicon, hok,
    decodesAfresh_run (isLocal_lookup sampleLexicon) _ actions hok 2 none, htexts⟩

end Session

end Pinyin
