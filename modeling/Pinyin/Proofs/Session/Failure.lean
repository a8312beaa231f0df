import Pinyin.Proofs.Session.Incremental

/-!
# Pinyin.Proofs.Session.Failure

Sessions in which decodes fail.  A decode that fails keeps the nodes that it built and
does not move the frontier, so that the next one builds them once more.

* `throughout_decodesAfresh_iff` — exactly where no decode that returns finds such nodes, all
  of them come to what decodes of the empty lattice do;
* `not_decodesAfresh_sample` — a decode that does not.
-/

namespace Pinyin

variable {σ R : Type}

/-! ## Deciding what is left over -/

/-- A lattice is trim if its nodes end at the start or before the frontier. -/
theorem Lattice.isTrim_iff {lat : Lattice σ R} :
    lat.IsTrim ↔ ∀ n ∈ lat.log.toList, n.stop = 0 ∨ n.stop < lat.frontier := by
  constructor
  · intro h n hn
    by_contra hstop
    have hnil := h n.stop (by omega) (by omega)
    rw [nodes, List.filter_eq_nil_iff] at hnil
    exact hnil n hn (by simp)
  · intro h q hpos hq
    rw [nodes, List.filter_eq_nil_iff]
    intro n hn
    have hstop := h n hn
    simp only [beq_iff_eq]
    omega

theorem Lattice.isTrim_of_all {lat : Lattice σ R}
    (h : (lat.log.toList.all fun n => n.stop == 0 || decide (n.stop < lat.frontier)) = true) :
    lat.IsTrim := by
  rw [List.all_eq_true] at h
  rw [isTrim_iff]
  intro n hn
  simpa using h n hn

/-! ## Runs with failures -/

namespace Session

variable [DecidableEq σ] [Cost R]

/-- **What failures do.**  The decodes of a run all come to what decodes of the empty lattice
do exactly if those that return find nothing left over. -/
theorem throughout_decodesAfresh_iff {d : Decoder σ R} (hlocal : d.dictionary.IsLocal)
    (g : CutGraph) (actions : List (Action σ)) :
    (begin g).Throughout d actions (fun s nbest state? => s.DecodesAfresh d nbest state?) ↔
      (begin g).Throughout d actions fun s nbest state? => s.StartsTrim d nbest state? := by
  refine throughout_congr (I := Faithful d) (.begin d g) (fun s a hs hafresh => ?_)
    fun s nbest state? hs => hs.decodesAfresh_iff nbest state?
  refine hs.act hlocal a fun nbest state? ha => ?_
  exact (hs.decodesAfresh_iff nbest state?).1 (hafresh nbest state? ha)

/-- A decoder that cannot tell the cost of the word for "hao". -/
def failingDecoder : Decoder Unit Rat :=
  sampleDecoder fun index => if index = 2 then .error .powerTooLarge else .ok (index + 1)

/-- It fails on a text with "hao". -/
theorem failsInside_failingDecoder :
    (begin (sampleGraph ⟨.n, .i⟩ ⟨.h, .ao⟩)).FailsInside failingDecoder 2 none := by
  have hfails : (failingDecoder.decode .empty (sampleGraph ⟨.n, .i⟩ ⟨.h, .ao⟩) 2 none).2.isOk
      = false := by
    simp only [Decoder.decode, Decoder.sweep_eq_foldl, Lattice.hypotheses, Lattice.transcriptions,
      Node.mergeSort_rankLe]
    decide +kernel
  exact failsInside_iff.2 ⟨⟨by decide, by decide +kernel⟩, hfails⟩

/-- Where a merge discards what a failed decode left, the next decode is not disturbed. -/
theorem throughout_decodesAfresh_sample :
    failingDecoder.dictionary.IsLocal ∧
    (begin (sampleGraph ⟨.n, .i⟩ ⟨.h, .ao⟩)).FailsInside failingDecoder 2 none ∧
    (begin (sampleGraph ⟨.n, .i⟩ ⟨.h, .ao⟩)).Throughout failingDecoder
      [.decode 2 none, .merge (sampleGraph ⟨.h, .uo⟩ ⟨.n, .i⟩), .decode 2 none]
      fun s nbest state? => s.DecodesAfresh failingDecoder nbest state? := by
  have hlocal : failingDecoder.dictionary.IsLocal := isLocal_lookup sampleLexicon
  refine ⟨hlocal, failsInside_failingDecoder, (throughout_decodesAfresh_iff hlocal _ _).2 ?_⟩
  refine throughout_cons.2 ⟨fun nbest state? ha lat ts heq => ?_, ?_⟩
  · cases ha
    obtain ⟨-, lat', e, hfails⟩ := failsInside_failingDecoder
    rw [hfails] at heq
    cases heq
  · refine throughout_cons.2 ⟨fun nbest state? ha => (by cases ha), ?_⟩
    refine throughout_cons.2 ⟨fun nbest state? ha _ _ _ => ?_, throughout_nil⟩
    cases ha
    refine Lattice.isTrim_of_all ?_
    simp only [begin, act, Decoder.decode, Decoder.sweep_eq_foldl, Lattice.hypotheses,
      Lattice.transcriptions, Node.mergeSort_rankLe]
    decide +kernel

/-- A decode that is disturbed by what a failed one left: it builds the words for "ni" a
second time, and these take the place of another sentence. -/
theorem not_decodesAfresh_sample :
    let s := (begin (sampleGraph ⟨.n, .i⟩ ⟨.h, .ao⟩)).run failingDecoder
      [.decode 2 none, .merge (sampleGraph ⟨.n, .i⟩ ⟨.h, .uo⟩)]
    failingDecoder.dictionary.IsLocal ∧
    (begin (sampleGraph ⟨.n, .i⟩ ⟨.h, .ao⟩)).FailsInside failingDecoder 2 none ∧
    (failingDecoder.decode s.lattice s.graph 2 none).2.toOption.map (List.map Transcription.text)
      = some ["你火"] ∧
    (failingDecoder.decode .empty s.graph 2 none).2.toOption.map (List.map Transcription.text)
      = some ["你火", "泥火"] ∧
    ¬ s.DecodesAfresh failingDecoder 2 none := by
  intro s
  obtain ⟨hagain, hfresh⟩ :
      (failingDecoder.decode s.lattice s.graph 2 none).2.toOption.map (List.map Transcription.text)
        = some ["你火"] ∧
      (failingDecoder.decode .empty s.graph 2 none).2.toOption.map (List.map Transcription.text)
        = some ["你火", "泥火"] := by
    simp only [s, begin, run, List.foldl, act, Decoder.decode, Decoder.sweep_eq_foldl,
      Lattice.hypotheses, Lattice.transcriptions, Node.mergeSort_rankLe]
    decide +kernel
  refine ⟨isLocal_lookup sampleLexicon, failsInside_failingDecoder, hagain, hfresh,
    fun hafresh => ?_⟩
  obtain ⟨lat, ts, hres, htexts⟩ := Decoder.exists_ok_of_map_eq_some hagain
  obtain ⟨full, hfull, -⟩ := hafresh lat ts hres
  obtain ⟨full', ts', hres', htexts'⟩ := Decoder.exists_ok_of_map_eq_some hfresh
  rw [hfull, Prod.mk.injEq, Except.ok.injEq] at hres'
  rw [← hres'.2, htexts] at htexts'
  exact absurd htexts' (by decide)

end Session

end Pinyin
