import Mathlib.Analysis.SpecialFunctions.Log.Base
import Pinyin.LanguageModel.Personal
import Pinyin.Proofs.Decoder.Refinement

/-!
# Pinyin.Proofs.Decoder.Unweighted

A personal model that knows no words and gives them no weight.

* `PersonalModel.refines_base` — it asks the same of words as its base model, and only tells apart
  the words before them;
* `decode_unweighted` — so a search under it finds the same lowest scores;
* `Logarithmic ℝ` — the real numbers, over which all formulas of a model are exact.
-/

namespace Pinyin

variable {σ R : Type}

/-! ## The model -/

/-- A history that has forgotten everything knows no word. -/
theorem History.isUnknown_clear (h : History) (word : String) : h.clear.IsUnknown word :=
  .inr ⟨Counts.count_empty word, Counts.count_empty word⟩

/-- **Without weight and history** a personal model asks the same of words as its base model. -/
theorem PersonalModel.refines_base [Logarithmic R] [OrderedCost R] {m : PersonalModel σ R}
    (hweight : m.weight = 0) (hempty : m.history.clear = m.history) :
    m.toModel.Refines m.base Prod.fst where
  cost_eq t index word := by
    have hzero : ¬ (0 : R) < 0 := fun h => OrderedCost.asymm 0 0 h h
    simp [toModel, cost, hweight, hzero]
  isUnknown_eq index word := by
    have hunknown := m.history.isUnknown_clear word
    rw [hempty] at hunknown
    simp [toModel, hunknown]
  next_eq t index word := rfl

/-! ## The search -/

namespace Decoder

/-- **A personal model without weight and history is transparent to a search.**  Decodes of the empty
lattice with the base model, from some state, and with the personal model, from that state and any
word, return alike.  Then they find the same lowest scores at every position, each as often, as many
as there are sentences wanted; and so sentences of the same best score. -/
theorem decode_unweighted [DecidableEq σ] [Logarithmic R] [LinearCost R] {m : PersonalModel σ R}
    (hweight : m.weight = 0) (hempty : m.history.clear = m.history) (d : Decoder σ R)
    (g : CutGraph) (nbest : Int) (s : σ) (w : String) :
    ((∃ lat ts, (d.withModel m.base).decode .empty g nbest (some s) = (lat, .ok ts)) ↔
      ∃ lat ts, (d.withModel m.toModel).decode .empty g nbest (some (s, w)) = (lat, .ok ts)) ∧
    ∀ lat ts lat' ts',
      (d.withModel m.base).decode .empty g nbest (some s) = (lat, .ok ts) →
      (d.withModel m.toModel).decode .empty g nbest (some (s, w)) = (lat', .ok ts') →
      (∀ p, lat.lowestScores p nbest.toNat = lat'.lowestScores p nbest.toNat) ∧
      ts.head?.map Transcription.score = ts'.head?.map Transcription.score :=
  decode_refines (d := d.withModel m.base) (PersonalModel.refines_base hweight hempty) g nbest (s, w)

end Decoder

/-! ## Real costs -/

/-- Exact arithmetic on all real numbers. -/
noncomputable instance : Scalar ℝ where
  toZero := Zero.ofOfNat0
  decLt := inferInstance
  ofDistance d := .ok (d * fuzzyPenalty)
  ofInt n := n
  ofDecimal m e := (m : ℝ) / 10 ^ e
  floor x := (⌊x⌋ : ℝ)

/-- Only the logarithm of a number that is not positive is an error. -/
noncomputable instance : Logarithmic ℝ where
  power10 x := .ok (10 ^ x)
  log10 x := if x ≤ 0 then .error .logarithmOfZero else .ok (Real.logb 10 x)

instance : LinearCost ℝ where
  asymm _ _ h := lt_asymm h
  trans _ _ _ h h' := not_lt.2 (le_trans (not_lt.1 h) (not_lt.1 h'))
  add _ _ _ h := not_lt.2 (add_le_add_left (not_lt.1 h) _)
  antisymm _ _ h h' := le_antisymm (not_lt.1 h') (not_lt.1 h)

namespace Decoder

/-- A personal model over a base model without states, for which "泥" costs more than other words. -/
noncomputable def sampleModel : PersonalModel Unit ℝ where
  base := ⟨(), fun _ _ word => .ok (if word = "泥" then 5 else 1), fun _ _ => false, fun _ _ _ => ()⟩
  history := .empty
  unknown := PersonalModel.defaultUnknown
  weight := 0
  weight_nonneg := lt_irrefl 0
  weight_lt_one := by simp [Scalar.ofInt]

/-- Two words for "ni" share a state of the base model, and not one of the personal model. -/
theorem decode_unweighted_sample :
    let coarse := (sampleDecoder.withModel sampleModel.base).decode .empty sampleGraph 1 (some ())
    let fine := (sampleDecoder.withModel sampleModel.toModel).decode .empty sampleGraph 1
      (some ((), ""))
    (∃ lat ts, coarse = (lat, .ok ts)) ∧ (∃ lat ts, fine = (lat, .ok ts)) ∧
      ∀ lat ts lat' ts', coarse = (lat, .ok ts) → fine = (lat', .ok ts') →
        (∀ p, lat.lowestScores p 1 = lat'.lowestScores p 1) ∧
        ts.head?.map Transcription.score = ts'.head?.map Transcription.score := by
  intro coarse fine
  have hsample := decode_unweighted (m := sampleModel) rfl rfl
    (sampleDecoder.withModel sampleModel.base) sampleGraph 1 () ""
  have hanswers : (sampleDecoder.withModel sampleModel.base).Answers sampleGraph := by
    intro p path _
    exact ⟨_, rfl, fun m _ prev => ⟨_, rfl⟩⟩
  have hcoarse : ∃ lat ts, coarse = (lat, .ok ts) :=
    hanswers.exists_decode (Int.le_refl 1) (by decide +kernel) .empty (some ())
  exact ⟨hcoarse, hsample.1.1 hcoarse, hsample.2⟩

end Decoder

end Pinyin
