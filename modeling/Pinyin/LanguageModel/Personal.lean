import Pinyin.History.Score
import Pinyin.LanguageModel.Basic

/-!
# Pinyin.LanguageModel.Personal

A language model that has learned from its user.  It mixes the probabilities of a
base model with those of a history.  Costs are negative decimal logarithms, and
the state is that of the base model with the previous word.

* `PersonalModel` — the two parts and the weight of the second;
* `toModel` — the mixture as a language model;
* `learn` — a further sentence of the user's.
-/

namespace Pinyin

/-- A base model with a history, the score of what the history does not know, and
the weight of the history: at least zero and less than one. -/
structure PersonalModel (σ R : Type) [Scalar R] where
  base : LanguageModel σ R
  history : History
  unknown : R
  weight : R
  weight_nonneg : ¬ weight < 0
  weight_lt_one : weight < Scalar.ofInt 1

namespace PersonalModel

variable {σ R : Type}

/-- The weight of a history unless told otherwise. -/
def defaultWeight [Scalar R] : R := Scalar.ofDecimal 2 1

/-- The score of what a history does not know unless told otherwise. -/
def defaultUnknown [Scalar R] : R := Scalar.ofInt (-5)

/-- The model of some parts; other weights are refused. -/
def ofParts [Scalar R] (base : LanguageModel σ R) (history : History) (unknown weight : R) :
    Except Error (PersonalModel σ R) :=
  if h : ¬ weight < 0 ∧ weight < Scalar.ofInt 1 then
    .ok ⟨base, history, unknown, weight, h.1, h.2⟩
  else .error .weightOutOfRange

/-- The cost of a word by the mixture of the two probabilities.  Without weight the
history is not asked, and the cost is that of the base model. -/
def cost [Logarithmic R] (m : PersonalModel σ R) (state : σ × String) (index : Int)
    (word : String) : Except Error R := do
  let base ← m.base.cost state.1 index word
  if (0 : R) < m.weight then
    let fromBase ← Logarithmic.power10 (-base)
    let score ← m.history.score m.unknown state.2 word
    let fromHistory ← Logarithmic.power10 score
    let mixed := (Scalar.ofInt 1 - m.weight) * fromBase + m.weight * fromHistory
    pure (-(← Logarithmic.log10 mixed))
  else pure base

/-- The mixture as a language model.  A word is unknown if it is to both parts. -/
def toModel [Logarithmic R] (m : PersonalModel σ R) : LanguageModel (σ × String) R where
  start := (m.base.start, "")
  cost := m.cost
  isUnknown index word := m.base.isUnknown index word && decide (m.history.IsUnknown word)
  next state index word := (m.base.next state.1 index word, word)

/-- The model with another history. -/
def withHistory [Scalar R] (m : PersonalModel σ R) (history : History) (unknown : R) :
    PersonalModel σ R :=
  { m with history, unknown }

/-- The model with a further sentence in its history. -/
def learn [Scalar R] (m : PersonalModel σ R) (sentence : Sentence) : PersonalModel σ R :=
  m.withHistory (m.history.learn sentence) m.unknown

end PersonalModel

end Pinyin
