import Pinyin.Error

/-!
# Pinyin.LanguageModel.Basic

What a search asks about words: how much one costs after the words before it.
-/

namespace Pinyin

/-- A model of word sequences.  Its states stand for the words so far; a lower cost
means a likelier word, and may fail to be computable. -/
structure LanguageModel (σ R : Type) where
  start : σ
  cost : σ → (index : Int) → (word : String) → Except Error R
  isUnknown : (index : Int) → (word : String) → Bool
  next : σ → (index : Int) → (word : String) → σ

end Pinyin
