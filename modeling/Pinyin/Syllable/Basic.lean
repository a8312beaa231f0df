import Pinyin.Syllable.Initial
import Pinyin.Syllable.Final

/-!
# Pinyin.Syllable.Basic

Syllables as pairs of an initial and a final, and the table of those that
Standard Mandarin has:

* `IsFull` — a syllable of the table, among them the interjections "m", "n"
  and "ng";
* `IsBare` — an initial typed without its final;
* `IsKnown` — one of the two.
-/

namespace Pinyin

/-- An initial with a final; only some pairs occur in the language. -/
structure Syllable where
  initial : Initial
  final : Final
  deriving DecidableEq, Repr

/-- The finals that the table lists under an initial. -/
def Initial.finals : Initial → List Final
  | zero => [.a, .o, .e, .ai, .ei, .ao, .ou, .an, .en, .ang, .eng, .er, .ng]
  | b => [.a, .o, .ai, .ei, .ao, .an, .en, .ang, .eng, .i, .ie, .iao, .ian,
      .«in», .ing, .u]
  | p => [.a, .o, .ai, .ei, .ao, .ou, .an, .en, .ang, .eng, .i, .ie, .iao,
      .ian, .«in», .ing, .u]
  | m => [.empty, .a, .o, .e, .ai, .ei, .ao, .ou, .an, .en, .ang, .eng, .i,
      .ie, .iao, .iu, .ian, .«in», .ing, .u]
  | f => [.a, .o, .ei, .ou, .an, .en, .ang, .eng, .u]
  | d => [.a, .e, .ai, .ei, .ao, .ou, .an, .en, .ang, .eng, .ong, .i, .ia,
      .ie, .iao, .iu, .ian, .ing, .u, .uo, .ui, .uan, .un]
  | t => [.a, .e, .ai, .ei, .ao, .ou, .an, .ang, .eng, .ong, .i, .ie, .iao,
      .ian, .ing, .u, .uo, .ui, .uan, .un]
  | n => [.empty, .a, .e, .ai, .ei, .ao, .ou, .an, .en, .ang, .eng, .ong, .i,
      .ie, .iao, .iu, .ian, .«in», .iang, .ing, .u, .uo, .uan, .v, .ve]
  | l => [.a, .o, .e, .ai, .ei, .ao, .ou, .an, .ang, .eng, .ong, .i, .ia, .ie,
      .iao, .iu, .ian, .«in», .iang, .ing, .u, .uo, .uan, .un, .v, .ve]
  | g | k | h => [.a, .e, .ai, .ei, .ao, .ou, .an, .en, .ang, .eng, .ong, .u,
      .ua, .uo, .uai, .ui, .uan, .un, .uang]
  | j | q | x => [.i, .ia, .ie, .iao, .iu, .ian, .«in», .iang, .ing, .iong,
      .u, .ue, .uan, .un]
  | zh => [.a, .e, .ai, .ei, .ao, .ou, .an, .en, .ang, .eng, .ong, .i, .u,
      .ua, .uo, .uai, .ui, .uan, .un, .uang]
  | ch => [.a, .e, .ai, .ao, .ou, .an, .en, .ang, .eng, .ong, .i, .u, .ua,
      .uo, .uai, .ui, .uan, .un, .uang]
  | sh => [.a, .e, .ai, .ei, .ao, .ou, .an, .en, .ang, .eng, .i, .u, .ua, .uo,
      .uai, .ui, .uan, .un, .uang]
  | r => [.e, .ao, .ou, .an, .en, .ang, .eng, .ong, .i, .u, .ua, .uo, .ui,
      .uan, .un]
  | z => [.a, .e, .ai, .ei, .ao, .ou, .an, .en, .ang, .eng, .ong, .i, .u, .uo,
      .ui, .uan, .un]
  | c | s => [.a, .e, .ai, .ao, .ou, .an, .en, .ang, .eng, .ong, .i, .u, .uo,
      .ui, .uan, .un]
  | y => [.a, .o, .e, .ao, .ou, .an, .«in», .ang, .ing, .ong, .i, .u, .ue,
      .uan, .un]
  | w => [.a, .o, .ai, .ei, .an, .en, .ang, .eng, .u]

namespace Syllable

/-- The canonical spelling: the letters of the initial, then of the final. -/
def text (s : Syllable) : List Char := s.initial.text ++ s.final.text

/-- A syllable of the table. -/
def IsFull (s : Syllable) : Prop := s.final ∈ s.initial.finals

/-- An initial typed without its final. -/
def IsBare (s : Syllable) : Prop := s.initial ≠ .zero ∧ s.final = .bare

/-- A syllable that can be encoded. -/
def IsKnown (s : Syllable) : Prop := s.IsFull ∨ s.IsBare

instance (s : Syllable) : Decidable s.IsFull := by unfold IsFull; infer_instance

instance (s : Syllable) : Decidable s.IsBare := by unfold IsBare; infer_instance

instance (s : Syllable) : Decidable s.IsKnown := by unfold IsKnown; infer_instance

/-- The full syllables, by initial and then as the table lists them. -/
def full : List Syllable :=
  Initial.all.flatMap fun i => i.finals.map fun f => ⟨i, f⟩

theorem mem_full {s : Syllable} : s ∈ full ↔ s.IsFull := by
  obtain ⟨i, f⟩ := s
  simp [full, IsFull, Initial.mem_all]

/-- A full syllable is never one whose final was left out. -/
theorem IsFull.final_ne_bare {s : Syllable} (h : s.IsFull) : s.final ≠ .bare := by
  obtain ⟨i, f⟩ := s
  rintro rfl
  revert h
  cases i <;> decide

end Syllable

end Pinyin
