import Pinyin.Syllable.Basic

/-!
# Pinyin.Fuzzy

The rules under which one spelling is also read as another: sounds that
speakers of a dialect merge, and letters that typists swap.

* `FuzzyRule` — one rule, `FuzzySet` — the rules that are switched on;
* `FuzzySet.ofBits` — a set given by the bits of a number;
* `Initial.partners`, `Final.partners` — what an initial or final may stand
  for, itself first.
-/

namespace Pinyin

/-- A rule of reading.  `ngGn` reads a closing "gn" as "ng"; every other rule
makes two initials or two finals interchangeable. -/
inductive FuzzyRule where
  | ngGn | vU | anAng | enEng | ianIang | inIng | uOu | uanUang
  | cCh | fH | lN | sSh | zZh | veUe
  deriving DecidableEq, Repr

/-- The bit that stands for a rule. -/
def FuzzyRule.bit : FuzzyRule → Nat
  | ngGn => 0 | vU => 1 | anAng => 2 | enEng => 3 | ianIang => 4 | inIng => 5
  | uOu => 6 | uanUang => 7 | cCh => 8 | fH => 9 | lN => 10 | sSh => 11
  | zZh => 12 | veUe => 13

/-- A set of rules, given by its membership test. -/
def FuzzySet := FuzzyRule → Bool

namespace FuzzySet

/-- No rule: spellings are read as they stand. -/
def empty : FuzzySet := fun _ => false

/-- The rules whose bits are set; other bits have no meaning here. -/
def ofBits (bits : Nat) : FuzzySet := fun r => bits.testBit r.bit

/-- Every rule of the first set belongs to the second. -/
def Subset (fz gz : FuzzySet) : Prop := ∀ r, fz r = true → gz r = true

end FuzzySet

/-- The partners of `x` under a table of rules that each join two values: `x`
itself, then the other side of every rule that is on and names `x`. -/
def partnersIn [DecidableEq α] (table : List (FuzzyRule × α × α)) (fz : FuzzySet)
    (x : α) : List α :=
  x :: table.filterMap fun (r, a, b) =>
    if fz r then
      if a = x then some b else if b = x then some a else none
    else none

/-- The rules on initials, in the order in which partners are listed. -/
def Initial.pairs : List (FuzzyRule × Initial × Initial) :=
  [(.cCh, .c, .ch), (.sSh, .s, .sh), (.zZh, .z, .zh), (.fH, .f, .h), (.lN, .l, .n)]

/-- The rules on finals, in the order in which partners are listed. -/
def Final.pairs : List (FuzzyRule × Final × Final) :=
  [(.anAng, .an, .ang), (.enEng, .en, .eng), (.ianIang, .ian, .iang),
   (.inIng, .«in», .ing), (.uOu, .u, .ou), (.uanUang, .uan, .uang),
   (.vU, .v, .u), (.veUe, .ve, .ue)]

/-- What an initial may stand for, itself first. -/
def Initial.partners (fz : FuzzySet) (i : Initial) : List Initial :=
  partnersIn Initial.pairs fz i

/-- What a final may stand for, itself first. -/
def Final.partners (fz : FuzzySet) (f : Final) : List Final :=
  partnersIn Final.pairs fz f

theorem mem_partnersIn_self [DecidableEq α] (table : List (FuzzyRule × α × α))
    (fz : FuzzySet) (x : α) : x ∈ partnersIn table fz x :=
  List.mem_cons_self

/-- More rules give more partners. -/
theorem mem_partnersIn_of_subset [DecidableEq α] {table : List (FuzzyRule × α × α)}
    {fz gz : FuzzySet} (hsub : fz.Subset gz) {x y : α} (hy : y ∈ partnersIn table fz x) :
    y ∈ partnersIn table gz x := by
  simp only [partnersIn, List.mem_cons, List.mem_filterMap] at hy ⊢
  refine hy.imp_right fun ⟨entry, hmem, heq⟩ => ⟨entry, hmem, ?_⟩
  cases hr : fz entry.1 with
  | false => simp [hr] at heq
  | true => simpa [hr, hsub _ hr] using heq

end Pinyin
