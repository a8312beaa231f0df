/-!
# Pinyin.Syllable.Initial

The initials of Mandarin syllables: the consonant a syllable begins with, or
none.  Each initial has

* a `number` from 1 to 24, the first byte of a syllable code;
* a `text`, the letters it is typed with;
* `ofNumber?` and `ofText?`, which read the two back.
-/

namespace Pinyin

/-- An initial; `zero` is the absent one, as in "an". -/
inductive Initial where
  | zero | b | p | m | f | d | t | n | l | g | k | h | j | q | x
  | zh | ch | sh | r | z | c | s | y | w
  deriving DecidableEq, Repr

namespace Initial

/-- All initials in the order of their numbers. -/
def all : List Initial :=
  [.zero, .b, .p, .m, .f, .d, .t, .n, .l, .g, .k, .h, .j, .q, .x,
   .zh, .ch, .sh, .r, .z, .c, .s, .y, .w]

/-- The place of an initial in the table, counted from one. -/
def number : Initial → Nat
  | zero => 1 | b => 2 | p => 3 | m => 4 | f => 5 | d => 6 | t => 7 | n => 8
  | l => 9 | g => 10 | k => 11 | h => 12 | j => 13 | q => 14 | x => 15
  | zh => 16 | ch => 17 | sh => 18 | r => 19 | z => 20 | c => 21 | s => 22
  | y => 23 | w => 24

/-- The letters of an initial; the zero initial has none. -/
def text : Initial → List Char
  | zero => []
  | b => ['b'] | p => ['p'] | m => ['m'] | f => ['f'] | d => ['d']
  | t => ['t'] | n => ['n'] | l => ['l'] | g => ['g'] | k => ['k']
  | h => ['h'] | j => ['j'] | q => ['q'] | x => ['x']
  | zh => ['z', 'h'] | ch => ['c', 'h'] | sh => ['s', 'h']
  | r => ['r'] | z => ['z'] | c => ['c'] | s => ['s'] | y => ['y'] | w => ['w']

/-- The initial with a given number. -/
def ofNumber? (k : Nat) : Option Initial :=
  all.find? fun i => i.number == k

/-- The initial typed with the given letters; no letters name none. -/
def ofText? (cs : List Char) : Option Initial :=
  if cs.isEmpty then none else all.find? fun i => i.text == cs

theorem mem_all (i : Initial) : i ∈ all := by
  cases i <;> decide

theorem ofNumber?_number (i : Initial) : ofNumber? i.number = some i := by
  cases i <;> rfl

theorem number_eq_of_ofNumber? {k : Nat} {i : Initial} (h : ofNumber? k = some i) :
    i.number = k := by
  simpa using List.find?_some h

/-- Numbers tell initials apart. -/
theorem number_injective {i₁ i₂ : Initial} (heq : i₁.number = i₂.number) : i₁ = i₂ := by
  have hi := ofNumber?_number i₁
  rw [heq, ofNumber?_number] at hi
  exact (Option.some.inj hi).symm

theorem number_lt (i : Initial) : i.number < 256 := by
  cases i <;> decide

theorem ofText?_text {i : Initial} (h : i ≠ .zero) : ofText? i.text = some i := by
  cases i <;> first | rfl | exact absurd rfl h

theorem text_eq_of_ofText? {cs : List Char} {i : Initial} (h : ofText? cs = some i) :
    i.text = cs := by
  unfold ofText? at h
  split at h
  · cases h
  · simpa using List.find?_some h

end Initial

end Pinyin
