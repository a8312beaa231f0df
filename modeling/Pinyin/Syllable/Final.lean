/-!
# Pinyin.Syllable.Final

The finals of Mandarin syllables: what follows the initial.  Each final has

* a `number` from 0 to 36, the second byte of a syllable code;
* a `text`, the letters it is typed with;
* a `swappedText?`, the same letters with a closing "ng" typed as "gn".
-/

namespace Pinyin

/-- A final.  `bare` stands for a final that was not typed, so that "zh" is an
initial alone; `empty` is the final of the interjections "m" and "n". -/
inductive Final where
  | bare | empty
  | a | o | e | ai | ei | ao | ou | an | en | ang | eng | ong | er
  | i | ia | ie | iao | iu | ian | «in» | iang | ing | iong
  | u | ua | uo | uai | ui | uan | un | uang
  | v | ve | ue | ng
  deriving DecidableEq, Repr

namespace Final

/-- The finals that are written with at least one letter, in the order of
their numbers. -/
def lettered : List Final :=
  [.a, .o, .e, .ai, .ei, .ao, .ou, .an, .en, .ang, .eng, .ong, .er,
   .i, .ia, .ie, .iao, .iu, .ian, .«in», .iang, .ing, .iong,
   .u, .ua, .uo, .uai, .ui, .uan, .un, .uang, .v, .ve, .ue, .ng]

/-- All finals in the order of their numbers. -/
def all : List Final := .bare :: .empty :: lettered

/-- The place of a final in the table, counted from zero. -/
def number : Final → Nat
  | bare => 0 | empty => 1
  | a => 2 | o => 3 | e => 4 | ai => 5 | ei => 6 | ao => 7 | ou => 8 | an => 9
  | en => 10 | ang => 11 | eng => 12 | ong => 13 | er => 14
  | i => 15 | ia => 16 | ie => 17 | iao => 18 | iu => 19 | ian => 20
  | «in» => 21 | iang => 22 | ing => 23 | iong => 24
  | u => 25 | ua => 26 | uo => 27 | uai => 28 | ui => 29 | uan => 30
  | un => 31 | uang => 32 | v => 33 | ve => 34 | ue => 35 | ng => 36

/-- The letters of a final; `bare` and `empty` have none. -/
def text : Final → List Char
  | bare => [] | empty => []
  | a => ['a'] | o => ['o'] | e => ['e']
  | ai => ['a', 'i'] | ei => ['e', 'i'] | ao => ['a', 'o'] | ou => ['o', 'u']
  | an => ['a', 'n'] | en => ['e', 'n']
  | ang => ['a', 'n', 'g'] | eng => ['e', 'n', 'g'] | ong => ['o', 'n', 'g']
  | er => ['e', 'r']
  | i => ['i'] | ia => ['i', 'a'] | ie => ['i', 'e'] | iao => ['i', 'a', 'o']
  | iu => ['i', 'u'] | ian => ['i', 'a', 'n'] | «in» => ['i', 'n']
  | iang => ['i', 'a', 'n', 'g'] | ing => ['i', 'n', 'g']
  | iong => ['i', 'o', 'n', 'g']
  | u => ['u'] | ua => ['u', 'a'] | uo => ['u', 'o'] | uai => ['u', 'a', 'i']
  | ui => ['u', 'i'] | uan => ['u', 'a', 'n'] | un => ['u', 'n']
  | uang => ['u', 'a', 'n', 'g']
  | v => ['v'] | ve => ['v', 'e'] | ue => ['u', 'e'] | ng => ['n', 'g']

/-- The letters of a final in "ng" with these two typed in the wrong order. -/
def swappedText? : Final → Option (List Char)
  | ang => some ['a', 'g', 'n'] | eng => some ['e', 'g', 'n']
  | ong => some ['o', 'g', 'n'] | iang => some ['i', 'a', 'g', 'n']
  | ing => some ['i', 'g', 'n'] | iong => some ['i', 'o', 'g', 'n']
  | uang => some ['u', 'a', 'g', 'n'] | ng => some ['g', 'n']
  | _ => none

/-- The final with a given number. -/
def ofNumber? (k : Nat) : Option Final :=
  all.find? fun f => f.number == k

theorem mem_all (f : Final) : f ∈ all := by
  cases f <;> decide

theorem mem_lettered {f : Final} (hb : f ≠ .bare) (he : f ≠ .empty) : f ∈ lettered := by
  simpa [all, hb, he] using mem_all f

theorem ofNumber?_number (f : Final) : ofNumber? f.number = some f := by
  cases f <;> rfl

theorem number_eq_of_ofNumber? {k : Nat} {f : Final} (h : ofNumber? k = some f) :
    f.number = k := by
  simpa using List.find?_some h

/-- Numbers tell finals apart. -/
theorem number_injective {f g : Final} (h : f.number = g.number) : f = g := by
  have hf := ofNumber?_number f
  rw [h, ofNumber?_number] at hf
  exact (Option.some.inj hf).symm

theorem number_lt (f : Final) : f.number < 256 := by
  cases f <;> decide

end Final

end Pinyin
