import Pinyin.Proofs.Segmentation.Longest

/-!
# Pinyin.Proofs.Segmentation.Pieces

The letters of the pieces that a text is cut into, and where one may be parted.

* `BeginsWith`, `EndsWith` — the first or the last letter has a property;
* `Syllable.HasVowel`, `Syllable.HasOnset` — the full syllables without the interjections "m", "n"
  and "ng", and those that begin with a consonant;
* `Syllable.parted_cases` — a syllable is parted in its final, or before the "h" of its initial;
* `IsPiece.eq_coda` — where a consonant stands inside a piece, the piece is nearly at its end;
* `IsPiece.exists_hasVowel`, `IsPiece.exists_hasVowel_front` — a piece with a vowel is a syllable,
  and the fronts of one that begins with a vowel are syllables too;
* `Syllable.inside_cases`, `Syllable.HasVowel.isReadable_glide` — which letters stand inside a
  syllable, and what ends with a glide there.
-/

namespace Pinyin

/-! ## First and last letters -/

/-- The first letter has a property. -/
def BeginsWith (p : Char → Bool) (cs : List Char) : Prop := cs.head?.any p = true

/-- The last letter has a property. -/
def EndsWith (p : Char → Bool) (cs : List Char) : Prop := cs.getLast?.any p = true

instance (p : Char → Bool) (cs : List Char) : Decidable (BeginsWith p cs) := by
  unfold BeginsWith; infer_instance

instance (p : Char → Bool) (cs : List Char) : Decidable (EndsWith p cs) := by
  unfold EndsWith; infer_instance

section

variable {p : Char → Bool} {c : Char} {front back cs : List Char}

@[simp] theorem beginsWith_nil : ¬ BeginsWith p [] := by simp [BeginsWith]

@[simp] theorem beginsWith_cons : BeginsWith p (c :: cs) ↔ p c = true := Iff.rfl

theorem BeginsWith.exists_cons (h : BeginsWith p cs) : ∃ c tail, cs = c :: tail ∧ p c = true := by
  cases cs with
  | nil => exact absurd h beginsWith_nil
  | cons c tail => exact ⟨c, tail, rfl, h⟩

theorem beginsWith_append (h : front ≠ []) : BeginsWith p (front ++ back) ↔ BeginsWith p front := by
  rw [BeginsWith, BeginsWith, List.head?_append, List.head?_eq_some_head h, Option.some_or]

@[simp] theorem endsWith_nil : ¬ EndsWith p [] := by simp [EndsWith]

@[simp] theorem endsWith_singleton : EndsWith p [c] ↔ p c = true := Iff.rfl

theorem endsWith_append (h : back ≠ []) : EndsWith p (front ++ back) ↔ EndsWith p back := by
  rw [EndsWith, EndsWith, List.getLast?_append, List.getLast?_eq_some_getLast h, Option.some_or]

end

/-! ## Kinds of letters -/

/-- The letters that may have an "h" behind them, and begin the syllables of six letters. -/
def sibilants : List Char := ['z', 'c', 's']

/-- The vowels that no syllable begins with. -/
def glides : List Char := ['i', 'u', 'v']

/-- What a piece may end with from one of its consonants on. -/
def codas : List (List Char) := [['n'], ['g'], ['r'], ['n', 'g']]

/-- A syllable may end with this letter: no "h" follows it. -/
def isFinalLetter (c : Char) : Bool := !sibilants.contains c

/-- An initial is one consonant, or a sibilant and an "h". -/
theorem Initial.text_cases (i : Initial) :
    i = .zero ∨ ∃ c, isVowel c = false ∧ (i.text = [c] ∨ c ∈ sibilants ∧ i.text = [c, 'h']) := by
  cases i <;>
    first
    | exact .inl rfl
    | exact .inr ⟨_, by decide, .inl rfl⟩
    | exact .inr ⟨_, by decide, .inr ⟨by decide, rfl⟩⟩

/-- So a text with an initial other than the absent one begins with a consonant. -/
theorem Initial.beginsWith_append {i : Initial} (h : i ≠ .zero) (cs : List Char) :
    BeginsWith (!isVowel ·) (i.text ++ cs) := by
  obtain ⟨c, hc, htext | ⟨-, htext⟩⟩ := i.text_cases.resolve_left h <;> simp [htext, hc]

/-- And what begins with a vowel has none. -/
theorem Initial.eq_zero_of_beginsWith {i : Initial} {cs : List Char}
    (h : BeginsWith isVowel (i.text ++ cs)) : i = .zero := by
  refine Decidable.byContradiction fun hinitial => ?_
  obtain ⟨c, tail, htext, hc⟩ := h.exists_cons
  have hconsonant := Initial.beginsWith_append hinitial cs
  rw [htext, beginsWith_cons, hc] at hconsonant
  cases hconsonant

namespace Final

/-- What holds wherever the texts of some finals are parted is checked part by part. -/
theorem forall_parted {fs : List Final} {Q : List Char → List Char → Prop}
    (h : ∀ f ∈ fs, ∀ k ∈ List.range 5, Q (f.text.take k) (f.text.drop k)) {f : Final} (hf : f ∈ fs)
    {front back : List Char} (htext : f.text = front ++ back) : Q front back := by
  have hall : ∀ f ∈ all, f.text.length ≤ 4 := by decide
  have hlen : front.length < 5 := by
    have hle := hall f (mem_all f)
    rw [htext, List.length_append] at hle
    omega
  have hparted := h f hf front.length (List.mem_range.2 hlen)
  rwa [htext, List.take_left, List.drop_left] at hparted

variable {f : Final}

/-- All letters of finals are glides or can be lent. -/
theorem mem_glides_or_borrowable {c : Char} (h : c ∈ f.text) : c ∈ glides ∨ c ∈ borrowable := by
  have hall : ∀ f ∈ all,
      f.text.all (fun c => glides.contains c || borrowable.contains c) = true := by decide
  simpa using List.all_eq_true.1 (hall f (mem_all f)) c h

theorem endsWith (h : f.text ≠ []) : EndsWith isFinalLetter f.text := by
  have hall : ∀ f ∈ all, f.text ≠ [] → EndsWith isFinalLetter f.text := by decide
  exact hall f (mem_all f) h

end Final

/-! ## Parted syllables -/

namespace Syllable

variable {s : Syllable} {front back : List Char} {c : Char}

/-- Inside a syllable a letter of its final stands, or the "h" of its initial. -/
theorem parted_cases (htext : s.text = front ++ c :: back) (hne : front ≠ []) :
    (∃ mid, front = s.initial.text ++ mid ∧ s.final.text = mid ++ c :: back) ∨
      c = 'h' ∧ front ∈ sibilants.map ([·]) := by
  rcases List.append_eq_append_iff.1 htext with ⟨mid, hfront, hfinal⟩ | ⟨mid, hinitial, hback⟩
  · exact .inl ⟨mid, hfront, hfinal⟩
  cases mid with
  | nil => exact .inl ⟨[], by simpa using hinitial.symm, by simpa using hback.symm⟩
  | cons x mid =>
      obtain ⟨rfl, rfl⟩ := List.cons.inj hback
      obtain ⟨y, front, rfl⟩ := List.exists_cons_of_ne_nil hne
      rcases s.initial.text_cases with hzero | ⟨z, -, hone | ⟨hz, htwo⟩⟩
      · rw [hzero] at hinitial
        cases hinitial
      · rw [hone] at hinitial
        simp at hinitial
      · rw [htwo] at hinitial
        cases front with
        | nil =>
            simp only [List.cons_append, List.nil_append, List.cons.injEq] at hinitial
            obtain ⟨rfl, rfl, -⟩ := hinitial
            exact .inr ⟨rfl, List.mem_map_of_mem hz⟩
        | cons w front => simp at hinitial

/-- A letter inside a syllable is a glide, or it can be lent, or it is the "h" of an initial. -/
theorem inside_cases (htext : s.text = front ++ c :: back) (hne : front ≠ []) :
    c ∈ glides ∨ c ∈ borrowable ∨ c = 'h' ∧ front ∈ sibilants.map ([·]) := by
  rcases parted_cases htext hne with ⟨mid, -, hfinal⟩ | hinitial
  · have hc : c ∈ s.final.text := by simp [hfinal]
    exact (Final.mem_glides_or_borrowable hc).imp id .inl
  · exact .inr (.inr hinitial)

/-- A full syllable that is none of the interjections "m", "n" and "ng". -/
def HasVowel (s : Syllable) : Prop := s.IsFull ∧ s.final ≠ .empty ∧ s.final ≠ .ng

/-- A full syllable with an initial and a final. -/
def HasOnset (s : Syllable) : Prop := s.IsFull ∧ s.initial ≠ .zero ∧ s.final ≠ .empty

instance (s : Syllable) : Decidable s.HasVowel := by unfold HasVowel; infer_instance

instance (s : Syllable) : Decidable s.HasOnset := by unfold HasOnset; infer_instance

namespace HasVowel

theorem beginsWith_final (h : s.HasVowel) : BeginsWith isVowel s.final.text := by
  have hall : ∀ f ∈ Final.lettered, f ≠ .ng → BeginsWith isVowel f.text := by decide
  exact hall s.final (Final.mem_lettered h.1.final_ne_bare h.2.1) h.2.2

theorem final_text_ne_nil (h : s.HasVowel) : s.final.text ≠ [] := by
  intro hnil
  have hbegins := h.beginsWith_final
  rw [hnil] at hbegins
  exact beginsWith_nil hbegins

theorem text_ne_nil (h : s.HasVowel) : s.text ≠ [] := IsKnown.text_ne_nil (.inl h.1)

theorem any_isVowel (h : s.HasVowel) : s.text.any isVowel = true := by
  obtain ⟨c, tail, htext, hc⟩ := h.beginsWith_final.exists_cons
  simp [text, htext, hc]

theorem endsWith (h : s.HasVowel) : EndsWith isFinalLetter s.text := by
  rw [text, endsWith_append h.final_text_ne_nil]
  exact Final.endsWith h.final_text_ne_nil

/-- Before a glide one letter is left of a syllable that is cut where a vowel or a coda begins. -/
theorem eq_singleton_of_glide (h : s.HasVowel) (htext : s.text = front ++ c :: back)
    (hglide : c ∈ glides) (hfront : BeginsWith isVowel front ∨ front ∈ codas) :
    front ∈ borrowable.map ([·]) := by
  have hne : front ≠ [] := by
    rintro rfl
    rcases hfront with hvowel | hcoda
    · exact beginsWith_nil hvowel
    · exact absurd hcoda (by decide)
  rcases parted_cases htext hne with ⟨mid, rfl, hfinal⟩ | ⟨rfl, -⟩
  · rcases hfront with hvowel | hcoda
    · -- There is no initial, and the final is one of few.
      have hzero := Initial.eq_zero_of_beginsWith hvowel
      have hall := @Final.forall_parted Initial.zero.finals
        (fun front back => BeginsWith glides.contains back → front ≠ [] →
          front ∈ borrowable.map ([·])) (by decide)
      have hfull : s.final ∈ s.initial.finals := h.1
      rw [hzero] at hfull hne ⊢
      exact hall hfull hfinal (by simpa using hglide) hne
    · -- No final begins with the consonants of a coda.
      have hnone : ∀ coda ∈ codas, coda.any isVowel = false := by decide
      have hmid : mid = [] := by
        refine Decidable.byContradiction fun hmid => ?_
        have hvowel := h.beginsWith_final
        rw [hfinal, beginsWith_append hmid] at hvowel
        obtain ⟨x, tail, rfl, hx⟩ := hvowel.exists_cons
        simpa [hx] using hnone _ hcoda
      have hall : ∀ i ∈ Initial.all, i.text ∈ codas → i.text ∈ borrowable.map ([·]) := by
        decide
      rw [hmid, List.append_nil] at hcoda ⊢
      exact hall s.initial (Initial.mem_all _) hcoda
  · exact absurd hglide (by decide)

end HasVowel

namespace HasOnset

theorem hasVowel (h : s.HasOnset) : s.HasVowel := by
  refine ⟨h.1, h.2.2, fun hng => ?_⟩
  have hall : ∀ i ∈ Initial.all, Final.ng ∈ i.finals → i = .zero := by decide
  have hfull : s.final ∈ s.initial.finals := h.1
  exact h.2.1 (hall s.initial (Initial.mem_all _) (hng ▸ hfull))

/-- A syllable with an onset is a consonant and more; if no vowel follows, it is an "h" behind a
sibilant. -/
theorem text_eq (h : s.HasOnset) :
    ∃ c d tail, s.text = c :: d :: tail ∧ isVowel c = false ∧
      (isVowel d = true ∨ c ∈ sibilants) := by
  obtain ⟨d, tail, hfinal, hd⟩ := h.hasVowel.beginsWith_final.exists_cons
  obtain ⟨c, hc, hone | ⟨hsibilant, htwo⟩⟩ := s.initial.text_cases.resolve_left h.2.1
  · exact ⟨c, d, tail, by simp [text, hone, hfinal], hc, .inl hd⟩
  · exact ⟨c, 'h', d :: tail, by simp [text, htwo, hfinal], hc, .inr hsibilant⟩

end HasOnset

end Syllable

/-! ## Pieces -/

/-- A spelling has at most six letters. -/
theorem Spelling.length_letters_le (sp : Spelling) : sp.letters.length ≤ maxSpelling := by
  have hinitial : ∀ i ∈ Initial.all, i.text.length ≤ 2 := by decide
  have hfinal : ∀ f ∈ Final.all, ∀ swapped, (finalLetters f swapped).length ≤ 4 := by decide
  rw [letters, List.length_append]
  exact Nat.add_le_add (hinitial _ (Initial.mem_all _)) (hfinal _ (Final.mem_all _) _)

/-- A piece is typed with the letters of a spelling; those of an initial alone have a bare final. -/
theorem IsPiece.exists_letters {fz : FuzzySet} {cs : List Char} (h : IsPiece fz cs) :
    ∃ sp : Spelling, sp.letters = cs := by
  cases h with
  | inl hread =>
      cases hsp : Spelling.ofText? cs with
      | none => simp [IsReadable, fullReadings, hsp] at hread
      | some sp => exact ⟨sp, Spelling.letters_of_ofText? hsp⟩
  | inr hinitial =>
      obtain ⟨i, hi⟩ := Option.isSome_iff_exists.1 hinitial
      refine ⟨⟨i, .bare, false⟩, ?_⟩
      rw [← Initial.text_eq_of_ofText? hi]
      exact List.append_nil i.text

/-- Without fuzzy rules the full syllables are read. -/
theorem isReadable_empty_iff {cs : List Char} :
    IsReadable FuzzySet.empty cs ↔ ∃ s : Syllable, s.IsFull ∧ s.text = cs := by
  constructor
  · intro h
    obtain ⟨r, hr⟩ := List.exists_mem_of_ne_nil _ h
    obtain ⟨-, hfull, htext⟩ := mem_fullReadings_empty hr
    exact ⟨r.syllable, hfull, htext⟩
  · rintro ⟨s, hs, rfl⟩
    exact List.ne_nil_of_mem (mem_fullReadings_text hs _)

/-- The pieces are the known syllables then. -/
theorem isPiece_empty_iff {cs : List Char} :
    IsPiece FuzzySet.empty cs ↔ ∃ s : Syllable, s.IsKnown ∧ s.text = cs := by
  constructor
  · rintro (hread | hinitial)
    · obtain ⟨s, hs, htext⟩ := isReadable_empty_iff.1 hread
      exact ⟨s, .inl hs, htext⟩
    · obtain ⟨i, hi⟩ := Option.isSome_iff_exists.1 hinitial
      have hne : i ≠ .zero := by
        rintro rfl
        rw [← Initial.text_eq_of_ofText? hi] at hi
        cases hi
      refine ⟨⟨i, .bare⟩, .inr ⟨hne, rfl⟩, ?_⟩
      rw [Syllable.text_bare, Initial.text_eq_of_ofText? hi]
  · rintro ⟨s, hs, rfl⟩
    exact hs.isPiece FuzzySet.empty

namespace IsPiece

variable {cs front back : List Char}

/-- A piece has at most six letters. -/
theorem length_le {fz : FuzzySet} (h : IsPiece fz cs) : cs.length ≤ maxSpelling := by
  obtain ⟨sp, rfl⟩ := h.exists_letters
  exact sp.length_letters_le

/-- A piece that begins with a vowel is a syllable without an initial. -/
theorem exists_zero (h : IsPiece FuzzySet.empty cs) (hvowel : BeginsWith isVowel cs) :
    ∃ f ∈ Initial.zero.finals, f.text = cs := by
  obtain ⟨⟨i, f⟩, hs, rfl⟩ := isPiece_empty_iff.1 h
  obtain rfl : i = .zero := Initial.eq_zero_of_beginsWith hvowel
  exact ⟨f, hs.resolve_right fun hbare => hbare.1 rfl, rfl⟩

/-- No piece begins with a glide. -/
theorem not_glide (h : IsPiece FuzzySet.empty cs) : ¬ BeginsWith glides.contains cs := by
  intro hglide
  have hvowel : BeginsWith isVowel cs := by
    have hall : glides.all isVowel = true := by decide
    obtain ⟨c, tail, rfl, hc⟩ := hglide.exists_cons
    exact List.all_eq_true.1 hall c (by simpa using hc)
  have hall : ∀ f ∈ Initial.zero.finals, ¬ BeginsWith glides.contains f.text := by decide
  obtain ⟨f, hf, rfl⟩ := h.exists_zero hvowel
  exact hall f hf hglide

/-- A piece with a vowel is a syllable. -/
theorem exists_hasVowel (h : IsPiece FuzzySet.empty cs) (hvowel : cs.any isVowel = true) :
    ∃ s : Syllable, s.HasVowel ∧ s.text = cs := by
  obtain ⟨s, hs, rfl⟩ := isPiece_empty_iff.1 h
  have hfinal : s.final.text.any isVowel = true := by
    rwa [Syllable.text, List.any_append, Spelling.any_isVowel_initial, Bool.false_or] at hvowel
  have hother : ∀ f : Final, f.text.any isVowel = false → s.final ≠ f := by
    rintro f hnone rfl
    rw [hfinal] at hnone
    cases hnone
  refine ⟨s, ⟨hs.resolve_right fun hbare => ?_, hother .empty rfl, hother .ng rfl⟩, rfl⟩
  exact hother .bare rfl hbare.2

/-- A piece of more than one letter that ends with one that can be lent is a syllable. -/
theorem isReadable_of_borrowable (h : IsPiece FuzzySet.empty cs) (hlen : 1 < cs.length)
    (hlast : EndsWith borrowable.contains cs) : IsReadable FuzzySet.empty cs := by
  obtain ⟨s, hfull | hbare, rfl⟩ := isPiece_empty_iff.1 h
  · exact isReadable_empty_iff.2 ⟨s, hfull, rfl⟩
  · have hall : ∀ i ∈ Initial.all, 1 < i.text.length → ¬ EndsWith borrowable.contains i.text := by
      decide
    obtain ⟨i, -, rfl⟩ := hbare.exists_eq
    rw [Syllable.text_bare] at hlen hlast
    exact (hall i (Initial.mem_all i) hlen hlast).elim

/-- A piece of more than one letter takes no "h" at its end. -/
theorem endsWith_of_length (h : IsPiece FuzzySet.empty cs) (hlen : 1 < cs.length) :
    EndsWith isFinalLetter cs := by
  obtain ⟨s, -, rfl⟩ := isPiece_empty_iff.1 h
  by_cases hnil : s.final.text = []
  · have hall : ∀ i ∈ Initial.all, 1 < i.text.length → EndsWith isFinalLetter i.text := by
      decide
    rw [Syllable.text, hnil, List.append_nil] at hlen ⊢
    exact hall s.initial (Initial.mem_all _) hlen
  · rw [Syllable.text, endsWith_append hnil]
    exact Final.endsWith hnil

/-- **Where a consonant stands inside a piece**, other than the "h" of an initial, hardly anything
follows it. -/
theorem eq_coda (h : IsPiece FuzzySet.empty (front ++ back)) (hfront : EndsWith isFinalLetter front)
    (hback : BeginsWith (!isVowel ·) back) : back ∈ codas := by
  obtain ⟨s, -, htext⟩ := isPiece_empty_iff.1 h
  have hne : front ≠ [] := by
    rintro rfl
    exact endsWith_nil hfront
  obtain ⟨c, tail, rfl, hc⟩ := hback.exists_cons
  rcases Syllable.parted_cases htext hne with ⟨mid, -, hfinal⟩ | ⟨-, hsibilant⟩
  · have hall := @Final.forall_parted Final.all
      (fun _ back => BeginsWith (!isVowel ·) back → back ∈ codas) (by decide)
    exact hall (Final.mem_all _) hfinal hc
  · have hall : ∀ cs ∈ sibilants.map ([·]), ¬ EndsWith isFinalLetter cs := by decide
    exact (hall front hsibilant hfront).elim

/-- The fronts of a piece that begins with a vowel are syllables. -/
theorem exists_hasVowel_front (h : IsPiece FuzzySet.empty (front ++ back))
    (hfront : BeginsWith isVowel front) : ∃ s : Syllable, s.HasVowel ∧ s.text = front := by
  obtain ⟨c, tail, rfl, hc⟩ := hfront.exists_cons
  obtain ⟨f, hf, htext⟩ := h.exists_zero hc
  have hall := @Final.forall_parted Initial.zero.finals
    (fun front _ => BeginsWith isVowel front → ∃ f ∈ Initial.zero.finals, f.text = front)
    (by decide)
  obtain ⟨f', hf', hletters⟩ := hall hf htext hc
  have hpiece : IsPiece FuzzySet.empty (c :: tail) :=
    isPiece_empty_iff.2 ⟨⟨.zero, f'⟩, .inl hf', hletters⟩
  exact hpiece.exists_hasVowel (by simp [hc])

end IsPiece

/-- The longest piece is not the front of a longer one. -/
theorem not_isPiece_longer {rest back : List Char} {c : Char}
    (h : rest.drop (longestMatch FuzzySet.empty rest).length = c :: back) :
    ¬ IsPiece FuzzySet.empty (rest.take (longestMatch FuzzySet.empty rest).length ++ [c]) := by
  intro hlonger
  have hlt : (longestMatch FuzzySet.empty rest).length < rest.length := by
    have hlen := congrArg List.length h
    rw [List.length_drop, List.length_cons] at hlen
    omega
  have htake : rest.take (longestMatch FuzzySet.empty rest).length ++ [c]
      = rest.take ((longestMatch FuzzySet.empty rest).length + 1) := by
    rw [List.take_add, h]
    rfl
  have hle := hlonger.length_le
  rw [htake, List.length_take, Nat.min_eq_left hlt] at hle
  exact Nat.not_succ_le_self _ (le_length_longestMatch hle hlt (htake ▸ hlonger))

/-! ## Syllables as pieces -/

namespace Syllable.HasVowel

variable {s : Syllable} {front mid back : List Char} {c : Char}

theorem isReadable (h : s.HasVowel) : IsReadable FuzzySet.empty s.text :=
  isReadable_empty_iff.2 ⟨s, h.1, rfl⟩

theorem isPiece (h : s.HasVowel) : IsPiece FuzzySet.empty s.text := .inl h.isReadable

/-- A syllable with a vowel is read in no other way. -/
theorem readings_text (h : s.HasVowel) : readings FuzzySet.empty s.text = [⟨s, false⟩] := by
  have hbare : bareReadings FuzzySet.empty s.text = [] := by
    rw [bareReadings]
    cases hi : Initial.ofText? s.text with
    | none => rfl
    | some i =>
        have hnone := Spelling.any_isVowel_initial i
        rw [Initial.text_eq_of_ofText? hi, h.any_isVowel] at hnone
        cases hnone
  rw [readings, fullReadings_text h.1, hbare]
  rfl

/-- What stands before a glide is a syllable with it, from the beginning of the syllable on or from
a letter that can be lent. -/
theorem isReadable_glide (h : s.HasVowel) (htext : s.text = front ++ (mid ++ c :: back))
    (hmid : mid ≠ []) (hglide : c ∈ glides)
    (hfront : front = [] ∨ BeginsWith borrowable.contains mid) :
    IsReadable FuzzySet.empty (mid ++ [c]) := by
  by_cases hnil : front = []
  · -- The final ends with the glide, or the glide is a final itself.
    subst hnil
    have htable : ∀ i ∈ Initial.all, ∀ f ∈ i.finals, ∀ k ∈ List.range 5,
        BeginsWith glides.contains (f.text.drop k) →
          ∃ f' ∈ i.finals, f'.text = f.text.take k ++ (f.text.drop k).take 1 := by decide
    have hall := @Final.forall_parted s.initial.finals
      (fun front back => BeginsWith glides.contains back →
        ∃ f' ∈ s.initial.finals, f'.text = front ++ back.take 1)
      (htable s.initial (Initial.mem_all _))
    rcases Syllable.parted_cases htext hmid with ⟨pre, rfl, hfinal⟩ | ⟨rfl, -⟩
    · obtain ⟨f', hf', hletters⟩ := hall h.1 hfinal (by simpa using hglide)
      refine isReadable_empty_iff.2 ⟨⟨s.initial, f'⟩, hf', ?_⟩
      rw [Syllable.text, hletters, List.append_assoc]
      rfl
    · exact absurd hglide (by decide)
  · -- Only diphthongs go on with a glide.
    have hall := @Final.forall_parted Final.all
      (fun _ tail => BeginsWith borrowable.contains tail → ∀ k ∈ List.range tail.length,
        BeginsWith glides.contains (tail.drop (k + 1)) →
          ∃ f' ∈ Initial.zero.finals, f'.text = tail.take (k + 2))
      (by decide)
    obtain ⟨x, mid, rfl, hx⟩ := (hfront.resolve_left hnil).exists_cons
    rcases Syllable.parted_cases htext hnil with ⟨pre, -, hfinal⟩ | ⟨rfl, -⟩
    · have hrange : mid.length ∈ List.range (x :: (mid ++ c :: back)).length := by
        rw [List.mem_range, List.length_cons, List.length_append]
        omega
      obtain ⟨f', hf', hletters⟩ :=
        hall (Final.mem_all _) hfinal hx mid.length hrange (by simpa using hglide)
      refine isReadable_empty_iff.2 ⟨⟨.zero, f'⟩, hf', hletters.trans ?_⟩
      exact congrArg (x :: ·) (List.take_length_add_append 1)
    · exact absurd hx (by decide)

end Syllable.HasVowel

end Pinyin
