import Mathlib.Data.List.Nodup
import Mathlib.Data.List.ProdSigma
import Pinyin.Proofs.Reading.Exact

/-!
# Pinyin.Proofs.Reading.Marks

What the readings of a text are, and how they are marked.

* `partnersIn_sublist`, `Initial.nodup_partners`, `Final.nodup_partners` — more rules leave the
  partners in their order, and no partner comes twice;
* `Spelling.ofText?_eq_some_iff` — a text has one spelling at most;
* `IsFullReading`, `IsBareReading`, `mem_readings_iff` — a reading pairs partners of what is spelled;
* `fuzzy_eq_false_iff` — it is exact where the text is that of its syllable;
* `readings_marked` — each syllable is read once, exact readings come first, and more rules only
  add readings.
-/

namespace Pinyin

/-! ## Partners -/

/-- More rules add partners between those that are there. -/
theorem partnersIn_sublist [DecidableEq α] {fz gz : FuzzySet} (hsub : fz.Subset gz)
    (table : List (FuzzyRule × α × α)) (x : α) :
    (partnersIn table fz x).Sublist (partnersIn table gz x) := by
  simp only [partnersIn, List.cons_sublist_cons]
  induction table with
  | nil => exact List.Sublist.refl _
  | cons entry table ih =>
      obtain ⟨r, a, b⟩ := entry
      have hr := hsub r
      simp only [List.filterMap_cons]
      cases hf : fz r <;> cases hg : gz r <;> grind

/-- All rules at once. -/
def FuzzySet.full : FuzzySet := fun _ => true

theorem FuzzySet.subset_full (fz : FuzzySet) : fz.Subset FuzzySet.full := fun _ _ => rfl

/-- No initial is listed twice, whatever the rules. -/
theorem Initial.nodup_partners (fz : FuzzySet) (i : Initial) : (i.partners fz).Nodup := by
  have hfull : (i.partners FuzzySet.full).Nodup := by cases i <;> decide
  exact hfull.sublist (partnersIn_sublist fz.subset_full Initial.pairs i)

/-- No final is listed twice, although "u" stands in two rules. -/
theorem Final.nodup_partners (fz : FuzzySet) (f : Final) : (f.partners fz).Nodup := by
  have hfull : (f.partners FuzzySet.full).Nodup := by cases f <;> decide
  exact hfull.sublist (partnersIn_sublist fz.subset_full Final.pairs f)

/-- The zero initial is no partner of another one. -/
theorem Initial.ne_zero_of_mem_partners {fz : FuzzySet} {i partner : Initial} (hi : i ≠ .zero)
    (hpartner : partner ∈ i.partners fz) : partner ≠ .zero := by
  have hfull : i ≠ .zero → Initial.zero ∉ i.partners FuzzySet.full := by cases i <;> decide
  rintro rfl
  exact hfull hi ((partnersIn_sublist fz.subset_full Initial.pairs i).subset hpartner)

/-! ## Spellings -/

namespace Spelling

/-- A spelling that can be typed: a final with letters, of which a closing "ng" may be swapped, or
one of the two interjections. -/
def IsTypeable (sp : Spelling) : Prop :=
  sp.final ∈ Final.lettered ∧ (sp.swapped = true → sp.final.swappedText?.isSome) ∨
    sp = ⟨.m, .empty, false⟩ ∨ sp = ⟨.n, .empty, false⟩

theorem mem_lettered_of_finalOf? {cs : List Char} {f : Final} {swapped : Bool}
    (h : finalOf? cs = some (f, swapped)) :
    f ∈ Final.lettered ∧ (swapped = true → f.swappedText?.isSome) := by
  obtain ⟨f', hf', hfound⟩ := List.exists_of_findSome?_eq_some h
  grind

/-- The letters of a final tell it, and whether they are swapped. -/
theorem finalOf?_finalLetters {f : Final} {swapped : Bool} (hf : f ∈ Final.lettered)
    (hswapped : swapped = true → f.swappedText?.isSome) :
    finalOf? (finalLetters f swapped) = some (f, swapped) := by
  have hplain : ∀ f ∈ Final.lettered, finalOf? (finalLetters f false) = some (f, false) := by
    decide +kernel
  have hswap : ∀ f ∈ Final.lettered, f.swappedText?.isSome →
      finalOf? (finalLetters f true) = some (f, true) := by decide +kernel
  cases swapped with
  | false => exact hplain f hf
  | true => exact hswap f hf (hswapped rfl)

/-- **No text has two spellings**, and each spelling is read from its letters. -/
theorem ofText?_eq_some_iff {cs : List Char} {sp : Spelling} :
    ofText? cs = some sp ↔ sp.IsTypeable ∧ sp.letters = cs := by
  constructor
  · intro h
    refine ⟨?_, letters_of_ofText? h⟩
    unfold ofText? at h
    split at h
    · exact .inr (.inl (Option.some.inj h).symm)
    · split at h
      · exact .inr (.inr (Option.some.inj h).symm)
      · obtain ⟨i, -, hi⟩ := List.exists_of_findSome?_eq_some h
        obtain ⟨rest, hrest, hi⟩ := Option.bind_eq_some_iff.1 hi
        obtain ⟨⟨f, swapped⟩, hf, hi⟩ := Option.bind_eq_some_iff.1 hi
        cases hi
        exact .inl (mem_lettered_of_finalOf? hf)
  · rintro ⟨hsp, rfl⟩
    rcases hsp with ⟨hf, hswapped⟩ | rfl | rfl
    · exact ofText?_append_of_finalOf? sp.initial (finalOf?_finalLetters hf hswapped)
    · rfl
    · rfl

end Spelling

/-! ## What is read -/

section

variable {fz : FuzzySet} {cs : List Char} {r : Reading}

/-- A text stands for a full syllable if it spells some initial and final, swapped only where the
rule for it is on, and the syllable pairs a partner of the one with a partner of the other.  The
reading is exact where nothing was swapped and both are as they were spelled. -/
def IsFullReading (fz : FuzzySet) (cs : List Char) (r : Reading) : Prop :=
  ∃ sp : Spelling, (sp.IsTypeable ∧ sp.letters = cs) ∧ (sp.swapped = true → fz .ngGn = true) ∧
    (r.syllable.initial ∈ sp.initial.partners fz ∧ r.syllable.final ∈ sp.final.partners fz) ∧
    r.syllable.IsFull ∧
    r.fuzzy = (sp.swapped || r.syllable.initial != sp.initial || r.syllable.final != sp.final)

theorem mem_fullReadings_iff : r ∈ fullReadings fz cs ↔ IsFullReading fz cs r := by
  obtain ⟨⟨i, f⟩, fuzzy⟩ := r
  have hcandidate : ∀ sp : Spelling, ⟨⟨i, f⟩, fuzzy⟩ ∈ sp.candidates fz ↔
      (i ∈ sp.initial.partners fz ∧ f ∈ sp.final.partners fz) ∧ Syllable.IsFull ⟨i, f⟩ ∧
        fuzzy = (sp.swapped || i != sp.initial || f != sp.final) := by
    intro sp
    simp only [Spelling.candidates, List.mem_flatMap, List.mem_filterMap,
      Option.ite_none_right_eq_some, Option.some.injEq, Reading.mk.injEq, Syllable.mk.injEq]
    constructor
    · rintro ⟨_, hi, _, hf, hfull, ⟨rfl, rfl⟩, rfl⟩
      exact ⟨⟨hi, hf⟩, hfull, rfl⟩
    · rintro ⟨⟨hi, hf⟩, hfull, rfl⟩
      exact ⟨i, hi, f, hf, hfull, ⟨rfl, rfl⟩, rfl⟩
  simp only [IsFullReading, ← Spelling.ofText?_eq_some_iff]
  cases hsp : Spelling.ofText? cs with
  | none => simp [fullReadings, hsp]
  | some sp =>
      simp only [fullReadings, hsp, Spelling.readings]
      cases hsw : sp.swapped <;> cases hgn : fz .ngGn <;>
        simp [mem_exactFirst, hcandidate, hsw]

/-- A text stands for a bare initial if it is that of some initial, of which the other one is a
partner.  The reading is exact where both are the same. -/
def IsBareReading (fz : FuzzySet) (cs : List Char) (r : Reading) : Prop :=
  ∃ i : Initial, (i ≠ .zero ∧ i.text = cs) ∧ r.syllable.initial ∈ i.partners fz ∧
    r.syllable.final = .bare ∧ r.fuzzy = (r.syllable.initial != i)

theorem mem_bareReadings_iff : r ∈ bareReadings fz cs ↔ IsBareReading fz cs r := by
  obtain ⟨⟨partner, f⟩, fuzzy⟩ := r
  have htext : ∀ i, Initial.ofText? cs = some i ↔ i ≠ .zero ∧ i.text = cs := by
    intro i
    constructor
    · intro hi
      have htext := Initial.text_eq_of_ofText? hi
      refine ⟨?_, htext⟩
      rintro rfl
      simp [← htext, Initial.ofText?, Initial.text] at hi
    · rintro ⟨hi, rfl⟩
      exact Initial.ofText?_text hi
  simp only [IsBareReading, ← htext]
  cases hi : Initial.ofText? cs with
  | none => simp [bareReadings, hi]
  | some i => simp [bareReadings, hi]; grind

theorem mem_readings_iff : r ∈ readings fz cs ↔ IsFullReading fz cs r ∨ IsBareReading fz cs r := by
  rw [mem_readings, mem_fullReadings_iff, mem_bareReadings_iff]

/-- More rules only add readings, with the same marks. -/
theorem mem_readings_of_subset {gz : FuzzySet} (hsub : fz.Subset gz) (h : r ∈ readings fz cs) :
    r ∈ readings gz cs := by
  rw [mem_readings_iff] at *
  refine h.imp ?_ ?_
  · rintro ⟨sp, hsp, hswapped, ⟨hi, hf⟩, hrest⟩
    exact ⟨sp, hsp, fun h => hsub _ (hswapped h),
      ⟨mem_partnersIn_of_subset hsub hi, mem_partnersIn_of_subset hsub hf⟩, hrest⟩
  · rintro ⟨i, hi, hpartner, hrest⟩
    exact ⟨i, hi, mem_partnersIn_of_subset hsub hpartner, hrest⟩

/-- Only known syllables are read. -/
theorem isKnown_of_mem_readings (h : r ∈ readings fz cs) : r.syllable.IsKnown := by
  rw [mem_readings_iff] at h
  refine h.imp ?_ ?_
  · rintro ⟨sp, -, -, -, hfull, -⟩
    exact hfull
  · rintro ⟨i, hi, hpartner, hbare, -⟩
    exact ⟨Initial.ne_zero_of_mem_partners hi.1 hpartner, hbare⟩

/-! ## Marks -/

/-- A full reading is exact where its syllable is spelled: no other spelling has the same text. -/
theorem IsFullReading.fuzzy_eq_false_iff (h : IsFullReading fz cs r) :
    r.fuzzy = false ↔ r.syllable.text = cs := by
  obtain ⟨sp, hsp, -, -, hfull, hmark⟩ := h
  rw [← Spelling.ofText?_eq_some_iff] at hsp
  have hexact : r.fuzzy = false ↔ ⟨r.syllable.initial, r.syllable.final, false⟩ = sp := by
    obtain ⟨i, f, swapped⟩ := sp
    simp only [hmark, Bool.or_eq_false_iff, bne_eq_false_iff_eq, Spelling.mk.injEq]
    grind
  rw [hexact]
  constructor
  · rintro rfl
    exact Spelling.letters_of_ofText? hsp
  · rintro rfl
    simpa [Spelling.ofText?_text hfull] using hsp

/-- A bare reading is exact where its initial is typed. -/
theorem IsBareReading.fuzzy_eq_false_iff (h : IsBareReading fz cs r) :
    r.fuzzy = false ↔ r.syllable.text = cs := by
  obtain ⟨i, hi, -, hbare, hmark⟩ := h
  have htext : r.syllable.text = r.syllable.initial.text := by
    simp [Syllable.text, hbare, Final.text]
  rw [hmark, bne_eq_false_iff_eq, htext, ← hi.2]
  exact ⟨congrArg Initial.text, Spelling.initial_eq_of_text_eq⟩

/-- **A reading is exact where the text is that of its syllable.** -/
theorem fuzzy_eq_false_iff (h : r ∈ readings fz cs) : r.fuzzy = false ↔ r.syllable.text = cs :=
  (mem_readings_iff.1 h).elim IsFullReading.fuzzy_eq_false_iff IsBareReading.fuzzy_eq_false_iff

/-- A known syllable is read exactly from its text. -/
theorem mem_readings_of_isKnown {s : Syllable} (h : s.IsKnown) (fz : FuzzySet) :
    ⟨s, false⟩ ∈ readings fz s.text := by
  rw [mem_readings]
  refine h.imp (fun hfull => mem_fullReadings_text hfull fz) fun hbare => ?_
  obtain ⟨i, hi, rfl⟩ := hbare.exists_eq
  rw [Syllable.text_bare]
  exact mem_bareReadings_text hi fz

/-! ## Order -/

theorem perm_exactFirst (rs : List Reading) : (exactFirst rs).Perm rs := by
  simpa [exactFirst] using List.filter_append_perm (fun r => !r.fuzzy) rs

/-- Exact readings come before fuzzy ones. -/
theorem pairwise_exactFirst (rs : List Reading) :
    (exactFirst rs).Pairwise fun r r' => r.fuzzy = true → r'.fuzzy = true := by
  rw [exactFirst, List.pairwise_append]
  refine ⟨List.pairwise_of_forall_mem_list ?_, List.pairwise_of_forall_mem_list ?_, ?_⟩ <;>
    simp +contextual

/-- What a spelling stands for are the full ones among all pairs of partners. -/
theorem map_syllable_candidates (fz : FuzzySet) (sp : Spelling) :
    (sp.candidates fz).map Reading.syllable
      = ((sp.initial.partners fz ×ˢ sp.final.partners fz).map fun p => ⟨p.1, p.2⟩).filter
          fun s => Syllable.IsFull s := by
  have hrow : ∀ i, ((sp.final.partners fz).filterMap fun f =>
        if Syllable.IsFull ⟨i, f⟩ then
          some (⟨⟨i, f⟩, sp.swapped || i != sp.initial || f != sp.final⟩ : Reading)
        else none).map Reading.syllable
      = ((sp.final.partners fz).map fun f => (⟨i, f⟩ : Syllable)).filter
          fun s => Syllable.IsFull s := by
    intro i
    induction sp.final.partners fz with
    | nil => rfl
    | cons f fs ih => by_cases h : Syllable.IsFull ⟨i, f⟩ <;> simp_all
  have hpairs : (sp.initial.partners fz ×ˢ sp.final.partners fz)
      = (sp.initial.partners fz).flatMap fun i => (sp.final.partners fz).map (Prod.mk i) := rfl
  simp only [Spelling.candidates, List.map_flatMap, hrow, hpairs, List.map_map, Function.comp_def,
    List.filter_flatMap]

/-- No full syllable is read twice: it tells which partners it comes from. -/
theorem nodup_fullReadings (fz : FuzzySet) (cs : List Char) :
    ((fullReadings fz cs).map Reading.syllable).Nodup := by
  have hcandidates : ∀ sp : Spelling, ((sp.candidates fz).map Reading.syllable).Nodup := by
    intro sp
    have hpairs := (sp.initial.nodup_partners fz).product (sp.final.nodup_partners fz)
    rw [map_syllable_candidates]
    exact (hpairs.map fun p q h => by grind).filter _
  cases hsp : Spelling.ofText? cs with
  | none => simp [fullReadings, hsp]
  | some sp =>
      simp only [fullReadings, hsp, Spelling.readings]
      split
      · exact List.nodup_nil
      · exact ((perm_exactFirst _).map Reading.syllable).nodup_iff.2 (hcandidates sp)

/-- No bare initial is read twice. -/
theorem nodup_bareReadings (fz : FuzzySet) (cs : List Char) :
    ((bareReadings fz cs).map Reading.syllable).Nodup := by
  cases hi : Initial.ofText? cs with
  | none => simp [bareReadings, hi]
  | some i =>
      have hmap : (bareReadings fz cs).map Reading.syllable
          = (i.partners fz).map fun partner => ⟨partner, .bare⟩ := by
        simp [bareReadings, hi, Function.comp_def]
      rw [hmap]
      exact (i.nodup_partners fz).map fun _ _ h => (Syllable.mk.inj h).1

/-- **No syllable is read twice**: a full one is never bare. -/
theorem nodup_readings (fz : FuzzySet) (cs : List Char) :
    ((readings fz cs).map Reading.syllable).Nodup := by
  rw [readings, ((perm_exactFirst _).map Reading.syllable).nodup_iff, List.map_append,
    List.nodup_append']
  refine ⟨nodup_fullReadings fz cs, nodup_bareReadings fz cs, fun s hfull hbare => ?_⟩
  obtain ⟨r, hr, rfl⟩ := List.mem_map.1 hfull
  obtain ⟨r', hr', hsame⟩ := List.mem_map.1 hbare
  obtain ⟨-, -, -, -, hfull, -⟩ := mem_fullReadings_iff.1 hr
  obtain ⟨-, -, -, hbare, -⟩ := mem_bareReadings_iff.1 hr'
  exact hfull.final_ne_bare (hsame ▸ hbare)

/-! ## All readings -/

/-- **Readings are well marked, and grow with the rules.**  Whatever rules are on, each syllable is
read at most once, and exact readings come before fuzzy ones.  All that is read are known syllables,
and a reading is exact where the text is that of its syllable; every known syllable with this text is
read.  More rules leave all readings there, with their marks. -/
theorem readings_marked (fz : FuzzySet) (cs : List Char) :
    ((readings fz cs).map Reading.syllable).Nodup ∧
    (readings fz cs).Pairwise (fun r r' => r.fuzzy = true → r'.fuzzy = true) ∧
    (∀ r ∈ readings fz cs, r.syllable.IsKnown ∧ (r.fuzzy = false ↔ r.syllable.text = cs)) ∧
    (∀ s : Syllable, s.IsKnown → s.text = cs → ⟨s, false⟩ ∈ readings fz cs) ∧
    ∀ gz : FuzzySet, fz.Subset gz → ∀ r ∈ readings fz cs, r ∈ readings gz cs := by
  refine ⟨nodup_readings fz cs, pairwise_exactFirst _, fun r hr => ?_, ?_, fun gz hsub r hr => ?_⟩
  · exact ⟨isKnown_of_mem_readings hr, fuzzy_eq_false_iff hr⟩
  · rintro s hs rfl
    exact mem_readings_of_isKnown hs fz
  · exact mem_readings_of_subset hsub hr

/-- The rule on "u" and "ou", and a further one on "s" and "sh". -/
theorem readings_marked_sample :
    let few := FuzzySet.ofBits 64
    let more := FuzzySet.ofBits 2112
    few.Subset more ∧ (⟨⟨.s, .u⟩, true⟩ : Reading) ∈ readings few ['s', 'o', 'u'] ∧
      (⟨⟨.s, .u⟩, true⟩ : Reading) ∈ readings more ['s', 'o', 'u'] ∧
      Syllable.IsKnown ⟨.s, .ou⟩ ∧ (⟨⟨.s, .ou⟩, false⟩ : Reading) ∈ readings few ['s', 'o', 'u'] := by
  intro few more
  have hsub : few.Subset more := fun rule => by cases rule <;> decide
  have hread : (⟨⟨.s, .u⟩, true⟩ : Reading) ∈ readings few ['s', 'o', 'u'] := by decide +kernel
  have hknown : Syllable.IsKnown ⟨.s, .ou⟩ := by decide
  obtain ⟨-, -, -, hexact, hmono⟩ := readings_marked few ['s', 'o', 'u']
  exact ⟨hsub, hread, hmono more hsub _ hread, hknown, hexact _ hknown rfl⟩

end

end Pinyin
