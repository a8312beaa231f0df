import Pinyin.Proofs.Lexicon.Index

/-!
# Pinyin.Proofs.Lexicon.Lookup

Looking up the words that a way through a graph spells.

* `CutGraph.IsChoice` — one reading is chosen for each edge of a way that is no separator;
* `lookup_eq` — a way along edges is looked up by the readings of these edges;
* `lookup_nearest` — found are exactly the entries that some choice of readings spells, each word
  with an index once, by its fewest fuzzy readings.
-/

namespace Pinyin

namespace CutGraph

variable {g : CutGraph} {path : Path}

/-! ## Edges of a way -/

/-- The edges of a way. -/
def edgesAlong (path : Path) : List (Nat × Nat) := path.zip path.tail

/-- Those of some edges that are no separators. -/
def syllablesAmong (g : CutGraph) (edges : List (Nat × Nat)) : List (Nat × Nat) :=
  edges.filter fun edge => ¬ g.IsSeparator edge.1

/-- The readings of each of them. -/
def readingsAmong (g : CutGraph) (edges : List (Nat × Nat)) : List (List Reading) :=
  (g.syllablesAmong edges).map fun edge => g.readingsOf edge.1 edge.2

/-- One reading is chosen for each edge of a way that is no separator. -/
def IsChoice (g : CutGraph) (path : Path) (choice : List Reading) : Prop :=
  List.Forall₂ (fun r edge => r ∈ g.readingsOf edge.1 edge.2) choice
    (g.syllablesAmong (edgesAlong path))

theorem mem_choices_readingsAmong {choice : List Reading} :
    choice ∈ choices (g.readingsAmong (edgesAlong path)) ↔ g.IsChoice path choice := by
  rw [mem_choices, readingsAmong, List.forall₂_map_right_iff, IsChoice]

/-- A way goes along the edges that it passes. -/
theorem isChain_iff {R : Nat → Nat → Prop} :
    path.IsChain R ↔ ∀ edge ∈ edgesAlong path, R edge.1 edge.2 := by
  induction path with
  | nil => simp [edgesAlong]
  | cons p rest ih =>
      cases rest with
      | nil => simp [edgesAlong]
      | cons q rest =>
          have hedges : edgesAlong (p :: q :: rest) = (p, q) :: edgesAlong (q :: rest) := rfl
          rw [List.isChain_cons_cons, ih, hedges, List.forall_mem_cons]

/-- The edges of a way begin inside the text. -/
theorem lt_size_of_mem_edgesAlong (h : path.IsChain fun p q => q ∈ g.successors p)
    {edge : Nat × Nat} (hedge : edge ∈ edgesAlong path) : edge.1 < g.size := by
  have hforward := lt_of_mem_successors (isChain_iff.1 h edge hedge)
  omega

end CutGraph

/-- The readings on a way, unless a syllable has none. -/
theorem spanReadings_eq {g : CutGraph} {edges : List (Nat × Nat)}
    (h : ∀ edge ∈ edges, edge.1 < g.size) :
    spanReadings g edges
      = .ok (if [] ∈ g.readingsAmong edges then none else some (g.readingsAmong edges)) := by
  induction edges with
  | nil => rfl
  | cons edge edges ih =>
      obtain ⟨start, stop⟩ := edge
      obtain ⟨hstart, hedges⟩ := List.forall_mem_cons.1 h
      have hat : g.separatorAt start = .ok (decide (g.IsSeparator start)) := if_pos hstart
      have hrest := ih hedges
      by_cases hsep : g.IsSeparator start
      · have hskip : g.readingsAmong ((start, stop) :: edges) = g.readingsAmong edges := by
          simp [CutGraph.readingsAmong, CutGraph.syllablesAmong, hsep]
        rw [hskip, ← hrest]
        simp [spanReadings, hat, hsep, bind, Except.bind]
      · have hcons : g.readingsAmong ((start, stop) :: edges)
            = g.readingsOf start stop :: g.readingsAmong edges := by
          simp [CutGraph.readingsAmong, CutGraph.syllablesAmong, hsep]
        rw [hcons]
        cases hreadings : g.readingsOf start stop with
        | nil => simp [spanReadings, hat, hsep, hreadings, bind, Except.bind]
        | cons r rs =>
            by_cases hnone : [] ∈ g.readingsAmong edges <;>
              simp [spanReadings, hat, hsep, hreadings, hrest, hnone, bind, Except.bind, pure,
                Except.pure]

namespace Lexicon

/-! ## Looking up -/

/-- **A way along edges is looked up** by the readings of those that are no separators. -/
theorem lookup_eq (lex : Lexicon) {g : CutGraph} {path : Path}
    (h : path.IsChain fun p q => q ∈ g.successors p) :
    lex.lookup g path = .ok (lex.matchesOf (g.readingsAmong (CutGraph.edgesAlong path))) := by
  rw [lookup, ← CutGraph.edgesAlong, spanReadings_eq fun _ => CutGraph.lt_size_of_mem_edgesAlong h]
  by_cases hnone : [] ∈ g.readingsAmong (CutGraph.edgesAlong path)
  · rw [if_pos hnone, matchesOf_eq_nil hnone]
    rfl
  · rw [if_neg hnone]
    rfl

/-- **Looking up a way finds the nearest of all words that it spells.**  A word with an index is
found once, and exactly if some choice of one reading for each syllable spells the code of an entry
with this word and index; its distance is the least number of fuzzy readings of these choices, and
the code that is told comes with it.  Nothing is found where a syllable has no reading, or where
there is no syllable.  Searching by initials finds the same, in the same order. -/
theorem lookup_nearest (lex : Lexicon) {g : CutGraph} {path : Path}
    (h : path.IsChain fun p q => q ∈ g.successors p) :
    ∃ found, lex.lookup g path = .ok found ∧
      (found.map fun m => (m.word, m.index)).Nodup ∧
      (∀ word index, (∃ m ∈ found, m.word = word ∧ m.index = index) ↔
        ∃ choice code, g.IsChoice path choice ∧ (code, ⟨word, index⟩) ∈ lex.entries ∧
          Spells choice code) ∧
      (∀ m ∈ found,
        (∃ choice, g.IsChoice path choice ∧ (m.code, ⟨m.word, m.index⟩) ∈ lex.entries ∧
          Spells choice m.code ∧ m.distance = fuzziness choice) ∧
        ∀ choice code, g.IsChoice path choice → (code, ⟨m.word, m.index⟩) ∈ lex.entries →
          Spells choice code → m.distance ≤ fuzziness choice) ∧
      ((∃ edge ∈ g.syllablesAmong (CutGraph.edgesAlong path), g.readingsOf edge.1 edge.2 = []) ∨
        g.syllablesAmong (CutGraph.edgesAlong path) = [] → found = []) ∧
      ∀ d : IndexedLexicon, d.IsBuilt → d.lexicon = lex → d.lookup g path = .ok found := by
  have hnearest := lex.isNearest_matchesOf (g.readingsAmong (CutGraph.edgesAlong path))
  have hall : ∀ m, m ∈ lex.allMatches (g.readingsAmong (CutGraph.edgesAlong path)) ↔
      ∃ choice, g.IsChoice path choice ∧ (m.code, ⟨m.word, m.index⟩) ∈ lex.entries ∧
        Spells choice m.code ∧ m.distance = fuzziness choice := by
    intro m
    simp only [mem_allMatches, CutGraph.mem_choices_readingsAmong]
  refine ⟨_, lex.lookup_eq h, hnearest.nodup, fun word index => ⟨?_, ?_⟩, fun m hm => ⟨?_, ?_⟩, ?_,
    ?_⟩
  · rintro ⟨m, hm, rfl, rfl⟩
    obtain ⟨choice, hchoice, hentry, hspells, -⟩ := (hall m).1 (hnearest.subset m hm)
    exact ⟨choice, m.code, hchoice, hentry, hspells⟩
  · rintro ⟨choice, code, hchoice, hentry, hspells⟩
    obtain ⟨best, hbest, hkey, -⟩ := hnearest.covers ⟨word, index, code, fuzziness choice⟩
      ((hall _).2 ⟨choice, hchoice, hentry, hspells, rfl⟩)
    obtain ⟨hword, hindex⟩ := Prod.mk.inj hkey
    exact ⟨best, hbest, hword, hindex⟩
  · exact (hall m).1 (hnearest.subset m hm)
  · intro choice code hchoice hentry hspells
    have hother : (⟨m.word, m.index, code, fuzziness choice⟩ : WordMatch) ∈ lex.allMatches _ :=
      (hall _).2 ⟨choice, hchoice, hentry, hspells, rfl⟩
    exact hnearest.distance_le hm hother rfl
  · rintro (⟨edge, hedge, hnone⟩ | hnone)
    · exact matchesOf_eq_nil (hnone ▸ List.mem_map_of_mem hedge)
    · rw [CutGraph.readingsAmong, hnone]
      rfl
  · rintro d hd rfl
    rw [hd.lookup_eq, lookup_eq _ h]

/-- A word whose first syllable is read with a fuzzy rule. -/
theorem lookup_nearest_sample :
    let lex := empty.insert [8, 15, 12, 7] (by decide) ⟨"你好", 3⟩
    let g := CutGraph.ofPinyin ⟨fun rule => rule = .lN, false⟩ "lihao".toList
    [0, 2, 5].IsChain (fun p q => q ∈ g.successors p) ∧
      ∃ found, lex.lookup g [0, 2, 5] = .ok found ∧
        ∃ m ∈ found, m.word = "你好" ∧ m.index = 3 ∧ m.distance ≤ 1 := by
  intro lex g
  have hway : [0, 2, 5].IsChain fun p q => q ∈ g.successors p := by decide +kernel
  have hchoice : g.IsChoice [0, 2, 5] [⟨⟨.n, .i⟩, true⟩, ⟨⟨.h, .ao⟩, false⟩] := by
    have hedges : g.syllablesAmong (CutGraph.edgesAlong [0, 2, 5]) = [(0, 2), (2, 5)] := by
      decide +kernel
    rw [CutGraph.IsChoice, hedges]
    exact .cons (by decide +kernel) (.cons (by decide +kernel) .nil)
  have hentry : ([8, 15, 12, 7], ⟨"你好", 3⟩) ∈ lex.entries := by decide
  obtain ⟨found, hfound, -, hwords, hnearest, -⟩ := lookup_nearest lex hway
  obtain ⟨m, hm, hword, hindex⟩ :=
    (hwords "你好" 3).2 ⟨_, _, hchoice, hentry, by decide⟩
  have hle := (hnearest m hm).2 _ _ hchoice (hword ▸ hindex ▸ hentry) (by decide)
  exact ⟨hway, found, hfound, m, hm, hword, hindex, hle⟩

end Lexicon

end Pinyin
