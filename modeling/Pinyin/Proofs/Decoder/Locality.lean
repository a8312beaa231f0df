import Pinyin.Proofs.CutGraph.Agreement
import Pinyin.Proofs.Decoder.Move

/-!
# Pinyin.Proofs.Decoder.Locality

What a search tries between two positions depends on the graph between them only:

* `Dictionary.IsLocal` — a dictionary looks at the positions, pieces and readings of a span
  and at nothing else of a graph;
* `isLocal_lookup` — the lookup in a lexicon is local;
* `movesTo_congr` — graphs that agree before a position have the same moves to it.
-/

namespace Pinyin

variable {σ R : Type}

/-- A dictionary finds the same words in two graphs that have the edges of a span alike. -/
def Dictionary.IsLocal (dictionary : Dictionary) : Prop :=
  ∀ g h path, CutGraph.SameSpan g h path → dictionary g path = dictionary h path

/-! ## Looking up in a lexicon -/

/-- An edge of both graphs is read alike as a separator. -/
theorem CutGraph.SameEdge.separatorAt_eq {g h : CutGraph} {start stop : Nat}
    (hedge : SameEdge g h start stop) : g.separatorAt start = h.separatorAt start := by
  have hg := lt_of_mem_successors hedge.1.1
  have hh := lt_of_mem_successors hedge.1.2
  rw [separatorAt, separatorAt, if_pos (by omega), if_pos (by omega)]
  simp only [hedge.isSeparator_iff]

/-- The readings on a way depend on its edges. -/
theorem spanReadings_congr {g h : CutGraph} {path : Path} (hspan : CutGraph.SameSpan g h path) :
    spanReadings g (path.zip path.tail) = spanReadings h (path.zip path.tail) := by
  induction path with
  | nil => rfl
  | cons p rest ih =>
      cases rest with
      | nil => rfl
      | cons q rest =>
          obtain ⟨hedge, htail⟩ := List.isChain_cons_cons.1 hspan
          have hrest := ih htail
          simp only [List.tail_cons] at hrest
          simp only [List.tail_cons, List.zip_cons_cons, spanReadings, hedge.separatorAt_eq,
            hedge.2.1, hrest]

/-- **The lookup in a lexicon is local.** -/
theorem isLocal_lookup (lex : Lexicon) : Dictionary.IsLocal lex.lookup := by
  intro g h path hspan
  rw [Lexicon.lookup, Lexicon.lookup, spanReadings_congr hspan]

/-! ## Moves -/

namespace Decoder

theorem defaultCode_congr {g h : CutGraph} {path : Path} (hspan : CutGraph.SameSpan g h path) :
    defaultCode g path = defaultCode h path := by
  induction path with
  | nil => rfl
  | cons p rest ih =>
      cases rest with
      | nil => rfl
      | cons q rest =>
          obtain ⟨hedge, htail⟩ := List.isChain_cons_cons.1 hspan
          have hrest := ih htail
          simp only [defaultCode, List.tail_cons] at hrest
          simp only [defaultCode, List.tail_cons, List.zip_cons_cons, List.flatMap_cons,
            hedge.2.1, hrest]

/-- The moves on a span depend on its edges. -/
theorem movesOn_congr {d : Decoder σ R} (hlocal : d.dictionary.IsLocal) {g h : CutGraph}
    {path : Path} (hspan : CutGraph.SameSpan g h path) (singlePath : Bool) :
    d.movesOn g singlePath path = d.movesOn h singlePath path := by
  have hcode := defaultCode_congr hspan
  have hwith : withCode g path = withCode h path := by
    funext m
    rw [withCode, withCode, hcode]
  unfold movesOn
  rw [hlocal g h path hspan, hwith]
  split
  · rfl
  · simp only
    by_cases hlen : path.length = 2
    · obtain ⟨p, q, rfl⟩ := List.length_eq_two.1 hlen
      have hedge := (List.isChain_cons_cons.1 hspan).1
      have hraw : rawMatch g [p, q] = rawMatch h [p, q] := by
        simp only [rawMatch, List.headD_cons, List.getLastD_cons, List.getLastD_nil, hcode,
          hedge.2.2]
      rw [hraw]
    · rw [if_pos (.inr hlen), if_pos (.inr hlen)]

/-- Every move leads forward, and stays inside the text. -/
theorem lt_stop_of_mem_movesFrom {d : Decoder σ R} {g : CutGraph} {singlePath : Bool} {p : Nat}
    {mv : Move} (h : mv ∈ d.movesFrom g singlePath p) : p < mv.stop ∧ mv.stop ≤ g.size := by
  rcases mem_movesFrom_cases h with ⟨-, q, hq, rfl⟩ | ⟨path, hpath, hmv⟩
  · exact CutGraph.lt_of_mem_successors hq
  · rw [stop_of_mem_movesOn hmv]
    exact CutGraph.lt_getLastD_of_mem_spansFrom hpath

/-- The moves at a position that lead to another one. -/
def movesTo (d : Decoder σ R) (g : CutGraph) (singlePath : Bool) (p q : Nat) : List Move :=
  (d.movesFrom g singlePath p).filter fun mv => mv.stop = q

theorem mem_movesTo {d : Decoder σ R} {g : CutGraph} {singlePath : Bool} {p q : Nat} {mv : Move} :
    mv ∈ d.movesTo g singlePath p q ↔ mv ∈ d.movesFrom g singlePath p ∧ mv.stop = q := by
  simp [movesTo]

/-- No move leads back, stays, or leaves the text. -/
theorem movesTo_eq_nil {d : Decoder σ R} {g : CutGraph} {singlePath : Bool} {p q : Nat}
    (h : q ≤ p ∨ g.size < q) : d.movesTo g singlePath p q = [] := by
  rw [List.eq_nil_iff_forall_not_mem]
  intro mv hmv
  rw [mem_movesTo] at hmv
  have hlt := lt_stop_of_mem_movesFrom hmv.1
  omega

/-- **Moves are local**: graphs that agree before a position have the same moves to it. -/
theorem movesTo_congr {d : Decoder σ R} (hlocal : d.dictionary.IsLocal) {g h : CutGraph} {q : Nat}
    (hagree : g.AgreeBefore h q) (singlePath : Bool) (p : Nat) :
    d.movesTo g singlePath p q = d.movesTo h singlePath p q := by
  by_cases hp : p < q
  case neg => rw [movesTo_eq_nil (.inl (by omega)), movesTo_eq_nil (.inl (by omega))]
  have hsucc := hagree.successors_eq hp
  have hspans := CutGraph.filter_spansFrom_congr hagree (Nat.le_refl q) d.maxSyllables false p
  have hsep : (if g.IsSeparator p then (g.successors p).filter fun r => r = q else [])
      = if h.IsSeparator p then (h.successors p).filter fun r => r = q else [] := by
    by_cases hnil : g.successors p = []
    · simp [← hsucc, hnil]
    · simp only [hagree.isSeparator_iff hp hnil, hsucc]
  rw [movesTo, movesTo, filter_movesFrom d g singlePath p fun r => r = q,
    filter_movesFrom d h singlePath p fun r => r = q, hsep]
  congr 1
  unfold CutGraph.spans
  rw [← hspans]
  refine List.flatMap_congr fun path hpath => movesOn_congr hlocal ?_ singlePath
  obtain ⟨hmem, hlast⟩ := List.mem_filter.1 hpath
  obtain ⟨a, rest, rfl, hchain⟩ := CutGraph.isChain_of_mem_spansFrom hmem
  exact hagree.sameSpan hchain (Nat.le_of_eq (by simpa using hlast))

end Decoder

end Pinyin
