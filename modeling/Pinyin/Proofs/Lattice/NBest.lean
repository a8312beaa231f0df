import Mathlib.Data.List.Nodup
import Mathlib.Data.List.Perm.Subperm
import Pinyin.Proofs.Lattice.Ranking

/-!
# Pinyin.Proofs.Lattice.NBest

The cheapest sentences with different words.

* `IsNBest` — a list holds the `k` cheapest of some sentences, no two with the same words;
* `isNBest_of_ranked` — what is read off a lattice is this for the nodes at the end;
* `length_transcriptions_pos`, `nodup_words_transcriptions`, `pairwise_score_transcriptions` — what
  of this needs no ordered costs;
* `Covered` — fewer sentences stand in for a further one;
* `IsNBest.iff_covered` — the cheapest of some sentences are the cheapest of more exactly if
  these are covered.
-/

namespace Pinyin

variable {σ R : Type}

/-! ## First occurrences -/

section

variable [DecidableEq β] {key : α → β} {seen : List β} {xs : List α}

theorem distinctBy_sublist (key : α → β) (seen : List β) (xs : List α) :
    (distinctBy key seen xs).Sublist xs := by
  induction xs generalizing seen with
  | nil => exact List.Sublist.refl []
  | cons x xs ih =>
      unfold distinctBy
      split
      · exact (ih seen).cons x
      · exact (ih (key x :: seen)).cons_cons x

theorem key_notMem_of_mem_distinctBy {x : α} (h : x ∈ distinctBy key seen xs) : key x ∉ seen := by
  induction xs generalizing seen with
  | nil => cases h
  | cons y xs ih =>
      unfold distinctBy at h
      split at h
      · exact ih h
      · next hy =>
        rcases List.mem_cons.1 h with rfl | h
        · exact hy
        · exact fun hx => ih h (List.mem_cons_of_mem _ hx)

theorem nodup_map_distinctBy (key : α → β) (seen : List β) (xs : List α) :
    ((distinctBy key seen xs).map key).Nodup := by
  induction xs generalizing seen with
  | nil => exact List.nodup_nil
  | cons x xs ih =>
      unfold distinctBy
      split
      · exact ih seen
      · rw [List.map_cons, List.nodup_cons]
        refine ⟨fun hx => ?_, ih (key x :: seen)⟩
        obtain ⟨y, hy, heq⟩ := List.mem_map.1 hx
        exact key_notMem_of_mem_distinctBy hy (by simp [heq])

/-- Every key that was not seen before has a first element. -/
theorem exists_mem_distinctBy {r : α → α → Prop} (hr : ∀ x, r x x) (hxs : xs.Pairwise r) {x : α}
    (hx : x ∈ xs) (hseen : key x ∉ seen) :
    ∃ y ∈ distinctBy key seen xs, key y = key x ∧ r y x := by
  induction xs generalizing seen with
  | nil => cases hx
  | cons y xs ih =>
      obtain ⟨hy, hrest⟩ := List.pairwise_cons.1 hxs
      unfold distinctBy
      rcases List.mem_cons.1 hx with rfl | hx
      · rw [if_neg hseen]
        exact ⟨x, List.mem_cons_self, rfl, hr x⟩
      · by_cases hmem : key y ∈ seen
        · rw [if_pos hmem]
          exact ih hrest hx hseen
        · rw [if_neg hmem]
          by_cases heq : key x = key y
          · exact ⟨y, List.mem_cons_self, heq.symm, hy x hx⟩
          · have hseen' : key x ∉ key y :: seen := by simp [heq, hseen]
            obtain ⟨z, hz, hkey, hle⟩ := ih hrest hx hseen'
            exact ⟨z, List.mem_cons_of_mem y hz, hkey, hle⟩

end

/-! ## The sentences of a lattice -/

namespace Lattice

variable [Cost R] {lat : Lattice σ R} {stop : Nat}

theorem transcriptions_sublist (lat : Lattice σ R) (stop : Nat) (nbest : Int) :
    (lat.transcriptions stop nbest).Sublist
      (((lat.nodes stop).mergeSort Node.rankLe).map Node.transcription) :=
  (List.take_sublist ..).trans (distinctBy_sublist ..)

theorem exists_of_mem_transcriptions {nbest : Int} {t : Transcription σ R}
    (h : t ∈ lat.transcriptions stop nbest) : ∃ n ∈ lat.nodes stop, n.transcription = t := by
  simpa using (lat.transcriptions_sublist stop nbest).subset h

/-- Where there are nodes, there is a sentence. -/
theorem length_transcriptions_pos (h : lat.nodes stop ≠ []) (nbest : Int) :
    1 ≤ (lat.transcriptions stop nbest).length := by
  obtain ⟨n, hn⟩ := List.exists_mem_of_ne_nil _ h
  have hranked :
      n.transcription ∈ ((lat.nodes stop).mergeSort Node.rankLe).map Node.transcription :=
    List.mem_map_of_mem (List.mem_mergeSort.2 hn)
  obtain ⟨t, ts, hcons⟩ := List.exists_cons_of_ne_nil (List.ne_nil_of_mem hranked)
  simp only [transcriptions]
  rw [hcons, distinctBy, if_neg List.not_mem_nil, List.length_take, List.length_cons]
  omega

theorem length_transcriptions_le (lat : Lattice σ R) (stop : Nat) (nbest : Int) :
    (lat.transcriptions stop nbest).length ≤ (max 1 nbest).toNat :=
  List.length_take_le ..

theorem nodup_words_transcriptions (lat : Lattice σ R) (stop : Nat) (nbest : Int) :
    ((lat.transcriptions stop nbest).map Transcription.words).Nodup :=
  (nodup_map_distinctBy Transcription.words [] _).sublist ((List.take_sublist ..).map _)

/-- The sentences are in the order of their scores, if these can be compared. -/
theorem pairwise_score_transcriptions
    (h : LinearOn fun score => ∃ n ∈ lat.nodes stop, n.score = score) (nbest : Int) :
    (lat.transcriptions stop nbest).Pairwise fun t u => ¬ u.score < t.score :=
  (List.pairwise_map.2 (pairwise_score_mergeSort h)).sublist (lat.transcriptions_sublist stop nbest)

end Lattice

/-! ## The cheapest sentences -/

/-- A list holds the `k` cheapest of some sentences, the cheapest first.  Each is the cheapest
with its words, and no sentence is missing unless the list is full of cheaper ones. -/
structure IsNBest [LT R] (D : Transcription σ R → Prop) (k : Nat)
    (ts : List (Transcription σ R)) : Prop where
  length_le : ts.length ≤ k
  ascending : ts.Pairwise fun t u => ¬ u.score < t.score
  distinct : (ts.map Transcription.words).Nodup
  found : ∀ t ∈ ts, D t
  cheapest : ∀ t ∈ ts, ∀ u, D u → u.words = t.words → ¬ u.score < t.score
  complete : ∀ u, D u → u.words ∈ ts.map Transcription.words ∨
    ts.length = k ∧ ∀ t ∈ ts, ¬ u.score < t.score

variable [Cost R] [OrderedCost R]

/-- Nodes in the order of rank have ascending scores. -/
theorem pairwise_ranked (ns : List (Node σ R)) :
    ((ns.mergeSort Node.rankLe).map Node.transcription).Pairwise
      fun t u => ¬ u.score < t.score := by
  rw [List.pairwise_map]
  exact pairwise_score_mergeSort (OrderedCost.linearOn _)

/-- Of sentences with ascending scores, the first ones with different words are the cheapest. -/
theorem isNBest_distinctBy {us : List (Transcription σ R)}
    (hus : us.Pairwise fun t u => ¬ u.score < t.score) (k : Nat) :
    IsNBest (· ∈ us) k ((distinctBy Transcription.words [] us).take k) := by
  have hasymm : ∀ t : Transcription σ R, ¬ t.score < t.score := fun t h =>
    OrderedCost.asymm _ _ h h
  have hsub := distinctBy_sublist Transcription.words [] us
  have hdistinct := nodup_map_distinctBy Transcription.words [] us
  have hfirst : ∀ u ∈ us, ∃ t ∈ distinctBy Transcription.words [] us,
      t.words = u.words ∧ ¬ u.score < t.score :=
    fun u hu => exists_mem_distinctBy hasymm hus hu List.not_mem_nil
  have hpairs := hus.sublist hsub
  generalize distinctBy Transcription.words [] us = first at *
  refine ⟨List.length_take_le .., hpairs.sublist (List.take_sublist ..), ?_, ?_, ?_, ?_⟩
  · exact hdistinct.sublist ((List.take_sublist ..).map _)
  · intro t ht
    exact hsub.subset (List.mem_of_mem_take ht)
  · intro t ht u hu hwords
    obtain ⟨t', ht', hwords', hle⟩ := hfirst u hu
    have heq : t' = t :=
      List.inj_on_of_nodup_map hdistinct ht' (List.mem_of_mem_take ht) (hwords'.trans hwords)
    rwa [heq] at hle
  · intro u hu
    obtain ⟨t, ht, hwords, hle⟩ := hfirst u hu
    rw [← List.take_append_drop k first] at ht hpairs
    rcases List.mem_append.1 ht with hfront | hback
    · exact .inl (List.mem_map.2 ⟨t, hfront, hwords⟩)
    · refine .inr ⟨?_, fun t' ht' => ?_⟩
      · have hlen := List.length_pos_of_mem hback
        rw [List.length_drop] at hlen
        rw [List.length_take]
        omega
      · have hlt := (List.pairwise_append.1 hpairs).2.2 t' ht' t hback
        exact OrderedCost.trans _ _ _ hlt hle

/-- **What is read off a lattice** are the cheapest sentences of the nodes at the end. -/
theorem isNBest_of_ranked (ns : List (Node σ R)) (k : Nat) :
    IsNBest (fun t => ∃ n ∈ ns, n.transcription = t) k
      ((distinctBy Transcription.words []
        ((ns.mergeSort Node.rankLe).map Node.transcription)).take k) := by
  have hsame : (fun t => ∃ n ∈ ns, n.transcription = t)
      = (· ∈ (ns.mergeSort Node.rankLe).map Node.transcription) := by
    funext t
    simp
  rw [hsame]
  exact isNBest_distinctBy (pairwise_ranked ns) k

/-! ## Covered sentences -/

omit [OrderedCost R] in
/-- Some sentences cover a further one: one with the same words costs no more, or `k` with
different words do. -/
def Covered (D : Transcription σ R → Prop) (k : Nat) (u : Transcription σ R) : Prop :=
  (∃ t, D t ∧ t.words = u.words ∧ ¬ u.score < t.score) ∨
    ∃ ts : List (Transcription σ R), ts.length = k ∧ (ts.map Transcription.words).Nodup ∧
      ∀ t ∈ ts, D t ∧ ¬ u.score < t.score

namespace IsNBest

variable {D D' : Transcription σ R → Prop} {k : Nat} {ts : List (Transcription σ R)}

/-- Where `k` sentences with different words cost no more than another one, the cheapest do
not either. -/
theorem le_of_full (h : IsNBest D k ts) {us : List (Transcription σ R)} {u : Transcription σ R}
    (hlen : us.length = k) (hdistinct : (us.map Transcription.words).Nodup)
    (hus : ∀ t ∈ us, D t ∧ ¬ u.score < t.score) :
    ts.length = k ∧ ∀ t ∈ ts, ¬ u.score < t.score := by
  by_cases hsub : us.map Transcription.words ⊆ ts.map Transcription.words
  · have hle := h.length_le
    have hperm := (hdistinct.subperm hsub).perm_of_length_le
      (by rw [List.length_map, List.length_map, hlen]; exact hle)
    have hsame := hperm.length_eq
    rw [List.length_map, List.length_map] at hsame
    refine ⟨by omega, fun t ht => ?_⟩
    obtain ⟨t', ht', hwords⟩ := List.mem_map.1 (hperm.mem_iff.2 (List.mem_map_of_mem ht))
    exact OrderedCost.trans _ _ _ (h.cheapest t ht t' (hus t' ht').1 hwords) (hus t' ht').2
  · simp only [List.subset_def, not_forall] at hsub
    obtain ⟨w, hw, hnot⟩ := hsub
    obtain ⟨t', ht', rfl⟩ := List.mem_map.1 hw
    obtain ⟨hfull, hle⟩ := (h.complete t' (hus t' ht').1).resolve_left hnot
    exact ⟨hfull, fun t ht => OrderedCost.trans _ _ _ (hle t ht) (hus t' ht').2⟩

/-- **Cheapest among few, cheapest among many**: exactly if the few cover the many. -/
theorem iff_covered (h : IsNBest D k ts) (hsub : ∀ t, D t → D' t) :
    IsNBest D' k ts ↔ ∀ u, D' u → Covered D k u := by
  constructor
  · intro h' u hu
    rcases h'.complete u hu with hmem | ⟨hfull, hle⟩
    · obtain ⟨t, ht, hwords⟩ := List.mem_map.1 hmem
      exact .inl ⟨t, h.found t ht, hwords, h'.cheapest t ht u hu hwords.symm⟩
    · exact .inr ⟨ts, hfull, h.distinct, fun t ht => ⟨h.found t ht, hle t ht⟩⟩
  · intro hcov
    refine ⟨h.length_le, h.ascending, h.distinct, fun t ht => hsub t (h.found t ht), ?_, ?_⟩
    · intro t ht u hu hwords
      rcases hcov u hu with ⟨t', ht', hwords', hle⟩ | ⟨us, hlen, hdistinct, hus⟩
      · exact OrderedCost.trans _ _ _ (h.cheapest t ht t' ht' (hwords'.trans hwords)) hle
      · exact (h.le_of_full hlen hdistinct hus).2 t ht
    · intro u hu
      rcases hcov u hu with ⟨t', ht', hwords', hle⟩ | ⟨us, hlen, hdistinct, hus⟩
      · rcases h.complete t' ht' with hmem | ⟨hfull, hle'⟩
        · exact .inl (hwords' ▸ hmem)
        · exact .inr ⟨hfull, fun t ht => OrderedCost.trans _ _ _ (hle' t ht) hle⟩
      · exact .inr (h.le_of_full hlen hdistinct hus)

end IsNBest

end Pinyin
