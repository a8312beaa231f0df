import Mathlib.Data.List.Induction
import Mathlib.Data.List.Nodup

/-!
# Pinyin.Proofs.List

Lists of which only the first occurrences are kept, lists that are grouped by a key, the first elements
of lists, lists whose elements have different keys, and lists that are read element by element where
reading may fail.
-/

namespace Pinyin

/-- A further element is kept if it did not occur before. -/
theorem eraseDups_append_singleton [DecidableEq α] (xs : List α) (x : α) :
    (xs ++ [x]).eraseDups = xs.eraseDups ++ if x ∈ xs then [] else [x] := by
  rw [List.eraseDups_append]
  by_cases hx : x ∈ xs <;> simp [List.removeAll, List.eraseDups_cons, hx]

theorem head?_eraseDups [DecidableEq α] (xs : List α) : xs.eraseDups.head? = xs.head? := by
  cases xs with
  | nil => rfl
  | cons x xs => rw [List.eraseDups_cons, List.head?_cons, List.head?_cons]

/-- Grouping a list by a key, one group for each key that occurs, loses no element. -/
theorem perm_flatMap_filter_eraseDups {α κ : Type} [DecidableEq κ] (key : α → κ) (xs : List α) :
    ((xs.map key).eraseDups.flatMap fun k => xs.filter fun x => key x = k).Perm xs := by
  match xs with
  | [] => simp
  | x :: rest =>
      let others := rest.filter fun y => !(key y == key x)
      have hkeys : ((x :: rest).map key).eraseDups = key x :: (others.map key).eraseDups := by
        rw [List.map_cons, List.eraseDups_cons, List.filter_map]
        rfl
      have hgroup : ∀ k ∈ (others.map key).eraseDups,
          ((x :: rest).filter fun y => key y = k) = others.filter fun y => key y = k := by
        intro k hk
        obtain ⟨y, hy, rfl⟩ := List.mem_map.1 (List.mem_eraseDups.1 hk)
        have hne : key y ≠ key x := by simpa using (List.mem_filter.1 hy).2
        rw [List.filter_cons_of_neg (by simpa using hne.symm), List.filter_filter]
        refine List.filter_congr fun z _ => ?_
        by_cases hz : key z = key y <;> simp [hz, hne]
      have hothers := perm_flatMap_filter_eraseDups key others
      rw [hkeys, List.flatMap_cons, List.flatMap_congr hgroup,
        List.filter_cons_of_pos (by simp), List.cons_append]
      exact ((hothers.append_left _).trans (List.filter_append_perm _ rest)).cons x
termination_by xs.length
decreasing_by exact Nat.lt_succ_of_le (List.length_filter_le _ rest)

/-- The first of all elements that come from an ascending list, and are descending where they come
from one element of it. -/
theorem head?_flatMap_eq_some_iff {xs : List Nat} {f : Nat → List Nat} (hxs : xs.Pairwise (· < ·))
    (hf : ∀ x, (f x).Pairwise (· ≥ ·)) {y : Nat} :
    (xs.flatMap f).head? = some y ↔
      ∃ x ∈ xs, y ∈ f x ∧ ∀ x' ∈ xs, ∀ y' ∈ f x', x < x' ∨ x = x' ∧ y' ≤ y := by
  induction xs with
  | nil => simp
  | cons x xs ih =>
      rw [List.pairwise_cons] at hxs
      have hfx := hf x
      cases hx : f x with
      | nil =>
          rw [List.flatMap_cons, hx, List.nil_append, ih hxs.2]
          simp [hx]
      | cons z zs =>
          rw [hx, List.pairwise_cons] at hfx
          rw [List.flatMap_cons, hx, List.cons_append, List.head?_cons, Option.some.injEq]
          constructor
          · rintro rfl
            refine ⟨x, List.mem_cons_self, hx ▸ List.mem_cons_self, fun x' hx' y' hy' => ?_⟩
            rcases List.mem_cons.1 hx' with rfl | hx'
            · rw [hx] at hy'
              rcases List.mem_cons.1 hy' with rfl | hy'
              · exact .inr ⟨rfl, Nat.le_refl y'⟩
              · exact .inr ⟨rfl, hfx.1 y' hy'⟩
            · exact .inl (hxs.1 x' hx')
          · rintro ⟨x', hx', hy, hfirst⟩
            rcases hfirst x List.mem_cons_self z (hx ▸ List.mem_cons_self) with hlt | ⟨rfl, hle⟩
            · rcases List.mem_cons.1 hx' with rfl | hx'
              · exact absurd hlt (Nat.lt_irrefl x')
              · exact absurd (hxs.1 x' hx') (Nat.lt_asymm hlt)
            · rw [hx] at hy
              rcases List.mem_cons.1 hy with rfl | hy
              · rfl
              · exact Nat.le_antisymm hle (hfx.1 y hy)

/-- An element is found by its key where no other has the same one. -/
theorem find?_key_eq_some {α κ : Type} [BEq κ] [LawfulBEq κ] {key : α → κ} {xs : List α}
    (h : (xs.map key).Nodup) {x : α} (hx : x ∈ xs) :
    xs.find? (fun other => key other == key x) = some x := by
  cases hfind : xs.find? fun other => key other == key x with
  | none => exact absurd (List.find?_eq_none.1 hfind x hx) (by simp)
  | some other =>
      have hkey : key other = key x := by simpa using List.find?_some hfind
      rw [List.inj_on_of_nodup_map h (List.mem_of_find?_eq_some hfind) hx hkey]

/-- One computation after another succeeds if both do. -/
theorem bind_eq_ok_iff {α β ε : Type} {x : Except ε α} {f : α → Except ε β} {b : β} :
    (x >>= f) = .ok b ↔ ∃ a, x = .ok a ∧ f a = .ok b := by
  cases x <;> simp [bind, Except.bind]

/-- Where exactly what is written for some things is read, a list is read exactly if it is written
for a list of such things. -/
theorem mapM_eq_ok_iff {α β ε : Type} {read : α → Except ε β} {write : β → α} {P : β → Prop}
    (h : ∀ x y, read x = .ok y ↔ P y ∧ write y = x) {xs : List α} {ys : List β} :
    xs.mapM read = .ok ys ↔ (∀ y ∈ ys, P y) ∧ ys.map write = xs := by
  induction xs generalizing ys with
  | nil => cases ys <;> simp [pure, Except.pure]
  | cons x xs ih =>
      have hcons : (x :: xs).mapM read = .ok ys ↔
          ∃ y zs, read x = .ok y ∧ xs.mapM read = .ok zs ∧ y :: zs = ys := by
        rw [List.mapM_cons]
        cases read x <;> cases xs.mapM read <;> simp [bind, Except.bind, pure, Except.pure]
      rw [hcons]
      constructor
      · rintro ⟨y, zs, hy, hzs, rfl⟩
        obtain ⟨hP, hwrite⟩ := (h x y).1 hy
        obtain ⟨hall, hmap⟩ := ih.1 hzs
        exact ⟨List.forall_mem_cons.2 ⟨hP, hall⟩, by rw [List.map_cons, hwrite, hmap]⟩
      · rintro ⟨hall, hmap⟩
        cases ys with
        | nil => cases hmap
        | cons y zs =>
            obtain ⟨hP, hall⟩ := List.forall_mem_cons.1 hall
            obtain ⟨hwrite, hmap⟩ := List.cons.inj hmap
            exact ⟨y, zs, (h x y).2 ⟨hP, hwrite⟩, ih.2 ⟨hall, hmap⟩, rfl⟩

end Pinyin
