import Mathlib.Data.Finset.Card
import Mathlib.Data.Finset.Range
import Mathlib.Logic.Function.Basic
import Mathlib.Tactic.Common

/-!
# The objects of a store

A store is a partial map from identities to objects; identities are handed out in order, so
everything allocated is below a bound.  `Store.count s b P` is the number of objects below `b`
that satisfy `P`.  Allocating at a free identity adds one to it if the new object counts, freeing
takes one away, and the bound itself does not matter as long as nothing is allocated above.
-/

namespace CobjOs

open Function

namespace Store

variable {α : Type*} {s : ℕ → Option α} {b i : ℕ} {x : α} {P Q : α → Bool}

/-- What is found in a store after a write is the object written or an old one. -/
lemma update_eq_some {y : α} {j : ℕ} (h : update s i (some x) j = some y) :
    j = i ∧ y = x ∨ j ≠ i ∧ s j = some y := by
  by_cases hj : j = i
  · rw [hj, update_self, Option.some.injEq] at h
    exact .inl ⟨hj, h.symm⟩
  · rw [update_of_ne hj] at h
    exact .inr ⟨hj, h⟩

lemma erase_eq_some {y : α} {j : ℕ} (h : update s i none j = some y) : j ≠ i ∧ s j = some y := by
  by_cases hj : j = i
  · simp [hj] at h
  · exact ⟨hj, by rwa [update_of_ne hj] at h⟩

lemma exists_of_map_eq {β : Type*} {f : α → β} {o o' : Option α} (h : o'.map f = o.map f)
    (ho : o = some x) : ∃ x', o' = some x' ∧ f x' = f x := by
  subst ho
  exact Option.map_eq_some_iff.1 h

/-- The identities below `b` of the objects that satisfy `P`. -/
def keys (s : ℕ → Option α) (b : ℕ) (P : α → Bool) : Finset ℕ :=
  (Finset.range b).filter fun i => (s i).any P = true

def count (s : ℕ → Option α) (b : ℕ) (P : α → Bool) : ℕ := (keys s b P).card

lemma mem_keys : i ∈ keys s b P ↔ i < b ∧ ∃ x, s i = some x ∧ P x = true := by
  simp [keys, Option.any_eq_true]

/-- A new object. -/
lemma count_insert (hi : i < b) (hfree : s i = none) :
    count (update s i (some x)) b P = count s b P + if P x then 1 else 0 := by
  have hnot : i ∉ keys s b P := by simp [mem_keys, hfree]
  by_cases hx : P x = true
  · have hkeys : keys (update s i (some x)) b P = insert i (keys s b P) := by
      ext j
      rw [Finset.mem_insert, mem_keys, mem_keys]
      by_cases hj : j = i
      · subst hj
        simp [hi, hx]
      · simp [hj]
    rw [count, hkeys, Finset.card_insert_of_notMem hnot, if_pos hx]
    rfl
  · have hkeys : keys (update s i (some x)) b P = keys s b P := by
      ext j
      rw [mem_keys, mem_keys]
      by_cases hj : j = i
      · subst hj
        simp [hx, hfree]
      · simp [hj]
    rw [count, hkeys, if_neg hx]
    rfl

lemma count_erase (hi : i < b) (hx : s i = some x) :
    count (update s i none) b P + (if P x then 1 else 0) = count s b P := by
  have hback : s = update (update s i none) i (some x) := by
    rw [update_idem, ← hx, update_eq_self]
  conv_rhs => rw [hback]
  exact (count_insert hi (update_self ..)).symm

lemma count_replace {y : α} (hx : s i = some x) (hP : P y = P x) :
    count (update s i (some y)) b P = count s b P := by
  have hkeys : keys (update s i (some y)) b P = keys s b P := by
    ext j
    rw [mem_keys, mem_keys]
    by_cases hj : j = i
    · subst hj
      simp [hx, hP]
    · simp [hj]
  rw [count, count, hkeys]

lemma count_bound {c : ℕ} (hbc : b ≤ c) (hfresh : ∀ i, b ≤ i → s i = none) :
    count s c P = count s b P := by
  have hkeys : keys s c P = keys s b P := by
    ext j
    rw [mem_keys, mem_keys]
    refine and_congr_left fun hj => ⟨fun _ => ?_, fun h => h.trans_le hbc⟩
    obtain ⟨x, hx, -⟩ := hj
    exact Nat.lt_of_not_le fun hle => by simp [hfresh j hle] at hx
  rw [count, count, hkeys]

lemma count_mono (h : ∀ x, P x = true → Q x = true) : count s b P ≤ count s b Q := by
  refine Finset.card_le_card fun i hi => ?_
  obtain ⟨hi, x, hx, hP⟩ := mem_keys.1 hi
  exact mem_keys.2 ⟨hi, x, hx, h x hP⟩

end Store

end CobjOs
