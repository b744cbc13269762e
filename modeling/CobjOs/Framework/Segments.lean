import Mathlib.Algebra.Order.Ring.Nat
import Mathlib.Data.List.Range
import Mathlib.Tactic.Common

/-!
# Numbers cut into segments

Segments of given sizes follow each other, and a number is a segment and a place in it: a day is a
year and a day of the year, and that is a month and a day of the month.  `span` is where a segment
starts, `locate` the loop that goes from segment to segment and takes their sizes off until the rest
is in one of them.  The two undo each other (`locate_span`), and every number is in a segment
(`exists_span`).
-/

namespace CobjOs

namespace Segments

variable {size : ℕ → ℕ} {i d k n r fuel : ℕ}

/-- The size of `n` segments together, from segment `i` on. -/
def span (size : ℕ → ℕ) (i n : ℕ) : ℕ := ((List.range' i n).map size).sum

/-- `while (d >= size(i)) { d -= size(i); i++; }`, where the size of a segment may be unknown. -/
def locate (size : ℕ → Option ℕ) : ℕ → ℕ → ℕ → Option (ℕ × ℕ)
  | 0, _, _ => none
  | fuel + 1, i, d => do
    let n ← size i
    if n ≤ d then locate size fuel (i + 1) (d - n) else some (i, d)

lemma span_zero : span size i 0 = 0 := rfl

lemma span_succ : span size i (n + 1) = size i + span size (i + 1) n := by
  rw [span, List.range'_succ, List.map_cons, List.sum_cons, span]

lemma span_succ_last : span size i (n + 1) = span size i n + size (i + n) := by
  rw [span, List.range'_concat, List.map_append, List.sum_append, span]
  simp

/-- Segments of a size of at least `c`. -/
lemma le_span {c : ℕ} (h : ∀ j, c ≤ size j) (i n : ℕ) : n * c ≤ span size i n := by
  induction n generalizing i with
  | zero => simp
  | succ n ih =>
    rw [span_succ, Nat.succ_mul, Nat.add_comm]
    exact Nat.add_le_add (h i) (ih (i + 1))

lemma span_le {c : ℕ} (h : ∀ j, size j ≤ c) (i n : ℕ) : span size i n ≤ n * c := by
  induction n generalizing i with
  | zero => simp [span_zero]
  | succ n ih =>
    rw [span_succ, Nat.succ_mul, Nat.add_comm]
    exact Nat.add_le_add (ih (i + 1)) (h i)

lemma lt_span (hk : k < n) (hr : r < size (i + k)) : span size i k + r < span size i n := by
  induction n with
  | zero => exact absurd hk (Nat.not_lt_zero k)
  | succ n ih =>
    rw [span_succ_last]
    rcases Nat.lt_succ_iff_lt_or_eq.1 hk with hlt | rfl
    · exact Nat.lt_add_right _ (ih hlt)
    · exact Nat.add_lt_add_left hr _

lemma exists_span (h : d < span size i n) : ∃ k < n, ∃ r < size (i + k), d = span size i k + r := by
  induction n with
  | zero => exact absurd h (Nat.not_lt_zero d)
  | succ n ih =>
    by_cases hd : d < span size i n
    · obtain ⟨k, hk, hr⟩ := ih hd
      exact ⟨k, Nat.lt_succ_of_lt hk, hr⟩
    · rw [span_succ_last] at h
      exact ⟨n, Nat.lt_succ_self n, d - span size i n, by omega, by omega⟩

lemma locate_span {look : ℕ → Option ℕ} (hlook : ∀ j ≤ k, look (i + j) = some (size (i + j)))
    (hr : r < size (i + k)) (hfuel : k < fuel) :
    locate look fuel i (span size i k + r) = some (i + k, r) := by
  induction k generalizing i fuel with
  | zero =>
    obtain ⟨fuel, rfl⟩ : ∃ f, fuel = f + 1 := ⟨fuel - 1, by omega⟩
    have hfirst : look i = some (size i) := hlook 0 (Nat.zero_le 0)
    have hlt : ¬size i ≤ r := Nat.not_le_of_lt hr
    rw [locate, hfirst, Option.bind_eq_bind, Option.bind_some, span_zero, Nat.zero_add, if_neg hlt]
    rfl
  | succ k ih =>
    obtain ⟨fuel, rfl⟩ : ∃ f, fuel = f + 1 := ⟨fuel - 1, by omega⟩
    have hfirst : look i = some (size i) := hlook 0 (Nat.zero_le _)
    have hnext : ∀ j, i + 1 + j = i + (j + 1) := fun j => by omega
    have hrest : size i + span size (i + 1) k + r - size i = span size (i + 1) k + r := by omega
    have hlater : locate look fuel (i + 1) (span size (i + 1) k + r) = some (i + 1 + k, r) := by
      refine ih (fun j hj => ?_) ?_ (by omega)
      · rw [hnext]
        exact hlook (j + 1) (by omega)
      · rwa [hnext]
    rw [locate, hfirst, Option.bind_eq_bind, Option.bind_some, span_succ, if_pos (by omega), hrest,
      hlater, hnext]

end Segments

end CobjOs
