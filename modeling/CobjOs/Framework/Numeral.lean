import Mathlib.Data.Nat.Digits.Lemmas

/-!
# Numerals

The digits of a number as they are written, the first one first and a single `0` for zero.
Reading them from the left gives the number back.
-/

namespace CobjOs

open List

/-- The digits of `n` in the base. -/
def numeral (base n : ℕ) : List ℕ := if n = 0 then [0] else (Nat.digits base n).reverse

/-- The number that digits stand for, read from the left behind the number `r`. -/
def readDigits (base r : ℕ) (ds : List ℕ) : ℕ := ds.foldl (fun r d => r * base + d) r

section Numeral

variable {base n : ℕ}

lemma readDigits_numeral (base n : ℕ) : readDigits base 0 (numeral base n) = n := by
  rw [numeral, readDigits]
  split_ifs with hn
  · simp [hn]
  · rw [foldl_reverse]
    conv_rhs => rw [← Nat.ofDigits_digits base n, Nat.ofDigits_eq_foldr]
    simp only [Nat.mul_comm, Nat.add_comm, Nat.cast_id]

lemma readDigits_zeros (base k : ℕ) (ds : List ℕ) :
    readDigits base 0 (replicate k 0 ++ ds) = readDigits base 0 ds := by
  induction k with
  | zero => rfl
  | succ k ih =>
    rw [← ih, replicate_succ, cons_append, readDigits, foldl_cons, Nat.zero_mul]
    rfl

lemma numeral_lt (hbase : 2 ≤ base) {d : ℕ} (hd : d ∈ numeral base n) : d < base := by
  rw [numeral] at hd
  split_ifs at hd
  · rw [mem_singleton.1 hd]
    omega
  · exact Nat.digits_lt_base hbase (mem_reverse.1 hd)

lemma length_numeral_le (hbase : 2 ≤ base) {k : ℕ} (hk : 0 < k) (hn : n < base ^ k) :
    (numeral base n).length ≤ k := by
  rw [numeral]
  split_ifs
  · exact hk
  · rw [length_reverse]
    exact (Nat.digits_length_le_iff hbase n).2 hn

/-- A number of 64 bits has 20 digits at most. -/
lemma length_numeral_le_twenty (hbase : 10 ≤ base) (hn : n < 2 ^ 64) :
    (numeral base n).length ≤ 20 := by
  refine length_numeral_le (by omega) (by decide) (hn.trans_le ?_)
  exact (by decide : 2 ^ 64 ≤ 10 ^ 20).trans (Nat.pow_le_pow_left hbase 20)

lemma numeral_ne_nil (base n : ℕ) : numeral base n ≠ [] := by
  rw [numeral]
  split_ifs with hn
  · simp
  · simpa using Nat.digits_ne_nil_iff_ne_zero.2 hn

/-- Only zero is written with a `0` in front. -/
lemma head_numeral (h : (numeral base n).head? = some 0) : n = 0 := by
  by_contra hn
  rw [numeral, if_neg hn, head?_reverse,
    getLast?_eq_some_getLast (Nat.digits_ne_nil_iff_ne_zero.2 hn), Option.some.injEq] at h
  exact Nat.getLast_digit_ne_zero base hn h

end Numeral

end CobjOs
