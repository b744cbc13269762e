import Mathlib.Data.Nat.Bitwise
import Mathlib.Data.Set.Function
import Mathlib.Order.Interval.Set.Defs

/-!
# Steps that mix the bits of a word

Two steps that can be undone on the words of a fixed width: the xor with the word shifted by half
of the width or more, which undoes itself, and the product with a number that has an inverse.
-/

namespace CobjOs

namespace Mixing

/-- The xor with the shifted word is its own inverse when the shift by twice as much leaves
nothing. -/
lemma bijOn_xorShift {w s : ℕ} (hs : w ≤ s + s) :
    Set.BijOn (fun x => x ^^^ x >>> s) (Set.Iio (2 ^ w)) (Set.Iio (2 ^ w)) := by
  have hmaps : Set.MapsTo (fun x => x ^^^ x >>> s) (Set.Iio (2 ^ w)) (Set.Iio (2 ^ w)) :=
    fun x hx => Nat.xor_lt_two_pow hx ((Nat.shiftRight_le x s).trans_lt hx)
  have hinv : Set.LeftInvOn (fun x => x ^^^ x >>> s) (fun x => x ^^^ x >>> s)
      (Set.Iio (2 ^ w)) := by
    intro x hx
    have hgone : x >>> s >>> s = 0 := by
      rw [← Nat.shiftRight_add, Nat.shiftRight_eq_div_pow]
      exact Nat.div_eq_of_lt (lt_of_lt_of_le hx (Nat.pow_le_pow_right (by decide) hs))
    show (x ^^^ x >>> s) ^^^ (x ^^^ x >>> s) >>> s = x
    rw [Nat.shiftRight_xor_distrib, hgone, Nat.xor_zero, Nat.xor_assoc, Nat.xor_self, Nat.xor_zero]
  exact Set.InvOn.bijOn ⟨hinv, hinv⟩ hmaps hmaps

/-- The product with `c` is undone by the product with its inverse `d`. -/
lemma bijOn_mul {n c d : ℕ} (h : c * d % n = 1) :
    Set.BijOn (fun x => x * c % n) (Set.Iio n) (Set.Iio n) := by
  have hmaps : ∀ e, Set.MapsTo (fun x => x * e % n) (Set.Iio n) (Set.Iio n) :=
    fun e x hx => Nat.mod_lt _ (Nat.zero_lt_of_lt hx)
  have hinv : ∀ {c d : ℕ}, c * d % n = 1 →
      Set.LeftInvOn (fun x => x * d % n) (fun x => x * c % n) (Set.Iio n) := by
    intro c d h x hx
    show x * c % n * d % n = x
    rw [Nat.mod_mul_mod, Nat.mul_assoc, Nat.mul_mod, h, Nat.mul_one, Nat.mod_mod,
      Nat.mod_eq_of_lt hx]
  exact Set.InvOn.bijOn ⟨hinv h, hinv (Nat.mul_comm c d ▸ h)⟩ (hmaps c) (hmaps d)

end Mixing

end CobjOs
