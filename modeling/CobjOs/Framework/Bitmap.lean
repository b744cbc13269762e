import Mathlib.Data.List.Basic
import Mathlib.Logic.Function.Basic
import Mathlib.Tactic.Common

/-!
# Bitmaps in words of 64 bits

A bitmap is an array of machine words; bit `i` of it is bit `i % 64` of word `i / 64`.  Setting
and clearing one bit are the usual masking operations on its word, and `bit_set` and `bit_clear`
say what they do in terms of single bits, so that nothing above has to look at words again.
`ctz` is the count of trailing zeros by which the lowest clear bit of a word is found.
-/

namespace CobjOs

open Function

/-- The words of a bitmap. -/
abbrev Bitmap := ℕ → BitVec 64

namespace Bitmap

variable {m : Bitmap} {i j : ℕ}

def bit (m : Bitmap) (i : ℕ) : Bool := (m (i / 64)).getLsbD (i % 64)

def set (m : Bitmap) (i : ℕ) : Bitmap :=
  update m (i / 64) (m (i / 64) ||| 1#64 <<< (i % 64))

def clear (m : Bitmap) (i : ℕ) : Bitmap :=
  update m (i / 64) (m (i / 64) &&& ~~~(1#64 <<< (i % 64)))

lemma getLsbD_one_shiftLeft (hj : j < 64) :
    (1#64 <<< i).getLsbD j = decide (j = i) := by
  rw [BitVec.getLsbD_shiftLeft, BitVec.getLsbD_one]
  simp only [hj, decide_true, Bool.true_and]
  by_cases hlt : j < i
  · simp [hlt, Nat.ne_of_lt hlt]
  · simp only [hlt, decide_false, Bool.not_false, Bool.true_and]
    simp only [Nat.zero_lt_succ, decide_true, Bool.true_and, decide_eq_decide]
    omega

/-- In the word of bit `i`, the mask is set at bit `i` only. -/
lemma getLsbD_mask (hw : j / 64 = i / 64) :
    (1#64 <<< (i % 64)).getLsbD (j % 64) = decide (j = i) := by
  rw [getLsbD_one_shiftLeft (Nat.mod_lt _ (by decide)), decide_eq_decide]
  omega

lemma bit_set (m : Bitmap) (i j : ℕ) : (m.set i).bit j = (decide (j = i) || m.bit j) := by
  unfold bit set
  by_cases hw : j / 64 = i / 64
  · rw [hw, update_self, BitVec.getLsbD_or, getLsbD_mask hw, Bool.or_comm]
  · have hne : j ≠ i := fun h => hw (h ▸ rfl)
    rw [update_of_ne hw]
    simp [hne]

lemma bit_clear (m : Bitmap) (i j : ℕ) : (m.clear i).bit j = (!decide (j = i) && m.bit j) := by
  unfold bit clear
  by_cases hw : j / 64 = i / 64
  · have hj : j % 64 < 64 := Nat.mod_lt _ (by decide)
    rw [hw, update_self, BitVec.getLsbD_and, BitVec.getLsbD_not, getLsbD_mask hw, Bool.and_comm]
    simp only [hj, decide_true, Bool.true_and]
  · have hne : j ≠ i := fun h => hw (h ▸ rfl)
    rw [update_of_ne hw]
    simp [hne]

/-- Setting the bits of a list. -/
lemma bit_foldl_set (l : List ℕ) (m : Bitmap) (j : ℕ) :
    (l.foldl set m).bit j = (decide (j ∈ l) || m.bit j) := by
  induction l generalizing m with
  | nil => simp
  | cons i l ih =>
    rw [List.foldl_cons, ih, bit_set]
    by_cases hj : j = i <;> simp [hj]

end Bitmap

/-! ## Trailing zeros -/

/-- The number of trailing zeros of a word; 64 for the word 0. -/
def ctz (w : BitVec 64) : ℕ := ((List.range 64).find? w.getLsbD).getD 64

/-- In a word that is not full, the trailing ones end at a clear bit. -/
lemma ctz_not_spec {w : BitVec 64} (hw : w ≠ BitVec.allOnes 64) :
    ctz (~~~w) < 64 ∧ w.getLsbD (ctz (~~~w)) = false ∧
      ∀ j, j < ctz (~~~w) → w.getLsbD j = true := by
  cases hf : (List.range 64).find? (~~~w).getLsbD with
  | none =>
    refine absurd (BitVec.eq_of_getLsbD_eq fun i hi => ?_) hw
    have hone := List.find?_eq_none.mp hf i (List.mem_range.mpr hi)
    rw [BitVec.getLsbD_allOnes]
    simpa [hi] using hone
  | some b =>
    have hctz : ctz (~~~w) = b := by rw [ctz, hf, Option.getD_some]
    have hlt : b < 64 := List.mem_range.mp (List.mem_of_find?_eq_some hf)
    rw [hctz]
    refine ⟨hlt, ?_, ?_⟩
    · have hb := List.find?_some hf
      simpa [hlt] using hb
    · intro j hj
      rw [List.find?_range_eq_some] at hf
      have hj' := hf.2.2 j hj
      have hlt' : j < 64 := by omega
      simpa [hlt'] using hj'

end CobjOs
