import CobjOs.Framework.Bytes
import Mathlib.Algebra.BigOperators.Group.List.Basic

/-!
# Blocks laid out from the top down

`placeDown` puts blocks of given sizes below `top`, the last one highest, each at a multiple of the
alignment.  If the padded sizes fit, the blocks follow each other upwards without overlap between
the lowest offset and `top` (`placeDown_spec`).

`Mem.writeAll` is a list of writes in turn; writes to ranges that are apart are all there at the end
(`Mem.writeAll_apply`).
-/

namespace CobjOs

open List

/-! ## Placing -/

/-- The size `n`, filled up to a multiple of the alignment. -/
def padded (align n : ℕ) : ℕ := (n + align - 1) / align * align

/-- The offsets of blocks of the given sizes below `top`, and the lowest offset. -/
def placeDown (align top : ℕ) : List ℕ → List ℕ × ℕ
  | [] => ([], top)
  | n :: ns =>
    let above := placeDown align top ns
    let off := (above.2 - n) / align * align
    (off :: above.1, off)

section Place

variable {align top n low : ℕ} {sizes : List ℕ}

lemma le_padded (ha : 0 < align) (n : ℕ) : n ≤ padded align n := by
  have hlt : n + align - 1 < (n + align - 1) / align * align + align := Nat.lt_div_mul_add ha
  unfold padded
  omega

lemma dvd_padded (align n : ℕ) : align ∣ padded align n := Dvd.intro_left _ rfl

lemma roundDown_sub (ha : 0 < align) (hlow : align ∣ low) (hle : padded align n ≤ low) :
    (low - n) / align * align = low - padded align n := by
  obtain ⟨d, hd⟩ := Nat.dvd_sub hlow (dvd_padded align n)
  have hn := le_padded ha n
  have hlt : padded align n - n < align := by
    have hdiv := Nat.div_mul_le_self (n + align - 1) align
    unfold padded
    omega
  have hsplit : low - n = padded align n - n + align * d := by omega
  rw [hsplit, Nat.add_mul_div_left _ _ ha, Nat.div_eq_of_lt hlt, Nat.zero_add, hd, Nat.mul_comm]

lemma dvd_sum_padded (align : ℕ) (sizes : List ℕ) : align ∣ (sizes.map (padded align)).sum := by
  induction sizes with
  | nil => exact dvd_zero align
  | cons n sizes ih =>
    rw [map_cons, sum_cons]
    exact Nat.dvd_add (dvd_padded align n) ih

lemma placeDown_low (ha : 0 < align) (htop : align ∣ top)
    (hfit : (sizes.map (padded align)).sum ≤ top) :
    (placeDown align top sizes).2 = top - (sizes.map (padded align)).sum := by
  induction sizes with
  | nil => rfl
  | cons n sizes ih =>
    rw [map_cons, sum_cons] at hfit ⊢
    have hdvd := Nat.dvd_sub htop (dvd_sum_padded align sizes)
    rw [placeDown]
    dsimp only
    rw [ih (by omega), roundDown_sub ha hdvd (by omega)]
    omega

lemma length_placeDown (align top : ℕ) (sizes : List ℕ) :
    (placeDown align top sizes).1.length = sizes.length := by
  induction sizes with
  | nil => rfl
  | cons n sizes ih => rw [placeDown, length_cons, length_cons, ih]

/-- The blocks lie between the lowest offset and `top`, and each ends before the next begins. -/
lemma placeDown_spec (ha : 0 < align) (htop : align ∣ top)
    (hfit : (sizes.map (padded align)).sum ≤ top) :
    (∀ p ∈ (placeDown align top sizes).1.zip sizes,
      top - (sizes.map (padded align)).sum ≤ p.1 ∧ p.1 + p.2 ≤ top) ∧
    ((placeDown align top sizes).1.zip sizes).Pairwise fun p q => p.1 + p.2 ≤ q.1 := by
  induction sizes with
  | nil => simp [placeDown]
  | cons n sizes ih =>
    have hlow := placeDown_low ha htop hfit
    rw [map_cons, sum_cons] at hfit hlow ⊢
    obtain ⟨hin, hpair⟩ := ih (by omega)
    have hn := le_padded ha n
    rw [placeDown] at hlow ⊢
    dsimp only at hlow ⊢
    rw [hlow, zip_cons_cons, forall_mem_cons, pairwise_cons]
    refine ⟨⟨⟨le_rfl, by dsimp only; omega⟩, fun p hp => ?_⟩, fun p hp => ?_, hpair⟩
    · have hp' := hin p hp
      omega
    · have hp' := hin p hp
      dsimp only
      omega

end Place

/-! ## Writing -/

namespace Mem

/-- Writes in turn, each with its address. -/
def writeAll (mem : Mem) (ws : List (ℕ × List UInt8)) : Mem :=
  ws.foldl (fun mem w => mem.write w.1 w.2) mem

/-- The ranges of the writes do not meet. -/
def Apart (v w : ℕ × List UInt8) : Prop :=
  v.1 + v.2.length ≤ w.1 ∨ w.1 + w.2.length ≤ v.1

variable {mem : Mem} {ws : List (ℕ × List UInt8)}

lemma writeAll_eqOff (mem : Mem) (ws : List (ℕ × List UInt8)) :
    EqOff (fun x => ∃ w ∈ ws, Within w.1 w.2.length x) mem (mem.writeAll ws) := by
  induction ws generalizing mem with
  | nil => exact EqOff.refl mem
  | cons w ws ih =>
    refine EqOff.trans (EqOff.write mem fun x hx => ⟨w, mem_cons_self, hx⟩)
      ((ih (mem.write w.1 w.2)).mono fun x hx => ?_)
    obtain ⟨v, hv, hx⟩ := hx
    exact ⟨v, mem_cons_of_mem _ hv, hx⟩

lemma writeAll_read (hapart : ws.Pairwise Apart) {w : ℕ × List UInt8} (hw : w ∈ ws) :
    (mem.writeAll ws).read w.1 w.2.length = w.2 := by
  induction ws generalizing mem with
  | nil => simp at hw
  | cons v ws ih =>
    rw [pairwise_cons] at hapart
    rcases mem_cons.1 hw with rfl | hw
    · have hsame : ((mem.write w.1 w.2).writeAll ws).read w.1 w.2.length =
          (mem.write w.1 w.2).read w.1 w.2.length := by
        refine read_congr fun x hlo hhi => writeAll_eqOff _ ws x ?_
        rintro ⟨v, hv, hx⟩
        have hva := hapart.1 v hv
        unfold Apart at hva
        unfold Within at hx
        omega
      exact hsame.trans (mem.read_write w.1 w.2)
    · exact ih hapart.2 hw

end Mem

end CobjOs
