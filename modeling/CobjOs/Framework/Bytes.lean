import Mathlib.Data.List.Basic
import Mathlib.Tactic.Common
import Mathlib.Tactic.NormNum

/-!
# Byte-addressed memory

A memory is a function from addresses to bytes.  Reads return lists of bytes, writes place a
list at an address, and fixed-width numbers are their little-endian bytes (`leBytes`, `leNat`).

`Mem.EqOff P mem mem'` says that the two memories differ only at addresses in `P`; it composes, so
a sequence of writes needs one statement about where it went.  `Mem.Chain` is a list threaded
through memory by a link word at the start of each element.
-/

namespace CobjOs

open List

/-! ## Little-endian numbers -/

/-- The `w` little-endian bytes of `n`; higher digits are dropped. -/
def leBytes : ℕ → ℕ → List UInt8
  | 0, _ => []
  | w + 1, n => UInt8.ofNat (n % 256) :: leBytes w (n / 256)

/-- The number with the given little-endian bytes. -/
def leNat : List UInt8 → ℕ
  | [] => 0
  | b :: bs => b.toNat + 256 * leNat bs

@[simp]
lemma length_leBytes (w n : ℕ) : (leBytes w n).length = w := by
  induction w generalizing n with
  | zero => rfl
  | succ w ih => simp [leBytes, ih]

lemma leNat_leBytes {w n : ℕ} (h : n < 256 ^ w) : leNat (leBytes w n) = n := by
  induction w generalizing n with
  | zero =>
    have hn : n = 0 := by simpa using h
    rw [hn]
    rfl
  | succ w ih =>
    have hdiv : n / 256 < 256 ^ w := Nat.div_lt_of_lt_mul (by rwa [pow_succ'] at h)
    rw [leBytes, leNat, ih hdiv, UInt8.toNat_ofNat']
    omega

lemma leBytes_leNat {bs : List UInt8} {w : ℕ} (h : bs.length = w) : leBytes w (leNat bs) = bs := by
  induction bs generalizing w with
  | nil =>
    subst h
    rfl
  | cons b bs ih =>
    obtain rfl : bs.length + 1 = w := h
    have hb : b.toNat < 256 := b.toNat_lt
    have hlow : (b.toNat + 256 * leNat bs) % 256 = b.toNat := by omega
    have hhigh : (b.toNat + 256 * leNat bs) / 256 = leNat bs := by omega
    rw [leNat, leBytes, hlow, hhigh, ih rfl, UInt8.ofNat_toNat]

lemma leNat_lt (bs : List UInt8) : leNat bs < 256 ^ bs.length := by
  induction bs with
  | nil => simp [leNat]
  | cons b bs ih =>
    have hb : b.toNat < 256 := b.toNat_lt
    rw [leNat, length_cons, pow_succ]
    omega

lemma leNat_replicate_zero (n : ℕ) : leNat (replicate n 0) = 0 := by
  induction n with
  | zero => rfl
  | succ n ih =>
    rw [replicate_succ, leNat, ih]
    rfl

/-! ## Memory -/

/-- A byte at every address. -/
abbrev Mem := ℕ → UInt8

namespace Mem

variable {mem mem' mem'' : Mem} {a b n w v : ℕ} {bs : List UInt8}

/-- The `n` bytes from `a` on. -/
def read (mem : Mem) (a n : ℕ) : List UInt8 := (List.range n).map fun i => mem (a + i)

/-- The bytes `bs` placed at `a`. -/
def write (mem : Mem) (a : ℕ) (bs : List UInt8) : Mem :=
  fun x => if a ≤ x ∧ x < a + bs.length then bs.getD (x - a) 0 else mem x

/-- The `n` bytes from `a` on set to `b`. -/
def fill (mem : Mem) (a n : ℕ) (b : UInt8) : Mem :=
  fun x => if a ≤ x ∧ x < a + n then b else mem x

/-- The `n` bytes from `src` on copied to `dst`, one after the other from the lowest on. -/
def copy (mem : Mem) (dst src : ℕ) : ℕ → Mem
  | 0 => mem
  | n + 1 => fun x => mem.copy dst src n (if x = dst + n then src + n else x)

/-- The number of `w` bytes at `a`. -/
def readNat (mem : Mem) (w a : ℕ) : ℕ := leNat (mem.read a w)

/-- The number `v` written as `w` bytes at `a`. -/
def writeNat (mem : Mem) (w a v : ℕ) : Mem := mem.write a (leBytes w v)

@[simp]
lemma length_read : (mem.read a n).length = n := by simp [read]

lemma readNat_lt (mem : Mem) (w a : ℕ) : mem.readNat w a < 256 ^ w := by
  have h := leNat_lt (mem.read a w)
  rwa [length_read] at h

/-! ### What is read back -/

lemma read_congr (h : ∀ x, a ≤ x → x < a + n → mem' x = mem x) :
    mem'.read a n = mem.read a n := by
  refine map_congr_left fun i hi => ?_
  have hi' : i < n := mem_range.mp hi
  exact h (a + i) (by omega) (by omega)

lemma readNat_congr (h : ∀ x, a ≤ x → x < a + w → mem' x = mem x) :
    mem'.readNat w a = mem.readNat w a := by
  rw [readNat, readNat, read_congr h]

lemma read_write (mem : Mem) (a : ℕ) (bs : List UInt8) :
    (mem.write a bs).read a bs.length = bs := by
  refine ext_getElem (by simp) fun i h₁ h₂ => ?_
  have hin : a ≤ a + i ∧ a + i < a + bs.length := by omega
  simp [read, write, h₂]

lemma readNat_writeNat (mem : Mem) (a : ℕ) (h : v < 256 ^ w) :
    (mem.writeNat w a v).readNat w a = v := by
  have hread := mem.read_write a (leBytes w v)
  rw [length_leBytes] at hread
  rw [readNat, writeNat, hread, leNat_leBytes h]

/-- A number read from a zeroed range. -/
lemma readNat_fill_zero (mem : Mem) (ha : a ≤ b) (hb : b + w ≤ a + n) :
    (mem.fill a n 0).readNat w b = 0 := by
  have hread : (mem.fill a n 0).read b w = replicate w 0 := by
    refine ext_getElem (by simp) fun i h₁ h₂ => ?_
    have hi : i < w := by simpa using h₁
    have hin : a ≤ b + i ∧ b + i < a + n := by omega
    simp [read, fill, hin]
  rw [readNat, hread, leNat_replicate_zero]

lemma length_flatMap_leBytes (w : ℕ) (vs : List ℕ) :
    (vs.flatMap (leBytes w)).length = vs.length * w := by
  induction vs with
  | nil => simp
  | cons v vs ih =>
    rw [flatMap_cons, length_append, length_leBytes, ih, length_cons, Nat.succ_mul,
      Nat.add_comm]

/-! ### What stays -/

/-- The memories differ at most at addresses in `P`. -/
def EqOff (P : ℕ → Prop) (mem mem' : Mem) : Prop := ∀ x, ¬P x → mem' x = mem x

/-- The addresses of a range. -/
def Within (a n x : ℕ) : Prop := a ≤ x ∧ x < a + n

namespace EqOff

variable {P Q : ℕ → Prop}

lemma refl (mem : Mem) : EqOff P mem mem := fun _ _ => rfl

lemma trans (h : EqOff P mem mem') (h' : EqOff P mem' mem'') : EqOff P mem mem'' :=
  fun x hx => (h' x hx).trans (h x hx)

lemma mono (h : EqOff P mem mem') (hPQ : ∀ x, P x → Q x) : EqOff Q mem mem' :=
  fun x hx => h x fun hP => hx (hPQ x hP)

lemma write (mem : Mem) (h : ∀ x, Within a bs.length x → P x) : EqOff P mem (mem.write a bs) := by
  intro x hx
  have hout : ¬(a ≤ x ∧ x < a + bs.length) := fun hin => hx (h x hin)
  rw [Mem.write, if_neg hout]

lemma writeNat (mem : Mem) (h : ∀ x, Within a w x → P x) : EqOff P mem (mem.writeNat w a v) := by
  refine EqOff.write mem ?_
  rwa [length_leBytes]

lemma fill (mem : Mem) {c : UInt8} (h : ∀ x, Within a n x → P x) :
    EqOff P mem (mem.fill a n c) := by
  intro x hx
  have hout : ¬(a ≤ x ∧ x < a + n) := fun hin => hx (h x hin)
  rw [Mem.fill, if_neg hout]

lemma copy (mem : Mem) : EqOff (Within a n) mem (mem.copy a b n) := by
  induction n with
  | zero => exact EqOff.refl mem
  | succ n ih =>
    intro x hx
    have hne : x ≠ a + n := fun hx' => hx (by unfold Within; omega)
    have hstep : mem.copy a b (n + 1) x = mem.copy a b n x := congrArg _ (if_neg hne)
    rw [hstep]
    exact ih x fun hx' => hx (by unfold Within at hx' ⊢; omega)

/-- A range that the change avoids reads as before. -/
lemma readNat (h : EqOff P mem mem') (ha : ∀ x, Within a w x → ¬P x) :
    mem'.readNat w a = mem.readNat w a :=
  readNat_congr fun x h₁ h₂ => h x (ha x ⟨h₁, h₂⟩)

end EqOff

/-- A copy in which no byte is overwritten before its turn. -/
lemma copy_apply {j : ℕ} (hj : j < n) (hapart : ∀ i < n, ¬Within a i (b + i)) :
    mem.copy a b n (a + j) = mem (b + j) := by
  induction n with
  | zero => omega
  | succ n ih =>
    by_cases hlast : a + j = a + n
    · have hstep : mem.copy a b (n + 1) (a + j) = mem.copy a b n (b + n) :=
        congrArg _ (if_pos hlast)
      obtain rfl : j = n := by omega
      rw [hstep]
      exact EqOff.copy mem _ (hapart j (Nat.lt_succ_self j))
    · have hstep : mem.copy a b (n + 1) (a + j) = mem.copy a b n (a + j) :=
        congrArg _ (if_neg hlast)
      rw [hstep]
      exact ih (by omega) fun i hi => hapart i (by omega)

/-- A copy to a lower address, which may overlap the original. -/
lemma copy_apply_of_le {j : ℕ} (hj : j < n) (hle : a ≤ b) :
    mem.copy a b n (a + j) = mem (b + j) :=
  copy_apply hj fun i _ hx => by
    unfold Within at hx
    omega

lemma read_copy (hapart : a + n ≤ b ∨ b + n ≤ a) : (mem.copy a b n).read a n = mem.read b n := by
  refine map_congr_left fun j hj => copy_apply (mem_range.1 hj) fun i hi hx => ?_
  unfold Within at hx
  omega

lemma copy_eq_write (hapart : a + n ≤ b ∨ b + n ≤ a) :
    mem.copy a b n = mem.write a (mem.read b n) := by
  funext x
  by_cases hx : a ≤ x ∧ x < a + n
  · obtain ⟨j, rfl⟩ := Nat.exists_eq_add_of_le hx.1
    have hj : j < n := by omega
    have hcopy : mem.copy a b n (a + j) = mem (b + j) := copy_apply hj fun i hi hin => by
      unfold Within at hin
      omega
    rw [hcopy, write, length_read, if_pos hx, Nat.add_sub_cancel_left]
    simp [read, hj]
  · rw [EqOff.copy mem x hx, write, length_read, if_neg hx]

lemma read_sub {i k : ℕ} (h : i + k ≤ n) : mem.read (a + i) k = ((mem.read a n).drop i).take k := by
  refine ext_getElem (by simp; omega) fun j h₁ h₂ => ?_
  simp [read, Nat.add_assoc]

/-! ### Chains -/

/-- The elements of a list threaded through memory: each holds the address of the next in its
first `w` bytes, and `0` ends it. -/
def Chain (mem : Mem) (w : ℕ) : ℕ → List ℕ → Prop
  | start, [] => start = 0
  | start, b :: bs => start = b ∧ b ≠ 0 ∧ Chain mem w (mem.readNat w b) bs

namespace Chain

variable {start : ℕ} {l : List ℕ}

lemma congr : ∀ {l : List ℕ} {start : ℕ}, Chain mem w start l →
    (∀ b ∈ l, mem'.readNat w b = mem.readNat w b) → Chain mem' w start l
  | [], _, h, _ => h
  | b :: l, _, ⟨hstart, hb, hrest⟩, heq => by
      refine ⟨hstart, hb, ?_⟩
      rw [heq b (by simp)]
      exact congr hrest fun c hc => heq c (by simp [hc])

/-- An empty list is one that starts with the null address. -/
lemma eq_nil_iff (h : Chain mem w start l) : start = 0 ↔ l = [] := by
  cases l with
  | nil =>
    have hstart : start = 0 := h
    simp [hstart]
  | cons b l =>
    obtain ⟨hstart, hb, -⟩ := h
    simp [hstart, hb]

end Chain

/-- The memory from an offset on, for lists whose elements hold their link behind other fields. -/
def shift (mem : Mem) (off : ℕ) : Mem := fun x => mem (x + off)

lemma readNat_shift (mem : Mem) (off w a : ℕ) :
    (mem.shift off).readNat w a = mem.readNat w (a + off) := by
  have hread : (mem.shift off).read a w = mem.read (a + off) w := by
    refine map_congr_left fun i _ => congrArg mem ?_
    omega
  rw [readNat, readNat, hread]

-- numbers in memory are compared through the lemmas above, never byte by byte
attribute [irreducible] readNat writeNat

end Mem

end CobjOs
