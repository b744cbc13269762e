import Mathlib.Algebra.BigOperators.Group.List.Basic
import Mathlib.Data.List.Basic
import Mathlib.Data.List.Pairwise
import Mathlib.Tactic.NormNum

/-!
# Lists of blocks in the order of their addresses

A block is a header of `hdr` bytes and a payload behind it.  `Laid hdr lo bs hi` says that the
blocks `bs` follow each other between `lo` and `hi`; there may be gaps.  `absorb b bs` joins a block
with the free blocks that follow it, and keeps that and the number of bytes in the list (`total`).
The joined block may end before the last of them did, never behind it, so gaps between them do no
harm.
-/

namespace CobjOs

structure Block where
  addr : ℕ
  size : ℕ
  free : Bool
  deriving DecidableEq, Repr

namespace Block

variable {hdr lo hi m n min : ℕ} {b c : Block} {bs cs : List Block}

/-- The end of a block. -/
def fin (hdr : ℕ) (b : Block) : ℕ := b.addr + hdr + b.size

/-- The blocks follow each other between `lo` and `hi`. -/
def Laid (hdr : ℕ) : ℕ → List Block → ℕ → Prop
  | lo, [], hi => lo ≤ hi
  | lo, b :: bs, hi => lo ≤ b.addr ∧ Laid hdr (b.fin hdr) bs hi

/-- The bytes of the blocks, headers included. -/
def total (hdr : ℕ) (bs : List Block) : ℕ := (bs.map fun b => hdr + b.size).sum

/-- A block joined with the free blocks behind it. -/
def absorb (hdr : ℕ) (b : Block) : List Block → List Block
  | [] => [b]
  | c :: cs =>
    if c.free then absorb hdr { b with size := b.size + (hdr + c.size) } cs else b :: c :: cs

/-! ## Order -/

namespace Laid

lemma mono_left (h : Laid hdr m bs hi) (hlo : lo ≤ m) : Laid hdr lo bs hi := by
  cases bs with
  | nil => exact hlo.trans h
  | cons b bs => exact ⟨hlo.trans h.1, h.2⟩

lemma mono_right (h : Laid hdr lo bs m) (hhi : m ≤ hi) : Laid hdr lo bs hi := by
  induction bs generalizing lo with
  | nil => exact le_trans h hhi
  | cons b bs ih => exact ⟨h.1, ih h.2⟩

lemma le (h : Laid hdr lo bs hi) : lo ≤ hi := by
  induction bs generalizing lo with
  | nil => exact h
  | cons b bs ih =>
    have hrest : b.fin hdr ≤ hi := ih h.2
    have hlo := h.1
    unfold fin at hrest
    omega

lemma append : Laid hdr lo (bs ++ cs) hi ↔ ∃ m, Laid hdr lo bs m ∧ Laid hdr m cs hi := by
  induction bs generalizing lo with
  | nil =>
    constructor
    · exact fun h => ⟨lo, le_refl lo, h⟩
    · rintro ⟨m, hlo, h⟩
      exact h.mono_left hlo
  | cons b bs ih =>
    simp only [List.cons_append, Laid, ih]
    constructor
    · rintro ⟨hlo, m, hbs, hcs⟩
      exact ⟨m, ⟨hlo, hbs⟩, hcs⟩
    · rintro ⟨m, ⟨hlo, hbs⟩, hcs⟩
      exact ⟨hlo, m, hbs, hcs⟩

lemma bounds (h : Laid hdr lo bs hi) (hb : b ∈ bs) : lo ≤ b.addr ∧ b.fin hdr ≤ hi := by
  induction bs generalizing lo with
  | nil => cases hb
  | cons c bs ih =>
    rcases List.mem_cons.1 hb with rfl | hb
    · exact ⟨h.1, h.2.le⟩
    · obtain ⟨hlo, hhi⟩ := ih h.2 hb
      have hc := h.1
      unfold fin at hlo
      exact ⟨by omega, hhi⟩

lemma pairwise (h : Laid hdr lo bs hi) : bs.Pairwise fun b c => b.fin hdr ≤ c.addr := by
  induction bs generalizing lo with
  | nil => exact .nil
  | cons b bs ih => exact .cons (fun c hc => (h.2.bounds hc).1) (ih h.2)

/-- Two blocks of the list are the same, or one ends before the other. -/
lemma apart (h : Laid hdr lo bs hi) (hb : b ∈ bs) (hc : c ∈ bs) :
    b = c ∨ b.fin hdr ≤ c.addr ∨ c.fin hdr ≤ b.addr := by
  by_cases hbc : b = c
  · exact Or.inl hbc
  · have hpair : bs.Pairwise fun b c => b.fin hdr ≤ c.addr ∨ c.fin hdr ≤ b.addr :=
      h.pairwise.imp fun hle => Or.inl hle
    have : Std.Symm fun b c : Block => b.fin hdr ≤ c.addr ∨ c.fin hdr ≤ b.addr :=
      ⟨fun _ _ => Or.symm⟩
    exact Or.inr (hpair.forall hb hc hbc)

lemma nodup (h : Laid hdr lo bs hi) (hhdr : 0 < hdr) : bs.Nodup := by
  refine h.pairwise.imp fun {b c} hle heq => ?_
  rw [heq, fin] at hle
  omega

lemma length_le (h : Laid hdr lo bs hi) : lo + bs.length * hdr ≤ hi := by
  induction bs generalizing lo with
  | nil => simpa using h.le
  | cons b bs ih =>
    have hrest := ih h.2
    have hlo := h.1
    unfold fin at hrest
    rw [List.length_cons, Nat.succ_mul]
    omega

end Laid

/-! ## Bytes -/

@[simp] lemma total_nil : total hdr [] = 0 := rfl

@[simp] lemma total_cons : total hdr (b :: bs) = hdr + b.size + total hdr bs := by simp [total]

@[simp] lemma total_append : total hdr (bs ++ cs) = total hdr bs + total hdr cs := by
  simp [total]

lemma total_absorb (b : Block) (bs : List Block) :
    total hdr (absorb hdr b bs) = total hdr (b :: bs) := by
  induction bs generalizing b with
  | nil => rfl
  | cons c cs ih =>
    rw [absorb]
    split_ifs
    · rw [ih]
      simp only [total_cons]
      omega
    · rfl

/-! ## Blocks in use -/

/-- The blocks in use. -/
def used (bs : List Block) : List Block := bs.filter fun b => !b.free

/-- A block with the bytes of the free blocks behind it. -/
def grown (hdr : ℕ) (b : Block) (bs : List Block) : Block :=
  { b with size := b.size + total hdr (bs.takeWhile Block.free) }

/-- The first block that a split leaves. -/
def shrunk (min n : ℕ) (b : Block) : Block := if b.size < n + min then b else { b with size := n }

@[simp] lemma addr_grown : (grown hdr b bs).addr = b.addr := rfl

@[simp] lemma free_grown : (grown hdr b bs).free = b.free := rfl

@[simp] lemma addr_shrunk : (shrunk min n b).addr = b.addr := by
  unfold shrunk
  split_ifs <;> rfl

@[simp] lemma free_shrunk : (shrunk min n b).free = b.free := by
  unfold shrunk
  split_ifs <;> rfl

lemma le_size_shrunk (hn : n ≤ b.size) : n ≤ (shrunk min n b).size := by
  unfold shrunk
  split_ifs
  · exact hn
  · exact le_rfl

lemma absorb_eq (hdr : ℕ) (b : Block) (bs : List Block) :
    absorb hdr b bs = grown hdr b bs :: bs.dropWhile Block.free := by
  induction bs generalizing b with
  | nil => rfl
  | cons c cs ih =>
    rw [absorb]
    by_cases hc : c.free = true
    · simp only [grown, hc, if_true, ih, List.takeWhile_cons, List.dropWhile_cons, total_cons]
      rw [Nat.add_assoc]
    · simp [grown, hc]

/-- Joining keeps the bytes. -/
lemma total_grown (hdr : ℕ) (b : Block) (bs : List Block) :
    total hdr (grown hdr b bs :: bs.dropWhile Block.free) = total hdr (b :: bs) := by
  rw [← absorb_eq, total_absorb]

@[simp] lemma used_append : used (bs ++ cs) = used bs ++ used cs := List.filter_append ..

lemma used_cons_of_free (hb : b.free = true) : used (b :: bs) = used bs := by simp [used, hb]

lemma used_cons_of_used (hb : b.free = false) : used (b :: bs) = b :: used bs := by
  simp [used, hb]

lemma mem_used : b ∈ used bs ↔ b ∈ bs ∧ b.free = false := by simp [used]

lemma used_dropWhile (bs : List Block) : used (bs.dropWhile Block.free) = used bs := by
  induction bs with
  | nil => rfl
  | cons b bs ih =>
    by_cases hb : b.free = true
    · rw [List.dropWhile_cons_of_pos hb, ih, used_cons_of_free hb]
    · rw [List.dropWhile_cons_of_neg hb]

end Block

end CobjOs
