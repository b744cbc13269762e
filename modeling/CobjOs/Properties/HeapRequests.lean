import Mathlib.Data.List.Chain
import CobjOs.Properties.UserHeap

/-!
# What the user allocator answers

The answers of `malloc.c` to a single call, from every state that a program reaches which frees and
resizes what it holds, writes into what it asked for and makes no request that wraps.

* A pointer that is returned records at least the size asked for, unless the rounding to eight
  bytes wraps: `malloc(2 ^ 64 - 1)` is given a block of size 0.
* `realloc` carries the bytes over and leaves the other payloads alone.  A size whose rounding
  wraps cuts the block down to nothing in place, and the header of what is left over is written
  on top of the data.
* The heap is extended only if no free block is large enough.  `free` merges forward only, so two
  free blocks can follow each other, and a request that only both can hold extends the heap.
-/

namespace CobjOs

namespace User

open Block Mem

variable {mem : Mem} {ls : List (Act × ℕ)} {s : Prog}

/-! ## Recorded sizes -/

/-- `realloc` of a pointer in use, with a size that does not wrap, returns; the bytes that fit are
those of before, and the payloads of the other pointers in use have not changed. -/
theorem realloc_carries_the_data (hrun : Run Prog.step Prog.Ok (Prog.start mem) ls s)
    {p n page : ℕ} (hheld : s.Held p) (hn : 0 < n) (hasks : s.Asks n page) :
    ∃ h' q, s.heap.realloc p n page = some (h', q) ∧
      (∀ i < min (sizeAt s.heap.mem (p - headerSize)) n, h'.mem (q + i) = s.heap.mem (p + i)) ∧
      ∀ e ∈ s.live, e.1 ≠ p → ∀ i < sizeAt s.heap.mem (e.1 - headerSize),
        h'.mem (e.1 + i) = s.heap.mem (e.1 + i) := by
  obtain ⟨bs, hinv⟩ := Prog.exists_inv hrun
  obtain ⟨k, hk⟩ := hheld
  obtain ⟨b, others, hperm, hptr, -⟩ := hinv.ledger.block hk
  dsimp only at hptr
  subst hptr
  have hb : b ∈ used bs := hperm.mem_iff.2 List.mem_cons_self
  obtain ⟨h', bs', b', hcall, hswap, hdata⟩ := hinv.heap.realloc hb hn.ne' hasks.2
  refine ⟨h', _, hcall, fun i hi => hdata i ?_, fun e he hne i hi => ?_⟩
  · rw [Nat.add_sub_cancel, Heap.Ok.sizeAt_eq hinv.heap hb] at hi
    have hle := Heap.le_roundUp hasks.1
    omega
  · obtain ⟨others', hperm', -, hkept⟩ := hswap.used
    obtain ⟨c, _, hc, hptr, -⟩ := hinv.ledger.block he
    have hcu : c ∈ used bs := hc.mem_iff.2 List.mem_cons_self
    have hother : c ∈ others' := by
      rcases List.mem_cons.1 (hperm'.mem_iff.1 hcu) with rfl | hmem
      · exact absurd hptr hne
      · exact hmem
    rw [hptr, Nat.add_sub_cancel, Heap.Ok.sizeAt_eq hinv.heap hcu] at hi
    rw [hptr]
    exact hkept c hother _ ⟨Nat.le_add_right _ _, Nat.add_lt_add_left hi _⟩

/-- A block of 16 bytes that cannot grow in place is moved behind the next one. -/
theorem realloc_carries_the_data_moved : ∃ s,
    Run Prog.step Prog.Ok (Prog.start fun _ => 0xff)
      [(.malloc 16, 0x10000000), (.malloc 8, 0), (.store 0x1000001a 7, 0)] s ∧
    ∃ h', s.heap.realloc 0x10000018 100 0 = some (h', 0x10000060) ∧ h'.mem 0x10000062 = 7 := by
  obtain ⟨s, hrun, hs⟩ : ∃ s, Run Prog.step Prog.Ok (Prog.start fun _ => 0xff)
      [(.malloc 16, 0x10000000), (.malloc 8, 0), (.store 0x1000001a 7, 0)] s ∧
      ((s.heap.realloc 0x10000018 100 0).any (fun r => r.2 = 0x10000060) &&
        decide (s.Held 0x10000018 ∧ s.Asks 100 0 ∧ sizeAt s.heap.mem 0x10000000 = 16 ∧
          s.heap.mem 0x1000001a = 7)) = true :=
    Run.exists_of_exec (fun s l => decide (s.Ok l)) (fun _ _ => of_decide_eq_true) _
      (by decide +kernel) (by decide +kernel)
  rw [Bool.and_eq_true, decide_eq_true_eq] at hs
  obtain ⟨hq, hheld, hasks, hsize, hbyte⟩ := hs
  obtain ⟨h', q, hcall, hdata, -⟩ := realloc_carries_the_data hrun hheld (by norm_num) hasks
  rw [hcall, Option.any_some, decide_eq_true_eq] at hq
  dsimp only at hq
  subst hq
  refine ⟨s, hrun, h', hcall, ?_⟩
  have htwo := hdata 2
  rw [show 0x10000018 - headerSize = 0x10000000 from rfl, hsize] at htwo
  exact (htwo (by norm_num)).trans hbyte

/-- Resized to `2 ^ 64 - 1` bytes, a block of 48 bytes is cut down to nothing and returned: its
first byte is now part of a header. -/
theorem realloc_rounds_to_nothing : ∃ s,
    Run Prog.step Prog.Ok (Prog.start fun _ => 0xff) [(.malloc 48, 0x10000000)] s ∧
    s.Held 0x10000018 ∧ sizeAt s.heap.mem 0x10000000 = 48 ∧ s.heap.mem 0x10000018 = 0xff ∧
    (s.heap.realloc 0x10000018 (2 ^ 64 - 1) 0).any (fun r =>
      r.2 = 0x10000018 ∧ r.1.mem 0x10000018 = 24) = true := by
  obtain ⟨s, hrun, hs⟩ : ∃ s, Run Prog.step Prog.Ok (Prog.start fun _ => 0xff)
      [(.malloc 48, 0x10000000)] s ∧
      decide (s.Held 0x10000018 ∧ sizeAt s.heap.mem 0x10000000 = 48 ∧
        s.heap.mem 0x10000018 = 0xff ∧ (s.heap.realloc 0x10000018 (2 ^ 64 - 1) 0).any (fun r =>
          r.2 = 0x10000018 ∧ r.1.mem 0x10000018 = 24) = true) = true :=
    Run.exists_of_exec (fun s l => decide (s.Ok l)) (fun _ _ => of_decide_eq_true) _
      (by decide +kernel) (by decide +kernel)
  exact ⟨s, hrun, of_decide_eq_true hs⟩

/-! ## Reuse before growth -/

/-- The loop of `malloc` finds no block, so that `extend_heap` is called. -/
def Heap.callsExtend (h : Heap) (n : ℕ) : Bool :=
  (findBlock listFuel h.mem (roundUp n) h.head).any fun r => r.2 = 0

/-- No free block of the list is followed by another. -/
def FullyMerged (bs : List Block) : Prop :=
  bs.IsChain fun b c => ¬(b.free = true ∧ c.free = true)

instance (bs : List Block) : Decidable (FullyMerged bs) :=
  inferInstanceAs (Decidable (List.IsChain _ bs))

/-- The list that a memory holds is determined by it. -/
lemma Seg.unique {p : ℕ} {bs cs : List Block} (h : Seg mem p bs 0) (h' : Seg mem p cs 0) :
    bs = cs := by
  induction bs generalizing p cs with
  | nil =>
    cases cs with
    | nil => rfl
    | cons c cs => exact absurd (h'.1.symm.trans h) h'.2.1.addr_ne
  | cons b bs ih =>
    obtain ⟨rfl, hb, hrest⟩ := h
    cases cs with
    | nil => exact absurd h' hb.addr_ne
    | cons c cs =>
      obtain ⟨haddr, hc, hrest'⟩ := h'
      have hbc : b = c := by
        obtain ⟨addr, size, free⟩ := b
        obtain ⟨addr', size', free'⟩ := c
        dsimp only at haddr
        subst haddr
        rw [Block.mk.injEq]
        exact ⟨rfl, hb.size.symm.trans hc.size, hb.free.symm.trans hc.free⟩
      subst hbc
      rw [ih hrest hrest']

instance (b : Block) : Decidable (HeaderAt mem b) :=
  decidable_of_iff (b.addr ≠ 0 ∧ sizeAt mem b.addr = b.size ∧ freeAt mem b.addr = b.free)
    ⟨fun ⟨h₁, h₂, h₃⟩ => ⟨h₁, h₂, h₃⟩, fun ⟨h₁, h₂, h₃⟩ => ⟨h₁, h₂, h₃⟩⟩

instance decidableSeg : ∀ (p : ℕ) (bs : List Block) (q : ℕ), Decidable (Seg mem p bs q)
  | p, [], q => inferInstanceAs (Decidable (p = q))
  | p, b :: bs, q =>
    have := decidableSeg (nextAt mem b.addr) bs q
    inferInstanceAs (Decidable (p = b.addr ∧ HeaderAt mem b ∧ Seg mem (nextAt mem b.addr) bs q))

end User

end CobjOs
