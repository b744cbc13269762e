import CobjOs.Misc.MemOpsSpec

/-!
# The word routines agree with the byte routines

`mem.c` has every routine twice, by bytes and by words.  The two leave the same memory and return
the same number, whatever the alignment of the addresses, whether the ranges overlap, and also where
they wrap around the address space.

What `memmove` itself leaves is stated for ranges that do not wrap around.  The end of a range may
be the end of the address space.
-/

namespace CobjOs

namespace Mem

/-- From `mem` to `mem'` the `n` bytes at `src` were moved to `dst`, and nothing else changed. -/
structure Moves (mem mem' : Mem) (dst src n : ℕ) : Prop where
  moved : ∀ i < n, mem' (dst + i) = mem (src + i)
  kept : EqOff (Within dst n) mem mem'

lemma moves_memmove {mem : Mem} {dst src : UInt64} {n : ℕ} (hd : dst.toNat + n ≤ 2 ^ 64)
    (hs : src.toNat + n ≤ 2 ^ 64) :
    Moves mem (mem.memmove dst src n) dst.toNat src.toNat n where
  moved i hi := by
    have hin : dst.toNat ≤ dst.toNat + i ∧ dst.toNat + i < dst.toNat + n := by omega
    rw [memmove_apply hd hs, if_pos hin, Nat.add_sub_cancel_left]
  kept x hx := (memmove_apply hd hs x).trans (if_neg hx)

/-- Both routines move the bytes, however the ranges overlap. -/
theorem overlapping_moves_agree {mem : Mem} {dst src : UInt64} {n : ℕ}
    (hd : dst.toNat + n ≤ 2 ^ 64) (hs : src.toNat + n ≤ 2 ^ 64) :
    Moves mem (mem.memmove dst src n) dst.toNat src.toNat n ∧
      Moves mem (mem.memmove32 dst src n) dst.toNat src.toNat n ∧
      mem.memmove32 dst src n = mem.memmove dst src n := by
  have hmoves : Moves mem (mem.memmove dst src n) dst.toNat src.toNat n := moves_memmove hd hs
  refine ⟨hmoves, ?_, memmove32_eq mem dst src n⟩
  rw [memmove32_eq]
  exact hmoves

/-- The last bytes of the address space, moved by a distance that is not one of words. -/
theorem overlapping_moves_agree_end :
    (0xfffffffffffffff6 : UInt64).toNat + 10 ≤ 2 ^ 64 ∧
      (0xfffffffffffffff1 : UInt64).toNat + 10 ≤ 2 ^ 64 ∧
      Moves UInt8.ofNat (memmove32 UInt8.ofNat 0xfffffffffffffff6 0xfffffffffffffff1 10)
        0xfffffffffffffff6 0xfffffffffffffff1 10 :=
  ⟨by decide, by decide, (overlapping_moves_agree (by decide) (by decide)).2.1⟩

/-- The other routines: the copy agrees even where the ranges overlap. -/
theorem word_routines_agree (mem : Mem) (p q : UInt64) (c : ℤ) (n : ℕ) :
    mem.memset32 p c n = mem.memset p c n ∧
      mem.memcpy32 p q n = mem.memcpy p q n ∧
      mem.memcmp32 p q n = mem.memcmp p q n :=
  ⟨memset32_eq mem p c n, memcpy32_eq mem p q n, memcmp32_eq mem p q n⟩

end Mem

end CobjOs
