import CobjOs.Memory.Vmm

/-!
# `sys_mmap` and `sys_munmap`

`src/userspace/syscall.c`.  Of the calling process only the fields that the two calls use are kept
here.  A region is its 24 bytes on the kernel heap: `base` at 0, `size` at 8 and `next` at 16.

The walk over the list of regions has no bound in the source.  Here it stops without a result after
`2 ^ 64` turns.
-/

namespace CobjOs

/-- `USER_SPACE_TOP`. -/
def userSpaceTop : ℕ := 2 ^ 47

/-- `sizeof(vm_region_t)`. -/
def vmRegionSize : ℕ := 24

/-- What the calls use of a `process_t`. -/
structure ProcMem where
  addrSpace : ℕ
  heapTop : ℕ
  regions : ℕ
  deriving DecidableEq, Repr

namespace Mm

/-- The flags of the pages that `sys_mmap` maps, and of the stack. -/
def userFlags : ℕ := pagePresent ||| pageWrite ||| pageUser

/-- One turn of the loop of `sys_mmap`. -/
def mmapPage (space vaddr : ℕ) (m : Mm) (i : ℕ) : Option Mm := do
  let (pmm, phys) ← m.pmm.allocPage
  vmmMapPage { m with pmm := pmm } space (u64 (vaddr + i * pageSize)) phys userFlags

/-- `sys_mmap`: the process with its new region, and the address returned. -/
def sysMmap (m : Mm) (proc : ProcMem) (addr size : ℕ) : Option (Mm × ProcMem × ℕ) := do
  let pages := u64 (size + 4095) / pageSize
  let vaddr := if addr ≠ 0 then addr else proc.heapTop
  let m ← (List.range pages).foldlM (mmapPage proc.addrSpace vaddr) m
  let (m, region) ← m.kmalloc vmRegionSize
  let ram := m.ram.writeNat 8 region vaddr
  let ram := ram.writeNat 8 (region + 8) (u64 (pages * pageSize))
  let ram := ram.writeNat 8 (region + 16) proc.regions
  let proc := { proc with heapTop := u64 (vaddr + pages * pageSize), regions := region }
  some ({ m with ram := ram }, proc, vaddr)

/-- The loop of `sys_munmap` over the regions, with the region before `curr`, if any: the list
without the first region that starts at `addr`. -/
def unlinkRegion (m : Mm) (addr regions : ℕ) : ℕ → ℕ → ℕ → Option (Mm × ℕ)
  | 0, _, _ => none
  | fuel + 1, prev, curr =>
    if curr = 0 then some (m, regions)
    else
      let next := m.ram.readNat 8 (curr + 16)
      if m.ram.readNat 8 curr = addr then
        if prev = 0 then (m.kfree curr).map fun m => (m, next)
        else (kfree { m with ram := m.ram.writeNat 8 (prev + 16) next } curr).map fun m =>
          (m, regions)
      else unlinkRegion m addr regions fuel curr next

/-- One turn of the second loop of `sys_munmap`. -/
def munmapPage (space addr : ℕ) (m : Mm) (i : ℕ) : Option Mm := do
  let vaddr := u64 (addr + i * pageSize)
  let (m, pte) ← m.vmmGetPte space vaddr false
  match pte with
  | none => some m
  | some pte =>
    let entry := m.ram.readNat 8 pte
    if isPresent entry then do
      let pmm ← m.pmm.freePage (entryToPhys entry)
      vmmUnmapPage { m with pmm := pmm } space vaddr
    else some m

/-- `sys_munmap`. -/
def sysMunmap (m : Mm) (proc : ProcMem) (addr size : ℕ) : Option (Mm × ProcMem) := do
  let pages := u64 (size + 4095) / pageSize
  let (m, regions) ← m.unlinkRegion addr proc.regions (2 ^ 64) 0 proc.regions
  let m ← (List.range pages).foldlM (munmapPage proc.addrSpace addr) m
  some (m, { proc with regions := regions })

end Mm

end CobjOs
