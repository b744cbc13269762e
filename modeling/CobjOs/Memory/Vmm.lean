import CobjOs.Memory.Heap

/-!
# Page tables

`src/mm/vmm.c`.  An address space is a record of two words on the kernel heap, the kernel's
pointer to its `PML4` and the physical address of it.  A table is a page of 512 entries of eight
bytes; an entry holds the physical address of a page, flags in the low twelve bits, and bit 0
says whether it is present.

Flushing the translation cache (`invlpg`) has no effect on the tables and is left out.
-/

namespace CobjOs

/-- `PAGE_PRESENT`, `PAGE_WRITE`, `PAGE_USER`. -/
def pagePresent : ℕ := 1
def pageWrite : ℕ := 2
def pageUser : ℕ := 4

/-- `PML4_IDX`, `PDPT_IDX`, `PD_IDX`, `PT_IDX`. -/
def pml4Idx (virt : ℕ) : ℕ := virt / 2 ^ 39 % 512
def pdptIdx (virt : ℕ) : ℕ := virt / 2 ^ 30 % 512
def pdIdx (virt : ℕ) : ℕ := virt / 2 ^ 21 % 512
def ptIdx (virt : ℕ) : ℕ := virt / 2 ^ 12 % 512

/-- `ENTRY_TO_PHYS`. -/
def entryToPhys (entry : ℕ) : ℕ := alignDown entry

/-- `*pte & PAGE_PRESENT`. -/
def isPresent (entry : ℕ) : Bool := entry % 2 == 1

namespace Mm

/-- `next_table`. -/
def nextTable (m : Mm) (entry : ℕ) : ℕ := entryToPhys entry + m.hhdm

/-- One level of `vmm_get_pte`: the table that entry `idx` of the table at `table` points to.  An
absent one is allocated, cleared and entered if `alloc` is set, and otherwise there is none. -/
def nextLevel (m : Mm) (table idx : ℕ) (alloc : Bool) : Option (Mm × Option ℕ) :=
  let slot := table + 8 * idx
  if isPresent (m.ram.readNat 8 slot) then some (m, some (m.nextTable (m.ram.readNat 8 slot)))
  else if !alloc then some (m, none)
  else do
    let (pmm, phys) ← m.pmm.allocPage
    if phys = 0 then none
    else
      let ram := m.ram.fill (phys + m.hhdm) pageSize 0
      let ram := ram.writeNat 8 slot (phys ||| pagePresent ||| pageWrite ||| pageUser)
      let m := { m with pmm := pmm, ram := ram }
      some (m, some (m.nextTable (m.ram.readNat 8 slot)))

/-- `vmm_get_pte`: the address of the last-level entry. -/
def vmmGetPte (m : Mm) (space virt : ℕ) (alloc : Bool) : Option (Mm × Option ℕ) := do
  let pml4 := m.ram.readNat 8 space
  let (m, pdpt) ← m.nextLevel pml4 (pml4Idx virt) alloc
  match pdpt with
  | none => some (m, none)
  | some pdpt =>
    let (m, pd) ← m.nextLevel pdpt (pdptIdx virt) alloc
    match pd with
    | none => some (m, none)
    | some pd =>
      let (m, pt) ← m.nextLevel pd (pdIdx virt) alloc
      match pt with
      | none => some (m, none)
      | some pt => some (m, some (pt + 8 * ptIdx virt))

/-- `vmm_get_mapping`: the physical page and the flags, or `none` for `-1`. -/
def vmmGetMapping (m : Mm) (space virt : ℕ) : Option (ℕ × ℕ) := do
  let (m, pte) ← m.vmmGetPte space virt false
  let pte ← pte
  let entry := m.ram.readNat 8 pte
  if isPresent entry then some (entryToPhys entry, entry % 4096) else none

/-- `vmm_map_page`. -/
def vmmMapPage (m : Mm) (space virt phys flags : ℕ) : Option Mm := do
  let (m, pte) ← m.vmmGetPte space virt true
  let pte ← pte
  some { m with ram := m.ram.writeNat 8 pte (alignDown phys ||| (flags ||| pagePresent)) }

/-- `vmm_unmap_page`; it panics when the page is not mapped. -/
def vmmUnmapPage (m : Mm) (space virt : ℕ) : Option Mm := do
  let (m, pte) ← m.vmmGetPte space virt false
  let pte ← pte
  if isPresent (m.ram.readNat 8 pte) then some { m with ram := m.ram.writeNat 8 pte 0 } else none

/-- `sizeof(addr_space_t)`. -/
def addrSpaceSize : ℕ := 16

/-- One turn of the loop of `vmm_create_user_space`. -/
def copyEntry (kernelPml4 pml4 : ℕ) (ram : Mem) (i : ℕ) : Mem :=
  ram.writeNat 8 (pml4 + 8 * i) (ram.readNat 8 (kernelPml4 + 8 * i))

/-- That loop: the kernel's half of the `PML4` is the kernel's own. -/
def copyKernelHalf (kernelPml4 pml4 : ℕ) (ram : Mem) : Mem :=
  (List.range' 256 256).foldl (copyEntry kernelPml4 pml4) ram

/-- `vmm_create_user_space`: the address of the new record. -/
def vmmCreateUserSpace (m : Mm) : Option (Mm × ℕ) := do
  let (m, space) ← m.kmalloc addrSpaceSize
  if space = 0 then none
  else
    let (pmm, phys) ← m.pmm.allocPage
    if phys = 0 then none
    else
      let pml4 := phys + m.hhdm
      let ram := (m.ram.writeNat 8 (space + 8) phys).writeNat 8 space pml4
      let ram := ram.fill pml4 pageSize 0
      let ram := copyKernelHalf (m.kernelPml4 + m.hhdm) pml4 ram
      some ({ m with pmm := pmm, ram := ram }, space)

end Mm

end CobjOs
