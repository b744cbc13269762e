import CobjOs.Framework.Bytes
import CobjOs.Memory.Pmm

/-!
# The kernel heap

`src/mm/heap.c`: eight caches of equally sized blocks.  A page taken for a cache is cut into
blocks, each behind a header of eight bytes that names the cache; a free block holds the link to
the next one in its first eight bytes.  Larger requests take whole pages, with the same header.

The byte at the physical address `a` stands at `a + hhdm_offset`; a pointer is such an address, and
`0` is the null pointer.  The counters `total` and `used` stay far below their 64 bits.
-/

namespace CobjOs

/-- `SLAB_SIZES`. -/
def slabSizes : List ℕ := [16, 32, 64, 128, 256, 512, 1024, 2048]

/-- `SLAB_CLASS_COUNT`. -/
def slabClassCount : ℕ := 8

/-- `sizeof(slab_header_t)`: `cache_idx` and `_pad`, four bytes each. -/
def slabHeaderSize : ℕ := 8

/-- `slab_cache_t`. -/
structure SlabCache where
  free : ℕ
  objSize : ℕ
  total : ℕ
  used : ℕ
  deriving DecidableEq, Repr

/-- The state of the memory manager: memory as the kernel addresses it, the page bitmap, the
caches, and the physical address of the kernel's `PML4`. -/
structure Mm where
  hhdm : ℕ
  ram : Mem
  pmm : Pmm
  caches : ℕ → SlabCache
  kernelPml4 : ℕ

/-- Physical memory has fewer than `2 ^ 32` pages, and the kernel sees all of it at
`hhdm_offset`. -/
def Mm.Mapped (m : Mm) : Prop :=
  m.pmm.pageCount < 2 ^ 32 ∧ m.pmm.pageCount * pageSize + m.hhdm ≤ 2 ^ 64

namespace Mm

/-- Writes the record of a cache. -/
def setCache (m : Mm) (c : ℕ) (cache : SlabCache) : Mm :=
  { m with caches := Function.update m.caches c cache }

section SetCache

variable (m : Mm) (c : ℕ) (cache : SlabCache)

@[simp]
lemma setCache_hhdm : (m.setCache c cache).hhdm = m.hhdm := rfl

@[simp]
lemma setCache_ram : (m.setCache c cache).ram = m.ram := rfl

@[simp]
lemma setCache_pmm : (m.setCache c cache).pmm = m.pmm := rfl

@[simp]
lemma setCache_self : (m.setCache c cache).caches c = cache := Function.update_self ..

@[simp]
lemma setCache_of_ne {c' : ℕ} (h : c' ≠ c) : (m.setCache c cache).caches c' = m.caches c' :=
  Function.update_of_ne h ..

end SetCache

/-- `slab_init`. -/
def slabInit (m : Mm) : Mm :=
  { m with caches := fun i => { free := 0, objSize := slabSizes.getD i 0, total := 0, used := 0 } }

/-- One turn of the loop of `slab_refill`: block `i` of the page gets its header and becomes the
first of the free list. -/
def carve (cacheIdx blockSize page : ℕ) (s : Mem × ℕ) (i : ℕ) : Mem × ℕ :=
  let raw := page + i * blockSize
  let ram := (s.1.writeNat 4 raw cacheIdx).writeNat 4 (raw + 4) 0
  let block := raw + slabHeaderSize
  (ram.writeNat 8 block s.2, block)

/-- `slab_refill` for the cache with the given index. -/
def slabRefill (m : Mm) (c : ℕ) : Option Mm := do
  let (pmm, phys) ← m.pmm.allocPage
  if phys = 0 then none
  else
    let page := phys + m.hhdm
    let cache := m.caches c
    let blockSize := cache.objSize + slabHeaderSize
    let count := pageSize / blockSize
    let (ram, free) := (List.range count).foldl (carve c blockSize page)
      (m.ram.fill page pageSize 0, cache.free)
    let m := { m with pmm := pmm, ram := ram }
    some (m.setCache c { cache with free := free, total := cache.total + count })

/-- The end of `kmalloc` for a cache that has a free block. -/
def takeBlock (m : Mm) (c : ℕ) : Mm × ℕ :=
  let cache := m.caches c
  let block := cache.free
  (m.setCache c { cache with free := m.ram.readNat 8 block, used := cache.used + 1 }, block)

/-- The end of `kmalloc` for a size no cache has. -/
def kmallocLarge (m : Mm) (size : ℕ) : Option (Mm × ℕ) := do
  let total := u64 (size + slabHeaderSize)
  let pages := u64 (total + pageSize - 1) / pageSize
  let (pmm, phys) ← m.pmm.allocPages pages
  if phys = 0 then none
  else
    let raw := phys + m.hhdm
    let ram := (m.ram.writeNat 4 raw slabClassCount).writeNat 4 (raw + 4) pages
    some ({ m with pmm := pmm, ram := ram }, raw + slabHeaderSize)

/-- `kmalloc`. -/
def kmalloc (m : Mm) (size : ℕ) : Option (Mm × ℕ) :=
  if size = 0 then some (m, 0)
  else
    match (List.range slabClassCount).find? fun i => size ≤ (m.caches i).objSize with
    | some c => do
      let m ← (if (m.caches c).free = 0 then m.slabRefill c else some m)
      some (m.takeBlock c)
    | none => m.kmallocLarge size

/-- `kfree`. -/
def kfree (m : Mm) (ptr : ℕ) : Option Mm :=
  if ptr = 0 then some m
  else
    let hdr := ptr - slabHeaderSize
    let cacheIdx := m.ram.readNat 4 hdr
    if cacheIdx = slabClassCount then do
      let pmm ← m.pmm.freePages (hdr - m.hhdm) (m.ram.readNat 4 (hdr + 4))
      some { m with pmm := pmm }
    else if slabClassCount ≤ cacheIdx then none
    else
      let cache := m.caches cacheIdx
      let m := { m with ram := m.ram.writeNat 8 ptr cache.free }
      some (m.setCache cacheIdx { cache with free := ptr, used := cache.used - 1 })

end Mm

end CobjOs
