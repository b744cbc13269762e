import CobjOs.Framework.Bitmap
import CobjOs.Kernel.State

/-!
# Physical pages

`src/mm/pmm.c`: a bitmap with one bit per physical page, set while the page is in use.
`pmm_alloc_page` searches the words from the last one it took a page from, `pmm_alloc_pages`
searches the bits from the start for a run.  `none` stands for a panic.

The bitmap is an array of its own here; where it lies in memory only matters to `pmm_init`,
which marks those pages used.  Below `page_count` addresses of pages do not wrap.
-/

namespace CobjOs

/-- `PAGE_SIZE`. -/
def pageSize : ℕ := 4096

/-- `ALIGN_UP(x, PAGE_SIZE)`. -/
def alignUp (x : ℕ) : ℕ := u64 (x + pageSize - 1) / pageSize * pageSize

/-- `ALIGN_DOWN(x, PAGE_SIZE)`, which is also `x & ~0xfff`. -/
def alignDown (x : ℕ) : ℕ := x / pageSize * pageSize

/-- An entry of the memory map the boot loader passes on. -/
structure MemmapEntry where
  base : ℕ
  length : ℕ
  type : ℕ
  deriving DecidableEq, Repr

/-- `LIMINE_MEMMAP_USABLE`. -/
def memmapUsable : ℕ := 0

/-- The variables of `pmm.c`. -/
structure Pmm where
  bitmap : Bitmap
  pageCount : ℕ
  lastAllocWord : ℕ

namespace Pmm

/-- Whether the page is marked as used. -/
def used (m : Pmm) (page : ℕ) : Bool := m.bitmap.bit page

/-! ## Marking -/

/-- `pmm_mark_used`. -/
def markUsed (m : Pmm) (addr : ℕ) : Option Pmm :=
  if m.pageCount ≤ addr / pageSize then none
  else some { m with bitmap := m.bitmap.set (addr / pageSize) }

/-- `pmm_mark_free`. -/
def markFree (m : Pmm) (addr : ℕ) : Option Pmm :=
  if m.pageCount ≤ addr / pageSize then none
  else some { m with bitmap := m.bitmap.clear (addr / pageSize) }

/-- The page addresses a loop `for (addr = first; addr < last; addr += PAGE_SIZE)` goes through,
for two multiples of the page size. -/
def pageAddrs (first last : ℕ) : List ℕ :=
  (List.range ((last - first) / pageSize)).map fun i => first + i * pageSize

/-- `pmm_mark_range_used`: every page the range meets. -/
def markRangeUsed (m : Pmm) (base length : ℕ) : Option Pmm :=
  (pageAddrs (alignDown base) (alignUp (u64 (base + length)))).foldlM markUsed m

/-- `pmm_mark_range_free`: every page inside the range. -/
def markRangeFree (m : Pmm) (base length : ℕ) : Option Pmm :=
  (pageAddrs (alignUp base) (alignDown (u64 (base + length)))).foldlM markFree m

/-! ## Allocation -/

/-- The loop of `pmm_alloc_page` over the given turns. -/
def allocPageIn (m : Pmm) (words : ℕ) : List ℕ → Option (Pmm × ℕ)
  | [] => none
  | i :: is =>
    let word := u64 (m.lastAllocWord + i) % words
    if m.bitmap word = BitVec.allOnes 64 then allocPageIn m words is
    else
      let bit := ctz (~~~m.bitmap word)
      let globalBit := word * 64 + bit
      if m.pageCount ≤ globalBit then allocPageIn m words is
      else some ({ m with
        bitmap := Function.update m.bitmap word (m.bitmap word ||| 1#64 <<< bit)
        lastAllocWord := word }, globalBit * pageSize)

/-- `pmm_alloc_page`. -/
def allocPage (m : Pmm) : Option (Pmm × ℕ) :=
  let words := u64 (m.pageCount + 63) / 64
  m.allocPageIn words (List.range words)

/-- The loop of `pmm_alloc_pages` over the next `fuel` bits from `bit` on: where the first run of
`count` clear bits starts.  `run` clear bits from `runStart` on lie right before `bit`. -/
def findRun (m : Pmm) (count : ℕ) : ℕ → ℕ → ℕ → ℕ → Option ℕ
  | 0, _, _, _ => none
  | fuel + 1, bit, run, runStart =>
    if m.used bit = false then
      let runStart := if run = 0 then bit else runStart
      if run + 1 = count then some runStart
      else findRun m count fuel (bit + 1) (run + 1) runStart
    else findRun m count fuel (bit + 1) 0 runStart

/-- `pmm_alloc_pages`. -/
def allocPages (m : Pmm) (count : ℕ) : Option (Pmm × ℕ) :=
  if count = 0 then some (m, 0)
  else if count = 1 then m.allocPage
  else do
    let runStart ← m.findRun count m.pageCount 0 0 0
    some ({ m with bitmap := (List.range' runStart count).foldl Bitmap.set m.bitmap },
      runStart * pageSize)

/-! ## Freeing -/

/-- `pmm_free_page`, with its four panics. -/
def freePage (m : Pmm) (addr : ℕ) : Option Pmm :=
  if addr = 0 then none
  else if addr % pageSize ≠ 0 then none
  else if m.pageCount ≤ addr / pageSize then none
  else if m.used (addr / pageSize) = false then none
  else some { m with bitmap := m.bitmap.clear (addr / pageSize) }

/-- `pmm_free_pages`. -/
def freePages (m : Pmm) (addr count : ℕ) : Option Pmm :=
  (List.range count).foldlM (fun m i => m.freePage (u64 (addr + i * pageSize))) m

/-! ## Boot -/

/-- `pmm_init`: everything is used, then the usable entries are freed, then the kernel, the
bitmap and the archive are marked used again. -/
def init (mmap : List MemmapEntry) (kernelPhysBase kernelSize initrdAddr initrdSize : ℕ) :
    Option Pmm := do
  let physKend := alignUp (u64 (kernelPhysBase + kernelSize))
  let usable := mmap.filter fun e => e.type = memmapUsable
  let highest := usable.foldl (fun h e => max h (u64 (e.base + e.length))) 0
  let pageCount := highest / pageSize
  let bitmapSize := (pageCount + 63) / 64 * 8
  let room ← usable.find? fun e => bitmapSize ≤ e.length
  let m : Pmm := { bitmap := fun _ => BitVec.allOnes 64, pageCount := pageCount, lastAllocWord := 0 }
  let m ← usable.foldlM (fun m e => m.markRangeFree e.base e.length) m
  let m ← m.markRangeUsed kernelPhysBase (u64 (physKend + 2 ^ 64 - kernelPhysBase))
  let m ← m.markRangeUsed room.base bitmapSize
  m.markRangeUsed initrdAddr initrdSize

end Pmm

end CobjOs
