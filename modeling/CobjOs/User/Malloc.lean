import CobjOs.Framework.Bytes
import CobjOs.Kernel.State

/-!
# The allocator of user programs

`src/user/lib/malloc.c`.  The memory of the program is a byte at every address; a `block_t` is its
24 bytes there: `size` at 0, `free` at 8 and `next` at 16.  What the kernel returns for `mmap` is
an argument of every function that can call it.

The loops over the list have no bound in the source.  Here they stop without a result after
`2 ^ 64` turns, which a list without a cycle does not reach.

`handed` and `chunks` are for the record only: the bytes that `sbrk` has handed out, and the
regions it asked `mmap` for, with the requested sizes.
-/

namespace CobjOs

namespace User

/-- `HEADER_SIZE`. -/
def headerSize : ℕ := 24

/-- `MIN_SPLIT`. -/
def minSplit : ℕ := headerSize + 16

def listFuel : ℕ := 2 ^ 64

/-- The program's memory and the allocator's variables. -/
structure Heap where
  mem : Mem
  heapPtr : ℕ
  heapEnd : ℕ
  head : ℕ
  handed : ℕ
  chunks : List (ℕ × ℕ)

/-! ## Headers -/

/-- `blk->size`. -/
def sizeAt (mem : Mem) (blk : ℕ) : ℕ := mem.readNat 8 blk

/-- `blk->free`. -/
def freeAt (mem : Mem) (blk : ℕ) : Bool := mem (blk + 8) ≠ 0

/-- `blk->next`. -/
def nextAt (mem : Mem) (blk : ℕ) : ℕ := mem.readNat 8 (blk + 16)

/-- `blk->size = size`. -/
def setSize (mem : Mem) (blk size : ℕ) : Mem := mem.writeNat 8 blk (u64 size)

/-- `blk->free = free`. -/
def setFree (mem : Mem) (blk : ℕ) (free : Bool) : Mem := mem.write (blk + 8) [if free then 1 else 0]

/-- `blk->next = next`. -/
def setNext (mem : Mem) (blk next : ℕ) : Mem := mem.writeNat 8 (blk + 16) (u64 next)

/-- A header written whole. -/
def setHeader (mem : Mem) (blk size : ℕ) (free : Bool) (next : ℕ) : Mem :=
  setNext (setFree (setSize mem blk size) blk free) blk next

/-- `(size + 7) & ~7`. -/
def roundUp (size : ℕ) : ℕ := u64 (size + 7) / 8 * 8

/-! ## The list -/

/-- The loop of `coalesce`. -/
def coalesceLoop : ℕ → Mem → ℕ → Option Mem
  | 0, _, _ => none
  | fuel + 1, mem, blk =>
    let next := nextAt mem blk
    if next ≠ 0 ∧ freeAt mem next = true then
      let mem := setSize mem blk (sizeAt mem blk + headerSize + sizeAt mem next)
      coalesceLoop fuel (setNext mem blk (nextAt mem next)) blk
    else some mem

def coalesce (mem : Mem) (blk : ℕ) : Option Mem := coalesceLoop listFuel mem blk

def split (mem : Mem) (blk size : ℕ) : Mem :=
  if sizeAt mem blk < u64 (size + minSplit) then mem
  else
    let newBlk := u64 (blk + headerSize + size)
    let mem := setHeader mem newBlk (sizeAt mem blk - size - headerSize) true (nextAt mem blk)
    setNext (setSize mem blk size) blk newBlk

/-- The last block of the list, in `extend_heap`. -/
def lastBlock : ℕ → Mem → ℕ → Option ℕ
  | 0, _, _ => none
  | fuel + 1, mem, curr =>
    if nextAt mem curr ≠ 0 then lastBlock fuel mem (nextAt mem curr) else some curr

/-- The loop of `malloc`: the memory and the payload of the block found, or `NULL`. -/
def findBlock : ℕ → Mem → ℕ → ℕ → Option (Mem × ℕ)
  | 0, _, _, _ => none
  | fuel + 1, mem, size, cur =>
    if cur = 0 then some (mem, 0)
    else if freeAt mem cur = true ∧ size ≤ sizeAt mem cur then do
      let mem ← coalesce mem cur
      if size ≤ sizeAt mem cur then
        some (setFree (split mem cur size) cur false, cur + headerSize)
      else findBlock fuel mem size (nextAt mem cur)
    else findBlock fuel mem size (nextAt mem cur)

namespace Heap

/-- `sbrk`, with what `mmap` returns if it is called. -/
def sbrk (h : Heap) (size page : ℕ) : Heap × ℕ :=
  let h := if h.heapPtr = 0 ∨ h.heapEnd < u64 (h.heapPtr + size) then
      { h with
        heapPtr := page
        heapEnd := u64 (page + u64 (size + 4096))
        chunks := (page, u64 (size + 4096)) :: h.chunks }
    else h
  ({ h with heapPtr := u64 (h.heapPtr + size), handed := h.handed + size }, h.heapPtr)

def extendHeap (h : Heap) (size page : ℕ) : Option (Heap × ℕ) :=
  let (h, blk) := h.sbrk (u64 (headerSize + size)) page
  if blk = 0 then some (h, 0)
  else
    let h := { h with mem := setHeader h.mem blk size false 0 }
    if h.head = 0 then some ({ h with head := blk }, blk)
    else do
      let curr ← lastBlock listFuel h.mem h.head
      some ({ h with mem := setNext h.mem curr blk }, blk)

/-- `malloc` of a size that is already rounded up. -/
def mallocRounded (h : Heap) (size page : ℕ) : Option (Heap × ℕ) := do
  let (mem, ptr) ← findBlock listFuel h.mem size h.head
  let h := { h with mem := mem }
  if ptr ≠ 0 then some (h, ptr)
  else
    let (h, blk) ← h.extendHeap size page
    if blk = 0 then some (h, 0) else some (h, blk + headerSize)

def malloc (h : Heap) (size page : ℕ) : Option (Heap × ℕ) :=
  if size = 0 then some (h, 0) else h.mallocRounded (roundUp size) page

def free (h : Heap) (ptr : ℕ) : Option Heap :=
  if ptr = 0 then some h
  else do
    let blk := ptr - headerSize
    let mem ← coalesce (setFree h.mem blk true) blk
    some { h with mem := mem }

/-- The copying loop of `realloc`. -/
def copyBytes (mem : Mem) (dst src n : ℕ) : Mem :=
  (List.range n).foldl (fun mem i => mem.write (dst + i) [mem (src + i)]) mem

/-- The end of `realloc`, for a block that cannot grow in place. -/
def moveBlock (h : Heap) (ptr size page : ℕ) : Option (Heap × ℕ) := do
  let (h, newPtr) ← h.malloc size page
  if newPtr = 0 then some (h, 0)
  else
    let copySize := min (sizeAt h.mem (ptr - headerSize)) size
    let h ← free { h with mem := copyBytes h.mem newPtr ptr copySize } ptr
    some (h, newPtr)

def realloc (h : Heap) (ptr size page : ℕ) : Option (Heap × ℕ) :=
  if ptr = 0 then h.malloc size page
  else if size = 0 then do
    let h ← h.free ptr
    some (h, 0)
  else
    let blk := ptr - headerSize
    let size := roundUp size
    if size ≤ sizeAt h.mem blk then some ({ h with mem := split h.mem blk size }, ptr)
    else do
      let mem ← coalesce h.mem blk
      if size ≤ sizeAt mem blk then some ({ h with mem := split mem blk size }, ptr)
      else moveBlock { h with mem := mem } ptr size page

def calloc (h : Heap) (nmemb size page : ℕ) : Option (Heap × ℕ) := do
  let total := u64 (nmemb * size)
  let (h, ptr) ← h.malloc total page
  if ptr = 0 then some (h, 0) else some ({ h with mem := h.mem.fill ptr total 0 }, ptr)

end Heap

end User

end CobjOs
