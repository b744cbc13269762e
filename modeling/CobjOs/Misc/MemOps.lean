import CobjOs.Framework.Bytes

/-!
# The memory routines

`src/misc/mem.c`, which the user library has as well.  A pointer is a machine word and wraps
around; a length is a number.  Every routine returns its first argument, which is left out here, or
what it compared.

The source has each loop twice, from the lowest byte up and from the highest down (`Dir`):
`*d++ = *s++` accesses where the pointer is and then moves it, `*--d = *--s` moves it first.  The
routines whose names end in 32 are three loops in a row: bytes until the destination is aligned,
words, and the bytes that are left.
-/

namespace CobjOs

namespace Mem

/-- `IS_ALIGNED`. -/
def isAligned (p : UInt64) : Bool := p &&& 3 == 0

/-- `*p`. -/
def load (mem : Mem) (p : UInt64) : UInt8 := mem p.toNat

/-- `*p = b`. -/
def store (mem : Mem) (p : UInt64) (b : UInt8) : Mem := Function.update mem p.toNat b

/-- `*p`, for a `uint32_t *`. -/
def load32 (mem : Mem) (p : UInt64) : UInt32 := UInt32.ofNat (mem.readNat 4 p.toNat)

/-- `*p = val`, for a `uint32_t *`. -/
def store32 (mem : Mem) (p : UInt64) (val : UInt32) : Mem := mem.writeNat 4 p.toNat val.toNat

/-! ## Filling -/

/-- `while (n--) *p++ = (uint8_t)c;` -/
def setBytes (c : UInt8) : ℕ → UInt64 → Mem → Mem
  | 0, _, mem => mem
  | n + 1, p, mem => setBytes c n (p + 1) (mem.store p c)

/-- `memset`. -/
def memset (mem : Mem) (dst : UInt64) (c : ℤ) (n : ℕ) : Mem :=
  setBytes (UInt8.ofInt c) n dst mem

/-- The first loop of `memset32`: memory, `p8` and `n` after it. -/
def setUntilAligned (c : UInt8) : ℕ → UInt64 → Mem → Mem × UInt64 × ℕ
  | 0, p, mem => (mem, p, 0)
  | n + 1, p, mem =>
    if isAligned p then (mem, p, n + 1) else setUntilAligned c n (p + 1) (mem.store p c)

/-- The word that `memset32` stores. -/
def fillWord (c : UInt8) : UInt32 :=
  let val := c.toUInt32
  let val := val ||| val <<< 8
  val ||| val <<< 16

/-- `while (n >= 4) { *p32++ = val; n -= 4; }` -/
def setWords (val : UInt32) : ℕ → UInt64 → Mem → Mem × UInt64 × ℕ
  | n + 4, p, mem => setWords val n (p + 4) (mem.store32 p val)
  | n, p, mem => (mem, p, n)

/-- `memset32`. -/
def memset32 (mem : Mem) (dst : UInt64) (c : ℤ) (n : ℕ) : Mem :=
  let c := UInt8.ofInt c
  let (mem, p, n) := setUntilAligned c n dst mem
  let (mem, p, n) := if 4 ≤ n then setWords (fillWord c) n p mem else (mem, p, n)
  setBytes c n p mem

/-! ## Copying -/

/-- The direction of a loop: `*p++` or `*--p`. -/
inductive Dir
  | up | down
  deriving DecidableEq, Repr

/-- Where a turn accesses memory that moves its pointer from `p` by `k` bytes. -/
def Dir.cell : Dir → UInt64 → UInt64 → UInt64
  | .up, _, p => p
  | .down, k, p => p - k

/-- The pointer after such a turn. -/
def Dir.next : Dir → UInt64 → UInt64 → UInt64
  | .up, k, p => p + k
  | .down, k, p => p - k

/-- `while (n--) *d++ = *s++;` or `while (n--) *--d = *--s;` -/
def copyBytes (dir : Dir) : ℕ → UInt64 → UInt64 → Mem → Mem
  | 0, _, _, mem => mem
  | n + 1, d, s, mem => copyBytes dir n (dir.next 1 d) (dir.next 1 s)
      (mem.store (dir.cell 1 d) (mem.load (dir.cell 1 s)))

/-- The loop until `d8` is aligned: memory, `d8`, `s8` and `n` after it. -/
def copyUntilAligned (dir : Dir) : ℕ → UInt64 → UInt64 → Mem → Mem × UInt64 × UInt64 × ℕ
  | 0, d, s, mem => (mem, d, s, 0)
  | n + 1, d, s, mem =>
    if isAligned d then (mem, d, s, n + 1)
    else copyUntilAligned dir n (dir.next 1 d) (dir.next 1 s)
      (mem.store (dir.cell 1 d) (mem.load (dir.cell 1 s)))

/-- The loop over words. -/
def copyWords (dir : Dir) : ℕ → UInt64 → UInt64 → Mem → Mem × UInt64 × UInt64 × ℕ
  | n + 4, d, s, mem => copyWords dir n (dir.next 4 d) (dir.next 4 s)
      (mem.store32 (dir.cell 4 d) (mem.load32 (dir.cell 4 s)))
  | n, d, s, mem => (mem, d, s, n)

/-- The three loops of `memcpy32` and of either branch of `memmove32`. -/
def copy32 (dir : Dir) (n : ℕ) (d s : UInt64) (mem : Mem) : Mem :=
  let (mem, d, s, n) := copyUntilAligned dir n d s mem
  let (mem, d, s, n) := if 4 ≤ n ∧ isAligned s then copyWords dir n d s mem else (mem, d, s, n)
  copyBytes dir n d s mem

/-- `memcpy`. -/
def memcpy (mem : Mem) (dst src : UInt64) (n : ℕ) : Mem := copyBytes .up n dst src mem

/-- `memmove`. -/
def memmove (mem : Mem) (dst src : UInt64) (n : ℕ) : Mem :=
  if dst < src then copyBytes .up n dst src mem
  else copyBytes .down n (dst + UInt64.ofNat n) (src + UInt64.ofNat n) mem

/-- `memcpy32`. -/
def memcpy32 (mem : Mem) (dst src : UInt64) (n : ℕ) : Mem := copy32 .up n dst src mem

/-- `memmove32`. -/
def memmove32 (mem : Mem) (dst src : UInt64) (n : ℕ) : Mem :=
  if dst = src ∨ n = 0 then mem
  else if dst < src then copy32 .up n dst src mem
  else copy32 .down n (dst + UInt64.ofNat n) (src + UInt64.ofNat n) mem

/-! ## Comparing -/

/-- `*p - *q`, as an `int`. -/
def byteDiff (mem : Mem) (p q : UInt64) : ℤ := (mem.load p).toNat - (mem.load q).toNat

/-- The loop of `memcmp`. -/
def cmpBytes (mem : Mem) : ℕ → UInt64 → UInt64 → ℤ
  | 0, _, _ => 0
  | n + 1, p, q =>
    if mem.load p ≠ mem.load q then byteDiff mem p q else cmpBytes mem n (p + 1) (q + 1)

/-- `memcmp`. -/
def memcmp (mem : Mem) (a b : UInt64) (n : ℕ) : ℤ := cmpBytes mem n a b

/-- The loop until both pointers are aligned: a difference is returned, and otherwise `p8`, `q8` and
`n` after the loop. -/
def cmpUntilAligned (mem : Mem) : ℕ → UInt64 → UInt64 → Except ℤ (UInt64 × UInt64 × ℕ)
  | 0, p, q => .ok (p, q, 0)
  | n + 1, p, q =>
    if isAligned p && isAligned q then .ok (p, q, n + 1)
    else if mem.load p ≠ mem.load q then .error (byteDiff mem p q)
    else cmpUntilAligned mem n (p + 1) (q + 1)

/-- The difference of two words that are not equal. -/
def wordDiff (mem : Mem) (p q : UInt64) : ℤ :=
  if mem.load p ≠ mem.load q then byteDiff mem p q
  else if mem.load (p + 1) ≠ mem.load (q + 1) then byteDiff mem (p + 1) (q + 1)
  else if mem.load (p + 2) ≠ mem.load (q + 2) then byteDiff mem (p + 2) (q + 2)
  else byteDiff mem (p + 3) (q + 3)

/-- The loop over words. -/
def cmpWords (mem : Mem) : ℕ → UInt64 → UInt64 → Except ℤ (UInt64 × UInt64 × ℕ)
  | n + 4, p, q =>
    if mem.load32 p ≠ mem.load32 q then .error (wordDiff mem p q)
    else cmpWords mem n (p + 4) (q + 4)
  | n, p, q => .ok (p, q, n)

/-- The last loop, unless one before it has returned. -/
def cmpRest (mem : Mem) : Except ℤ (UInt64 × UInt64 × ℕ) → ℤ
  | .error diff => diff
  | .ok (p, q, n) => cmpBytes mem n p q

/-- `memcmp32`. -/
def memcmp32 (mem : Mem) (a b : UInt64) (n : ℕ) : ℤ :=
  cmpRest mem do
    let (p, q, n) ← cmpUntilAligned mem n a b
    if 4 ≤ n then cmpWords mem n p q else .ok (p, q, n)

end Mem

end CobjOs
