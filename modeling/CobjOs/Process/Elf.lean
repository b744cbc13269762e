import CobjOs.Memory.Vmm

/-!
# The loader

`src/loader/elf.c`.  `data` is the memory from the file's first byte on, by the offset from it; the
file has `size` bytes.  Offsets wrap at 64 bits, and `i * hdr->phentsize` is a product of two `int`s.

What `elf_load` does with a file depends on the file alone, except for running out of memory.  So it
is written as the list of its reads and of the pages it loads (`elfEvents`), and as what these do to
memory (`elfLoad`).  A load ends early when `pmm_alloc_page` returns page 0; when there is no page
left, the kernel panics (`none`).
-/

namespace CobjOs

/-- The bytes of a file, by their offset. -/
abbrev FileData := ℕ → UInt8

/-- `ELF_MAGIC`, `ET_EXEC`, `EM_X86_64`, `PT_LOAD`. -/
def elfMagic : ℕ := 0x464c457f
def etExec : ℕ := 2
def emX8664 : ℕ := 62
def ptLoad : ℕ := 1

/-- `sizeof(elf64_hdr_t)`, `sizeof(elf64_phdr_t)`. -/
def ehdrSize : ℕ := 64
def phdrSize : ℕ := 56

/-- The bytes at the given offset. -/
def FileData.bytes (data : FileData) (off n : ℕ) : List UInt8 :=
  (List.range n).map fun j => data (u64 (off + j))

/-- The field of `n` bytes at the given offset. -/
def FileData.field (data : FileData) (off n : ℕ) : ℕ := leNat (data.bytes off n)

/-- What `elf_load` uses of an `elf64_phdr_t`. -/
structure Phdr where
  type : ℕ
  flags : ℕ
  offset : ℕ
  vaddr : ℕ
  filesz : ℕ
  memsz : ℕ
  deriving DecidableEq, Repr

def FileData.phdr (data : FileData) (base : ℕ) : Phdr where
  type := data.field base 4
  flags := data.field (base + 4) 4
  offset := data.field (base + 8) 8
  vaddr := data.field (base + 16) 8
  filesz := data.field (base + 32) 8
  memsz := data.field (base + 40) 8

/-- `hdr->entry`, `hdr->phoff`, `hdr->phentsize`, `hdr->phnum`. -/
def FileData.entry (data : FileData) : ℕ := data.field 24 8
def FileData.phoff (data : FileData) : ℕ := data.field 32 8
def FileData.phentsize (data : FileData) : ℕ := data.field 54 2
def FileData.phnum (data : FileData) : ℕ := data.field 56 2

/-- An `int`, converted to 64 bits. -/
def ofInt32 (n : ℕ) : ℕ :=
  if n % 2 ^ 32 < 2 ^ 31 then n % 2 ^ 32 else n % 2 ^ 32 + (2 ^ 64 - 2 ^ 32)

lemma ofInt32_of_lt {n : ℕ} (h : n < 2 ^ 31) : ofInt32 n = n := by
  have hmod : n % 2 ^ 32 = n := Nat.mod_eq_of_lt (by omega)
  rw [ofInt32, hmod, if_pos h]

/-- Where program header `i` is. -/
def FileData.phdrBase (data : FileData) (i : ℕ) : ℕ :=
  u64 (data.phoff + ofInt32 (i * data.phentsize))

/-! ## Segments -/

/-- The part of the file that goes into one page, and where in the page it goes. -/
structure FileCopy where
  fileOffset : ℕ
  copyOffset : ℕ
  copySize : ℕ
  deriving DecidableEq, Repr

namespace Phdr

/-- The pages of the loop over a segment. -/
def pages (p : Phdr) : List ℕ :=
  Pmm.pageAddrs (alignDown p.vaddr) (alignDown (u64 (p.vaddr + p.memsz + 0xfff)))

/-- `PF_W` decides whether the pages are writable. -/
def vmmFlags (p : Phdr) : ℕ :=
  if p.flags / 2 % 2 = 1 then pagePresent ||| pageUser ||| pageWrite else pagePresent ||| pageUser

/-- What is copied into the page at `va`, if anything. -/
def copy (p : Phdr) (va : ℕ) : Option FileCopy :=
  let fileEnd := u64 (p.vaddr + p.filesz)
  if va < fileEnd then
    let copyOffset := if va < p.vaddr then p.vaddr - va else 0
    some
      { fileOffset := if va < p.vaddr then p.offset else u64 (p.offset + (va - p.vaddr))
        copyOffset := copyOffset
        copySize := min (4096 - copyOffset) (fileEnd - va) }
  else none

end Phdr

/-! ## What is done with a file -/

/-- A read of the file, or a page to load. -/
inductive ElfEvent
  | read (off len : ℕ)
  | page (p : Phdr) (va : ℕ)
  deriving DecidableEq, Repr

/-- The turn for one page of a segment whose header is at `base`. -/
def Phdr.pageEvents (p : Phdr) (base va : ℕ) : List ElfEvent :=
  .read (base + 32) 8 :: match p.copy va with
    | some c => [.read (base + 8) 8, .read c.fileOffset c.copySize, .page p va]
    | none => [.page p va]

/-- The turn for one program header. -/
def FileData.phdrEvents (data : FileData) (i : ℕ) : List ElfEvent :=
  let base := data.phdrBase i
  let p := data.phdr base
  .read 32 8 :: .read 54 2 :: .read base 4 ::
    if p.type ≠ ptLoad then []
    else .read (base + 16) 8 :: .read (base + 40) 8 :: .read (base + 4) 4 ::
      p.pages.flatMap (p.pageEvents base)

/-- The reads and pages of `elf_load`, and what it returns if all pages can be loaded. -/
def elfEvents (data : FileData) (size : ℕ) : List ElfEvent × ℕ :=
  if size < ehdrSize then ([], 0)
  else if data.field 0 4 ≠ elfMagic then ([.read 0 4], 0)
  else if data.field 4 1 ≠ 2 then ([.read 0 4, .read 4 1], 0)
  else if data.field 18 2 ≠ emX8664 then ([.read 0 4, .read 4 1, .read 18 2], 0)
  else if data.field 16 2 ≠ etExec then ([.read 0 4, .read 4 1, .read 18 2, .read 16 2], 0)
  else
    ([.read 0 4, .read 4 1, .read 18 2, .read 16 2, .read 56 2] ++
      (List.range data.phnum).flatMap data.phdrEvents ++ [.read 24 8], data.entry)

/-! ## Memory -/

namespace Mm

/-- The bytes of a page of a segment: cleared, with the part of the file copied in. -/
def pageImage (ram : Mem) (data : FileData) (p : Phdr) (va kpage : ℕ) : Mem :=
  let ram := ram.fill kpage pageSize 0
  match p.copy va with
  | some c => ram.write (kpage + c.copyOffset) (data.bytes c.fileOffset c.copySize)
  | none => ram

/-- One event: whether the load goes on. -/
def elfStep (data : FileData) (space : ℕ) (m : Mm) : ElfEvent → Option (Mm × Bool)
  | .read _ _ => some (m, true)
  | .page p va => do
    let (pmm, phys) ← m.pmm.allocPage
    if phys = 0 then some ({ m with pmm := pmm }, false)
    else
      let ram := pageImage m.ram data p va (phys + m.hhdm)
      let m ← vmmMapPage { m with pmm := pmm, ram := ram } space va phys p.vmmFlags
      some (m, true)

/-- The events in turn, until one ends the load. -/
def elfRun (data : FileData) (space : ℕ) : List ElfEvent → Mm → Option (Mm × Bool)
  | [], m => some (m, true)
  | e :: es, m => do
    let (m, more) ← m.elfStep data space e
    if more then elfRun data space es m else some (m, false)

/-- `elf_load`: the entry point, or 0. -/
def elfLoad (m : Mm) (space : ℕ) (data : FileData) (size : ℕ) : Option (Mm × ℕ) := do
  let (m, loaded) ← elfRun data space (elfEvents data size).1 m
  some (m, if loaded then (elfEvents data size).2 else 0)

end Mm

end CobjOs
