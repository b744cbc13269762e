import CobjOs.Process.Create
import CobjOs.Process.UserCopy

/-!
# The memory of processes, from `proc_create` to `proc_cleanup`

Processes are made, map and unmap memory, write to it, die and are cleaned up after, while the rest
of the kernel takes and frees blocks of the heap: the calls on files and ports do, and so does what
`proc_cleanup` does to start `init` again, up to its `proc_create`.

Processes are numbered by `pid`.  One that was cleaned up after stays in the list, so that the
others keep their number.
-/

namespace CobjOs

/-- A process runs, its thread is `THREAD_DEAD`, or `proc_cleanup` has freed it. -/
inductive Life
  | alive | dead | reaped
  deriving DecidableEq, Repr

structure LiveProc where
  user : UserProc
  life : Life
  deriving DecidableEq, Repr

namespace Mm

/-- The loop of `proc_cleanup` over the regions of a process, for at most `fuel` turns. -/
def freeRegions : ℕ → ℕ → Mm → Option Mm
  | 0, _, _ => none
  | fuel + 1, region, m =>
    if region = 0 then some m
    else
      let next := m.ram.readNat 8 (region + 16)
      (m.kfree region).bind (freeRegions fuel next)

/-- What `proc_cleanup` frees of a dead process. -/
def reapProc (m : Mm) (p : UserProc) : Option Mm := do
  let m ← m.freeRegions (2 ^ 64) p.mem.regions
  let pmm ← m.pmm.freePages (sub64 p.kernelStack m.hhdm) 4
  let m ← kfree { m with pmm := pmm } p.thread
  m.kfree p.proc

end Mm

/-- What happens to memory. -/
inductive ProcOp
  | create (elfData : FileData) (elfSize : ℕ) (argv : List (List UInt8))
  | mmap (pid addr size : ℕ)
  | munmap (pid addr size : ℕ)
  /-- A program writes a byte. -/
  | store (pid virt : ℕ) (byte : UInt8)
  | die (pid : ℕ)
  | cleanup
  | kmalloc (size : ℕ)
  | kfree (block : ℕ)

/-- Memory, the processes, and the blocks that the rest of the kernel has, by address and size. -/
structure ProcSys where
  mm : Mm
  procs : List LiveProc
  blocks : List (ℕ × ℕ)

namespace ProcSys

variable (s : ProcSys)

/-- The kernel right after `slab_init`. -/
def start (m : Mm) : ProcSys := { mm := m.slabInit, procs := [], blocks := [] }

/-- The state with another memory and another process `pid`. -/
def setProc (pid : ℕ) (mm : Mm) (p : LiveProc) : ProcSys :=
  { s with mm := mm, procs := s.procs.set pid p }

/-- A running process. -/
def running (pid : ℕ) : Option UserProc := do
  let p ← s.procs[pid]?
  if p.life = .alive then some p.user else none

/-- One turn of the first loop of `proc_cleanup`. -/
def reap (pid : ℕ) : Option ProcSys := do
  let p ← s.procs[pid]?
  if p.life = .dead then
    let m ← s.mm.reapProc p.user
    some (s.setProc pid m { p with life := .reaped })
  else some s

def step : ProcOp → Option ProcSys
  | .create elfData elfSize argv => do
    let (m, p) ← s.mm.procCreate elfData elfSize argv
    match p with
    | none => some { s with mm := m }
    | some p => some { s with mm := m, procs := s.procs ++ [⟨p, .alive⟩] }
  | .mmap pid addr size => do
    let p ← s.running pid
    let (m, mem, _) ← s.mm.sysMmap p.mem addr size
    some (s.setProc pid m ⟨{ p with mem := mem }, .alive⟩)
  | .munmap pid addr size => do
    let p ← s.running pid
    let (m, mem) ← s.mm.sysMunmap p.mem addr size
    some (s.setProc pid m ⟨{ p with mem := mem }, .alive⟩)
  | .store pid virt byte => do
    let p ← s.running pid
    let (phys, flags) ← s.mm.vmmGetMapping p.mem.addrSpace virt
    if virt < userSpaceTop ∧ Mm.writableFlags flags then
      some { s with mm := { s.mm with
        ram := Function.update s.mm.ram (phys + s.mm.hhdm + virt % pageSize) byte } }
    else none
  | .die pid => do
    let p ← s.running pid
    some (s.setProc pid s.mm ⟨p, .dead⟩)
  | .cleanup =>
    -- the newest process is the first of `proc_list`
    (List.range s.procs.length).reverse.foldlM reap s
  | .kmalloc size => do
    let (m, block) ← s.mm.kmalloc size
    some { s with mm := m, blocks := (block, size) :: s.blocks }
  | .kfree block => do
    let b ← s.blocks.find? fun b => b.1 = block
    let m ← s.mm.kfree block
    some { s with mm := m, blocks := s.blocks.erase b }

end ProcSys

end CobjOs
