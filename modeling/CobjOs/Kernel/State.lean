import Mathlib.Algebra.Order.Ring.Nat
import Mathlib.Tactic.Common
import Mathlib.Tactic.Simps.Basic

/-!
# Kernel objects

The state shared by the scheduler, the process table, the ports and the descriptor tables.
Each kind of object that the kernel takes from `kmalloc` has its own store, a partial map from
block identities (`Ptr`) to contents; an identity is handed out once (`Kernel.brk`), and freeing a
block empties its place.  Every function that dereferences is in `Option`, and `none` stands for the
undefined behaviour, the panic or the halt the source runs into at that point.

Numbers of type `uint64_t` are naturals, reduced modulo `2 ^ 64` where the source can wrap.
The fields of `thread_t` and `process_t` that only the memory manager or the return to user
mode read (stack pointers, entry point, address space, regions, names) are not here.
-/

namespace CobjOs

/-- The identity of a block handed out by `kmalloc`. -/
abbrev Ptr := ℕ

/-- Reduction to `uint64_t`. -/
def u64 (n : ℕ) : ℕ := n % 2 ^ 64

/-- `(uint64_t)-1`. -/
def u64Max : ℕ := 2 ^ 64 - 1

/-! ## Threads -/

/-- `thread_state_t`. -/
inductive ThreadState
  | ready | running | blocked | dead
  deriving DecidableEq, Repr

/-- Where the kernel stack of a thread that gave up the processor stands: in user mode code
(or preempted), or behind the `schedule()` of one of the three blocking calls, with the
arguments that call still needs when it comes back. -/
inductive Call
  | user
  /-- `sys_wait_pid(pid)`. -/
  | waitPid (pid : ℕ)
  /-- `sys_sleep(ms)`, entered at tick `t0`. -/
  | sleep (t0 ms : ℕ)
  /-- The loop of `port_receive` on the looked-up port, with the buffer length. -/
  | receive (port : Ptr) (len : ℕ)
  deriving DecidableEq, Repr

/-- `thread_t`. -/
structure Thread where
  kernelStack : Ptr
  state : ThreadState
  id : ℕ
  process : Option Ptr
  waitingFor : ℕ
  sleepUntil : ℕ
  next : Option Ptr
  call : Call
  deriving DecidableEq, Repr

/-! ## Files -/

/-- `fsnode_type_t`. -/
inductive NodeType
  | file | dir | device
  deriving DecidableEq, Repr

/-- The operation tables a node can point to. -/
inductive FsOps
  | tarfs | devfsRoot | stdin | stdout | null | zero | fb
  deriving DecidableEq, Repr

/-- `fsnode_t`; `data` is the offset of the archive header of a tar node. -/
structure FsNode where
  type : NodeType
  ops : FsOps
  data : Option ℕ
  size : ℕ
  refcount : ℕ
  deriving DecidableEq, Repr

/-- `file_t`. -/
structure File where
  node : Ptr
  offset : ℕ
  flags : ℕ
  deriving DecidableEq, Repr

/-- The nodes and open files, and the device file system on drive 1. -/
structure Vfs where
  nodes : Ptr → Option FsNode
  files : Ptr → Option File
  devfsRoot : Option Ptr
  devfsEntries : List (String × FsOps)

/-! ## Processes and ports -/

/-- `MAX_FDS`. -/
def maxFds : ℕ := 64

/-- `FD_RESERVED`. -/
def fdReserved : ℕ := 2

/-- `MAX_PORTS`. -/
def maxPorts : ℕ := 64

/-- `process_t`. -/
structure Process where
  pid : ℕ
  thread : Ptr
  fds : ℕ → Option Ptr
  ports : ℕ → Option Ptr

/-- `msg_node_t`; the copied bytes stand in the node, `len` is their number. -/
structure MsgNode where
  len : ℕ
  data : List UInt8
  next : Option Ptr
  deriving DecidableEq, Repr

/-- `port_t`. -/
structure Port where
  token : ℕ
  head : Option Ptr
  tail : Option Ptr
  owner : Ptr
  deriving DecidableEq, Repr

/-! ## The whole state -/

/-- The kernel's objects and global variables. -/
structure Kernel where
  threads : Ptr → Option Thread
  procs : Ptr → Option Process
  /-- The kernel stacks taken from `pmm_alloc_pages(4)` and not given back. -/
  kstacks : Ptr → Bool
  ports : Ptr → Option Port
  msgs : Ptr → Option MsgNode
  vfs : Vfs
  brk : Ptr
  currThread : Ptr
  idleThread : Ptr
  runqueueHead : Option Ptr
  nextThreadId : ℕ
  nextProcId : ℕ
  procList : List Ptr
  procNeedsCleanup : Bool
  threadsEnabled : Bool
  lapicTimerTicks : ℕ
  portTable : ℕ → Option Ptr
  portTableCount : ℕ
  /-- What `elf_load` returns for `0:/init/init`; `none` when the archive lacks it or it
  cannot be read. -/
  initEntry : Option ℕ

namespace Kernel

variable (k : Kernel)

@[simps]
def setThread (t : Ptr) (th : Thread) : Kernel :=
  { k with threads := Function.update k.threads t (some th) }

/-- Writes to fields of the thread `t` points to. -/
def modThread (t : Ptr) (f : Thread → Thread) : Option Kernel :=
  (k.threads t).map fun th => k.setThread t (f th)

@[simps]
def setProc (p : Ptr) (pr : Process) : Kernel :=
  { k with procs := Function.update k.procs p (some pr) }

def modProc (p : Ptr) (f : Process → Process) : Option Kernel :=
  (k.procs p).map fun pr => k.setProc p (f pr)

@[simps]
def setPort (p : Ptr) (po : Port) : Kernel :=
  { k with ports := Function.update k.ports p (some po) }

@[simps]
def setMsg (m : Ptr) (nd : MsgNode) : Kernel :=
  { k with msgs := Function.update k.msgs m (some nd) }

/-- `runqueue_head = t`. -/
@[simps]
def setHead (t : Option Ptr) : Kernel := { k with runqueueHead := t }

/-- `curr_thread = t`. -/
@[simps]
def setCurr (t : Ptr) : Kernel := { k with currThread := t }

@[simps]
def setProcList (ps : List Ptr) : Kernel := { k with procList := ps }

/-- A change to the file system that took blocks up to `brk`. -/
@[simps]
def setVfs (v : Vfs) (brk : Ptr) : Kernel := { k with vfs := v, brk := brk }

/-- The link of a thread; `none` also when the thread is not allocated. -/
def nextOf (t : Ptr) : Option Ptr := (k.threads t).bind Thread.next

def stateOf (t : Ptr) : Option ThreadState := (k.threads t).map Thread.state

/-- Fuel for the loops that follow `next`: a walk through distinct blocks has ended by then. -/
def walkFuel : ℕ := k.brk + 1

end Kernel

end CobjOs
