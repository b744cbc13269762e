import CobjOs.Kernel.Port

/-!
# Processes and descriptors

`src/multi/process.c` without the memory it maps: registering a process and its thread, the
search by process id, and the reaping of dead processes.  What `elf_load` makes of the image
enters as the entry point it returns, `0` for an image it rejects.

Of the file system this needs the two standard descriptors, which are device nodes looked up on
drive 1, and the closing of a descriptor.
-/

namespace CobjOs

open Function

/-! ## Nodes and descriptors -/

/-- Whether the operation table has a `release` function. -/
def FsOps.hasRelease : FsOps → Bool
  | .tarfs | .devfsRoot => true
  | _ => false

namespace Vfs

/-- `tarfs_release` and the tail of `devfs_release`. -/
def dropNode (v : Vfs) (n : Ptr) (node : FsNode) : Vfs :=
  let rc := if 0 < node.refcount then node.refcount - 1 else node.refcount
  if rc = 0 then { v with nodes := update v.nodes n none }
  else { v with nodes := update v.nodes n (some { node with refcount := rc }) }

/-- `node->ops->release(node)`, for a table that has one. -/
def release (v : Vfs) (n : Ptr) : Option Vfs := do
  let node ← v.nodes n
  match node.ops with
  | .tarfs => some (v.dropNode n node)
  | .devfsRoot => if v.devfsRoot = some n then some v else some (v.dropNode n node)
  | _ => none

/-- The closing of a file in `sys_exit`, `sys_kill` and `sys_close`: one reference less, the
node released when that was the last, the `file_t` freed. -/
def closeFile (v : Vfs) (f : Ptr) : Option Vfs := do
  let file ← v.files f
  let node ← v.nodes file.node
  let rc := (node.refcount + (2 ^ 32 - 1)) % 2 ^ 32
  let v := { v with nodes := update v.nodes file.node (some { node with refcount := rc }) }
  let v ← if rc = 0 ∧ node.ops.hasRelease = true then v.release file.node else some v
  some { v with files := update v.files f none }

/-- `devfs_lookup`: a fresh node `n` for the first entry of that name. -/
def devfsLookup (v : Vfs) (n : Ptr) (name : String) : Option Vfs :=
  (v.devfsEntries.find? fun e => e.1 = name).map fun e =>
    { v with nodes := update v.nodes n (some
        { type := .device, ops := e.2, data := none, size := 0, refcount := 1 }) }

end Vfs

namespace Kernel

/-- One turn of the standard-descriptor loop of `proc_create`: the path `1:/name` is one
device lookup below the root of drive 1. -/
def stdFd (k : Kernel) (proc : Ptr) (i : ℕ) (name : String) (flags : ℕ) : Option Kernel :=
  if k.vfs.devfsRoot.isNone then some k
  else
    match k.vfs.devfsLookup k.brk name with
    | none => some k
    | some v =>
      let file := k.brk + 1
      let v := { v with files := update v.files file (some
        { node := k.brk, offset := 0, flags := flags }) }
      (k.setVfs v (k.brk + 2)).modProc proc fun pr =>
        { pr with fds := update pr.fds i (some file) }

/-! ## Creation -/

/-- The blocks of `proc_create`: the process and its thread, not yet known to each other's
lists. -/
@[simps]
def allocProc (k : Kernel) : Kernel :=
  let proc := k.brk
  let (k, thread) := { k with brk := k.brk + 1 }.threadCreateUser
  { k with
    procs := update k.procs proc (some
      { pid := k.nextProcId, thread := thread, fds := fun _ => none, ports := fun _ => none })
    nextProcId := u64 (k.nextProcId + 1) }

/-- `proc_create`, for an image whose `elf_load` returned `entry`.  The process is complete,
linked into `proc_list` and known to its thread before the thread is queued. -/
def procCreate (k : Kernel) (entry : ℕ) : Option (Kernel × ℕ) :=
  if entry = 0 then some (k, u64Max)
  else do
    let proc := k.brk
    let thread := k.brk + 1
    let pid := k.nextProcId
    let k := k.allocProc
    let k ← k.stdFd proc 0 "stdin" 1
    let k ← k.stdFd proc 1 "stdout" 2
    let k := k.setProcList (proc :: k.procList)
    let k ← k.modThread thread fun th => { th with process := some proc }
    let k ← k.runqueuePush thread
    some (k, pid)

/-! ## Search and reaping -/

/-- The scan of `proc_find`; the inner `none` is its `NULL`. -/
def procFindIn (k : Kernel) (pid : ℕ) : List Ptr → Option (Option Ptr)
  | [] => some none
  | p :: ps => do
    let pr ← k.procs p
    if pr.pid = pid then some (some p) else procFindIn k pid ps

/-- `proc_find`. -/
def procFind (k : Kernel) (pid : ℕ) : Option (Option Ptr) := k.procFindIn pid k.procList

/-- The first loop of `proc_cleanup`: the processes of dead threads leave the list and are
freed with their thread and kernel stack. -/
def reap : Kernel → List Ptr → Option (Kernel × List Ptr)
  | k, [] => some (k, [])
  | k, p :: ps => do
    let pr ← k.procs p
    let th ← k.threads pr.thread
    if th.state = .dead then
      if k.kstacks th.kernelStack then
        reap { k with
          kstacks := update k.kstacks th.kernelStack false
          threads := update k.threads pr.thread none
          procs := update k.procs p none } ps
      else none
    else
      let (k, rest) ← reap k ps
      some (k, p :: rest)

/-- The second loop of `proc_cleanup`: how many processes have a thread that is not dead. -/
def countAlive (k : Kernel) : List Ptr → Option ℕ
  | [] => some 0
  | p :: ps => do
    let pr ← k.procs p
    let th ← k.threads pr.thread
    let n ← countAlive k ps
    some (if th.state ≠ .dead then n + 1 else n)

/-- `proc_cleanup`; with no process left, `init` is started again. -/
def procCleanup (k : Kernel) : Option Kernel := do
  let (k, rest) ← k.reap k.procList
  let k := k.setProcList rest
  let alive ← k.countAlive k.procList
  if alive = 0 then
    let entry ← k.initEntry
    let (k, _) ← k.procCreate entry
    some k
  else some k

end Kernel

end CobjOs
