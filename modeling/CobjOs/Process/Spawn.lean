import CobjOs.Fs.Files
import CobjOs.Kernel.Process
import CobjOs.Process.Create

/-!
# `sys_spawn` as a whole

`sys_spawn` works on the file system, on memory and on the processes and threads (`Files`, `Mm`,
`Kernel`).  Here the parts are put together, in the order of `src/userspace/syscall.c`, and the
nodes of the file system get their blocks from the heap: a `HeapFs` is a file system whose nodes
have addresses, and `vfs_resolve` and `release` on it call `kmalloc` and `kfree`.

What is read from the file stands in memory at `prog_elf`.  The caller's `argv` is given by its
strings, and the pointers in `argv_copies` are not written to memory.
-/

namespace CobjOs

/-! ## Nodes on the heap -/

/-- The file system, memory, and the address of the block of each node. -/
structure HeapFs where
  fs : Fs
  mm : Mm
  addr : Ptr → ℕ

namespace HeapFs

variable (s : HeapFs)

/-- `dir->ops->lookup(dir, name)`: a node that is found is made in a new block. -/
def lookup (dir : FsNode) (name : CStr) : Option (HeapFs × Option Ptr) := do
  let (fs, next) ← (s.fs.lookup dir name).toOption
  match next with
  | none => some ({ s with fs := fs }, none)
  | some n =>
    let (mm, block) ← s.mm.kmalloc fsnodeSize
    some ({ fs := fs, mm := mm, addr := Function.update s.addr n block }, some n)

/-- `node->ops->release(node)`, if there is one: the block of a node without references is freed. -/
def release (n : Ptr) : Option HeapFs := do
  let fs ← (s.fs.release n).toOption
  if (fs.vfs.nodes n).isSome then some { s with fs := fs }
  else
    let mm ← s.mm.kfree (s.addr n)
    some { s with fs := fs, mm := mm }

/-- The release of the node that the walk leaves. -/
def leave (root cur : Ptr) : Option HeapFs := if cur = root then some s else s.release cur

/-- The loop of `vfs_resolve`. -/
def walk (root : Ptr) : List CStr → Ptr → HeapFs → Option (HeapFs × Option Ptr)
  | [], cur, s => some (s, some cur)
  | name :: names, cur, s => do
    let nd ← (s.fs.node cur).toOption
    if nd.type ≠ .dir ∨ nd.ops.hasLookup = false then
      let s ← s.leave root cur
      some (s, none)
    else
      let (s, next) ← s.lookup nd name
      let s ← s.leave root cur
      match next with
      | none => some (s, none)
      | some n => walk root names n s

/-- `vfs_resolve`. -/
def vfsResolve (path : CStr) : Option (HeapFs × Option Ptr) :=
  match parsePath path with
  | none => some (s, none)
  | some (num, rel) =>
    match s.fs.driveRoot num with
    | none => some (s, none)
    | some root => do
      let (s, res) ← walk root (components rel) root s
      if res = some root then
        let nd ← (s.fs.node root).toOption
        some ({ s with
          fs := s.fs.setNode root { nd with refcount := (nd.refcount + 1) % 2 ^ 32 } }, res)
      else some (s, res)

end HeapFs

/-! ## The call -/

/-- The file system with the descriptors of the processes, memory, and the kernel's processes,
threads and queues. -/
structure System where
  files : Files
  mm : Mm
  addr : Ptr → ℕ
  kernel : Kernel

namespace System

variable (s : System)

/-- The nodes and their blocks. -/
def heapFs : HeapFs := { fs := s.files.fs, mm := s.mm, addr := s.addr }

/-- The state with other nodes and blocks. -/
def setHeapFs (h : HeapFs) : System :=
  { s with files := s.files.setFs h.fs, mm := h.mm, addr := h.addr }

/-- `sys_spawn` by a process with working directory `cwd`; `none` inside for `-1`. -/
def sysSpawn (cwd name : CStr) (argv : ℕ → List UInt8) (argc : ℤ) :
    Option (System × Option ℕ) := do
  let (h, progNode) ← s.heapFs.vfsResolve name
  let s := s.setHeapFs h
  match progNode with
  | none => some (s, none)
  | some n =>
    let nd ← (s.files.fs.node n).toOption
    let (mm, progElf) ← s.mm.kmalloc nd.size
    let (io, bytes, k) ← (nd.read s.files.fs.tar s.files.io nd.size 0).toOption
    let s := { s with
      files := { s.files with io := io }
      mm := { mm with ram := mm.ram.write progElf bytes } }
    if k ≠ nd.size then some (s, none)
    else
      let (mm, _) ← s.mm.kmalloc (8 * argc % 2 ^ 64).toNat
      let args := (List.range argc.toNat).map argv
      let (mm, copies) ← mm.copyArgs args
      let h ← { s.heapFs with mm := mm }.release n
      let s := s.setHeapFs h
      let ram := s.mm.ram
      let (mm, proc) ← s.mm.procCreate (fun i => ram (u64 (progElf + i))) nd.size
        (args.map Mm.argCopy)
      let mm ← (copies ++ [progElf]).foldlM Mm.kfree mm
      let s := { s with mm := mm }
      match proc with
      | none => some (s, none)
      | some p =>
        let (files, _) ← (s.files.procCreate true cwd).toOption
        let (kernel, pid) ← s.kernel.procCreate p.entry
        some ({ s with files := files, kernel := kernel }, some pid)

end System

end CobjOs
