import CobjOs.Framework.Layout
import CobjOs.Process.Elf
import CobjOs.Process.Mmap

/-!
# `proc_create`

`src/multi/process.c`, `thread_create_user` in `src/multi/thread.c` and the copies of `sys_spawn` in
`src/userspace/syscall.c`, as far as they take and write memory.  The fields of the new `process_t`
and `thread_t` that the memory calls use are in `UserProc`; what is written into the two records,
the names and the first frame on the kernel stack are left out.

A string is the list of its bytes without the final 0; strings are shorter than `2 ^ 31`
(`sys_spawn` cuts them to 255 bytes).  `str_off` is a number of 64 bits that wraps below 0, and
`(argc + 1) * 8` is an `int`.
-/

namespace CobjOs

/-- `stack_top`, `stack_base`, and the size of either stack. -/
def stackTop : ℕ := 0x7fffff000000
def stackSize : ℕ := 4 * pageSize
def stackBase : ℕ := stackTop - stackSize

/-- `sizeof(process_t)`, `sizeof(thread_t)`, `sizeof(fsnode_t)`, `sizeof(file_t)`. -/
def processSize : ℕ := 1392
def threadSize : ℕ := 112
def fsnodeSize : ℕ := 40
def fileSize : ℕ := 24

/-! ## The argument block -/

/-- `a - b` in 64 bits. -/
def sub64 (a b : ℕ) : ℕ := u64 (a + (2 ^ 64 - b % 2 ^ 64))

/-- The loop over the strings, from the last to the first: their offsets on the stack, and the
value of `str_off` after it. -/
def placeStrings : List (List UInt8) → List ℕ × ℕ
  | [] => ([], stackSize)
  | str :: strs =>
    let above := placeStrings strs
    let strOff := sub64 above.2 (str.length + 1) / 8 * 8
    (strOff :: above.1, strOff)

/-- What is written to the stack, by the offset from its start and in the order of the source, and
the two addresses that go to the thread. -/
structure ArgBlock where
  writes : List (ℕ × List UInt8)
  argvUser : ℕ
  userRsp : ℕ
  deriving DecidableEq, Repr

def argBlock (argv : List (List UInt8)) : ArgBlock :=
  let placed := placeStrings argv
  let ptrs := placed.1.map (fun strOff => u64 (stackBase + strOff)) ++ [0]
  let strOff := sub64 placed.2 (ofInt32 ((argv.length + 1) * 8)) / 16 * 16
  { writes := (placed.1.zip (argv.map (· ++ [0]))).reverse ++ [(strOff, ptrs.flatMap (leBytes 8))]
    argvUser := u64 (stackBase + strOff)
    userRsp := sub64 (stackBase + strOff) 16 }

/-! ## Processes -/

/-- What the memory calls use of a process and its thread: the addresses of both records, the
kernel stack, where the thread starts, the files behind the first two descriptors, each with its
node, and the address space with its regions. -/
structure UserProc where
  proc : ℕ
  thread : ℕ
  kernelStack : ℕ
  entry : ℕ
  userRsp : ℕ
  userArgc : ℕ
  userArgv : ℕ
  files : List (ℕ × ℕ)
  mem : ProcMem
  deriving DecidableEq, Repr

namespace Mm

/-- `pmm_alloc_pages(4)`, with the panic of its callers. -/
def allocStack (m : Mm) : Option (Mm × ℕ) := do
  let (pmm, stackPhys) ← m.pmm.allocPages 4
  if stackPhys = 0 then none else some ({ m with pmm := pmm }, stackPhys)

/-- `thread_create_user`: the record and the kernel stack, which is cleared. -/
def threadCreateUser (m : Mm) : Option (Mm × ℕ × ℕ) := do
  let (m, thread) ← m.kmalloc threadSize
  let (m, stackPhys) ← m.allocStack
  let stack := stackPhys + m.hhdm
  some ({ m with ram := m.ram.fill stack stackSize 0 }, thread, stack)

/-- The loop that maps the stack. -/
def mapStack (m : Mm) (space stackPhys : ℕ) : Option Mm :=
  (List.range 4).foldlM (fun m i =>
    m.vmmMapPage space (stackBase + i * pageSize) (stackPhys + i * pageSize) userFlags) m

/-- The argument block on the stack at `stackVirt`. -/
def writeArgs (m : Mm) (stackVirt : ℕ) (argv : List (List UInt8)) : Mm :=
  { m with ram := m.ram.writeAll ((argBlock argv).writes.map fun w =>
      (u64 (stackVirt + w.1), w.2)) }

/-- The file behind descriptor 0 or 1: the node that `vfs_resolve` makes, and the `file_t`. -/
def openStd (m : Mm) : Option (Mm × ℕ × ℕ) := do
  let (m, node) ← m.kmalloc fsnodeSize
  let (m, file) ← m.kmalloc fileSize
  some (m, node, file)

/-- `proc_create`; `none` inside for `-1`. -/
def procCreate (m : Mm) (elfData : FileData) (elfSize : ℕ) (argv : List (List UInt8)) :
    Option (Mm × Option UserProc) := do
  let (m, space) ← m.vmmCreateUserSpace
  let (m, entry) ← m.elfLoad space elfData elfSize
  if entry = 0 then some (m, none)
  else
    let (m, proc) ← m.kmalloc processSize
    let (m, stackPhys) ← m.allocStack
    let m ← m.mapStack space stackPhys
    let m := m.writeArgs (stackPhys + m.hhdm) argv
    let (m, thread, kernelStack) ← m.threadCreateUser
    let (m, stdin) ← m.openStd
    let (m, stdout) ← m.openStd
    some (m, some
      { proc := proc
        thread := thread
        kernelStack := kernelStack
        entry := entry
        userRsp := (argBlock argv).userRsp
        userArgc := argv.length
        userArgv := (argBlock argv).argvUser
        files := [stdin, stdout]
        mem := ⟨space, 0x10000000, 0⟩ })

/-! ## `sys_spawn` -/

/-- `argv_copies[i]`: at most 255 bytes of the string. -/
def argCopy (str : List UInt8) : List UInt8 := str.take 255

/-- The loop that copies the strings: the pointers to the copies. -/
def copyArgs (m : Mm) : List (List UInt8) → Option (Mm × List ℕ)
  | [] => some (m, [])
  | str :: strs => do
    let (m, copy) ← m.kmalloc ((argCopy str).length + 1)
    let m := { m with ram := m.ram.write copy (argCopy str ++ [0]) }
    let (m, copies) ← m.copyArgs strs
    some (m, copy :: copies)

end Mm

end CobjOs
