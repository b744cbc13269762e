import CobjOs.Process.CreateSpec
import CobjOs.Properties.ElfImage

/-!
# The arguments of a new process

`proc_create` puts the argument strings and the array of pointers to them at the end of the user
stack.  If they fit, the program finds them there (`ArgsAt`), unless the file has a segment in the
upper half: the loader then writes its mappings to tables of the kernel.

If they do not fit, the offset of the array wraps below 0, and `proc_create` writes to the memory
before the stack: nothing in `sys_spawn` bounds the number of strings.
-/

namespace CobjOs

open List

/-! ## Layout -/

/-- The pointers `ptrs` and the strings they lead to are on the stack, above each other from
`argvUser` on, with the stack pointer below. -/
structure ArgsAt (m : Mm) (space argvUser userRsp : ℕ) (argv : List (List UInt8))
    (ptrs : List ℕ) : Prop where
  length : ptrs.length = argv.length
  array : m.userBytes space argvUser ((argv.length + 1) * 8) =
    some ((ptrs ++ [0]).flatMap (leBytes 8))
  string : ∀ {i ptr : ℕ} {str : List UInt8}, ptrs[i]? = some ptr → argv[i]? = some str →
    m.userBytes space ptr (str.length + 1) = some (str ++ [0]) ∧
      argvUser + (argv.length + 1) * 8 ≤ ptr ∧ ptr + (str.length + 1) ≤ stackTop
  apart : (ptrs.zip argv).Pairwise fun p q => p.1 + (p.2.length + 1) ≤ q.1
  aligned : argvUser % 16 = 0 ∧ userRsp % 16 = 0
  rsp : stackBase ≤ userRsp ∧ userRsp < argvUser

/-- A machine whose kernel half has one large page, which the entry 0 of page 2 maps, and with
`0x4003` in the first bytes of page 0. -/
def largePageMachine : Mm :=
  { hhdm := 0x1000
    ram := ((Mem.writeNat (fun _ => 0) 8 0x1000 0x4003).writeNat 8
      (0x2000 + 256 * 8) 0x2003).writeNat 8 0x3000 0x83
    pmm := ⟨fun i => if i = 0 then 7 else 0, 64, 0⟩
    caches := fun _ => ⟨0, 0, 0, 0⟩
    kernelPml4 := 0x1000 }

/-- A file with a segment in the kernel half.  The loader takes the large page for a table, which is
then in page 0, and page 4, the new `PML4`, for the last one; so the frame of the segment becomes a
table of the stack, and its last bytes lead to page 10, which will be the last page of the stack. -/
def tableFile : List UInt8 :=
  elfFile [⟨ptLoad, 6, 120, 0xffff8000000ffff8, 8, 8⟩] (leBytes 8 0xa007)

/-- The strings that `sys_spawn` passes on: the first `argc` of the caller's, each cut. -/
def spawnArgs (argv : ℕ → List UInt8) (argc : ℤ) : List (List UInt8) :=
  ((List.range argc.toNat).map argv).map Mm.argCopy

lemma length_writes (argv : List (List UInt8)) :
    (argBlock argv).writes.length = argv.length + 1 := by
  have hplaced : ∀ argv, (placeStrings argv).1.length = argv.length := by
    intro argv
    induction argv with
    | nil => rfl
    | cons str argv ih => rw [placeStrings, length_cons, length_cons, ih]
  simp [argBlock, hplaced]

end CobjOs
