import CobjOs.Fs.Tar
import CobjOs.Kernel.Syscall

/-!
# Nodes and paths

`src/fs/vfs.c`, the operation tables of `tar_vfs.c`, `dev_vfs.c`, `dev/console.c` and `dev/fb.c`,
and how a path leads to a node.

Besides returning, a call can end in a `Fault`: it follows a pointer to a node or file that was
freed, it calls a null pointer of an operation table, or it panics.  The three are kept apart, so
that the absence of each is a statement of its own.
-/

namespace CobjOs

/-- How a call ends that does not return. -/
inductive Fault
  /-- A freed node or file is followed. -/
  | dangling
  /-- A null pointer of an operation table is called. -/
  | nullCall
  | panic
  deriving DecidableEq, Repr

/-- `(int)n`. -/
def toInt32 (n : ℕ) : ℤ := (n : ℤ).bmod (2 ^ 32)

/-- A number that fits is not changed by the conversion. -/
lemma toInt32_eq {n : ℕ} (hn : n < 2 ^ 31) : toInt32 n = n :=
  Int.bmod_eq_of_le (by omega) (by omega)

/-- `drive_t`. -/
structure Drive where
  root : Option Ptr
  label : CStr
  present : Bool
  deriving DecidableEq, Repr

/-- `MAX_DRIVES`. -/
def maxDrives : ℕ := 8

/-- The nodes and files, the drives and the archive. -/
structure Fs where
  vfs : Vfs
  drives : List Drive
  tar : List UInt8
  brk : Ptr

/-! ## The operation tables -/

namespace FsOps

/-- Whether `lookup` is set. -/
def hasLookup : FsOps → Bool
  | .tarfs | .devfsRoot => true
  | .stdin | .stdout | .null | .zero | .fb => false

/-- Whether `readdir` is set. -/
def hasReaddir : FsOps → Bool
  | .tarfs | .devfsRoot => true
  | .stdin | .stdout | .null | .zero | .fb => false

/-- Whether `read` is set. -/
def hasRead : FsOps → Bool
  | .tarfs | .stdin | .null | .zero | .fb => true
  | .devfsRoot | .stdout => false

/-- Whether `write` is set. -/
def hasWrite : FsOps → Bool
  | .stdout | .null | .zero | .fb => true
  | .tarfs | .devfsRoot | .stdin => false

/-- The tables that are registered for devices. -/
def IsDevice (ops : FsOps) : Prop := ops ≠ .tarfs ∧ ops ≠ .devfsRoot

instance (ops : FsOps) : Decidable ops.IsDevice := inferInstanceAs (Decidable (_ ∧ _))

end FsOps

/-- The node that `devfs_lookup` makes. -/
def devfsMakeNode (ops : FsOps) : FsNode :=
  { type := .device, ops := ops, data := none, size := 0, refcount := 1 }

namespace Fs

variable (fs : Fs)

/-- The node a pointer leads to. -/
def node (n : Ptr) : Except Fault FsNode :=
  match fs.vfs.nodes n with
  | some nd => .ok nd
  | none => .error .dangling

/-- The file a pointer leads to. -/
def file (f : Ptr) : Except Fault File :=
  match fs.vfs.files f with
  | some fl => .ok fl
  | none => .error .dangling

@[simps]
def setNode (n : Ptr) (nd : FsNode) : Fs :=
  { fs with vfs := { fs.vfs with nodes := Function.update fs.vfs.nodes n (some nd) } }

@[simps]
def setFile (f : Ptr) (fl : File) : Fs :=
  { fs with vfs := { fs.vfs with files := Function.update fs.vfs.files f (some fl) } }

/-- A block from `kmalloc` that becomes a node. -/
def allocNode (nd : FsNode) : Fs × Ptr := ({ fs.setNode fs.brk nd with brk := fs.brk + 1 }, fs.brk)

/-- A block from `kmalloc` that becomes a file. -/
def allocFile (fl : File) : Fs × Ptr := ({ fs.setFile fs.brk fl with brk := fs.brk + 1 }, fs.brk)

/-- What `tarfs_lookup` or `devfs_lookup` finds in a directory, as the node it makes of it. -/
def child (dir : FsNode) (name : CStr) : Option FsNode :=
  match dir.ops with
  | .tarfs => (tarfsLookup fs.tar dir.data name).map tarfsMakeNode
  | .devfsRoot => (fs.vfs.devfsEntries.find? fun e => cstr e.1 = name).map fun e => devfsMakeNode e.2
  | .stdin | .stdout | .null | .zero | .fb => none

/-- `dir->ops->lookup(dir, name)`. -/
def lookup (dir : FsNode) (name : CStr) : Except Fault (Fs × Option Ptr) :=
  if dir.ops.hasLookup then
    match fs.child dir name with
    | some nd => let (fs, n) := fs.allocNode nd; .ok (fs, some n)
    | none => .ok (fs, none)
  else .error .nullCall

/-- `devfs_readdir`. -/
def devfsReaddir (index : UInt32) : Option Dirent :=
  fs.vfs.devfsEntries[index.toNat]?.map fun e => { name := cstr e.1, type := .device, size := 0 }

/-- `dir->ops->readdir(dir, index, out)`. -/
def readdir (dir : FsNode) (index : UInt32) : Except Fault (Option Dirent) :=
  match dir.ops with
  | .tarfs => .ok (tarfsReaddir fs.tar dir.data index)
  | .devfsRoot => .ok (fs.devfsReaddir index)
  | .stdin | .stdout | .null | .zero | .fb => .error .nullCall

/-- `if (node->ops && node->ops->release) node->ops->release(node)`. -/
def release (n : Ptr) : Except Fault Fs := do
  let nd ← fs.node n
  if nd.ops.hasRelease then
    match fs.vfs.release n with
    | some v => .ok { fs with vfs := v }
    | none => .error .dangling
  else .ok fs

end Fs

/-! ## Paths -/

/-- `parse_path`: the number before the first colon and what is behind it. -/
def parsePath (path : CStr) : Option (ℤ × CStr) :=
  if colon ∈ path then
    let digits := path.takeWhile (· ≠ colon)
    if digits.all fun c => 48 ≤ c && c ≤ 57 then
      some (digits.foldl (fun num c => (num * 10 + ((c.toNat : ℤ) - 48)).bmod (2 ^ 32)) 0,
        path.drop (digits.length + 1))
    else none
  else none

/-- `next_component`: up to 255 bytes, and where the path goes on. -/
def nextComponent (path : CStr) : Option (CStr × CStr) :=
  let path := path.dropWhile (· = slash)
  if path = [] then none
  else
    let out := (path.takeWhile (· ≠ slash)).take 255
    some (out, path.drop out.length)

/-- The components that the loop of `vfs_resolve` takes.  Each has a byte at least, which bounds
their number. -/
def componentsFrom : ℕ → CStr → List CStr
  | 0, _ => []
  | fuel + 1, path =>
    match nextComponent path with
    | none => []
    | some (out, rest) => out :: componentsFrom fuel rest

def components (path : CStr) : List CStr := componentsFrom path.length path

namespace Fs

/-- The release of a node that the loop has passed; the root is not counted while it is walked. -/
def leave (fs : Fs) (root cur : Ptr) : Except Fault Fs :=
  if cur = root then .ok fs else fs.release cur

/-- The loop of `vfs_resolve`. -/
def walk (root : Ptr) : List CStr → Ptr → Fs → Except Fault (Fs × Option Ptr)
  | [], cur, fs => .ok (fs, some cur)
  | name :: names, cur, fs => do
    let nd ← fs.node cur
    if nd.type ≠ .dir ∨ nd.ops.hasLookup = false then
      let fs ← fs.leave root cur
      .ok (fs, none)
    else
      let (fs, next) ← fs.lookup nd name
      let fs ← fs.leave root cur
      match next with
      | none => .ok (fs, none)
      | some n => walk root names n fs

/-- The root of a drive, if `vfs_resolve` accepts the number. -/
def driveRoot (fs : Fs) (num : ℤ) : Option Ptr :=
  if num < 0 ∨ maxDrives ≤ num then none
  else (fs.drives[num.toNat]?).bind fun d => if d.present then d.root else none

/-- `vfs_resolve`. -/
def vfsResolve (fs : Fs) (path : CStr) : Except Fault (Fs × Option Ptr) :=
  match parsePath path with
  | none => .ok (fs, none)
  | some (num, rel) =>
    match fs.driveRoot num with
    | none => .ok (fs, none)
    | some root => do
      let (fs, res) ← walk root (components rel) root fs
      if res = some root then
        let nd ← fs.node root
        .ok (fs.setNode root { nd with refcount := (nd.refcount + 1) % 2 ^ 32 }, res)
      else .ok (fs, res)

/-! ## Start -/

/-- `vfs_drives[num] = d`. -/
def setDrive (fs : Fs) (num : ℕ) (d : Drive) : Fs := { fs with drives := fs.drives.set num d }

/-- The root node of a drive before anything refers to it. -/
def rootNode (ops : FsOps) : FsNode :=
  { type := .dir, ops := ops, data := none, size := 0, refcount := 1 }

/-- Before the file systems are set up, with the archive in place. -/
def empty (tar : List UInt8) : Fs where
  vfs := { nodes := fun _ => none, files := fun _ => none, devfsRoot := none, devfsEntries := [] }
  drives := List.replicate maxDrives { root := none, label := [], present := false }
  tar := tar
  brk := 0

/-- `tarfs_init`. -/
def tarfsInit (fs : Fs) : Fs :=
  let (fs, root) := fs.allocNode (rootNode .tarfs)
  fs.setDrive 0 { root := some root, label := cstr "initrd", present := true }

/-- `devfs_init`. -/
def devfsInit (fs : Fs) : Fs :=
  let (fs, root) := fs.allocNode (rootNode .devfsRoot)
  let fs := { fs with vfs := { fs.vfs with devfsRoot := some root, devfsEntries := [] } }
  fs.setDrive 1 { root := some root, label := cstr "dev", present := true }

/-- `devfs_register`, with `MAX_DEVFS_ENTRIES`. -/
def devfsRegister (fs : Fs) (name : String) (ops : FsOps) : Fs :=
  if 32 ≤ fs.vfs.devfsEntries.length then fs
  else { fs with vfs := { fs.vfs with devfsEntries := fs.vfs.devfsEntries ++ [(name, ops)] } }

/-- `devfs_init`, `console_dev_init` and `fb_dev_init`. -/
def devStart (fs : Fs) : Fs :=
  Kernel.devices.foldl (fun fs e => fs.devfsRegister e.1 e.2) fs.devfsInit

end Fs

end CobjOs
