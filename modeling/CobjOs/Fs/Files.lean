import CobjOs.Fs.Vfs

/-!
# Open files

The file system calls of `src/userspace/syscall.c`, what `proc_create` and `proc_cleanup` in
`src/multi/process.c` do to the descriptor tables, and the start in `kidle`.

A process is its descriptor table, its working directory and whether its thread is
`THREAD_DEAD`.  What the calls get from elsewhere is an argument: the verdicts of `elf_load` and
`font_load_psf`, the bytes of the caller's buffer as far as it may read them, the devices' input
(`Io`).
-/

namespace CobjOs

/-- The parts of `process_t` that the file calls use, and the death of its thread. -/
structure FileProc where
  fds : ℕ → Option Ptr
  cwd : CStr
  dead : Bool

/-- What the devices are connected to: the characters `kbd_getchar` will return, what is on the
console, and the frame buffer with its description. -/
structure Io where
  keys : ℕ → UInt8
  console : List UInt8
  fbInfo : List UInt8
  fbData : List UInt8

/-- `sizeof(fb_info_t)`. -/
def fbInfoSize : ℕ := 32

/-! ## Reading and writing a node -/

/-- The loop of `stdin_read`: up to `len` characters, or to the end of the line. -/
def stdinRead : ℕ → (ℕ → UInt8) → List UInt8
  | 0, _ => []
  | len + 1, keys =>
    if keys 0 = 10 ∨ keys 0 = 13 then [keys 0]
    else keys 0 :: stdinRead len fun i => keys (i + 1)

/-- `tarfs_read`: the bytes that are copied. -/
def tarfsRead (tar : List UInt8) (nd : FsNode) (len off : ℕ) : List UInt8 :=
  if nd.size ≤ off then []
  else
    let toRead := if nd.size < u64 (off + len) then nd.size - off else len
    (tar.drop (nd.data.getD 0 + 512 + off)).takeD toRead 0

/-- `fb_read`. -/
def fbRead (io : Io) (len off : ℕ) : List UInt8 :=
  if off < fbInfoSize then (io.fbInfo.drop off).takeD (min (fbInfoSize - off) len) 0
  else (io.fbData.drop (off - fbInfoSize)).take len

/-- `node->ops->read(node, buf, len, off)`: the bytes written to `buf` and the result. -/
def FsNode.read (tar : List UInt8) (io : Io) (nd : FsNode) (len off : ℕ) :
    Except Fault (Io × List UInt8 × ℤ) :=
  match nd.ops with
  | .tarfs => let bytes := tarfsRead tar nd len off; .ok (io, bytes, toInt32 bytes.length)
  | .stdin =>
    let bytes := stdinRead len io.keys
    .ok ({ io with keys := fun i => io.keys (bytes.length + i) }, bytes, toInt32 bytes.length)
  | .null => .ok (io, [], 0)
  | .zero => .ok (io, List.replicate len 0, toInt32 len)
  | .fb => let bytes := fbRead io len off; .ok (io, bytes, toInt32 bytes.length)
  | .devfsRoot | .stdout => .error .nullCall

/-- `fb_write`. -/
def fbWrite (io : Io) (buf : List UInt8) (off : ℕ) : Io × ℤ :=
  if off < fbInfoSize then (io, -1)
  else
    let start := off - fbInfoSize
    let bytes := buf.take (io.fbData.length - start)
    ({ io with fbData := io.fbData.take start ++ bytes ++ io.fbData.drop (start + bytes.length) },
      toInt32 bytes.length)

/-- `node->ops->write(node, buf, len, off)`. -/
def FsNode.write (io : Io) (nd : FsNode) (buf : List UInt8) (off : ℕ) : Except Fault (Io × ℤ) :=
  match nd.ops with
  | .stdout => .ok ({ io with console := io.console ++ buf }, toInt32 buf.length)
  | .null | .zero => .ok (io, toInt32 buf.length)
  | .fb => .ok (fbWrite io buf off)
  | .tarfs | .devfsRoot | .stdin => .error .nullCall

/-! ## The calls of one process -/

namespace FileProc

/-- The file of a descriptor, if `fd` is in range and open. -/
def fileOf (p : FileProc) (fd : ℤ) : Option Ptr :=
  if fd < 0 ∨ maxFds ≤ fd then none else p.fds fd.toNat

@[simps]
def setFd (p : FileProc) (i : ℕ) (f : Option Ptr) : FileProc :=
  { p with fds := Function.update p.fds i f }

end FileProc

namespace Fs

variable (fs : Fs)

/-- The end of `sys_close`, and of a turn of the loops in `sys_exit` and `sys_kill`. -/
def closeFile (f : Ptr) : Except Fault Fs :=
  match fs.vfs.closeFile f with
  | some v => .ok { fs with vfs := v }
  | none => .error .dangling

/-- The first free descriptor from `FD_RESERVED` on. -/
def freeFd (p : FileProc) : Option ℕ :=
  (List.range' fdReserved (maxFds - fdReserved)).find? fun i => p.fds i = none

/-- `sys_open`. -/
def sysOpen (p : FileProc) (path : CStr) : Except Fault (Fs × FileProc × ℤ) :=
  match freeFd p with
  | none => .ok (fs, p, -1)
  | some fd => do
    match ← fs.vfsResolve path with
    | (fs, none) => .ok (fs, p, -1)
    | (fs, some n) =>
      let (fs, f) := fs.allocFile { node := n, offset := 0, flags := 1 }
      .ok (fs, p.setFd fd (some f), fd)

/-- `sys_close`. -/
def sysClose (p : FileProc) (fd : ℤ) : Except Fault (Fs × FileProc × ℤ) :=
  match p.fileOf fd with
  | none => .ok (fs, p, -1)
  | some f => do
    let fs ← fs.closeFile f
    .ok (fs, p.setFd fd.toNat none, 0)

/-- `(int64_t)n`. -/
def toInt64 (n : ℤ) : ℤ := n.bmod (2 ^ 64)

/-- `sys_seek`. -/
def sysSeek (p : FileProc) (fd offset whence : ℤ) : Except Fault (Fs × ℤ) :=
  match p.fileOf fd with
  | none => .ok (fs, -1)
  | some f => do
    let fl ← fs.file f
    let base : Option ℤ ← (if whence = 0 then .ok (some 0)
      else if whence = 1 then .ok (some (toInt64 fl.offset))
      else if whence = 2 then do
        let nd ← fs.node fl.node
        .ok (some (toInt64 nd.size))
      else .ok none)
    match base with
    | none => .ok (fs, -1)
    | some base =>
      let newOff := toInt64 (base + offset)
      if newOff < 0 then .ok (fs, -1)
      else .ok (fs.setFile f { fl with offset := newOff.toNat }, newOff)

/-- `if (n > 0) file->offset += n`. -/
def advance (f : Ptr) (fl : File) (n : ℤ) : Fs :=
  if 0 < n then fs.setFile f { fl with offset := u64 (fl.offset + n.toNat) } else fs

/-- `sys_read`: with the bytes written to the caller's buffer. -/
def sysRead (io : Io) (p : FileProc) (fd : ℤ) (size : ℕ) :
    Except Fault (Fs × Io × List UInt8 × ℤ) :=
  match p.fileOf fd with
  | none => .ok (fs, io, [], -1)
  | some f => do
    let fl ← fs.file f
    let nd ← fs.node fl.node
    let (io, bytes, n) ← nd.read fs.tar io size fl.offset
    .ok (fs.advance f fl n, io, bytes, n)

/-- `sys_write`. -/
def sysWrite (io : Io) (p : FileProc) (fd : ℤ) (buf : List UInt8) : Except Fault (Fs × Io × ℤ) :=
  match p.fileOf fd with
  | none => .ok (fs, io, -1)
  | some f => do
    let fl ← fs.file f
    let nd ← fs.node fl.node
    let (io, n) ← nd.write io buf fl.offset
    .ok (fs.advance f fl n, io, n)

/-- The loop of `sys_listdir`, with `fuel` entries to go until `max`. -/
def listEntries (dir : FsNode) : ℕ → ℕ → Except Fault (List Dirent)
  | 0, _ => .ok []
  | fuel + 1, count => do
    match ← fs.readdir dir (UInt32.ofNat count) with
    | none => .ok []
    | some ent =>
      let ents ← listEntries dir fuel (count + 1)
      .ok (ent :: ents)

/-- `sys_listdir`: with the entries written to the caller's buffer. -/
def sysListdir (path : CStr) (max : ℤ) : Except Fault (Fs × List Dirent × ℤ) := do
  match ← fs.vfsResolve path with
  | (fs, none) => .ok (fs, [], -1)
  | (fs, some n) =>
    let dir ← fs.node n
    if dir.type ≠ .dir then
      let fs ← fs.release n
      .ok (fs, [], -1)
    else
      let ents ← fs.listEntries dir max.toNat 0
      let fs ← fs.release n
      .ok (fs, ents, ents.length)

/-- `sys_set_cwd` from `copy_from_user` on, with `none` for a copy that fails. -/
def sysSetCwd (p : FileProc) (copied : Option (List UInt8)) : Except Fault (Fs × FileProc × ℤ) :=
  match copied with
  | none => .ok (fs, p, -1)
  | some tmp => do
    let path := tmp.takeWhile (· ≠ 0)
    match ← fs.vfsResolve path with
    | (fs, none) => .ok (fs, p, -1)
    | (fs, some n) =>
      let nd ← fs.node n
      let fs ← fs.release n
      if nd.type ≠ .dir then .ok (fs, p, -1)
      else .ok (fs, { p with cwd := path }, tmp.length)

/-- `copy_from_user` of `len` bytes, where `user i` is byte `i` of the buffer if the caller may read
it. -/
def copyUser (user : ℕ → Option UInt8) (len : ℕ) : Option (List UInt8) := (List.range len).mapM user

/-- `sys_set_cwd`. -/
def sysSetCwdBuf (p : FileProc) (user : ℕ → Option UInt8) (bufSize : ℕ) :
    Except Fault (Fs × FileProc × ℤ) :=
  fs.sysSetCwd p (if bufSize = 0 then none
    else copyUser user (if bufSize < 255 then bufSize else 255))

/-- A path resolved and the node released again, as the kernel does for its own files. -/
def probe (path : CStr) : Except Fault Fs := do
  match ← fs.vfsResolve path with
  | (fs, none) => .ok fs
  | (fs, some n) => fs.release n

/-- One turn of the descriptor loop in `sys_exit` and `sys_kill`. -/
def closeFd (s : Fs × FileProc) (i : ℕ) : Except Fault (Fs × FileProc) :=
  match s.2.fds i with
  | none => .ok s
  | some f => do
    let fs ← s.1.closeFile f
    .ok (fs, s.2.setFd i none)

/-- The descriptor loop in `sys_exit` and `sys_kill`. -/
def closeFds (p : FileProc) : Except Fault (Fs × FileProc) :=
  (List.range' fdReserved (maxFds - fdReserved)).foldlM closeFd (fs, p)

/-- One turn of the standard-descriptor loop of `proc_create`. -/
def stdFd (p : FileProc) (i : ℕ) (path : CStr) (flags : ℕ) : Except Fault (Fs × FileProc) := do
  match ← fs.vfsResolve path with
  | (fs, none) => .ok (fs, p)
  | (fs, some n) =>
    let (fs, f) := fs.allocFile { node := n, offset := 0, flags := flags }
    .ok (fs, p.setFd i (some f))

/-- The program of a path is read and its node released; `none` if that fails.  A program that
cannot be read whole leaves its node behind. -/
def loadProgram (io : Io) (path : CStr) : Except Fault (Fs × Io × Option (List UInt8)) := do
  match ← fs.vfsResolve path with
  | (fs, none) => .ok (fs, io, none)
  | (fs, some n) =>
    let nd ← fs.node n
    let (io, elf, k) ← nd.read fs.tar io nd.size 0
    if k ≠ nd.size then .ok (fs, io, none)
    else
      let fs ← fs.release n
      .ok (fs, io, some elf)

/-- Where the console font is. -/
def fontPath : CStr := cstr "0:/etc/Lat2-Terminus16.psf"

/-- The reading of the font in `kidle`, where `font` is the verdict of `font_load_psf`.  The
font's node is not released. -/
def loadFont (io : Io) (font : Bool) : Except Fault (Fs × Io) := do
  match ← fs.vfsResolve fontPath with
  | (_, none) => .error .panic
  | (fs, some n) =>
    let nd ← fs.node n
    let (io, _, k) ← nd.read fs.tar io nd.size 0
    if k ≠ nd.size ∨ font = false then .error .panic else .ok (fs, io)

end Fs

/-! ## All processes -/

/-- The file system and the processes; `procList` is `proc_list`. -/
structure Files where
  fs : Fs
  io : Io
  procs : Ptr → Option FileProc
  procList : List Ptr

namespace Files

variable (w : Files)

@[simps]
def setProc (p : Ptr) (pr : FileProc) : Files :=
  { w with procs := Function.update w.procs p (some pr) }

@[simps]
def setFs (fs : Fs) : Files := { w with fs := fs }

/-- `proc_create` after `elf_load`, whose verdict is `accepted`.  The process has the identity of
its block. -/
def procCreate (accepted : Bool) (cwd : CStr) : Except Fault (Files × ℤ) :=
  if accepted = false then .ok (w, -1)
  else do
    let proc := w.fs.brk
    let fs := { w.fs with brk := w.fs.brk + 1 }
    let cwd := if cwd = [] then cstr "0:/" else cwd.take 255
    let pr : FileProc := { fds := fun _ => none, cwd := cwd, dead := false }
    let (fs, pr) ← fs.stdFd pr 0 (cstr "1:/stdin") 1
    let (fs, pr) ← fs.stdFd pr 1 (cstr "1:/stdout") 2
    .ok ({ (w.setFs fs).setProc proc pr with procList := proc :: w.procList }, proc)

/-- `sys_spawn` by a process with working directory `cwd`. -/
def sysSpawn (cwd path : CStr) (accepted : Bool) : Except Fault (Files × ℤ) := do
  match ← w.fs.loadProgram w.io path with
  | (fs, io, none) => .ok ({ w with fs := fs, io := io }, -1)
  | (fs, io, some _) => procCreate { w with fs := fs, io := io } accepted cwd

/-- The start of `init` in `kidle` and at the end of `proc_cleanup`. -/
def startInit (accepted : Bool) : Except Fault Files := do
  match ← w.fs.loadProgram w.io (cstr "0:/init/init") with
  | (_, _, none) => .error .panic
  | (fs, io, some _) =>
    let (w, _) ← procCreate { w with fs := fs, io := io } accepted (cstr "0:/")
    .ok w

/-- Whether a process of the list is alive. -/
def aliveIn (p : Ptr) : Bool := (w.procs p).any fun pr => !pr.dead

/-- `proc_cleanup`: the dead processes are dropped with what is left in their tables, and `init`
is started again if nobody is alive. -/
def procCleanup (accepted : Bool) : Except Fault Files :=
  let alive := w.procList.filter fun p => w.aliveIn p
  let w := { w with procs := fun p => if w.aliveIn p then w.procs p else none, procList := alive }
  if alive = [] then w.startInit accepted else .ok w

/-- What processes do to files, and how they end. -/
inductive Op
  | «open» (p : Ptr) (path : CStr)
  | close (p : Ptr) (fd : ℤ)
  | seek (p : Ptr) (fd offset whence : ℤ)
  | listdir (p : Ptr) (path : CStr) (max : ℤ)
  | setCwd (p : Ptr) (user : ℕ → Option UInt8) (bufSize : ℕ)
  | spawn (p : Ptr) (path : CStr) (accepted : Bool)
  | probe (path : CStr)
  | exit (p : Ptr)
  | kill (p target : Ptr)
  /-- An exception in user mode. -/
  | fault (p : Ptr)
  | cleanup (accepted : Bool)

/-- A call that works on the file system and the caller's table; only a process that is alive
makes calls. -/
def call (p : Ptr) (f : FileProc → Except Fault (Fs × FileProc)) : Except Fault Files :=
  match w.procs p with
  | none => .ok w
  | some pr =>
    if pr.dead then .ok w
    else do
      let (fs, pr) ← f pr
      .ok ((w.setFs fs).setProc p pr)

/-- The end of a process in `sys_exit` and `sys_kill`. -/
def die (pr : FileProc) : Except Fault (Fs × FileProc) := do
  let (fs, pr) ← w.fs.closeFds pr
  .ok (fs, { pr with dead := true })

def step : Op → Except Fault Files
  | .open p path => w.call p fun pr => do
    let (fs, pr, _) ← w.fs.sysOpen pr path
    .ok (fs, pr)
  | .close p fd => w.call p fun pr => do
    let (fs, pr, _) ← w.fs.sysClose pr fd
    .ok (fs, pr)
  | .seek p fd offset whence => w.call p fun pr => do
    let (fs, _) ← w.fs.sysSeek pr fd offset whence
    .ok (fs, pr)
  | .listdir p path max => w.call p fun pr => do
    let (fs, _, _) ← w.fs.sysListdir path max
    .ok (fs, pr)
  | .setCwd p user bufSize => w.call p fun pr => do
    let (fs, pr, _) ← w.fs.sysSetCwdBuf pr user bufSize
    .ok (fs, pr)
  | .spawn p path accepted =>
    match w.procs p with
    | none => .ok w
    | some pr =>
      if pr.dead then .ok w
      else do
        let (w, _) ← w.sysSpawn pr.cwd path accepted
        .ok w
  | .probe path => do
    let fs ← w.fs.probe path
    .ok (w.setFs fs)
  | .exit p => w.call p w.die
  | .kill p target =>
    -- the caller is alive, the target may be dead and not yet dropped
    if w.aliveIn p then
      match w.procs target with
      | none => .ok w
      | some pr => do
        let (fs, pr) ← w.die pr
        .ok ((w.setFs fs).setProc target pr)
    else .ok w
  | .fault p => w.call p fun pr => .ok (w.fs, { pr with dead := true })
  | .cleanup accepted => w.procCleanup accepted

/-- The state after an operation that does not end in a fault. -/
def next (op : Op) : Option Files := (w.step op).toOption

/-- `kidle`: the archive is mounted and the font read from it, then the devices are set up and
`init` is started. -/
def kidle (tar : List UInt8) (io : Io) (font accepted : Bool) : Except Fault Files := do
  let (fs, io) ← (Fs.empty tar).tarfsInit.loadFont io font
  startInit { fs := fs.devStart, io := io, procs := fun _ => none, procList := [] } accepted

end Files

end CobjOs
