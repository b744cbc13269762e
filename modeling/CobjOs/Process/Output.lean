import CobjOs.Framework.Outcome
import CobjOs.Fs.Files
import CobjOs.Kernel.Syscall
import CobjOs.Process.UserCopy
import Mathlib.Data.List.TakeDrop

/-!
# What the calls store through the caller's pointers

`sys_read`, `sys_gettime`, `sys_listprocs`, `sys_listdir`, `sys_listdrives` and `sys_port_receive`
of `src/userspace/syscall.c` store through the pointer as it is, `sys_get_cwd` goes through
`copy_to_user`.

For the first kind the model says what is stored and at which addresses (`UserStore`); what the
processor does with an address that is not mapped is left open.  For `sys_get_cwd` it is the change
of memory, and `copyTurns` are the parts that `copy_to_user` copies, each with the memory that its
page was looked up in.
-/

namespace CobjOs

open List Mem Option

/-- Bytes that are stored from an address on. -/
structure UserStore where
  addr : ℕ
  bytes : List UInt8

/-- The addresses that are stored to. -/
def UserStore.Touches (st : UserStore) (x : ℕ) : Prop :=
  ∃ i < st.bytes.length, x = u64 (st.addr + i)

/-- What a call stores, and what it returns if it does not block. -/
structure Output where
  stores : List UserStore
  ret : Option ℤ

/-- `rtc_time_t`, with the byte that aligns the year. -/
structure RtcTime where
  seconds : UInt8
  minutes : UInt8
  hours : UInt8
  day : UInt8
  month : UInt8
  padding : UInt8
  year : ℕ

def RtcTime.bytes (t : RtcTime) : List UInt8 :=
  [t.seconds, t.minutes, t.hours, t.day, t.month, t.padding] ++ leBytes 2 t.year

/-- `proc_info_t`. -/
structure ProcInfo where
  pid : ℕ
  name : CStr
  state : ThreadState

/-- The number of a `thread_state_t`. -/
def ThreadState.code : ThreadState → UInt8
  | .ready => 0
  | .running => 1
  | .blocked => 2
  | .dead => 3

/-- The number of a `fsnode_type_t`. -/
def NodeType.code : NodeType → ℕ
  | .file => 0
  | .dir => 1
  | .device => 2

/-- What `strncpy(dst, src, n)` stores. -/
def strncpyBytes (src : CStr) (n : ℕ) : List UInt8 := src.takeD n 0

/-- What the calls read: memory with the address space, the `cwd` of the process and the local `nul`
of `sys_get_cwd`, the files, the processes with their names, what `rtc_now` returns, and the strings
that arguments point to. -/
structure Caller where
  mm : Mm
  space : ℕ
  cwd : ℕ
  nul : ℕ
  fs : Fs
  io : Io
  table : FileProc
  kernel : Kernel
  names : Ptr → CStr
  now : RtcTime
  strAt : ℕ → CStr

/-! ## Arrays of records -/

section Records

variable {α : Type*}

/-- A loop that fills in `buf[count]` while `count < max`: the records have `size` bytes, and
`fields` are the offsets and bytes of what is stored in one. -/
def fillRecords (size : ℕ) (fields : α → List (ℕ × List UInt8)) (buf : ℕ) (max : ℤ) :
    ℕ → List α → Output
  | count, [] => ⟨[], some count⟩
  | count, a :: as =>
    if count < max then
      let out := fillRecords size fields buf max (count + 1) as
      ⟨(fields a).map (fun f => ⟨u64 (buf + size * count + f.1), f.2⟩) ++ out.stores, out.ret⟩
    else ⟨[], some count⟩

end Records

/-- `sizeof(proc_info_t)`, `sizeof(dirent_t)` and `sizeof(drive_info_t)`. -/
def procInfoSize : ℕ := 80
def direntSize : ℕ := 272
def driveInfoSize : ℕ := 66

/-- `sizeof(rtc_time_t)`. -/
def rtcTimeSize : ℕ := 8

/-- A turn of `sys_listprocs`. -/
def ProcInfo.fields (e : ProcInfo) : List (ℕ × List UInt8) :=
  [(0, leBytes 8 e.pid), (72, [e.state.code]),
    (8, if e.name ≠ [] then strncpyBytes e.name 63 else [0])]

/-- What `readdir` fills in: `devfs_readdir` all of the name, `tarfs_readdir` what it needs. -/
def Dirent.fields (e : Dirent) : List (ℕ × List UInt8) :=
  [(0, (if e.type = .device then strncpyBytes e.name 255 else e.name) ++ [0]),
    (256, leBytes 4 e.type.code), (264, leBytes 8 e.size)]

/-- A turn of `sys_listdrives` for a drive that is present. -/
def Drive.fields (d : Drive × ℕ) : List (ℕ × List UInt8) :=
  [(0, leBytes 1 d.2), (65, [1]), (1, strncpyBytes d.1.label 63), (64, [0])]

/-! ## The calls -/

namespace Caller

variable (s : Caller)

/-- `sys_read`. -/
def sysRead (fd : ℤ) (buf size : ℕ) : Option Output := do
  let (_, _, bytes, n) ← (s.fs.sysRead s.io s.table fd size).toOption
  some ⟨[⟨buf, bytes⟩], some n⟩

/-- `sys_gettime`. -/
def sysGettime (out : ℕ) : Output := ⟨[⟨out, s.now.bytes⟩], some 0⟩

/-- The process that a pointer of `proc_list` leads to. -/
def procInfo (p : Ptr) : Option ProcInfo := do
  let pr ← s.kernel.procs p
  let th ← s.kernel.threads pr.thread
  some { pid := pr.pid, name := s.names p, state := th.state }

/-- `sys_listprocs`. -/
def sysListprocs (buf : ℕ) (max : ℤ) : Option Output := do
  let infos ← (s.kernel.procList.take max.toNat).mapM s.procInfo
  some (fillRecords procInfoSize ProcInfo.fields buf max 0 infos)

/-- `sys_listdir`. -/
def sysListdir (path : CStr) (entries : ℕ) (max : ℤ) : Option Output := do
  let (_, ents, n) ← (s.fs.sysListdir path max).toOption
  some ⟨(fillRecords direntSize Dirent.fields entries max 0 ents).stores, some n⟩

/-- `sys_listdrives`. -/
def sysListdrives (buf : ℕ) (max : ℤ) : Output :=
  fillRecords driveInfoSize Drive.fields buf max 0
    (s.fs.drives.zipIdx.filter fun d => d.1.present)

/-- The end of `port_receive`, if a message was there. -/
def received (buf : ℕ) : Option Received → Output
  | none => ⟨[], none⟩
  | some r => ⟨[⟨buf, r.bytes⟩], some (toInt32 r.bytes.length)⟩

/-- `sys_port_receive`. -/
def sysPortReceive (token buf len : ℕ) : Option Output := do
  let proc ← s.kernel.currProc
  let pr ← s.kernel.procs proc
  match ← s.kernel.portSlotIn pr token (List.range maxPorts) with
  | none => some ⟨[], some (-1)⟩
  | some _ =>
    match ← s.kernel.portLookup token with
    | none => some ⟨[], some 0⟩
    | some p =>
      let (_, r) ← s.kernel.portReceiveLoop p len
      some (received buf r)

/-- `port_receive` when `schedule` comes back. -/
def portReceiveAgain (p : Ptr) (buf len : ℕ) : Option Output := do
  let (_, r) ← s.kernel.portReceiveLoop p len
  some (received buf r)

/-- `strlen(proc->cwd)`; the array has 256 bytes. -/
def cwdLen : ℕ := ((s.mm.ram.read s.cwd 256).takeWhile (· ≠ 0)).length

/-- `to_copy` in `sys_get_cwd`. -/
def cwdToCopy (bufSize : ℕ) : ℕ := if s.cwdLen < bufSize - 1 then s.cwdLen else bufSize - 1

/-- `sys_get_cwd`. -/
def sysGetCwd (buf bufSize : ℕ) : Mm × ℤ :=
  if bufSize = 0 then (s.mm, -1)
  else
    let toCopy := s.cwdToCopy bufSize
    let (m, ok) := s.mm.copyToUser s.space buf s.cwd toCopy
    if !ok then (m, -1)
    else
      let m := { m with ram := m.ram.write s.nul [0] }
      let (m, ok) := m.copyToUser s.space (u64 (buf + toCopy)) s.nul 1
      if !ok then (m, -1) else (m, toInt32 toCopy)

/-- `syscall_dispatch`, for the numbers of the calls that store through a pointer as it is. -/
def syscallDispatch (number arg0 arg1 arg2 : ℕ) : Option Output :=
  match number with
  | 7 => s.sysListdir (s.strAt arg0) arg1 (toInt32 arg2)
  | 13 => s.sysRead (toInt32 arg0) arg1 arg2
  | 14 => some (s.sysGettime arg0)
  | 15 => s.sysListprocs arg0 (toInt32 arg1)
  | 19 => s.sysPortReceive arg0 arg1 arg2
  | 24 => some (s.sysListdrives arg0 (toInt32 arg1))
  | _ => none

end Caller

/-- The buffer that a caller offers: its address, and its size by the arguments and the types. -/
def outBuffer (number arg0 arg1 arg2 : ℕ) : ℕ × ℕ :=
  match number with
  | 7 => (arg1, direntSize * (toInt32 arg2).toNat)
  | 13 => (arg1, arg2)
  | 14 => (arg0, rtcTimeSize)
  | 15 => (arg0, procInfoSize * (toInt32 arg1).toNat)
  | 19 => (arg1, arg2)
  | 24 => (arg0, driveInfoSize * (toInt32 arg1).toNat)
  | _ => (0, 0)

/-! ## The stores stay in the buffer -/

/-- All of the stores are to the `len` bytes from `buf` on. -/
def Output.Inside (out : Output) (buf len : ℕ) : Prop :=
  ∀ st ∈ out.stores, ∀ x, st.Touches x → ∃ j < len, x = u64 (buf + j)

section Inside

variable {α : Type*} {s : Caller} {buf len : ℕ} {bytes : List UInt8} {ret : Option ℤ} {out : Output}

lemma inside_nil : (⟨[], ret⟩ : Output).Inside buf len := fun _ h => nomatch h

lemma inside_single (h : bytes.length ≤ len) : (⟨[⟨buf, bytes⟩], ret⟩ : Output).Inside buf len := by
  intro st hst x hx
  obtain rfl := mem_singleton.1 hst
  obtain ⟨i, hi, rfl⟩ := hx
  exact ⟨i, hi.trans_le h, rfl⟩

lemma u64_add_u64 (a b : ℕ) : u64 (u64 a + b) = u64 (a + b) := by
  unfold u64
  exact Nat.mod_add_mod a (2 ^ 64) b

/-- Records that fit their size stay in an array of `max` of them.  The induction is on the records
left, with their number so far. -/
lemma inside_fillRecords {size : ℕ} {fields : α → List (ℕ × List UInt8)} (buf : ℕ) (max : ℤ)
    (as : List α) (count : ℕ) (hfit : ∀ a ∈ as, ∀ f ∈ fields a, f.1 + f.2.length ≤ size) :
    (fillRecords size fields buf max count as).Inside buf (size * max.toNat) := by
  induction as generalizing count with
  | nil => exact inside_nil
  | cons a as ih =>
    rw [fillRecords]
    split_ifs with hcount
    · intro st hst x hx
      rcases mem_append.1 hst with hst | hst
      · obtain ⟨f, hf, rfl⟩ := List.mem_map.1 hst
        obtain ⟨i, hi, rfl⟩ := hx
        have hfield := hfit a mem_cons_self f hf
        have hrecord : size * (count + 1) ≤ size * max.toNat := Nat.mul_le_mul_left _ (by omega)
        rw [Nat.mul_succ] at hrecord
        dsimp only at hi
        refine ⟨size * count + f.1 + i, by omega, ?_⟩
        rw [u64_add_u64]
        congr 1
        omega
      · exact ih (count + 1) (fun b hb => hfit b (mem_cons_of_mem _ hb)) st hst x hx
    · exact inside_nil

lemma length_stdinRead_le (len : ℕ) (keys : ℕ → UInt8) : (stdinRead len keys).length ≤ len := by
  induction len generalizing keys with
  | zero => exact le_rfl
  | succ len ih =>
    rw [stdinRead]
    split_ifs
    · simp
    · simpa using ih fun i => keys (i + 1)

lemma length_tarfsRead_le (tar : List UInt8) (nd : FsNode) (len off : ℕ) :
    (tarfsRead tar nd len off).length ≤ len := by
  have hmod : u64 (off + len) ≤ off + len := Nat.mod_le _ _
  rw [tarfsRead]
  split_ifs
  · exact Nat.zero_le _
  · rw [takeD_length]
    omega
  · rw [takeD_length]

/-- A node is asked for `len` bytes and gives no more. -/
lemma length_read_le {tar : List UInt8} {io io' : Io} {nd : FsNode} {off : ℕ} {n : ℤ}
    (h : nd.read tar io len off = .ok (io', bytes, n)) : bytes.length ≤ len := by
  unfold FsNode.read at h
  split at h <;> cases h
  · exact length_tarfsRead_le ..
  · exact length_stdinRead_le ..
  · exact Nat.zero_le _
  · simp
  · rw [fbRead]
    split_ifs
    · rw [takeD_length]
      exact Nat.min_le_right _ _
    · exact length_take_le ..

lemma inside_sysRead {fd : ℤ} {size : ℕ} (h : s.sysRead fd buf size = some out) :
    out.Inside buf size := by
  obtain ⟨⟨fs, io, bytes, n⟩, hread, hout⟩ := bind_eq_some_iff.1 h
  obtain rfl := some.inj hout
  refine inside_single ?_
  rw [toOption_eq_some, Fs.sysRead] at hread
  split at hread
  · cases hread
    exact Nat.zero_le _
  · obtain ⟨fl, -, hread⟩ := bind_eq_ok.1 hread
    obtain ⟨nd, -, hread⟩ := bind_eq_ok.1 hread
    obtain ⟨⟨io', bytes', n'⟩, hnode, hread⟩ := bind_eq_ok.1 hread
    cases hread
    exact length_read_le hnode

lemma inside_sysGettime (out : ℕ) : (s.sysGettime out).Inside out rtcTimeSize :=
  inside_single (by simp [RtcTime.bytes, length_leBytes, rtcTimeSize])

lemma ProcInfo.fields_fit (e : ProcInfo) : ∀ f ∈ e.fields, f.1 + f.2.length ≤ procInfoSize := by
  simp only [ProcInfo.fields, mem_cons, not_mem_nil, or_false, forall_eq_or_imp,
    forall_eq, length_leBytes, procInfoSize]
  refine ⟨by decide, by simp, ?_⟩
  split_ifs
  · rw [strncpyBytes, takeD_length]
    decide
  · simp

lemma inside_sysListprocs {max : ℤ} (h : s.sysListprocs buf max = some out) :
    out.Inside buf (procInfoSize * max.toNat) := by
  obtain ⟨infos, -, hout⟩ := bind_eq_some_iff.1 h
  obtain rfl := some.inj hout
  exact inside_fillRecords _ _ _ _ fun e _ => e.fields_fit

lemma inside_sysListdrives (max : ℤ) :
    (s.sysListdrives buf max).Inside buf (driveInfoSize * max.toNat) := by
  refine inside_fillRecords _ _ _ _ fun d _ => ?_
  simp only [Drive.fields, mem_cons, not_mem_nil, or_false, forall_eq_or_imp, forall_eq,
    length_leBytes, strncpyBytes, takeD_length, driveInfoSize]
  exact ⟨by decide, by simp, by decide, by simp⟩

lemma Dirent.fields_fit {fs : Fs} {dir : FsNode} {index : UInt32} {e : Dirent}
    (h : fs.readdir dir index = .ok (some e)) : ∀ f ∈ e.fields, f.1 + f.2.length ≤ direntSize := by
  have hname : e.type ≠ .device → e.name.length ≤ 99 := by
    intro htype
    unfold Fs.readdir at h
    split at h <;> try cases h
    · rw [Except.ok.injEq, tarfsReaddir] at h
      obtain ⟨hdr, -, hent⟩ := mem_filterMap.1 (mem_of_getElem? h)
      rw [tarfsDirent, bind_eq_some_iff] at hent
      obtain ⟨rel, -, hent⟩ := hent
      split_ifs at hent
      cases hent
      exact length_take_le ..
    · rw [Except.ok.injEq, Fs.devfsReaddir, map_eq_some_iff] at h
      obtain ⟨entry, -, rfl⟩ := h
      exact absurd rfl htype
  simp only [Dirent.fields, mem_cons, not_mem_nil, or_false, forall_eq_or_imp, forall_eq,
    length_leBytes, direntSize, length_append, length_singleton]
  refine ⟨?_, by decide, by decide⟩
  split_ifs with htype
  · rw [strncpyBytes, takeD_length]
    decide
  · have := hname htype
    omega

lemma mem_listEntries {fs : Fs} {dir : FsNode} {fuel count : ℕ} {ents : List Dirent} {e : Dirent}
    (h : fs.listEntries dir fuel count = .ok ents) (he : e ∈ ents) :
    ∃ index, fs.readdir dir index = .ok (some e) := by
  induction fuel generalizing count ents with
  | zero =>
    cases h
    cases he
  | succ fuel ih =>
    obtain ⟨res, hread, h⟩ := bind_eq_ok.1 h
    cases res with
    | none =>
      cases h
      cases he
    | some ent =>
      obtain ⟨rest, hrest, h⟩ := bind_eq_ok.1 h
      cases h
      rcases mem_cons.1 he with rfl | he
      · exact ⟨_, hread⟩
      · exact ih hrest he

lemma inside_sysListdir {path : CStr} {max : ℤ}
    (h : s.sysListdir path buf max = some out) : out.Inside buf (direntSize * max.toNat) := by
  obtain ⟨⟨fs, ents, n⟩, hlist, hout⟩ := bind_eq_some_iff.1 h
  obtain rfl := some.inj hout
  refine inside_fillRecords buf max ents 0 fun e he => ?_
  rw [toOption_eq_some, Fs.sysListdir] at hlist
  obtain ⟨⟨fs₁, res⟩, -, hlist⟩ := bind_eq_ok.1 hlist
  cases res with
  | none =>
    cases hlist
    cases he
  | some nd =>
    obtain ⟨dir, -, hlist⟩ := bind_eq_ok.1 hlist
    split_ifs at hlist
    · obtain ⟨fs₂, -, hlist⟩ := bind_eq_ok.1 hlist
      cases hlist
      cases he
    · obtain ⟨ents', hents, hlist⟩ := bind_eq_ok.1 hlist
      obtain ⟨fs₂, -, hlist⟩ := bind_eq_ok.1 hlist
      cases hlist
      obtain ⟨index, hread⟩ := mem_listEntries hents he
      exact Dirent.fields_fit hread

/-- A message is cut to the buffer. -/
lemma inside_portReceiveAgain {p : Ptr} (h : s.portReceiveAgain p buf len = some out) :
    out.Inside buf len := by
  obtain ⟨⟨k, r⟩, hloop, hout⟩ := bind_eq_some_iff.1 h
  obtain rfl := some.inj hout
  cases r with
  | none => exact inside_nil
  | some r =>
    refine inside_single ?_
    obtain ⟨port, -, hloop⟩ := bind_eq_some_iff.1 hloop
    split at hloop
    · obtain ⟨k₁, -, hloop⟩ := bind_eq_some_iff.1 hloop
      obtain ⟨k₂, -, hloop⟩ := bind_eq_some_iff.1 hloop
      cases hloop
    · obtain ⟨⟨k₁, r'⟩, hdeq, hloop⟩ := bind_eq_some_iff.1 hloop
      obtain ⟨k₂, -, hloop⟩ := bind_eq_some_iff.1 hloop
      cases hloop
      obtain ⟨nd, -, hdeq⟩ := bind_eq_some_iff.1 hdeq
      cases hdeq
      refine (length_take_le ..).trans ?_
      split_ifs <;> omega

lemma inside_sysPortReceive {token : ℕ}
    (h : s.sysPortReceive token buf len = some out) : out.Inside buf len := by
  obtain ⟨proc, -, h⟩ := bind_eq_some_iff.1 h
  obtain ⟨pr, -, h⟩ := bind_eq_some_iff.1 h
  obtain ⟨slot, -, h⟩ := bind_eq_some_iff.1 h
  cases slot with
  | none =>
    cases h
    exact inside_nil
  | some slot =>
    obtain ⟨port, -, h⟩ := bind_eq_some_iff.1 h
    cases port with
    | none =>
      cases h
      exact inside_nil
    | some p => exact inside_portReceiveAgain h

/-- Every call stores only to the buffer that it was offered. -/
lemma inside_syscallDispatch {number arg0 arg1 arg2 : ℕ}
    (h : s.syscallDispatch number arg0 arg1 arg2 = some out) :
    out.Inside (outBuffer number arg0 arg1 arg2).1 (outBuffer number arg0 arg1 arg2).2 := by
  unfold Caller.syscallDispatch at h
  split at h
  · exact inside_sysListdir h
  · exact inside_sysRead h
  · exact some.inj h ▸ inside_sysGettime _
  · exact inside_sysListprocs h
  · exact inside_sysPortReceive h
  · exact some.inj h ▸ inside_sysListdrives _
  · cases h

end Inside

/-! ## The working directory -/

/-- A part of a page that `copy_to_user` copies, and the memory that the page was looked up in. -/
structure CopyTurn where
  mm : Mm
  addr : ℕ
  len : ℕ

/-- The turns of `copy_to_user` that copy something. -/
def Mm.copyTurns (m : Mm) (space va buf len : ℕ) : List CopyTurn :=
  if len = 0 then []
  else
    match m.copyChunk writableFlags (fun ram user kernel n => ram.copy user kernel n) space va buf
        len with
    | none => []
    | some m' => ⟨m, va, chunk va len⟩ ::
      copyTurns m' space (va + chunk va len) (buf + chunk va len) (len - chunk va len)
termination_by len
decreasing_by
  have hpos := chunk_pos va ‹len ≠ 0›
  omega

/-- The turns of both copies of `sys_get_cwd`. -/
def Caller.getCwdTurns (s : Caller) (buf bufSize : ℕ) : List CopyTurn :=
  if bufSize = 0 then []
  else
    let toCopy := s.cwdToCopy bufSize
    let (m, ok) := s.mm.copyToUser s.space buf s.cwd toCopy
    s.mm.copyTurns s.space buf s.cwd toCopy ++
      if !ok then []
      else Mm.copyTurns { m with ram := m.ram.write s.nul [0] } s.space (u64 (buf + toCopy)) s.nul 1

/-- Bytes that are behind the addresses of the turns. -/
def Behind (space : ℕ) (turns : List CopyTurn) (y : ℕ) : Prop :=
  ∃ t ∈ turns, t.mm.UserRange space t.addr t.len y

/-- What a list of turns says of a copy from `m` to `m'`: each turn was to a page that the caller
may write, only the bytes behind the turns changed, and a copy that returns 0 made all of them. -/
structure Confined (space va len : ℕ) (turns : List CopyTurn) (m m' : Mm) (ok : Bool) : Prop where
  accessible : ∀ t ∈ turns, ∀ x, Within t.addr t.len x →
    t.mm.Accessible Mm.writableFlags space x
  ram : EqOff (Behind space turns) m.ram m'.ram
  all : ok = true → ∀ x, Within va len x → ∃ t ∈ turns, Within t.addr t.len x

/-- `copy_to_user`, by the recursion of its loop. -/
lemma confined_copyToUser (m : Mm) (space va buf len : ℕ) :
    Confined space va len (m.copyTurns space va buf len) m (m.copyToUser space va buf len).1
      (m.copyToUser space va buf len).2 := by
  induction len using Nat.strong_induction_on generalizing m va buf with
  | _ len ih =>
  rw [Mm.copyTurns, Mm.copyToUser, Mm.userCopy]
  by_cases hlen : len = 0
  · simp only [if_pos hlen]
    refine ⟨by simp, EqOff.refl _, fun _ x hx => ?_⟩
    unfold Within at hx
    omega
  simp only [if_neg hlen]
  by_cases hacc : m.Accessible Mm.writableFlags space va
  · obtain ⟨htop, e, he, hflags⟩ := hacc
    rw [copyChunk_some htop he hflags]
    dsimp only
    have hpos := Mm.chunk_pos va hlen
    have hle := chunk_le va len
    obtain ⟨hrest, hram, hall⟩ := ih (len - Mm.chunk va len) (by omega)
      { m with ram := m.ram.copy (e.1 + m.hhdm + va % pageSize) buf (Mm.chunk va len) }
      (va + Mm.chunk va len) (buf + Mm.chunk va len)
    refine ⟨forall_mem_cons.2 ⟨fun x hx => ?_, hrest⟩, ?_, fun hok x hx => ?_⟩
    · exact (accessible_chunk hx).2 ⟨htop, e, he, hflags⟩
    · refine EqOff.trans ((EqOff.copy m.ram).mono fun y hy => ?_)
        (hram.mono fun y ⟨t, ht, hy⟩ => ⟨t, mem_cons_of_mem _ ht, hy⟩)
      obtain ⟨j, rfl⟩ := Nat.exists_eq_add_of_le hy.1
      have hj : j < Mm.chunk va len := Nat.lt_of_add_lt_add_left hy.2
      exact ⟨_, mem_cons_self, va + j, ⟨Nat.le_add_right va j, Nat.add_lt_add_left hj va⟩,
        userAddr_add he (off_add_chunk_le va len) hj⟩
    · by_cases hfirst : Within va (Mm.chunk va len) x
      · exact ⟨_, mem_cons_self, hfirst⟩
      · obtain ⟨t, ht, hx'⟩ := hall hok x (by
          unfold Within at hx hfirst ⊢
          omega)
        exact ⟨t, mem_cons_of_mem _ ht, hx'⟩
  · rw [copyChunk_none hacc]
    exact ⟨by simp, EqOff.refl _, fun h => nomatch h⟩

end CobjOs
