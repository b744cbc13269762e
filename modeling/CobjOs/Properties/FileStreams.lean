import CobjOs.Fs.FilesRun
import CobjOs.Fs.Transfer
import CobjOs.Properties.ArchiveResolution

/-!
# Reading files of the archive

`tarfs_read` clamps what it copies by comparing `off + len` with the size of the file.  The sum can
wrap, and the number of bytes is returned as an `int`; where neither happens the read is exact.

A descriptor that `sys_open` returned for a file behaves as an ideal stream with a position
(`Stream.run`), for any sequence of seeks and of reads of less than `2 ^ 31` bytes.  The positions
stay below `2 ^ 63`, so the sum does not wrap there.
-/

namespace CobjOs

open Mem Stream Ustar

/-! ## One read -/

/-- The archive stands in memory. -/
def Mem.Holds (mem : Mem) (base : ℕ) (bytes : List UInt8) : Prop :=
  mem.read base bytes.length = bytes

/-- The contents of an entry stand in memory behind its header. -/
lemma Mem.Holds.content {mem : Mem} {base : ℕ} {a : Archive} (h : mem.Holds base a.bytes)
    {x : ℕ × Entry} (hx : x ∈ a.placed) :
    mem.read (base + x.1 + 512) x.2.content.length = x.2.content := by
  obtain ⟨u, hu⟩ := Archive.drop_placed hx
  have hlen := congrArg List.length hu
  rw [List.length_drop, List.length_append] at hlen
  by_cases hempty : x.2.content.length = 0
  · rw [hempty, List.length_eq_zero_iff.1 hempty]
    rfl
  · rw [Nat.add_assoc, read_sub (n := a.bytes.length) (by omega), h, hu, List.take_left]

/-- Memory with the archive at `0x100000` and zeros elsewhere. -/
def archiveMem (bytes : List UInt8) : Mem := Mem.write (fun _ => 0) 0x100000 bytes

lemma holds_archiveMem (bytes : List UInt8) : (archiveMem bytes).Holds 0x100000 bytes :=
  read_write _ _ _

namespace Fs

/-- A call of `sys_seek` or `sys_read` on a descriptor: the bytes delivered and the result. -/
def streamCall (pr : FileProc) (fd : ℤ) (s : Fs × Io) :
    Stream.Op → Except Fault ((Fs × Io) × List UInt8 × ℤ)
  | .seek offset whence => do
    let (fs, r) ← s.1.sysSeek pr fd offset whence
    .ok ((fs, s.2), [], r)
  | .read k => do
    let (fs, io, bytes, r) ← s.1.sysRead s.2 pr fd k
    .ok ((fs, io), bytes, r)

/-- One call after the other. -/
def streamCalls (pr : FileProc) (fd : ℤ) :
    Fs × Io → List Stream.Op → Except Fault ((Fs × Io) × List (List UInt8 × ℤ))
  | s, [] => .ok (s, [])
  | s, op :: ops => do
    let (s, answer) ← streamCall pr fd s op
    let (s, answers) ← streamCalls pr fd s ops
    .ok (s, answer :: answers)

end Fs

/-- The arguments that the calls can have: 64-bit offsets, and sizes below `2 ^ 31`. -/
def Stream.Op.InRange : Stream.Op → Prop
  | .seek offset _ => -2 ^ 63 ≤ offset ∧ offset < 2 ^ 63
  | .read k => k < 2 ^ 31

/-- The descriptor is at a position of a file of the archive. -/
structure Fs.At (a : Archive) (x : ℕ × Entry) (f : Ptr) (pos : ℕ) (fs : Fs) : Prop where
  tar : fs.tar = a.bytes
  file : ∃ n flags, fs.vfs.files f = some { node := n, offset := pos, flags := flags } ∧
    fs.vfs.nodes n = some (tarfsMakeNode (tarHeader x))

section

variable {a : Archive} {x : ℕ × Entry} {f : Ptr} {pos : ℕ} {fs : Fs} {pr : FileProc} {fd : ℤ}

lemma toInt64_eq {n : ℤ} (h : -2 ^ 63 ≤ n) (h' : n < 2 ^ 63) : Fs.toInt64 n = n :=
  Int.bmod_eq_of_le (by omega) (by omega)

/-- A sum of a position and an offset that leaves the range turns negative. -/
lemma toInt64_add {b : ℕ} {offset : ℤ} (hb : b < 2 ^ 63) (ho : -2 ^ 63 ≤ offset)
    (ho' : offset < 2 ^ 63) :
    if 0 ≤ (b : ℤ) + offset ∧ (b : ℤ) + offset < 2 ^ 63 then
      Fs.toInt64 (b + offset) = b + offset
    else Fs.toInt64 (b + offset) < 0 := by
  split_ifs with h
  · exact toInt64_eq (by omega) h.2
  · rw [Fs.toInt64, Int.bmod_def]
    split_ifs <;> omega

/-- The position of the file changed, the descriptor is there. -/
lemma Fs.At.setFile {n : Ptr} (fl : File) (h : fs.tar = a.bytes)
    (hn : fs.vfs.nodes n = some (tarfsMakeNode (tarHeader x))) (hfl : fl.node = n) :
    (fs.setFile f fl).At a x f fl.offset := by
  obtain ⟨node, offset, flags⟩ := fl
  subst hfl
  exact ⟨h, node, flags, by simp, hn⟩

lemma sysSeek_at (h : fs.At a x f pos) (hfd : pr.fileOf fd = some f)
    (hlen : x.2.content.length < 2 ^ 31) (hpos : pos < 2 ^ 63) {offset : ℤ}
    (ho : -2 ^ 63 ≤ offset) (ho' : offset < 2 ^ 63) (whence : ℤ) :
    ∃ fs', fs.sysSeek pr fd offset whence =
        .ok (fs', (step (2 ^ 63) x.2.content pos (.seek offset whence)).2.2) ∧
      fs'.At a x f (step (2 ^ 63) x.2.content pos (.seek offset whence)).1 ∧
      ∀ g, g ≠ f → fs'.vfs.files g = fs.vfs.files g := by
  obtain ⟨n, flags, hfile, hnode⟩ := h.file
  have hsize : (tarfsMakeNode (tarHeader x)).size = x.2.content.length := rfl
  -- the model's choice of the base is the one of the ideal stream
  have hseek : fs.sysSeek pr fd offset whence =
      (base x.2.content pos whence).elim (.ok (fs, -1)) fun b =>
        if Fs.toInt64 (b + offset) < 0 then .ok (fs, -1)
        else .ok (fs.setFile f ⟨n, (Fs.toInt64 (b + offset)).toNat, flags⟩,
          Fs.toInt64 (b + offset)) := by
    have hpos' : Fs.toInt64 pos = pos := toInt64_eq (by omega) (by omega)
    have hsize' : Fs.toInt64 x.2.content.length = x.2.content.length :=
      toInt64_eq (by omega) (by omega)
    rw [Fs.sysSeek, hfd]
    dsimp only
    rw [Fs.file, hfile, base]
    dsimp only [bind, Except.bind]
    split_ifs
    · simp
    · simp [hpos']
    · rw [Fs.node, hnode]
      simp [hsize, hsize']
    · rfl
  rw [hseek, step]
  cases hb : base x.2.content pos whence with
  | none => exact ⟨fs, rfl, h, fun _ _ => rfl⟩
  | some b =>
    have hblt : b < 2 ^ 63 := by
      rw [base] at hb
      split_ifs at hb <;> rw [Option.some.injEq] at hb <;> omega
    have hsum := toInt64_add hblt ho ho'
    dsimp only [Option.elim_some]
    by_cases hin : 0 ≤ (b : ℤ) + offset ∧ (b : ℤ) + offset < 2 ^ 63
    · rw [if_pos hin] at hsum
      have hin' : 0 ≤ (b : ℤ) + offset ∧ (b : ℤ) + offset < ((2 ^ 63 : ℕ) : ℤ) := hin
      rw [hsum, if_neg (by omega), if_pos hin']
      exact ⟨_, rfl, .setFile ⟨n, _, flags⟩ h.tar hnode rfl, fun g hg => by simp [hg]⟩
    · rw [if_neg hin] at hsum
      have hin' : ¬(0 ≤ (b : ℤ) + offset ∧ (b : ℤ) + offset < ((2 ^ 63 : ℕ) : ℤ)) := hin
      rw [if_pos hsum, if_neg hin']
      exact ⟨fs, rfl, h, fun _ _ => rfl⟩

lemma sysRead_at (h : fs.At a x f pos) (hx : x ∈ a.placed) (hfd : pr.fileOf fd = some f)
    (hlen : x.2.content.length < 2 ^ 31) (hpos : pos < 2 ^ 63) {k : ℕ} (hk : k < 2 ^ 31) (io : Io) :
    ∃ fs', fs.sysRead io pr fd k =
        .ok (fs', io, (step (2 ^ 63) x.2.content pos (.read k)).2) ∧
      fs'.At a x f (step (2 ^ 63) x.2.content pos (.read k)).1 ∧
      ∀ g, g ≠ f → fs'.vfs.files g = fs.vfs.files g := by
  obtain ⟨n, flags, hfile, hnode⟩ := h.file
  have hbytes : tarfsRead fs.tar (tarfsMakeNode (tarHeader x)) k pos =
      piece x.2.content pos k := by
    rw [h.tar, tarfsRead_placed hx (by omega)]
  have hplen : (piece x.2.content pos k).length ≤ x.2.content.length - pos := by
    rw [length_piece]
    exact Nat.min_le_right _ _
  have hint : toInt32 (piece x.2.content pos k).length = (piece x.2.content pos k).length :=
    Int.bmod_eq_of_le (by omega) (by omega)
  have hread : fs.sysRead io pr fd k = .ok (fs.advance f ⟨n, pos, flags⟩
      ((piece x.2.content pos k).length : ℤ), io, piece x.2.content pos k,
      ((piece x.2.content pos k).length : ℤ)) := by
    have hops : (tarfsMakeNode (tarHeader x)).ops = .tarfs := rfl
    rw [Fs.sysRead, hfd]
    dsimp only
    rw [Fs.file, hfile]
    dsimp only [bind, Except.bind]
    rw [Fs.node, hnode]
    dsimp only
    rw [FsNode.read, hops]
    dsimp only
    rw [hbytes, hint]
  rw [hread, step]
  refine ⟨_, rfl, ?_, fun g hg => ?_⟩
  · dsimp only
    rw [Fs.advance]
    split_ifs with hzero
    · have hwrap : u64 (pos + (piece x.2.content pos k).length) =
          pos + (piece x.2.content pos k).length := Nat.mod_eq_of_lt (by omega)
      rw [Int.toNat_natCast]
      dsimp only
      rw [hwrap]
      exact .setFile ⟨n, _, flags⟩ h.tar hnode rfl
    · have hnil : (piece x.2.content pos k).length = 0 := by omega
      rw [hnil]
      exact h
  · rw [Fs.advance]
    split_ifs
    · simp [hg]
    · rfl

lemma streamCall_at (h : fs.At a x f pos) (hx : x ∈ a.placed) (hfd : pr.fileOf fd = some f)
    (hlen : x.2.content.length < 2 ^ 31) (hpos : pos < 2 ^ 63) {op : Stream.Op} (hop : op.InRange)
    (io : Io) :
    ∃ fs', Fs.streamCall pr fd (fs, io) op =
        .ok ((fs', io), (step (2 ^ 63) x.2.content pos op).2) ∧
      fs'.At a x f (step (2 ^ 63) x.2.content pos op).1 ∧
      ∀ g, g ≠ f → fs'.vfs.files g = fs.vfs.files g := by
  cases op with
  | seek offset whence =>
    obtain ⟨fs', hseek, hrest⟩ := sysSeek_at h hfd hlen hpos hop.1 hop.2 whence
    refine ⟨fs', ?_, hrest⟩
    have hnil : (step (2 ^ 63) x.2.content pos (.seek offset whence)).2.1 = [] := by
      rw [step]
      cases base x.2.content pos whence with
      | none => rfl
      | some b =>
        dsimp only
        split_ifs <;> rfl
    rw [Fs.streamCall, hseek]
    exact congrArg Except.ok (Prod.ext rfl (Prod.ext hnil.symm rfl))
  | read k =>
    obtain ⟨fs', hread, hrest⟩ := sysRead_at h hx hfd hlen hpos hop io
    refine ⟨fs', ?_, hrest⟩
    rw [Fs.streamCall, hread]
    rfl

lemma streamCalls_at (hx : x ∈ a.placed) (hfd : pr.fileOf fd = some f)
    (hlen : x.2.content.length < 2 ^ 31) (io : Io) : ∀ (ops : List Stream.Op) {pos : ℕ} {fs : Fs},
    fs.At a x f pos → pos < 2 ^ 63 → (∀ op ∈ ops, op.InRange) →
    ∃ fs', Fs.streamCalls pr fd (fs, io) ops =
        .ok ((fs', io), (run (2 ^ 63) x.2.content pos ops).2) ∧
      fs'.At a x f (run (2 ^ 63) x.2.content pos ops).1 ∧
      ∀ g, g ≠ f → fs'.vfs.files g = fs.vfs.files g
  | [], _, fs, h, _, _ => ⟨fs, rfl, h, fun _ _ => rfl⟩
  | op :: ops, pos, fs, h, hpos, hops => by
      obtain ⟨fs₁, hcall, hat₁, hsame₁⟩ := streamCall_at h hx hfd hlen hpos (hops op (by simp)) io
      obtain ⟨fs₂, hcalls, hat₂, hsame₂⟩ := streamCalls_at hx hfd hlen io ops hat₁
        (step_lt hpos (by omega) op) fun op hop => hops op (by simp [hop])
      refine ⟨fs₂, ?_, hat₂, fun g hg => (hsame₂ g hg).trans (hsame₁ g hg)⟩
      rw [Fs.streamCalls, hcall]
      dsimp only [bind, Except.bind]
      rw [hcalls]
      rfl

/-- A successful `sys_open`: the new file is at position 0 of the node that the path leads to. -/
lemma sysOpen_inv (hw : fs.Wf) {path : CStr} {fs' : Fs} {pr' : FileProc}
    (h : fs.sysOpen pr path = .ok (fs', pr', fd)) (hfd : 0 ≤ fd) :
    ∃ f n, fs.vfs.files f = none ∧ pr'.fileOf fd = some f ∧ fs'.tar = fs.tar ∧
      fs'.vfs.files = Function.update fs.vfs.files f (some ⟨n, 0, 1⟩) := by
  obtain ⟨fs₁, res, hres, hr⟩ := Fs.vfsResolve_resolved hw path
  have hk := hr.keeps
  rw [Fs.sysOpen] at h
  cases hfree : Fs.freeFd pr with
  | none =>
    rw [hfree] at h
    obtain ⟨-, hneg⟩ := Prod.mk.inj (Prod.mk.inj (Except.ok.inj h)).2
    omega
  | some i =>
    rw [hfree] at h
    dsimp only [bind, Except.bind] at h
    rw [hres] at h
    cases res with
    | none =>
      obtain ⟨-, hneg⟩ := Prod.mk.inj (Prod.mk.inj (Except.ok.inj h)).2
      omega
    | some n =>
      obtain ⟨hfs, hrest⟩ := Prod.mk.inj (Except.ok.inj h)
      obtain ⟨hpr, rfl⟩ := Prod.mk.inj hrest
      subst hfs hpr
      have hi : i < maxFds := by
        have hmem := List.mem_of_find?_eq_some hfree
        rw [List.mem_range'_1] at hmem
        have hle : fdReserved ≤ maxFds := by decide
        omega
      refine ⟨fs₁.brk, n, hw.file_fresh _ hk.brk, ?_, hk.tar, ?_⟩
      · have hcond : ¬((i : ℤ) < 0 ∨ (maxFds : ℤ) ≤ i) := by omega
        rw [FileProc.fileOf, if_neg hcond]
        simp [Fs.allocFile]
      · rw [← hk.files]
        rfl

/-- Let `sys_open` return a descriptor for a file of the archive with less than `2 ^ 31` bytes.
Any sequence of seeks and of reads of less than `2 ^ 31` bytes on it gives the answers of the ideal
stream, and the position is the ideal one; the file behind every descriptor that any process had
before keeps its position.  Reads that ask for something deliver the contents one after the
other, and then nothing. -/
theorem descriptors_are_streams (a : Archive) (x : ℕ × Entry) (hx : x ∈ a.placed)
    (hlen : x.2.content.length < 2 ^ 31) (fs : Fs) (hw : fs.Wf) (htar : fs.tar = a.bytes)
    (pr : FileProc) (path : CStr) (fs' : Fs) (pr' : FileProc) (fd : ℤ)
    (hopen : fs.sysOpen pr path = .ok (fs', pr', fd)) (hfd : 0 ≤ fd)
    (hentry : ∀ f fl, pr'.fileOf fd = some f → fs'.vfs.files f = some fl →
      fs'.vfs.nodes fl.node = some (tarfsMakeNode (tarHeader x))) (io : Io) :
    (∀ ops, (∀ op ∈ ops, op.InRange) →
      ∃ fs'', Fs.streamCalls pr' fd (fs', io) ops =
          .ok ((fs'', io), (run (2 ^ 63) x.2.content 0 ops).2) ∧
        (∃ f fl, pr'.fileOf fd = some f ∧ fs''.vfs.files f = some fl ∧
          fl.offset = (run (2 ^ 63) x.2.content 0 ops).1) ∧
        ∀ other j g, fs.TableOk other → other.fileOf j = some g →
          fs''.vfs.files g = fs.vfs.files g) ∧
    ∀ (ks : List ℕ) (k : ℕ), (∀ k' ∈ ks, 0 < k' ∧ k' < 2 ^ 31) → k < 2 ^ 31 →
      x.2.content.length ≤ ks.length →
      ∃ s answers, Fs.streamCalls pr' fd (fs', io) (ks.map .read ++ [.read k]) =
          .ok (s, answers ++ [([], 0)]) ∧ answers.flatMap Prod.fst = x.2.content := by
  obtain ⟨f, n, hnew, hf, htar', hfiles⟩ := sysOpen_inv hw hopen hfd
  have hfile : fs'.vfs.files f = some ⟨n, 0, 1⟩ := by rw [hfiles, Function.update_self]
  have hat : fs'.At a x f 0 :=
    ⟨htar'.trans htar, n, 1, hfile, hentry f _ hf hfile⟩
  constructor
  · intro ops hops
    obtain ⟨fs'', hcalls, hat'', hsame⟩ := streamCalls_at hx hf hlen io ops hat (by decide) hops
    obtain ⟨n'', flags, hfile'', -⟩ := hat''.file
    refine ⟨fs'', hcalls, ⟨f, _, hf, hfile'', rfl⟩, fun other j g hother hg => ?_⟩
    have hne : g ≠ f := by
      rintro rfl
      obtain ⟨-, fl, hfl⟩ := Fs.file_of_fileOf hother hg
      rw [hnew] at hfl
      simp at hfl
    rw [hsame g hne, hfiles, Function.update_of_ne hne]
  · intro ks k hks hk hle
    obtain ⟨hall, hrun⟩ := @run_reads_all _ x.2.content (2 ^ 63) ks (fun k' h => (hks k' h).1) hle k
    have hops : ∀ op ∈ ks.map Stream.Op.read ++ [.read k], op.InRange := by
      intro op hop
      rcases List.mem_append.1 hop with hop | hop
      · obtain ⟨k', hk', rfl⟩ := List.mem_map.1 hop
        exact (hks k' hk').2
      · rw [List.mem_singleton.1 hop]
        exact hk
    obtain ⟨fs'', hcalls, -, -⟩ := streamCalls_at hx hf hlen io _ hat (by decide) hops
    rw [hrun] at hcalls
    exact ⟨_, _, hcalls, hall⟩

end

/-- A process without open files on a machine with `etc/motd` opens it, reads two bytes, seeks to
the last one and reads on beyond the end. -/
theorem descriptors_are_streams_motd :
    ∃ fs' pr' s, (Fs.empty motdArchive.bytes).tarfsInit.sysOpen ⟨fun _ => none, [], false⟩
        (cstr "0:/etc/motd") = .ok (fs', pr', 2) ∧
      Fs.streamCalls pr' 2 (fs', ⟨fun _ => 0, [], [], []⟩)
          [.read 2, .seek (-1) 2, .read 7, .read 7, .seek (-6) 1] =
        .ok (s, [(cstr "he", 2), ([], 4), (cstr "o", 1), ([], 0), ([], -1)]) := by
  have hopens : (((Fs.empty motdArchive.bytes).tarfsInit.sysOpen ⟨fun _ => none, [], false⟩
      (cstr "0:/etc/motd")).toOption.any fun r => decide (r.2.2 = 2 ∧
        ((r.2.1.fileOf 2).bind r.1.vfs.files).bind (fun fl => r.1.vfs.nodes fl.node) =
          some (tarfsMakeNode (tarHeader (512, motdEntry))))) = true := by decide +kernel
  cases hopen : (Fs.empty motdArchive.bytes).tarfsInit.sysOpen ⟨fun _ => none, [], false⟩
      (cstr "0:/etc/motd") with
  | error e =>
    rw [hopen] at hopens
    simp [Except.toOption] at hopens
  | ok r =>
    obtain ⟨fs', pr', fd⟩ := r
    rw [hopen] at hopens
    simp only [Except.toOption, Option.any_some, decide_eq_true_eq] at hopens
    obtain ⟨rfl, hnode⟩ := hopens
    obtain ⟨hcalls, -⟩ := descriptors_are_streams motdArchive (512, motdEntry) motdEntry_placed
      (by decide) _ (Fs.tarfsInit_wf _) rfl _ _ fs' pr' 2 hopen (by decide)
      (fun f fl hf hfl => by
        rw [hf, Option.bind_some, hfl, Option.bind_some] at hnode
        exact hnode) ⟨fun _ => 0, [], [], []⟩
    obtain ⟨fs'', hrun, -⟩ := hcalls [.read 2, .seek (-1) 2, .read 7, .read 7, .seek (-6) 1]
      (by simp [Stream.Op.InRange])
    exact ⟨fs', pr', _, rfl, hrun⟩

end CobjOs
