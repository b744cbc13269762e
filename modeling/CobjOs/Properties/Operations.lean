import CobjOs.Properties.NodeLifetime

/-!
# Operations that a node does not have

The tables of the devices and file systems leave out the operations that make no sense for them.
`vfs_resolve` and `sys_listdir` test for that, by the type of the node or by the pointer; `sys_read`,
`sys_write` and `sys_spawn` call `read` and `write` without a test.  They return wherever the node is
of a kind that has the operation: the root of the devices and `stdout` cannot be read, and the files
of the archive, the root of the devices and `stdin` cannot be written.
-/

namespace CobjOs

namespace Fs

variable {t d : Ptr} {fs : Fs} {pr : FileProc} {fd : ℤ} {E : Fault → Prop}

/-- What the node of a descriptor is, if the descriptor is open. -/
def KindAt (fs : Fs) (pr : FileProc) (fd : ℤ) (P : FsOps → Prop) : Prop :=
  ∀ f fl nd, pr.fileOf fd = some f → fs.vfs.files f = some fl → fs.vfs.nodes fl.node = some nd →
    P nd.ops

/-- The tables with `read`. -/
def Readable (ops : FsOps) : Prop := ops ≠ .stdout ∧ ops ≠ .devfsRoot

/-- The tables with `write`. -/
def Writable (ops : FsOps) : Prop := ops ≠ .tarfs ∧ ops ≠ .devfsRoot ∧ ops ≠ .stdin

lemma Readable.hasRead {ops : FsOps} (h : Readable ops) : ops.hasRead = true := by
  obtain ⟨hout, hroot⟩ := h
  cases ops <;> simp_all [FsOps.hasRead]

/-- The file and the node of an open descriptor. -/
lemma Inv.descriptor (h : Inv t d 0 fs) (ht : fs.TableOk pr) {f : Ptr} (hf : pr.fileOf fd = some f) :
    ∃ fl nd, fs.vfs.files f = some fl ∧ fs.vfs.nodes fl.node = some nd := by
  obtain ⟨-, fl, hfl⟩ := file_of_fileOf ht hf
  obtain ⟨nd, hnd, -⟩ := h.held f fl hfl
  exact ⟨fl, nd, hfl, hnd⟩

lemma sysRead_returns (h : Inv t d 0 fs) (ht : fs.TableOk pr) (hkind : fs.KindAt pr fd Readable)
    (io : Io) (k : ℕ) : ∃ r, fs.sysRead io pr fd k = .ok r := by
  cases hf : pr.fileOf fd with
  | none => exact ⟨_, by rw [sysRead, hf]⟩
  | some f =>
    obtain ⟨fl, nd, hfl, hnd⟩ := h.descriptor ht hf
    have hread : Ends (fun _ => False) (fun _ => True) (nd.read fs.tar io k fl.offset) :=
      ends_read (.inl (hkind f fl nd hf hfl hnd).hasRead)
    cases hr : nd.read fs.tar io k fl.offset with
    | error e => exact (hr ▸ hread).elim
    | ok r => exact ⟨_, by simp [sysRead, hf, file, hfl, node, hnd, hr, bind, Except.bind]; rfl⟩

lemma sysWrite_returns (h : Inv t d 0 fs) (ht : fs.TableOk pr) (hkind : fs.KindAt pr fd Writable)
    (io : Io) (buf : List UInt8) : ∃ r, fs.sysWrite io pr fd buf = .ok r := by
  cases hf : pr.fileOf fd with
  | none => exact ⟨_, by rw [sysWrite, hf]⟩
  | some f =>
    obtain ⟨fl, nd, hfl, hnd⟩ := h.descriptor ht hf
    obtain ⟨htar, hroot, hin⟩ := hkind f fl nd hf hfl hnd
    obtain ⟨r, hr⟩ : ∃ r, nd.write io buf fl.offset = .ok r := by
      cases hops : nd.ops <;> simp_all [FsNode.write]
    exact ⟨_, by simp [sysWrite, hf, file, hfl, node, hnd, hr, bind, Except.bind]; rfl⟩

lemma sysListdir_returns (h : Inv t d 0 fs) (hb : 2 + fs.handlesOn t < 2 ^ 32) (path : CStr)
    (max : ℤ) : ∃ fs' ents ret, fs.sysListdir path max = .ok (fs', ents, ret) ∧
      fs'.vfs.files = fs.vfs.files ∧
      ((∀ nd, fs.Leads path nd → nd.ops.hasReaddir = false) → ents = [] ∧ ret = -1) := by
  obtain ⟨fs₁, res, hres, hr, -, hsome⟩ := @Inv.vfsResolve t d 0 fs h path fun _ => by omega
  have hfiles := hr.keeps.files
  cases res with
  | none =>
    exact ⟨fs₁, [], -1, by simp [sysListdir, hres, bind, Except.bind], hfiles, fun _ => ⟨rfl, rfl⟩⟩
  | some n =>
    obtain ⟨nd, hnd, hnode, hok⟩ := (hsome n rfl).node_eq
    obtain ⟨fs₂, hrel, hk, -⟩ := (hsome n rfl).release
    by_cases hdir : nd.type = .dir
    · have hreaddir := (hok.hasLookup hdir).2
      obtain ⟨rc, hleads⟩ := hr.leads hnd
      have hents : Ends (fun _ => False) (fun _ => True) (fs₁.listEntries nd max.toNat 0) :=
        ends_listEntries hreaddir _ _
      cases he : fs₁.listEntries nd max.toNat 0 with
      | error e => exact (he ▸ hents).elim
      | ok ents =>
        refine ⟨fs₂, ents, ents.length, ?_, hk.files.trans hfiles, fun hno => ?_⟩
        · simp [sysListdir, hres, hnode, hdir, he, hrel, bind, Except.bind]
        · exact absurd hreaddir (by simpa using hno _ hleads)
    · refine ⟨fs₂, [], -1, ?_, hk.files.trans hfiles, fun _ => ⟨rfl, rfl⟩⟩
      simp [sysListdir, hres, hnode, hdir, hrel, bind, Except.bind]

end Fs

namespace Files

/-- In every state that is reached while fewer than `2 ^ 32 - 2` handles are outstanding, the calls
of a process return, so they call only operations that the node has: a read of a descriptor that is
not on `stdout` or the root of the devices, a write to one that is not on the archive, that root or
`stdin`, a listing, and a spawn of a path that does not lead to `stdout` or that root.  A listing of
a node without `readdir` returns `-1`, and no listing changes an offset. -/
theorem calls_use_operations_that_exist (tar : List UInt8) (io : Io) (font accepted : Bool)
    (w₀ : Files) (hboot : kidle tar io font accepted = .ok w₀) (ops : List Op) (w : Files)
    (hrun : Run next (fun w _ => w.fs.handles < 2 ^ 32 - 2) w₀ ops w)
    (hb : w.fs.handles < 2 ^ 32 - 2) (p : Ptr) (pr : FileProc) (hp : w.procs p = some pr) :
    (∀ io fd k, w.fs.KindAt pr fd Fs.Readable → ∃ r, w.fs.sysRead io pr fd k = .ok r) ∧
      (∀ io fd buf, w.fs.KindAt pr fd Fs.Writable → ∃ r, w.fs.sysWrite io pr fd buf = .ok r) ∧
      (∀ path max, ∃ fs' ents ret, w.fs.sysListdir path max = .ok (fs', ents, ret) ∧
        fs'.vfs.files = w.fs.vfs.files ∧
        ((∀ nd, w.fs.Leads path nd → nd.ops.hasReaddir = false) → ents = [] ∧ ret = -1)) ∧
      ∀ path accepted, (∀ nd, w.fs.Leads path nd → Fs.Readable nd.ops) →
        ∃ r, w.sysSpawn pr.cwd path accepted = .ok r := by
  obtain ⟨d, hinv⟩ := inv_of_run hboot hrun
  have hb' := Inv.bound hb 0
  have htable := hinv.table p pr hp
  refine ⟨fun io fd k hkind => Fs.sysRead_returns hinv.fs htable hkind io k,
    fun io fd buf hkind => Fs.sysWrite_returns hinv.fs htable hkind io buf,
    fun path max => Fs.sysListdir_returns hinv.fs hb' path max, fun path accepted hkind => ?_⟩
  have hspawn := ends_sysSpawn (E := fun _ => False) hinv hb' (hinv.cwd p pr hp) path accepted
    fun nd hnd => .inl (hkind nd hnd).hasRead
  cases hr : w.sysSpawn pr.cwd path accepted with
  | error e => exact (hr ▸ hspawn).elim
  | ok r => exact ⟨r, rfl⟩

/-- `init` reads from `stdin`. -/
theorem calls_use_operations_that_exist_stdin :
    ∃ w₀ pr r, kidle bootTar quietIo true true = .ok w₀ ∧ w₀.procs 6 = some pr ∧
      w₀.fs.sysRead quietIo pr 0 4 = .ok r := by
  have heval : ((kidle bootTar quietIo true true).toOption.any fun w₀ =>
      decide (w₀.fs.handles < 2 ^ 32 - 2) && (w₀.procs 6).any fun pr =>
        (((pr.fileOf 0).bind w₀.fs.vfs.files).bind fun fl => w₀.fs.vfs.nodes fl.node).any fun nd =>
          nd.ops = .stdin) = true := by decide +kernel
  obtain ⟨w₀, hboot, heval⟩ := exists_ok_of_any heval
  obtain ⟨hb, heval⟩ := Bool.and_eq_true_iff.1 heval
  obtain ⟨pr, hpr, heval⟩ := (Option.any_eq_true _ _).1 heval
  obtain ⟨hread, -⟩ := calls_use_operations_that_exist bootTar quietIo true true w₀ hboot [] w₀ .nil
    (of_decide_eq_true hb) 6 pr hpr
  obtain ⟨r, hr⟩ := hread quietIo 0 4 fun f fl nd hf hfl hnd => by
    rw [hf, Option.bind_some, hfl, Option.bind_some, hnd] at heval
    have hops : nd.ops = .stdin := of_decide_eq_true heval
    exact ⟨by simp [hops], by simp [hops]⟩
  exact ⟨w₀, pr, r, hboot, hpr, hr⟩

/-- After the start, `init` writes to descriptor 0, reads from descriptor 1 and spawns `1:/stdout`:
each calls an operation that is not there. -/
theorem missing_operations_are_called :
    ∃ w₀ pr, kidle bootTar quietIo true true = .ok w₀ ∧ w₀.procs 6 = some pr ∧
      w₀.fs.sysWrite quietIo pr 0 [104, 105] = .error .nullCall ∧
      w₀.fs.sysRead quietIo pr 1 2 = .error .nullCall ∧
      w₀.sysSpawn pr.cwd (cstr "1:/stdout") true = .error .nullCall := by
  have heval : ((kidle bootTar quietIo true true).toOption.any fun w₀ => (w₀.procs 6).any fun pr =>
      (match w₀.fs.sysWrite quietIo pr 0 [104, 105] with | .error .nullCall => true | _ => false) &&
      (match w₀.fs.sysRead quietIo pr 1 2 with | .error .nullCall => true | _ => false) &&
      (match w₀.sysSpawn pr.cwd (cstr "1:/stdout") true with
        | .error .nullCall => true
        | _ => false)) = true := by decide +kernel
  obtain ⟨w₀, hboot, heval⟩ := exists_ok_of_any heval
  obtain ⟨pr, hpr, heval⟩ := (Option.any_eq_true _ _).1 heval
  simp only [Bool.and_eq_true] at heval
  obtain ⟨⟨hwrite, hread⟩, hspawn⟩ := heval
  refine ⟨w₀, pr, hboot, hpr, ?_, ?_, ?_⟩
  · split at hwrite
    · assumption
    · cases hwrite
  · split at hread
    · assumption
    · cases hread
  · split at hspawn
    · assumption
    · cases hspawn

end Files

end CobjOs
