import CobjOs.Framework.Transition
import CobjOs.Fs.FilesRun
import CobjOs.Properties.ArchiveResolution

/-!
# Nodes are not used after they are freed

Any number of processes open, close and list files, change their directory, start programs, end
and are killed.  While fewer than `2 ^ 32 - 2` handles are outstanding, no freed node or file is
followed, the roots of the drives stay, and the `refcount` of the archive's root is one more than
the handles on it.

The `refcount` is a `uint32_t`.  With `2 ^ 32 - 2` handles on the root, one more reference for the
length of a `sys_listdir` wraps it to 0, and the release at the end of the call frees the root.
-/

namespace CobjOs

open Option Ustar

namespace Files

lemma inv_of_run {tar : List UInt8} {io : Io} {font accepted : Bool} {w₀ w : Files} {ops : List Op}
    (hboot : kidle tar io font accepted = .ok w₀)
    (hrun : Run next (fun w _ => w.fs.handles < 2 ^ 32 - 2) w₀ ops w) : ∃ d, Inv 0 d w := by
  obtain ⟨d, hstart⟩ := inv_of_kidle hboot
  exact ⟨d, hrun.invariant hstart fun w op w' hw hb hstep => (ends_step hw hb op).toOption hstep⟩

/-- In every state that is reached, the roots are allocated, the archive's root is counted right,
and no next operation follows a freed node or file. -/
theorem nodes_outlive_their_handles (tar : List UInt8) (io : Io) (font accepted : Bool) (w₀ : Files)
    (hboot : kidle tar io font accepted = .ok w₀) (ops : List Op) (w : Files)
    (hrun : Run next (fun w _ => w.fs.handles < 2 ^ 32 - 2) w₀ ops w) :
    (∀ num r, w.fs.driveRoot num = some r → (w.fs.vfs.nodes r).isSome) ∧
      (∃ t nd, w.fs.driveRoot 0 = some t ∧ w.fs.vfs.nodes t = some nd ∧
        nd.refcount = 1 + w.fs.handlesOn t) ∧
      (w.fs.handles < 2 ^ 32 - 2 → ∀ op, w.step op ≠ .error .dangling) := by
  obtain ⟨d, hinv⟩ := inv_of_run hboot hrun
  refine ⟨fun num r hr => ?_, ⟨0, _, hinv.fs.archive, hinv.fs.tarRoot, rfl⟩, fun hb op => ?_⟩
  · obtain ⟨nd, hnd, -⟩ := hinv.fs.root_dir num r hr
    exact hnd ▸ rfl
  · exact (ends_step hinv hb op).ne_error fun h => h rfl

/-! ### A machine that starts -/

/-- A program without segments. -/
def initImage : List UInt8 :=
  [0x7f, 0x45, 0x4c, 0x46, 2, 1, 1, 0] ++ List.replicate 8 0 ++ [2, 0, 0x3e, 0, 1, 0, 0, 0] ++
    [0, 0, 0x40, 0, 0, 0, 0, 0] ++ [0x40, 0, 0, 0, 0, 0, 0, 0] ++ List.replicate 12 0 ++
    [0x40, 0, 0x38, 0, 0, 0, 0, 0, 0, 0, 0, 0]

/-- An archive with the font and `init`. -/
def bootTar : List UInt8 :=
  etcEntry.bytes ++
    (Entry.plain [cstr "etc", cstr "Lat2-Terminus16.psf"] false [0x36, 0x04, 0, 16] (by decide)
      (by decide) (by decide)).bytes ++
    (Entry.plain [cstr "init"] true [] (by decide) (by decide) etcEntry.dir_content).bytes ++
    (Entry.plain [cstr "init", cstr "init"] false initImage (by decide) (by decide)
      (by decide)).bytes ++ List.replicate 1024 0

/-- No input, and nothing on the screen. -/
def quietIo : Io := ⟨fun _ => 0, [], [], []⟩

/-- The root is opened twice and closed once. -/
theorem nodes_outlive_their_handles_root : ∃ w₀ ops w, kidle bootTar quietIo true true = .ok w₀ ∧
    Run next (fun w _ => w.fs.handles < 2 ^ 32 - 2) w₀ ops w ∧ w.fs.handlesOn 0 = 1 ∧
      ∃ t nd, w.fs.driveRoot 0 = some t ∧ w.fs.vfs.nodes t = some nd ∧
        nd.refcount = 1 + w.fs.handlesOn t := by
  let ops : List Op := [.open 6 (cstr "0:/"), .open 6 (cstr "0:/"), .close 6 2]
  let okb : Files → Op → Bool := fun w _ => w.fs.handles < 2 ^ 32 - 2
  obtain ⟨w₀, hboot, heval⟩ : ∃ w₀, kidle bootTar quietIo true true = .ok w₀ ∧
      ((exec next w₀ ops).any (fun w => w.fs.handlesOn 0 = 1) && execOk next okb w₀ ops) = true :=
    exists_ok_of_any (by decide +kernel)
  rw [Bool.and_eq_true] at heval
  obtain ⟨w, hrun, hone⟩ : ∃ w, Run next (fun w _ => w.fs.handles < 2 ^ 32 - 2) w₀ ops w ∧
      decide (w.fs.handlesOn 0 = 1) = true :=
    Run.exists_of_exec okb (fun _ _ h => of_decide_eq_true h) _ heval.1 heval.2
  exact ⟨w₀, ops, w, hboot, hrun, of_decide_eq_true hone,
    (nodes_outlive_their_handles bootTar quietIo true true w₀ hboot ops w hrun).2.1⟩

/-! ### The count wraps -/

end Files

namespace Fs

variable {t d : Ptr} {fs : Fs} {path : CStr} {nd : FsNode}

/-- A path that leads to something is resolved to it. -/
lemma Inv.resolve_of_leads (h : Inv t d 0 fs) (hb : 2 + fs.handlesOn t < 2 ^ 32)
    (hl : fs.Leads path nd) : ∃ fs' n nd', fs.vfsResolve path = .ok (fs', some n) ∧
      fs.Resolved path fs' (some n) ∧ Grabbed t d 0 n fs' ∧ fs'.vfs.nodes n = some nd' ∧
      nd'.ops = nd.ops ∧ nd'.size = nd.size := by
  obtain ⟨fs', res, hres, hr, -, hsome⟩ := @Inv.vfsResolve t d 0 fs h path fun _ => by omega
  cases res with
  | none => exact absurd hl hr.not_leads
  | some n =>
    obtain ⟨nd', hnd', -⟩ := (hsome n rfl).node_eq
    obtain ⟨rc, hl'⟩ := hr.leads hnd'
    obtain rfl := hl.unique hl'
    exact ⟨fs', n, nd', hres, hr, hsome n rfl, hnd', rfl, rfl⟩

lemma Inv.loadProgram_eq (h : Inv t d 0 fs) (hb : 2 + fs.handlesOn t < 2 ^ 32) (io : Io)
    (hl : fs.Leads path nd) (hops : nd.ops = .tarfs) (hsize : nd.size < 2 ^ 31) :
    ∃ fs' elf, fs.loadProgram io path = .ok (fs', io, some elf) ∧ Inv t d 0 fs' ∧ fs.Keeps fs' := by
  obtain ⟨fs₁, n, nd', hres, hr, hg, hnd', hops', hsize'⟩ := h.resolve_of_leads hb hl
  obtain ⟨fs₂, hrel, hk, hinv, -⟩ := hg.release
  have hlen : (tarfsRead fs₁.tar nd' nd'.size 0).length = nd'.size := by
    rw [tarfsRead]
    split_ifs with h0 hw
    · exact (Nat.le_zero.1 h0).symm
    · simp
    · simp
  have hint : toInt32 nd'.size = nd'.size := Int.bmod_eq_of_le (by omega) (by omega)
  have hnode : fs₁.node n = .ok nd' := by rw [node, hnd']
  have hread : nd'.read fs₁.tar io nd'.size 0 =
      .ok (io, tarfsRead fs₁.tar nd' nd'.size 0, (nd'.size : ℤ)) := by
    rw [FsNode.read, hops', hops]
    dsimp only
    rw [hlen, hint]
  refine ⟨fs₂, tarfsRead fs₁.tar nd' nd'.size 0, ?_, hinv, hr.keeps.trans hk⟩
  simp only [loadProgram, hres, hnode, hread, hrel, bind, Except.bind, ne_eq, not_true_eq_false,
    if_false]

lemma Inv.stdFd_eq (h : Inv t d 0 fs) (hb : 2 + fs.handlesOn t < 2 ^ 32) (hl : fs.Leads path nd)
    (hne : ∀ root, fs.dest path ≠ some (root, [])) (pr : FileProc) (i flags : ℕ) :
    ∃ fs' f fl, fs.stdFd pr i path flags = .ok (fs', pr.setFd i (some f)) ∧ Inv t d 0 fs' ∧
      fs.Static fs' ∧ fs.brk ≤ fs'.brk ∧ fs'.vfs.files = Function.update fs.vfs.files f (some fl) ∧
      fs.vfs.files f = none ∧ fl.node ≠ t ∧ fs'.handlesOn t = fs.handlesOn t ∧
      fs'.handles = fs.handles + 1 := by
  obtain ⟨fs₁, n, nd', hres, hr, hg, hnd', -⟩ := h.resolve_of_leads hb hl
  have hnt : n ≠ t := by
    rintro rfl
    cases hr with
    | root hdest => exact hne _ hdest
    | walked _ _ _ _ hw =>
      cases hw with
      | found _ _ hfresh => cases hfresh.symm.trans h.tarRoot
  have hfresh := hg.inv.file_fresh
  refine ⟨(fs₁.allocFile ⟨n, 0, flags⟩).1, fs₁.brk, ⟨n, 0, flags⟩, ?_, hg.allocFile rfl,
    ⟨hr.keeps.drives, hr.keeps.tar, hr.keeps.devfsEntries⟩, hr.keeps.brk.trans (Nat.le_succ _), ?_,
    h.file_fresh_of_keeps hr.keeps, hnt, ?_, ?_⟩
  · simp only [stdFd, hres, bind, Except.bind]
    rfl
  · rw [← hr.keeps.files]
    rfl
  · rw [handlesOn, fileCount_allocFile hfresh, fileCount_keeps h.file_fresh hr.keeps]
    simp [hnt, handlesOn]
  · rw [handles, fileCount_allocFile hfresh, fileCount_keeps h.file_fresh hr.keeps]
    rfl

lemma Inv.vfsResolve_archive (h : Inv t d 0 fs) : fs.vfsResolve (cstr "0:/") =
    .ok (fs.setNode t { rootNode .tarfs with
      refcount := (1 + 0 + fs.handlesOn t + 1) % 2 ^ 32 }, some t) := by
  have hparse : parsePath (cstr "0:/") = some (0, cstr "/") ∧ components (cstr "/") = [] := by
    decide
  simp [Fs.vfsResolve, hparse, h.archive, walk, node, h.tarRoot, bind, Except.bind]

/-- A node of the archive that nothing is counted on is freed. -/
lemma release_uncounted {n : Ptr} (hn : fs.vfs.nodes n = some nd) (hops : nd.ops = .tarfs)
    (hrc : nd.refcount = 0) : ∃ fs', fs.release n = .ok fs' ∧ fs.Keeps fs' ∧
      fs'.vfs.nodes n = none := by
  refine ⟨{ fs with vfs := { fs.vfs with nodes := Function.update fs.vfs.nodes n none } }, ?_,
    ⟨rfl, rfl, rfl, rfl, rfl, le_rfl⟩, by simp⟩
  simp [Fs.release, node, hn, hops, hrc, FsOps.hasRelease, Vfs.release, Vfs.dropNode, bind,
    Except.bind]

/-- What `init` is started from is there. -/
structure Startable (fs : Fs) : Prop where
  init : ∃ nd, fs.Leads (cstr "0:/init/init") nd ∧ nd.ops = .tarfs ∧ nd.size < 2 ^ 31
  stdin : ∃ nd, fs.Leads (cstr "1:/stdin") nd
  stdout : ∃ nd, fs.Leads (cstr "1:/stdout") nd

lemma dest_init (fs : Fs) (r : Ptr) : fs.dest (cstr "0:/init/init") ≠ some (r, []) := by
  have hparse : parsePath (cstr "0:/init/init") = some (0, cstr "/init/init") ∧
      components (cstr "/init/init") = [cstr "init", cstr "init"] := by decide
  simp [Fs.dest, hparse]

lemma Startable.congr {fs' : Fs} (hs : fs.Startable) (h : Inv t d 0 fs) (h' : Inv t d 0 fs')
    (hst : fs.Static fs') : fs'.Startable where
  init := by
    obtain ⟨nd, hl, hops⟩ := hs.init
    exact ⟨nd, hl.congr (dest_init fs) h h' hst, hops⟩
  stdin := by
    obtain ⟨nd, hl⟩ := hs.stdin
    exact ⟨nd, hl.congr (fun r => (Files.dest_std fs r).1) h h' hst⟩
  stdout := by
    obtain ⟨nd, hl⟩ := hs.stdout
    exact ⟨nd, hl.congr (fun r => (Files.dest_std fs r).2) h h' hst⟩

/-- Descriptor `i` is open, and not on the archive's root. -/
def Holds (fs : Fs) (t : Ptr) (pr : FileProc) (i : ℕ) : Prop :=
  ∃ f fl, pr.fds i = some f ∧ fs.vfs.files f = some fl ∧ fl.node ≠ t

end Fs

namespace Files

variable {d k j : ℕ} {w : Files} {p : Ptr} {pr pr' : FileProc} {fs' : Fs}

/-- Only process `p` is left.  There are `k` handles on the archive's root and `j` others. -/
structure Lone (d k j : ℕ) (w : Files) (p : Ptr) (pr : FileProc) : Prop where
  inv : Inv 0 d w
  startable : w.fs.Startable
  proc : w.procs p = some pr
  alive : pr.dead = false
  alone : ∀ q ∈ w.procList, q = p
  root : w.fs.handlesOn 0 = k
  all : w.fs.handles = k + j

lemma Lone.update {k' j' : ℕ} (h : Lone d k j w p pr) (hm : Fs.Moves 0 d w.fs pr fs' pr')
    (halive : pr'.dead = false) (hroot : fs'.handlesOn 0 = k') (hall : fs'.handles = k' + j') :
    Lone d k' j' ((w.setFs fs').setProc p pr') p pr' where
  inv := h.inv.update h.proc hm
  startable := h.startable.congr h.inv.fs hm.inv hm.static
  proc := by simp
  alive := halive
  alone := h.alone
  root := hroot
  all := hall

lemma call_eq (hp : w.procs p = some pr) (halive : pr.dead = false)
    {f : FileProc → Except Fault (Fs × FileProc)} (hf : f pr = .ok (fs', pr')) :
    (w.call p f).toOption = some ((w.setFs fs').setProc p pr') := by
  rw [call, hp]
  simp only [halive, hf, bind, Except.bind]
  rfl

/-- A standard descriptor is closed. -/
lemma Lone.close (h : Lone d k (j + 1) w p pr) (hk : k < 2 ^ 32) {i : ℕ} (hi : i < maxFds)
    (hfd : w.fs.Holds 0 pr i) : ∃ w', w.next (.close p i) = some w' ∧
      Lone d k j w' p (pr.setFd i none) ∧
      ∀ i', i' ≠ i → w.fs.Holds 0 pr i' → w'.fs.Holds 0 (pr.setFd i none) i' := by
  obtain ⟨f, fl, hf, hfl, hnode⟩ := hfd
  have hok := h.inv.table p pr h.proc
  obtain ⟨fs', hclose, hkeep, hinv, -⟩ := h.inv.fs.closeFile (h.root.symm ▸ hk) hfl
  have hfile : pr.fileOf i = some f := by
    rw [FileProc.fileOf, if_neg (by omega), Int.toNat_natCast, hf]
  have hcount : ∀ P, fs'.fileCount P + (if P fl then 1 else 0) = w.fs.fileCount P := fun P =>
    Fs.fileCount_closed h.inv.fs.file_fresh hfl hkeep
  have hroot : fs'.handlesOn 0 = k := by
    have := hcount fun fl => fl.node = 0
    simp only [hnode, decide_false, Bool.false_eq_true, if_false] at this
    exact this.trans h.root
  have hall : fs'.handles = k + j := by
    have := (hcount fun _ => true).trans h.all
    exact Nat.succ.inj this
  have hcall : w.next (.close p i) = some ((w.setFs fs').setProc p (pr.setFd i none)) := by
    refine call_eq h.proc h.alive ?_
    simp only [Fs.sysClose, hfile, hclose, bind, Except.bind, Int.toNat_natCast]
  refine ⟨_, hcall,
    h.update (.remove hinv hkeep hok hf) h.alive hroot hall, ?_⟩
  rintro i' hne ⟨f', fl', hf', hfl', hnode'⟩
  have hff : f' ≠ f := fun heq => hne (hok.inj i' i f (heq ▸ hf') hf)
  refine ⟨f', fl', by simpa [hne] using hf', ?_, hnode'⟩
  change fs'.vfs.files f' = some fl'
  rw [hkeep.files]
  simpa [Fs.eraseFile, hff] using hfl'

lemma Lone.openRoot (h : Lone d k j w p pr) (hk : 2 + k < 2 ^ 32) (hfree : pr.fds 2 = none) :
    ∃ w' pr', w.next (.open p (cstr "0:/")) = some w' ∧ Lone d (k + 1) j w' p pr' := by
  have hfd : Fs.freeFd pr = some 2 := by
    have hrange : List.range' fdReserved (maxFds - fdReserved) =
        2 :: List.range' 3 (maxFds - 3) := by decide
    rw [Fs.freeFd, hrange, List.find?_cons_of_pos (by simpa using hfree)]
  have hfresh := h.inv.fs.file_fresh
  obtain ⟨fs₁, hres, hkeep, hg⟩ : ∃ fs₁, w.fs.vfsResolve (cstr "0:/") = .ok (fs₁, some 0) ∧
      w.fs.Keeps fs₁ ∧ Fs.Grabbed 0 d 0 0 fs₁ := by
    obtain ⟨fs₁, res, hres, hr, -, hsome⟩ :=
      @Fs.Inv.vfsResolve 0 d 0 w.fs h.inv.fs (cstr "0:/") fun _ => by rw [h.root]; exact hk
    obtain ⟨-, rfl⟩ := Prod.mk.inj (Except.ok.inj (hres.symm.trans h.inv.fs.vfsResolve_archive))
    exact ⟨fs₁, hres, hr.keeps, hsome 0 rfl⟩
  have hcount : ∀ P, (fs₁.allocFile ⟨0, 0, 1⟩).1.fileCount P =
      w.fs.fileCount P + if P ⟨0, 0, 1⟩ then 1 else 0 := by
    intro P
    rw [Fs.fileCount_allocFile hg.inv.file_fresh, Fs.fileCount_keeps hfresh hkeep]
  have hroot : (fs₁.allocFile ⟨0, 0, 1⟩).1.handlesOn 0 = k + 1 := by
    rw [← h.root]
    exact hcount _
  have hall : (fs₁.allocFile ⟨0, 0, 1⟩).1.handles = k + 1 + j := by
    rw [Nat.add_right_comm, ← h.all]
    exact hcount _
  have hcall : w.next (.open p (cstr "0:/")) =
      some ((w.setFs (fs₁.allocFile ⟨0, 0, 1⟩).1).setProc p (pr.setFd 2 (some fs₁.brk))) := by
    refine call_eq h.proc h.alive ?_
    simp only [Fs.sysOpen, hfd, hres, bind, Except.bind]
    rfl
  exact ⟨_, _, hcall, h.update (.add hg hkeep (h.inv.fs.file_fresh_of_keeps hkeep)
    (h.inv.table p pr h.proc) hfree rfl) h.alive hroot hall⟩

/-- With the count at its largest, the reference that `sys_listdir` takes wraps it, and the root is
freed at the end of the call. -/
lemma Lone.listRoot (h : Lone d (2 ^ 32 - 2) j w p pr) :
    ∃ w', w.next (.listdir p (cstr "0:/") 0) = some w' ∧ w'.fs.driveRoot 0 = some 0 ∧
      w'.fs.vfs.nodes 0 = none := by
  let nd : FsNode := { Fs.rootNode .tarfs with refcount := 0 }
  have hres : w.fs.vfsResolve (cstr "0:/") = .ok (w.fs.setNode 0 nd, some 0) := by
    have hwrap : (1 + 0 + w.fs.handlesOn 0 + 1) % 2 ^ 32 = 0 := by
      rw [h.root]
      decide
    rw [h.inv.fs.vfsResolve_archive, hwrap]
  have hnd : (w.fs.setNode 0 nd).vfs.nodes 0 = some nd := by simp
  have hnode : (w.fs.setNode 0 nd).node 0 = .ok nd := by rw [Fs.node, hnd]
  obtain ⟨fs', hrel, hkeep, hnone⟩ := Fs.release_uncounted hnd rfl rfl
  have hcall : w.next (.listdir p (cstr "0:/") 0) = some ((w.setFs fs').setProc p pr) := by
    refine call_eq h.proc h.alive ?_
    have hdir : ¬nd.type ≠ .dir := fun hne => hne rfl
    simp only [Fs.sysListdir, hres, hnode, hrel, bind, Except.bind, if_neg hdir, Int.toNat_zero,
      Fs.listEntries]
  have hdrives : fs'.drives = w.fs.drives := hkeep.drives
  refine ⟨_, hcall, ?_, hnone⟩
  change fs'.driveRoot 0 = some 0
  rw [Fs.driveRoot, hdrives]
  exact h.inv.fs.archive

/-- A fresh `init` is alone, with its standard descriptors open. -/
structure Stage (d k : ℕ) (w : Files) (p : Ptr) (pr : FileProc) : Prop extends
    Lone d k 2 w p pr where
  fd0 : w.fs.Holds 0 pr 0
  fd1 : w.fs.Holds 0 pr 1
  fd2 : pr.fds 2 = none

lemma stage_startInit (h : Inv 0 d w) (hs : w.fs.Startable) (hlist : w.procList = [])
    (hroot : w.fs.handlesOn 0 = k) (hall : w.fs.handles = k) (hk : 2 + k < 2 ^ 32) :
    ∃ w' p pr, w.startInit true = .ok w' ∧ Stage d k w' p pr := by
  have hb : 2 + w.fs.handlesOn 0 < 2 ^ 32 := by rwa [hroot]
  obtain ⟨nd, hl, hops, hsize⟩ := hs.init
  obtain ⟨fs₁, elf, hload, hinv₁, hkeep₁⟩ := h.fs.loadProgram_eq hb w.io hl hops hsize
  -- the block of the process
  let fs₂ : Fs := { fs₁ with brk := fs₁.brk + 1 }
  have hkeep₂ : w.fs.Keeps fs₂ := hkeep₁.trans ⟨rfl, rfl, rfl, rfl, rfl, Nat.le_succ _⟩
  have hinv₂ : Fs.Inv 0 d 0 fs₂ :=
    hinv₁.of_keeps ⟨rfl, rfl, rfl, rfl, rfl, Nat.le_succ _⟩ rfl
  have hs₂ := hs.congr h.fs hinv₂ hkeep₂.static
  have hroot₂ : fs₂.handlesOn 0 = k := (h.fs.handlesOn_keeps hkeep₂ 0).trans hroot
  have hall₂ : fs₂.handles = k := (Fs.fileCount_keeps h.fs.file_fresh hkeep₂).trans hall
  let pr₀ : FileProc := { fds := fun _ => none, cwd := cstr "0:/", dead := false }
  obtain ⟨nd₀, hl₀⟩ := hs₂.stdin
  obtain ⟨fs₃, f₀, fl₀, hfd₀, hinv₃, hst₃, -, hfiles₃, -, hne₀, hroot₃, hall₃⟩ :=
    hinv₂.stdFd_eq (by rwa [hroot₂]) hl₀ (fun r => (dest_std fs₂ r).1) pr₀ 0 1
  have hs₃ := hs₂.congr hinv₂ hinv₃ hst₃
  obtain ⟨nd₁, hl₁⟩ := hs₃.stdout
  obtain ⟨fs₄, f₁, fl₁, hfd₁, hinv₄, hst₄, -, hfiles₄, hnone, hne₁, hroot₄, hall₄⟩ :=
    hinv₃.stdFd_eq (by rwa [hroot₃, hroot₂]) hl₁ (fun r => (dest_std fs₃ r).2)
      (pr₀.setFd 0 (some f₀)) 1 2
  have hff : f₀ ≠ f₁ := by
    rintro rfl
    simp [hfiles₃] at hnone
  let pr := (pr₀.setFd 0 (some f₀)).setFd 1 (some f₁)
  let w' : Files := { (({ w with fs := fs₁, io := w.io } : Files).setFs fs₄).setProc fs₁.brk pr with
    procList := fs₁.brk :: w.procList }
  have hcwd : cstr "0:/" ≠ [] ∧ (cstr "0:/").take 255 = cstr "0:/" := by decide
  have hcreate : procCreate { w with fs := fs₁, io := w.io } true (cstr "0:/") =
      .ok (w', fs₁.brk) := by
    simp only [procCreate, Bool.true_eq_false, if_false, if_neg hcwd.1, hcwd.2, bind, Except.bind]
    rw [hfd₀]
    dsimp only
    rw [hfd₁]
  have hstart : w.startInit true = .ok w' := by
    simp only [startInit, hload, bind, Except.bind, hcreate]
  have hinv : Inv 0 d w' := (ends_startInit h hb true).toOption (toOption_eq_some.2 hstart)
  refine ⟨w', fs₁.brk, pr, hstart, ?_⟩
  exact
    { inv := hinv
      startable := hs₃.congr hinv₃ hinv₄ hst₄
      proc := by simp [w']
      alive := rfl
      alone := by simp [w', hlist]
      root := hroot₄.trans (hroot₃.trans hroot₂)
      all := by
        change fs₄.handles = k + 2
        rw [hall₄, hall₃, hall₂]
      fd0 := ⟨f₀, fl₀, by simp [pr], by simp [w', hfiles₄, hfiles₃, hff], hne₀⟩
      fd1 := ⟨f₁, fl₁, by simp [pr], by simp [w', hfiles₄], hne₁⟩
      fd2 := by simp [pr, pr₀] }

/-- The last process dies of an exception with its handles on the root open, and `init` is started
again. -/
lemma Lone.restart (h : Lone d k 0 w p pr) (hk : 2 + k < 2 ^ 32) :
    ∃ w₁ w₂ p' pr', w.next (.fault p) = some w₁ ∧ w₁.fs.handles = k ∧
      w₁.next (.cleanup true) = some w₂ ∧ Stage d k w₂ p' pr' := by
  let w₁ := (w.setFs w.fs).setProc p { pr with dead := true }
  have hfault : w.next (.fault p) = some w₁ := call_eq h.proc h.alive rfl
  have hinv : Inv 0 d w₁ := h.inv.update h.proc
    (.chdir h.inv.fs (.refl _) (h.inv.table p pr h.proc) rfl (.inl rfl))
  have hdead : w₁.procList.filter (fun q => w₁.aliveIn q) = [] := by
    refine List.filter_eq_nil_iff.2 fun q hq => ?_
    obtain rfl := h.alone q hq
    simp [w₁, aliveIn]
  have hdrop : Inv 0 d { w₁ with
      procs := fun q => if w₁.aliveIn q then w₁.procs q else none, procList := [] } := by
    refine hinv.restrict [] fun q qr hq => ?_
    split at hq
    · exact hq
    · cases hq
  obtain ⟨w₂, p', pr', hstart, hstage⟩ :=
    stage_startInit hdrop h.startable rfl h.root h.all hk
  refine ⟨w₁, w₂, p', pr', hfault, h.all, ?_, hstage⟩
  refine toOption_eq_some.2 ?_
  change w₁.procCleanup true = _
  rw [procCleanup, hdead]
  exact hstart

/-- The states with less than `2 ^ 32` handles. -/
def Bounded (w : Files) (_ : Op) : Prop := w.fs.handles < 2 ^ 32

lemma Stage.openRoot (h : Stage d k w p pr) (hk : 2 + k < 2 ^ 32) : ∃ w' pr',
    Run next Bounded w [.close p 0, .close p 1, .open p (cstr "0:/")] w' ∧
      Lone d (k + 1) 0 w' p pr' := by
  have hlt : k < 2 ^ 32 := by omega
  obtain ⟨w₁, hstep₁, h₁, hholds⟩ := h.toLone.close hlt (by decide) h.fd0
  obtain ⟨w₂, hstep₂, h₂, -⟩ := h₁.close hlt (by decide) (hholds 1 (by decide) h.fd1)
  obtain ⟨w₃, pr₃, hstep₃, h₃⟩ := h₂.openRoot hk (by simp [h.fd2])
  refine ⟨w₃, pr₃, .snoc (.snoc (.snoc .nil ?_ hstep₁) ?_ hstep₂) ?_ hstep₃, h₃⟩
  · rw [Bounded, h.all]
    omega
  · rw [Bounded, h₁.all]
    omega
  · rw [Bounded, h₂.all]
    omega

/-- One more handle on the root is left behind. -/
lemma Stage.round (h : Stage d k w p pr) (hk : 3 + k < 2 ^ 32) : ∃ ops w' p' pr',
    Run next Bounded w ops w' ∧ Stage d (k + 1) w' p' pr' := by
  obtain ⟨w₁, pr₁, hrun, h₁⟩ := h.openRoot (by omega)
  obtain ⟨w₂, w₃, p', pr', hfault, hcount, hclean, hstage⟩ := h₁.restart (by omega)
  refine ⟨_, w₃, p', pr', hrun.append (.snoc (.snoc .nil ?_ hfault) ?_ hclean), hstage⟩
  · rw [Bounded, h₁.all]
    omega
  · rw [Bounded, hcount]
    omega

lemma Stage.rounds (h : Stage d 0 w p pr) (n : ℕ) (hn : 2 + n < 2 ^ 32) : ∃ ops w' p' pr',
    Run next Bounded w ops w' ∧ Stage d n w' p' pr' := by
  induction n with
  | zero => exact ⟨[], w, p, pr, .nil, h⟩
  | succ n ih =>
    obtain ⟨ops, w₁, p₁, pr₁, hrun, h₁⟩ := ih (by omega)
    obtain ⟨ops', w₂, p₂, pr₂, hrun', h₂⟩ := h₁.round (by omega)
    exact ⟨ops ++ ops', w₂, p₂, pr₂, hrun.append hrun', h₂⟩

/-- Whether a path is resolved to a node with `P`. -/
def resolvesTo (w : Files) (path : CStr) (P : FsNode → Bool) : Bool :=
  (w.fs.vfsResolve path).toOption.any fun r => r.2.any fun n => (r.1.vfs.nodes n).any P

/-- Whether a descriptor is open, and not on node 0. -/
def holds (w : Files) (pr : FileProc) (i : ℕ) : Bool :=
  (pr.fds i).any fun f => (w.fs.vfs.files f).any fun fl => fl.node ≠ 0

lemma leads_of_resolvesTo {path : CStr} {P : FsNode → Bool} (h : Inv 0 d w)
    (hres : w.resolvesTo path P = true)
    (hP : ∀ nd rc, P nd = true → P { nd with refcount := rc } = true) :
    ∃ nd, w.fs.Leads path nd ∧ P nd = true := by
  obtain ⟨⟨fs', res⟩, heq, hany⟩ := exists_ok_of_any hres
  obtain ⟨n, rfl, hany⟩ := (any_eq_true _ _).1 hany
  obtain ⟨nd, hnd, hPnd⟩ := (any_eq_true _ _).1 hany
  obtain ⟨fs'', res, heq', hr⟩ := Fs.vfsResolve_resolved h.fs.toWf path
  obtain ⟨rfl, rfl⟩ := Prod.mk.inj (Except.ok.inj (heq.symm.trans heq'))
  obtain ⟨rc, hleads⟩ := hr.leads hnd
  exact ⟨_, hleads, hP nd rc hPnd⟩

/-- After the start `init` is alone, and no handle is on the root. -/
def staged (w : Files) : Bool :=
  w.resolvesTo (cstr "0:/init/init") (fun nd => nd.ops = .tarfs ∧ nd.size < 2 ^ 31) &&
    w.resolvesTo (cstr "1:/stdin") (fun _ => true) &&
    w.resolvesTo (cstr "1:/stdout") (fun _ => true) && w.procList = [6] &&
    (w.fs.handlesOn 0 = 0 && w.fs.handles = 2) &&
    (w.procs 6).any fun pr => !pr.dead && w.holds pr 0 && w.holds pr 1 && (pr.fds 2).isNone

lemma staged_boot : (kidle bootTar quietIo true true).toOption.any staged = true := by
  decide +kernel

lemma holds_of_holds {i : ℕ} (h : w.holds pr i = true) : w.fs.Holds 0 pr i := by
  obtain ⟨f, hf, h⟩ := (any_eq_true _ _).1 h
  obtain ⟨fl, hfl, h⟩ := (any_eq_true _ _).1 h
  exact ⟨f, fl, hf, hfl, of_decide_eq_true h⟩

lemma stage_of_staged (h : Inv 0 d w) (hs : w.staged = true) : ∃ pr, Stage d 0 w 6 pr := by
  simp only [staged, Bool.and_eq_true, decide_eq_true_eq] at hs
  obtain ⟨⟨⟨⟨⟨hinit, hin⟩, hout⟩, hlist⟩, hroot, hall⟩, hproc⟩ := hs
  obtain ⟨pr, hpr, hproc⟩ := (any_eq_true _ _).1 hproc
  simp only [Bool.and_eq_true, Bool.not_eq_true', isNone_iff_eq_none] at hproc
  obtain ⟨⟨⟨halive, h0⟩, h1⟩, h2⟩ := hproc
  obtain ⟨nd, hl, hnd⟩ := leads_of_resolvesTo h hinit fun _ _ h => h
  obtain ⟨nd₀, hl₀, -⟩ := leads_of_resolvesTo h hin fun _ _ h => h
  obtain ⟨nd₁, hl₁, -⟩ := leads_of_resolvesTo h hout fun _ _ h => h
  exact ⟨pr,
    { inv := h
      startable := ⟨⟨nd, hl, of_decide_eq_true hnd⟩, ⟨nd₀, hl₀⟩, ⟨nd₁, hl₁⟩⟩
      proc := hpr
      alive := halive
      alone := by simp [hlist]
      root := hroot
      all := hall
      fd0 := holds_of_holds h0
      fd1 := holds_of_holds h1
      fd2 := h2 }⟩

/-- A run in which less than `2 ^ 32` handles are outstanding frees the archive's root. -/
theorem listing_frees_the_root : ∃ w₀ ops w, kidle bootTar quietIo true true = .ok w₀ ∧
    Run next Bounded w₀ ops w ∧ w.fs.driveRoot 0 = some 0 ∧ w.fs.vfs.nodes 0 = none := by
  obtain ⟨w₀, hboot, hstaged⟩ := exists_ok_of_any staged_boot
  obtain ⟨d, hinv⟩ := inv_of_kidle hboot
  obtain ⟨pr, hstage⟩ := stage_of_staged hinv hstaged
  obtain ⟨ops, w₁, p₁, pr₁, hrun, h₁⟩ := hstage.rounds (2 ^ 32 - 3) (by decide)
  obtain ⟨w₂, pr₂, hrun', h₂⟩ := h₁.openRoot (by decide)
  obtain ⟨w₃, hlist, hroot, hnone⟩ := h₂.listRoot
  refine ⟨w₀, _, w₃, hboot, .snoc (hrun.append hrun') ?_ hlist, hroot, hnone⟩
  rw [Bounded, h₂.all]
  decide

end Files

end CobjOs
