import CobjOs.Framework.Outcome
import CobjOs.Fs.FilesSpec
import Mathlib.Data.List.TakeWhile

/-!
# The calls of all processes

`Files.Inv` adds to the invariant of the file system that the descriptors of the processes lead
to open files, different ones to different files, and that their working directories are
directories.  `Fs.Moves` is what a call of one process can
do to the file system and its own table such that this is kept (`Files.Inv.update`), and there is
one lemma that each call does that.
-/

namespace CobjOs

open Function List

namespace Fs

variable {t d n : Ptr} {fs fs' : Fs} {pr pr' : FileProc} {E : Fault → Prop} {fd k : ℕ}

/-- The descriptors of a table lead to different open files. -/
structure TableOk (fs : Fs) (pr : FileProc) : Prop where
  open_fd : ∀ i f, pr.fds i = some f → (fs.vfs.files f).isSome
  inj : ∀ i j f, pr.fds i = some f → pr.fds j = some f → i = j

/-- A call closes only files of the caller, and adds only new files to its table. -/
structure Moves (t d : Ptr) (fs : Fs) (pr : FileProc) (fs' : Fs) (pr' : FileProc) : Prop where
  inv : Inv t d 0 fs'
  brk : fs.brk ≤ fs'.brk
  kept : ∀ f, (fs.vfs.files f).isSome → (∀ i, pr.fds i ≠ some f) → (fs'.vfs.files f).isSome
  table : fs'.TableOk pr'
  entry : ∀ i f, pr'.fds i = some f → pr.fds i = some f ∨ fs.vfs.files f = none
  /-- What is open after the call is in the caller's table, or was open outside it. -/
  accounted : ∀ f, (fs'.vfs.files f).isSome →
    (∃ i, pr'.fds i = some f) ∨ ((fs.vfs.files f).isSome ∧ ∀ i, pr.fds i ≠ some f)
  static : fs.Static fs'
  cwd : pr'.cwd = pr.cwd ∨ fs.CwdOk pr'.cwd

/-- The files and the table stay. -/
lemma Moves.chdir (hinv : Inv t d 0 fs') (hk : fs.Keeps fs') (ht : fs.TableOk pr)
    (hfds : pr'.fds = pr.fds) (hcwd : pr'.cwd = pr.cwd ∨ fs.CwdOk pr'.cwd) :
    Moves t d fs pr fs' pr' where
  inv := hinv
  brk := hk.brk
  kept f hf _ := by rwa [hk.files]
  table := by
    refine ⟨fun i f hf => ?_, fun i j f hi hj => ht.inj i j f (hfds ▸ hi) (hfds ▸ hj)⟩
    rw [hk.files]
    exact ht.open_fd i f (hfds ▸ hf)
  entry i f hf := .inl (hfds ▸ hf)
  accounted f hf := by
    rw [hk.files] at hf
    rw [hfds]
    by_cases h : ∃ i, pr.fds i = some f
    · exact .inl h
    · exact .inr ⟨hf, not_exists.1 h⟩
  static := hk.static
  cwd := hcwd

lemma Moves.same (hinv : Inv t d 0 fs') (hk : fs.Keeps fs') (ht : fs.TableOk pr) :
    Moves t d fs pr fs' pr := .chdir hinv hk ht rfl (.inl rfl)

lemma Moves.add (hg : Grabbed t d 0 n fs') (hk : fs.Keeps fs') (hfresh : fs.vfs.files fs'.brk = none)
    (ht : fs.TableOk pr) (hfd : pr.fds fd = none) {fl : File} (hfl : fl.node = n) :
    Moves t d fs pr (fs'.allocFile fl).1 (pr.setFd fd (some fs'.brk)) := by
  have hfiles : (fs'.allocFile fl).1.vfs.files = update fs.vfs.files fs'.brk (some fl) := by
    rw [← hk.files]
    rfl
  have hopen : ∀ f, (fs.vfs.files f).isSome → ((fs'.allocFile fl).1.vfs.files f).isSome := by
    intro f hf
    rw [hfiles]
    by_cases hne : f = fs'.brk
    · simp [hne]
    · simpa [hne] using hf
  have hentry : ∀ i f, (pr.setFd fd (some fs'.brk)).fds i = some f →
      i = fd ∧ f = fs'.brk ∨ i ≠ fd ∧ pr.fds i = some f := by
    intro i f hi
    by_cases h : i = fd
    · subst h
      exact .inl ⟨rfl, by simpa using hi.symm⟩
    · exact .inr ⟨h, by simpa [h] using hi⟩
  have hnew : ∀ i, pr.fds i ≠ some fs'.brk := by
    intro i hi
    simpa [hfresh] using ht.open_fd i _ hi
  refine ⟨hg.allocFile hfl, hk.brk.trans (Nat.le_succ _), fun f hf _ => hopen f hf, ⟨?_, ?_⟩, ?_, ?_,
    ⟨hk.drives, hk.tar, hk.devfsEntries⟩, .inl rfl⟩
  · intro i f hi
    rcases hentry i f hi with ⟨-, rfl⟩ | ⟨-, hi⟩
    · simp [hfiles]
    · exact hopen f (ht.open_fd i f hi)
  · intro i j f hi hj
    rcases hentry i f hi with ⟨hi, hf⟩ | ⟨-, hi⟩ <;> rcases hentry j f hj with ⟨hj, hf'⟩ | ⟨-, hj⟩
    · exact hi.trans hj.symm
    · exact absurd (hf ▸ hj) (hnew j)
    · exact absurd (hf' ▸ hi) (hnew i)
    · exact ht.inj i j f hi hj
  · intro i f hi
    rcases hentry i f hi with ⟨-, rfl⟩ | ⟨-, hi⟩
    · exact .inr hfresh
    · exact .inl hi
  · intro f hf
    by_cases hfb : f = fs'.brk
    · exact .inl ⟨fd, by simp [hfb]⟩
    · have hf : (fs.vfs.files f).isSome := by simpa [hfiles, hfb] using hf
      by_cases h : ∃ i, pr.fds i = some f
      · obtain ⟨i, hi⟩ := h
        have hne : i ≠ fd := by
          rintro rfl
          cases hfd.symm.trans hi
        exact .inl ⟨i, by simpa [hne] using hi⟩
      · exact .inr ⟨hf, not_exists.1 h⟩

lemma Moves.remove {f : Ptr} (hinv : Inv t d 0 fs') (hk : (fs.eraseFile f).Keeps fs')
    (ht : fs.TableOk pr) (hfd : pr.fds fd = some f) :
    Moves t d fs pr fs' (pr.setFd fd none) := by
  have hopen : ∀ g, g ≠ f → (fs.vfs.files g).isSome → (fs'.vfs.files g).isSome := by
    intro g hne hg
    rw [hk.files]
    simpa [Fs.eraseFile, hne] using hg
  have hentry : ∀ i g, (pr.setFd fd none).fds i = some g → pr.fds i = some g ∧ g ≠ f := by
    intro i g hi
    have hne : i ≠ fd := by
      rintro rfl
      simp at hi
    have hi : pr.fds i = some g := by simpa [hne] using hi
    exact ⟨hi, fun h => hne (ht.inj i fd f (h ▸ hi) hfd)⟩
  refine ⟨hinv, hk.brk, fun g hg hno => hopen g (fun h => hno fd (h ▸ hfd)) hg, ⟨?_, ?_⟩, ?_, ?_,
    ⟨hk.drives, hk.tar, hk.devfsEntries⟩, .inl rfl⟩
  · intro i g hi
    obtain ⟨hi, hne⟩ := hentry i g hi
    exact hopen g hne (ht.open_fd i g hi)
  · intro i j g hi hj
    exact ht.inj i j g (hentry i g hi).1 (hentry j g hj).1
  · exact fun i g hi => .inl (hentry i g hi).1
  · intro g hg
    rw [hk.files] at hg
    have hne : g ≠ f := by
      rintro rfl
      simp [Fs.eraseFile] at hg
    have hg : (fs.vfs.files g).isSome := by simpa [Fs.eraseFile, hne] using hg
    by_cases h : ∃ i, pr.fds i = some g
    · obtain ⟨i, hi⟩ := h
      have hi' : i ≠ fd := by
        rintro rfl
        exact hne (Option.some.inj (hi.symm.trans hfd))
      exact .inl ⟨i, by simpa [hi'] using hi⟩
    · exact .inr ⟨hg, not_exists.1 h⟩

lemma Moves.offset (h : Inv t d 0 fs) {f : Ptr} {fl fl' : File} (hf : fs.vfs.files f = some fl)
    (hnode : fl'.node = fl.node) (ht : fs.TableOk pr) : Moves t d fs pr (fs.setFile f fl') pr := by
  have hopen : ∀ g, (fs.vfs.files g).isSome → ((fs.setFile f fl').vfs.files g).isSome := by
    intro g hg
    by_cases hne : g = f
    · simp [hne]
    · simpa [hne] using hg
  refine ⟨h.setFile hf hnode, le_rfl, fun g hg _ => hopen g hg,
    ⟨fun i g hi => hopen g (ht.open_fd i g hi), ht.inj⟩, fun i g hi => .inl hi, fun g hg => ?_,
    ⟨rfl, rfl, rfl⟩, .inl rfl⟩
  have hg : (fs.vfs.files g).isSome := by
    by_cases hne : g = f
    · simp [hne, hf]
    · simpa [hne] using hg
  by_cases h : ∃ i, pr.fds i = some g
  · exact .inl h
  · exact .inr ⟨hg, not_exists.1 h⟩

/-! ### The calls -/

/-- `vfs_resolve` as the first step of a call. -/
lemma Inv.resolve_bind (h : Inv t d 0 fs) {path : CStr} {β : Type} {P : β → Prop}
    (hb : fs.dest path = some (t, []) → 2 + fs.handlesOn t < 2 ^ 32)
    {f : Fs × Option Ptr → Except Fault β}
    (hnone : ∀ fs', fs.Keeps fs' → Inv t d 0 fs' → Ends E P (f (fs', none)))
    (hsome : ∀ fs' n, fs.Resolved path fs' (some n) → Grabbed t d 0 n fs' →
      Ends E P (f (fs', some n))) : Ends E P (fs.vfsResolve path >>= f) := by
  obtain ⟨fs', res, heq, hr, hinv, hg⟩ := h.vfsResolve hb
  refine .bind_of_eq heq ?_
  cases res with
  | none => exact hnone fs' hr.keeps (hinv rfl)
  | some n => exact hsome fs' n hr (hg n rfl)

lemma Inv.file_fresh_of_keeps (h : Inv t d 0 fs) (hk : fs.Keeps fs') :
    fs.vfs.files fs'.brk = none := h.file_fresh _ hk.brk

lemma freeFd_free (h : freeFd pr = some fd) : pr.fds fd = none := by
  simpa using find?_some h

lemma ends_sysOpen (h : Inv t d 0 fs) (hb : 2 + fs.handlesOn t < 2 ^ 32) (ht : fs.TableOk pr)
    (path : CStr) : Ends E (fun r => Moves t d fs pr r.1 r.2.1) (fs.sysOpen pr path) := by
  unfold sysOpen
  split
  · exact .same h (.refl fs) ht
  · next fd hfd =>
    refine h.resolve_bind (fun _ => hb) (fun fs' hk hinv => .same hinv hk ht) fun fs' n hr hg => ?_
    exact .add hg hr.keeps (h.file_fresh_of_keeps hr.keeps) ht (freeFd_free hfd) rfl

lemma file_of_fileOf (ht : fs.TableOk pr) {fd : ℤ} {f : Ptr} (hf : pr.fileOf fd = some f) :
    pr.fds fd.toNat = some f ∧ ∃ fl, fs.vfs.files f = some fl := by
  have hfd : pr.fds fd.toNat = some f := by
    unfold FileProc.fileOf at hf
    split at hf
    · cases hf
    · exact hf
  exact ⟨hfd, Option.isSome_iff_exists.1 (ht.open_fd _ f hfd)⟩

lemma ends_sysClose (h : Inv t d 0 fs) (hb : fs.handlesOn t < 2 ^ 32) (ht : fs.TableOk pr)
    (fd : ℤ) : Ends E (fun r => Moves t d fs pr r.1 r.2.1) (fs.sysClose pr fd) := by
  unfold sysClose
  split
  · exact .same h (.refl fs) ht
  · next f hf =>
    obtain ⟨hfd, fl, hfl⟩ := file_of_fileOf ht hf
    obtain ⟨fs', hclose, hk, hinv, -⟩ := h.closeFile hb hfl
    rw [hclose]
    exact .remove hinv hk ht hfd

lemma ends_sysSeek (h : Inv t d 0 fs) (ht : fs.TableOk pr) (fd offset whence : ℤ) :
    Ends E (fun r => Moves t d fs pr r.1 pr) (fs.sysSeek pr fd offset whence) := by
  unfold sysSeek
  split
  · exact .same h (.refl fs) ht
  · next f hf =>
    obtain ⟨-, fl, hfl⟩ := file_of_fileOf ht hf
    obtain ⟨nd, hnd, -⟩ := h.held f fl hfl
    have hfile : fs.file f = .ok fl := by rw [file, hfl]
    have hnode : fs.node fl.node = .ok nd := by rw [node, hnd]
    refine .bind_of_eq hfile ?_
    -- whichever base the third argument selects, the file moves or stays
    refine Ends.bind (P := fun _ => True) ?_ fun base _ => ?_
    · split_ifs
      · trivial
      · trivial
      · rw [hnode]
        trivial
      · trivial
    · cases base with
      | none => exact .same h (.refl fs) ht
      | some base =>
        dsimp only
        split_ifs
        · exact .same h (.refl fs) ht
        · exact .offset h hfl rfl ht

lemma ends_listEntries {dir : FsNode} (hdir : dir.ops.hasReaddir = true) (fuel count : ℕ) :
    Ends E (fun _ => True) (fs.listEntries dir fuel count) := by
  have hreaddir : ∀ i, Ends E (fun _ => True) (fs.readdir dir i) := by
    intro i
    cases hops : dir.ops <;> simp_all [FsOps.hasReaddir, readdir]
  induction fuel generalizing count with
  | zero => trivial
  | succ fuel ih =>
    refine (hreaddir _).bind fun ent _ => ?_
    cases ent with
    | none => trivial
    | some ent => exact (ih (count + 1)).bind fun _ _ => trivial

lemma Grabbed.node_eq (h : Grabbed t d k n fs) :
    ∃ nd, fs.vfs.nodes n = some nd ∧ fs.node n = .ok nd ∧ nd.Ok := by
  have hsome : ∃ nd, fs.vfs.nodes n = some nd := by
    by_cases ht : n = t
    · exact ⟨_, (congrArg _ ht).trans h.inv.tarRoot⟩
    · by_cases hd : n = d
      · obtain ⟨rc, hrc⟩ := h.inv.devRoot
        exact ⟨_, (congrArg _ hd).trans hrc⟩
      · obtain ⟨⟨nd, hnd, -⟩, -⟩ := h.made ht hd
        exact ⟨nd, hnd⟩
  obtain ⟨nd, hnd⟩ := hsome
  exact ⟨nd, hnd, by rw [node, hnd], h.inv.node_ok n nd hnd⟩

lemma ends_sysListdir (h : Inv t d 0 fs) (hb : 2 + fs.handlesOn t < 2 ^ 32) (ht : fs.TableOk pr)
    (path : CStr) (max : ℤ) :
    Ends E (fun r => Moves t d fs pr r.1 pr) (fs.sysListdir path max) := by
  refine h.resolve_bind (fun _ => hb) (fun fs' hk hinv => .same hinv hk ht) fun fs' n hr hg => ?_
  obtain ⟨nd, -, hnode, hok⟩ := hg.node_eq
  obtain ⟨fs₂, hrel, hk, hinv, -⟩ := hg.release
  have hmove : Moves t d fs pr fs₂ pr := .same hinv (hr.keeps.trans hk) ht
  refine .bind_of_eq hnode ?_
  split_ifs with hdir
  · rw [hrel]
    exact hmove
  · refine (ends_listEntries (hok.hasLookup (not_not.1 hdir)).2 _ _).bind fun ents _ => ?_
    rw [hrel]
    exact hmove

/-- Every byte of the buffer is read. -/
lemma copyUser_eq_some (user : ℕ → Option UInt8) (len : ℕ) (tmp : List UInt8) :
    copyUser user len = some tmp ↔ (List.range len).map user = tmp.map some := by
  have hall : ∀ (l : List ℕ) (tmp : List UInt8),
      l.mapM user = some tmp ↔ l.map user = tmp.map some := by
    intro l
    induction l with
    | nil =>
      intro tmp
      cases tmp <;> simp
    | cons i l ih =>
      intro tmp
      simp only [mapM_cons, bind, Option.bind_eq_some_iff, pure, Option.some.injEq]
      cases tmp with
      | nil => simp
      | cons b bs =>
        simp only [map_cons, List.cons.injEq, ← ih]
        constructor
        · rintro ⟨b', hb, bs', hbs, rfl, rfl⟩
          exact ⟨hb, hbs⟩
        · rintro ⟨hb, hbs⟩
          exact ⟨b, hb, bs, hbs, rfl, rfl⟩
  exact hall _ tmp

lemma length_of_copyUser {user : ℕ → Option UInt8} {len : ℕ} {tmp : List UInt8}
    (h : copyUser user len = some tmp) : tmp.length = len := by
  simpa using (congrArg List.length ((copyUser_eq_some _ _ _).1 h)).symm

lemma ends_sysSetCwd (h : Inv t d 0 fs) (hb : 2 + fs.handlesOn t < 2 ^ 32) (ht : fs.TableOk pr)
    {copied : Option (List UInt8)} (hlen : ∀ tmp, copied = some tmp → tmp.length ≤ 255) :
    Ends E (fun r => Moves t d fs pr r.1 r.2.1) (fs.sysSetCwd pr copied) := by
  unfold sysSetCwd
  split
  · exact .same h (.refl fs) ht
  · next tmp =>
    refine h.resolve_bind (fun _ => hb) (fun fs' hk hinv => .same hinv hk ht) fun fs' n hr hg => ?_
    obtain ⟨nd, hnd, hnode, -⟩ := hg.node_eq
    obtain ⟨fs₂, hrel, hk, hinv, -⟩ := hg.release
    refine .bind_of_eq hnode ?_
    refine .bind_of_eq hrel ?_
    split_ifs with hdir
    · exact .same hinv (hr.keeps.trans hk) ht
    · refine .chdir hinv (hr.keeps.trans hk) ht rfl (.inr ⟨?_, ?_, ?_⟩)
      · exact (takeWhile_sublist _).length_le.trans (hlen tmp rfl)
      · intro hmem
        simpa using mem_takeWhile_imp hmem
      · exact hr.leadsToDir hnd (not_not.1 hdir)

lemma ends_sysSetCwdBuf (h : Inv t d 0 fs) (hb : 2 + fs.handlesOn t < 2 ^ 32) (ht : fs.TableOk pr)
    (user : ℕ → Option UInt8) (bufSize : ℕ) :
    Ends E (fun r => Moves t d fs pr r.1 r.2.1) (fs.sysSetCwdBuf pr user bufSize) := by
  refine ends_sysSetCwd h hb ht fun tmp htmp => ?_
  split_ifs at htmp
  all_goals have hlen := length_of_copyUser htmp
  all_goals omega

lemma ends_probe (h : Inv t d 0 fs) (hb : 2 + fs.handlesOn t < 2 ^ 32) (path : CStr) :
    Ends E (fun fs' => Inv t d 0 fs' ∧ fs.Keeps fs') (fs.probe path) := by
  refine h.resolve_bind (fun _ => hb) (fun fs' hk hinv => ⟨hinv, hk⟩) fun fs' n hr hg => ?_
  obtain ⟨fs₂, hrel, hk, hinv, -⟩ := hg.release
  exact .of_eq hrel ⟨hinv, hr.keeps.trans hk⟩

lemma ends_stdFd (h : Inv t d 0 fs) (ht : fs.TableOk pr) {i : ℕ} (hi : pr.fds i = none)
    {path : CStr} (hpath : fs.dest path ≠ some (t, [])) (flags : ℕ) :
    Ends E (fun r => Moves t d fs pr r.1 r.2 ∧ ∀ j, j ≠ i → r.2.fds j = pr.fds j)
      (fs.stdFd pr i path flags) := by
  refine h.resolve_bind (fun hb => absurd hb hpath)
    (fun fs' hk hinv => ⟨.same hinv hk ht, fun _ _ => rfl⟩) fun fs' n hr hg => ?_
  refine ⟨.add hg hr.keeps (h.file_fresh_of_keeps hr.keeps) ht hi rfl, ?_⟩
  exact fun j hj => update_of_ne hj ..

/-- The root of the archive reads as an empty file. -/
lemma read_tarRoot (tar : List UInt8) (io : Io) (rc : ℕ) :
    FsNode.read tar io { rootNode .tarfs with refcount := rc } k 0 = .ok (io, [], 0) := by
  have hnil : tarfsRead tar { rootNode .tarfs with refcount := rc } k 0 = [] := if_pos le_rfl
  have hzero : toInt32 0 = 0 := Int.zero_bmod
  simp only [FsNode.read, rootNode] at hnil ⊢
  rw [hnil, length_nil, hzero]

lemma ends_read {tar : List UInt8} {io : Io} {nd : FsNode} {off : ℕ}
    (hread : nd.ops.hasRead = true ∨ E .nullCall) :
    Ends E (fun _ => True) (nd.read tar io k off) := by
  cases hops : nd.ops <;> simp_all [FsNode.read, FsOps.hasRead]

/-- A program is loaded, or the load fails, if what the path leads to can be read. -/
lemma ends_loadProgram (h : Inv t d 0 fs) (hb : 2 + fs.handlesOn t < 2 ^ 32) (io : Io) (path : CStr)
    (hread : ∀ nd, fs.Leads path nd → nd.ops.hasRead = true ∨ E .nullCall) :
    Ends E (fun r => Inv t d 0 r.1 ∧ fs.Keeps r.1) (fs.loadProgram io path) := by
  refine h.resolve_bind (fun _ => hb) (fun fs' hk hinv => ⟨hinv, hk⟩) fun fs' n hr hg => ?_
  obtain ⟨nd, hnd, hnode, -⟩ := hg.node_eq
  obtain ⟨fs₂, hrel, hk, hinv, -⟩ := hg.release
  refine .bind_of_eq hnode ?_
  obtain ⟨rc, hleads⟩ := hr.leads hnd
  have hroot : Ends E (fun r => n = t → r.2.2 = (nd.size : ℤ)) (nd.read fs'.tar io nd.size 0) := by
    by_cases hn : n = t
    · obtain rfl := Option.some.inj (hnd.symm.trans ((congrArg _ hn).trans hg.inv.tarRoot))
      rw [read_tarRoot]
      exact fun _ => rfl
    · exact (ends_read (hread _ hleads)).mono fun _ _ h => absurd h hn
  refine hroot.bind fun r hr' => ?_
  obtain ⟨io', elf, len⟩ := r
  dsimp only at hr' ⊢
  split_ifs with hlen
  · -- the node stays behind, but it is not the root
    have hn : n ≠ t := fun hn => hlen (hr' hn)
    have hinv' := hg.inv
    rw [if_neg hn] at hinv'
    exact ⟨hinv', hr.keeps⟩
  · rw [hrel]
    exact ⟨hinv, hr.keeps.trans hk⟩

end Fs

/-! ## All processes -/

namespace Files

variable {t d p : Ptr} {w : Files} {fs' fs : Fs} {pr pr' : FileProc} {E : Fault → Prop}
  {tar : List UInt8}

/-- The invariant of the file system, and that the descriptors of all processes lead to different
open files and their working directories are directories. -/
structure Inv (t d : Ptr) (w : Files) : Prop where
  fs : Fs.Inv t d 0 w.fs
  proc_fresh : ∀ p, w.fs.brk ≤ p → w.procs p = none
  table : ∀ p pr, w.procs p = some pr → w.fs.TableOk pr
  apart : ∀ p q pr qr i j f, w.procs p = some pr → w.procs q = some qr → pr.fds i = some f →
    qr.fds j = some f → p = q
  cwd : ∀ p pr, w.procs p = some pr → w.fs.CwdOk pr.cwd

/-- What a call of one process may do keeps the invariant. -/
lemma Inv.update (h : Inv t d w) (hp : w.procs p = some pr) (hm : Fs.Moves t d w.fs pr fs' pr') :
    Inv t d ((w.setFs fs').setProc p pr') := by
  have hlt : p < w.fs.brk := Nat.lt_of_not_le fun hle => by simpa [hp] using h.proc_fresh p hle
  have hcases : ∀ {q qr}, ((w.setFs fs').setProc p pr').procs q = some qr →
      q = p ∧ qr = pr' ∨ q ≠ p ∧ w.procs q = some qr := by
    intro q qr hq
    by_cases hqp : q = p
    · subst hqp
      exact .inl ⟨rfl, by simpa using hq.symm⟩
    · exact .inr ⟨hqp, by simpa [hqp] using hq⟩
  -- a file of another process is not one of the caller, before and after
  have hother : ∀ {q qr i j f}, q ≠ p → w.procs q = some qr → qr.fds j = some f →
      pr'.fds i = some f → False := by
    intro q qr i j f hqp hq hj hi
    rcases hm.entry i f hi with hi | hnone
    · exact hqp (h.apart p q pr qr i j f hp hq hi hj).symm
    · simpa [hnone] using (h.table q qr hq).open_fd j f hj
  refine ⟨hm.inv, fun q hq => ?_, fun q qr hq => ?_, fun q q' qr qr' i j f hq hq' hi hj => ?_,
    fun q qr hq => Fs.CwdOk.congr ?_ h.fs hm.inv hm.static⟩
  · have hqp : q ≠ p := Nat.ne_of_gt (hlt.trans_le (hm.brk.trans hq))
    simpa [hqp] using h.proc_fresh q (hm.brk.trans hq)
  · rcases hcases hq with ⟨-, rfl⟩ | ⟨hqp, hq⟩
    · exact hm.table
    · refine ⟨fun j f hj => ?_, (h.table q qr hq).inj⟩
      refine hm.kept f ((h.table q qr hq).open_fd j f hj) fun i hi => hqp ?_
      exact (h.apart p q pr qr i j f hp hq hi hj).symm
  · rcases hcases hq with ⟨hqp, hqr⟩ | ⟨hqp, hold⟩ <;>
      rcases hcases hq' with ⟨hqp', hqr'⟩ | ⟨hqp', hold'⟩
    · exact hqp.trans hqp'.symm
    · exact (hother hqp' hold' hj (hqr ▸ hi)).elim
    · exact (hother hqp hold hi (hqr' ▸ hj)).elim
    · exact h.apart q q' qr qr' i j f hold hold' hi hj
  · rcases hcases hq with ⟨-, rfl⟩ | ⟨-, hq⟩
    · rcases hm.cwd with hcwd | hcwd
      · exact hcwd ▸ h.cwd p pr hp
      · exact hcwd
    · exact h.cwd q qr hq

lemma Inv.bound (hb : w.fs.handles < 2 ^ 32 - 2) (t : Ptr) : 2 + w.fs.handlesOn t < 2 ^ 32 := by
  have := w.fs.handlesOn_le_handles t
  omega

lemma ends_call (h : Inv t d w) {f : FileProc → Except Fault (Fs × FileProc)}
    (hf : ∀ pr, w.procs p = some pr → Ends E (fun r => Fs.Moves t d w.fs pr r.1 r.2) (f pr)) :
    Ends E (Inv t d) (w.call p f) := by
  unfold call
  split
  · exact h
  · next pr hp =>
    split_ifs
    · exact h
    · exact (hf pr hp).bind fun r hr => h.update hp hr

lemma setProc_idem (w : Files) (a b : Fs) (p : Ptr) (x y : FileProc) :
    (((w.setFs a).setProc p x).setFs b).setProc p y = (w.setFs b).setProc p y := by
  simp [setFs, setProc]

/-- The descriptor loop at the end of a process.  Every turn closes one file of the table. -/
lemma ends_closeFds (h : Inv t d w) (hb : w.fs.handlesOn t < 2 ^ 32) (hp : w.procs p = some pr) :
    Ends E (fun r => Inv t d ((w.setFs r.1).setProc p r.2)) (w.fs.closeFds pr) := by
  have hstart : Inv t d ((w.setFs w.fs).setProc p pr) :=
    h.update hp (.same h.fs (.refl _) (h.table p pr hp))
  refine (Ends.foldlM (P := fun s => Inv t d ((w.setFs s.1).setProc p s.2) ∧
    s.1.handlesOn t < 2 ^ 32) ?_ _ ⟨hstart, hb⟩).mono fun s hs => hs.1
  rintro ⟨fs, q⟩ i ⟨hs, hlt⟩
  have hq : ((w.setFs fs).setProc p q).procs p = some q := by simp
  have hok := hs.table p q hq
  unfold Fs.closeFd
  split
  · exact ⟨hs, hlt⟩
  · next f hf =>
    obtain ⟨fl, hfl⟩ := Option.isSome_iff_exists.1 (hok.open_fd i f hf)
    obtain ⟨fs', hclose, hk, hinv, -⟩ := hs.fs.closeFile hlt hfl
    refine .bind_of_eq hclose ?_
    have hmove : Fs.Moves t d fs q fs' (q.setFd i none) := .remove hinv hk hok hf
    have hcount : fs'.handlesOn t ≤ fs.handlesOn t := by
      have hone := Fs.fileCount_closed (P := fun fl => decide (fl.node = t)) hs.fs.file_fresh hfl hk
      exact Nat.le.intro hone
    refine ⟨?_, hcount.trans_lt hlt⟩
    have hnext := hs.update hq hmove
    rwa [setProc_idem] at hnext

lemma ends_die (h : Inv t d w) (hb : w.fs.handlesOn t < 2 ^ 32) (hp : w.procs p = some pr) :
    Ends E (fun r => Inv t d ((w.setFs r.1).setProc p r.2)) (w.die pr) := by
  refine (ends_closeFds h hb hp).bind fun r hr => ?_
  have hq : ((w.setFs r.1).setProc p r.2).procs p = some r.2 := by simp
  have hmove : Fs.Moves t d r.1 r.2 r.1 { r.2 with dead := true } :=
    .chdir hr.fs (.refl _) (hr.table p r.2 hq) rfl (.inl rfl)
  have hdead := hr.update hq hmove
  rwa [setProc_idem] at hdead

lemma dest_std (fs : Fs) (t : Ptr) : fs.dest (cstr "1:/stdin") ≠ some (t, []) ∧
    fs.dest (cstr "1:/stdout") ≠ some (t, []) := by
  have hin : parsePath (cstr "1:/stdin") = some (1, cstr "/stdin") ∧
      components (cstr "/stdin") = [cstr "stdin"] := by decide
  have hout : parsePath (cstr "1:/stdout") = some (1, cstr "/stdout") ∧
      components (cstr "/stdout") = [cstr "stdout"] := by decide
  simp [Fs.dest, hin, hout]

lemma ends_procCreate (h : Inv t d w) (accepted : Bool) {cwd : CStr} (hcwd : w.fs.CwdOk cwd) :
    Ends E (fun r => Inv t d r.1) (w.procCreate accepted cwd) := by
  unfold procCreate
  rw [if_neg hcwd.ne_nil, take_of_length_le hcwd.length]
  split_ifs
  · exact h
  · -- the new process with an empty table
    let fs₀ : Fs := { w.fs with brk := w.fs.brk + 1 }
    let pr₀ : FileProc := { fds := fun _ => none, cwd := cwd, dead := false }
    have hk₀ : w.fs.Keeps fs₀ := ⟨rfl, rfl, rfl, rfl, rfl, Nat.le_succ _⟩
    have hfs₀ : Fs.Inv t d 0 fs₀ := h.fs.of_keeps hk₀ rfl
    have hnew : Inv t d ((w.setFs fs₀).setProc w.fs.brk pr₀) := by
      have hold : ∀ {q qr i f}, ((w.setFs fs₀).setProc w.fs.brk pr₀).procs q = some qr →
          qr.fds i = some f → w.procs q = some qr := by
        intro q qr i f hq hi
        by_cases hqb : q = w.fs.brk
        · subst hqb
          obtain rfl : pr₀ = qr := by simpa using hq
          cases hi
        · simpa [hqb] using hq
      refine ⟨hfs₀, fun q hq => ?_, fun q qr hq => ⟨fun i f hi => ?_, fun i j f hi hj => ?_⟩, ?_,
        fun q qr hq => Fs.CwdOk.congr ?_ h.fs hfs₀ hk₀.static⟩
      · have hqb : q ≠ w.fs.brk := Nat.ne_of_gt hq
        simpa [hqb] using h.proc_fresh q (Nat.le_of_succ_le hq)
      · exact (h.table q qr (hold hq hi)).open_fd i f hi
      · exact (h.table q qr (hold hq hi)).inj i j f hi hj
      · intro q q' qr qr' i j f hq hq' hi hj
        exact h.apart q q' qr qr' i j f (hold hq hi) (hold hq' hj) hi hj
      · by_cases hqb : q = w.fs.brk
        · subst hqb
          obtain rfl : pr₀ = qr := by simpa using hq
          exact hcwd
        · exact h.cwd q qr (by simpa [hqb] using hq)
    have hp₀ : ((w.setFs fs₀).setProc w.fs.brk pr₀).procs w.fs.brk = some pr₀ := by simp
    refine (Fs.ends_stdFd hfs₀ (hnew.table _ _ hp₀) rfl (dest_std _ t).1 1).bind fun r hr => ?_
    have h₁ := hnew.update hp₀ hr.1
    rw [setProc_idem] at h₁
    have hp₁ : ((w.setFs r.1).setProc w.fs.brk r.2).procs w.fs.brk = some r.2 := by simp
    have hfree : r.2.fds 1 = none := hr.2 1 (by decide)
    refine (Fs.ends_stdFd h₁.fs (h₁.table _ _ hp₁) hfree (dest_std _ t).2 2).bind fun r' hr' => ?_
    have h₂ := h₁.update hp₁ hr'.1
    rw [setProc_idem] at h₂
    exact ⟨h₂.fs, h₂.proc_fresh, h₂.table, h₂.apart, h₂.cwd⟩

lemma Inv.of_keeps (h : Inv t d w) (hinv : Fs.Inv t d 0 fs') (hk : w.fs.Keeps fs') (io : Io) :
    Inv t d { w with fs := fs', io := io } where
  fs := hinv
  proc_fresh p hp := h.proc_fresh p (hk.brk.trans hp)
  table p pr hp := by
    refine ⟨fun i f hi => ?_, (h.table p pr hp).inj⟩
    rw [hk.files]
    exact (h.table p pr hp).open_fd i f hi
  apart := h.apart
  cwd p pr hp := (h.cwd p pr hp).congr h.fs hinv hk.static

lemma ends_sysSpawn (h : Inv t d w) (hb : 2 + w.fs.handlesOn t < 2 ^ 32) {cwd : CStr}
    (hcwd : w.fs.CwdOk cwd) (path : CStr) (accepted : Bool)
    (hread : ∀ nd, w.fs.Leads path nd → nd.ops.hasRead = true ∨ E .nullCall) :
    Ends E (fun r => Inv t d r.1) (w.sysSpawn cwd path accepted) := by
  refine (Fs.ends_loadProgram h.fs hb w.io path hread).bind fun r hr => ?_
  obtain ⟨fs, io, elf⟩ := r
  cases elf with
  | none => exact h.of_keeps hr.1 hr.2 io
  | some elf =>
    exact ends_procCreate (h.of_keeps hr.1 hr.2 io) accepted (hcwd.congr h.fs hr.1 hr.2.static)

lemma ends_startInit (h : Inv t d w) (hb : 2 + w.fs.handlesOn t < 2 ^ 32) (accepted : Bool) :
    Ends (· ≠ .dangling) (Inv t d) (w.startInit accepted) := by
  refine (Fs.ends_loadProgram h.fs hb w.io _ fun _ _ => .inr nofun).bind fun r hr => ?_
  obtain ⟨fs, io, elf⟩ := r
  cases elf with
  | none => exact fun h => nomatch h
  | some elf =>
    exact (ends_procCreate (h.of_keeps hr.1 hr.2 io) accepted hr.1.cwdOk_root).bind fun r hr => hr

lemma Inv.restrict (h : Inv t d w) {procs : Ptr → Option FileProc} (l : List Ptr)
    (hsub : ∀ p pr, procs p = some pr → w.procs p = some pr) :
    Inv t d { w with procs := procs, procList := l } where
  fs := h.fs
  proc_fresh p hp := by
    by_contra hne
    obtain ⟨pr, hpr⟩ := Option.ne_none_iff_exists'.1 hne
    simpa [h.proc_fresh p hp] using hsub p pr hpr
  table p pr hp := h.table p pr (hsub p pr hp)
  apart p q pr qr i j f hp hq := h.apart p q pr qr i j f (hsub p pr hp) (hsub q qr hq)
  cwd p pr hp := h.cwd p pr (hsub p pr hp)

lemma ends_procCleanup (h : Inv t d w) (hb : 2 + w.fs.handlesOn t < 2 ^ 32) (accepted : Bool) :
    Ends (· ≠ .dangling) (Inv t d) (w.procCleanup accepted) := by
  have hdrop : Inv t d { w with
      procs := fun p => if w.aliveIn p then w.procs p else none
      procList := w.procList.filter fun p => w.aliveIn p } := by
    refine h.restrict _ fun p pr hp => ?_
    split at hp
    · exact hp
    · cases hp
  unfold procCleanup
  dsimp only
  split_ifs
  · exact ends_startInit hdrop hb accepted
  · exact hdrop

/-- One step, as long as the count of the archive's root does not wrap: no freed node or file is
followed, and the invariant is kept. -/
theorem ends_step (h : Inv t d w) (hb : w.fs.handles < 2 ^ 32 - 2) (op : Op) :
    Ends (· ≠ .dangling) (Inv t d) (w.step op) := by
  have hb := Inv.bound hb t
  have hlt : w.fs.handlesOn t < 2 ^ 32 := by omega
  cases op with
  | «open» p path =>
    refine ends_call h fun pr hp => ?_
    exact (Fs.ends_sysOpen h.fs hb (h.table p pr hp) path).bind fun r hr => hr
  | close p fd =>
    refine ends_call h fun pr hp => ?_
    exact (Fs.ends_sysClose h.fs hlt (h.table p pr hp) fd).bind fun r hr => hr
  | seek p fd offset whence =>
    refine ends_call h fun pr hp => ?_
    exact (Fs.ends_sysSeek h.fs (h.table p pr hp) fd offset whence).bind fun r hr => hr
  | listdir p path max =>
    refine ends_call h fun pr hp => ?_
    exact (Fs.ends_sysListdir h.fs hb (h.table p pr hp) path max).bind fun r hr => hr
  | setCwd p user bufSize =>
    refine ends_call h fun pr hp => ?_
    exact (Fs.ends_sysSetCwdBuf h.fs hb (h.table p pr hp) user bufSize).bind fun r hr => hr
  | spawn p path accepted =>
    simp only [step]
    split
    · exact h
    · next pr hp =>
      split_ifs
      · exact h
      · have hspawn := ends_sysSpawn (E := (· ≠ .dangling)) h hb (h.cwd p pr hp) path accepted
          fun _ _ => .inr nofun
        exact hspawn.bind fun r hr => hr
  | probe path =>
    refine (Fs.ends_probe h.fs hb path).bind fun fs' hfs' => ?_
    exact h.of_keeps hfs'.1 hfs'.2 w.io
  | exit p =>
    simp only [step, call]
    split
    · exact h
    · next pr hp =>
      split_ifs
      · exact h
      · exact (ends_die h hlt hp).bind fun r hr => hr
  | kill p target =>
    simp only [step]
    split_ifs
    · split
      · exact h
      · next pr hp => exact (ends_die h hlt hp).bind fun r hr => hr
    · exact h
  | fault p =>
    refine ends_call h fun pr hp => ?_
    exact .chdir h.fs (.refl _) (h.table p pr hp) rfl (.inl rfl)
  | cleanup accepted => exact ends_procCleanup h hb accepted

/-! ### The start -/

lemma devStart_eq (fs : Fs) : fs.devStart =
    { vfs :=
        { nodes := update fs.vfs.nodes fs.brk (some (Fs.rootNode .devfsRoot))
          files := fs.vfs.files
          devfsRoot := some fs.brk
          devfsEntries := Kernel.devices }
      drives := fs.drives.set 1 { root := some fs.brk, label := cstr "dev", present := true }
      tar := fs.tar
      brk := fs.brk + 1 } := by
  simp [Fs.devStart, Kernel.devices, Fs.devfsRegister, Fs.devfsInit, Fs.allocNode, Fs.setDrive,
    Fs.setNode]

/-- The drives after the devices are set up. -/
lemma drives_devStart (hk : (Fs.empty tar).tarfsInit.Keeps fs) :
    fs.devStart.drives = { root := some 0, label := cstr "initrd", present := true } ::
      { root := some fs.brk, label := cstr "dev", present := true } ::
      replicate 6 { root := none, label := [], present := false } := by
  rw [devStart_eq, hk.drives]
  rfl

lemma driveRoot_devStart (hk : (Fs.empty tar).tarfsInit.Keeps fs)
    {num : ℤ} {r : Ptr} (h : fs.devStart.driveRoot num = some r) : r = 0 ∨ r = fs.brk := by
  rw [Fs.driveRoot, drives_devStart hk] at h
  split at h
  · cases h
  · next hnum =>
    obtain ⟨k, rfl⟩ := Int.eq_ofNat_of_zero_le (Int.not_lt.1 (not_or.1 hnum).1)
    rw [Int.toNat_natCast] at h
    rcases k with _ | _ | k
    · exact .inl (by simpa using h.symm)
    · exact .inr (by simpa using h.symm)
    · simp only [getElem?_cons_succ, getElem?_replicate] at h
      split at h <;> simp at h

lemma inv_devStart (hk : (Fs.empty tar).tarfsInit.Keeps fs)
    (hroot : fs.vfs.nodes 0 = some (Fs.rootNode .tarfs))
    (hfresh : ∀ n, fs.brk ≤ n → fs.vfs.nodes n = none)
    (hok : ∀ n nd, fs.vfs.nodes n = some nd → nd.Ok) :
    Fs.Inv 0 fs.brk 0 fs.devStart ∧ fs.devStart.handlesOn 0 = 0 := by
  have hfiles : fs.devStart.vfs.files = fun _ => none := by
    rw [devStart_eq]
    exact hk.files
  have hpos : 0 < fs.brk := hk.brk
  have hbrk : fs.devStart.brk = fs.brk + 1 := by rw [devStart_eq]
  have hnodes : fs.devStart.vfs.nodes =
      update fs.vfs.nodes fs.brk (some (Fs.rootNode .devfsRoot)) := by rw [devStart_eq]
  have htar : fs.devStart.vfs.nodes 0 = some (Fs.rootNode .tarfs) := by
    rw [hnodes, update_of_ne (Nat.ne_of_lt hpos), hroot]
  have hdev : fs.devStart.vfs.nodes fs.brk = some (Fs.rootNode .devfsRoot) := by
    rw [hnodes, update_self]
  have hcount : fs.devStart.handlesOn 0 = 0 := by
    rw [Fs.handlesOn, Fs.fileCount, hfiles]
    exact Finset.card_eq_zero.2 (by simp [Store.keys])
  refine ⟨?_, hcount⟩
  exact
    { node_fresh := fun n hn => by
        rw [hbrk] at hn
        rw [hnodes, update_of_ne (Nat.ne_of_gt hn)]
        exact hfresh n (Nat.le_of_succ_le hn)
      file_fresh := fun f _ => by rw [hfiles]
      node_ok := fun n nd hn => by
        rw [hnodes] at hn
        by_cases hne : n = fs.brk
        · subst hne
          obtain rfl : Fs.rootNode .devfsRoot = nd := by simpa using hn
          exact .inr (.inl ⟨rfl, rfl⟩)
        · exact hok n nd (by simpa [hne] using hn)
      entry_ok := by
        rw [devStart_eq]
        change ∀ e ∈ Kernel.devices, e.2.IsDevice
        decide
      root_dir := fun num r hr => by
        rcases driveRoot_devStart hk hr with rfl | rfl
        · exact ⟨_, htar, rfl⟩
        · exact ⟨_, hdev, rfl⟩
      drive := fun num r hr => driveRoot_devStart hk hr
      archive := by
        rw [Fs.driveRoot, drives_devStart hk]
        rfl
      ne := Nat.ne_of_lt hpos
      devfsRoot := by rw [devStart_eq]
      tarRoot := by
        rw [htar, hcount]
        rfl
      devRoot := ⟨1, hdev⟩
      held := fun f fl hf => by simp [hfiles] at hf
      unique := fun f g fl gl hf => by simp [hfiles] at hf }

/-- The font's node is the one thing that reading the font leaves behind. -/
lemma ends_loadFont (hw : fs.Wf) (io : Io) (font : Bool) :
    Ends (· ≠ .dangling) (fun r => fs.Keeps r.1 ∧ ∃ n nd, FsNode.Made nd ∧
      fs.vfs.nodes n = none ∧ n < r.1.brk ∧
      r.1.vfs.nodes = update fs.vfs.nodes n (some nd)) (fs.loadFont io font) := by
  obtain ⟨fs', res, hres, hr⟩ := Fs.vfsResolve_resolved hw Fs.fontPath
  refine .bind_of_eq hres ?_
  cases res with
  | none => exact fun h => nomatch h
  | some n =>
    have hpath : parsePath Fs.fontPath = some (0, cstr "/etc/Lat2-Terminus16.psf") ∧
        components (cstr "/etc/Lat2-Terminus16.psf") ≠ [] := by decide
    cases hr with
    | root hd => simp [Fs.dest, hpath.1, hpath.2] at hd
    | walked _ _ _ hk hw =>
      cases hw with
      | @found _ nd _ hmade hfree hlt hn =>
        have hnode : fs'.node n = .ok nd := by rw [Fs.node, hn, update_self]
        refine .bind_of_eq hnode ?_
        refine Ends.bind (P := fun _ => True) ?_ fun r _ => ?_
        · cases hops : nd.ops <;> simp [FsNode.read, hops]
        · dsimp only
          split_ifs
          · exact fun h => nomatch h
          · exact ⟨hk, n, nd, hmade, hfree, hlt, hn⟩

lemma ends_firstInit (h : Fs.Inv t d 0 fs) (hb : 2 + fs.handlesOn t < 2 ^ 32) (io : Io)
    (accepted : Bool) : Ends (· ≠ .dangling) (Inv t d)
      (startInit { fs := fs, io := io, procs := fun _ => none, procList := [] } accepted) := by
  have hinv : Inv t d { fs := fs, io := io, procs := fun _ => none, procList := [] } := by
    refine ⟨h, fun _ _ => rfl, fun p pr hp => ?_, fun p q pr qr i j f hp => ?_, fun p pr hp => ?_⟩
    all_goals cases hp
  exact ends_startInit hinv hb accepted

/-- `kidle` establishes the invariant. -/
theorem ends_kidle (tar : List UInt8) (io : Io) (font accepted : Bool) :
    Ends (· ≠ .dangling) (fun w => ∃ d, Inv 0 d w) (kidle tar io font accepted) := by
  have hw := Fs.tarfsInit_wf tar
  refine (ends_loadFont hw io font).bind fun r hr => ?_
  obtain ⟨fs, io⟩ := r
  obtain ⟨hk, n, nd, hmade, hfree, hlt, hnodes⟩ := hr
  have hne : n ≠ 0 := by
    rintro rfl
    cases hfree
  obtain ⟨hinv, hcount⟩ : Fs.Inv 0 fs.brk 0 fs.devStart ∧ fs.devStart.handlesOn 0 = 0 := by
    refine inv_devStart hk ?_ (fun m hm => ?_) fun m nd' hm => ?_
    · rw [hnodes, update_of_ne hne.symm]
      rfl
    · rw [hnodes, update_of_ne (Nat.ne_of_gt (hlt.trans_le hm))]
      exact hw.node_fresh m (hk.brk.trans hm)
    · rw [hnodes] at hm
      by_cases hmn : m = n
      · subst hmn
        obtain rfl : nd = nd' := by simpa using hm
        exact hmade.ok
      · exact hw.node_ok m nd' (by simpa [hmn] using hm)
  have hb : 2 + fs.devStart.handlesOn 0 < 2 ^ 32 := by
    rw [hcount]
    decide
  exact (ends_firstInit hinv hb io accepted).mono fun w hw => ⟨_, hw⟩

lemma inv_of_kidle {io : Io} {font accepted : Bool} {w₀ : Files}
    (h : kidle tar io font accepted = .ok w₀) : ∃ d, Inv 0 d w₀ := by
  have hends := ends_kidle tar io font accepted
  rwa [h] at hends

end Files

end CobjOs
