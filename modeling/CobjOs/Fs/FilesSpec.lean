import CobjOs.Framework.Store
import CobjOs.Fs.Files
import CobjOs.Fs.VfsSpec

/-!
# Nodes and the handles on them

`Fs.Inv t d k fs` ties nodes to handles; `t` and `d` are the roots of the archive and of the
devices.  The `refcount` of the archive's root is one more than the handles on it, plus `k` for
references that a call in progress holds.  Every other node that has a handle has exactly one, and a
`refcount` of 1.  Nodes without a handle are only held by a call in progress, or leaked.

A call takes a node from `vfs_resolve` (`Inv.vfsResolve`) and either releases it
(`Grabbed.release`) or puts it into a file (`Grabbed.allocFile`); `Inv.closeFile` ends a file.
-/

namespace CobjOs

open Function Option

namespace Fs

variable {fl : File} {f : Ptr}

/-- The open files that satisfy `P`. -/
def fileCount (fs : Fs) (P : File → Bool) : ℕ := Store.count fs.vfs.files fs.brk P

/-- The handles on a node that have not been closed. -/
def handlesOn (fs : Fs) (n : Ptr) : ℕ := fs.fileCount fun fl => fl.node = n

/-- All handles that have not been closed. -/
def handles (fs : Fs) : ℕ := fs.fileCount fun _ => true

/-- `kfree` of a file. -/
def eraseFile (fs : Fs) (f : Ptr) : Fs :=
  { fs with vfs := { fs.vfs with files := update fs.vfs.files f none } }

section Count

variable {fs fs' : Fs} {P : File → Bool} (hfresh : ∀ f, fs.brk ≤ f → fs.vfs.files f = none)

include hfresh

lemma fileCount_keeps (hk : fs.Keeps fs') : fs'.fileCount P = fs.fileCount P := by
  rw [fileCount, hk.files]
  exact Store.count_bound hk.brk hfresh

lemma fileCount_allocFile (fl : File) :
    (fs.allocFile fl).1.fileCount P = fs.fileCount P + if P fl then 1 else 0 := by
  have hbound : Store.count fs.vfs.files (fs.brk + 1) P = fs.fileCount P :=
    Store.count_bound (Nat.le_succ _) hfresh
  rw [← hbound]
  exact Store.count_insert (Nat.lt_succ_self fs.brk) (hfresh _ le_rfl)

lemma fileCount_closed {f : Ptr} {fl : File} (hf : fs.vfs.files f = some fl)
    (hk : (fs.eraseFile f).Keeps fs') :
    fs'.fileCount P + (if P fl then 1 else 0) = fs.fileCount P := by
  have hlt : f < fs.brk := Nat.lt_of_not_le fun hle => by simp [hfresh f hle] at hf
  have herase : ∀ g, fs.brk ≤ g → (fs.eraseFile f).vfs.files g = none := by
    intro g hg
    have hne : g ≠ f := Nat.ne_of_gt (hlt.trans_le hg)
    simpa [eraseFile, hne] using hfresh g hg
  rw [fileCount_keeps herase hk]
  exact Store.count_erase hlt hf

end Count

lemma handlesOn_le_handles (fs : Fs) (n : Ptr) : fs.handlesOn n ≤ fs.handles :=
  Store.count_mono fun _ _ => rfl

/-- No handle is on the node. -/
def Unheld (fs : Fs) (n : Ptr) : Prop := ∀ f fl, fs.vfs.files f = some fl → fl.node ≠ n

structure Inv (t d : Ptr) (k : ℕ) (fs : Fs) : Prop extends fs.Wf where
  drive : ∀ num r, fs.driveRoot num = some r → r = t ∨ r = d
  archive : fs.driveRoot 0 = some t
  ne : t ≠ d
  devfsRoot : fs.vfs.devfsRoot = some d
  tarRoot : fs.vfs.nodes t = some { rootNode .tarfs with refcount := 1 + k + fs.handlesOn t }
  devRoot : ∃ rc, fs.vfs.nodes d = some { rootNode .devfsRoot with refcount := rc }
  held : ∀ f fl, fs.vfs.files f = some fl → ∃ nd, fs.vfs.nodes fl.node = some nd ∧
    (fl.node ≠ t → fl.node ≠ d → nd.Made)
  unique : ∀ f g fl gl, fs.vfs.files f = some fl → fs.vfs.files g = some gl → fl.node = gl.node →
    fl.node ≠ t → fl.node ≠ d → f = g

namespace Inv

variable {t d n : Ptr} {k : ℕ} {fs fs' : Fs} {x : Option FsNode}

lemma tar_lt (h : Inv t d k fs) : t < fs.brk :=
  Nat.lt_of_not_le fun hle => by simpa [h.tarRoot] using h.node_fresh t hle

lemma dev_lt (h : Inv t d k fs) : d < fs.brk := by
  obtain ⟨rc, hd⟩ := h.devRoot
  exact Nat.lt_of_not_le fun hle => by simpa [hd] using h.node_fresh d hle

lemma file_lt (h : Inv t d k fs) {f : Ptr} {fl : File} (hf : fs.vfs.files f = some fl) :
    f < fs.brk :=
  Nat.lt_of_not_le fun hle => by simpa [hf] using h.file_fresh f hle

lemma handlesOn_keeps (h : Inv t d k fs) (hk : fs.Keeps fs') (m : Ptr) :
    fs'.handlesOn m = fs.handlesOn m := by
  exact fileCount_keeps h.file_fresh hk

/-! ### Changes of nodes -/

/-- The parts of the invariant that do not depend on the nodes, and the kinds of nodes, after a
change that leaves the files alone. -/
lemma of_nodes {k' : ℕ} (h : Inv t d k fs) (hk : fs.Keeps fs')
    (hfresh : ∀ n, fs'.brk ≤ n → fs'.vfs.nodes n = none)
    (hok : ∀ n nd, fs'.vfs.nodes n = some nd → nd.Ok)
    (htar : fs'.vfs.nodes t = some { rootNode .tarfs with refcount := 1 + k' + fs.handlesOn t })
    (hdev : ∃ rc, fs'.vfs.nodes d = some { rootNode .devfsRoot with refcount := rc })
    (hheld : ∀ f fl, fs.vfs.files f = some fl → fl.node ≠ t → fl.node ≠ d →
      fs'.vfs.nodes fl.node = fs.vfs.nodes fl.node) :
    Inv t d k' fs' where
  node_fresh := hfresh
  file_fresh f hf := by
    rw [hk.files]
    exact h.file_fresh f (hk.brk.trans hf)
  node_ok := hok
  entry_ok := by
    rw [hk.devfsEntries]
    exact h.entry_ok
  root_dir num r hr := by
    rw [hk.driveRoot] at hr
    rcases h.drive num r hr with rfl | rfl
    · exact ⟨_, htar, rfl⟩
    · obtain ⟨rc, hrc⟩ := hdev
      exact ⟨_, hrc, rfl⟩
  drive num r hr := h.drive num r (by rwa [← hk.driveRoot])
  archive := (hk.driveRoot 0).trans h.archive
  ne := h.ne
  devfsRoot := hk.devfsRoot.trans h.devfsRoot
  tarRoot := by rw [htar, h.handlesOn_keeps hk]
  devRoot := hdev
  held f fl hf := by
    rw [hk.files] at hf
    obtain ⟨nd, hnd, hmade⟩ := h.held f fl hf
    by_cases ht : fl.node = t
    · exact ⟨_, ht ▸ htar, fun hne => absurd ht hne⟩
    · by_cases hd : fl.node = d
      · obtain ⟨rc, hrc⟩ := hdev
        exact ⟨_, hd ▸ hrc, fun _ hne => absurd hd hne⟩
      · exact ⟨nd, (hheld f fl hf ht hd).trans hnd, hmade⟩
  unique f g fl gl hf hg := by
    rw [hk.files] at hf hg
    exact h.unique f g fl gl hf hg

lemma update_fresh (h : Inv t d k fs) (hk : fs.Keeps fs')
    (hn : fs'.vfs.nodes = update fs.vfs.nodes n x) (hlt : n < fs'.brk) (m : Ptr)
    (hm : fs'.brk ≤ m) : fs'.vfs.nodes m = none := by
  rw [hn, update_of_ne (Nat.ne_of_gt (hlt.trans_le hm))]
  exact h.node_fresh m (hk.brk.trans hm)

lemma update_ok (h : Inv t d k fs)
    (hn : fs'.vfs.nodes = update fs.vfs.nodes n x) (hx : ∀ nd, x = some nd → nd.Ok)
    (m : Ptr) (nd : FsNode) (hm : fs'.vfs.nodes m = some nd) : nd.Ok := by
  rw [hn] at hm
  by_cases hmn : m = n
  · subst hmn
    exact hx nd (by simpa using hm)
  · exact h.node_ok m nd (by simpa [hmn] using hm)

/-- A node other than the roots that no handle is on is made, changed or freed. -/
lemma update_unheld (h : Inv t d k fs) (hk : fs.Keeps fs')
    (hn : fs'.vfs.nodes = update fs.vfs.nodes n x) (hlt : n < fs'.brk)
    (hx : ∀ nd, x = some nd → nd.Ok) (ht : n ≠ t) (hd : n ≠ d) (hun : fs.Unheld n) :
    Inv t d k fs' := by
  refine h.of_nodes hk (h.update_fresh hk hn hlt) (h.update_ok hn hx) ?_ ?_ fun f fl hf _ _ => ?_
  · rw [hn, update_of_ne ht.symm, h.tarRoot]
  · rw [hn, update_of_ne hd.symm]
    exact h.devRoot
  · rw [hn, update_of_ne (hun f fl hf)]

lemma of_keeps (h : Inv t d k fs) (hk : fs.Keeps fs') (hn : fs'.vfs.nodes = fs.vfs.nodes) :
    Inv t d k fs' := by
  refine h.of_nodes hk (fun m hm => ?_) (fun m nd hm => h.node_ok m nd (hn ▸ hm)) ?_ ?_
    fun f fl _ _ _ => by rw [hn]
  · rw [hn]
    exact h.node_fresh m (hk.brk.trans hm)
  · rw [hn, h.tarRoot]
  · rw [hn]
    exact h.devRoot

/-- The references in progress on the root of the archive change with its `refcount`. -/
lemma setTar (h : Inv t d k fs) (k' : ℕ) :
    Inv t d k' (fs.setNode t { rootNode .tarfs with refcount := 1 + k' + fs.handlesOn t }) := by
  have hk := fs.keeps_setNode t { rootNode .tarfs with refcount := 1 + k' + fs.handlesOn t }
  refine h.of_nodes hk (h.update_fresh hk rfl h.tar_lt) (h.update_ok rfl fun nd hnd => ?_) ?_ ?_
    fun f fl _ hne _ => update_of_ne hne ..
  · obtain rfl := some.inj hnd
    exact .inl ⟨rfl, by simp [rootNode]⟩
  · exact update_self ..
  · obtain ⟨rc, hrc⟩ := h.devRoot
    exact ⟨rc, (update_of_ne h.ne.symm ..).trans hrc⟩

lemma setDev (h : Inv t d k fs) (rc : ℕ) :
    Inv t d k (fs.setNode d { rootNode .devfsRoot with refcount := rc }) := by
  have hk := fs.keeps_setNode d { rootNode .devfsRoot with refcount := rc }
  refine h.of_nodes hk (h.update_fresh hk rfl h.dev_lt) (h.update_ok rfl fun nd hnd => ?_) ?_ ?_
    fun f fl _ _ hne => update_of_ne hne ..
  · obtain rfl := some.inj hnd
    exact .inr (.inl ⟨rfl, rfl⟩)
  · exact (update_of_ne h.ne ..).trans h.tarRoot
  · exact ⟨rc, update_self ..⟩

end Inv

/-! ### Taking a node and giving it up -/

/-- A call in progress holds the node `n`. -/
structure Grabbed (t d : Ptr) (k : ℕ) (n : Ptr) (fs : Fs) : Prop where
  inv : Inv t d (k + if n = t then 1 else 0) fs
  made : n ≠ t → n ≠ d → (∃ nd, fs.vfs.nodes n = some nd ∧ nd.Made) ∧ fs.Unheld n

variable {t d n : Ptr} {k : ℕ} {fs fs' : Fs}

lemma Inv.unheld_of_free (h : Inv t d k fs) (hn : fs.vfs.nodes n = none) : fs.Unheld n := by
  rintro f fl hf rfl
  obtain ⟨nd, hnd, -⟩ := h.held f fl hf
  cases hn.symm.trans hnd

/-- A new node that a walk leaves behind. -/
lemma Inv.add_made (h : Inv t d k fs) (hk : fs.Keeps fs') {nd : FsNode} (hmade : nd.Made)
    (hfree : fs.vfs.nodes n = none) (hlt : n < fs'.brk)
    (hn : fs'.vfs.nodes = update fs.vfs.nodes n (some nd)) :
    n ≠ t ∧ n ≠ d ∧ Inv t d k fs' := by
  have ht : n ≠ t := by
    rintro rfl
    cases hfree.symm.trans h.tarRoot
  have hd : n ≠ d := by
    rintro rfl
    obtain ⟨rc, hrc⟩ := h.devRoot
    cases hfree.symm.trans hrc
  refine ⟨ht, hd, h.update_unheld hk hn hlt (fun nd' hnd' => ?_) ht hd (h.unheld_of_free hfree)⟩
  exact some.inj hnd' ▸ hmade.ok

/-- `vfs_resolve` does not fault, and the node that it returns is held by the caller.  The bound
is for the `refcount` of the archive's root, which is counted up if the path names it. -/
lemma Inv.vfsResolve (h : Inv t d k fs) {path : CStr}
    (hb : fs.dest path = some (t, []) → 2 + k + fs.handlesOn t < 2 ^ 32) :
    ∃ fs' res, fs.vfsResolve path = .ok (fs', res) ∧ fs.Resolved path fs' res ∧
      (res = none → Inv t d k fs') ∧ ∀ n, res = some n → Grabbed t d k n fs' := by
  obtain ⟨fs', res, hres, hr⟩ := vfsResolve_resolved h.toWf path
  refine ⟨fs', res, hres, hr, ?_⟩
  cases hr with
  | noDrive _ heq => exact ⟨fun _ => heq ▸ h, by simp⟩
  | @root r nd hdest hroot heq =>
    refine ⟨by simp, fun n hn => ?_⟩
    obtain rfl := some.inj hn
    obtain ⟨num, hnum⟩ := exists_driveRoot_of_dest hdest
    rcases h.drive num r hnum with rfl | rfl
    · obtain rfl := some.inj (h.tarRoot.symm.trans hroot)
      refine ⟨?_, fun hne => absurd rfl hne⟩
      have hb := hb hdest
      rw [if_pos rfl, heq]
      have hwrap : (1 + k + fs.handlesOn r + 1) % 2 ^ 32 = 1 + (k + 1) + fs.handlesOn r := by
        rw [Nat.mod_eq_of_lt (by omega)]
        omega
      simp only [hwrap]
      exact h.setTar (k + 1)
    · obtain ⟨rc, hrc⟩ := h.devRoot
      obtain rfl := some.inj (hrc.symm.trans hroot)
      refine ⟨?_, fun _ hne => absurd rfl hne⟩
      rw [if_neg h.ne.symm, heq]
      exact h.setDev ((rc + 1) % 2 ^ 32)
  | walked _ _ _ hk hw =>
    cases hw with
    | @found n nd _ hmade hfree hlt hn =>
      refine ⟨by simp, fun n' hn' => ?_⟩
      obtain rfl := some.inj hn'
      obtain ⟨ht, hd, hinv⟩ := h.add_made hk hmade hfree hlt hn
      refine ⟨by rwa [if_neg ht], fun _ _ => ⟨⟨nd, by rw [hn, update_self], hmade⟩, ?_⟩⟩
      intro f fl hf
      rw [hk.files] at hf
      exact h.unheld_of_free hfree f fl hf
    | missing _ hn => exact ⟨fun _ => h.of_keeps hk hn, by simp⟩
    | stuck _ _ hmade _ hfree hlt hn =>
      exact ⟨fun _ => (h.add_made hk hmade hfree hlt hn).2.2, by simp⟩

/-- Releasing a node that is held: a root stays, a node of the archive is freed, a device stays
allocated. -/
lemma Grabbed.release (h : Grabbed t d k n fs) : ∃ fs', fs.release n = .ok fs' ∧
    fs.Keeps fs' ∧ Inv t d k fs' ∧
    (n = t ∨ n = d → ∀ m, (fs'.vfs.nodes m).isSome = (fs.vfs.nodes m).isSome) ∧
    (n ≠ t → n ≠ d → ∀ nd, fs.vfs.nodes n = some nd → nd.type ≠ .device →
      fs'.vfs.nodes = update fs.vfs.nodes n none) := by
  by_cases ht : n = t
  · subst ht
    have hinv := h.inv
    rw [if_pos rfl] at hinv
    refine ⟨fs.setNode n { rootNode .tarfs with refcount := 1 + k + fs.handlesOn n }, ?_,
      keeps_setNode _ _, hinv.setTar k, fun _ m => ?_, fun hne => absurd rfl hne⟩
    · have hrc : 1 + (k + 1) + fs.handlesOn n - 1 = 1 + k + fs.handlesOn n := by omega
      have hpos : 0 < 1 + (k + 1) + fs.handlesOn n := by omega
      have hne : 1 + k + fs.handlesOn n ≠ 0 := by omega
      simp [Fs.release, node, hinv.tarRoot, rootNode, FsOps.hasRelease, Vfs.release, Vfs.dropNode,
        bind, Except.bind, hrc, hpos, hne, setNode]
    · by_cases hm : m = n
      · subst hm
        simp [hinv.tarRoot]
      · simp [hm]
  · have hinv := h.inv
    rw [if_neg ht] at hinv
    by_cases hd : n = d
    · subst hd
      obtain ⟨rc, hrc⟩ := hinv.devRoot
      refine ⟨fs, ?_, .refl fs, hinv, fun _ _ => rfl, fun _ hne => absurd rfl hne⟩
      simp [Fs.release, node, hrc, rootNode, FsOps.hasRelease, Vfs.release, hinv.devfsRoot, bind,
        Except.bind]
    · obtain ⟨⟨nd, hnd, hmade⟩, hun⟩ := h.made ht hd
      have hself : fs.vfs.nodes =
          update (update fs.vfs.nodes n none) n (some nd) := by
        rw [update_idem, ← hnd, update_eq_self]
      have hlt : n < fs.brk := Nat.lt_of_not_le fun hle => by simpa [hnd] using hinv.node_fresh n hle
      by_cases hdev : nd.type = .device
      · refine ⟨fs, ?_, .refl fs, hinv, by simp [ht, hd], fun _ _ nd' hnd' hne => ?_⟩
        · have hops : nd.ops.IsDevice := by
            rcases hmade.2 with ⟨-, hne⟩ | ⟨hops, -⟩
            · exact absurd hdev hne
            · exact hops
          simp [Fs.release, node, hnd, FsNode.hasRelease_of_isDevice hops, bind, Except.bind]
        · obtain rfl := some.inj (hnd.symm.trans hnd')
          exact absurd hdev hne
      · obtain ⟨fs', hrel, hk, hn⟩ := release_made hself (update_self ..) hmade hdev
        exact ⟨fs', hrel, hk, hinv.update_unheld hk hn (hlt.trans_le hk.brk) (by simp) ht hd hun,
          by simp [ht, hd], fun _ _ _ _ _ => hn⟩

/-! ### Files -/

/-- The node that a call holds becomes the node of a new file. -/
lemma Grabbed.allocFile (h : Grabbed t d k n fs) (hfl : fl.node = n) :
    Inv t d k (fs.allocFile fl).1 := by
  have hinv := h.inv
  have hfree : fs.vfs.files fs.brk = none := hinv.file_fresh _ le_rfl
  have hcount : (fs.allocFile fl).1.handlesOn t = fs.handlesOn t + if n = t then 1 else 0 := by
    refine (fileCount_allocFile hinv.file_fresh fl).trans ?_
    simp only [hfl, decide_eq_true_eq]
    rfl
  have hold : ∀ {f gl}, (fs.allocFile fl).1.vfs.files f = some gl → f ≠ fs.brk →
      fs.vfs.files f = some gl := fun hf hne => (update_of_ne hne ..).symm.trans hf
  have hnew : ∀ {gl}, (fs.allocFile fl).1.vfs.files fs.brk = some gl → gl = fl :=
    fun hf => some.inj (hf.symm.trans (update_self ..))
  refine
    { hinv with
      node_fresh := fun m hm => hinv.node_fresh m (Nat.le_of_succ_le hm)
      file_fresh := fun f hf => ?_
      tarRoot := ?_
      held := fun f gl hf => ?_
      unique := fun f g fl' gl hf hg heq ht hd => ?_ }
  · exact (update_of_ne (Nat.ne_of_gt hf) ..).trans (hinv.file_fresh f (Nat.le_of_succ_le hf))
  · have harith : 1 + k + (fs.handlesOn t + if n = t then 1 else 0) =
        1 + (k + if n = t then 1 else 0) + fs.handlesOn t := by omega
    rw [hcount, harith]
    exact hinv.tarRoot
  · by_cases hfb : f = fs.brk
    · subst hfb
      obtain rfl := hnew hf
      rw [hfl]
      by_cases ht : n = t
      · exact ⟨_, (congrArg _ ht).trans hinv.tarRoot, fun hne => absurd ht hne⟩
      · by_cases hd : n = d
        · obtain ⟨rc, hrc⟩ := hinv.devRoot
          exact ⟨_, (congrArg _ hd).trans hrc, fun _ hne => absurd hd hne⟩
        · obtain ⟨⟨nd, hnd, hmade⟩, -⟩ := h.made ht hd
          exact ⟨nd, hnd, fun _ _ => hmade⟩
    · exact hinv.held f gl (hold hf hfb)
  · -- the new file is the only one on its node, which had no handle
    have honly : ∀ {f gl}, fs.vfs.files f = some gl → gl.node = n → n = t ∨ n = d := by
      intro f gl hf hgl
      by_contra hno
      exact (h.made (not_or.1 hno).1 (not_or.1 hno).2).2 f gl hf hgl
    by_cases hfb : f = fs.brk <;> by_cases hgb : g = fs.brk
    · rw [hfb, hgb]
    · subst hfb
      obtain rfl := hnew hf
      rcases honly (hold hg hgb) (heq.symm.trans hfl) with h | h
      · exact absurd (hfl.trans h) ht
      · exact absurd (hfl.trans h) hd
    · subst hgb
      obtain rfl := hnew hg
      rcases honly (hold hf hfb) (heq.trans hfl) with h | h
      · exact absurd (heq.trans (hfl.trans h)) ht
      · exact absurd (heq.trans (hfl.trans h)) hd
    · exact hinv.unique f g fl' gl (hold hf hfb) (hold hg hgb) heq ht hd

lemma Inv.setFile (h : Inv t d k fs) {fl' : File} (hf : fs.vfs.files f = some fl)
    (hnode : fl'.node = fl.node) : Inv t d k (fs.setFile f fl') := by
  have hback : ∀ {g gl}, (fs.setFile f fl').vfs.files g = some gl →
      ∃ gl', fs.vfs.files g = some gl' ∧ gl'.node = gl.node := by
    intro g gl hg
    by_cases hgf : g = f
    · subst hgf
      obtain rfl : fl' = gl := by simpa using hg
      exact ⟨fl, hf, hnode.symm⟩
    · exact ⟨gl, (update_of_ne hgf ..).symm.trans hg, rfl⟩
  have hcount : (fs.setFile f fl').handlesOn t = fs.handlesOn t :=
    Store.count_replace hf (by rw [hnode])
  refine
    { h with
      file_fresh := fun g hg => ?_
      tarRoot := by rw [hcount]; exact h.tarRoot
      held := fun g gl hg => ?_
      unique := fun g g' gl gl' hg hg' heq ht hd => ?_ }
  · have hne : g ≠ f := Nat.ne_of_gt ((h.file_lt hf).trans_le hg)
    exact (update_of_ne hne ..).trans (h.file_fresh g hg)
  · obtain ⟨gl', hg', hgn⟩ := hback hg
    exact hgn ▸ h.held g gl' hg'
  · obtain ⟨gl₁, hg₁, hn₁⟩ := hback hg
    obtain ⟨gl₂, hg₂, hn₂⟩ := hback hg'
    rw [← hn₁] at ht hd
    exact h.unique g g' gl₁ gl₂ hg₁ hg₂ (by rw [hn₁, hn₂, heq]) ht hd

lemma Inv.eraseFile (h : Inv t d k fs) (hf : fs.vfs.files f = some fl) :
    Grabbed t d k fl.node (fs.eraseFile f) := by
  have hcount : (fs.eraseFile f).handlesOn t + (if fl.node = t then 1 else 0) =
      fs.handlesOn t := by
    have hone := fileCount_closed (P := fun fl => decide (fl.node = t)) h.file_fresh hf (.refl _)
    simp only [decide_eq_true_eq] at hone
    exact hone
  have hold : ∀ {g gl}, (fs.eraseFile f).vfs.files g = some gl →
      g ≠ f ∧ fs.vfs.files g = some gl := by
    intro g gl hg
    have hne : g ≠ f := by
      rintro rfl
      cases (update_self ..).symm.trans hg
    exact ⟨hne, (update_of_ne hne ..).symm.trans hg⟩
  refine ⟨?_, fun ht hd => ⟨?_, fun g gl hg heq => ?_⟩⟩
  · refine
      { h with
        file_fresh := fun g hg => ?_
        tarRoot := ?_
        held := fun g gl hg => h.held g gl (hold hg).2
        unique := fun g g' gl gl' hg hg' => h.unique g g' gl gl' (hold hg).2 (hold hg').2 }
    · by_cases hgf : g = f
      · exact hgf ▸ update_self ..
      · exact (update_of_ne hgf ..).trans (h.file_fresh g hg)
    · have harith : 1 + (k + if fl.node = t then 1 else 0) + (fs.eraseFile f).handlesOn t =
          1 + k + fs.handlesOn t := by omega
      rw [harith]
      exact h.tarRoot
  · obtain ⟨nd, hnd, hmade⟩ := h.held f fl hf
    exact ⟨nd, hnd, hmade ht hd⟩
  · obtain ⟨hne, hg⟩ := hold hg
    exact hne (h.unique g f gl fl hg hf heq (heq ▸ ht) (heq ▸ hd))

/-- `file->node->refcount--`. -/
lemma closeFile_eq {nd : FsNode} (hf : fs.vfs.files f = some fl)
    (hnd : fs.vfs.nodes fl.node = some nd) {rc : ℕ}
    (hrc : (nd.refcount + (2 ^ 32 - 1)) % 2 ^ 32 = rc) (hkeep : rc ≠ 0 ∨ nd.ops.hasRelease = false) :
    fs.closeFile f = .ok ((fs.eraseFile f).setNode fl.node { nd with refcount := rc }) := by
  have hno : ¬(rc = 0 ∧ nd.ops.hasRelease = true) := by
    rintro ⟨h0, hrel⟩
    rcases hkeep with h | h
    · exact h h0
    · exact Bool.false_ne_true (h.symm.trans hrel)
  have hclose : fs.vfs.closeFile f =
      some ((fs.eraseFile f).setNode fl.node { nd with refcount := rc }).vfs := by
    simp only [Vfs.closeFile, hf, hnd, hrc, bind, Option.bind, if_neg hno]
    rfl
  rw [Fs.closeFile, hclose]
  rfl

lemma closeFile_release {nd : FsNode} (hf : fs.vfs.files f = some fl)
    (hnd : fs.vfs.nodes fl.node = some nd) (hrc : (nd.refcount + (2 ^ 32 - 1)) % 2 ^ 32 = 0)
    (hrel : nd.ops.hasRelease = true) {v : Vfs}
    (hv : (fs.setNode fl.node { nd with refcount := 0 }).vfs.release fl.node = some v) :
    fs.closeFile f = .ok (eraseFile { fs with vfs := v } f) := by
  simp only [setNode] at hv
  have hclose : fs.vfs.closeFile f = some (eraseFile { fs with vfs := v } f).vfs := by
    simp only [Vfs.closeFile, hf, hnd, hrc, hrel, bind, Option.bind, true_and, if_true, hv]
    rfl
  rw [Fs.closeFile, hclose]
  rfl

/-- Closing a file does not fault; its node is freed if it is one of the archive other than the
root. -/
lemma Inv.closeFile (h : Inv t d 0 fs) (hb : fs.handlesOn t < 2 ^ 32)
    (hf : fs.vfs.files f = some fl) : ∃ fs', fs.closeFile f = .ok fs' ∧
      (fs.eraseFile f).Keeps fs' ∧ Inv t d 0 fs' ∧
      (fl.node = t ∨ fl.node = d →
        ∀ m, (fs'.vfs.nodes m).isSome = (fs.vfs.nodes m).isSome) ∧
      (fl.node ≠ t → fl.node ≠ d → ∀ nd, fs.vfs.nodes fl.node = some nd → nd.type ≠ .device →
        fs'.vfs.nodes = update fs.vfs.nodes fl.node none) := by
  have hg := h.eraseFile hf
  have hsame : ∀ {m n : Ptr} {nd nd' : FsNode}, fs.vfs.nodes n = some nd' →
      (((fs.eraseFile f).setNode n nd).vfs.nodes m).isSome = (fs.vfs.nodes m).isSome := by
    intro m n nd nd' hn
    by_cases hm : m = n
    · subst hm
      simp [hn]
    · simp [hm, Fs.eraseFile]
  by_cases ht : fl.node = t
  · have hinv := hg.inv
    rw [if_pos ht] at hinv
    have hcount : fs.handlesOn t = (fs.eraseFile f).handlesOn t + 1 := by
      have heq : some _ = some _ := hinv.tarRoot.symm.trans h.tarRoot
      have := congrArg FsNode.refcount (some.inj heq)
      dsimp only at this
      omega
    obtain ⟨nd, hnd, hrn⟩ : ∃ nd, fs.vfs.nodes fl.node = some nd ∧
        nd = { rootNode .tarfs with refcount := 1 + 0 + fs.handlesOn t } :=
      ⟨_, ht ▸ h.tarRoot, rfl⟩
    have hrc : (nd.refcount + (2 ^ 32 - 1)) % 2 ^ 32 = 1 + 0 + (fs.eraseFile f).handlesOn t := by
      rw [hrn]
      dsimp only
      omega
    have hpos : 1 + 0 + (fs.eraseFile f).handlesOn t ≠ 0 := by omega
    refine ⟨_, closeFile_eq hf hnd hrc (.inl hpos), keeps_setNode _ _, ?_, fun _ m => hsame hnd,
      fun hne => absurd ht hne⟩
    rw [ht, hrn]
    exact hinv.setTar 0
  · have hinv := hg.inv
    rw [if_neg ht] at hinv
    by_cases hd : fl.node = d
    · obtain ⟨rc, hrc⟩ := h.devRoot
      rw [← hd] at hrc
      have hclose : fs.closeFile f = .ok ((fs.eraseFile f).setNode fl.node
          { rootNode .devfsRoot with refcount := (rc + (2 ^ 32 - 1)) % 2 ^ 32 }) := by
        by_cases h0 : (rc + (2 ^ 32 - 1)) % 2 ^ 32 = 0
        · have hv : (fs.setNode fl.node { rootNode .devfsRoot with refcount := 0 }).vfs.release
              fl.node =
              some (fs.setNode fl.node { rootNode .devfsRoot with refcount := 0 }).vfs := by
            simp [Vfs.release, rootNode, h.devfsRoot, hd]
          rw [h0]
          exact closeFile_release hf hrc h0 rfl hv
        · exact closeFile_eq hf hrc rfl (.inl h0)
      refine ⟨_, hclose, keeps_setNode _ _, ?_, fun _ m => hsame hrc, fun _ hne => absurd hd hne⟩
      rw [hd]
      exact hinv.setDev _
    · obtain ⟨⟨nd, hnd, hmade⟩, hun⟩ := hg.made ht hd
      have hnd' : fs.vfs.nodes fl.node = some nd := hnd
      have hlt : fl.node < fs.brk :=
        Nat.lt_of_not_le fun hle => by simpa [hnd'] using h.node_fresh _ hle
      have hrc : (nd.refcount + (2 ^ 32 - 1)) % 2 ^ 32 = 0 := by
        simp [hmade.1]
      rcases hmade.2 with ⟨hops, -⟩ | ⟨hops, hdev⟩
      · have hrel : (fs.setNode fl.node { nd with refcount := 0 }).vfs.release fl.node =
            some { fs.vfs with nodes := update fs.vfs.nodes fl.node none } := by
          simp [Vfs.release, hops, Vfs.dropNode, setNode]
        refine ⟨_, closeFile_release hf hnd' hrc (by rw [hops]; rfl) hrel,
          ⟨rfl, rfl, rfl, rfl, rfl, le_rfl⟩, ?_, by simp [ht, hd], fun _ _ _ _ _ => rfl⟩
        exact hinv.update_unheld ⟨rfl, rfl, rfl, rfl, rfl, le_rfl⟩ rfl hlt (by simp) ht hd hun
      · refine ⟨_, closeFile_eq hf hnd' hrc (.inr (FsNode.hasRelease_of_isDevice hops)),
          keeps_setNode _ _, ?_, by simp [ht, hd], fun _ _ nd' hnd'' hne => ?_⟩
        · refine hinv.update_unheld (keeps_setNode _ _) rfl hlt (fun nd' hnd'' => ?_) ht hd hun
          obtain rfl := some.inj hnd''
          exact .inr (.inr ⟨hops, hdev⟩)
        · obtain rfl := some.inj (hnd'.symm.trans hnd'')
          exact absurd hdev hne

/-! ## Working directories -/

/-- What paths lead to is the same. -/
structure Static (fs fs' : Fs) : Prop where
  drives : fs'.drives = fs.drives
  tar : fs'.tar = fs.tar
  devfsEntries : fs'.vfs.devfsEntries = fs.vfs.devfsEntries

section Cwd

variable {t d : Ptr} {k k' : ℕ} {fs fs' : Fs} {s : CStr} {nd nd' : FsNode}

lemma Keeps.static (h : fs.Keeps fs') : fs.Static fs' := ⟨h.drives, h.tar, h.devfsEntries⟩

lemma Static.dest (h : fs.Static fs') (path : CStr) : fs'.dest path = fs.dest path := by
  simp only [Fs.dest, Fs.driveRoot, h.drives]

lemma Static.child (h : fs.Static fs') (nd : FsNode) (name : CStr) :
    fs'.child nd name = fs.child nd name := by
  simp only [Fs.child, h.tar, h.devfsEntries]

lemma Static.descend (h : fs.Static fs') (nd : FsNode) (names : List CStr) :
    fs'.descend nd names = fs.descend nd names := by
  induction names generalizing nd with
  | nil => rfl
  | cons name names ih => simp only [Fs.descend, h.child, ih]

/-- What a path leads to, as the last lookup makes it. -/
def Leads (fs : Fs) (s : CStr) (nd : FsNode) : Prop :=
  ∃ root names rn, fs.dest s = some (root, names) ∧ fs.vfs.nodes root = some rn ∧
    fs.descend rn names = some nd

/-- The path leads to a directory. -/
def LeadsToDir (fs : Fs) (s : CStr) : Prop := ∃ nd, fs.Leads s nd ∧ nd.type = .dir

lemma descend_refcount (nd : FsNode) (rc : ℕ) {name : CStr} {names : List CStr} :
    fs.descend { nd with refcount := rc } (name :: names) = fs.descend nd (name :: names) := rfl

/-- The roots of the drives are directories, up to their reference counts the same ones. -/
lemma Inv.root_node (h : Inv t d k fs) (h' : Inv t d k' fs') {num : ℤ} {root : Ptr} {rn : FsNode}
    (hroot : fs.driveRoot num = some root) (hrn : fs.vfs.nodes root = some rn) :
    ∃ rc, fs'.vfs.nodes root = some { rn with refcount := rc } := by
  rcases h.drive num root hroot with rfl | rfl
  · obtain rfl := some.inj (h.tarRoot.symm.trans hrn)
    exact ⟨_, h'.tarRoot⟩
  · obtain ⟨rc, hrc⟩ := h.devRoot
    obtain ⟨rc', hrc'⟩ := h'.devRoot
    obtain rfl := some.inj (hrc.symm.trans hrn)
    exact ⟨rc', hrc'⟩

lemma LeadsToDir.congr (hs : fs.LeadsToDir s) (h : Inv t d k fs) (h' : Inv t d k' fs')
    (hst : fs.Static fs') : fs'.LeadsToDir s := by
  obtain ⟨nd, ⟨root, names, rn, hdest, hrn, hdesc⟩, hdir⟩ := hs
  obtain ⟨num, hnum⟩ := exists_driveRoot_of_dest hdest
  obtain ⟨rc, hrn'⟩ := h.root_node h' hnum hrn
  rw [← hst.dest] at hdest
  cases names with
  | nil =>
    obtain rfl := some.inj hdesc
    exact ⟨_, ⟨root, [], _, hdest, hrn', rfl⟩, hdir⟩
  | cons name names =>
    refine ⟨nd, ⟨root, _, _, hdest, hrn', ?_⟩, hdir⟩
    rw [descend_refcount, hst.descend, hdesc]

/-- `vfs_resolve` returns a directory. -/
def ResolvesToDir (fs : Fs) (s : CStr) : Prop :=
  ∃ fs' n nd, fs.vfsResolve s = .ok (fs', some n) ∧ fs'.vfs.nodes n = some nd ∧ nd.type = .dir

/-- The node that `vfs_resolve` returns is what the path leads to, but for the references. -/
lemma Resolved.leads {n : Ptr} (hr : fs.Resolved s fs' (some n))
    (hn : fs'.vfs.nodes n = some nd) : ∃ rc, fs.Leads s { nd with refcount := rc } := by
  cases hr with
  | @root r rn hd hroot heq =>
    rw [heq] at hn
    obtain rfl : { rn with refcount := (rn.refcount + 1) % 2 ^ 32 } = nd := by simpa using hn
    exact ⟨rn.refcount, _, _, rn, hd, hroot, rfl⟩
  | walked hd _ hroot _ hw =>
    cases hw with
    | found hd' _ _ _ hnodes =>
      rw [hnodes, update_self] at hn
      obtain rfl := some.inj hn
      exact ⟨_, _, _, _, hd, hroot, hd'⟩

lemma Resolved.leadsToDir {n : Ptr} (hr : fs.Resolved s fs' (some n))
    (hn : fs'.vfs.nodes n = some nd) (hdir : nd.type = .dir) : fs.LeadsToDir s := by
  obtain ⟨rc, hleads⟩ := hr.leads hn
  exact ⟨_, hleads, hdir⟩

lemma LeadsToDir.resolves (hs : fs.LeadsToDir s) (hw : fs.Wf) : fs.ResolvesToDir s := by
  obtain ⟨fs', res, hres, hr⟩ := vfsResolve_resolved hw s
  obtain ⟨nd, ⟨root, names, rn, hdest, hrn, hdesc⟩, hdir⟩ := hs
  cases hr with
  | noDrive hd => cases hd.symm.trans hdest
  | @root r rn' hd hroot heq =>
    obtain ⟨rfl, rfl⟩ := Prod.mk.inj (some.inj (hd.symm.trans hdest))
    obtain rfl := some.inj (hroot.symm.trans hrn)
    obtain rfl := some.inj hdesc
    refine ⟨fs', r, { rn' with refcount := (rn'.refcount + 1) % 2 ^ 32 }, hres, ?_, hdir⟩
    simp [heq]
  | walked hd _ hroot _ hw =>
    obtain ⟨rfl, rfl⟩ := Prod.mk.inj (some.inj (hd.symm.trans hdest))
    obtain rfl := some.inj (hroot.symm.trans hrn)
    cases hw with
    | found hd' _ _ _ hnodes =>
      obtain rfl := some.inj (hd'.symm.trans hdesc)
      exact ⟨fs', _, _, hres, by rw [hnodes]; simp, hdir⟩
    | missing hd' => cases hd'.symm.trans hdesc
    | stuck hd' => cases hd'.symm.trans hdesc

/-- What `proc->cwd` can be. -/
structure CwdOk (fs : Fs) (s : CStr) : Prop where
  length : s.length ≤ 255
  nul : 0 ∉ s
  dir : fs.LeadsToDir s

lemma CwdOk.congr (hs : fs.CwdOk s) (h : Inv t d k fs) (h' : Inv t d k' fs')
    (hst : fs.Static fs') : fs'.CwdOk s := ⟨hs.length, hs.nul, hs.dir.congr h h' hst⟩

lemma CwdOk.ne_nil (hs : fs.CwdOk s) : s ≠ [] := by
  rintro rfl
  obtain ⟨nd, ⟨root, names, rn, hdest, -⟩, -⟩ := hs.dir
  cases hdest

/-- The root of the archive. -/
lemma Inv.cwdOk_root (h : Inv t d k fs) : fs.CwdOk (cstr "0:/") where
  length := by decide
  nul := by decide
  dir := by
    have hparse : parsePath (cstr "0:/") = some (0, [slash]) ∧ components [slash] = [] := by decide
    refine ⟨_, ⟨t, [], _, ?_, h.tarRoot, rfl⟩, rfl⟩
    rw [dest, hparse.1, bind_some]
    dsimp only
    rw [h.archive, hparse.2]
    rfl

lemma Leads.unique (h : fs.Leads s nd) (h' : fs.Leads s nd') : nd = nd' := by
  obtain ⟨root, names, rn, hdest, hroot, hdesc⟩ := h
  obtain ⟨root', names', rn', hdest', hroot', hdesc'⟩ := h'
  obtain ⟨rfl, rfl⟩ := Prod.mk.inj (some.inj (hdest.symm.trans hdest'))
  obtain rfl := some.inj (hroot.symm.trans hroot')
  exact some.inj (hdesc.symm.trans hdesc')

lemma Leads.congr (hs : fs.Leads s nd) (hne : ∀ root, fs.dest s ≠ some (root, []))
    (h : Inv t d k fs) (h' : Inv t d k' fs') (hst : fs.Static fs') : fs'.Leads s nd := by
  obtain ⟨root, names, rn, hdest, hrn, hdesc⟩ := hs
  obtain ⟨num, hnum⟩ := exists_driveRoot_of_dest hdest
  obtain ⟨rc, hrn'⟩ := h.root_node h' hnum hrn
  cases names with
  | nil => exact absurd hdest (hne root)
  | cons name names =>
    refine ⟨root, _, _, (hst.dest s).trans hdest, hrn', ?_⟩
    rw [descend_refcount, hst.descend, hdesc]

/-! ## Devices on the way -/

/-- The path does not come to a device. -/
def AvoidsDevices (fs : Fs) (s : CStr) : Prop :=
  ∀ root names rn, fs.dest s = some (root, names) → fs.vfs.nodes root = some rn →
    ¬fs.MeetsDevice rn names

lemma AvoidsDevices.type (h : fs.AvoidsDevices s) (hl : fs.Leads s nd) :
    nd.type ≠ .device := by
  obtain ⟨root, names, rn, hdest, hroot, hdesc⟩ := hl
  exact fun hdev => h root names rn hdest hroot ⟨names, nd, List.prefix_refl _, hdesc, hdev⟩

lemma Resolved.not_leads (h : fs.Resolved s fs' none) : ¬fs.Leads s nd := by
  rintro ⟨root, names, rn, hdest, hroot, hdesc⟩
  cases h with
  | noDrive hd => cases hd.symm.trans hdest
  | walked hd _ hr _ hw =>
    obtain ⟨rfl, rfl⟩ := Prod.mk.inj (some.inj (hd.symm.trans hdest))
    obtain rfl := some.inj (hr.symm.trans hroot)
    cases hw with
    | missing hno => cases hno.symm.trans hdesc
    | stuck hno => cases hno.symm.trans hdesc

/-- What is below a node of the archive is in the archive, and no device. -/
lemma descend_tarfs {names : List CStr} (hops : nd.ops = .tarfs)
    (htype : nd.type ≠ .device) (h : fs.descend nd names = some nd') : nd'.type ≠ .device := by
  induction names generalizing nd with
  | nil =>
    obtain rfl := some.inj h
    exact htype
  | cons name names ih =>
    rw [descend] at h
    split_ifs at h
    obtain ⟨c, hc, h⟩ := bind_eq_some_iff.1 h
    rw [child, hops] at hc
    obtain ⟨hdr, -, rfl⟩ := map_eq_some_iff.1 hc
    refine ih rfl ?_ h
    simp only [tarfsMakeNode, Tar.Header.nodeType]
    split <;> simp

lemma Inv.avoidsDevices (h : Inv t d k fs) {rel : CStr} (hs : parsePath s = some (0, rel)) :
    fs.AvoidsDevices s := by
  intro root names rn hdest hroot
  rw [dest, hs, bind_some] at hdest
  obtain ⟨r, hr, heq⟩ := map_eq_some_iff.1 hdest
  obtain ⟨rfl, -⟩ := Prod.mk.inj heq
  obtain rfl := some.inj (h.archive.symm.trans hr)
  obtain rfl := some.inj (h.tarRoot.symm.trans hroot)
  rintro ⟨pre, dev, -, hdesc, hdev⟩
  exact descend_tarfs rfl (by simp [rootNode]) hdesc hdev

end Cwd

end Fs

end CobjOs
