import CobjOs.Fs.Vfs

/-!
# What `vfs_resolve` does to the nodes

The walk makes a node for every component and releases it when it goes on.  `Fs.descend` is what
the components lead to, without the nodes that come and go.  `vfsResolve_resolved` is the
specification of the whole function: it never faults, all nodes that existed stay as they were
(the reference count of a root that is returned apart), and at most one new node remains, the one
returned or a device at which the walk got stuck, whose table has no `release`.
-/

namespace CobjOs

open Function

/-! ## Kinds of nodes -/

namespace FsNode

/-- The combinations of type and operation table that exist. -/
def Ok (nd : FsNode) : Prop :=
  (nd.ops = .tarfs ∧ nd.type ≠ .device) ∨ (nd.ops = .devfsRoot ∧ nd.type = .dir) ∨
    (nd.ops.IsDevice ∧ nd.type = .device)

/-- The nodes that a lookup makes. -/
def Made (nd : FsNode) : Prop :=
  nd.refcount = 1 ∧ ((nd.ops = .tarfs ∧ nd.type ≠ .device) ∨ (nd.ops.IsDevice ∧ nd.type = .device))

variable {nd : FsNode}

lemma Made.ok (h : nd.Made) : nd.Ok := by
  rcases h.2 with h | h
  · exact .inl h
  · exact .inr (.inr h)

/-- A directory has a table with `lookup` and `readdir`. -/
lemma Ok.hasLookup (h : nd.Ok) (hdir : nd.type = .dir) :
    nd.ops.hasLookup = true ∧ nd.ops.hasReaddir = true := by
  rcases h with ⟨hops, -⟩ | ⟨hops, -⟩ | ⟨-, htype⟩
  · simp [hops, FsOps.hasLookup, FsOps.hasReaddir]
  · simp [hops, FsOps.hasLookup, FsOps.hasReaddir]
  · rw [htype] at hdir
    cases hdir

lemma hasRelease_of_isDevice {ops : FsOps} (h : ops.IsDevice) :
    ops.hasRelease = false := by
  cases ops <;> simp_all [FsOps.IsDevice, FsOps.hasRelease]

end FsNode

namespace Fs

/-- The file system between calls: identities are fresh, nodes are of one of the kinds, and
devices are registered with device tables. -/
structure Wf (fs : Fs) : Prop where
  node_fresh : ∀ n, fs.brk ≤ n → fs.vfs.nodes n = none
  file_fresh : ∀ f, fs.brk ≤ f → fs.vfs.files f = none
  node_ok : ∀ n nd, fs.vfs.nodes n = some nd → nd.Ok
  entry_ok : ∀ e ∈ fs.vfs.devfsEntries, e.2.IsDevice
  root_dir : ∀ num r, fs.driveRoot num = some r →
    ∃ nd, fs.vfs.nodes r = some nd ∧ nd.type = .dir

/-- Everything but the nodes is as before. -/
structure Keeps (fs fs' : Fs) : Prop where
  files : fs'.vfs.files = fs.vfs.files
  devfsRoot : fs'.vfs.devfsRoot = fs.vfs.devfsRoot
  devfsEntries : fs'.vfs.devfsEntries = fs.vfs.devfsEntries
  drives : fs'.drives = fs.drives
  tar : fs'.tar = fs.tar
  brk : fs.brk ≤ fs'.brk

variable {fs fs' fs'' : Fs} {name path : CStr} {names : List CStr} {res : Option Ptr}

lemma Keeps.refl (fs : Fs) : fs.Keeps fs := ⟨rfl, rfl, rfl, rfl, rfl, le_rfl⟩

lemma Keeps.trans (h : fs.Keeps fs') (h' : fs'.Keeps fs'') : fs.Keeps fs'' where
  files := h'.files.trans h.files
  devfsRoot := h'.devfsRoot.trans h.devfsRoot
  devfsEntries := h'.devfsEntries.trans h.devfsEntries
  drives := h'.drives.trans h.drives
  tar := h'.tar.trans h.tar
  brk := h.brk.trans h'.brk

lemma nodes_of_node {n : Ptr} {nd : FsNode} (h : fs.node n = .ok nd) :
    fs.vfs.nodes n = some nd := by
  rw [node] at h
  cases hn : fs.vfs.nodes n with
  | none => simp [hn] at h
  | some nd' =>
    rw [hn] at h
    rw [Except.ok.inj h]

lemma keeps_setNode (n : Ptr) (nd : FsNode) : fs.Keeps (fs.setNode n nd) :=
  ⟨rfl, rfl, rfl, rfl, rfl, le_rfl⟩

lemma dropNode_eq (v : Vfs) (n : Ptr) (nd : FsNode) :
    ∃ x, v.dropNode n nd = { v with nodes := update v.nodes n x } := by
  unfold Vfs.dropNode
  generalize (if 0 < nd.refcount then nd.refcount - 1 else nd.refcount) = rc
  by_cases hrc : rc = 0
  · exact ⟨none, if_pos hrc⟩
  · exact ⟨_, if_neg hrc⟩

lemma keeps_dropNode (n : Ptr) (nd : FsNode) :
    fs.Keeps { fs with vfs := fs.vfs.dropNode n nd } := by
  obtain ⟨x, hx⟩ := dropNode_eq fs.vfs n nd
  rw [hx]
  exact ⟨rfl, rfl, rfl, rfl, rfl, le_rfl⟩

lemma Keeps.driveRoot (h : fs.Keeps fs') (num : ℤ) : fs'.driveRoot num = fs.driveRoot num := by
  rw [Fs.driveRoot, Fs.driveRoot, h.drives]

/-! ## What the components lead to -/

/-- The node at the end of the components, as the last lookup makes it. -/
def descend (fs : Fs) : FsNode → List CStr → Option FsNode
  | nd, [] => some nd
  | nd, name :: names =>
    if nd.type = .dir then (fs.child nd name).bind fun c => descend fs c names else none

lemma Keeps.child (h : fs.Keeps fs') (nd : FsNode) (name : CStr) :
    fs'.child nd name = fs.child nd name := by
  rw [Fs.child, Fs.child, h.tar, h.devfsEntries]

lemma Keeps.descend (h : fs.Keeps fs') (nd : FsNode) (names : List CStr) :
    fs'.descend nd names = fs.descend nd names := by
  induction names generalizing nd with
  | nil => rfl
  | cons name names ih => simp only [Fs.descend, h.child, ih]

lemma child_made (hent : ∀ e ∈ fs.vfs.devfsEntries, e.2.IsDevice) {dir nd : FsNode}
    (h : fs.child dir name = some nd) : nd.Made := by
  unfold child at h
  split at h
  · obtain ⟨hdr, -, rfl⟩ := Option.map_eq_some_iff.1 h
    refine ⟨rfl, .inl ⟨rfl, ?_⟩⟩
    simp only [tarfsMakeNode, Tar.Header.nodeType]
    split <;> simp
  · obtain ⟨e, he, rfl⟩ := Option.map_eq_some_iff.1 h
    exact ⟨rfl, .inr ⟨hent e (List.mem_of_find?_eq_some he), rfl⟩⟩
  · cases h
  · cases h
  · cases h
  · cases h
  · cases h

/-- A path meets a device if it names one or goes on behind one. -/
def MeetsDevice (fs : Fs) (nd : FsNode) (names : List CStr) : Prop :=
  ∃ pre dev, pre <+: names ∧ fs.descend nd pre = some dev ∧ dev.type = .device

/-! ## The walk -/

/-- How the nodes can stand after a walk that started below `nodes`: the walk ends in a new
node, in nothing, or it is stuck at a device that stays allocated. -/
inductive Walked (fs : Fs) (nd₀ : FsNode) (names : List CStr) (nodes : Ptr → Option FsNode)
    (fs' : Fs) : Option Ptr → Prop
  | found {n : Ptr} {nd : FsNode} (hdesc : fs.descend nd₀ names = some nd) (hmade : nd.Made)
      (hfresh : nodes n = none) (hbrk : n < fs'.brk)
      (hnodes : fs'.vfs.nodes = update nodes n (some nd)) :
      Walked fs nd₀ names nodes fs' (some n)
  | missing (hdesc : fs.descend nd₀ names = none) (hnodes : fs'.vfs.nodes = nodes) :
      Walked fs nd₀ names nodes fs' none
  | stuck {n : Ptr} {nd : FsNode} (hdesc : fs.descend nd₀ names = none)
      (hmeets : fs.MeetsDevice nd₀ names) (hmade : nd.Made) (hdev : nd.type = .device)
      (hfresh : nodes n = none) (hbrk : n < fs'.brk)
      (hnodes : fs'.vfs.nodes = update nodes n (some nd)) :
      Walked fs nd₀ names nodes fs' none

variable {nodes : Ptr → Option FsNode} {root cur : Ptr} {nd : FsNode}

lemma release_made (hn : fs.vfs.nodes = update nodes cur (some nd))
    (hfresh : nodes cur = none) (hmade : nd.Made) (hdev : nd.type ≠ .device) :
    ∃ fs', fs.release cur = .ok fs' ∧ fs.Keeps fs' ∧ fs'.vfs.nodes = nodes := by
  have hops : nd.ops = .tarfs := by
    rcases hmade.2 with ⟨h, -⟩ | ⟨-, h⟩
    · exact h
    · exact absurd h hdev
  have hcur : fs.vfs.nodes cur = some nd := by rw [hn, update_self]
  refine ⟨{ fs with vfs := fs.vfs.dropNode cur nd }, ?_, ?_, ?_⟩
  · simp [release, node, hcur, hops, FsOps.hasRelease, Vfs.release, bind, Except.bind]
  · exact keeps_dropNode cur nd
  · simp only [Vfs.dropNode, hmade.1]
    funext m
    by_cases hm : m = cur
    · subst hm
      simp [hfresh]
    · simp [hn, hm]

lemma leave_made (hne : cur ≠ root) (hn : fs.vfs.nodes = update nodes cur (some nd))
    (hfresh : nodes cur = none) (hmade : nd.Made) (hdev : nd.type ≠ .device) :
    ∃ fs', fs.leave root cur = .ok fs' ∧ fs.Keeps fs' ∧ fs'.vfs.nodes = nodes := by
  rw [leave, if_neg hne]
  exact release_made hn hfresh hmade hdev

lemma descend_cons (hdir : nd.type = .dir) (name : CStr) (names : List CStr) :
    fs.descend nd (name :: names) = (fs.child nd name).bind fun c => fs.descend c names := by
  rw [descend, if_pos hdir]

lemma descend_cons_of_ne (hdir : nd.type ≠ .dir) (name : CStr) (names : List CStr) :
    fs.descend nd (name :: names) = none := by
  rw [descend, if_neg hdir]

lemma MeetsDevice.cons (hdir : nd.type = .dir) {c : FsNode}
    (hc : fs.child nd name = some c) (h : fs.MeetsDevice c names) :
    fs.MeetsDevice nd (name :: names) := by
  obtain ⟨pre, dev, hpre, hdesc, hdev⟩ := h
  refine ⟨name :: pre, dev, by simpa using hpre, ?_, hdev⟩
  rw [descend_cons hdir, hc]
  exact hdesc

lemma Walked.cons (hdir : nd.type = .dir) {c : FsNode}
    (hc : fs.child nd name = some c) (h : fs.Walked c names nodes fs' res) :
    fs.Walked nd (name :: names) nodes fs' res := by
  have hdesc : fs.descend nd (name :: names) = fs.descend c names := by
    rw [descend_cons hdir, hc]
    rfl
  cases h with
  | found h hmade hfresh hbrk hnodes => exact .found (hdesc.trans h) hmade hfresh hbrk hnodes
  | missing h hnodes => exact .missing (hdesc.trans h) hnodes
  | stuck h hmeets hmade hdev hfresh hbrk hnodes =>
    exact .stuck (hdesc.trans h) (hmeets.cons hdir hc) hmade hdev hfresh hbrk hnodes

lemma Walked.congr (hk : fs.Keeps fs')
    (h : fs'.Walked nd names nodes fs'' res) : fs.Walked nd names nodes fs'' res := by
  cases h with
  | found h hmade hfresh hbrk hnodes =>
    exact .found ((hk.descend nd names).symm.trans h) hmade hfresh hbrk hnodes
  | missing h hnodes => exact .missing ((hk.descend nd names).symm.trans h) hnodes
  | stuck h hmeets hmade hdev hfresh hbrk hnodes =>
    obtain ⟨pre, dev, hpre, hdesc, hd⟩ := hmeets
    exact .stuck ((hk.descend nd names).symm.trans h)
      ⟨pre, dev, hpre, (hk.descend nd pre).symm.trans hdesc, hd⟩ hmade hdev hfresh hbrk hnodes

lemma lookup_eq (hok : nd.Ok) (hdir : nd.type = .dir) (name : CStr) :
    fs.lookup nd name = match fs.child nd name with
      | some c => .ok ((fs.allocNode c).1, some fs.brk)
      | none => .ok (fs, none) := by
  rw [lookup, if_pos (hok.hasLookup hdir).1]
  rfl

lemma keeps_allocNode (c : FsNode) : fs.Keeps (fs.allocNode c).1 :=
  ⟨rfl, rfl, rfl, rfl, rfl, Nat.le_succ _⟩

/-- The walk from a node that a lookup made.  By induction on the components: the node is
released, and the walk goes on at the node of its child. -/
lemma walk_made (hent : ∀ e ∈ fs.vfs.devfsEntries, e.2.IsDevice) (names : List CStr)
    (hn : fs.vfs.nodes = update nodes cur (some nd)) (hfresh : nodes cur = none)
    (hbrk : ∀ n, fs.brk ≤ n → nodes n = none) (hcur : cur < fs.brk) (hmade : nd.Made)
    (hroot : nodes root ≠ none) :
    ∃ fs' res, walk root names cur fs = .ok (fs', res) ∧ fs.Keeps fs' ∧
      fs.Walked nd names nodes fs' res := by
  have hne : cur ≠ root := fun h => hroot (h ▸ hfresh)
  induction names generalizing fs cur nd with
  | nil => exact ⟨fs, some cur, rfl, .refl fs, .found rfl hmade hfresh hcur hn⟩
  | cons name names ih =>
    have hnode : fs.node cur = .ok nd := by rw [node, hn, update_self]
    by_cases hdir : nd.type = .dir
    · have hlook := (hmade.ok.hasLookup hdir).1
      have hdev : nd.type ≠ .device := by simp [hdir]
      cases hc : fs.child nd name with
      | none =>
        obtain ⟨fs', hleave, hk, hnodes⟩ := leave_made hne hn hfresh hmade hdev
        refine ⟨fs', none, ?_, hk, .missing (by rw [descend_cons hdir, hc]; rfl) hnodes⟩
        simp [walk, hnode, hdir, hlook, lookup_eq hmade.ok hdir, hc, hleave, bind, Except.bind]
      | some c =>
        have hbn : nodes fs.brk = none := hbrk _ le_rfl
        have hn₁ : (fs.allocNode c).1.vfs.nodes =
            update (update nodes fs.brk (some c)) cur (some nd) := by
          rw [update_comm (Nat.ne_of_gt hcur), ← hn]
          rfl
        obtain ⟨fs₂, hleave, hk₂, hn₂⟩ := leave_made hne hn₁
          (by rw [update_of_ne (Nat.ne_of_lt hcur), hfresh]) hmade hdev
        have hk := (keeps_allocNode c).trans hk₂
        have hcm : c.Made := child_made hent hc
        obtain ⟨fs', res, hwalk, hk', hw⟩ := ih (by rw [hk.devfsEntries]; exact hent) hn₂ hbn
          (fun n hle => hbrk n (hk.brk.trans hle)) hk₂.brk hcm (fun h => hroot (h ▸ hbn))
        refine ⟨fs', res, ?_, hk.trans hk', (hw.congr hk).cons hdir hc⟩
        simp [walk, hnode, hdir, hlook, lookup_eq hmade.ok hdir, hc, hleave, bind, Except.bind, hwalk]
    · by_cases hdev : nd.type = .device
      · -- a device is not a directory, and its table has no `release`
        have hdo : nd.ops.IsDevice := by
          rcases hmade.2 with ⟨-, h⟩ | ⟨h, -⟩
          · exact absurd hdev h
          · exact h
        refine ⟨fs, none, ?_, .refl fs, .stuck (descend_cons_of_ne hdir name names)
          ⟨[], nd, List.nil_prefix, rfl, hdev⟩ hmade hdev hfresh hcur hn⟩
        simp [walk, hnode, hdir, leave, hne, release, FsNode.hasRelease_of_isDevice hdo, bind,
          Except.bind]
      · obtain ⟨fs', hleave, hk, hnodes⟩ := leave_made hne hn hfresh hmade hdev
        refine ⟨fs', none, ?_, hk, .missing (descend_cons_of_ne hdir name names) hnodes⟩
        simp [walk, hnode, hdir, hleave, bind, Except.bind]

lemma walk_root (hw : fs.Wf) (hroot : fs.vfs.nodes root = some nd) (hdir : nd.type = .dir)
    (name : CStr) (names : List CStr) :
    ∃ fs' res, walk root (name :: names) root fs = .ok (fs', res) ∧ fs.Keeps fs' ∧
      fs.Walked nd (name :: names) fs.vfs.nodes fs' res := by
  have hnode : fs.node root = .ok nd := by rw [node, hroot]
  have hok := hw.node_ok root nd hroot
  have hlook := (hok.hasLookup hdir).1
  cases hc : fs.child nd name with
  | none =>
    refine ⟨fs, none, ?_, .refl fs, .missing (by rw [descend_cons hdir, hc]; rfl) rfl⟩
    simp [walk, hnode, hdir, hlook, lookup_eq hok hdir, hc, leave, bind, Except.bind]
  | some c =>
    have hk := fs.keeps_allocNode c
    have hbn : fs.vfs.nodes fs.brk = none := hw.node_fresh _ le_rfl
    have hnodes : (fs.allocNode c).1.vfs.nodes = update fs.vfs.nodes fs.brk (some c) := rfl
    have hne : fs.vfs.nodes root ≠ none := by simp [hroot]
    have hent : ∀ e ∈ (fs.allocNode c).1.vfs.devfsEntries, e.2.IsDevice := hw.entry_ok
    obtain ⟨fs', res, hwalk, hk', hwd⟩ := walk_made hent names hnodes hbn
      (fun n hn => hw.node_fresh n (Nat.le_of_succ_le hn)) (Nat.lt_succ_self _)
      (child_made hw.entry_ok hc) hne
    refine ⟨fs', res, ?_, hk.trans hk', (hwd.congr hk).cons hdir hc⟩
    simp [walk, hnode, hdir, hlook, lookup_eq hok hdir, hc, leave, bind, Except.bind, hwalk]

/-! ## The whole function -/

/-- The root and the components of a path. -/
def dest (fs : Fs) (path : CStr) : Option (Ptr × List CStr) :=
  (parsePath path).bind fun (num, rel) => (fs.driveRoot num).map fun root => (root, components rel)

/-- How `vfs_resolve` can end: the path names no drive, or a root, which is counted up, or it is
walked from a root. -/
inductive Resolved (fs : Fs) (path : CStr) (fs' : Fs) : Option Ptr → Prop
  | noDrive (hdest : fs.dest path = none) (heq : fs' = fs) : Resolved fs path fs' none
  | root {root : Ptr} {nd : FsNode} (hdest : fs.dest path = some (root, []))
      (hroot : fs.vfs.nodes root = some nd)
      (heq : fs' = fs.setNode root { nd with refcount := (nd.refcount + 1) % 2 ^ 32 }) :
      Resolved fs path fs' (some root)
  | walked {root : Ptr} {nd : FsNode} {names : List CStr} {res : Option Ptr}
      (hdest : fs.dest path = some (root, names)) (hne : names ≠ [])
      (hroot : fs.vfs.nodes root = some nd) (hk : fs.Keeps fs')
      (hw : fs.Walked nd names fs.vfs.nodes fs' res) : Resolved fs path fs' res

lemma exists_driveRoot_of_dest {root : Ptr}
    (h : fs.dest path = some (root, names)) : ∃ num, fs.driveRoot num = some root := by
  obtain ⟨⟨num, rel⟩, -, h⟩ := Option.bind_eq_some_iff.1 h
  obtain ⟨r, hr, heq⟩ := Option.map_eq_some_iff.1 h
  exact ⟨num, by rw [hr, (Prod.mk.inj heq).1]⟩

/-- `vfs_resolve` in terms of the root and the components. -/
lemma vfsResolve_eq (fs : Fs) (path : CStr) :
    fs.vfsResolve path = (match fs.dest path with
      | none => .ok (fs, none)
      | some (root, names) => do
        let (fs, res) ← walk root names root fs
        if res = some root then
          let nd ← fs.node root
          .ok (fs.setNode root { nd with refcount := (nd.refcount + 1) % 2 ^ 32 }, res)
        else .ok (fs, res)) := by
  unfold vfsResolve dest
  cases parsePath path with
  | none => rfl
  | some p =>
    simp only [Option.bind_some]
    cases fs.driveRoot p.1 <;> rfl

theorem vfsResolve_resolved (hw : fs.Wf) (path : CStr) :
    ∃ fs' res, fs.vfsResolve path = .ok (fs', res) ∧ fs.Resolved path fs' res := by
  rw [vfsResolve_eq]
  cases hdest : fs.dest path with
  | none => exact ⟨fs, none, rfl, .noDrive hdest rfl⟩
  | some p =>
    obtain ⟨root, names⟩ := p
    obtain ⟨num, hnum⟩ := exists_driveRoot_of_dest hdest
    obtain ⟨nd, hroot, hdir⟩ := hw.root_dir num root hnum
    cases names with
    | nil =>
      refine ⟨_, some root, ?_, .root hdest hroot rfl⟩
      simp [walk, node, hroot, bind, Except.bind]
    | cons name names =>
      obtain ⟨fs', res, hwalk, hk, hwd⟩ := walk_root hw hroot hdir name names
      -- a node that the walk ends in is new, so it is not the root
      have hne : res ≠ some root := by
        rintro rfl
        cases hwd with
        | found _ _ hfresh => simp [hroot] at hfresh
      refine ⟨fs', res, ?_, .walked hdest (List.cons_ne_nil _ _) hroot hk hwd⟩
      simp [hwalk, hne, bind, Except.bind]

lemma Resolved.keeps (h : fs.Resolved path fs' res) :
    fs.Keeps fs' := by
  cases h with
  | noDrive _ heq => exact heq ▸ .refl fs
  | root _ _ heq => exact heq ▸ keeps_setNode _ _
  | walked _ _ _ hk => exact hk

/-! ## The start -/

lemma tarfsInit_eq (tar : List UInt8) : (empty tar).tarfsInit =
    { vfs :=
        { nodes := update (fun _ => none) 0 (some (rootNode .tarfs))
          files := fun _ => none
          devfsRoot := none
          devfsEntries := [] }
      drives := { root := some 0, label := cstr "initrd", present := true } ::
        List.replicate 7 { root := none, label := [], present := false }
      tar := tar
      brk := 1 } := rfl

lemma driveRoot_tarfsInit {tar : List UInt8} {num : ℤ} {r : Ptr}
    (h : (empty tar).tarfsInit.driveRoot num = some r) : num = 0 ∧ r = 0 := by
  rw [driveRoot] at h
  split at h
  · cases h
  · next hnum =>
    obtain ⟨k, rfl⟩ := Int.eq_ofNat_of_zero_le (Int.not_lt.1 (not_or.1 hnum).1)
    rw [Int.toNat_natCast, tarfsInit_eq] at h
    match k with
    | 0 => exact ⟨rfl, by simpa using h.symm⟩
    | k + 1 =>
      simp only [List.getElem?_cons_succ, List.getElem?_replicate] at h
      split at h <;> simp at h

lemma tarfsInit_wf (tar : List UInt8) : (empty tar).tarfsInit.Wf where
  node_fresh n hn := by
    rw [tarfsInit_eq] at hn ⊢
    simp [Nat.ne_of_gt hn]
  file_fresh f _ := rfl
  node_ok n nd h := by
    rw [tarfsInit_eq] at h
    by_cases h0 : n = 0
    · subst h0
      obtain rfl : rootNode .tarfs = nd := by simpa using h
      exact .inl ⟨rfl, by simp [rootNode]⟩
    · simp [h0] at h
  entry_ok e he := nomatch he
  root_dir num r h := by
    obtain ⟨-, rfl⟩ := driveRoot_tarfsInit h
    exact ⟨rootNode .tarfs, rfl, rfl⟩

end Fs

end CobjOs
