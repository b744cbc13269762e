import CobjOs.Properties.NodeLifetime
import CobjOs.Properties.Operations

/-!
# Allocated nodes

A node is left over if it is allocated and neither the root of a drive nor the node of an open
handle.  The calls that open, close, list and change the directory leave no node over, as long as no
device is involved: the tables of the devices have no `release`, so a path that goes on behind a
device leaves its node, and so does a device that is closed, or listed or tried as a directory.  The
start leaves one node over, that of the console's font.
-/

namespace CobjOs

open Option

namespace Fs

variable {t d n : Ptr} {k : ℕ} {fs fs' fs'' : Fs} {path : CStr} {res : Option Ptr}
  {E : Fault → Prop}

/-- The node is allocated, and neither a root nor the node of an open handle. -/
def LeftOver (t d : Ptr) (fs : Fs) (n : Ptr) : Prop :=
  (fs.vfs.nodes n).isSome ∧ n ≠ t ∧ n ≠ d ∧ fs.Unheld n

/-- The allocated nodes. -/
def nodeCount (fs : Fs) : ℕ := Store.count fs.vfs.nodes fs.brk fun _ => true

/-- The open handles on nodes other than the roots. -/
def innerHandles (t d : Ptr) (fs : Fs) : ℕ := fs.fileCount fun fl => fl.node ≠ t && fl.node ≠ d

/-! ## One call -/

/-- The nodes that are left over are the same, and open files are on the nodes they were on. -/
structure Tidy (t d : Ptr) (fs fs' : Fs) : Prop where
  leftOver : ∀ n, fs'.LeftOver t d n ↔ fs.LeftOver t d n
  brk : fs.brk ≤ fs'.brk
  same : ∀ f fl', f < fs.brk → fs'.vfs.files f = some fl' →
    ∃ fl, fs.vfs.files f = some fl ∧ fl.node = fl'.node

lemma Tidy.trans (h : Tidy t d fs fs') (h' : Tidy t d fs' fs'') : Tidy t d fs fs'' where
  leftOver n := (h'.leftOver n).trans (h.leftOver n)
  brk := h.brk.trans h'.brk
  same f fl'' hf hfl'' := by
    obtain ⟨fl', hfl', hnode'⟩ := h'.same f fl'' (hf.trans_le h.brk) hfl''
    obtain ⟨fl, hfl, hnode⟩ := h.same f fl' hf hfl'
    exact ⟨fl, hfl, hnode.trans hnode'⟩

lemma unheld_keeps (hk : fs.Keeps fs') : fs'.Unheld n ↔ fs.Unheld n := by
  rw [Unheld, Unheld, hk.files]

/-- The files stay and the same nodes are allocated. -/
lemma Tidy.of_keeps (hk : fs.Keeps fs')
    (hnodes : ∀ n, n ≠ t → n ≠ d → ((fs'.vfs.nodes n).isSome ↔ (fs.vfs.nodes n).isSome)) :
    Tidy t d fs fs' where
  leftOver n := by
    constructor
    · rintro ⟨hsome, ht, hd, hun⟩
      exact ⟨(hnodes n ht hd).1 hsome, ht, hd, (unheld_keeps hk).1 hun⟩
    · rintro ⟨hsome, ht, hd, hun⟩
      exact ⟨(hnodes n ht hd).2 hsome, ht, hd, (unheld_keeps hk).2 hun⟩
  brk := hk.brk
  same f fl' _ hfl' := ⟨fl', hk.files ▸ hfl', rfl⟩

lemma Resolved.isSome_iff (h : fs.Resolved path fs' res)
    (hpath : res = none → fs.AvoidsDevices path) (m : Ptr) :
    (fs'.vfs.nodes m).isSome ↔ (fs.vfs.nodes m).isSome ∨ res = some m := by
  cases h with
  | noDrive _ heq => simp [heq]
  | @root r nd _ hroot heq =>
    by_cases hm : m = r
    · simp [heq, hm]
    · simp [heq, hm, Ne.symm hm]
  | walked hdest _ hroot _ hw =>
    cases hw with
    | @found n _ _ _ _ _ hnodes =>
      by_cases hm : m = n
      · simp [hnodes, hm]
      · simp [hnodes, hm, Ne.symm hm]
    | missing _ hnodes => simp [hnodes]
    | stuck _ hmeets => exact absurd hmeets (hpath rfl _ _ _ hdest hroot)

lemma Resolved.fresh (hi : Inv t d k fs) (h : fs.Resolved path fs' (some n)) (ht : n ≠ t)
    (hd : n ≠ d) : fs.vfs.nodes n = none := by
  cases h with
  | root hdest =>
    obtain ⟨num, hnum⟩ := exists_driveRoot_of_dest hdest
    rcases hi.drive num n hnum with rfl | rfl
    · exact absurd rfl ht
    · exact absurd rfl hd
  | walked _ _ _ _ hw =>
    cases hw with
    | found _ _ hfresh => exact hfresh

lemma unheld_allocFile {fl : File} (hfresh : ∀ f, fs.brk ≤ f → fs.vfs.files f = none) :
    (fs.allocFile fl).1.Unheld n ↔ fs.Unheld n ∧ fl.node ≠ n := by
  constructor
  · refine fun h => ⟨fun f gl hf => h f gl ?_, h fs.brk fl (by simp [allocFile])⟩
    have hne : f ≠ fs.brk := by
      rintro rfl
      simp [hfresh _ le_rfl] at hf
    simpa [allocFile, hne] using hf
  · rintro ⟨h, hne⟩ f gl hf
    by_cases hb : f = fs.brk
    · obtain rfl : fl = gl := by simpa [allocFile, hb] using hf
      exact hne
    · exact h f gl (by simpa [allocFile, hb] using hf)

lemma Inv.resolve_tidy (h : Inv t d 0 fs) (hb : 2 + fs.handlesOn t < 2 ^ 32)
    (hpath : fs.AvoidsDevices path) : ∃ fs' res, fs.vfsResolve path = .ok (fs', res) ∧
      (res = none → Tidy t d fs fs') ∧
      ∀ n, res = some n → ∃ nd fs'', fs'.node n = .ok nd ∧ nd.Ok ∧ fs'.release n = .ok fs'' ∧
        Tidy t d fs fs'' := by
  obtain ⟨fs', res, hres, hr, -, hsome⟩ := @Inv.vfsResolve t d 0 fs h path fun _ => by omega
  have hnew := hr.isSome_iff fun _ => hpath
  refine ⟨fs', res, hres, fun hnone => .of_keeps hr.keeps fun m _ _ => ?_, fun n hn => ?_⟩
  · simp [hnew, hnone]
  · subst hn
    obtain ⟨nd, hnd, hnode, hok⟩ := (hsome n rfl).node_eq
    obtain ⟨fs'', hrel, hk, -, hroots, hinner⟩ := (hsome n rfl).release
    obtain ⟨rc, hleads⟩ := hr.leads hnd
    have hdev := hpath.type hleads
    refine ⟨nd, fs'', hnode, hok, hrel, .of_keeps (hr.keeps.trans hk) fun m ht hd => ?_⟩
    by_cases hroot : n = t ∨ n = d
    · have hne : n ≠ m := by
        rintro rfl
        exact hroot.elim ht hd
      simp [hroots hroot, hnew, hne]
    · have hnt := (not_or.1 hroot).1
      have hnd' := (not_or.1 hroot).2
      rw [hinner hnt hnd' nd hnd hdev]
      by_cases hm : m = n
      · simp [hm, hr.fresh h hnt hnd']
      · simp [hm, hnew, Ne.symm hm]

lemma probe_tidy (h : Inv t d 0 fs) (hb : 2 + fs.handlesOn t < 2 ^ 32)
    (hpath : fs.AvoidsDevices path) :
    Ends E (fun fs' => Tidy t d fs fs') (fs.probe path) := by
  obtain ⟨fs', res, hres, hnone, hsome⟩ := h.resolve_tidy hb hpath
  refine .bind_of_eq hres ?_
  cases res with
  | none => exact hnone rfl
  | some n =>
    obtain ⟨nd, fs'', -, -, hrel, ht⟩ := hsome n rfl
    exact .of_eq hrel ht

lemma sysListdir_tidy (h : Inv t d 0 fs) (hb : 2 + fs.handlesOn t < 2 ^ 32)
    (hpath : fs.AvoidsDevices path) (max : ℤ) :
    Ends E (fun r => Tidy t d fs r.1) (fs.sysListdir path max) := by
  obtain ⟨fs', res, hres, hnone, hsome⟩ := h.resolve_tidy hb hpath
  refine .bind_of_eq hres ?_
  cases res with
  | none => exact hnone rfl
  | some n =>
    obtain ⟨nd, fs'', hnode, hok, hrel, ht⟩ := hsome n rfl
    refine .bind_of_eq hnode ?_
    split_ifs with hdir
    · rw [hrel]
      exact ht
    · refine (ends_listEntries (hok.hasLookup (not_not.1 hdir)).2 _ _).bind fun ents _ => ?_
      rw [hrel]
      exact ht

lemma sysSetCwd_tidy (h : Inv t d 0 fs) (hb : 2 + fs.handlesOn t < 2 ^ 32) (pr : FileProc)
    {copied : Option (List UInt8)}
    (hpath : ∀ tmp, copied = some tmp → fs.AvoidsDevices (tmp.takeWhile (· ≠ 0)))
    : Ends E (fun r => Tidy t d fs r.1) (fs.sysSetCwd pr copied) := by
  cases copied with
  | none => exact .of_keeps (.refl fs) fun _ _ _ => Iff.rfl
  | some tmp =>
    obtain ⟨fs', res, hres, hnone, hsome⟩ := h.resolve_tidy hb (hpath tmp rfl)
    refine .bind_of_eq hres ?_
    cases res with
    | none => exact hnone rfl
    | some n =>
      obtain ⟨nd, fs'', hnode, -, hrel, ht⟩ := hsome n rfl
      refine .bind_of_eq hnode ?_
      refine .bind_of_eq hrel ?_
      split_ifs
      · exact ht
      · exact ht

/-- The node that an open returns is held by the new file. -/
lemma sysOpen_tidy (h : Inv t d 0 fs) (hb : 2 + fs.handlesOn t < 2 ^ 32) (pr : FileProc)
    (hpath : (∃ nd, fs.Leads path nd) ∨ fs.AvoidsDevices path) :
    Ends E (fun r => Tidy t d fs r.1) (fs.sysOpen pr path) := by
  unfold sysOpen
  split
  · exact .of_keeps (.refl fs) fun _ _ _ => Iff.rfl
  · obtain ⟨fs', res, hres, hr, -, hsome⟩ := @Inv.vfsResolve t d 0 fs h path fun _ => by omega
    have havoid : res = none → fs.AvoidsDevices path := by
      rintro rfl
      exact hpath.resolve_left fun ⟨nd, hnd⟩ => hr.not_leads hnd
    have hnew := hr.isSome_iff havoid
    refine .bind_of_eq hres ?_
    cases res with
    | none => exact .of_keeps hr.keeps fun m _ _ => by simp [hnew]
    | some n =>
      refine ⟨fun m => ?_, hr.keeps.brk.trans (Nat.le_succ _), fun f fl' hf hfl' => ?_⟩
      · have hun : (fs'.allocFile ⟨n, 0, 1⟩).1.Unheld m ↔ fs.Unheld m ∧ n ≠ m := by
          rw [← unheld_keeps hr.keeps]
          exact unheld_allocFile (hsome n rfl).inv.file_fresh
        constructor
        · rintro ⟨hs, ht, hd, hu⟩
          obtain ⟨hu, hne⟩ := hun.1 hu
          exact ⟨((hnew m).1 hs).resolve_right (by simp [hne]), ht, hd, hu⟩
        · rintro ⟨hs, ht, hd, hu⟩
          refine ⟨(hnew m).2 (.inl hs), ht, hd, hun.2 ⟨hu, ?_⟩⟩
          rintro rfl
          simp [hr.fresh h ht hd] at hs
      · have hne : f ≠ fs'.brk := Nat.ne_of_lt (hf.trans_le hr.keeps.brk)
        refine ⟨fl', ?_, rfl⟩
        rw [← hr.keeps.files]
        simpa [allocFile, hne] using hfl'

/-- A closed file gives its node back, if it is not a device. -/
lemma sysClose_tidy (h : Inv t d 0 fs) (hb : fs.handlesOn t < 2 ^ 32) {pr : FileProc}
    (ht : fs.TableOk pr) {fd : ℤ} (hkind : fs.KindAt pr fd fun ops => ¬ops.IsDevice)
    : Ends E (fun r => Tidy t d fs r.1) (fs.sysClose pr fd) := by
  unfold sysClose
  split
  · exact .of_keeps (.refl fs) fun _ _ _ => Iff.rfl
  · next f hf =>
    obtain ⟨fl, nd, hfl, hnd⟩ := h.descriptor ht hf
    obtain ⟨fs', hclose, hk, -, hroots, hinner⟩ := h.closeFile hb hfl
    refine .bind_of_eq hclose ?_
    have hun : ∀ m, m ≠ fl.node → (fs'.Unheld m ↔ fs.Unheld m) := by
      intro m hm
      rw [unheld_keeps hk]
      constructor
      · intro hu g gl hg
        by_cases hgf : g = f
        · subst hgf
          obtain rfl := some.inj (hfl.symm.trans hg)
          exact Ne.symm hm
        · exact hu g gl (by simpa [eraseFile, hgf] using hg)
      · intro hu g gl hg
        by_cases hgf : g = f
        · simp [eraseFile, hgf] at hg
        · exact hu g gl (by simpa [eraseFile, hgf] using hg)
    have hnodes : ∀ m, (fs'.vfs.nodes m).isSome ↔
        (fs.vfs.nodes m).isSome ∧ (m ≠ fl.node ∨ fl.node = t ∨ fl.node = d) := by
      intro m
      by_cases hroot : fl.node = t ∨ fl.node = d
      · simp [hroots hroot, hroot]
      · obtain ⟨hnt, hnd'⟩ := not_or.1 hroot
        have hdev : nd.type ≠ .device := by
          obtain ⟨nd₁, hnd₁, hmade⟩ := h.held f fl hfl
          obtain rfl := some.inj (hnd.symm.trans hnd₁)
          rcases (hmade hnt hnd').2 with ⟨-, hne⟩ | ⟨hops, -⟩
          · exact hne
          · exact absurd hops (hkind f fl nd hf hfl hnd)
        rw [hinner hnt hnd' nd hnd hdev]
        by_cases hm : m = fl.node
        · simp [hm, hroot]
        · simp [hm]
    refine ⟨fun m => ?_, hk.brk, fun g gl _ hg => ?_⟩
    · by_cases hm : m = fl.node
      · -- the node was held, and it is a root or gone
        subst hm
        constructor
        · rintro ⟨hs, hnt, hnd', -⟩
          exact absurd ((hnodes _).1 hs).2 (by simp [hnt, hnd'])
        · rintro ⟨-, -, -, hu⟩
          exact absurd rfl (hu f fl hfl)
      · simp only [LeftOver, hnodes m, hun m hm, ne_eq, hm, not_false_eq_true, true_or, and_true]
    · rw [hk.files] at hg
      have hgf : g ≠ f := by
        rintro rfl
        simp [eraseFile] at hg
      exact ⟨gl, by simpa [eraseFile, hgf] using hg, rfl⟩

/-! ## Counting -/

/-- The node of a file. -/
def nodeOf (fs : Fs) (f : Ptr) : Ptr := ((fs.vfs.files f).map File.node).getD 0

/-- The allocated nodes are the roots, those of the handles on other nodes, and those left over. -/
lemma Inv.nodeCount_eq (h : Inv t d k fs) {E : Finset Ptr} (hE : ∀ n, n ∈ E ↔ fs.LeftOver t d n) :
    fs.nodeCount = 2 + fs.innerHandles t d + E.card := by
  have hnode : ∀ {f fl}, fs.vfs.files f = some fl → fs.nodeOf f = fl.node := fun hf => by
    simp [nodeOf, hf]
  set K := Store.keys fs.vfs.files fs.brk fun fl => fl.node ≠ t && fl.node ≠ d with hK
  have hmemK : ∀ f, f ∈ K ↔ ∃ fl, fs.vfs.files f = some fl ∧ fl.node ≠ t ∧ fl.node ≠ d := by
    intro f
    rw [hK, Store.mem_keys]
    constructor
    · rintro ⟨-, fl, hfl, hne⟩
      exact ⟨fl, hfl, by simpa using hne⟩
    · rintro ⟨fl, hfl, hne⟩
      exact ⟨h.file_lt hfl, fl, hfl, by simpa using hne⟩
  have hkeys : Store.keys fs.vfs.nodes fs.brk (fun _ => true) = ({t, d} ∪ E) ∪ K.image fs.nodeOf := by
    ext n
    simp only [Store.mem_keys, Finset.mem_union, Finset.mem_insert, Finset.mem_singleton,
      Finset.mem_image, hE, and_true]
    constructor
    · rintro ⟨-, nd, hnd⟩
      by_cases hn : n = t ∨ n = d
      · exact .inl (.inl hn)
      · by_cases hu : fs.Unheld n
        · exact .inl (.inr ⟨by simp [hnd], (not_or.1 hn).1, (not_or.1 hn).2, hu⟩)
        · simp only [Unheld, not_forall, ne_eq, not_not] at hu
          obtain ⟨f, fl, hfl, rfl⟩ := hu
          exact .inr ⟨f, (hmemK f).2 ⟨fl, hfl, not_or.1 hn⟩, hnode hfl⟩
    · have hlt : ∀ {n}, (fs.vfs.nodes n).isSome → n < fs.brk ∧ ∃ nd, fs.vfs.nodes n = some nd := by
        intro n hs
        refine ⟨Nat.lt_of_not_le fun hle => ?_, isSome_iff_exists.1 hs⟩
        simp [h.node_fresh n hle] at hs
      rintro (((rfl | rfl) | hleft) | ⟨f, hf, rfl⟩)
      · exact hlt (by simp [h.tarRoot])
      · obtain ⟨rc, hrc⟩ := h.devRoot
        exact hlt (by simp [hrc])
      · exact hlt hleft.1
      · obtain ⟨fl, hfl, -⟩ := (hmemK f).1 hf
        obtain ⟨nd, hnd, -⟩ := h.held f fl hfl
        exact hlt (by simp [hnode hfl, hnd])
  have hinj : Set.InjOn fs.nodeOf K := by
    intro f hf g hg hfg
    obtain ⟨fl, hfl, hnt, hnd⟩ := (hmemK f).1 hf
    obtain ⟨gl, hgl, -⟩ := (hmemK g).1 hg
    rw [hnode hfl, hnode hgl] at hfg
    exact h.unique f g fl gl hfl hgl hfg hnt hnd
  have hroots : Disjoint ({t, d} : Finset Ptr) E := by
    rw [Finset.disjoint_left]
    intro n hn hnE
    obtain ⟨-, hnt, hnd, -⟩ := (hE n).1 hnE
    simp [hnt, hnd] at hn
  have hheld : Disjoint ({t, d} ∪ E) (K.image fs.nodeOf) := by
    rw [Finset.disjoint_right]
    intro n hn hnE
    obtain ⟨f, hf, rfl⟩ := Finset.mem_image.1 hn
    obtain ⟨fl, hfl, hnt, hnd⟩ := (hmemK f).1 hf
    rw [hnode hfl, Finset.mem_union, hE] at hnE
    rcases hnE with hnE | ⟨-, -, -, hu⟩
    · simp [hnt, hnd] at hnE
    · exact hu f fl hfl rfl
  rw [nodeCount, Store.count, hkeys, Finset.card_union_of_disjoint hheld,
    Finset.card_union_of_disjoint hroots, Finset.card_image_of_injOn hinj, Finset.card_pair h.ne,
    innerHandles, fileCount, Store.count, ← hK]
  omega

/-- What is allocated. -/
lemma Inv.isSome_iff (h : Inv t d k fs) (n : Ptr) :
    (fs.vfs.nodes n).isSome ↔ n = t ∨ n = d ∨ fs.LeftOver t d n ∨ ¬fs.Unheld n := by
  constructor
  · intro hs
    by_cases hnt : n = t
    · exact .inl hnt
    · by_cases hnd : n = d
      · exact .inr (.inl hnd)
      · by_cases hu : fs.Unheld n
        · exact .inr (.inr (.inl ⟨hs, hnt, hnd, hu⟩))
        · exact .inr (.inr (.inr hu))
  · rintro (rfl | rfl | hleft | hheld)
    · simp [h.tarRoot]
    · obtain ⟨rc, hrc⟩ := h.devRoot
      simp [hrc]
    · exact hleft.1
    · by_contra hnone
      exact hheld (h.unheld_of_free (by simpa using hnone))

/-- The same files are open, so the same nodes are held. -/
lemma Tidy.unheld_iff (h : Tidy t d fs fs') (hi : Inv t d k fs)
    (hfiles : ∀ f, (fs'.vfs.files f).isSome ↔ (fs.vfs.files f).isSome) (n : Ptr) :
    fs'.Unheld n ↔ fs.Unheld n := by
  constructor
  · intro hu f fl hfl
    obtain ⟨fl', hfl'⟩ := isSome_iff_exists.1 ((hfiles f).2 (by simp [hfl]))
    obtain ⟨fl₁, hfl₁, hnode⟩ := h.same f fl' (hi.file_lt hfl) hfl'
    obtain rfl := some.inj (hfl.symm.trans hfl₁)
    rw [hnode]
    exact hu f fl' hfl'
  · intro hu f fl' hfl'
    obtain ⟨fl, hfl⟩ := isSome_iff_exists.1 ((hfiles f).1 (by simp [hfl']))
    obtain ⟨fl₁, hfl₁, hnode⟩ := h.same f fl' (hi.file_lt hfl) hfl'
    rw [← hnode]
    exact hu f fl₁ hfl₁

end Fs

/-! ## Runs -/

namespace Files

variable {t d : Ptr} {w w' : Files}

/-- The operation is one of those that open, close, list and change the directory, or a path the
kernel resolves, and it leaves no device: a path may come to a device only to open it, and no device
is closed. -/
def Op.AvoidsDevices (w : Files) : Op → Prop
  | .open _ path => (∃ nd, w.fs.Leads path nd) ∨ w.fs.AvoidsDevices path
  | .close p fd => ∀ pr, w.procs p = some pr → w.fs.KindAt pr fd fun ops => ¬ops.IsDevice
  | .listdir _ path _ => w.fs.AvoidsDevices path
  | .setCwd _ user bufSize => ∀ tmp,
      Fs.copyUser user (if bufSize < 255 then bufSize else 255) = some tmp →
      w.fs.AvoidsDevices (tmp.takeWhile (· ≠ 0))
  | .probe path => w.fs.AvoidsDevices path
  | _ => False

lemma call_tidy {p : Ptr} {E : Fault → Prop} {f : FileProc → Except Fault (Fs × FileProc)}
    (hf : ∀ pr, w.procs p = some pr → Ends E (fun r => Fs.Tidy t d w.fs r.1) (f pr)) :
    Ends E (fun w' => Fs.Tidy t d w.fs w'.fs) (w.call p f) := by
  have hrefl : Fs.Tidy t d w.fs w.fs := .of_keeps (.refl _) fun _ _ _ => Iff.rfl
  unfold call
  split
  · exact hrefl
  · next pr hp =>
    split_ifs
    · exact hrefl
    · exact (hf pr hp).bind fun r hr => hr

lemma step_tidy (h : Inv t d w) (hb : w.fs.handles < 2 ^ 32 - 2) {op : Op}
    (hop : op.AvoidsDevices w) :
    Ends (· ≠ .dangling) (fun w' => Fs.Tidy t d w.fs w'.fs) (w.step op) := by
  have hb := Inv.bound hb t
  have hlt : w.fs.handlesOn t < 2 ^ 32 := by omega
  cases op with
  | «open» p path =>
    exact call_tidy fun pr hp => (Fs.sysOpen_tidy h.fs hb pr hop).bind fun r hr => hr
  | close p fd =>
    exact call_tidy fun pr hp =>
      (Fs.sysClose_tidy h.fs hlt (h.table p pr hp) (hop pr hp)).bind fun r hr => hr
  | listdir p path max =>
    exact call_tidy fun pr hp => (Fs.sysListdir_tidy h.fs hb hop max).bind fun r hr => hr
  | setCwd p user bufSize =>
    refine call_tidy fun pr hp =>
      (Fs.sysSetCwd_tidy h.fs hb pr fun tmp htmp => ?_).bind fun r hr => hr
    refine hop tmp ?_
    split_ifs at htmp ⊢ <;> exact htmp
  | probe path => exact (Fs.probe_tidy h.fs hb hop).bind fun r hr => hr
  | seek | spawn | exit | kill | fault | cleanup => exact hop.elim

/-- From any state that is reached, over any run of such operations while fewer than `2 ^ 32 - 2`
handles are outstanding: the nodes that are left over are the same; the allocated nodes are as many
as the two roots, the handles on other nodes, and the nodes that were left over at the start; and
when the files that are open are those of the start again, then the allocated nodes are. -/
theorem nodes_are_not_left_over (tar : List UInt8) (io : Io) (font accepted : Bool) (w₀ : Files)
    (hboot : kidle tar io font accepted = .ok w₀) (ops₁ : List Op) (w₁ : Files)
    (hrun₁ : Run next (fun w _ => w.fs.handles < 2 ^ 32 - 2) w₀ ops₁ w₁) (t d : Ptr)
    (ht : w₁.fs.driveRoot 0 = some t) (hd : w₁.fs.vfs.devfsRoot = some d) (ops : List Op) (w : Files)
    (hrun : Run next (fun w op => w.fs.handles < 2 ^ 32 - 2 ∧ op.AvoidsDevices w) w₁ ops w) :
    (∀ n, w.fs.LeftOver t d n ↔ w₁.fs.LeftOver t d n) ∧
      (∀ E : Finset Ptr, (∀ n, n ∈ E ↔ w₁.fs.LeftOver t d n) →
        w.fs.nodeCount = 2 + w.fs.innerHandles t d + E.card) ∧
      ((∀ f, (w.fs.vfs.files f).isSome ↔ (w₁.fs.vfs.files f).isSome) →
        ∀ n, (w.fs.vfs.nodes n).isSome ↔ (w₁.fs.vfs.nodes n).isSome) := by
  obtain ⟨d', hinv₁⟩ := inv_of_run hboot hrun₁
  obtain rfl := some.inj (hinv₁.fs.archive.symm.trans ht)
  obtain rfl := some.inj (hinv₁.fs.devfsRoot.symm.trans hd)
  obtain ⟨hinv, htidy⟩ : Inv 0 d' w ∧ Fs.Tidy 0 d' w₁.fs w.fs := by
    refine hrun.invariant (I := fun w => Inv 0 d' w ∧ Fs.Tidy 0 d' w₁.fs w.fs)
      ⟨hinv₁, .of_keeps (.refl _) fun _ _ _ => Iff.rfl⟩ fun w op w' hw hop hstep => ⟨?_, ?_⟩
    · exact (ends_step hw.1 hop.1 op).toOption hstep
    · exact hw.2.trans ((step_tidy hw.1 hop.1 hop.2).toOption hstep)
  refine ⟨htidy.leftOver, fun E hE => ?_, fun hfiles n => ?_⟩
  · exact hinv.fs.nodeCount_eq fun n => (hE n).trans (htidy.leftOver n).symm
  · rw [hinv.fs.isSome_iff, hinv₁.fs.isSome_iff, htidy.leftOver,
      htidy.unheld_iff hinv₁.fs hfiles]

/-- `init` lists `0:/etc` and opens `0:/init/init`. -/
def etcThenInit : List Op := [.listdir 6 (cstr "0:/etc") 5, .open 6 (cstr "0:/init/init")]

theorem nodes_are_not_left_over_init :
    ∃ w₀ w d, kidle bootTar quietIo true true = .ok w₀ ∧ w₀.fs.vfs.devfsRoot = some d ∧
      exec next w₀ etcThenInit = some w ∧ w.fs.handles = w₀.fs.handles + 1 ∧
      ∀ n, w.fs.LeftOver 0 d n ↔ w₀.fs.LeftOver 0 d n := by
  have heval : ((kidle bootTar quietIo true true).toOption.any fun w₀ =>
      decide (w₀.fs.handles < 2 ^ 32 - 2) &&
      (w₀.next (.listdir 6 (cstr "0:/etc") 5)).any fun w₁ =>
        decide (w₁.fs.handles < 2 ^ 32 - 2) &&
        (w₁.next (.open 6 (cstr "0:/init/init"))).any fun w =>
          w.fs.handles = w₀.fs.handles + 1) = true := by decide +kernel
  have hetc : parsePath (cstr "0:/etc") = some (0, cstr "/etc") := by decide
  have hinit : parsePath (cstr "0:/init/init") = some (0, cstr "/init/init") := by decide
  obtain ⟨w₀, hboot, heval⟩ := exists_ok_of_any heval
  obtain ⟨hb₀, heval⟩ := Bool.and_eq_true_iff.1 heval
  obtain ⟨w₁, hstep₁, heval⟩ := (any_eq_true _ _).1 heval
  obtain ⟨hb₁, heval⟩ := Bool.and_eq_true_iff.1 heval
  obtain ⟨w, hstep₂, hcount⟩ := (any_eq_true _ _).1 heval
  obtain ⟨d, hinv₀⟩ := inv_of_kidle hboot
  have hb₀ := of_decide_eq_true hb₀
  have hinv₁ := (ends_step hinv₀ hb₀ _).toOption hstep₁
  have hrun : Run next (fun w op => w.fs.handles < 2 ^ 32 - 2 ∧ op.AvoidsDevices w) w₀
      etcThenInit w :=
    .snoc (.snoc .nil ⟨hb₀, hinv₀.fs.avoidsDevices hetc⟩ hstep₁)
      ⟨of_decide_eq_true hb₁, .inr (hinv₁.fs.avoidsDevices hinit)⟩ hstep₂
  obtain ⟨hleft, -⟩ := nodes_are_not_left_over bootTar quietIo true true w₀ hboot [] w₀ .nil 0 d
    hinv₀.fs.archive hinv₀.fs.devfsRoot etcThenInit w hrun
  refine ⟨w₀, w, d, hboot, hinv₀.fs.devfsRoot, ?_, of_decide_eq_true hcount, hleft⟩
  simp [etcThenInit, exec, hstep₁, hstep₂]

/-- After the start there is one node more than the roots and the handles account for.  When `init`
has opened `1:/zero` and closed it again, there are as many handles as before, and two. -/
theorem closed_device_is_left_over :
    ∃ w₀ w d, kidle bootTar quietIo true true = .ok w₀ ∧ w₀.fs.vfs.devfsRoot = some d ∧
      w₀.fs.nodeCount = 2 + w₀.fs.innerHandles 0 d + 1 ∧
      exec next w₀ [.open 6 (cstr "1:/zero"), .close 6 2] = some w ∧
      w.fs.handles = w₀.fs.handles ∧ w.fs.nodeCount = 2 + w.fs.innerHandles 0 d + 2 := by
  have heval : ((kidle bootTar quietIo true true).toOption.any fun w₀ =>
      w₀.fs.vfs.devfsRoot.any fun d =>
        decide (w₀.fs.nodeCount = 2 + w₀.fs.innerHandles 0 d + 1) &&
        (exec next w₀ [.open 6 (cstr "1:/zero"), .close 6 2]).any fun w =>
          w.fs.handles = w₀.fs.handles ∧ w.fs.nodeCount = 2 + w.fs.innerHandles 0 d + 2) = true := by
    decide +kernel
  obtain ⟨w₀, hboot, heval⟩ := exists_ok_of_any heval
  obtain ⟨d, hd, heval⟩ := (any_eq_true _ _).1 heval
  obtain ⟨hcount, heval⟩ := Bool.and_eq_true_iff.1 heval
  obtain ⟨w, hexec, hw⟩ := (any_eq_true _ _).1 heval
  exact ⟨w₀, w, d, hboot, hd, of_decide_eq_true hcount, hexec, of_decide_eq_true hw⟩

end Files

end CobjOs
