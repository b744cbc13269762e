import CobjOs.Fs.PathSpec

/-!
# Paths on the archive drive

Whatever tree is on the archive drive, `vfs_resolve` on a path that starts with `0:/` returns a
node exactly if the components name an entry of the tree, or none at all and so the root.  The
node has the entry's type and size and points to the entry's own header.
-/

namespace CobjOs

open Option Ustar

/-- The archive is mounted on drive 0. -/
structure Mounted (a : Archive) (root : Ptr) (fs : Fs) : Prop where
  wf : fs.Wf
  tar : fs.tar = a.bytes
  drive : fs.driveRoot 0 = some root
  node : ∃ nd, fs.vfs.nodes root = some nd ∧ nd.type = .dir ∧ nd.ops = .tarfs ∧ nd.data = none

lemma mounted_tarfsInit (a : Archive) : Mounted a 0 (Fs.empty a.bytes).tarfsInit where
  wf := Fs.tarfsInit_wf a.bytes
  tar := rfl
  drive := rfl
  node := ⟨Fs.rootNode .tarfs, rfl, rfl, rfl, rfl⟩

lemma dest_spelled {a : Archive} {root : Ptr} {fs : Fs} (h : Mounted a root fs) {comps : List CStr}
    (hcomps : ∀ c ∈ comps, IsName c) {s : CStr} (hs : Spelled comps s) :
    fs.dest (cstr "0:/" ++ s) = some (root, comps.flatMap pieces) := by
  rw [Fs.dest, parsePath_zero, bind_some]
  dsimp only
  rw [h.drive, map_some, components_slash, components_of_spelled hs hcomps]

lemma pieces_ne_nil (c : CStr) : pieces c ≠ [] := by
  rw [pieces]
  split <;> simp

/-- Resolving a path on the archive drive finds the entry that the components name, and nothing
if there is none. -/
theorem resolve_finds_the_named_entry (a : Archive) (root : Ptr) (fs : Fs) (h : Mounted a root fs)
    (comps : List CStr) (hcomps : ∀ c ∈ comps, IsName c) (s : CStr) (hs : Spelled comps s) :
    ∃ fs' res, fs.vfsResolve (cstr "0:/" ++ s) = .ok (fs', res) ∧
      (comps = [] → res = some root ∧
        ∃ nd, fs'.vfs.nodes root = some nd ∧ nd.type = .dir ∧ nd.data = none) ∧
      (∀ x ∈ a.placed, x.2.path = comps → ∃ n, res = some n ∧ fs'.vfs.nodes n = some
        { type := if x.2.isDir then .dir else .file, ops := .tarfs, data := some x.1,
          size := x.2.content.length, refcount := 1 }) ∧
      (comps ≠ [] → (∀ e ∈ a.entries, e.path ≠ comps) → res = none) := by
  obtain ⟨rn, hrn, hdir, hops, hdata⟩ := h.node
  obtain ⟨fs', res, hres, hr⟩ := Fs.vfsResolve_resolved h.wf (cstr "0:/" ++ s)
  have hdest := dest_spelled h hcomps hs
  refine ⟨fs', res, hres, ?_⟩
  rcases eq_or_ne comps [] with rfl | hne
  · -- the root itself
    refine ⟨fun _ => ?_, fun x _ hx => absurd hx x.2.path_ne, fun hne => absurd rfl hne⟩
    cases hr with
    | noDrive hd => cases hd.symm.trans hdest
    | @root r _ hd hroot heq =>
      obtain ⟨rfl, -⟩ := Prod.mk.inj (some.inj (hd.symm.trans hdest))
      obtain rfl := some.inj (hrn.symm.trans hroot)
      have hnode : fs'.vfs.nodes r = some { rn with refcount := (rn.refcount + 1) % 2 ^ 32 } := by
        rw [heq]
        exact Function.update_self ..
      exact ⟨rfl, _, hnode, hdir, hdata⟩
    | walked hd hnn =>
      obtain ⟨-, rfl⟩ := Prod.mk.inj (some.inj (hd.symm.trans hdest))
      exact absurd rfl hnn
  · have hflat : comps.flatMap pieces ≠ [] := by
      obtain ⟨c, cs, rfl⟩ := List.exists_cons_of_ne_nil hne
      simp [pieces_ne_nil]
    have hnames : ∀ c ∈ comps.flatMap pieces, IsName c := by
      intro c hc
      obtain ⟨d, hd, hcd⟩ := List.mem_flatMap.1 hc
      exact isName_of_mem_pieces (hcomps d hd) hcd
    have hdesc : fs.descend rn (comps.flatMap pieces) = (a.find comps).map entryNode := by
      rw [descend_tar h.tar .root hdir hops hdata hnames hflat, List.nil_append, find_pieces]
    refine ⟨fun h => absurd h hne, ?_⟩
    cases hr with
    | noDrive hd => cases hd.symm.trans hdest
    | root hd =>
      obtain ⟨-, heq⟩ := Prod.mk.inj (some.inj (hd.symm.trans hdest))
      exact absurd heq.symm hflat
    | walked hd hnn hroot hk hw =>
      obtain ⟨rfl, rfl⟩ := Prod.mk.inj (some.inj (hd.symm.trans hdest))
      obtain rfl := some.inj (hrn.symm.trans hroot)
      refine ⟨fun x hx hpath => ?_, fun _ hno => ?_⟩
      · rw [Archive.find_eq_some_iff.2 ⟨hx, hpath⟩, map_some] at hdesc
        cases hw with
        | found hfound _ _ _ hnodes =>
          obtain rfl := some.inj (hdesc.symm.trans hfound)
          exact ⟨_, rfl, by rw [hnodes, Function.update_self, entryNode_eq]⟩
        | missing hnone => cases hdesc.symm.trans hnone
        | stuck hnone => cases hdesc.symm.trans hnone
      · have hfind : a.find comps = none := by
          by_contra hsome
          obtain ⟨x, hx⟩ := ne_none_iff_exists'.1 hsome
          exact hno x.2 (Archive.mem_entries (Archive.mem_of_find hx)) (Archive.path_of_find hx)
        rw [hfind, map_none] at hdesc
        cases hw with
        | found hfound => cases hdesc.symm.trans hfound
        | missing => rfl
        | stuck => rfl

def etcEntry : Entry := Entry.plain [cstr "etc"] true [] (by decide) (by decide) (by decide)

def motdEntry : Entry :=
  Entry.plain [cstr "etc", cstr "motd"] false (cstr "hello") (by decide) (by decide) (by decide)

/-- A directory `etc` with a file `etc/motd`. -/
def motdArchive : Archive where
  entries := [etcEntry, motdEntry]
  zeros := 2
  unique := by
    change [[cstr "etc"], [cstr "etc", cstr "motd"]].Nodup
    decide
  parents e he p q hpq hp hq := by
    refine ⟨etcEntry, List.mem_cons_self, ?_, rfl⟩
    have hpath : e.path = [cstr "etc"] ∨ e.path = [cstr "etc", cstr "motd"] := by
      rcases List.mem_cons.1 he with rfl | he
      · exact .inl rfl
      · exact .inr (by rw [List.mem_singleton.1 he]; rfl)
    match p, q, hp, hq with
    | [c], _ :: _, _, _ =>
      rcases hpath with h | h <;> rw [hpq] at h
      · simp at h
      · rw [(List.cons.inj h).1]
        rfl
    | _ :: _ :: _, _ :: _, _, _ => rcases hpath with h | h <;> rw [hpq] at h <;> simp at h

lemma motdEntry_placed : (512, motdEntry) ∈ motdArchive.placed := by
  have hlen : etcEntry.bytes.length = 512 := by
    rw [Entry.bytes_length]
    rfl
  change _ ∈ [(0, etcEntry), (0 + etcEntry.bytes.length, motdEntry)]
  rw [hlen]
  exact List.mem_cons_of_mem _ List.mem_cons_self

theorem resolve_finds_the_named_entry_motd :
    ∃ fs' n, (Fs.empty motdArchive.bytes).tarfsInit.vfsResolve (cstr "0:/etc//motd") =
        .ok (fs', some n) ∧
      fs'.vfs.nodes n = some
        { type := .file, ops := .tarfs, data := some 512, size := 5, refcount := 1 } := by
  obtain ⟨fs', res, hres, -, hentry, -⟩ := resolve_finds_the_named_entry motdArchive 0
    (Fs.empty motdArchive.bytes).tarfsInit (mounted_tarfsInit motdArchive) [cstr "etc", cstr "motd"]
    (by simpa using ⟨⟨by decide, by decide, by decide⟩, ⟨by decide, by decide, by decide⟩⟩)
    (cstr "etc//motd") (.cons 0 (.cons 2 (.nil 0) (.inl rfl)) (.inr ⟨_, rfl⟩))
  obtain ⟨n, rfl, hn⟩ := hentry (512, motdEntry) motdEntry_placed rfl
  exact ⟨fs', n, hres, hn⟩

end CobjOs
