import CobjOs.Framework.Outcome
import CobjOs.Fs.VfsSpec
import CobjOs.Memory.HeapSteps
import CobjOs.Process.Spawn

/-!
# Nodes and their blocks

`Refilled`: compared with a state at the start, the heap has some more small allocations, and the
bitmap some more pages of the heap.  `Tracks`: these allocations are the blocks of the nodes that
the file system has more than at the start.  Looking up a name and releasing such a node keep that,
so the walk of `vfs_resolve` does, whatever it finds.
-/

namespace CobjOs

open List Option

/-! ## The heap -/

/-- From `m₀` to `m` the small allocations `as` were added, and only pages of the heap taken. -/
structure Refilled (m₀ m : Mm) (L₀ L : HeapMap) (as : List Alloc) : Prop where
  inv : L.Inv m
  hhdm : m.hhdm = m₀.hhdm
  live : L.live.Perm (as ++ L₀.live)
  small : ∀ a ∈ as, a.pages = []
  used : ∀ {b}, m₀.pmm.used b = true → m.pmm.used b = true
  taken : ∀ {b}, m.pmm.used b = true → m₀.pmm.used b = true ∨ b ∈ L.pages

namespace Refilled

variable {m₀ m m' : Mm} {L₀ L : HeapMap} {as : List Alloc} {a : Alloc} {size p : ℕ}

lemma refl (h : L₀.Inv m₀) : Refilled m₀ m₀ L₀ L₀ [] where
  inv := h
  hhdm := rfl
  live := .rfl
  small := nofun
  used := id
  taken := .inl

lemma kmalloc (h : Refilled m₀ m L₀ L as) (hpos : 0 < size) (hsmall : size ≤ 2048)
    (hk : m.kmalloc size = some (m', p)) :
    ∃ L' a, Refilled m₀ m' L₀ L' (a :: as) ∧ a.ptr m₀.hhdm = p := by
  obtain ⟨L', a, new, hinv, htakes, hlive, hptr, -, -, hpages⟩ :=
    h.inv.kmalloc hpos (by omega) hk
  refine ⟨L', a, ⟨hinv, htakes.hhdm.trans h.hhdm, ?_, fun c hc => ?_, fun hb => ?_, fun hb => ?_⟩,
    h.hhdm ▸ hptr⟩
  · rw [hlive]
    exact h.live.cons a
  · rcases mem_cons.1 hc with rfl | hc
    · exact hpages hsmall
    · exact h.small c hc
  · simp [htakes.used, h.used hb]
  · rw [htakes.used, Bool.or_eq_true, decide_eq_true_eq] at hb
    rcases hb with hnew | hb
    · exact .inr ((htakes.pages _).2 (.inl hnew))
    · exact (h.taken hb).imp_right fun hb => (htakes.pages _).2 (.inr hb)

lemma kfree {bs : List Alloc} (h : Refilled m₀ m L₀ L as) (hperm : as.Perm (a :: bs)) :
    ∃ m' L', m.kfree (a.ptr m₀.hhdm) = some m' ∧ Refilled m₀ m' L₀ L' bs := by
  have hlive := h.live.trans (hperm.append_right _)
  obtain ⟨m', L', hk, hinv, herase, hgives⟩ := h.inv.kfree (hlive.mem_iff.2 mem_cons_self)
  rw [h.small a (hperm.mem_iff.2 mem_cons_self)] at hgives
  have hused : ∀ b, m'.pmm.used b = m.pmm.used b := fun b => by simp [hgives.used]
  refine ⟨m', L', h.hhdm ▸ hk, hinv, hgives.hhdm.trans h.hhdm, ?_, fun c hc => ?_, fun hb => ?_,
    fun hb => ?_⟩
  · rw [herase]
    simpa using hlive.erase a
  · exact h.small c (hperm.mem_iff.2 (mem_cons_of_mem _ hc))
  · rw [hused]
    exact h.used hb
  · rw [hused] at hb
    exact (h.taken hb).imp_right fun hb => (hgives.pages _).2 ⟨hb, not_mem_nil⟩

lemma taken_slab (h : Refilled m₀ m L₀ L []) (h₀ : L₀.Inv m₀) {b : ℕ} (hb : m.pmm.used b = true) :
    m₀.pmm.used b = true ∨ b ∈ L.slabs.map Slab.page := by
  rcases h.taken hb with hb | hb
  · exact .inl hb
  · rcases mem_append.1 hb with hb | hb
    · exact .inr hb
    · obtain ⟨a, ha, hba⟩ := mem_flatMap.1 hb
      refine .inl (h₀.page (mem_append_right _ ?_)).2.2
      exact mem_flatMap.2 ⟨a, h.live.mem_iff.1 ha, hba⟩

end Refilled

/-! ## The nodes -/

namespace Fs

variable {fs fs' : Fs} {n : Ptr}

lemma lookup_cases {dir : FsNode} {name : CStr} {res : Option Ptr}
    (h : fs.lookup dir name = .ok (fs', res)) :
    fs' = fs ∧ res = none ∨ ∃ nd, fs' = (fs.allocNode nd).1 ∧ res = some fs.brk := by
  rw [lookup] at h
  split_ifs at h
  cases hc : fs.child dir name with
  | none =>
    obtain ⟨rfl, rfl⟩ : fs = fs' ∧ none = res := by simpa [hc] using h
    exact .inl ⟨rfl, rfl⟩
  | some nd =>
    obtain ⟨rfl, rfl⟩ : (fs.allocNode nd).1 = fs' ∧ some fs.brk = res := by
      simpa [hc, allocNode] using h
    exact .inr ⟨nd, rfl, rfl⟩

lemma release_nodes (h : fs.release n = .ok fs') :
    fs'.brk = fs.brk ∧ ∀ k, k ≠ n → fs'.vfs.nodes k = fs.vfs.nodes k := by
  have hdrop : ∀ nd k, k ≠ n → (fs.vfs.dropNode n nd).nodes k = fs.vfs.nodes k := by
    intro nd k hk
    obtain ⟨x, hx⟩ := dropNode_eq fs.vfs n nd
    simp [hx, hk]
  rw [release, bind_eq_ok] at h
  obtain ⟨nd, hnode, h⟩ := h
  split_ifs at h
  · split at h
    · next v hv =>
      obtain rfl := Except.ok.inj h
      refine ⟨rfl, fun k hk => ?_⟩
      simp only [Vfs.release, bind, bind_eq_some_iff] at hv
      obtain ⟨nd, -, hv⟩ := hv
      split at hv
      · exact some.inj hv ▸ hdrop nd k hk
      · split_ifs at hv
        · rw [← some.inj hv]
        · exact some.inj hv ▸ hdrop nd k hk
      · cases hv
    · cases h
  · obtain rfl := Except.ok.inj h
    exact ⟨rfl, fun _ _ => rfl⟩

end Fs

/-- The nodes that there are beyond `nodes₀` have the blocks that there are beyond `L₀`. -/
structure Tracks (m₀ : Mm) (L₀ : HeapMap) (nodes₀ : Ptr → Option FsNode) (s : HeapFs)
    (L : HeapMap) (blocks : List (Ptr × Alloc)) : Prop where
  heap : Refilled m₀ s.mm L₀ L (blocks.map Prod.snd)
  node : ∀ n, (s.fs.vfs.nodes n).isSome ↔ (nodes₀ n).isSome ∨ n ∈ blocks.map Prod.fst
  new : ∀ x ∈ blocks, nodes₀ x.1 = none ∧ x.2.ptr m₀.hhdm = s.addr x.1
  nodup : (blocks.map Prod.fst).Nodup
  fresh : ∀ n, s.fs.brk ≤ n → s.fs.vfs.nodes n = none

namespace Tracks

variable {m₀ : Mm} {L₀ L : HeapMap} {nodes₀ : Ptr → Option FsNode} {s s' : HeapFs}
  {blocks : List (Ptr × Alloc)} {n : Ptr}

lemma refl (h : L₀.Inv s.mm) (hfresh : ∀ n, s.fs.brk ≤ n → s.fs.vfs.nodes n = none) :
    Tracks s.mm L₀ s.fs.vfs.nodes s L₀ [] where
  heap := .refl h
  node := by simp
  new := nofun
  nodup := nodup_nil
  fresh := hfresh

/-- A lookup adds the block of the node it makes. -/
lemma lookup {dir : FsNode} {name : CStr} {res : Option Ptr}
    (h : Tracks m₀ L₀ nodes₀ s L blocks) (hl : s.lookup dir name = some (s', res)) :
    s.fs.lookup dir name = .ok (s'.fs, res) ∧
      ∃ L' new, Tracks m₀ L₀ nodes₀ s' L' (new ++ blocks) ∧ new.map Prod.fst = res.toList := by
  simp only [HeapFs.lookup, bind, bind_eq_some_iff] at hl
  obtain ⟨⟨fs', next⟩, hlook, hl⟩ := hl
  rw [toOption_eq_some] at hlook
  rcases Fs.lookup_cases hlook with ⟨rfl, rfl⟩ | ⟨nd, rfl, rfl⟩
  · obtain ⟨rfl, rfl⟩ : s = s' ∧ none = res := by simpa using hl
    exact ⟨hlook, L, [], h, rfl⟩
  · simp only [bind_eq_some_iff, some.injEq, Prod.mk.injEq] at hl
    obtain ⟨⟨mm, block⟩, hk, rfl, rfl⟩ := hl
    obtain ⟨L', a, hheap, hptr⟩ := h.heap.kmalloc (by decide) (by decide) hk
    have hnone : s.fs.vfs.nodes s.fs.brk = none := h.fresh _ le_rfl
    have hnone₀ : nodes₀ s.fs.brk = none := by
      by_contra hne
      have := (h.node s.fs.brk).2 (.inl (isSome_iff_ne_none.2 hne))
      simp [hnone] at this
    have hout : s.fs.brk ∉ blocks.map Prod.fst := by
      intro hmem
      have := (h.node s.fs.brk).2 (.inr hmem)
      simp [hnone] at this
    refine ⟨hlook, L', [(s.fs.brk, a)], ⟨hheap, fun n => ?_, fun x hx => ?_, ?_, fun n hn => ?_⟩, rfl⟩
    · by_cases hn : n = s.fs.brk
      · simp [hn, Fs.allocNode]
      · simpa [hn, Fs.allocNode] using h.node n
    · rcases mem_cons.1 hx with rfl | hx
      · exact ⟨hnone₀, by simpa using hptr⟩
      · have hne : x.1 ≠ s.fs.brk := fun he => hout (he ▸ List.mem_map_of_mem hx)
        refine ⟨(h.new x hx).1, ?_⟩
        simpa [hne] using (h.new x hx).2
    · exact nodup_cons.2 ⟨hout, h.nodup⟩
    · have hne : n ≠ s.fs.brk := Nat.ne_of_gt hn
      simpa [hne, Fs.allocNode] using h.fresh n (Nat.le_of_succ_le hn)

lemma release (h : Tracks m₀ L₀ nodes₀ s L blocks) (hn : n ∈ blocks.map Prod.fst)
    (hr : s.release n = some s') :
    s.fs.release n = .ok s'.fs ∧ ∃ L' blocks', Tracks m₀ L₀ nodes₀ s' L' blocks' ∧
      ∀ k ∈ blocks.map Prod.fst, k ≠ n → k ∈ blocks'.map Prod.fst := by
  simp only [HeapFs.release, bind, bind_eq_some_iff] at hr
  obtain ⟨fs', hrel, hr⟩ := hr
  rw [toOption_eq_some] at hrel
  obtain ⟨hbrk, hother⟩ := Fs.release_nodes hrel
  have hfresh : ∀ k, fs'.brk ≤ k → fs'.vfs.nodes k = none := by
    intro k hk
    rw [hbrk] at hk
    have hne : k ≠ n := by
      rintro rfl
      have := (h.node k).2 (.inr hn)
      simp [h.fresh k hk] at this
    rw [hother k hne, h.fresh k hk]
  split_ifs at hr with hsome
  · obtain rfl := some.inj hr
    refine ⟨hrel, L, blocks, ⟨h.heap, fun k => ?_, h.new, h.nodup, hfresh⟩, fun k hk _ => hk⟩
    by_cases hk : k = n
    · simp [hk, hsome, hn]
    · simp [hother k hk, h.node k]
  · obtain ⟨⟨n', a⟩, hx, rfl⟩ := List.mem_map.1 hn
    have hperm := perm_cons_erase hx
    have hnodup := ((hperm.map Prod.fst).nodup_iff).1 h.nodup
    rw [map_cons, nodup_cons] at hnodup
    obtain ⟨mm, L', hkfree, hheap⟩ := h.heap.kfree (by simpa using hperm.map Prod.snd)
    rw [(h.new _ hx).2] at hkfree
    simp only [bind_eq_some_iff, hkfree, some.injEq] at hr
    obtain ⟨_, rfl, rfl⟩ := hr
    have hmem : ∀ k, k ≠ n' →
        (k ∈ blocks.map Prod.fst ↔ k ∈ (blocks.erase (n', a)).map Prod.fst) := by
      intro k hk
      rw [(hperm.map Prod.fst).mem_iff, map_cons, mem_cons]
      simp [hk]
    refine ⟨hrel, L', blocks.erase (n', a), ⟨hheap, fun k => ?_, fun x hx' => ?_, hnodup.2, hfresh⟩,
      fun k hk hne => (hmem k hne).1 hk⟩
    · by_cases hk : k = n'
      · subst hk
        simp [hsome, (h.new _ hx).1, hnodup.1]
      · rw [hother k hk, h.node k, hmem k hk]
    · exact h.new x (mem_of_mem_erase hx')

lemma setNode (h : Tracks m₀ L₀ nodes₀ s L blocks) (nd : FsNode)
    (hn : (s.fs.vfs.nodes n).isSome) :
    Tracks m₀ L₀ nodes₀ { s with fs := s.fs.setNode n nd } L blocks where
  heap := h.heap
  node k := by
    rw [← h.node k]
    by_cases hk : k = n
    · simp [hk, hn]
    · simp [hk]
  new := h.new
  nodup := h.nodup
  fresh k hk := by
    have hne : k ≠ n := by
      rintro rfl
      simp [h.fresh k hk] at hn
    simpa [hne] using h.fresh k hk

lemma leave {root cur : Ptr} (h : Tracks m₀ L₀ nodes₀ s L blocks)
    (hcur : cur = root ∨ cur ∈ blocks.map Prod.fst) (hl : s.leave root cur = some s') :
    s.fs.leave root cur = .ok s'.fs ∧ ∃ L' blocks', Tracks m₀ L₀ nodes₀ s' L' blocks' ∧
      ∀ k ∈ blocks.map Prod.fst, k ≠ cur → k ∈ blocks'.map Prod.fst := by
  rw [HeapFs.leave] at hl
  rw [Fs.leave]
  split_ifs at hl ⊢ with hroot
  · obtain rfl := some.inj hl
    exact ⟨rfl, L, blocks, h, fun k hk _ => hk⟩
  · exact h.release (hcur.resolve_left hroot) hl

/-- The walk, by induction on the components: what the next lookup makes is new, so it is still
there after the node before it was left. -/
lemma walk {root : Ptr} {names : List CStr} {cur : Ptr} {res : Option Ptr}
    (h : Tracks m₀ L₀ nodes₀ s L blocks) (hcur : cur = root ∨ cur ∈ blocks.map Prod.fst)
    (hlt : cur < s.fs.brk) (hw : HeapFs.walk root names cur s = some (s', res)) :
    Fs.walk root names cur s.fs = .ok (s'.fs, res) ∧
      ∃ L' blocks', Tracks m₀ L₀ nodes₀ s' L' blocks' := by
  induction names generalizing s cur L blocks with
  | nil =>
    obtain ⟨rfl, rfl⟩ : s = s' ∧ some cur = res := by simpa [HeapFs.walk] using hw
    exact ⟨rfl, L, blocks, h⟩
  | cons name names ih =>
    simp only [HeapFs.walk, bind, bind_eq_some_iff] at hw
    obtain ⟨nd, hnode, hw⟩ := hw
    rw [toOption_eq_some] at hnode
    rw [Fs.walk, hnode]
    dsimp only [bind, Except.bind]
    split_ifs at hw ⊢ with hdir
    · simp only [bind_eq_some_iff, some.injEq, Prod.mk.injEq] at hw
      obtain ⟨_, hleave, rfl, rfl⟩ := hw
      obtain ⟨heq, L', blocks', h', -⟩ := h.leave hcur hleave
      rw [heq]
      exact ⟨rfl, L', blocks', h'⟩
    · simp only [bind_eq_some_iff] at hw
      obtain ⟨⟨s₁, next⟩, hlook, hw⟩ := hw
      obtain ⟨s₂, hleave, hw⟩ := hw
      obtain ⟨heq₁, L₁, new, h₁, hnew⟩ := h.lookup hlook
      have hcur₁ : cur = root ∨ cur ∈ (new ++ blocks).map Prod.fst :=
        hcur.imp_right fun hmem => by simp [hmem]
      obtain ⟨heq₂, L₂, blocks₂, h₂, hkept⟩ := h₁.leave hcur₁ hleave
      rw [heq₁]
      dsimp only
      rw [heq₂]
      dsimp only at hw ⊢
      cases next with
      | none =>
        obtain ⟨rfl, rfl⟩ : s₂ = s' ∧ none = res := by simpa using hw
        exact ⟨rfl, L₂, blocks₂, h₂⟩
      | some n =>
        have hn : n = s.fs.brk := by
          rcases Fs.lookup_cases heq₁ with ⟨-, hnone⟩ | ⟨_, -, hsome⟩
          · cases hnone
          · exact some.inj hsome
        have hmem : n ∈ blocks₂.map Prod.fst :=
          hkept n (by simp [hnew]) (hn ▸ Nat.ne_of_gt hlt)
        refine ih h₂ (.inr hmem) ?_ hw
        by_contra hle
        have hnone := h₂.fresh n (Nat.le_of_not_lt hle)
        have hsome := (h₂.node n).2 (.inr hmem)
        simp [hnone] at hsome

end Tracks

namespace HeapFs

variable {s s' : HeapFs} {path : CStr} {res : Option Ptr} {L₀ : HeapMap}

/-- `vfs_resolve` with blocks from the heap finds what it finds without, and the heap has more
blocks by those of the nodes that there are more. -/
theorem vfsResolve_tracks (hw : s.fs.Wf) (hheap : L₀.Inv s.mm)
    (h : s.vfsResolve path = some (s', res)) :
    s.fs.vfsResolve path = .ok (s'.fs, res) ∧
      ∃ L blocks, Tracks s.mm L₀ s.fs.vfs.nodes s' L blocks := by
  have hstart := Tracks.refl hheap hw.node_fresh
  rw [vfsResolve] at h
  rw [Fs.vfsResolve]
  cases hparse : parsePath path with
  | none =>
    obtain ⟨rfl, rfl⟩ : s = s' ∧ none = res := by simpa [hparse] using h
    exact ⟨rfl, L₀, [], hstart⟩
  | some p =>
    obtain ⟨num, rel⟩ := p
    rw [hparse] at h
    dsimp only at h ⊢
    cases hdrive : s.fs.driveRoot num with
    | none =>
      obtain ⟨rfl, rfl⟩ : s = s' ∧ none = res := by simpa [hdrive] using h
      exact ⟨rfl, L₀, [], hstart⟩
    | some root =>
      simp only [hdrive, bind, bind_eq_some_iff] at h
      obtain ⟨⟨s₁, res₁⟩, hwalk, h⟩ := h
      obtain ⟨nd, hroot, -⟩ := hw.root_dir num root hdrive
      have hlt : root < s.fs.brk := by
        by_contra hle
        simp [hw.node_fresh root (Nat.le_of_not_lt hle)] at hroot
      obtain ⟨heq, L, blocks, ht⟩ := hstart.walk (.inl rfl) hlt hwalk
      dsimp only [bind, Except.bind]
      rw [heq]
      dsimp only at h ⊢
      split_ifs at h ⊢ with hres
      · simp only [bind_eq_some_iff, some.injEq, Prod.mk.injEq] at h
        obtain ⟨nd₁, hnode, rfl, rfl⟩ := h
        rw [toOption_eq_some] at hnode
        rw [hnode]
        exact ⟨rfl, L, blocks, ht.setNode _ (by simp [Fs.nodes_of_node hnode])⟩
      · obtain ⟨rfl, rfl⟩ : s₁ = s' ∧ res₁ = res := by simpa using h
        exact ⟨rfl, L, blocks, ht⟩

end HeapFs

end CobjOs
