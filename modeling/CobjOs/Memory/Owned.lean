import CobjOs.Memory.Frames

/-!
# Who has a page

`Owned m L roots R`: a page that a lower half maps is in use, holds no table and no page of the
heap, is mapped once, and is not one of the pages in `R`, which the kernel has set apart (kernel
stacks, and frames between being taken and being mapped).  Each operation of the memory manager
takes pages from one owner to another.

`Blocks m L rs`: the live allocations, by address and size, are `rs` in some order.  `Kept` says
what an operation leaves for those whom it does not concern: the bytes of blocks and of the pages in
`R`, and the kernel's half of every `PML4`; unlike `Extends` also if it frees pages.
-/

namespace CobjOs

open List Mem

/-- The frame that a page of a lower half is mapped to. -/
def Mm.frameAt (m : Mm) (roots : List ℕ) (s k : ℕ) : Option ℕ :=
  (m.pageEntry roots s k).map (· / pageSize)

/-- The pages of the lower halves, the heap, the tables and `R` are all different pages. -/
structure Owned (m : Mm) (L : HeapMap) (roots R : List ℕ) : Prop where
  inv : MmInv m L roots
  mapped : ∀ {s k f}, k < userPages → m.frameAt roots s k = some f →
    f < m.pmm.pageCount ∧ Foreign m L roots f ∧ f ∉ R
  unique : ∀ {s k s' k' f}, k < userPages → k' < userPages → m.frameAt roots s k = some f →
    m.frameAt roots s' k' = some f → s = s' ∧ k = k'
  nodup : R.Nodup
  reserved : ∀ {f}, f ∈ R → Foreign m L roots f

/-- The live allocations by address and size. -/
def HeapMap.records (L : HeapMap) (hhdm : ℕ) : List (ℕ × ℕ) :=
  L.live.map fun a => (a.ptr hhdm, a.size)

/-- The live allocations are the blocks `rs`. -/
def Blocks (m : Mm) (L : HeapMap) (rs : List (ℕ × ℕ)) : Prop := rs.Perm (L.records m.hhdm)

/-- From `m` to `m'` the bytes of the blocks `rs` and of the pages `R` stayed, and the kernel's
half. -/
structure Kept (m m' : Mm) (roots roots' R : List ℕ) (rs : List (ℕ × ℕ)) : Prop where
  hhdm : m'.hhdm = m.hhdm
  kernelPml4 : m'.kernelPml4 = m.kernelPml4
  pageCount : m'.pmm.pageCount = m.pmm.pageCount
  root_prefix : roots <+: roots'
  data : ∀ r ∈ rs, ∀ x, Within r.1 r.2 x → m'.ram x = m.ram x
  frame : ∀ f ∈ R, ∀ x, InPage m f x → m'.ram x = m.ram x
  upper : SameUpper m m' roots

section Basic

variable {m m' : Mm} {L L' : HeapMap} {roots roots' R R' : List ℕ} {s k f : ℕ}

lemma frameAt_congr (h : m'.pageEntry roots' s k = m.pageEntry roots s k) :
    m'.frameAt roots' s k = m.frameAt roots s k := by
  rw [Mm.frameAt, Mm.frameAt, h]

namespace Owned

lemma of_heap (h : L.Inv m) : Owned m L [] [] where
  inv := ⟨h, .nil m, fun ht => absurd ht (not_isTable_nil m _)⟩
  mapped := by
    intro s k f hk hf
    simp [Mm.frameAt, Mm.pageEntry, Mm.leafOf, Mm.leaf, table_nil] at hf
  unique := by
    intro s k s' k' f hk hk' hf
    simp [Mm.frameAt, Mm.pageEntry, Mm.leafOf, Mm.leaf, table_nil] at hf
  nodup := nodup_nil
  reserved := by simp

lemma not_mapped (h : Owned m L roots R) (hk : k < userPages) (hf : m.pmm.used f = false) :
    m.frameAt roots s k ≠ some f :=
  fun hmap => Bool.eq_false_iff.1 hf (h.mapped hk hmap).2.1.used

lemma not_reserved (h : Owned m L roots R) (hf : m.pmm.used f = false) : f ∉ R :=
  fun hmem => Bool.eq_false_iff.1 hf (h.reserved hmem).used

/-- Pages that were foreign are, and no page was mapped anew. -/
lemma transfer (h : Owned m L roots R) (hinv : MmInv m' L' roots')
    (hpc : m'.pmm.pageCount = m.pmm.pageCount)
    (hforeign : ∀ {b}, Foreign m L roots b → Foreign m' L' roots' b)
    (hframe : ∀ {s k f}, k < userPages → m'.frameAt roots' s k = some f →
      m.frameAt roots s k = some f) : Owned m' L' roots' R where
  inv := hinv
  mapped := by
    intro s k f hk hf
    obtain ⟨hlt, hf', hout⟩ := h.mapped hk (hframe hk hf)
    exact ⟨hpc ▸ hlt, hforeign hf', hout⟩
  unique := fun hk hk' hf hf' => h.unique hk hk' (hframe hk hf) (hframe hk' hf')
  nodup := h.nodup
  reserved := fun hf => hforeign (h.reserved hf)

lemma of_extends (h : Owned m L roots R) (hinv : MmInv m' L' roots')
    (hext : Extends m m' L L' roots roots')
    (hframe : ∀ {s k f}, k < userPages → m'.frameAt roots' s k = some f →
      m.frameAt roots s k = some f) : Owned m' L' roots' R :=
  h.transfer hinv hext.pageCount hext.foreign hframe

lemma reserve {fs : List ℕ} (h : Owned m L roots R) (hnodup : fs.Nodup)
    (hfs : ∀ {f}, f ∈ fs → Foreign m L roots f ∧ f ∉ R)
    (hmap : ∀ {s k f}, k < userPages → m.frameAt roots s k = some f → f ∉ fs) :
    Owned m L roots (fs ++ R) where
  inv := h.inv
  mapped := by
    intro s k f hk hf
    obtain ⟨hlt, hforeign, hout⟩ := h.mapped hk hf
    exact ⟨hlt, hforeign, fun hmem => (mem_append.1 hmem).elim (hmap hk hf) hout⟩
  unique := h.unique
  nodup := nodup_append'.2 ⟨hnodup, h.nodup, fun f hf hR => (hfs hf).2 hR⟩
  reserved := by
    intro f hf
    rcases mem_append.1 hf with hf | hf
    · exact (hfs hf).1
    · exact h.reserved hf

lemma forget (h : Owned m L roots R) (hsub : R' ⊆ R) (hnodup : R'.Nodup) : Owned m L roots R' :=
  { h with
    mapped := fun hk hf => (h.mapped hk hf).imp_right (.imp_right fun hout hmem => hout (hsub hmem))
    nodup := hnodup
    reserved := fun hf => h.reserved (hsub hf) }

lemma perm (h : Owned m L roots R) (hperm : R.Perm R') : Owned m L roots R' :=
  h.forget hperm.symm.subset (hperm.nodup_iff.1 h.nodup)

end Owned

end Basic

/-! ## Blocks -/

section Kept

variable {m m' m'' : Mm} {L L' : HeapMap} {roots roots' roots'' R R' : List ℕ}
  {rs rs' : List (ℕ × ℕ)} {r : ℕ × ℕ}

namespace Blocks

lemma alloc (h : Blocks m L rs) (hr : r ∈ rs) :
    ∃ a ∈ L.live, a.ptr m.hhdm = r.1 ∧ a.size = r.2 := by
  obtain ⟨a, ha, rfl⟩ := mem_map.1 (h.subset hr)
  exact ⟨a, ha, rfl, rfl⟩

lemma perm (h : Blocks m L rs) (hperm : rs'.Perm rs) : Blocks m L rs' := hperm.trans h

/-- The other blocks are the other allocations. -/
lemma rest (h : Blocks m L (r :: rs)) : ∃ a ∈ L.live, a.ptr m.hhdm = r.1 ∧ a.size = r.2 ∧
    rs.Perm ((L.live.erase a).map fun a => (a.ptr m.hhdm, a.size)) := by
  obtain ⟨a, ha, hptr, hsize⟩ := h.alloc mem_cons_self
  have hperm := (perm_cons_erase ha).map fun a => (a.ptr m.hhdm, a.size)
  rw [map_cons, hptr, hsize] at hperm
  exact ⟨a, ha, hptr, hsize, (perm_cons r).1 (h.trans hperm)⟩

lemma bounds (h : Blocks m L rs) (hinv : L.Inv m) (hr : r ∈ rs) : r.1 ≠ 0 ∧ r.1 < 2 ^ 64 := by
  obtain ⟨a, ha, hptr, -⟩ := h.alloc hr
  have hlow := hinv.header_le_ptr ha
  obtain ⟨b, hb, hx⟩ := hinv.inPages_of_live ha (x := a.ptr m.hhdm)
    ⟨Nat.le_refl _, Nat.lt_add_of_pos_right (hinv.size_pos ha)⟩
  have hpage := (hinv.page hb).2.1
  have hmapped := hinv.mapped
  unfold slabHeaderSize at hlow
  unfold Within pageSize at hx
  unfold Mm.Mapped pageSize at hmapped
  omega

lemma congr (h : Blocks m L rs) (hhdm : m'.hhdm = m.hhdm) : Blocks m' L rs := by
  rw [Blocks, hhdm]
  exact h

lemma recorded {s space : ℕ} (h : Blocks m L rs) (hspace : (space, Mm.addrSpaceSize) ∈ rs)
    (hat : SpaceAt m roots s space) : Recorded m L roots s space := by
  obtain ⟨a, ha, hptr, hsize⟩ := h.alloc hspace
  exact ⟨hat, a, ha, hptr, hsize⟩

lemma add {as : List Alloc} (h : Blocks m L rs) (hhdm : m'.hhdm = m.hhdm)
    (hlive : L'.live = as ++ L.live) (hrs : as.map (fun a => (a.ptr m.hhdm, a.size)) = rs') :
    Blocks m' L' (rs' ++ rs) := by
  rw [Blocks, HeapMap.records, hlive, map_append, hhdm, hrs]
  exact h.append_left rs'

end Blocks

lemma Recorded.mem_records {s space : ℕ} (h : Recorded m L roots s space) :
    (space, Mm.addrSpaceSize) ∈ L.records m.hhdm := by
  obtain ⟨a, ha, hptr, hsize⟩ := h.alloc
  exact mem_map.2 ⟨a, ha, by rw [hptr, hsize]⟩

lemma Kept.refl (m : Mm) (roots R : List ℕ) (rs : List (ℕ × ℕ)) : Kept m m roots roots R rs :=
  ⟨rfl, rfl, rfl, prefix_refl _, fun _ _ _ _ => rfl, fun _ _ _ _ => rfl,
    fun _ _ _ _ _ => rfl⟩

lemma Kept.trans (h : Kept m m' roots roots' R rs) (h' : Kept m' m'' roots' roots'' R rs) :
    Kept m m'' roots roots'' R rs where
  hhdm := h'.hhdm.trans h.hhdm
  kernelPml4 := h'.kernelPml4.trans h.kernelPml4
  pageCount := h'.pageCount.trans h.pageCount
  root_prefix := h.root_prefix.trans h'.root_prefix
  data := fun r hr x hx => (h'.data r hr x hx).trans (h.data r hr x hx)
  frame := fun f hf x hx =>
    (h'.frame f hf x (by rwa [InPage, Mm.kaddr, h.hhdm])).trans (h.frame f hf x hx)
  upper := fun r hr i hlo hhi =>
    (h'.upper r (h.root_prefix.subset hr) i hlo hhi).trans (h.upper r hr i hlo hhi)

lemma Kept.mono (h : Kept m m' roots roots' R rs) (hrs : ∀ r ∈ rs', r ∈ rs)
    (hR : ∀ f ∈ R', f ∈ R) : Kept m m' roots roots' R' rs' :=
  { h with
    data := fun r hr => h.data r (hrs r hr)
    frame := fun f hf => h.frame f (hR f hf) }

lemma Kept.readNat {w off : ℕ} (h : Kept m m' roots roots' R rs) (hr : r ∈ rs)
    (hoff : off + w ≤ r.2) : m'.ram.readNat w (r.1 + off) = m.ram.readNat w (r.1 + off) := by
  refine readNat_congr fun x hlo hhi => h.data r hr x ?_
  unfold Within
  omega

lemma Kept.of_extends (h : Extends m m' L L' roots roots') (hroots : roots <+: roots')
    (hblocks : Blocks m L rs) (howned : Owned m L roots R) : Kept m m' roots roots' R rs where
  hhdm := h.hhdm
  kernelPml4 := h.kernelPml4
  pageCount := h.pageCount
  root_prefix := hroots
  data := by
    intro r hr x hx
    obtain ⟨a, ha, hptr, hsize⟩ := hblocks.alloc hr
    exact h.data ha (by rwa [hptr, hsize])
  frame := fun f hf _ hx => h.frame (howned.reserved hf) hx
  upper := h.upper

lemma Kept.spaceAt {s space : ℕ} (h : Kept m m' roots roots' R rs)
    (hspace : (space, Mm.addrSpaceSize) ∈ rs) (hat : SpaceAt m roots s space) :
    SpaceAt m' roots' s space := by
  obtain ⟨root, hroot, hread⟩ := hat
  refine SpaceAt.congr ⟨root, ?_, hread⟩ h.hhdm fun x hx => h.data _ hspace x ?_
  · obtain ⟨l, rfl⟩ := h.root_prefix
    rw [getElem?_append_left (List.getElem?_eq_some_iff.1 hroot).1]
    exact hroot
  · unfold Within Mm.addrSpaceSize at *
    omega

end Kept

/-! ## Mapping and unmapping -/

section Map

variable {m m' : Mm} {L : HeapMap} {roots R : List ℕ} {s s' k k' space virt f flags : ℕ}

lemma Maps.frameAt (h : Maps m m' L roots s k (f * pageSize + flags)) (hflags : flags < pageSize)
    (hk : k' < userPages) :
    m'.frameAt roots s' k' = if s' = s ∧ k' = k then some f else m.frameAt roots s' k' := by
  rw [Mm.frameAt, h.entry hk]
  split_ifs
  · rw [Option.map_some, Nat.add_comm, Nat.add_mul_div_right _ _ (by decide),
      Nat.div_eq_of_lt hflags, Nat.zero_add]
  · rfl

lemma Owned.map (h : Owned m L roots (f :: R)) (hlt : f < m.pmm.pageCount)
    (hflags : flags < pageSize)
    (hmaps : Maps m m' L roots s k (f * pageSize + flags)) : Owned m' L roots R where
  inv := hmaps.inv
  mapped := by
    intro s' k' g hk' hg
    rw [hmaps.frameAt hflags hk'] at hg
    split_ifs at hg
    · obtain rfl : f = g := Option.some.inj hg
      exact ⟨hmaps.ext.pageCount ▸ hlt, hmaps.ext.foreign (h.reserved mem_cons_self),
        (nodup_cons.1 h.nodup).1⟩
    · obtain ⟨hlt, hforeign, hout⟩ := h.mapped hk' hg
      exact ⟨hmaps.ext.pageCount ▸ hlt, hmaps.ext.foreign hforeign, fun hmem =>
        hout (mem_cons_of_mem _ hmem)⟩
  unique := by
    -- the mapped page was in nobody's lower half before
    have hnew : ∀ {s k}, k < userPages → m.frameAt roots s k ≠ some f :=
      fun hk hf => (h.mapped hk hf).2.2 mem_cons_self
    intro s₁ k₁ s₂ k₂ g hk₁ hk₂ h₁ h₂
    rw [hmaps.frameAt hflags hk₁] at h₁
    rw [hmaps.frameAt hflags hk₂] at h₂
    split_ifs at h₁ h₂ with hc₁ hc₂ hc₂
    · exact ⟨hc₁.1.trans hc₂.1.symm, hc₁.2.trans hc₂.2.symm⟩
    · obtain rfl : f = g := Option.some.inj h₁
      exact absurd h₂ (hnew hk₂)
    · obtain rfl : f = g := Option.some.inj h₂
      exact absurd h₁ (hnew hk₁)
    · exact h.unique hk₁ hk₂ h₁ h₂
  nodup := (nodup_cons.1 h.nodup).2
  reserved := fun hg => hmaps.ext.foreign (h.reserved (mem_cons_of_mem _ hg))

/-- From `m` to `m'` one page of one space was unmapped. -/
structure Unmaps (m m' : Mm) (L : HeapMap) (roots : List ℕ) (s k : ℕ) : Prop where
  inv : MmInv m' L roots
  ext : Extends m m' L L roots roots
  pmm : m'.pmm = m.pmm
  entry : ∀ {s' k'}, k' < userPages → m'.pageEntry roots s' k' =
    if s' = s ∧ k' = k then none else m.pageEntry roots s' k'

lemma MmInv.vmmUnmapPage (h : MmInv m L roots) (hs : Recorded m L roots s space)
    (hvirt : virt < 2 ^ 47) (hunmap : m.vmmUnmapPage space virt = some m') :
    Unmaps m m' L roots s (virt / pageSize) := by
  obtain ⟨-, hpmm, hg, hr⟩ := vmmUnmapPage_spec h.tables hs.spaceAt hvirt hunmap
  exact ⟨(h.grown hg).1, h.extends_grown hg, hpmm, fun hk => hr.pageEntry hvirt hk⟩

lemma Unmaps.frameAt (h : Unmaps m m' L roots s k) (hk : k' < userPages) :
    m'.frameAt roots s' k' = if s' = s ∧ k' = k then none else m.frameAt roots s' k' := by
  rw [Mm.frameAt, h.entry hk]
  split_ifs <;> rfl

/-- The frame of a page that is unmapped is set apart. -/
lemma Owned.unmap (h : Owned m L roots R) (hk : k < userPages) (hf : m.frameAt roots s k = some f)
    (hunmaps : Unmaps m m' L roots s k) : Owned m' L roots (f :: R) := by
  obtain ⟨-, hforeign, hout⟩ := h.mapped hk hf
  refine (h.of_extends hunmaps.inv hunmaps.ext fun hk' hg => ?_).reserve
    (nodup_singleton f) (fun hg => ?_) fun {s' k' g} hk' hg hmem => ?_
  · rw [hunmaps.frameAt hk'] at hg
    split_ifs at hg
    exact hg
  · obtain rfl := mem_singleton.1 hg
    exact ⟨hunmaps.ext.foreign hforeign, hout⟩
  · obtain rfl := mem_singleton.1 hmem
    rw [hunmaps.frameAt hk'] at hg
    split_ifs at hg with heq
    exact heq (h.unique hk' hk hg hf)

end Map

/-! ## Taking and freeing pages -/

section Pages

variable {m m' : Mm} {L : HeapMap} {roots R : List ℕ} {s k f phys : ℕ} {pmm : Pmm} {ram : Mem}

lemma Owned.take {fs : List ℕ} (h : Owned m L roots R) (hnodup : fs.Nodup)
    (hpc : pmm.pageCount = m.pmm.pageCount)
    (hfree : ∀ {b}, b ∈ fs → m.pmm.used b = false)
    (hbits : ∀ {b}, pmm.used b = true ↔ b ∈ fs ∨ m.pmm.used b = true)
    (hram : EqOff (fun x => ∃ b, b ∈ fs ∧ InPage m b x) m.ram ram) :
    Owned { m with pmm := pmm, ram := ram } L roots (fs ++ R) ∧
      Extends m { m with pmm := pmm, ram := ram } L L roots roots ∧
      ∀ {s k}, k < userPages →
        Mm.pageEntry { m with pmm := pmm, ram := ram } roots s k = m.pageEntry roots s k := by
  obtain ⟨hinv, hentry, hforeign, hext⟩ :=
    h.inv.extends_taken hpc hfree hbits hram
  have hsame : ∀ {s k}, k < userPages →
      Mm.pageEntry { m with pmm := pmm, ram := ram } roots s k = m.pageEntry roots s k :=
    fun hk => pageEntry_congr hentry hk
  refine ⟨?_, hext, hsame⟩
  refine (h.of_extends hinv hext fun hk hf => ?_).reserve hnodup (fun hf => ?_)
    fun hk hf hmem => ?_
  · rwa [← frameAt_congr (hsame hk)]
  · exact ⟨hforeign hf, h.not_reserved (hfree hf)⟩
  · rw [frameAt_congr (hsame hk)] at hf
    exact h.not_mapped hk (hfree hmem) hf

lemma Owned.allocPages {count : ℕ} (h : Owned m L roots R)
    (halloc : m.pmm.allocPages count = some (pmm, phys))
    (hram : EqOff (Within (phys + m.hhdm) (count * pageSize)) m.ram ram) :
    ∃ page, phys = page * pageSize ∧
      (∀ b ∈ List.range' page count, b < m.pmm.pageCount ∧ m.pmm.used b = false) ∧
      Owned { m with pmm := pmm, ram := ram } L roots (List.range' page count ++ R) ∧
      Extends m { m with pmm := pmm, ram := ram } L L roots roots ∧
      (∀ {s k}, k < userPages →
        Mm.pageEntry { m with pmm := pmm, ram := ram } roots s k = m.pageEntry roots s k) ∧
      ∀ {b}, pmm.used b = true ↔ b ∈ List.range' page count ∨ m.pmm.used b = true := by
  obtain ⟨page, rfl, hfree, hpc, hbits⟩ := Pmm.allocPages_spec halloc
  have hmem : ∀ {b}, b ∈ List.range' page count ↔ Pmm.InRun page count b := mem_range'_1
  have hused : ∀ {b}, pmm.used b = true ↔ b ∈ List.range' page count ∨ m.pmm.used b = true := by
    intro b
    rw [hbits, Bool.or_eq_true, decide_eq_true_eq, hmem]
  have hnew : ∀ {b}, b ∈ List.range' page count → b < m.pmm.pageCount ∧ m.pmm.used b = false :=
    fun hb => hfree _ (hmem.1 hb)
  obtain ⟨howned, hext, hentry⟩ := h.take nodup_range' hpc (fun hb => (hnew hb).2) hused
    (hram.mono fun x hx => HeapMap.exists_page_of_within hx)
  exact ⟨page, rfl, fun b hb => hnew hb, howned, hext, hentry, hused⟩

lemma Owned.allocPage (h : Owned m L roots R) (halloc : m.pmm.allocPage = some (pmm, phys))
    (hram : EqOff (Within (phys + m.hhdm) pageSize) m.ram ram) :
    ∃ f, phys = f * pageSize ∧ (f < m.pmm.pageCount ∧ m.pmm.used f = false) ∧
      Owned { m with pmm := pmm, ram := ram } L roots (f :: R) ∧
      Extends m { m with pmm := pmm, ram := ram } L L roots roots ∧
      (∀ {s k}, k < userPages →
        Mm.pageEntry { m with pmm := pmm, ram := ram } roots s k = m.pageEntry roots s k) ∧
      ∀ {b}, pmm.used b = true ↔ b ∈ [f] ∨ m.pmm.used b = true := by
  have hone : m.pmm.allocPages 1 = some (pmm, phys) := halloc
  obtain ⟨f, hf, hnew, hrest⟩ := h.allocPages hone (by rwa [Nat.one_mul])
  exact ⟨f, hf, hnew f (mem_singleton_self f), hrest⟩

lemma Owned.release {fs : List ℕ} (h : Owned m L roots (fs ++ R))
    (hpc : pmm.pageCount = m.pmm.pageCount)
    (hbits : ∀ {b}, pmm.used b = true ↔ b ∉ fs ∧ m.pmm.used b = true) :
    Owned { m with pmm := pmm } L roots R := by
  obtain ⟨-, hnodup, hdisj⟩ := nodup_append'.1 h.nodup
  have hfs : ∀ {b}, b ∈ fs → Foreign m L roots b :=
    fun hb => h.reserved (mem_append_left _ hb)
  obtain ⟨hinv, -⟩ : MmInv { m with pmm := pmm } L roots ∧
      SameEntries m { m with pmm := pmm } roots :=
    h.inv.frame rfl rfl hpc
      (fun b hb => hbits.2 ⟨fun hmem => hb.elim (hfs hmem).heap (hfs hmem).table, h.inv.used hb⟩)
      fun _ _ _ _ => rfl
  have hforeign : ∀ {b}, b ∉ fs → Foreign m L roots b → Foreign { m with pmm := pmm } L roots b :=
    fun hout hb => ⟨hbits.2 ⟨hout, hb.used⟩, hb.table, hb.heap⟩
  refine ⟨hinv, fun {s k g} hk hg => ?_, h.unique, hnodup, fun {g} hg => ?_⟩
  · obtain ⟨hlt, hg', hout⟩ := h.mapped hk hg
    rw [mem_append, not_or] at hout
    exact ⟨hpc.symm ▸ hlt, hforeign hout.1 hg', hout.2⟩
  · exact hforeign (fun hmem => hdisj hmem hg) (h.reserved (mem_append_right _ hg))

lemma Owned.freePage (h : Owned m L roots (f :: R))
    (hfree : m.pmm.freePage (f * pageSize) = some pmm) :
    Owned { m with pmm := pmm } L roots R ∧ pmm.pageCount = m.pmm.pageCount ∧
      ∀ {b}, pmm.used b = true ↔ b ≠ f ∧ m.pmm.used b = true := by
  obtain ⟨-, -, -, -, hpc, hbits⟩ := Pmm.freePage_eq_some hfree
  rw [Nat.mul_div_cancel _ (by decide)] at hbits
  have hused : ∀ {b}, pmm.used b = true ↔ b ≠ f ∧ m.pmm.used b = true := by
    intro b
    simp [hbits]
  have h' : Owned m L roots ([f] ++ R) := h
  refine ⟨h'.release hpc fun {b} => ?_, hpc, hused⟩
  rw [hused, mem_singleton]

lemma Owned.freePages {page count : ℕ} (h : Owned m L roots (List.range' page count ++ R))
    (hpos : page ≠ 0) (hlt : page + count ≤ m.pmm.pageCount) :
    ∃ pmm, m.pmm.freePages (page * pageSize) count = some pmm ∧
      Owned { m with pmm := pmm } L roots R ∧ pmm.pageCount = m.pmm.pageCount ∧
      ∀ {b}, pmm.used b = true ↔ b ∉ List.range' page count ∧ m.pmm.used b = true := by
  have hmem : ∀ {b}, b ∈ List.range' page count ↔ Pmm.InRun page count b := mem_range'_1
  have haddr : m.pmm.Addressable := by
    have hmapped := h.inv.heap.mapped
    unfold Pmm.Addressable
    unfold Mm.Mapped at hmapped
    omega
  obtain ⟨pmm, hfree, hpc, hbits⟩ := Pmm.freePages_eq haddr fun b hb => by
    have hforeign := h.reserved (mem_append_left _ (hmem.2 hb))
    exact ⟨Nat.ne_of_gt (Nat.lt_of_lt_of_le (Nat.pos_of_ne_zero hpos) hb.1), hb.2.trans_le hlt,
      hforeign.used⟩
  have hused : ∀ {b}, pmm.used b = true ↔
      b ∉ List.range' page count ∧ m.pmm.used b = true := by
    intro b
    rw [hbits, hmem, Bool.and_eq_true, Bool.not_eq_true', decide_eq_false_iff_not]
  exact ⟨pmm, hfree, h.release hpc hused, hpc, hused⟩

lemma Owned.rewrite (h : Owned m L roots R) (hinv : MmInv { m with ram := ram } L roots)
    (hentry : SameEntries m { m with ram := ram } roots) :
    Owned { m with ram := ram } L roots R ∧ ∀ {s k}, k < userPages →
      Mm.pageEntry { m with ram := ram } roots s k = m.pageEntry roots s k := by
  have hsame : ∀ {s k}, k < userPages →
      Mm.pageEntry { m with ram := ram } roots s k = m.pageEntry roots s k :=
    fun hk => pageEntry_congr hentry hk
  have hforeign : ∀ {b}, Foreign m L roots b → Foreign { m with ram := ram } L roots b :=
    fun hb => ⟨hb.used, fun ht => hb.table ((isTable_congr hentry).1 ht), hb.heap⟩
  exact ⟨h.transfer hinv rfl hforeign fun hk hf => by rwa [← frameAt_congr (hsame hk)], hsame⟩

lemma Owned.write {W : ℕ → Prop} (h : Owned m L roots R) (hW : ∀ {b}, W b → Foreign m L roots b)
    (hram : EqOff (fun x => ∃ b, W b ∧ InPage m b x) m.ram ram) :
    Owned { m with ram := ram } L roots R ∧
      (∀ {t}, IsTable { m with ram := ram } roots t ↔ IsTable m roots t) ∧
      ∀ {s k}, k < userPages →
        Mm.pageEntry { m with ram := ram } roots s k = m.pageEntry roots s k := by
  obtain ⟨hinv, hentry⟩ := h.inv.writeForeign hW hram
  obtain ⟨howned, hsame⟩ := h.rewrite hinv hentry
  exact ⟨howned, isTable_congr hentry, hsame⟩

end Pages

/-! ## Allocations and address spaces -/

section Records

variable {m m' : Mm} {L L' : HeapMap} {roots R : List ℕ} {ptr size space n : ℕ} {a : Alloc}
  {rs : List (ℕ × ℕ)}

lemma Owned.frees (h : Owned m L roots R) (hf : Frees m m' L L' roots a) :
    Owned m' L' roots R :=
  h.transfer hf.inv hf.pageCount hf.foreign fun hk hg => by rwa [← frameAt_congr (hf.entry hk)]

lemma Owned.kfree {r : ℕ × ℕ} (h : Owned m L roots R) (hblocks : Blocks m L (r :: rs)) :
    ∃ m' L' a, m.kfree r.1 = some m' ∧ Frees m m' L L' roots a ∧ Owned m' L' roots R ∧
      Blocks m' L' rs ∧ Kept m m' roots roots R rs ∧
      (r.2 ≤ 2048 → ∀ b, m'.pmm.used b = m.pmm.used b) := by
  obtain ⟨a, ha, hptr, hsize, hrest⟩ := hblocks.rest
  obtain ⟨m', L', hfree, hf⟩ := h.inv.kfree ha
  refine ⟨m', L', a, hptr ▸ hfree, hf, h.frees hf, ?_, ⟨hf.hhdm, hf.kernelPml4,
    hf.pageCount, prefix_refl _, fun q hq x hx => ?_,
    fun g hg x hx => hf.frame (h.reserved hg).heap hx, hf.upper⟩, fun hle b => ?_⟩
  · rw [Blocks, HeapMap.records, hf.live, hf.hhdm]
    exact hrest
  · obtain ⟨c, hc, rfl⟩ := mem_map.1 (hrest.subset hq)
    exact hf.data (hf.live ▸ hc) hx
  · rw [hf.used, h.inv.heap.pages_of_small ha (hsize ▸ hle)]
    simp

lemma Owned.writeBlock {r : ℕ × ℕ} {ram : Mem} (h : Owned m L roots R)
    (hblocks : Blocks m L (r :: rs)) (hram : EqOff (Within r.1 r.2) m.ram ram) :
    Owned { m with ram := ram } L roots R ∧ Kept m { m with ram := ram } roots roots R rs ∧
      ∀ {s k}, k < userPages →
        Mm.pageEntry { m with ram := ram } roots s k = m.pageEntry roots s k := by
  obtain ⟨a, ha, hptr, hsize, hrest⟩ := hblocks.rest
  rw [← hptr, ← hsize] at hram
  obtain ⟨hinv, hentry⟩ := h.inv.writeLive ha hram
  obtain ⟨howned, hsame⟩ := h.rewrite hinv hentry
  refine ⟨howned,
    ⟨rfl, rfl, rfl, prefix_refl _, fun q hq x hx => hram x fun hxa => ?_,
      fun f hf x hx => hram x fun hxa => ?_, hentry.upper⟩, hsame⟩
  · obtain ⟨c, hc, rfl⟩ := mem_map.1 (hrest.subset hq)
    have hnodup : L.live.Nodup := List.Nodup.of_map _ h.inv.heap.live_nodup
    obtain ⟨hne, hc⟩ := hnodup.mem_erase_iff.1 hc
    exact h.inv.heap.live_live hc ha hne hx hxa
  · exact (h.reserved hf).heap (hx.mem_pages (h.inv.heap.inPages_of_live ha hxa))

lemma Owned.writeFrame {ram : Mem} {s k f : ℕ} (h : Owned m L roots R)
    (hblocks : Blocks m L rs) (hk : k < userPages) (hf : m.frameAt roots s k = some f)
    (hram : EqOff (InPage m f) m.ram ram) :
    Owned { m with ram := ram } L roots R ∧ Kept m { m with ram := ram } roots roots R rs ∧
      ∀ {s k}, k < userPages →
        Mm.pageEntry { m with ram := ram } roots s k = m.pageEntry roots s k := by
  obtain ⟨-, hforeign, hout⟩ := h.mapped hk hf
  have hW : ∀ {b}, b = f → Foreign m L roots b := by
    rintro b rfl
    exact hforeign
  have hram' : EqOff (fun x => ∃ b, b = f ∧ InPage m b x) m.ram ram :=
    hram.mono fun x hx => ⟨f, rfl, hx⟩
  obtain ⟨-, hentry⟩ := h.inv.writeForeign hW hram'
  obtain ⟨howned, -, hsame⟩ := h.write hW hram'
  refine ⟨howned, ⟨rfl, rfl, rfl, prefix_refl _, fun r hr x hx => hram x fun hxf => ?_,
    fun g hg x hx => hram x fun hxf => ?_, hentry.upper⟩, hsame⟩
  · obtain ⟨a, ha, hptr, hsize⟩ := hblocks.alloc hr
    rw [← hptr, ← hsize] at hx
    exact hforeign.heap (hxf.mem_pages (h.inv.heap.inPages_of_live ha hx))
  · exact hout (hx.unique hxf ▸ hg)

lemma Owned.addsRoot (h : Owned m L roots R) (hr : AddsRoot m m' L L' roots n space) :
    Owned m' L' (roots ++ [n]) R :=
  h.of_extends hr.inv hr.ext fun hk hf => by rwa [← frameAt_congr (hr.entry hk)]

end Records

/-! ## Building a space -/

section Build

variable {m m' m'' : Mm} {L L' : HeapMap} {roots R : List ℕ} {s space : ℕ}

/-- From `m` to `m'` records `rs` were made, given by address and size with the last one first, and
pages `fs` were taken for a space, in which at most the pages `ks` were mapped. -/
structure Builds (m m' : Mm) (L L' : HeapMap) (roots R R' : List ℕ) (s : ℕ) (rs : List (ℕ × ℕ))
    (ks fs : List ℕ) : Prop where
  owned : Owned m' L' roots R'
  ext : Extends m m' L L' roots roots
  live : ∃ as, L'.live = as ++ L.live ∧ as.map (fun a => (a.ptr m.hhdm, a.size)) = rs
  new : ∀ f ∈ fs, m.pmm.used f = false ∧ Foreign m' L' roots f
  pages_mono : ∀ {b}, b ∈ L.pages → b ∈ L'.pages
  taken : ∀ {b}, m'.pmm.used b = true →
    m.pmm.used b = true ∨ b ∈ L'.pages ∨ IsTable m' roots b ∨ b ∈ fs
  entry : ∀ {s' k}, k < userPages → (s' ≠ s ∨ k ∉ ks) →
    m'.pageEntry roots s' k = m.pageEntry roots s' k

namespace Builds

variable {L'' : HeapMap} {R' R'' ks ks' fs fs' : List ℕ} {rs rs' : List (ℕ × ℕ)}

lemma refl (h : Owned m L roots R) : Builds m m L L roots R R s [] [] [] where
  owned := h
  ext := .refl m L roots
  live := ⟨[], rfl, rfl⟩
  new := by simp
  pages_mono := id
  taken := .inl
  entry := fun _ _ => rfl

lemma trans (h : Builds m m' L L' roots R R' s rs ks fs)
    (h' : Builds m' m'' L' L'' roots R' R'' s rs' ks' fs') :
    Builds m m'' L L'' roots R R'' s (rs' ++ rs) (ks ++ ks') (fs ++ fs') where
  owned := h'.owned
  ext := h.ext.trans h'.ext
  live := by
    obtain ⟨as, hlive, has⟩ := h.live
    obtain ⟨as', hlive', has'⟩ := h'.live
    rw [h.ext.hhdm] at has'
    exact ⟨as' ++ as, by rw [hlive', hlive, append_assoc], by rw [map_append, has, has']⟩
  new := by
    intro f hf
    rcases mem_append.1 hf with hf | hf
    · exact ⟨(h.new f hf).1, h'.ext.foreign (h.new f hf).2⟩
    · exact ⟨h.ext.free (h'.new f hf).1, (h'.new f hf).2⟩
  pages_mono := fun hb => h'.pages_mono (h.pages_mono hb)
  taken := by
    intro b hb
    rcases h'.taken hb with hb | hb | hb | hb
    · rcases h.taken hb with hb | hb | hb | hb
      · exact .inl hb
      · exact .inr (.inl (h'.pages_mono hb))
      · exact .inr (.inr (.inl (h'.ext.table hb)))
      · exact .inr (.inr (.inr (mem_append_left _ hb)))
    · exact .inr (.inl hb)
    · exact .inr (.inr (.inl hb))
    · exact .inr (.inr (.inr (mem_append_right _ hb)))
  entry := by
    intro s' k hk hout
    rw [mem_append, not_or] at hout
    rw [h'.entry hk (hout.imp_right And.right), h.entry hk (hout.imp_right And.left)]

lemma mono (h : Builds m m' L L' roots R R' s rs ks fs) (hks : ∀ k ∈ ks, k ∈ ks') :
    Builds m m' L L' roots R R' s rs ks' fs :=
  { h with
    entry := fun hk hout => h.entry hk (hout.imp_right fun hk' hmem => hk' (hks _ hmem)) }

lemma kept {others : List (ℕ × ℕ)} (h : Builds m m' L L' roots R R' s rs ks fs)
    (howned : Owned m L roots R) (hblocks : Blocks m L others) :
    Kept m m' roots roots R others ∧ Blocks m' L' (rs ++ others) := by
  obtain ⟨as, hlive, has⟩ := h.live
  exact ⟨.of_extends h.ext (prefix_refl _) hblocks howned, hblocks.add h.ext.hhdm hlive has⟩

/-- The pages that were taken are written. -/
lemma write {W : ℕ → Prop} {ram : Mem} (h : Builds m m' L L' roots R R' s rs ks fs)
    (hW : ∀ {b}, W b → b ∈ fs)
    (hram : EqOff (fun x => ∃ b, W b ∧ InPage m' b x) m'.ram ram) :
    Builds m { m' with ram := ram } L L' roots R R' s rs ks fs := by
  obtain ⟨howned, htable, hentry⟩ := h.owned.write (fun hb => (h.new _ (hW hb)).2) hram
  refine
    { h with
      owned := howned
      ext := h.ext.writeNew h.owned.inv (fun hb => (h.new _ (hW hb)).symm) hram
      new := fun f hf => ?_
      taken := fun hb => (h.taken hb).imp_right (.imp_right (.imp_left htable.2))
      entry := fun hk hout => (hentry hk).trans (h.entry hk hout) }
  obtain ⟨hfree, hf'⟩ := h.new f hf
  exact ⟨hfree, hf'.used, fun ht => hf'.table (htable.1 ht), hf'.heap⟩

end Builds

lemma AddsRecord.builds {ptr size : ℕ} (h : Owned m L roots R)
    (hr : AddsRecord m m' L L' roots ptr size) :
    Builds m m' L L' roots R R s [(ptr, size)] [] [] where
  owned := h.of_extends hr.inv hr.ext fun hk hf => by rwa [← frameAt_congr (hr.entry hk)]
  ext := hr.ext
  live := by
    obtain ⟨a, hlive, rfl, rfl⟩ := hr.live
    exact ⟨[a], hlive, rfl⟩
  new := by simp
  pages_mono := hr.pages_mono
  taken := fun hb => (hr.taken hb).imp_right .inl
  entry := fun hk _ => hr.entry hk

lemma Owned.kmalloc {ptr size : ℕ} (h : Owned m L roots R) (hpos : 0 < size)
    (hwrap : size + 8 + 4095 < 2 ^ 64) (hk : m.kmalloc size = some (m', ptr)) :
    ∃ L', Builds m m' L L' roots R R s [(ptr, size)] [] [] := by
  obtain ⟨L', hr⟩ := h.inv.newRecord hpos hwrap hk (EqOff.refl _)
  exact ⟨L', hr.builds h⟩

lemma Owned.dropFrame {pmm : Pmm} {phys : ℕ} (h : Owned m L roots R)
    (halloc : m.pmm.allocPage = some (pmm, phys)) :
    ∃ f, Builds m { m with pmm := pmm } L L roots R R s [] [] [f] := by
  obtain ⟨f, rfl, hfree, howned, hext, hentry, hused⟩ := h.allocPage halloc (EqOff.refl _)
  refine ⟨f, howned.forget (subset_cons_self _ _) h.nodup, hext, ⟨[], rfl, rfl⟩, fun g hg => ?_, id,
    fun hb => (hused.1 hb).symm.imp_right fun hb => .inr (.inr hb), fun hk _ => hentry hk⟩
  obtain rfl := mem_singleton.1 hg
  exact ⟨hfree.2, howned.reserved mem_cons_self⟩

lemma Owned.mapFrame {pmm : Pmm} {ram : Mem} {virt phys flags : ℕ} (h : Owned m L roots R)
    (hs : Recorded m L roots s space) (hvirt : virt < 2 ^ 47) (hflags : flags < 4096)
    (halloc : m.pmm.allocPage = some (pmm, phys))
    (hram : EqOff (Within (phys + m.hhdm) pageSize) m.ram ram)
    (hmap : Mm.vmmMapPage { m with pmm := pmm, ram := ram } space virt phys flags = some m') :
    ∃ f, Builds m m' L L roots R R s [] [virt / pageSize] [f] := by
  obtain ⟨f, rfl, hfree, howned, hext, hentry, hused⟩ := h.allocPage halloc hram
  have hlt : flags ||| pagePresent < pageSize := Nat.or_lt_two_pow (n := 12) hflags (by decide)
  have hpc : f < pmm.pageCount := lt_of_lt_of_eq hfree.1 hext.pageCount.symm
  have hmaps := howned.inv.vmmMapPage (hs.extends hext fun _ hr => hr) hvirt hpc hflags hmap
  refine ⟨f, howned.map hpc hlt hmaps, hext.trans hmaps.ext, ⟨[], rfl, rfl⟩, fun g hg => ?_, id,
    fun {b} hb => ?_, fun {s' k} hk hout => ?_⟩
  · obtain rfl := mem_singleton.1 hg
    exact ⟨hfree.2, hmaps.ext.foreign (howned.reserved mem_cons_self)⟩
  · rcases hmaps.taken hb with hb | hb
    · exact (hused.1 hb).symm.imp_right fun hb => .inr (.inr hb)
    · exact .inr (.inr (.inl hb))
  · have hne : ¬(s' = s ∧ k = virt / pageSize) := by
      rintro ⟨rfl, rfl⟩
      exact hout.elim (· rfl) fun hk => hk mem_cons_self
    rw [hmaps.entry hk, if_neg hne, hentry hk]

end Build

end CobjOs
