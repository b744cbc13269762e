import Mathlib.Data.List.Perm.Subperm
import CobjOs.Framework.Transition
import CobjOs.Memory.Owned
import CobjOs.Process.Mmap

/-!
# What `sys_mmap` and `sys_munmap` do to memory

`MmInv.sysMmap` says which pages the call maps, to which frames.  The lemmas after it say what both
calls keep: `Owned`, the other blocks of the heap, and the list of the regions of the process, as a
list of blocks threaded through memory (`Regions`).
-/

namespace CobjOs

open List Mem Option

variable {m m' : Mm} {L : HeapMap} {roots : List ℕ} {s space vaddr addr size v : ℕ}
  {proc proc' : ProcMem}

lemma page_lt {i n : ℕ} (hi : i < n) (hlt : vaddr + n * pageSize < 2 ^ 47 + pageSize) :
    vaddr + i * pageSize < 2 ^ 47 := by
  have hle := Nat.mul_le_mul_right pageSize hi
  rw [Nat.succ_mul] at hle
  omega

/-- The pages of the loop follow each other. -/
lemma page_add (vaddr n : ℕ) : (vaddr + n * pageSize) / pageSize = vaddr / pageSize + n :=
  Nat.add_mul_div_right _ _ (by decide)

lemma Mm.mmapPage_eq_some {n : ℕ} (hvirt : vaddr + n * pageSize < 2 ^ 47)
    (hturn : Mm.mmapPage space vaddr m n = some m') :
    ∃ pmm phys, m.pmm.allocPage = some (pmm, phys) ∧
      Mm.vmmMapPage { m with pmm := pmm } space (vaddr + n * pageSize) phys userFlags = some m' := by
  obtain ⟨⟨pmm, phys⟩, halloc, hmap⟩ := bind_eq_some_iff.1 hturn
  rw [u64, Nat.mod_eq_of_lt (hvirt.trans (by decide))] at hmap
  exact ⟨pmm, phys, halloc, hmap⟩

/-- The loop of `sys_mmap` maps a range of pages to new frames. -/
lemma MmInv.mmapPages (h : MmInv m L roots) (hs : Recorded m L roots s space) {n : ℕ}
    (hlt : vaddr + n * pageSize < 2 ^ 47 + pageSize)
    (hrun : (List.range n).foldlM (Mm.mmapPage space vaddr) m = some m') :
    ∃ fs : List ℕ, fs.length = n ∧
      MapsRange m m' L roots s (vaddr / pageSize) fs Mm.userFlags := by
  refine foldlM_range_invariant ⟨[], rfl, .nil h⟩ ?_ hrun
  rintro i m₁ m' hi ⟨fs, hlen, hrange⟩ hturn
  have hvirt := page_lt hi hlt
  obtain ⟨pmm, phys, halloc, hmap⟩ := Mm.mmapPage_eq_some hvirt hturn
  have hs₁ := hs.extends hrange.ext fun _ hroot => hroot
  obtain ⟨f, -, hf, -⟩ :=
    hrange.inv.mapFrame hs₁ hvirt (by decide) halloc (EqOff.refl _) hmap
  rw [page_add, ← hlen] at hf
  exact ⟨fs ++ [f], by simp [hlen], hrange.snoc hf⟩

/-- The fields of a region are in its block. -/
lemma region_eqOff (ram : Mem) (region a b c : ℕ) :
    EqOff (Within region vmRegionSize) ram
      (((ram.writeNat 8 region a).writeNat 8 (region + 8) b).writeNat 8 (region + 16) c) := by
  refine ((EqOff.writeNat _ fun x hx => ?_).trans (EqOff.writeNat _ fun x hx => ?_)).trans
    (EqOff.writeNat _ fun x hx => ?_) <;> unfold vmRegionSize <;>
    unfold Within at hx ⊢ <;> omega

lemma Mm.sysMmap_eq_some (hcall : m.sysMmap proc addr size = some (m', proc', v)) :
    v = (if addr ≠ 0 then addr else proc.heapTop) ∧
      proc' = { proc with
        heapTop := u64 (v + u64 (size + 4095) / pageSize * pageSize), regions := proc'.regions } ∧
      ∃ m₁ m₂, (List.range (u64 (size + 4095) / pageSize)).foldlM
          (mmapPage proc.addrSpace v) m = some m₁ ∧
        m₁.kmalloc vmRegionSize = some (m₂, proc'.regions) ∧
        m' = { m₂ with
          ram := ((m₂.ram.writeNat 8 proc'.regions v).writeNat 8 (proc'.regions + 8)
            (u64 (u64 (size + 4095) / pageSize * pageSize))).writeNat 8 (proc'.regions + 16)
              proc.regions } := by
  simp only [Mm.sysMmap, bind, bind_eq_some_iff] at hcall
  obtain ⟨m₁, hloop, ⟨m₂, region⟩, hk, hres⟩ := hcall
  simp only [some.injEq, Prod.mk.injEq] at hres
  obtain ⟨rfl, rfl, rfl⟩ := hres
  exact ⟨rfl, rfl, m₁, m₂, hloop, hk, rfl⟩

lemma Mm.sysMunmap_eq_some (hcall : m.sysMunmap proc addr size = some (m', proc')) :
    proc' = { proc with regions := proc'.regions } ∧
      ∃ m₁, m.unlinkRegion addr proc.regions (2 ^ 64) 0 proc.regions = some (m₁, proc'.regions) ∧
        (List.range (u64 (size + 4095) / pageSize)).foldlM (munmapPage proc.addrSpace addr) m₁ =
          some m' := by
  simp only [Mm.sysMunmap, bind, bind_eq_some_iff] at hcall
  obtain ⟨⟨m₁, regions⟩, hunlink, m₂, hloop, hres⟩ := hcall
  obtain ⟨rfl, rfl⟩ := Prod.mk.inj (some.inj hres)
  exact ⟨rfl, m₁, hunlink, hloop⟩

/-- `sys_mmap` maps the pages from the one of the returned address on to new frames, and keeps a
record of them. -/
lemma MmInv.sysMmap (h : MmInv m L roots) (hs : Recorded m L roots s proc.addrSpace)
    (hcall : m.sysMmap proc addr size = some (m', proc', v))
    (htop : v + u64 (size + 4095) / pageSize * pageSize < 2 ^ 47 + pageSize) :
    ∃ m₁ L' fs, fs.length = u64 (size + 4095) / pageSize ∧
      MapsRange m m₁ L roots s (v / pageSize) fs Mm.userFlags ∧
      AddsRecord m₁ m' L L' roots proc'.regions vmRegionSize := by
  obtain ⟨-, -, m₁, m₂, hloop, hk, rfl⟩ := Mm.sysMmap_eq_some hcall
  obtain ⟨fs, hlen, hrange⟩ := h.mmapPages hs htop hloop
  obtain ⟨L', hrec⟩ := hrange.inv.newRecord (by decide) (by decide) hk (region_eqOff _ _ _ _ _)
  exact ⟨m₁, L', fs, hlen, hrange, hrec⟩

/-! ## Mapping -/

section Map

variable {L' : HeapMap} {R : List ℕ} {others : List (ℕ × ℕ)}

lemma Owned.mmapPages (h : Owned m L roots R) (hs : Recorded m L roots s space) {n : ℕ}
    (hlt : vaddr + n * pageSize < 2 ^ 47 + pageSize)
    (hrun : (List.range n).foldlM (Mm.mmapPage space vaddr) m = some m') :
    ∃ fs, Builds m m' L L roots R R s [] (List.range' (vaddr / pageSize) n) fs := by
  refine foldlM_range_invariant ⟨[], .refl h⟩ ?_ hrun
  rintro i m₁ m' hi ⟨fs, hbuilds⟩ hturn
  have hvirt := page_lt hi hlt
  obtain ⟨pmm, phys, halloc, hmap⟩ := Mm.mmapPage_eq_some hvirt hturn
  obtain ⟨f, hone⟩ := hbuilds.owned.mapFrame (hs.extends hbuilds.ext fun _ hr => hr) hvirt
    (by decide) halloc (EqOff.refl _) hmap
  rw [page_add] at hone
  refine ⟨fs ++ [f], ?_⟩
  rw [range'_concat, Nat.one_mul]
  exact hbuilds.trans hone

/-- The record of a new region leads to the regions before it. -/
lemma Owned.sysMmap (h : Owned m L roots R) (hs : Recorded m L roots s proc.addrSpace)
    (hcall : m.sysMmap proc addr size = some (m', proc', v)) (hhead : proc.regions < 2 ^ 64)
    (htop : v + u64 (size + 4095) / pageSize * pageSize < 2 ^ 47 + pageSize) :
    v = (if addr ≠ 0 then addr else proc.heapTop) ∧
      proc' = { proc with
        heapTop := u64 (v + u64 (size + 4095) / pageSize * pageSize), regions := proc'.regions } ∧
      (proc'.regions ≠ 0 ∧ m'.ram.readNat 8 (proc'.regions + 16) = proc.regions) ∧
      ∃ L' fs, Builds m m' L L' roots R R s [(proc'.regions, vmRegionSize)]
        (List.range' (v / pageSize) (u64 (size + 4095) / pageSize)) fs := by
  obtain ⟨hv, hproc, m₁, m₂, hloop, hk, rfl⟩ := Mm.sysMmap_eq_some hcall
  obtain ⟨fs, hbuilds⟩ := h.mmapPages hs htop hloop
  obtain ⟨L', hrec⟩ := hbuilds.owned.inv.newRecord (by decide) (by decide) hk
    (region_eqOff _ _ _ _ _)
  refine ⟨hv, hproc, ⟨?_, readNat_writeNat _ _ hhead⟩, L', fs, ?_⟩
  · obtain ⟨a, hlive, hptr, -⟩ := hrec.live
    have hlow := hrec.inv.heap.header_le_ptr (a := a) (by simp [hlive])
    rw [hrec.ext.hhdm, hptr] at hlow
    exact Nat.ne_of_gt (Nat.lt_of_lt_of_le (by decide) hlow)
  · simpa using hbuilds.trans (hrec.builds hbuilds.owned)

end Map

/-! ## Unmapping -/

/-- From `m` to `m'` the pages `ks` of a space were unmapped, and their frames freed. -/
structure UnmapsPages (m m' : Mm) (L : HeapMap) (roots R : List ℕ) (s : ℕ) (ks : List ℕ) : Prop where
  owned : Owned m' L roots R
  kept : Kept m m' roots roots R (L.records m.hhdm)
  freed : ∀ {b}, m.pmm.used b = true → m'.pmm.used b = true ∨
    ∃ k ∈ ks, k < userPages ∧ m.frameAt roots s k = some b
  entry : ∀ {s' k}, k < userPages → m'.pageEntry roots s' k =
    if s' = s ∧ k ∈ ks then none else m.pageEntry roots s' k

section Unmap

variable {R ks ks' : List ℕ} {m'' : Mm} {virt t k : ℕ}

namespace UnmapsPages

lemma refl (h : Owned m L roots R) : UnmapsPages m m L roots R s [] where
  owned := h
  kept := .refl m roots R _
  freed := .inl
  entry := by simp

/-- A page that is not mapped can be left. -/
lemma of_unmapped (h : Owned m L roots R) (hk : m.pageEntry roots s k = none) :
    UnmapsPages m m L roots R s [k] where
  owned := h
  kept := .refl m roots R _
  freed := .inl
  entry := by
    intro s' k' _
    split_ifs with heq
    · obtain ⟨rfl, hmem⟩ := heq
      rw [mem_singleton.1 hmem, hk]
    · rfl

lemma trans (h : UnmapsPages m m' L roots R s ks) (h' : UnmapsPages m' m'' L roots R s ks') :
    UnmapsPages m m'' L roots R s (ks ++ ks') where
  owned := h'.owned
  kept := h.kept.trans (h.kept.hhdm ▸ h'.kept)
  freed := by
    intro b hb
    rcases h.freed hb with hb | ⟨k, hk, hlt, hf⟩
    · rcases h'.freed hb with hb | ⟨k, hk, hlt, hf⟩
      · exact .inl hb
      · refine .inr ⟨k, mem_append_right _ hk, hlt, ?_⟩
        rw [Mm.frameAt, h.entry hlt] at hf
        split_ifs at hf
        · cases hf
        · exact hf
    · exact .inr ⟨k, mem_append_left _ hk, hlt, hf⟩
  entry := by
    intro s' k hk
    rw [h'.entry hk, h.entry hk]
    by_cases hs : s' = s
    · by_cases hks : k ∈ ks <;> by_cases hks' : k ∈ ks' <;> simp [hs, hks, hks']
    · simp [hs]

end UnmapsPages

lemma vmmUnmapPage_eq (hs : SpaceAt m roots s space)
    (ht : m.table roots s (Mm.pathOf virt) = some t)
    (hpres : isPresent (m.entry t (ptIdx virt)) = true) :
    m.vmmUnmapPage space virt = some (m.setEntry t (ptIdx virt) 0) := by
  have hentry : m.ram.readNat 8 (m.kaddr t + 8 * ptIdx virt) = m.entry t (ptIdx virt) := rfl
  simp only [Mm.vmmUnmapPage, vmmGetPte_false hs, ht, bind, bind_some, map_some,
    hentry, if_pos hpres]
  rfl

lemma Owned.frame_used {e : ℕ} (h : Owned m L roots R) (hk : k < userPages)
    (he : m.pageEntry roots s k = some e) :
    m.frameAt roots s k = some (entryToPhys e / pageSize) ∧
      m.pmm.used (entryToPhys e / pageSize) = true := by
  have hdiv : entryToPhys e / pageSize = e / pageSize := Nat.mul_div_cancel _ (by decide)
  have hframe : m.frameAt roots s k = some (entryToPhys e / pageSize) := by
    rw [Mm.frameAt, he, hdiv, map_some]
  exact ⟨hframe, (h.mapped hk hframe).2.1.used⟩

lemma Owned.munmapPage {i : ℕ} (h : Owned m L roots R) (hs : Recorded m L roots s space)
    (hvirt : addr + i * pageSize < 2 ^ 47) (hturn : Mm.munmapPage space addr m i = some m') :
    UnmapsPages m m' L roots R s [addr / pageSize + i] := by
  have hwrap : u64 (addr + i * pageSize) = addr + i * pageSize :=
    Nat.mod_eq_of_lt (hvirt.trans (by decide))
  simp only [Mm.munmapPage, hwrap, vmmGetPte_false hs.spaceAt, bind, bind_some] at hturn
  have hpage : m.leafOf roots s (addr + i * pageSize) = m.pageEntry roots s (addr / pageSize + i) :=
    by rw [leafOf_eq_pageEntry hvirt, page_add]
  rw [Mm.leafOf, Mm.leaf] at hpage
  cases ht : m.table roots s (Mm.pathOf (addr + i * pageSize)) with
  | none =>
    rw [ht] at hturn hpage
    obtain rfl : m = m' := some.inj hturn
    exact .of_unmapped h hpage.symm
  | some t =>
    have hentry : m.ram.readNat 8 (m.kaddr t + 8 * ptIdx (addr + i * pageSize)) =
        m.entry t (ptIdx (addr + i * pageSize)) := rfl
    rw [ht, bind_some, Mm.present] at hpage
    simp only [ht, map_some, hentry] at hturn
    split_ifs at hturn hpage with hpres
    · obtain ⟨pmm, hfree, hunmap⟩ := bind_eq_some_iff.1 hturn
      -- freeing the frame first makes no difference
      have heq : m' = { m.setEntry t (ptIdx (addr + i * pageSize)) 0 with pmm := pmm } :=
        (some.inj ((vmmUnmapPage_eq (m := { m with pmm := pmm }) hs.spaceAt ht hpres).symm.trans
          hunmap)).symm
      have hk : addr / pageSize + i < userPages := page_add addr i ▸ div_lt_userPages hvirt
      have hunmaps := h.inv.vmmUnmapPage hs hvirt (vmmUnmapPage_eq hs.spaceAt ht hpres)
      rw [page_add] at hunmaps
      obtain ⟨hframe, -⟩ := h.frame_used hk hpage.symm
      have haligned : ∀ e, entryToPhys e / pageSize * pageSize = entryToPhys e := fun e =>
        Nat.div_mul_cancel (Nat.dvd_mul_left _ _)
      rw [← haligned] at hfree
      obtain ⟨howned, hpc, hused⟩ := (h.unmap hk hframe hunmaps).freePage hfree
      rw [← heq] at howned
      have hpmm : m'.pmm = pmm := by rw [heq]
      refine ⟨howned, ?_, fun {b} hb => ?_, fun hk' => ?_⟩
      · have hkept := Kept.of_extends hunmaps.ext (prefix_refl _) (List.Perm.refl _) h
        rw [heq]
        exact { hkept with pageCount := hpc }
      · by_cases hbf : b = entryToPhys (m.entry t (ptIdx (addr + i * pageSize))) / pageSize
        · exact .inr ⟨_, mem_singleton_self _, hk, hbf ▸ hframe⟩
        · exact .inl (hpmm ▸ hused.2 ⟨hbf, hb⟩)
      · simp only [mem_singleton]
        rw [heq]
        exact hunmaps.entry hk'
    · obtain rfl : m = m' := some.inj hturn
      exact .of_unmapped h hpage.symm

lemma Owned.munmapPages (h : Owned m L roots R) (hs : Recorded m L roots s space) {n : ℕ}
    (hlt : addr + n * pageSize < 2 ^ 47 + pageSize)
    (hrun : (List.range n).foldlM (Mm.munmapPage space addr) m = some m') :
    UnmapsPages m m' L roots R s (List.range' (addr / pageSize) n) := by
  refine foldlM_range_invariant (.refl h) (fun i m₁ m' hi hall hturn => ?_) hrun
  have hblocks : Blocks m₁ L (L.records m.hhdm) := Blocks.congr (.refl _) hall.kept.hhdm
  have hs₁ := hblocks.recorded hs.mem_records (hall.kept.spaceAt hs.mem_records hs.spaceAt)
  rw [range'_concat, Nat.one_mul]
  exact hall.trans (hall.owned.munmapPage hs₁ (page_lt hi hlt) hturn)

end Unmap

/-! ## The list of regions -/

/-- The regions that the list from `head` on threads together. -/
def Regions (m : Mm) (head : ℕ) (rs : List ℕ) : Prop := (m.ram.shift 16).Chain 8 head rs

/-- The blocks of regions. -/
def regionBlocks (rs : List ℕ) : List (ℕ × ℕ) := rs.map fun r => (r, vmRegionSize)

section Regions

variable {L' : HeapMap} {R rs pre post : List ℕ} {others : List (ℕ × ℕ)} {head prev x : ℕ}

lemma regions_cons : Regions m head (x :: rs) ↔
    head = x ∧ x ≠ 0 ∧ Regions m (m.ram.readNat 8 (x + 16)) rs := by
  rw [← readNat_shift]
  exact Iff.rfl

lemma Regions.congr (h : Regions m head rs)
    (hlink : ∀ r ∈ rs, m'.ram.readNat 8 (r + 16) = m.ram.readNat 8 (r + 16)) :
    Regions m' head rs :=
  Mem.Chain.congr h fun r hr => by rw [readNat_shift, readNat_shift, hlink r hr]

lemma Regions.kept {roots' : List ℕ} {blocks : List (ℕ × ℕ)} (h : Regions m head rs)
    (hkept : Kept m m' roots roots' R blocks) (hsub : ∀ b ∈ regionBlocks rs, b ∈ blocks) :
    Regions m' head rs :=
  h.congr fun r hr => hkept.readNat (hsub _ (List.mem_map.2 ⟨r, hr, rfl⟩)) (Nat.le_refl 24)

lemma Regions.unlink (h : Regions m head (pre ++ prev :: x :: post))
    (hlink : m'.ram.readNat 8 (prev + 16) = m.ram.readNat 8 (x + 16))
    (hothers : ∀ r ∈ pre ++ post, m'.ram.readNat 8 (r + 16) = m.ram.readNat 8 (r + 16)) :
    Regions m' head (pre ++ prev :: post) := by
  induction pre generalizing head with
  | nil =>
    obtain ⟨rfl, hne, hrest⟩ := regions_cons.1 h
    obtain ⟨-, -, hpost⟩ := regions_cons.1 hrest
    rw [nil_append, regions_cons, hlink]
    exact ⟨rfl, hne, hpost.congr hothers⟩
  | cons r pre ih =>
    obtain ⟨rfl, hne, hrest⟩ := regions_cons.1 h
    rw [cons_append, regions_cons, hothers head (by simp)]
    exact ⟨rfl, hne, ih hrest fun r hr => hothers r (mem_cons_of_mem _ hr)⟩

/-- A region is taken out of the list that `prev` comes before, or that it starts. -/
def Mm.removeRegion (m : Mm) (regions prev curr : ℕ) : Option (Mm × ℕ) :=
  let next := m.ram.readNat 8 (curr + 16)
  if prev = 0 then (m.kfree curr).map fun m => (m, next)
  else (Mm.kfree { m with ram := m.ram.writeNat 8 (prev + 16) next } curr).map fun m => (m, regions)

/-- The walk finds a region, or comes to the end. -/
lemma unlinkRegion_cases (addr regions : ℕ) (pre : List ℕ) {curr fuel : ℕ} {cs : List ℕ}
    (h : Regions m curr cs) (hfuel : cs.length < fuel) :
    m.unlinkRegion addr regions fuel (pre.getLastD 0) curr = some (m, regions) ∨
      ∃ pre' x post, pre ++ cs = pre' ++ x :: post ∧
        m.unlinkRegion addr regions fuel (pre.getLastD 0) curr =
          m.removeRegion regions (pre'.getLastD 0) x := by
  induction cs generalizing pre curr fuel with
  | nil =>
    obtain ⟨fuel, rfl⟩ := Nat.exists_eq_add_of_lt hfuel
    obtain rfl : curr = 0 := h
    exact .inl (by simp [Mm.unlinkRegion])
  | cons c cs ih =>
    obtain ⟨fuel, rfl⟩ : ∃ f, fuel = f + 1 := ⟨fuel - 1, by simp at hfuel; omega⟩
    obtain ⟨rfl, hne, hrest⟩ := regions_cons.1 h
    rw [Mm.unlinkRegion, if_neg hne]
    by_cases hfound : m.ram.readNat 8 curr = addr
    · exact .inr ⟨pre, curr, cs, rfl, by rw [if_pos hfound, Mm.removeRegion]⟩
    · have hnext := ih (pre ++ [curr]) hrest (Nat.lt_of_succ_lt_succ hfuel)
      rw [getLastD_concat, append_assoc] at hnext
      rw [if_neg hfound]
      exact hnext

/-- From `m` to `m'` the list of a process changed to `rs`, which `head` starts. -/
structure Relists (m m' : Mm) (L' : HeapMap) (roots R : List ℕ) (others : List (ℕ × ℕ)) (head : ℕ)
    (rs : List ℕ) : Prop where
  owned : Owned m' L' roots R
  blocks : Blocks m' L' (regionBlocks rs ++ others)
  kept : Kept m m' roots roots R others
  regions : Regions m' head rs
  used : ∀ b, m'.pmm.used b = m.pmm.used b
  entry : ∀ {s k}, k < userPages → m'.pageEntry roots s k = m.pageEntry roots s k

lemma Regions.ne_zero {r : ℕ} (h : Regions m head rs) (hr : r ∈ rs) : r ≠ 0 := by
  induction rs generalizing head with
  | nil => cases hr
  | cons x rs ih =>
    obtain ⟨-, hne, hrest⟩ := regions_cons.1 h
    rcases mem_cons.1 hr with rfl | hr
    · exact hne
    · exact ih hrest hr

/-- A region is freed, whose link is no longer used. -/
lemma Owned.freeRegion (h : Owned m L roots R)
    (hblocks : Blocks m L ((x, vmRegionSize) :: (regionBlocks rs ++ others)))
    (hregs : Regions m head rs) :
    ∃ m' L', m.kfree x = some m' ∧ Relists m m' L' roots R others head rs := by
  obtain ⟨m', L', a, hfree, hf, howned, hblocks', hkept, hused⟩ := h.kfree hblocks
  exact ⟨m', L', hfree, howned, hblocks', hkept.mono (fun b hb => mem_append_right _ hb)
    fun f hf => hf, hregs.kept hkept fun b hb => mem_append_left _ hb,
    hused (show vmRegionSize ≤ 2048 by decide), hf.entry⟩

lemma Owned.removeRegion (h : Owned m L roots R)
    (hblocks : Blocks m L (regionBlocks (pre ++ x :: post) ++ others))
    (hregs : Regions m head (pre ++ x :: post)) :
    ∃ m' L' head', m.removeRegion head (pre.getLastD 0) x = some (m', head') ∧
      Relists m m' L' roots R others head' (pre ++ post) := by
  rcases eq_nil_or_concat' pre with rfl | ⟨pre, prev, rfl⟩
  · obtain ⟨rfl, -, hpost⟩ := regions_cons.1 hregs
    obtain ⟨m', L', hfree, hrel⟩ := h.freeRegion hblocks hpost
    exact ⟨m', L', _, by simp [Mm.removeRegion, hfree], hrel⟩
  · rw [append_assoc, singleton_append] at hblocks hregs
    have hprev : prev ≠ 0 := hregs.ne_zero (by simp)
    have hperm : ((prev, vmRegionSize) :: (x, vmRegionSize) ::
        (regionBlocks (pre ++ post) ++ others)).Perm
        (regionBlocks (pre ++ prev :: x :: post) ++ others) := by
      simp only [regionBlocks, map_append, map_cons, append_assoc, cons_append]
      exact (List.perm_middle.trans (List.perm_middle.cons _)).symm
    -- the link of the region before it, which is in that region's block
    have hwrite : EqOff (Within prev vmRegionSize) m.ram
        (m.ram.writeNat 8 (prev + 16) (m.ram.readNat 8 (x + 16))) := by
      refine EqOff.writeNat _ fun y hy => ?_
      unfold vmRegionSize
      unfold Within at hy ⊢
      omega
    obtain ⟨howned, hkept, hentry⟩ :=
      h.writeBlock (r := (prev, vmRegionSize)) (hblocks.perm hperm) hwrite
    have hregs' : Regions { m with ram := m.ram.writeNat 8 (prev + 16) (m.ram.readNat 8 (x + 16)) }
        head (pre ++ prev :: post) := by
      refine hregs.unlink (readNat_writeNat _ _ (readNat_lt _ _ _)) fun r hr => ?_
      refine hkept.readNat (r := (r, vmRegionSize)) ?_ (Nat.le_refl 24)
      exact mem_cons_of_mem _ (mem_append_left _ (List.mem_map.2 ⟨r, hr, rfl⟩))
    have hperm' : ((x, vmRegionSize) :: (regionBlocks (pre ++ prev :: post) ++ others)).Perm
        (regionBlocks (pre ++ prev :: x :: post) ++ others) := by
      refine List.Perm.trans ?_ hperm
      simp only [regionBlocks, map_append, map_cons, append_assoc, cons_append]
      exact (List.perm_middle.cons _).trans (List.Perm.swap _ _ _)
    obtain ⟨m', L', hfree, hrel⟩ := howned.freeRegion (hblocks.perm hperm') hregs'
    have hothers : Kept m _ roots roots R others :=
      hkept.mono (fun b hb => mem_cons_of_mem _ (mem_append_right _ hb)) fun f hf => hf
    refine ⟨m', L', head, ?_, ?_⟩
    · rw [getLastD_concat, Mm.removeRegion, if_neg hprev, hfree]
      rfl
    · rw [append_assoc, singleton_append]
      exact { hrel with
        kept := hothers.trans hrel.kept
        entry := fun hk => (hrel.entry hk).trans (hentry hk) }

/-- Regions are different blocks, so the walks over them end. -/
lemma regions_length_lt (h : Owned m L roots R) (hblocks : Blocks m L (regionBlocks rs ++ others)) :
    rs.length < 2 ^ 64 := by
  have hperm := hblocks.map Prod.fst
  rw [HeapMap.records, List.map_map, map_append] at hperm
  have hfst : (regionBlocks rs).map Prod.fst = rs := by simp [regionBlocks, Function.comp_def]
  have hnodup := (hperm.nodup_iff.2 h.inv.heap.live_nodup).of_append_left
  rw [hfst] at hnodup
  have hbounds : ∀ r ∈ rs, r ≠ 0 ∧ r < 2 ^ 64 := fun r hr =>
    hblocks.bounds h.inv.heap (mem_append_left _ (List.mem_map.2 ⟨r, hr, rfl⟩))
  have hsub : (0 :: rs).Subperm (List.range (2 ^ 64)) := by
    refine subperm_of_subset (nodup_cons.2 ⟨fun h0 => (hbounds 0 h0).1 rfl, hnodup⟩) ?_
    intro r hr
    rcases mem_cons.1 hr with rfl | hr
    · exact mem_range.2 (by decide)
    · exact mem_range.2 (hbounds r hr).2
  have hle := hsub.length_le
  rwa [length_range, length_cons, Nat.succ_le_iff] at hle

lemma Owned.unlinkRegion (addr : ℕ) (h : Owned m L roots R)
    (hblocks : Blocks m L (regionBlocks rs ++ others)) (hregs : Regions m head rs) :
    ∃ m' L' head' rs', m.unlinkRegion addr head (2 ^ 64) 0 head = some (m', head') ∧
      Relists m m' L' roots R others head' rs' := by
  have hcases := unlinkRegion_cases addr head [] hregs (regions_length_lt h hblocks)
  rw [nil_append, getLastD_nil] at hcases
  rcases hcases with hcall | ⟨pre, x, post, rfl, hcall⟩
  · exact ⟨m, L, head, rs, hcall, h, hblocks, .refl .., hregs, fun _ => rfl, fun _ => rfl⟩
  · obtain ⟨m', L', head', hremove, hrel⟩ := h.removeRegion hblocks hregs
    exact ⟨m', L', head', pre ++ post, hcall.trans hremove, hrel⟩

/-- `sys_munmap` unmaps the pages of the range, and the regions stay a list of blocks. -/
lemma Owned.sysMunmap (h : Owned m L roots R) (hs : SpaceAt m roots s proc.addrSpace)
    (hblocks : Blocks m L (regionBlocks rs ++ others))
    (hspace : (proc.addrSpace, Mm.addrSpaceSize) ∈ others) (hregs : Regions m proc.regions rs)
    (htop : addr + u64 (size + 4095) / pageSize * pageSize < 2 ^ 47 + pageSize)
    (hcall : m.sysMunmap proc addr size = some (m', proc')) :
    proc' = { proc with regions := proc'.regions } ∧
      ∃ m₁ L' rs', m.unlinkRegion addr proc.regions (2 ^ 64) 0 proc.regions =
          some (m₁, proc'.regions) ∧
        Relists m m₁ L' roots R others proc'.regions rs' ∧
        UnmapsPages m₁ m' L' roots R s
          (List.range' (addr / pageSize) (u64 (size + 4095) / pageSize)) := by
  obtain ⟨hproc, m₁, hunlink, hloop⟩ := Mm.sysMunmap_eq_some hcall
  obtain ⟨m₁', L', head', rs', hunlink', hrel⟩ := h.unlinkRegion addr hblocks hregs
  obtain ⟨rfl, rfl⟩ := Prod.mk.inj (some.inj (hunlink'.symm.trans hunlink))
  have hs₁ := hrel.blocks.recorded (mem_append_right _ hspace) (hrel.kept.spaceAt hspace hs)
  exact ⟨hproc, m₁', L', rs', hunlink, hrel, hrel.owned.munmapPages hs₁ htop hloop⟩

lemma Relists.unmaps {m'' : Mm} {ks : List ℕ} (h : Relists m m' L' roots R others head rs)
    (h' : UnmapsPages m' m'' L' roots R s ks) :
    Owned m'' L' roots R ∧ Blocks m'' L' (regionBlocks rs ++ others) ∧
      Kept m m'' roots roots R others ∧ Regions m'' head rs ∧
      ∀ {s' k}, k < userPages → m''.pageEntry roots s' k =
        if s' = s ∧ k ∈ ks then none else m.pageEntry roots s' k := by
  have hkept : Kept m' m'' roots roots R (regionBlocks rs ++ others) :=
    h'.kept.mono (fun r hr => h.blocks.subset hr) fun f hf => hf
  refine ⟨h'.owned, h.blocks.congr h'.kept.hhdm, h.kept.trans ?_, ?_, fun hk => ?_⟩
  · exact hkept.mono (fun r hr => mem_append_right _ hr) fun f hf => hf
  · exact h.regions.kept hkept fun r hr => mem_append_left _ hr
  · rw [h'.entry hk, h.entry hk]

end Regions

end CobjOs
