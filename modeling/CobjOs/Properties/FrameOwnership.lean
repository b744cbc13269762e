import CobjOs.Process.LifecycleRun
import CobjOs.Properties.ArgumentBlock

/-!
# Frames have one owner

Processes are made, map and unmap memory, die and are cleaned up after, in any order.  A frame that
a lower half maps is in use, is mapped once, and is not a page of the kernel: no table, no page of
the heap, no kernel stack, and no page that was in use before `slab_init`.  So `sys_munmap` never
frees a frame twice.

All of this needs the arguments of every process to fit its stack.  `proc_create` writes what does
not fit to the frames below, and those are page tables.
-/

namespace CobjOs

open List Option

/-- What the lower halves map, with the heap `L` and the spaces with the roots `roots`; `m` is the
memory before `slab_init`. -/
structure FramesOwned (m : Mm) (s : ProcSys) (L : HeapMap) (roots : List ℕ) : Prop where
  inv : MmInv s.mm L roots
  spaces : ∀ p ∈ s.procs, ∃ i, SpaceAt s.mm roots i p.user.mem.addrSpace
  blocks : ∀ b ∈ s.blocks, b ∈ L.records s.mm.hhdm
  used : ∀ {i k f}, k < userPages → s.mm.frameAt roots i k = some f → s.mm.pmm.used f = true
  once : ∀ {i k j l f}, k < userPages → l < userPages → s.mm.frameAt roots i k = some f →
    s.mm.frameAt roots j l = some f → i = j ∧ k = l
  table : ∀ {i k f}, k < userPages → s.mm.frameAt roots i k = some f → ¬IsTable s.mm roots f
  heap : ∀ {i k f}, k < userPages → s.mm.frameAt roots i k = some f → f ∉ L.pages
  stack : ∀ {i k f}, k < userPages → s.mm.frameAt roots i k = some f → ∀ p ∈ s.procs,
    p.life ≠ .reaped → ∀ j < 4, p.user.kernelStack + j * pageSize ≠ s.mm.kaddr f
  boot : ∀ {i k f}, k < userPages → s.mm.frameAt roots i k = some f → m.pmm.used f = false

/-- The frame that turn `i` of the loop of `sys_munmap` frees in the memory `m`, if any. -/
def Mm.munmapFrame (m : Mm) (space addr i : ℕ) : Option ℕ := do
  let (m, pte) ← m.vmmGetPte space (u64 (addr + i * pageSize)) false
  let pte ← pte
  let entry := m.ram.readNat 8 pte
  if isPresent entry then some (entryToPhys entry / pageSize) else none

/-- No turn of the loop of `sys_munmap` frees a frame that is free. -/
def ProcSys.FreesOnce (s : ProcSys) (p : UserProc) (addr size : ℕ) : Prop :=
  ∀ m₁ regions, s.mm.unlinkRegion addr p.mem.regions (2 ^ 64) 0 p.mem.regions = some (m₁, regions) →
    ∀ n < u64 (size + 4095) / pageSize, ∀ m₂ f,
      (List.range n).foldlM (Mm.munmapPage p.mem.addrSpace addr) m₁ = some m₂ →
      m₂.munmapFrame p.mem.addrSpace addr n = some f → m₂.pmm.used f = true

section Owned

variable {m : Mm} {s : ProcSys} {L : HeapMap} {roots R : List ℕ} {lost : List (ℕ × ℕ)}
  {qs : List Slot} {i k f pid addr size : ℕ}

/-- The pages in use. -/
def Mm.usedPages (m : Mm) : List ℕ := (List.range m.pmm.pageCount).filter fun b => m.pmm.used b

lemma Mm.nodup_usedPages (m : Mm) : m.usedPages.Nodup := List.nodup_range.filter _

lemma Mm.used_of_mem_usedPages (m : Mm) : ∀ f ∈ m.usedPages, m.pmm.used f = true := fun _ hf =>
  (mem_filter.1 hf).2

lemma ProcSys.Inv.not_stack (h : ProcSys.Inv s L roots R lost qs) (hk : k < userPages)
    (hf : s.mm.frameAt roots i k = some f) : ∀ p ∈ s.procs, p.life ≠ .reaped → ∀ j < 4,
      p.user.kernelStack + j * pageSize ≠ s.mm.kaddr f := by
  intro p hp hlife j hj heq
  rw [h.procs] at hp
  obtain ⟨q, hq, rfl⟩ := List.mem_map.1 hp
  obtain ⟨hkernel, -, -⟩ := (h.good q hq).stack hlife
  have hpage : f = q.kstack + j := by
    rw [hkernel, Mm.kaddr] at heq
    unfold pageSize at heq
    omega
  refine (h.owned.mapped hk hf).2.2 (mem_append_left _ (mem_flatMap.2 ⟨q, hq, ?_⟩))
  rw [Slot.stackPages, if_neg hlife, mem_range'_1]
  omega

lemma ProcSys.Inv.framesOwned (h : ProcSys.Inv s L roots m.usedPages lost qs)
    (hpc : s.mm.pmm.pageCount = m.pmm.pageCount) : FramesOwned m s L roots where
  inv := h.owned.inv
  spaces := by
    intro p hp
    rw [h.procs] at hp
    obtain ⟨q, hq, rfl⟩ := List.mem_map.1 hp
    exact ⟨q.idx, (h.good q hq).space⟩
  blocks := fun b hb =>
    h.blocks.subset (mem_append_right _ (mem_append_left _ hb))
  used := fun hk hf => (h.owned.mapped hk hf).2.1.used
  once := fun hk hl hf hf' => h.owned.unique hk hl hf hf'
  table := fun hk hf => (h.owned.mapped hk hf).2.1.table
  heap := fun hk hf => (h.owned.mapped hk hf).2.1.heap
  stack := fun hk hf => h.not_stack hk hf
  boot := by
    intro i k f hk hf
    obtain ⟨hlt, -, hout⟩ := h.owned.mapped hk hf
    by_contra hused
    rw [Bool.not_eq_false] at hused
    refine hout (mem_append_right _ (mem_filter.2 ⟨mem_range.2 ?_, hused⟩))
    omega

lemma Owned.munmapFrame_used {space n : ℕ} (h : Owned m L roots R) (hs : SpaceAt m roots i space)
    (hvirt : addr + n * pageSize < 2 ^ 47) (hf : m.munmapFrame space addr n = some f) :
    m.pmm.used f = true := by
  have hwrap : u64 (addr + n * pageSize) = addr + n * pageSize :=
    Nat.mod_eq_of_lt (hvirt.trans (by decide))
  simp only [Mm.munmapFrame, hwrap, vmmGetPte_false hs, bind, bind_some,
    bind_eq_some_iff, map_eq_some_iff] at hf
  obtain ⟨_, ⟨t, ht, rfl⟩, hif⟩ := hf
  split_ifs at hif with hpres
  obtain rfl := some.inj hif
  have hentry : m.pageEntry roots i ((addr + n * pageSize) / pageSize) =
      some (m.entry t (ptIdx (addr + n * pageSize))) := by
    rw [← leafOf_eq_pageEntry hvirt, Mm.leafOf, Mm.leaf, ht]
    exact if_pos hpres
  exact (h.frame_used (div_lt_userPages hvirt) hentry).2

lemma ProcSys.Inv.freesOnce {p : UserProc} (h : ProcSys.Inv s L roots R lost qs)
    (hp : s.running pid = some p) (htop : addr + size ≤ userSpaceTop) :
    s.FreesOnce p addr size := by
  intro m₁ regions hunlink n hn m₂ f hloop hf
  obtain ⟨q, hcalls⟩ := h.calls hp
  obtain ⟨m₃, L', head, rs, hunlink', hrel⟩ :=
    hcalls.owned.unlinkRegion addr hcalls.blocks hcalls.regions
  obtain ⟨rfl, rfl⟩ := Prod.mk.inj (some.inj (hunlink'.symm.trans hunlink))
  have hspace := hrel.kept.spaceAt hcalls.record hcalls.space
  have hrec := hrel.blocks.recorded (mem_append_right _ hcalls.record) hspace
  have hend := ProcSys.Ok.range_end htop
  have hvirt : addr + n * pageSize < 2 ^ 47 := by
    have hle : (n + 1) * pageSize ≤ u64 (size + 4095) / pageSize * pageSize :=
      Nat.mul_le_mul_right _ hn
    rw [Nat.succ_mul] at hle
    omega
  have hall := hrel.owned.munmapPages hrec (Nat.lt_add_right _ hvirt) hloop
  have hspace₂ := hall.kept.spaceAt hrec.mem_records hspace
  exact hall.owned.munmapFrame_used hspace₂ hvirt hf

end Owned

/-- In every run with images in the lower half, ranges below `USER_SPACE_TOP` and arguments that fit
their stack, what the lower halves map has one owner, and `sys_munmap` frees no frame twice. -/
theorem mapped_frames_have_one_owner {m : Mm} {ls : List ProcOp} {s : ProcSys} (hmap : m.Mapped)
    (hrun : Run ProcSys.step ProcSys.Ok (.start m) ls s) :
    (∃ L roots, FramesOwned m s L roots) ∧
      ∀ pid p addr size, s.running pid = some p → addr + size ≤ userSpaceTop →
        s.FreesOnce p addr size := by
  obtain ⟨L, roots, lost, qs, h, hkept⟩ :=
    ProcSys.run_inv hmap m.nodup_usedPages m.used_of_mem_usedPages hrun
  exact ⟨⟨L, roots, h.framesOwned hkept.pageCount⟩, fun pid p addr size hp htop =>
    h.freesOnce hp htop⟩

/-- A program without segments that has taken one page. -/
theorem mapped_frames_have_one_owner_one : ∃ s p,
    Run ProcSys.step ProcSys.Ok (.start smallMachine)
      [.create (fileData (elfFile [] [])) 64 [], .mmap 0 0 4096] s ∧
    s.running 0 = some p ∧ s.FreesOnce p 0x10000000 4096 ∧
    ∃ L roots, FramesOwned smallMachine s L roots := by
  have hexec : ∃ s, Run ProcSys.step ProcSys.Ok (.start smallMachine)
      [.create (fileData (elfFile [] [])) 64 [], .mmap 0 0 4096] s ∧
      (s.running 0).isSome = true :=
    Run.exists_of_exec (fun s l => decide (ProcSys.Ok s l)) (fun _ _ => of_decide_eq_true)
      (fun s : ProcSys => (s.running 0).isSome) (by decide +kernel) (by decide +kernel)
  obtain ⟨s, hrun, hs⟩ := hexec
  obtain ⟨p, hp⟩ := isSome_iff_exists.1 hs
  obtain ⟨howned, hfrees⟩ := mapped_frames_have_one_owner smallMachine_mapped hrun
  exact ⟨s, p, hrun, hp, hfrees 0 p 0x10000000 4096 hp (by decide), howned⟩

/-- A program with one page at `0x400000`. -/
def onePageFile : List UInt8 := elfFile [⟨ptLoad, 6, 120, 0x400000, 4, 8⟩] [1, 2, 3, 4]

/-- Eighty strings of 255 bytes fill the stack and the page below, which has the record of the
process; the first string, of two bytes, is then the last entry of the table below. -/
def overflowingArgs : List (List UInt8) := [0x07, 0x60] :: replicate 80 (replicate 255 97)

/-- The entry maps page `0x5ff` to frame 6, which is that of page `0x400`.  When page `0x400` has
been unmapped, page `0x5ff` is mapped to a free frame, and `sys_munmap` frees it a second time. -/
theorem overflowing_arguments_share_a_frame : ∃ s s' p,
    LowPages (elfEvents (fileData onePageFile) 124).1 ∧
    exec ProcSys.step (.start smallMachine) [.kmalloc 112, .kmalloc 40, .kmalloc 24,
      .create (fileData onePageFile) 124 overflowingArgs] = some s ∧
    s.running 0 = some p ∧ s.mm.munmapFrame p.mem.addrSpace 0x400000 0 = some 6 ∧
    s.step (.munmap 0 0x400000 4096) = some s' ∧
    s'.mm.munmapFrame p.mem.addrSpace 0x5ff000 0 = some 6 ∧ s'.mm.pmm.used 6 = false := by
  have hrun : (exec ProcSys.step (.start smallMachine) [.kmalloc 112, .kmalloc 40, .kmalloc 24,
      .create (fileData onePageFile) 124 overflowingArgs]).any (fun s =>
        (s.running 0).any fun p =>
          s.mm.munmapFrame p.mem.addrSpace 0x400000 0 == some 6 &&
          (s.step (.munmap 0 0x400000 4096)).any fun s' =>
            s'.mm.munmapFrame p.mem.addrSpace 0x5ff000 0 == some 6 &&
              !s'.mm.pmm.used 6) = true := by
    decide +kernel
  obtain ⟨s, hs, hrun⟩ := (Option.any_eq_true _ _).1 hrun
  obtain ⟨p, hp, hrun⟩ := (Option.any_eq_true _ _).1 hrun
  rw [Bool.and_eq_true, beq_iff_eq] at hrun
  obtain ⟨s', hs', hend⟩ := (Option.any_eq_true _ _).1 hrun.2
  rw [Bool.and_eq_true, beq_iff_eq, Bool.not_eq_true'] at hend
  exact ⟨s, s', p, by unfold LowPages; decide +kernel, hs, hp, hrun.1, hs', hend.1, hend.2⟩

end CobjOs
