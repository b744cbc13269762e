import CobjOs.Memory.Translation
import CobjOs.Properties.MappingPlacement
import CobjOs.Properties.UserCopies
import Mathlib.Data.List.Dedup

/-!
# Memory of one process

With ranges below `USER_SPACE_TOP`, `sys_mmap` and `sys_munmap` leave the kernel's half of every
address space and the lower halves of all other processes as they are, and free only frames that the
process had mapped in the range; the direct map of the kernel's half maps every frame anyway.
`copy_to_user` changes bytes of its own process only.

Neither call checks its address.  One of the kernel's half leads to the tables that all spaces
share.
-/

namespace CobjOs

open List Option

/-- The kernel's `PML4` is page `k`, and the tables of its upper half are in use. -/
def Mm.KernelHalf (m : Mm) (k : ℕ) : Prop :=
  m.kernelPml4 = k * pageSize ∧ ∀ t ∈ m.kernelTables k, m.pmm.used t = true

/-- The page of the `PML4` of an address space. -/
def Mm.spaceRoot (m : Mm) (space : ℕ) : ℕ := (m.ram.readNat 8 space - m.hhdm) / pageSize

/-- From `s` to `s'` a call of process `pid` with the range of `size` bytes from `addr` on left the
kernel's half and the other processes; `k` is the page of the kernel's `PML4`. -/
structure Isolated (s s' : ProcSys) (k pid addr size : ℕ) : Prop where
  kernel : ∀ virt, 256 ≤ pml4Idx virt → s'.mm.translate k virt = s.mm.translate k virt
  upper : ∀ p ∈ s.procs, ∀ virt, 256 ≤ pml4Idx virt →
    s'.mm.translate (s'.mm.spaceRoot p.user.mem.addrSpace) virt =
      s.mm.translate (s.mm.spaceRoot p.user.mem.addrSpace) virt
  lower : ∀ (i : ℕ) (p : LiveProc), i ≠ pid → s.procs[i]? = some p →
    s'.procs[i]? = some p ∧ ∀ virt < userSpaceTop,
      s'.mm.vmmGetMapping p.user.mem.addrSpace virt = s.mm.vmmGetMapping p.user.mem.addrSpace virt
  freed : ∀ f, s.mm.pmm.used f = true → s'.mm.pmm.used f = true ∨
    ∃ p flags, s.running pid = some p ∧ ∃ j ∈ ProcSys.rangePages addr size,
      s.mm.vmmGetMapping p.mem.addrSpace (j * pageSize) = some (f * pageSize, flags)
  others : ∀ (i : ℕ) (p : LiveProc) (virt f flags : ℕ), i ≠ pid → s.procs[i]? = some p →
    virt < userSpaceTop →
    s.mm.vmmGetMapping p.user.mem.addrSpace virt = some (f * pageSize, flags) →
    s'.mm.pmm.used f = true

section Isolation

variable {m : Mm} {s s' : ProcSys} {L : HeapMap} {roots B : List ℕ} {lost : List (ℕ × ℕ)}
  {qs : List Slot} {op : ProcOp} {i k pid addr size virt space : ℕ} {p : LiveProc}

lemma spaceRoot_eq (h : SpaceAt m roots i space) : roots[i]? = some (m.spaceRoot space) := by
  obtain ⟨root, hroot, hread⟩ := h
  have heq : m.spaceRoot space = root := by
    rw [Mm.spaceRoot, hread, Mm.kaddr, Nat.add_sub_cancel]
    exact Nat.mul_div_cancel _ (by decide)
  rw [heq, hroot]

lemma spaceRoot_mem (h : SpaceAt m roots i space) : m.spaceRoot space ∈ roots :=
  mem_of_getElem? (spaceRoot_eq h)

namespace ProcSys.Inv

lemma slotOf (h : Inv s L roots B lost qs) (hp : s.procs[i]? = some p) :
    ∃ q, qs[i]? = some q ∧ q.proc = p := by
  rw [h.procs, getElem?_map] at hp
  exact map_eq_some_iff.1 hp

/-- The kernel's half of every space is that of the kernel at boot. -/
lemma translate_upper (h : Inv s L roots B lost qs) (hkept : Kept m.slabInit s.mm [] roots B [])
    (hpml4 : m.kernelPml4 = k * pageSize) (htables : ∀ t ∈ m.kernelTables k, t ∈ B)
    (hvirt : 256 ≤ pml4Idx virt) :
    s.mm.translate k virt = m.translate k virt ∧
      ∀ root ∈ roots, s.mm.translate root virt = m.translate k virt := by
  have hentry : ∀ t ∈ m.kernelTables k, ∀ i < 512, s.mm.entry t i = m.entry t i :=
    fun t ht i hi => (entry_reserved hkept (htables t ht) hi).trans rfl
  have hlt : pml4Idx virt < 512 := Nat.mod_lt _ (by decide)
  have hk : k ∈ m.kernelTables k := mem_cons_self
  refine ⟨Mm.translate_congr hvirt (hentry k hk _ hlt) hentry, fun root hroot => ?_⟩
  refine Mm.translate_congr hvirt ?_ hentry
  rw [h.upper k (htables k hk) (hkept.kernelPml4.trans hpml4) root hroot _ hvirt hlt]
  exact hentry k hk _ hlt

lemma call (h : Inv s L roots B lost qs)
    (hop : op = .mmap pid addr size ∨ op = .munmap pid addr size) (hok : s.Ok op)
    (hstep : s.step op = some s') :
    ∃ L' qs', Inv s' L' roots B lost qs' ∧ qs'.map Slot.idx = qs.map Slot.idx ∧
      Advances s s' op roots roots B (qs.map Slot.idx) (qs.map Slot.idx) ∧
      ∀ b, s.mm.pmm.used b = true → s'.mm.pmm.used b = true ∨
        ∃ x, (qs.map Slot.idx)[pid]? = some x ∧ ∃ k ∈ rangePages addr size, k < userPages ∧
          s.mm.frameAt roots x k = some b := by
  rcases hop with rfl | rfl
  · obtain ⟨L', q, q', hq, hcont, -, hinv, hadv, hused⟩ := h.mmap hok hstep
    exact ⟨L', _, hinv, Ledger.map_set_eq hq hcont.idx, hadv, fun b hb => .inl (hused b hb)⟩
  · obtain ⟨L', q, q', hq, hcont, hinv, hadv, hfreed⟩ := h.munmap hok hstep
    exact ⟨L', _, hinv, Ledger.map_set_eq hq hcont.idx, hadv, hfreed⟩

end ProcSys.Inv

/-- The calls leave the space of every process, and all that the kernel knows of the others. -/
lemma ProcSys.step_procs (hop : op = .mmap pid addr size ∨ op = .munmap pid addr size)
    (hstep : s.step op = some s') (hp : s.procs[i]? = some p) :
    ∃ p', s'.procs[i]? = some p' ∧ p'.user.mem.addrSpace = p.user.mem.addrSpace ∧
      (i ≠ pid → p' = p) := by
  have hset : ∀ {q : UserProc} {m' : Mm} {mem : ProcMem}, s.running pid = some q →
      mem.addrSpace = q.mem.addrSpace →
      s' = s.setProc pid m' ⟨{ q with mem := mem }, .alive⟩ →
      ∃ p', s'.procs[i]? = some p' ∧ p'.user.mem.addrSpace = p.user.mem.addrSpace ∧
        (i ≠ pid → p' = p) := by
    rintro q m' mem hq haddr rfl
    rw [setProc]
    by_cases hi : i = pid
    · subst hi
      obtain rfl : (⟨q, .alive⟩ : LiveProc) = p :=
        some.inj ((procs_of_running hq).symm.trans hp)
      exact ⟨_, getElem?_set_self (List.getElem?_eq_some_iff.1 hp).1, haddr,
        fun hne => absurd rfl hne⟩
    · exact ⟨p, (getElem?_set_ne fun hpid => hi hpid.symm).trans hp, rfl, fun _ => rfl⟩
  rcases hop with rfl | rfl
  · simp only [step, bind, bind_eq_some_iff] at hstep
    obtain ⟨q, hq, ⟨m', mem, v⟩, hcall, hs'⟩ := hstep
    exact hset hq (by rw [(Mm.sysMmap_eq_some hcall).2.1]) (some.inj hs').symm
  · simp only [step, bind, bind_eq_some_iff] at hstep
    obtain ⟨q, hq, ⟨m', mem⟩, hcall, hs'⟩ := hstep
    exact hset hq (by rw [(Mm.sysMunmap_eq_some hcall).1]) (some.inj hs').symm

lemma ProcSys.step_running (hop : op = .mmap pid addr size ∨ op = .munmap pid addr size)
    (hstep : s.step op = some s') : ∃ p, s.running pid = some p := by
  rcases hop with rfl | rfl <;>
  · obtain ⟨p, hp, -⟩ := bind_eq_some_iff.1 hstep
    exact ⟨p, hp⟩

lemma ProcSys.maps_other {j : ℕ} (hop : op = .mmap pid addr size ∨ op = .munmap pid addr size)
    (hne : i ≠ pid) : ¬s.maps op i j ∧ ¬unmaps op i j := by
  rcases hop with rfl | rfl
  · exact ⟨fun h => hne h.1, id⟩
  · exact ⟨id, fun h => hne h.1⟩

lemma frameAt_of_mapping {f flags : ℕ} (hs : SpaceAt m roots i space) (hvirt : virt < userSpaceTop)
    (h : m.vmmGetMapping space virt = some (f * pageSize, flags)) :
    m.frameAt roots i (virt / pageSize) = some f := by
  rw [vmmGetMapping_pageEntry hs hvirt, map_eq_some_iff] at h
  obtain ⟨e, he, hdec⟩ := h
  have hphys : e / pageSize * pageSize = f * pageSize := congrArg Prod.fst hdec
  rw [Mm.frameAt, he, map_some, Nat.eq_of_mul_eq_mul_right (by decide) hphys]

lemma mapping_of_frameAt {f : ℕ} (hs : SpaceAt m roots i space) (hk : k < userPages)
    (h : m.frameAt roots i k = some f) :
    ∃ flags, m.vmmGetMapping space (k * pageSize) = some (f * pageSize, flags) := by
  obtain ⟨e, he, rfl⟩ := map_eq_some_iff.1 h
  have hvirt : k * pageSize < 2 ^ 47 := by
    unfold userPages at hk
    unfold pageSize
    omega
  refine ⟨e % 4096, ?_⟩
  rw [vmmGetMapping_pageEntry hs hvirt, Nat.mul_div_cancel _ (by decide), he]
  rfl

end Isolation

/-- In every state that a run reaches, a call with a range below `USER_SPACE_TOP` is isolated. -/
theorem memory_calls_are_isolated {m : Mm} {ls : List ProcOp} {s s' : ProcSys} {op : ProcOp}
    {k pid addr size : ℕ} (hmap : m.Mapped) (hboot : m.KernelHalf k)
    (hrun : Run ProcSys.step ProcSys.Ok (.start m) ls s)
    (hop : op = .mmap pid addr size ∨ op = .munmap pid addr size) (hok : s.Ok op)
    (hstep : s.step op = some s') : Isolated s s' k pid addr size := by
  have htables : ∀ t ∈ m.kernelTables k, t ∈ (m.kernelTables k).dedup := fun t ht =>
    mem_dedup.2 ht
  obtain ⟨L, roots, lost, qs, h, hkept⟩ := ProcSys.run_inv hmap (nodup_dedup _)
    (fun t ht => hboot.2 t (mem_dedup.1 ht)) hrun
  obtain ⟨L', qs', h', hmap', hadv, hfreed⟩ := h.call hop hok hstep
  -- a process has the same space before and after
  have hspaces : ∀ {i : ℕ} {p : LiveProc}, s.procs[i]? = some p →
      ∃ x, (qs.map Slot.idx)[i]? = some x ∧ SpaceAt s.mm roots x p.user.mem.addrSpace ∧
        SpaceAt s'.mm roots x p.user.mem.addrSpace := by
    intro i p hp
    obtain ⟨p', hp', haddr, -⟩ := ProcSys.step_procs hop hstep hp
    obtain ⟨q, hq, rfl⟩ := h.slotOf hp
    obtain ⟨q', hq', rfl⟩ := h'.slotOf hp'
    have hx := ProcSys.Inv.idx_of_slot hq
    have hidx : q'.idx = q.idx :=
      some.inj ((ProcSys.Inv.idx_of_slot hq').symm.trans (hmap' ▸ hx))
    refine ⟨q.idx, hx, (h.good q (mem_of_getElem? hq)).space, ?_⟩
    rw [← hidx, ← haddr]
    exact (h'.good q' (mem_of_getElem? hq')).space
  refine ⟨fun virt hvirt => ?_, fun p hp virt hvirt => ?_, fun i p hne hp => ?_, fun f hf => ?_,
    fun i p virt f flags hne hp hvirt hget => ?_⟩
  · rw [(h.translate_upper hkept hboot.1 htables hvirt).1]
    exact (h'.translate_upper (hkept.trans hadv.kept) hboot.1 htables hvirt).1
  · obtain ⟨i, hi⟩ := mem_iff_getElem?.1 hp
    obtain ⟨x, -, hspace, hspace'⟩ := hspaces hi
    rw [(h.translate_upper hkept hboot.1 htables hvirt).2 _ (spaceRoot_mem hspace)]
    exact (h'.translate_upper (hkept.trans hadv.kept) hboot.1 htables hvirt).2 _
      (spaceRoot_mem hspace')
  · obtain ⟨x, hx, hspace, hspace'⟩ := hspaces hp
    obtain ⟨p', hp', -, hsame⟩ := ProcSys.step_procs hop hstep hp
    refine ⟨hsame hne ▸ hp', fun virt hvirt => ?_⟩
    obtain ⟨hmaps, hunmaps⟩ := ProcSys.maps_other (s := s) (j := virt / pageSize) hop hne
    rw [vmmGetMapping_pageEntry hspace' hvirt, vmmGetMapping_pageEntry hspace hvirt,
      hadv.entry hx (div_lt_userPages hvirt) hmaps hunmaps]
  · refine (hfreed f hf).imp_right fun ⟨x, hx, j, hj, hlt, hframe⟩ => ?_
    obtain ⟨p, hp⟩ := ProcSys.step_running hop hstep
    obtain ⟨y, hy, hspace, -⟩ := hspaces (ProcSys.procs_of_running hp)
    obtain rfl : x = y := some.inj (hx.symm.trans hy)
    obtain ⟨flags, hget⟩ := mapping_of_frameAt hspace hlt hframe
    exact ⟨p, flags, hp, j, hj, hget⟩
  · obtain ⟨x, hx, hspace, -⟩ := hspaces hp
    have hframe := frameAt_of_mapping hspace hvirt hget
    have hused := (h.owned.mapped (div_lt_userPages hvirt) hframe).2.1.used
    refine (hfreed f hused).elim id fun ⟨y, hy, j, _, hlt, hframe'⟩ => ?_
    -- the frame would be mapped twice
    obtain ⟨rfl, -⟩ := h.owned.unique (div_lt_userPages hvirt) hlt hframe hframe'
    exact absurd (h.idx_inj hx hy) hne

/-- A program takes a page. -/
theorem memory_calls_are_isolated_page : ∃ s s',
    Run ProcSys.step ProcSys.Ok (.start largePageMachine)
      [.create (fileData (elfFile [] [])) 64 []] s ∧
    s.step (.mmap 0 0 4096) = some s' ∧ Isolated s s' 1 0 0 4096 := by
  have hexec : ∃ s, Run ProcSys.step ProcSys.Ok (.start largePageMachine)
      [.create (fileData (elfFile [] [])) 64 []] s ∧
      (decide (s.Ok (.mmap 0 0 4096)) && (s.step (.mmap 0 0 4096)).isSome) = true :=
    Run.exists_of_exec (fun s l => decide (ProcSys.Ok s l)) (fun _ _ => of_decide_eq_true)
      (fun s : ProcSys => decide (s.Ok (.mmap 0 0 4096)) && (s.step (.mmap 0 0 4096)).isSome)
      (by decide +kernel) (by decide +kernel)
  obtain ⟨s, hrun, hs⟩ := hexec
  rw [Bool.and_eq_true, decide_eq_true_eq] at hs
  obtain ⟨s', hstep⟩ := isSome_iff_exists.1 hs.2
  have hboot : largePageMachine.KernelHalf 1 := ⟨by decide, by decide +kernel⟩
  exact ⟨s, s', hrun, hstep, memory_calls_are_isolated (by unfold Mm.Mapped; decide) hboot hrun
    (.inl rfl) hs.1 hstep⟩

/-- A program asks for a page of the kernel's half, and the kernel itself has it then. -/
theorem upper_half_address_changes_kernel : ∃ s s',
    exec ProcSys.step (.start largePageMachine)
      [.create (fileData (elfFile [] [])) 64 []] = some s ∧
    s.step (.mmap 0 0xffff800040000000 4096) = some s' ∧
    256 ≤ pml4Idx 0xffff800040000000 ∧ s.mm.translate 1 0xffff800040000000 = none ∧
    (s'.mm.translate 1 0xffff800040000000).isSome = true := by
  have hrun : (exec ProcSys.step (.start largePageMachine)
      [.create (fileData (elfFile [] [])) 64 []]).any (fun s =>
        (s.mm.translate 1 0xffff800040000000).isNone &&
        (s.step (.mmap 0 0xffff800040000000 4096)).any fun s' =>
          (s'.mm.translate 1 0xffff800040000000).isSome) = true := by
    decide +kernel
  obtain ⟨s, hs, hrun⟩ := (Option.any_eq_true _ _).1 hrun
  rw [Bool.and_eq_true, isNone_iff_eq_none] at hrun
  obtain ⟨s', hs', hmapped⟩ := (Option.any_eq_true _ _).1 hrun.2
  exact ⟨s, s', hs, hs', by decide, hrun.1, hmapped⟩

/-! ## Copies to one process -/

lemma ProcSys.Inv.recorded {s : ProcSys} {L : HeapMap} {roots B : List ℕ} {lost : List (ℕ × ℕ)}
    {qs : List Slot} {q : Slot} (h : Inv s L roots B lost qs) (hq : q ∈ qs) :
    Recorded s.mm L roots q.idx q.proc.user.mem.addrSpace := by
  refine h.blocks.recorded (mem_append_left _ (mem_flatMap.2 ⟨q, hq, ?_⟩)) (h.good q hq).space
  exact mem_append_right _ (mem_append_right _ mem_cons_self)

end CobjOs
