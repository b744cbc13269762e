import CobjOs.Framework.Transition
import CobjOs.Process.LifecycleSpec

/-!
# One step of the processes, and a run

Every step of `ProcSys` leads from one `ProcSys.Inv` to another (`ProcSys.Inv.step`).  Besides the
invariant, `Advances` says what a step does to the mappings: `maps` and `unmaps` are the pages that
it concerns, by the number of the process, and all others stay.
-/

namespace CobjOs

open List Option

namespace ProcSys

variable {s s' : ProcSys} {L L' : HeapMap} {roots roots' B : List ℕ} {lost lost' : List (ℕ × ℕ)}
  {qs qs' : List Slot} {q q' : Slot} {m' : Mm} {i pid addr size : ℕ} {op : ProcOp}

/-- The address that `sys_mmap` maps from. -/
def mmapBase (p : UserProc) (addr : ℕ) : ℕ := if addr ≠ 0 then addr else p.mem.heapTop

/-- Images in the lower half, arguments that fit the stack, ranges below `USER_SPACE_TOP`, and
sizes of blocks that do not wrap. -/
def Ok (s : ProcSys) : ProcOp → Prop
  | .create elfData elfSize argv =>
    LowPages (elfEvents elfData elfSize).1 ∧ argTotal argv ≤ stackSize
  | .mmap pid addr size => ∀ p, s.running pid = some p → mmapBase p addr + size ≤ userSpaceTop
  | .munmap _ addr size => addr + size ≤ userSpaceTop
  | .kmalloc size => 0 < size ∧ size + 8 + 4095 < 2 ^ 64
  | _ => True

instance (s : ProcSys) : ∀ op, Decidable (s.Ok op)
  | .create elfData elfSize argv => inferInstanceAs (Decidable
      ((∀ q ∈ elfPages (elfEvents elfData elfSize).1, q.2 < 2 ^ 47 ∧ q.2 ∈ q.1.pages) ∧
        argTotal argv ≤ stackSize))
  | .mmap pid addr size => decidable_of_iff
      (∀ p ∈ s.running pid, mmapBase p addr + size ≤ userSpaceTop) Iff.rfl
  | .munmap _ addr size => inferInstanceAs (Decidable (addr + size ≤ userSpaceTop))
  | .kmalloc size => inferInstanceAs (Decidable (0 < size ∧ size + 8 + 4095 < 2 ^ 64))
  | .store .. | .die _ | .cleanup | .kfree _ => .isTrue trivial

/-- The pages of a range that starts in the page of `base`. -/
def rangePages (base size : ℕ) : List ℕ :=
  List.range' (base / pageSize) (u64 (size + 4095) / pageSize)

/-- The pages that a step maps, by the number of the process. -/
def maps (s : ProcSys) : ProcOp → ℕ → ℕ → Prop
  | .create elfData elfSize _, i, k => i = s.procs.length ∧
      k ∈ elfPageNumbers elfData elfSize ++ List.range' (stackBase / pageSize) 4
  | .mmap pid addr size, i, k => i = pid ∧ ∃ p, s.running pid = some p ∧
      k ∈ rangePages (mmapBase p addr) size
  | _, _, _ => False

/-- The pages that a step unmaps. -/
def unmaps : ProcOp → ℕ → ℕ → Prop
  | .munmap pid addr size, i, k => i = pid ∧ k ∈ rangePages addr size
  | _, _, _ => False

/-- From `s` to `s'` the pages `B` and the kernel's half stayed, and the mappings changed only
where the step says; `xs` are the numbers of the address spaces of the processes. -/
structure Advances (s s' : ProcSys) (op : ProcOp) (roots roots' B xs xs' : List ℕ) : Prop where
  kept : Kept s.mm s'.mm roots roots' B []
  slots : xs <+: xs'
  entry : ∀ {i x k}, xs'[i]? = some x → k < userPages → ¬s.maps op i k → ¬unmaps op i k →
    s'.mm.pageEntry roots' x k = s.mm.pageEntry roots x k
  cleared : ∀ {i x k}, xs'[i]? = some x → k < userPages → unmaps op i k →
    s'.mm.pageEntry roots' x k = none
  fresh : ∀ {i x k}, xs'[i]? = some x → xs.length ≤ i → s.mm.pageEntry roots x k = none

lemma Ok.range_end {base size : ℕ} (h : base + size ≤ userSpaceTop) :
    base + u64 (size + 4095) / pageSize * pageSize < 2 ^ 47 + pageSize := by
  unfold userSpaceTop at h
  have hround : u64 (size + 4095) = size + 4095 := Nat.mod_eq_of_lt (by omega)
  rw [hround]
  unfold pageSize
  omega

lemma not_fresh {xs : List ℕ} {x : ℕ} {P : Prop} (hx : xs[i]? = some x) (hi : xs.length ≤ i) : P :=
  absurd (List.getElem?_eq_some_iff.1 hx).1 (Nat.not_lt.2 hi)

/-- No mapping changes. -/
lemma Advances.of_same {xs : List ℕ} (hkept : Kept s.mm s'.mm roots roots B [])
    (hop : ∀ i k, ¬unmaps op i k)
    (hentry : ∀ {x k}, k < userPages → s'.mm.pageEntry roots x k = s.mm.pageEntry roots x k) :
    Advances s s' op roots roots B xs xs where
  kept := hkept
  slots := prefix_refl xs
  entry := fun _ hk _ _ => hentry hk
  cleared := fun _ _ hun => absurd hun (hop _ _)
  fresh := not_fresh

namespace Inv

variable {elfSize n space x : ℕ} {p : UserProc}

lemma idx_inj {j : ℕ} (h : Inv s L roots B lost qs) (hi : (qs.map Slot.idx)[i]? = some x)
    (hj : (qs.map Slot.idx)[j]? = some x) : i = j :=
  (getElem?_inj (List.getElem?_eq_some_iff.1 hi).1 h.nodup).1 (hi.trans hj.symm)

lemma idx_of_slot (hq : qs[i]? = some q) : (qs.map Slot.idx)[i]? = some q.idx := by
  rw [getElem?_map, hq, map_some]

/-! ## `sys_mmap` and `sys_munmap` -/

lemma blocks_of_alive (hlife : q.proc.life ≠ .reaped) (hp : q.proc.user = p) :
    q.blocks = regionBlocks q.regions ++
      ((p.thread, threadSize) :: (p.proc, processSize) :: p.leftBlocks) := by
  rw [Slot.blocks, if_neg hlife, hp, append_assoc]
  rfl

lemma regions_lt {m : Mm} {head : ℕ} {rs : List ℕ} {others : List (ℕ × ℕ)}
    (hregs : Regions m head rs) (hinv : L.Inv m)
    (hblocks : Blocks m L (regionBlocks rs ++ others)) : head < 2 ^ 64 := by
  cases rs with
  | nil =>
    have hzero : head = 0 := hregs
    omega
  | cons r rs =>
    obtain ⟨rfl, -, -⟩ := regions_cons.1 hregs
    exact (hblocks.bounds hinv (r := (head, vmRegionSize)) (by simp [regionBlocks])).2

/-- The blocks besides the regions of the process `pid`. -/
def otherBlocks (s : ProcSys) (lost : List (ℕ × ℕ)) (qs : List Slot) (pid : ℕ) (p : UserProc) :
    List (ℕ × ℕ) :=
  ((p.thread, threadSize) :: (p.proc, processSize) :: p.leftBlocks) ++
    (Ledger.rest Slot.blocks qs pid ++ (s.blocks ++ lost))

/-- What a call of the running process `pid` finds. -/
structure Calls (s : ProcSys) (L : HeapMap) (roots B : List ℕ) (lost : List (ℕ × ℕ))
    (qs : List Slot) (pid : ℕ) (p : UserProc) (q : Slot) : Prop where
  slot : qs[pid]? = some q
  proc : q.proc = ⟨p, .alive⟩
  owned : Owned s.mm L roots (q.stackPages ++ (Ledger.rest Slot.stackPages qs pid ++ B))
  blocks : Blocks s.mm L (regionBlocks q.regions ++ otherBlocks s lost qs pid p)
  space : SpaceAt s.mm roots q.idx p.mem.addrSpace
  record : (p.mem.addrSpace, Mm.addrSpaceSize) ∈ otherBlocks s lost qs pid p
  regions : Regions s.mm p.mem.regions q.regions

lemma calls (h : Inv s L roots B lost qs) (hp : s.running pid = some p) :
    ∃ q, Calls s L roots B lost qs pid p q := by
  obtain ⟨q, hq, hqp⟩ := h.slot hp
  have hlife : q.proc.life ≠ .reaped := by simp [hqp]
  have huser : q.proc.user = p := by rw [hqp]
  obtain ⟨howned, hblocks⟩ := h.split hq
  have hgood := h.good q (mem_of_getElem? hq)
  rw [blocks_of_alive hlife huser, append_assoc] at hblocks
  refine ⟨q, hq, hqp, howned, hblocks, huser ▸ hgood.space, ?_, huser ▸ hgood.regions hlife⟩
  simp [otherBlocks, UserProc.leftBlocks]

/-- A call returns, after which the process has other regions. -/
lemma returns {mem : ProcMem} {rs : List ℕ} (h : Inv s L roots B lost qs)
    (hcalls : Calls s L roots B lost qs pid p q) (haddr : mem.addrSpace = p.mem.addrSpace)
    (howned : Owned m' L' roots (q.stackPages ++ (Ledger.rest Slot.stackPages qs pid ++ B)))
    (hblocks : Blocks m' L' (regionBlocks rs ++ otherBlocks s lost qs pid p))
    (hkept : Kept s.mm m' roots roots (q.stackPages ++ (Ledger.rest Slot.stackPages qs pid ++ B))
      (otherBlocks s lost qs pid p))
    (hregs : Regions m' mem.regions rs) :
    ∃ q', Inv (s.setProc pid m' ⟨{ p with mem := mem }, .alive⟩) L' roots B lost (qs.set pid q') ∧
      q.Continues q' ∧ q'.proc.life = .alive := by
  let q' : Slot := { q with proc := ⟨{ p with mem := mem }, .alive⟩, regions := rs }
  have hleft : UserProc.leftBlocks { p with mem := mem } = p.leftBlocks := by
    rw [UserProc.leftBlocks, UserProc.leftBlocks, haddr]
  have hqblocks : q'.blocks = regionBlocks rs ++
      ((p.thread, threadSize) :: (p.proc, processSize) :: p.leftBlocks) := by
    rw [blocks_of_alive (q := q') (by simp [q']) rfl, hleft]
  have hstack : q'.stackPages = q.stackPages := by simp [q', Slot.stackPages, hcalls.proc]
  have hidx : q'.idx = q.idx := rfl
  have hcont : q.Continues q' := by
    refine ⟨hidx, rfl, ?_, ?_⟩ <;> rw [hcalls.proc]
    · exact hleft
    · exact haddr
  refine ⟨q', h.update hcalls.slot ?_ ?_ ?_ ⟨?_, fun _ => ?_, fun _ => hregs⟩ hidx, hcont, rfl⟩
  · rw [hstack]
    exact howned
  · rw [hqblocks, append_assoc]
    exact hblocks
  · exact hkept.mono (fun b hb => mem_append_right _ hb) fun f hf => mem_append_right _ hf
  · show SpaceAt m' roots q.idx mem.addrSpace
    rw [haddr]
    exact hkept.spaceAt hcalls.record hcalls.space
  · rw [hkept.hhdm, hkept.pageCount]
    have hkstack := (h.good q (mem_of_getElem? hcalls.slot)).stack
    rw [hcalls.proc] at hkstack
    exact hkstack (by simp)

lemma mmap (h : Inv s L roots B lost qs) (hok : s.Ok (.mmap pid addr size))
    (hstep : s.step (.mmap pid addr size) = some s') :
    ∃ L' q q', qs[pid]? = some q ∧ q.Continues q' ∧ q'.proc.life = .alive ∧
      Inv s' L' roots B lost (qs.set pid q') ∧
      Advances s s' (.mmap pid addr size) roots roots B (qs.map Slot.idx) (qs.map Slot.idx) ∧
      ∀ b, s.mm.pmm.used b = true → s'.mm.pmm.used b = true := by
  simp only [step, bind, bind_eq_some_iff] at hstep
  obtain ⟨p, hp, ⟨m', mem, v⟩, hcall, hs'⟩ := hstep
  obtain rfl := some.inj hs'
  obtain ⟨q, hcalls⟩ := h.calls hp
  have hbase : v = mmapBase p addr := (Mm.sysMmap_eq_some hcall).1
  have hv := hok p hp
  rw [← hbase] at hv
  have hspace := hcalls.blocks.recorded (mem_append_right _ hcalls.record) hcalls.space
  have hhead := regions_lt hcalls.regions h.owned.inv.heap hcalls.blocks
  obtain ⟨-, hmem, ⟨hne, hlink⟩, L', fs, hbuilds⟩ :=
    hcalls.owned.sysMmap hspace hcall hhead (Ok.range_end hv)
  obtain ⟨hkept, hblocks⟩ := hbuilds.kept hcalls.owned hcalls.blocks
  have haddr : mem.addrSpace = p.mem.addrSpace := by rw [hmem]
  have hregs : Regions m' mem.regions (mem.regions :: q.regions) := by
    refine regions_cons.2 ⟨rfl, hne, ?_⟩
    rw [hlink]
    exact hcalls.regions.kept hkept fun b hb => mem_append_left _ hb
  have hblocks' : Blocks m' L' (regionBlocks (mem.regions :: q.regions) ++
    otherBlocks s lost qs pid p) := hblocks
  obtain ⟨q', hinv, hcont, hlife⟩ := h.returns hcalls haddr hbuilds.owned hblocks'
    (hkept.mono (fun b hb => mem_append_right _ hb) fun f hf => hf) hregs
  refine ⟨L', q, q', hcalls.slot, hcont, hlife, hinv, ?_, fun b => hbuilds.ext.used⟩
  refine ⟨kept_right (kept_right hkept), prefix_refl _, fun {i x k} hx hk hmaps _ => ?_,
    fun _ _ hun => absurd hun id, not_fresh⟩
  refine hbuilds.entry hk ?_
  by_cases hi : i = pid
  · refine .inr fun hmem => hmaps ⟨hi, p, hp, ?_⟩
    rwa [rangePages, ← hbase]
  · exact .inl fun hxq => hi (h.idx_inj hx (hxq ▸ idx_of_slot hcalls.slot))

lemma munmap (h : Inv s L roots B lost qs) (hok : s.Ok (.munmap pid addr size))
    (hstep : s.step (.munmap pid addr size) = some s') :
    ∃ L' q q', qs[pid]? = some q ∧ q.Continues q' ∧ Inv s' L' roots B lost (qs.set pid q') ∧
      Advances s s' (.munmap pid addr size) roots roots B (qs.map Slot.idx) (qs.map Slot.idx) ∧
      ∀ b, s.mm.pmm.used b = true → s'.mm.pmm.used b = true ∨
        ∃ x, (qs.map Slot.idx)[pid]? = some x ∧ ∃ k ∈ rangePages addr size, k < userPages ∧
          s.mm.frameAt roots x k = some b := by
  simp only [step, bind, bind_eq_some_iff] at hstep
  obtain ⟨p, hp, ⟨m', mem⟩, hcall, hs'⟩ := hstep
  obtain rfl := some.inj hs'
  obtain ⟨q, hcalls⟩ := h.calls hp
  obtain ⟨hmem, m₁, L', rs, -, hrel, hunmaps⟩ := hcalls.owned.sysMunmap hcalls.space hcalls.blocks
    hcalls.record hcalls.regions (Ok.range_end hok) hcall
  obtain ⟨howned, hblocks, hkept, hregs, hentry⟩ := hrel.unmaps hunmaps
  have haddr : mem.addrSpace = p.mem.addrSpace := by rw [hmem]
  obtain ⟨q', hinv, hcont, -⟩ := h.returns hcalls haddr howned hblocks hkept hregs
  refine ⟨L', q, q', hcalls.slot, hcont, hinv, ?_, fun b hb => ?_⟩
  · refine ⟨kept_right (kept_right hkept), prefix_refl _, fun {i x k} hx hk _ hun => ?_,
      fun {i x k} hx hk hun => ?_, not_fresh⟩
    · refine (hentry hk).trans (if_neg fun hin => hun ⟨?_, hin.2⟩)
      exact h.idx_inj hx (hin.1 ▸ idx_of_slot hcalls.slot)
    · obtain ⟨rfl, hin⟩ := hun
      have hxq : x = q.idx := some.inj (hx.symm.trans (idx_of_slot hcalls.slot))
      exact (hentry hk).trans (if_pos ⟨hxq, hin⟩)
  · rw [← hrel.used b] at hb
    refine (hunmaps.freed hb).imp_right fun ⟨k, hk, hlt, hf⟩ =>
      ⟨q.idx, idx_of_slot hcalls.slot, k, hk, hlt, ?_⟩
    rwa [← frameAt_congr (hrel.entry hlt)]

/-! ## The other steps of a process -/

lemma store {virt : ℕ} {byte : UInt8} (h : Inv s L roots B lost qs)
    (hstep : s.step (.store pid virt byte) = some s') :
    Inv s' L roots B lost qs ∧
      Advances s s' (.store pid virt byte) roots roots B (qs.map Slot.idx) (qs.map Slot.idx) := by
  simp only [step, bind, bind_eq_some_iff] at hstep
  obtain ⟨p, hp, ⟨phys, flags⟩, hget, hs'⟩ := hstep
  split_ifs at hs' with hwritable
  obtain rfl := some.inj hs'
  obtain ⟨q, hq, hqp⟩ := h.slot hp
  have hspace := (h.good q (mem_of_getElem? hq)).space
  rw [hqp] at hspace
  have hvirt : virt < 2 ^ 47 := hwritable.1
  rw [vmmGetMapping_pageEntry hspace hvirt, map_eq_some_iff] at hget
  obtain ⟨e, he, hphys⟩ := hget
  have hf : s.mm.frameAt roots q.idx (virt / pageSize) = some (e / pageSize) := by
    rw [Mm.frameAt, he, map_some]
  have haddr : phys = e / pageSize * pageSize := (congrArg Prod.fst hphys).symm
  have hram : Mem.EqOff (InPage s.mm (e / pageSize)) s.mm.ram
      (Function.update s.mm.ram (phys + s.mm.hhdm + virt % pageSize) byte) := by
    intro x hx
    refine Function.update_of_ne (fun hxe => hx ?_) _ _
    have hmod := Nat.mod_lt virt (show 0 < pageSize by decide)
    rw [hxe, InPage, Mem.Within, Mm.kaddr, haddr]
    omega
  obtain ⟨howned, hkept, hentry⟩ :=
    h.owned.writeFrame h.blocks (div_lt_userPages hvirt) hf hram
  have hB := kept_right hkept
  refine ⟨?_, .of_same hB (fun _ _ hun => hun) hentry⟩
  exact h.world howned h.blocks (hkept.mono (fun b hb => mem_append_left _ hb) fun f hf => hf)
    (upper_kept h.upper hB)

lemma die (h : Inv s L roots B lost qs) (hstep : s.step (.die pid) = some s') :
    ∃ q q', qs[pid]? = some q ∧ q.Continues q' ∧ q'.proc.life = .dead ∧
      Inv s' L roots B lost (qs.set pid q') ∧ s'.mm = s.mm := by
  simp only [step, bind, bind_eq_some_iff] at hstep
  obtain ⟨p, hp, hs'⟩ := hstep
  obtain rfl := some.inj hs'
  obtain ⟨q, hq, hqp⟩ := h.slot hp
  obtain ⟨howned, hblocks⟩ := h.split hq
  let q' : Slot := { q with proc := ⟨p, .dead⟩ }
  have hstack : q'.stackPages = q.stackPages := by simp [q', Slot.stackPages, hqp]
  have hqblocks : q'.blocks = q.blocks := by simp [q', Slot.blocks, hqp]
  obtain ⟨hspace, hkstack, hregs⟩ := h.good q (mem_of_getElem? hq)
  rw [hqp] at hspace hkstack hregs
  have hinv : Inv (s.setProc pid s.mm q'.proc) L roots B lost (qs.set pid q') :=
    h.update hq (by rw [hstack]; exact howned) (by rw [hqblocks]; exact hblocks) (.refl ..)
      ⟨hspace, fun _ => hkstack (by simp), fun _ => hregs (by simp)⟩ rfl
  have hcont : q.Continues q' := by
    refine ⟨rfl, rfl, ?_, ?_⟩ <;> rw [hqp]
  exact ⟨q, q', hq, hcont, rfl, hinv, rfl⟩

/-! ## `proc_cleanup` -/

lemma reap (h : Inv s L roots B lost qs) (hq : qs[pid]? = some q) :
    ∃ s' L', s.reap pid = some s' ∧ Inv s' L' roots B lost (qs.set pid q.reaped) ∧
      Kept s.mm s'.mm roots roots B [] ∧
      (∀ b, s'.mm.pmm.used b = true ↔ b ∉ q.deadPages ∧ s.mm.pmm.used b = true) ∧
      s'.blocks = s.blocks ∧
      ∀ {x k}, k < userPages → s'.mm.pageEntry roots x k = s.mm.pageEntry roots x k := by
  have hproc : s.procs[pid]? = some q.proc := by
    rw [h.procs, getElem?_map, hq, map_some]
  by_cases hdead : q.proc.life = .dead
  · have hlife : q.proc.life ≠ .reaped := by simp [hdead]
    obtain ⟨howned, hblocks⟩ := h.split hq
    rw [blocks_of_alive hlife rfl, append_assoc] at hblocks
    rw [Slot.stackPages, if_neg hlife] at howned
    have hgood := h.good q (mem_of_getElem? hq)
    obtain ⟨m', L', hreap, howned', hblocks', hkept, hused, hentry⟩ :=
      howned.reapProc hblocks (hgood.regions hlife) (hgood.stack hlife)
    let q' : Slot := { q with proc := { q.proc with life := .reaped } }
    have hstack : q'.stackPages = [] := by simp [q', Slot.stackPages]
    have hqblocks : q'.blocks = q.proc.user.leftBlocks := by simp [q', Slot.blocks]
    have hinv : Inv (s.setProc pid m' q'.proc) L' roots B lost (qs.set pid q') := by
      refine h.update hq (by rw [hstack]; exact howned') (by rw [hqblocks]; exact hblocks')
        (hkept.mono (fun b hb => mem_append_right _ hb) fun f hf => hf)
        ⟨hkept.spaceAt (by simp [q', UserProc.leftBlocks]) hgood.space, fun hne => ?_,
          fun hne => ?_⟩ rfl
      all_goals exact absurd rfl hne
    rw [Slot.reaped, if_pos hdead, Slot.deadPages, if_pos hdead]
    refine ⟨_, L', ?_, hinv, kept_right hkept, hused, rfl, hentry⟩
    simp only [ProcSys.reap, hproc, bind, bind_some, if_pos hdead, hreap]
    rfl
  · have hset : qs.set pid q = qs := by
      obtain ⟨hlt, rfl⟩ := List.getElem?_eq_some_iff.1 hq
      exact set_getElem_self hlt
    rw [Slot.reaped, if_neg hdead, Slot.deadPages, if_neg hdead, hset]
    refine ⟨s, L, ?_, h, .refl .., by simp, rfl, fun _ => rfl⟩
    simp only [ProcSys.reap, hproc, bind, bind_some, if_neg hdead]

/-- The loop does not panic, and leaves the mappings. -/
lemma reapAll (h : Inv s L roots B lost qs) {pids : List ℕ}
    (hpids : ∀ pid ∈ pids, pid < qs.length) :
    ∃ s' L' qs', pids.foldlM ProcSys.reap s = some s' ∧ Inv s' L' roots B lost qs' ∧
      (∀ j, qs'[j]? = if j ∈ pids then qs[j]?.map Slot.reaped else qs[j]?) ∧
      Kept s.mm s'.mm roots roots B [] ∧
      (∀ b, s'.mm.pmm.used b = true ↔
        (∀ j ∈ pids, ∀ q, qs[j]? = some q → b ∉ q.deadPages) ∧ s.mm.pmm.used b = true) ∧
      s'.blocks = s.blocks ∧
      ∀ {x k}, k < userPages → s'.mm.pageEntry roots x k = s.mm.pageEntry roots x k := by
  induction pids generalizing s L qs with
  | nil => exact ⟨s, L, qs, rfl, h, by simp, .refl .., by simp, rfl, fun _ => rfl⟩
  | cons pid pids ih =>
    have hlt := hpids pid mem_cons_self
    obtain ⟨q, hq⟩ : ∃ q, qs[pid]? = some q := ⟨_, getElem?_eq_getElem hlt⟩
    obtain ⟨s₁, L₁, hreap, h₁, hkept₁, hused₁, hblocks₁, hentry₁⟩ := h.reap hq
    obtain ⟨s', L', qs', hall, h', hslots, hkept, hused, hblocks, hentry⟩ :=
      ih h₁ fun j hj => by
        rw [length_set]
        exact hpids j (mem_cons_of_mem _ hj)
    have hself : (qs.set pid q.reaped)[pid]? = some q.reaped := getElem?_set_self hlt
    refine ⟨s', L', qs', ?_, h', fun j => ?_, hkept₁.trans hkept, fun b => ?_,
      hblocks.trans hblocks₁, fun hk => (hentry hk).trans (hentry₁ hk)⟩
    · rw [foldlM_cons, hreap]
      exact hall
    · rw [hslots]
      by_cases hj : j = pid
      · subst hj
        rw [hself, hq, map_some, map_some, Slot.reaped_reaped, ite_self,
          if_pos mem_cons_self]
      · rw [getElem?_set_ne fun hpj => hj hpj.symm]
        simp [hj]
    · rw [hused, hused₁]
      constructor
      · rintro ⟨hout, hb, hub⟩
        refine ⟨fun j hj r hr => ?_, hub⟩
        by_cases hjp : j = pid
        · subst hjp
          exact some.inj (hq.symm.trans hr) ▸ hb
        · refine hout j ((mem_cons.1 hj).resolve_left hjp) r ?_
          rwa [getElem?_set_ne fun hpj => hjp hpj.symm]
      · rintro ⟨hout, hub⟩
        refine ⟨fun j hj r hr => ?_, hout pid mem_cons_self q hq, hub⟩
        by_cases hjp : j = pid
        · subst hjp
          rw [← some.inj (hself.symm.trans hr), Slot.deadPages_reaped]
          exact not_mem_nil
        · rw [getElem?_set_ne fun hpj => hjp hpj.symm] at hr
          exact hout j (mem_cons_of_mem _ hj) r hr

lemma cleanup (h : Inv s L roots B lost qs) : ∃ s' L', s.step .cleanup = some s' ∧
    Inv s' L' roots B lost (qs.map Slot.reaped) ∧
    Advances s s' .cleanup roots roots B (qs.map Slot.idx) (qs.map Slot.idx) ∧
    (∀ b, s'.mm.pmm.used b = true ↔ (∀ q ∈ qs, b ∉ q.deadPages) ∧ s.mm.pmm.used b = true) ∧
    s'.blocks = s.blocks := by
  have hpids : ∀ {pid}, pid ∈ (List.range s.procs.length).reverse ↔ pid < qs.length := by
    intro pid
    rw [h.procs, length_map, mem_reverse, mem_range]
  obtain ⟨s', L', qs', hstep, hinv, hslots, hkept, hused, hblocks, hentry⟩ :=
    h.reapAll fun pid => hpids.1
  have hqs : qs' = qs.map Slot.reaped := by
    refine ext_getElem? fun j => ?_
    rw [hslots, getElem?_map]
    split_ifs with hj
    · rfl
    · rw [getElem?_eq_none (Nat.not_lt.1 fun hlt => hj (hpids.2 hlt)), map_none]
  refine ⟨s', L', hstep, hqs ▸ hinv, .of_same hkept (fun _ _ hun => hun) hentry, fun b => ?_,
    hblocks⟩
  rw [hused]
  refine and_congr_left fun _ => ⟨fun hout q hq => ?_, fun hout j _ q hq => ?_⟩
  · obtain ⟨j, hj⟩ := mem_iff_getElem?.1 hq
    exact hout j (hpids.2 (List.getElem?_eq_some_iff.1 hj).1) q hj
  · exact hout q (mem_of_getElem? hq)

/-! ## The rest of the kernel -/

lemma kmalloc (h : Inv s L roots B lost qs) (hok : s.Ok (.kmalloc size))
    (hstep : s.step (.kmalloc size) = some s') :
    ∃ L', Inv s' L' roots B lost qs ∧
      Advances s s' (.kmalloc size) roots roots B (qs.map Slot.idx) (qs.map Slot.idx) ∧
      ∀ b, s.mm.pmm.used b = true → s'.mm.pmm.used b = true := by
  simp only [step, bind, bind_eq_some_iff] at hstep
  obtain ⟨⟨m', block⟩, hcall, hs'⟩ := hstep
  obtain rfl := some.inj hs'
  obtain ⟨L', hrec⟩ := h.owned.kmalloc (s := 0) hok.1 hok.2 hcall
  obtain ⟨hkept, hblocks⟩ := hrec.kept h.owned h.blocks
  have hB := kept_right hkept
  refine ⟨L', ?_, .of_same hB (fun _ _ hun => hun) fun hk => hrec.entry hk (.inr not_mem_nil),
    fun b => hrec.ext.used⟩
  exact h.world hrec.owned (hblocks.perm perm_middle)
    (hkept.mono (fun b hb => mem_append_left _ hb) fun f hf => hf) (upper_kept h.upper hB)

lemma kfree {block : ℕ} (h : Inv s L roots B lost qs) (hstep : s.step (.kfree block) = some s') :
    ∃ L', Inv s' L' roots B lost qs ∧
      Advances s s' (.kfree block) roots roots B (qs.map Slot.idx) (qs.map Slot.idx) ∧
      ((∀ b ∈ s.blocks, b.1 = block → b.2 ≤ 2048) → ∀ b, s'.mm.pmm.used b = s.mm.pmm.used b) := by
  simp only [step, bind, bind_eq_some_iff] at hstep
  obtain ⟨b, hfind, m', hcall, hs'⟩ := hstep
  obtain rfl := some.inj hs'
  have hb : b ∈ s.blocks := mem_of_find?_eq_some hfind
  have hblock : b.1 = block := by simpa using find?_some hfind
  have hblocks : Blocks s.mm L (b :: (qs.flatMap Slot.blocks ++ (s.blocks.erase b ++ lost))) := by
    refine h.blocks.perm (perm_middle.symm.trans ?_)
    exact ((perm_cons_erase hb).symm.append_right lost).append_left _
  obtain ⟨m₁, L', _, hfree, hf, howned, hblocks', hkept, hused⟩ := h.owned.kfree hblocks
  rw [hblock, hcall] at hfree
  obtain rfl := some.inj hfree
  have hB := kept_right hkept
  refine ⟨L', ?_, .of_same hB (fun _ _ hun => hun) hf.entry,
    fun hsmall => hused (hsmall b hb hblock)⟩
  exact h.world howned hblocks' (hkept.mono (fun b hb => mem_append_left _ hb) fun f hf => hf)
    (upper_kept h.upper hB)

/-! ## `proc_create` -/

/-- A new space has the kernel's half. -/
lemma upper_addsRoot {m₁ : Mm} {L₁ : HeapMap} (h : Inv s L roots B lost qs)
    (hroot : AddsRoot s.mm m₁ L L₁ roots n space)
    (hkept : Kept s.mm m₁ roots (roots ++ [n]) B []) :
    ∀ k ∈ B, m₁.kernelPml4 = k * pageSize → ∀ root ∈ roots ++ [n], ∀ i, 256 ≤ i → i < 512 →
      m₁.entry root i = m₁.entry k i := by
  intro k hk hpml4 root hmem i hlo hhi
  rcases mem_append.1 hmem with hold | hnew
  · exact upper_kept h.upper hkept k hk hpml4 root hold i hlo hhi
  · obtain rfl := mem_singleton.1 hnew
    have hforeign := h.owned.reserved (mem_append_right _ hk)
    rw [hkept.kernelPml4] at hpml4
    rw [hroot.copied hpml4 hforeign i hlo hhi, entry_reserved hkept hk hhi]

lemma idx_lt (h : Inv s L roots B lost qs) (hx : (qs.map Slot.idx)[i]? = some x) :
    x < roots.length := by
  obtain ⟨q, hq, rfl⟩ := List.mem_map.1 (mem_of_getElem? hx)
  exact (h.good q hq).idx_lt

lemma pageEntry_new (m : Mm) (roots : List ℕ) (k : ℕ) :
    m.pageEntry roots roots.length k = none := by
  have htable : ∀ p, m.table roots roots.length p = none := fun p =>
    tableAt_of_root_none (getElem?_eq_none (Nat.le_refl _)) p
  rw [Mm.pageEntry, Mm.leafOf, Mm.leaf, htable, bind_none]

/-- A space is made and built up: what there was stays, and the new space has a record and the
kernel's half. -/
lemma newSpace {m₁ : Mm} {L₁ : HeapMap} {R' ks fs : List ℕ} {rs : List (ℕ × ℕ)}
    (h : Inv s L roots B lost qs) (hroot : AddsRoot s.mm m₁ L L₁ roots n space)
    (hbuilds : Builds m₁ m' L₁ L' (roots ++ [n]) (qs.flatMap Slot.stackPages ++ B) R' roots.length
      rs ks fs) :
    Kept s.mm m' roots (roots ++ [n]) (qs.flatMap Slot.stackPages ++ B)
        (qs.flatMap Slot.blocks ++ (s.blocks ++ lost)) ∧
      Blocks m' L' (rs ++ ((space, Mm.addrSpaceSize) ::
        (qs.flatMap Slot.blocks ++ (s.blocks ++ lost)))) ∧
      SpaceAt m' (roots ++ [n]) roots.length space ∧
      ∀ k ∈ B, m'.kernelPml4 = k * pageSize → ∀ root ∈ roots ++ [n], ∀ i, 256 ≤ i → i < 512 →
        m'.entry root i = m'.entry k i := by
  obtain ⟨a, hlive, hptr, hsize⟩ := hroot.live
  have hkept₁ := Kept.of_extends hroot.ext (prefix_append _ _) h.blocks h.owned
  have hblocks₁ : Blocks m₁ L₁ ([(space, Mm.addrSpaceSize)] ++
      (qs.flatMap Slot.blocks ++ (s.blocks ++ lost))) :=
    h.blocks.add hroot.ext.hhdm (show L₁.live = [a] ++ L.live from hlive) (by simp [hptr, hsize])
  obtain ⟨hkept₂, hblocks₂⟩ := hbuilds.kept (h.owned.addsRoot hroot) hblocks₁
  refine ⟨hkept₁.trans (hkept₂.mono (fun b hb => mem_cons_of_mem _ hb) fun f hf => hf),
    hblocks₂, hkept₂.spaceAt mem_cons_self hroot.recorded.spaceAt, ?_⟩
  exact upper_kept (h.upper_addsRoot hroot (kept_right hkept₁)) (kept_right hkept₂)

/-- The load failed: the space is lost, with what was loaded. -/
lemma createFailed {elfData : FileData} {argv : List (List UInt8)}
    (h : Inv s L roots B lost qs) (hok : s.Ok (.create elfData elfSize argv))
    (hcall : s.mm.procCreate elfData elfSize argv = some (m', none)) :
    ∃ L' roots' lost', Inv { s with mm := m' } L' roots' B lost' qs ∧
      Advances s { s with mm := m' } (.create elfData elfSize argv) roots roots' B
        (qs.map Slot.idx) (qs.map Slot.idx) := by
  simp only [Mm.procCreate, bind, bind_eq_some_iff] at hcall
  obtain ⟨⟨m₁, space⟩, hspace, ⟨m₂, entry⟩, hload, hcall⟩ := hcall
  dsimp only at hload hcall
  split_ifs at hcall with hentry
  · obtain rfl : m₂ = m' := congrArg Prod.fst (some.inj hcall)
    obtain ⟨L', n, fs, hroot, hbuilds⟩ := h.owned.loadImage hok.1 hspace hload
    obtain ⟨hkept, hblocks, -, hupper⟩ := h.newSpace hroot hbuilds
    refine ⟨L', roots ++ [n], (space, Mm.addrSpaceSize) :: lost, ?_, kept_right hkept,
      prefix_refl _, ?_, ?_, not_fresh⟩
    · refine h.world hbuilds.owned (hblocks.perm ?_)
        (hkept.mono (fun b hb => mem_append_left _ hb) fun f hf => hf) hupper
      rw [nil_append, ← append_assoc, ← append_assoc]
      exact perm_middle
    · intro i x k hx hk _ _
      have hne := Nat.ne_of_lt (h.idx_lt hx)
      exact (hbuilds.entry hk (.inl hne)).trans (hroot.entry hk)
    · exact fun _ _ hun => absurd hun id
  · simp only [bind_eq_some_iff] at hcall
    obtain ⟨_, -, _, -, _, -, _, -, _, -, _, -, hres⟩ := hcall
    simp at hres

lemma createProc {elfData : FileData} {argv : List (List UInt8)}
    (h : Inv s L roots B lost qs) (hok : s.Ok (.create elfData elfSize argv))
    (hcall : s.mm.procCreate elfData elfSize argv = some (m', some p)) :
    let s' := { s with mm := m', procs := s.procs ++ [⟨p, .alive⟩] }
    ∃ L' roots' q, q.proc = ⟨p, .alive⟩ ∧ Inv s' L' roots' B lost (qs ++ [q]) ∧
      Advances s s' (.create elfData elfSize argv) roots roots' B
        (qs.map Slot.idx) ((qs ++ [q]).map Slot.idx) ∧
      (∀ b, s.mm.pmm.used b = true → m'.pmm.used b = true) ∧
      (∀ b ∈ List.range' q.kstack 4, s.mm.pmm.used b = false) ∧
      ∃ n, roots'[q.idx]? = some n ∧ s.mm.pmm.used n = false := by
  intro s'
  obtain ⟨m₁, L₁, L', n, kstack, fs, hstarts⟩ := h.owned.procCreate hok.1 hok.2 hcall
  have hroot := hstarts.root
  obtain ⟨hkept, hblocks, hspace, hupper⟩ := h.newSpace hroot hstarts.builds
  let q : Slot := ⟨⟨p, .alive⟩, roots.length, kstack, []⟩
  have hmap : (qs ++ [q]).map Slot.idx = qs.map Slot.idx ++ [roots.length] := by simp [q]
  have hgood : q.Good m' (roots ++ [n]) := by
    refine ⟨hspace, fun _ => ?_, fun _ => ?_⟩
    · rw [hkept.hhdm, hkept.pageCount]
      exact hstarts.kernelStack
    · show Regions m' p.mem.regions []
      rw [hstarts.mem]
      exact rfl
  have hnew : ∀ {i x : ℕ}, ((qs ++ [q]).map Slot.idx)[i]? = some x → (qs.map Slot.idx).length ≤ i →
      i = qs.length ∧ roots.length = x := by
    intro i x hx hi
    rw [hmap, getElem?_append_right hi, getElem?_singleton] at hx
    split_ifs at hx with hlast
    rw [length_map] at hi hlast
    exact ⟨by omega, some.inj hx⟩
  refine ⟨L', roots ++ [n], q, rfl, ⟨?_, ?_, ?_, ?_, ?_, hupper⟩,
    ⟨kept_right hkept, ?_, ?_, ?_, ?_⟩, fun b hb => hstarts.builds.ext.used (hroot.ext.used hb),
    fun b hb => ?_, n, getElem?_concat_length, hroot.free⟩
  · simp [s', h.procs, q]
  · refine hstarts.builds.owned.perm ?_
    simp only [flatMap_append, flatMap_singleton, ← append_assoc]
    exact List.perm_append_comm.append_right B
  · refine hblocks.perm ?_
    simp only [s', q, flatMap_append, flatMap_singleton, Slot.blocks, UserProc.leftBlocks,
      UserProc.records, regionBlocks, perm_iff_count]
    intro b
    simp [count_append, count_cons]
    omega
  · intro r hr
    rcases mem_append.1 hr with hr | hr
    · exact (h.good r hr).kept hkept fun b hb =>
        mem_append_left _ (mem_flatMap.2 ⟨r, hr, hb⟩)
    · exact mem_singleton.1 hr ▸ hgood
  · rw [hmap]
    refine nodup_append.2 ⟨h.nodup, by simp, fun x hx y hy => ?_⟩
    obtain ⟨i, hi⟩ := mem_iff_getElem?.1 hx
    rw [mem_singleton.1 hy]
    exact Nat.ne_of_lt (h.idx_lt hi)
  · rw [hmap]
    exact prefix_append _ _
  · intro i x k hx hk hmaps _
    by_cases hi : (qs.map Slot.idx).length ≤ i
    · -- a page of the new process that is neither of the image nor of the stack
      obtain ⟨rfl, rfl⟩ := hnew hx hi
      have hproc : s.procs.length = qs.length := by rw [h.procs, length_map]
      rw [hstarts.builds.entry hk (.inr fun hmem => hmaps ⟨hproc.symm, hmem⟩),
        hroot.entry hk]
    · rw [hmap, getElem?_append_left (Nat.not_le.1 hi)] at hx
      have hne := Nat.ne_of_lt (h.idx_lt hx)
      exact (hstarts.builds.entry hk (.inl hne)).trans (hroot.entry hk)
  · exact fun _ _ hun => absurd hun id
  · intro i x k hx hi
    obtain ⟨-, rfl⟩ := hnew hx hi
    exact pageEntry_new _ _ _
  · exact hroot.ext.free (hstarts.builds.new b (mem_append_right _ hb)).1

/-! ## Runs -/

lemma start {m : Mm} (hmap : m.Mapped) (hnodup : B.Nodup) (hused : ∀ f ∈ B, m.pmm.used f = true) :
    Inv (ProcSys.start m) HeapMap.empty [] B [] [] where
  procs := rfl
  owned := by
    have howned : Owned m.slabInit HeapMap.empty [] [] := .of_heap (.slabInit hmap)
    refine (howned.reserve hnodup (fun {f} hf => ⟨⟨hused f hf, not_isTable_nil _ _, ?_⟩, ?_⟩)
      fun {s k f} hk hf => ?_).perm (by simp)
    · exact nofun
    · exact not_mem_nil
    · simp [Mm.frameAt, Mm.pageEntry, Mm.leafOf, Mm.leaf, table_nil] at hf
  blocks := List.Perm.refl _
  good := by simp
  nodup := nodup_nil
  upper := by simp

lemma step (h : Inv s L roots B lost qs) (hok : s.Ok op) (hstep : s.step op = some s') :
    ∃ L' roots' lost' qs', Inv s' L' roots' B lost' qs' ∧
      Advances s s' op roots roots' B (qs.map Slot.idx) (qs'.map Slot.idx) := by
  cases op with
  | create elfData elfSize argv =>
    obtain ⟨⟨m', r⟩, hcall, hs'⟩ := bind_eq_some_iff.1 hstep
    cases r with
    | none =>
      obtain rfl := some.inj hs'
      obtain ⟨L', roots', lost', hinv, hadv⟩ := h.createFailed hok hcall
      exact ⟨L', roots', lost', qs, hinv, hadv⟩
    | some p =>
      obtain rfl := some.inj hs'
      obtain ⟨L', roots', q, -, hinv, hadv, -⟩ := h.createProc hok hcall
      exact ⟨L', roots', lost, qs ++ [q], hinv, hadv⟩
  | mmap pid addr size =>
    obtain ⟨L', q, q', hq, hcont, -, hinv, hadv, -⟩ := h.mmap hok hstep
    exact ⟨L', roots, lost, _, hinv, Ledger.map_set_eq hq hcont.idx ▸ hadv⟩
  | munmap pid addr size =>
    obtain ⟨L', q, q', hq, hcont, hinv, hadv, -⟩ := h.munmap hok hstep
    exact ⟨L', roots, lost, _, hinv, Ledger.map_set_eq hq hcont.idx ▸ hadv⟩
  | store pid virt byte =>
    obtain ⟨hinv, hadv⟩ := h.store hstep
    exact ⟨L, roots, lost, qs, hinv, hadv⟩
  | die pid =>
    obtain ⟨q, q', hq, hcont, -, hinv, hmm⟩ := h.die hstep
    refine ⟨L, roots, lost, _, hinv, ?_⟩
    rw [Ledger.map_set_eq hq hcont.idx]
    exact .of_same (hmm ▸ .refl ..) (fun _ _ hun => hun) fun _ => by rw [hmm]
  | cleanup =>
    obtain ⟨s₁, L', hcall, hinv, hadv, -⟩ := h.cleanup
    obtain rfl := some.inj (hcall.symm.trans hstep)
    have hmap : (qs.map Slot.reaped).map Slot.idx = qs.map Slot.idx := by
      rw [List.map_map]
      exact map_congr_left fun q _ => q.idx_reaped
    exact ⟨L', roots, lost, _, hinv, hmap.symm ▸ hadv⟩
  | kmalloc size =>
    obtain ⟨L', hinv, hadv, -⟩ := h.kmalloc hok hstep
    exact ⟨L', roots, lost, qs, hinv, hadv⟩
  | kfree block =>
    obtain ⟨L', hinv, hadv, -⟩ := h.kfree hstep
    exact ⟨L', roots, lost, qs, hinv, hadv⟩

end Inv

/-- The invariant holds in every state that is reached from `slab_init` on, and the pages `B` are as
they were. -/
lemma run_inv {m : Mm} {ls : List ProcOp} (hmap : m.Mapped) (hnodup : B.Nodup)
    (hused : ∀ f ∈ B, m.pmm.used f = true) (hrun : Run step Ok (start m) ls s) :
    ∃ L roots lost qs, Inv s L roots B lost qs ∧ Kept m.slabInit s.mm [] roots B [] := by
  refine hrun.invariant (I := fun s => ∃ L roots lost qs, Inv s L roots B lost qs ∧
    Kept m.slabInit s.mm [] roots B []) ⟨_, _, _, _, .start hmap hnodup hused, .refl ..⟩ ?_
  rintro s op s' ⟨L, roots, lost, qs, h, hkept⟩ hok hstep
  obtain ⟨L', roots', lost', qs', hinv, hadv⟩ := h.step hok hstep
  exact ⟨L', roots', lost', qs', hinv, hkept.trans hadv.kept⟩

end ProcSys

end CobjOs
