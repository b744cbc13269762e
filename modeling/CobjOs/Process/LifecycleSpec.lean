import CobjOs.Framework.Ledger
import CobjOs.Process.CreateSpec
import CobjOs.Process.Lifecycle
import CobjOs.Process.MmapSpec

/-!
# The memory of all processes

`ProcSys.Inv` ties together the page bitmap, the page tables of all processes, the heap and the
kernel stacks.  What all processes have (`Slot.blocks`), together with the blocks of the rest of the
kernel and those that nobody can free any more, is exactly what the heap has (`Blocks`), and the
kernel stacks (`Slot.stackPages`) are pages apart from all others (`Owned`).

A call of one process leaves what the others have (`ProcSys.Inv.update`).
-/

namespace CobjOs

open List

/-! ## What `proc_cleanup` frees -/

section Reap

variable {m m' : Mm} {L : HeapMap} {roots R rs : List ℕ} {head : ℕ} {others : List (ℕ × ℕ)}

/-- The loop over the regions frees them all. -/
lemma Owned.freeRegions {fuel : ℕ} (h : Owned m L roots R)
    (hblocks : Blocks m L (regionBlocks rs ++ others)) (hregs : Regions m head rs)
    (hfuel : rs.length < fuel) :
    ∃ m' L', m.freeRegions fuel head = some m' ∧ Relists m m' L' roots R others 0 [] := by
  induction rs generalizing m L head fuel with
  | nil =>
    obtain ⟨fuel, rfl⟩ := Nat.exists_eq_add_of_lt hfuel
    have hend : head = 0 := hregs
    subst hend
    exact ⟨m, L, by simp [Mm.freeRegions], h, hblocks, .refl .., hregs, fun _ => rfl,
      fun _ => rfl⟩
  | cons x rs ih =>
    obtain ⟨fuel, rfl⟩ : ∃ f, fuel = f + 1 := ⟨fuel - 1, by simp at hfuel; omega⟩
    obtain ⟨rfl, hne, hrest⟩ := regions_cons.1 hregs
    obtain ⟨m₁, L₁, hfree, hrel⟩ := h.freeRegion hblocks hrest
    obtain ⟨m', L', hloop, hrel'⟩ :=
      ih hrel.owned hrel.blocks hrel.regions (Nat.lt_of_succ_lt_succ hfuel)
    refine ⟨m', L', ?_, { hrel' with
      kept := hrel.kept.trans hrel'.kept
      used := fun b => (hrel'.used b).trans (hrel.used b)
      entry := fun hk => (hrel'.entry hk).trans (hrel.entry hk) }⟩
    rw [Mm.freeRegions, if_neg hne, hfree]
    exact hloop

lemma sub64_add {a b : ℕ} (h : a + b < 2 ^ 64) : sub64 (a + b) b = a := by
  rw [sub64, u64]
  omega

/-- `proc_cleanup` gives back the regions, the kernel stack, the thread and the process. -/
lemma Owned.reapProc {p : UserProc} {kstack : ℕ}
    (h : Owned m L roots (List.range' kstack 4 ++ R))
    (hblocks : Blocks m L (regionBlocks rs ++
      ((p.thread, threadSize) :: (p.proc, processSize) :: others)))
    (hregs : Regions m p.mem.regions rs)
    (hstack : p.kernelStack = kstack * pageSize + m.hhdm ∧ kstack ≠ 0 ∧
      kstack + 4 ≤ m.pmm.pageCount) :
    ∃ m' L', m.reapProc p = some m' ∧ Owned m' L' roots R ∧ Blocks m' L' others ∧
      Kept m m' roots roots R others ∧
      (∀ b, m'.pmm.used b = true ↔ b ∉ List.range' kstack 4 ∧ m.pmm.used b = true) ∧
      ∀ {s k}, k < userPages → m'.pageEntry roots s k = m.pageEntry roots s k := by
  obtain ⟨m₁, L₁, hloop, hrel⟩ := h.freeRegions hblocks hregs (regions_length_lt h hblocks)
  obtain ⟨hkernel, hpos, hle⟩ := hstack
  rw [← hrel.kept.pageCount] at hle
  obtain ⟨pmm, hpages, howned₂, hpc, hbits⟩ := hrel.owned.freePages hpos hle
  have haddr : sub64 p.kernelStack m₁.hhdm = kstack * pageSize := by
    rw [hkernel, ← hrel.kept.hhdm]
    refine sub64_add ?_
    have hmapped := hrel.owned.inv.heap.mapped
    unfold Mm.Mapped pageSize at hmapped
    unfold pageSize
    omega
  have hkept₂ : Kept m₁ { m₁ with pmm := pmm } roots roots R
      ((p.thread, threadSize) :: (p.proc, processSize) :: others) :=
    { Kept.refl m₁ roots R _ with pageCount := hpc }
  have hblocks₂ : Blocks { m₁ with pmm := pmm } L₁
      ((p.thread, threadSize) :: (p.proc, processSize) :: others) := hrel.blocks
  obtain ⟨m₃, L₃, _, hthread, hf₃, howned₃, hblocks₃, hkept₃, hused₃⟩ := howned₂.kfree hblocks₂
  obtain ⟨m₄, L₄, _, hproc, hf₄, howned₄, hblocks₄, hkept₄, hused₄⟩ := howned₃.kfree hblocks₃
  have hcons : ∀ b ∈ others, b ∈ (p.proc, processSize) :: others := fun b hb =>
    mem_cons_of_mem _ hb
  have hcons₂ : ∀ b ∈ others, b ∈ (p.thread, threadSize) :: (p.proc, processSize) :: others :=
    fun b hb => mem_cons_of_mem _ (hcons b hb)
  have hR : ∀ f ∈ R, f ∈ List.range' kstack 4 ++ R := fun f hf => mem_append_right _ hf
  refine ⟨m₄, L₄, ?_, howned₄, hblocks₄, ?_, fun b => ?_, fun hk => ?_⟩
  · simp only [Mm.reapProc, hloop, bind, Option.bind_some, haddr, hpages, hthread, hproc]
  · exact (((hrel.kept.mono hcons₂ hR).trans (hkept₂.mono hcons₂ fun f hf => hf)).trans
      (hkept₃.mono hcons fun f hf => hf)).trans hkept₄
  · have hproc₄ := hused₄ (show processSize ≤ 2048 by decide) b
    rw [hproc₄, hused₃ (show threadSize ≤ 2048 by decide) b, ← hrel.used b]
    exact hbits
  · rw [hf₄.entry hk, hf₃.entry hk]
    exact hrel.entry hk

end Reap

/-! ## What a process has -/

/-- What stays of a process after `proc_cleanup`: the record of its address space, and the files
and nodes behind the first two descriptors. -/
def UserProc.leftBlocks (p : UserProc) : List (ℕ × ℕ) :=
  (p.files.reverse.flatMap fun f => [(f.2, fileSize), (f.1, fsnodeSize)]) ++
    [(p.mem.addrSpace, Mm.addrSpaceSize)]

/-- A process with the number of its address space, the first page of its kernel stack and its
regions. -/
structure Slot where
  proc : LiveProc
  idx : ℕ
  kstack : ℕ
  regions : List ℕ

namespace Slot

/-- The pages of the kernel stack, up to `proc_cleanup`. -/
def stackPages (q : Slot) : List ℕ :=
  if q.proc.life = .reaped then [] else List.range' q.kstack 4

/-- The blocks of the heap that the process has. -/
def blocks (q : Slot) : List (ℕ × ℕ) :=
  (if q.proc.life = .reaped then []
    else regionBlocks q.regions ++
      [(q.proc.user.thread, threadSize), (q.proc.user.proc, processSize)]) ++
    q.proc.user.leftBlocks

/-- The slot after `proc_cleanup`. -/
def reaped (q : Slot) : Slot :=
  if q.proc.life = .dead then { q with proc := { q.proc with life := .reaped } } else q

/-- The pages that `proc_cleanup` frees. -/
def deadPages (q : Slot) : List ℕ := if q.proc.life = .dead then List.range' q.kstack 4 else []

/-- The same process later. -/
structure Continues (q q' : Slot) : Prop where
  idx : q'.idx = q.idx
  kstack : q'.kstack = q.kstack
  left : q'.proc.user.leftBlocks = q.proc.user.leftBlocks
  space : q'.proc.user.mem.addrSpace = q.proc.user.mem.addrSpace

/-- The space, the stack and the list of regions are where the process says. -/
structure Good (q : Slot) (m : Mm) (roots : List ℕ) : Prop where
  space : SpaceAt m roots q.idx q.proc.user.mem.addrSpace
  stack : q.proc.life ≠ .reaped → q.proc.user.kernelStack = q.kstack * pageSize + m.hhdm ∧
    q.kstack ≠ 0 ∧ q.kstack + 4 ≤ m.pmm.pageCount
  regions : q.proc.life ≠ .reaped → Regions m q.proc.user.mem.regions q.regions

variable {q : Slot} {m m' : Mm} {roots roots' R : List ℕ} {rs : List (ℕ × ℕ)}

lemma idx_reaped (q : Slot) : q.reaped.idx = q.idx := by
  rw [reaped]
  split_ifs <;> rfl

lemma reaped_of_not_dead (h : q.proc.life ≠ .dead) : q.reaped = q := if_neg h

lemma deadPages_reaped (q : Slot) : q.reaped.deadPages = [] := by
  unfold reaped deadPages
  split_ifs <;> simp_all

lemma reaped_reaped (q : Slot) : q.reaped.reaped = q.reaped := by
  refine reaped_of_not_dead ?_
  unfold reaped
  split_ifs with hdead
  · simp
  · exact hdead

lemma space_mem_blocks (q : Slot) : (q.proc.user.mem.addrSpace, Mm.addrSpaceSize) ∈ q.blocks := by
  simp [blocks, UserProc.leftBlocks]

lemma regions_mem_blocks (hlife : q.proc.life ≠ .reaped) : ∀ b ∈ regionBlocks q.regions,
    b ∈ q.blocks := by
  intro b hb
  simp [blocks, hlife, hb]

/-- What concerns other blocks and pages leaves the process. -/
lemma Good.kept (h : q.Good m roots) (hkept : Kept m m' roots roots' R rs)
    (hsub : ∀ b ∈ q.blocks, b ∈ rs) : q.Good m' roots' where
  space := hkept.spaceAt (hsub _ q.space_mem_blocks) h.space
  stack := by
    rw [hkept.hhdm, hkept.pageCount]
    exact h.stack
  regions := fun hlife =>
    (h.regions hlife).kept hkept fun b hb => hsub b (regions_mem_blocks hlife b hb)

lemma Good.idx_lt (h : q.Good m roots) : q.idx < roots.length := by
  obtain ⟨root, hroot, -⟩ := h.space
  exact (List.getElem?_eq_some_iff.1 hroot).1

end Slot

/-! ## All processes -/

/-- The processes are the slots `qs`, and their kernel stacks, the pages `B` and the pages that the
lower halves map are all different.  The heap has the blocks of the processes, those of the rest of
the kernel, and the blocks `lost`, to which nothing leads any more. -/
structure ProcSys.Inv (s : ProcSys) (L : HeapMap) (roots B : List ℕ) (lost : List (ℕ × ℕ))
    (qs : List Slot) : Prop where
  procs : s.procs = qs.map Slot.proc
  owned : Owned s.mm L roots (qs.flatMap Slot.stackPages ++ B)
  blocks : Blocks s.mm L (qs.flatMap Slot.blocks ++ (s.blocks ++ lost))
  good : ∀ q ∈ qs, q.Good s.mm roots
  nodup : (qs.map Slot.idx).Nodup
  upper : ∀ k ∈ B, s.mm.kernelPml4 = k * pageSize → ∀ root ∈ roots, ∀ i, 256 ≤ i → i < 512 →
    s.mm.entry root i = s.mm.entry k i

namespace ProcSys

variable {s s' : ProcSys} {L L' : HeapMap} {roots roots' B : List ℕ} {lost lost' : List (ℕ × ℕ)}
  {qs : List Slot} {q q' : Slot} {m' : Mm} {i pid : ℕ}

/-- What stays of the pages `B`. -/
lemma kept_right {m : Mm} {R : List ℕ} {rs : List (ℕ × ℕ)}
    (h : Kept m m' roots roots' (R ++ B) rs) : Kept m m' roots roots' B [] :=
  h.mono (by simp) fun _ hf => mem_append_right _ hf

lemma entry_reserved {m : Mm} {k : ℕ} (hkept : Kept m m' roots roots' B []) (hk : k ∈ B)
    (hi : i < 512) : m'.entry k i = m.entry k i := by
  refine entry_of_eqOff (P := fun x => ¬InPage m k x) hkept.hhdm (fun x hx => ?_) ?_
  · exact hkept.frame k hk x (not_not.1 hx)
  · exact fun x hx => not_not.2 (hx.inPage hi)

/-- The kernel's half of every space stays that of the kernel. -/
lemma upper_kept {m : Mm} (h : ∀ k ∈ B, m.kernelPml4 = k * pageSize → ∀ root ∈ roots, ∀ i,
      256 ≤ i → i < 512 → m.entry root i = m.entry k i)
    (hkept : Kept m m' roots roots' B []) : ∀ k ∈ B, m'.kernelPml4 = k * pageSize →
      ∀ root ∈ roots, ∀ i, 256 ≤ i → i < 512 → m'.entry root i = m'.entry k i := by
  intro k hk hpml4 root hroot i hlo hhi
  rw [entry_reserved hkept hk hhi, hkept.upper root hroot i hlo hhi]
  exact h k hk (hkept.kernelPml4 ▸ hpml4) root hroot i hlo hhi

namespace Inv

lemma split (h : Inv s L roots B lost qs) (hq : qs[i]? = some q) :
    Owned s.mm L roots (q.stackPages ++ (Ledger.rest Slot.stackPages qs i ++ B)) ∧
      Blocks s.mm L (q.blocks ++ (Ledger.rest Slot.blocks qs i ++ (s.blocks ++ lost))) := by
  rw [← append_assoc, ← append_assoc]
  exact ⟨h.owned.perm ((Ledger.perm_owner hq).append_right B),
    h.blocks.perm ((Ledger.perm_owner hq).symm.append_right _)⟩

/-- One process changes, and what the others have stays. -/
lemma update (h : Inv s L roots B lost qs) (hq : qs[i]? = some q)
    (howned : Owned m' L' roots (q'.stackPages ++ (Ledger.rest Slot.stackPages qs i ++ B)))
    (hblocks : Blocks m' L' (q'.blocks ++ (Ledger.rest Slot.blocks qs i ++ (s.blocks ++ lost))))
    (hkept : Kept s.mm m' roots roots (Ledger.rest Slot.stackPages qs i ++ B)
      (Ledger.rest Slot.blocks qs i ++ (s.blocks ++ lost)))
    (hgood : q'.Good m' roots) (hidx : q'.idx = q.idx) :
    Inv (s.setProc i m' q'.proc) L' roots B lost (qs.set i q') where
  procs := by
    rw [setProc, h.procs, map_set]
  owned := by
    rw [← append_assoc] at howned
    exact howned.perm ((Ledger.perm_set hq).symm.append_right B)
  blocks := by
    rw [← append_assoc] at hblocks
    exact hblocks.perm ((Ledger.perm_set hq).append_right _)
  good := by
    intro r hr
    rcases Ledger.eq_or_mem_of_mem_set hr with rfl | hr
    · exact hgood
    · exact (h.good r (mem_of_mem_eraseIdx hr)).kept hkept fun b hb =>
        mem_append_left _ (Ledger.mem_rest hr hb)
  nodup := by
    rw [Ledger.map_set_eq hq hidx]
    exact h.nodup
  upper := upper_kept h.upper (kept_right hkept)

lemma world {blocks : List (ℕ × ℕ)} (h : Inv s L roots B lost qs)
    (howned : Owned m' L' roots' (qs.flatMap Slot.stackPages ++ B))
    (hblocks : Blocks m' L' (qs.flatMap Slot.blocks ++ (blocks ++ lost')))
    (hkept : Kept s.mm m' roots roots' (qs.flatMap Slot.stackPages ++ B)
      (qs.flatMap Slot.blocks))
    (hupper : ∀ k ∈ B, m'.kernelPml4 = k * pageSize → ∀ root ∈ roots', ∀ i, 256 ≤ i → i < 512 →
      m'.entry root i = m'.entry k i) :
    Inv { s with mm := m', blocks := blocks } L' roots' B lost' qs where
  procs := h.procs
  owned := howned
  blocks := hblocks
  good := fun q hq => (h.good q hq).kept hkept fun b hb => mem_flatMap.2 ⟨q, hq, hb⟩
  nodup := h.nodup
  upper := hupper

lemma slot {p : UserProc} (h : Inv s L roots B lost qs) (hp : s.running pid = some p) :
    ∃ q, qs[pid]? = some q ∧ q.proc = ⟨p, .alive⟩ := by
  obtain ⟨lp, hlp, hif⟩ := Option.bind_eq_some_iff.1 hp
  rw [h.procs, getElem?_map, Option.map_eq_some_iff] at hlp
  obtain ⟨q, hq, rfl⟩ := hlp
  split_ifs at hif with hlife
  refine ⟨q, hq, ?_⟩
  rw [← Option.some.inj hif, ← hlife]

end Inv

end ProcSys

end CobjOs
