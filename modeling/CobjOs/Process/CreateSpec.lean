import CobjOs.Framework.Transition
import CobjOs.Memory.Owned
import CobjOs.Process.ArgsSpec
import CobjOs.Process.ElfSpec

/-!
# What `proc_create` does to memory

The loader, the user stack and `sys_mmap` take frames and map them in one space (`GivesFrames`).
`Owned.procCreate` puts the parts of `proc_create` together.
-/

namespace CobjOs

open List Mem Option

variable {m m' m'' : Mm} {L L' : HeapMap} {roots R : List ℕ} {s space n page size : ℕ}
  {data : FileData} {argv : List (List UInt8)}

/-! ## The image -/

lemma Owned.elfRun {es : List ElfEvent} {loaded : Bool} (h : Owned m L roots R)
    (hs : Recorded m L roots s space) (hlow : LowPages es)
    (hrun : Mm.elfRun data space es m = some (m', loaded)) :
    ∃ fs, Builds m m' L L roots R R s [] ((elfPages es).map fun q => q.2 / pageSize) fs := by
  induction es generalizing m with
  | nil =>
    obtain rfl : m = m' := congrArg Prod.fst (some.inj hrun)
    exact ⟨[], .refl h⟩
  | cons e es ih =>
    cases e with
    | read off len => exact ih h hs hlow hrun
    | page p va =>
      obtain ⟨⟨hva, hmem⟩, hlow⟩ := lowPages_page.1 hlow
      obtain ⟨pmm, phys, halloc, ⟨-, rfl, -⟩ | ⟨m₁, hmap, hrest⟩⟩ := Mm.elfRun_page_cases hrun
      · -- page 0 was taken, and the load ends
        obtain ⟨f, hbuilds⟩ := h.dropFrame halloc
        exact ⟨[f], hbuilds.mono (by simp)⟩
      · obtain ⟨f, hbuilds⟩ :=
          h.mapFrame hs hva (vmmFlags_lt p) halloc (pageImage_eqOff hmem) hmap
        obtain ⟨fs, hrest⟩ :=
          ih hbuilds.owned (hs.extends hbuilds.ext fun _ hr => hr) hlow hrest
        exact ⟨f :: fs, hbuilds.trans hrest⟩

/-! ## The stacks -/

/-- Pages that were set apart are mapped to a range of pages of a space, one after the other. -/
lemma Owned.mapRun {count base flags : ℕ} (h : Owned m L roots (List.range' page count ++ R))
    (hs : Recorded m L roots s space) (hpc : page + count ≤ m.pmm.pageCount)
    (hbase : base + count * pageSize ≤ 2 ^ 47) (hflags : flags < 4096) (hn : n ≤ count)
    (hrun : (List.range n).foldlM (fun m i => m.vmmMapPage space (base + i * pageSize)
      (page * pageSize + i * pageSize) flags) m = some m') :
    Owned m' L roots (List.range' (page + n) (count - n) ++ R) ∧ Extends m m' L L roots roots ∧
      (∀ {b}, m'.pmm.used b = true → m.pmm.used b = true ∨ IsTable m' roots b) ∧
      ∀ {s' k}, k < userPages → m'.pageEntry roots s' k =
        if s' = s ∧ base / pageSize ≤ k ∧ k < base / pageSize + n then
          some ((page + (k - base / pageSize)) * pageSize + (flags ||| pagePresent))
        else m.pageEntry roots s' k := by
  have hps : pageSize = 4096 := rfl
  have hlt : flags ||| pagePresent < pageSize := Nat.or_lt_two_pow (n := 12) hflags (by decide)
  refine foldlM_range_invariant ?_ ?_ hrun
  · refine ⟨h, .refl m L roots, .inl, fun {s' k} _ => (if_neg ?_).symm⟩
    omega
  · rintro n m₁ m' hn' ⟨howned, hext, htaken, hentry⟩ hturn
    rw [← Nat.add_mul] at hturn
    have hvirt : base + n * pageSize < 2 ^ 47 := by
      have hle := Nat.mul_le_mul_right pageSize (Nat.le_trans hn' hn)
      rw [Nat.succ_mul] at hle
      omega
    have hrange : List.range' (page + n) (count - n) =
        (page + n) :: List.range' (page + (n + 1)) (count - (n + 1)) := by
      obtain ⟨d, hd⟩ : ∃ d, count - n = d + 1 := ⟨count - n - 1, by omega⟩
      have hd' : count - (n + 1) = d := by omega
      rw [hd, hd', range'_succ]
      rfl
    rw [hrange, cons_append] at howned
    have hpage : page + n < m₁.pmm.pageCount := by
      rw [hext.pageCount]
      omega
    have hmaps := howned.inv.vmmMapPage (hs.extends hext fun _ hr => hr) hvirt hpage hflags hturn
    rw [Nat.add_mul_div_right _ _ (by decide)] at hmaps
    refine ⟨howned.map hpage hlt hmaps, hext.trans hmaps.ext, fun hb => ?_, fun {s' k} hk => ?_⟩
    · rcases hmaps.taken hb with hb | hb
      · exact (htaken hb).imp_right hmaps.ext.table
      · exact .inr hb
    · rw [hmaps.entry hk, hentry hk]
      by_cases hlast : s' = s ∧ k = base / pageSize + n
      · obtain ⟨rfl, rfl⟩ := hlast
        rw [if_pos ⟨rfl, rfl⟩, if_pos ⟨rfl, by omega, by omega⟩, Nat.add_sub_cancel_left]
      · rw [if_neg hlast]
        refine if_congr ?_ rfl rfl
        constructor
        · rintro ⟨rfl, hlo, hhi⟩
          exact ⟨rfl, hlo, by omega⟩
        · rintro ⟨rfl, hlo, hhi⟩
          exact ⟨rfl, hlo, by
            rcases Nat.lt_succ_iff_lt_or_eq.1 hhi with hhi | hhi
            · exact hhi
            · exact absurd ⟨rfl, hhi⟩ hlast⟩

/-- The stack of the space is in four frames in a row. -/
def StackAt (m : Mm) (roots : List ℕ) (s page : ℕ) : Prop :=
  ∀ i < 4, m.pageEntry roots s (stackBase / pageSize + i) =
    some ((page + i) * pageSize + Mm.userFlags)

lemma StackAt.congr {roots' : List ℕ} (h : StackAt m roots s page)
    (hentry : ∀ {k}, k < userPages → m'.pageEntry roots' s k = m.pageEntry roots s k) :
    StackAt m' roots' s page := by
  intro i hi
  have hk : stackBase / pageSize + i < userPages := by
    unfold userPages stackBase stackTop stackSize pageSize
    omega
  rw [hentry hk, h i hi]

/-- The stack of the new process: four pages in a row. -/
lemma Owned.userStack {m₁ : Mm} {stackPhys : ℕ} (h : Owned m L roots R)
    (hs : Recorded m L roots s space) (halloc : m.allocStack = some (m₁, stackPhys))
    (hmap : m₁.mapStack space stackPhys = some m') :
    ∃ page, stackPhys = page * pageSize ∧ StackAt m' roots s page ∧
      Builds m m' L L roots R R s [] (List.range' (stackBase / pageSize) 4)
        (List.range' page 4) := by
  obtain ⟨⟨pmm, phys⟩, hpages, hm₁⟩ := bind_eq_some_iff.1 halloc
  dsimp only at hm₁
  split_ifs at hm₁ with hzero
  obtain ⟨rfl, rfl⟩ := Prod.mk.inj (some.inj hm₁)
  obtain ⟨page, rfl, hnew, howned, hext, hentry, hused⟩ := h.allocPages hpages (EqOff.refl _)
  have hpc : page + 4 ≤ pmm.pageCount := by
    rw [show pmm.pageCount = m.pmm.pageCount from hext.pageCount]
    exact (hnew (page + 3) (by simp [mem_range'_1])).1
  obtain ⟨howned', hext', htaken, hentry'⟩ := howned.mapRun (hs.extends hext fun _ hr => hr) hpc
    (by decide) (by decide) (Nat.le_refl 4) hmap
  refine ⟨page, rfl, fun i hi => ?_, howned', hext.trans hext', ⟨[], rfl, rfl⟩, fun f hf => ?_, id,
    fun {b} hb => ?_, fun {s' k} hk hout => ?_⟩
  · have hk : stackBase / pageSize + i < userPages := by
      unfold userPages stackBase stackTop stackSize pageSize
      omega
    rw [hentry' hk, if_pos ⟨rfl, by omega, by omega⟩, Nat.add_sub_cancel_left]
    rfl
  · have hmem : f ∈ List.range' page 4 ++ R := mem_append_left _ hf
    exact ⟨(hnew f hf).2, hext'.foreign (howned.reserved hmem)⟩
  · rcases htaken hb with hb | hb
    · exact (hused.1 hb).symm.imp_right fun hb => .inr (.inr hb)
    · exact .inr (.inr (.inl hb))
  · rw [hentry' hk, if_neg, hentry hk]
    rintro ⟨rfl, hlo, hhi⟩
    exact hout.elim (· rfl) fun hk => hk (mem_range'_1.2 ⟨hlo, hhi⟩)

lemma Owned.threadCreateUser {thread stack : ℕ} (h : Owned m L roots R)
    (hcreate : m.threadCreateUser = some (m', thread, stack)) :
    ∃ L' page, stack = page * pageSize + m.hhdm ∧ (page ≠ 0 ∧ page + 4 ≤ m.pmm.pageCount) ∧
      Builds m m' L L' roots R (List.range' page 4 ++ R) s [(thread, threadSize)] []
        (List.range' page 4) := by
  simp only [Mm.threadCreateUser, Mm.allocStack, bind, bind_eq_some_iff] at hcreate
  obtain ⟨⟨m₁, ptr⟩, hk, ⟨m₂, phys⟩, ⟨⟨pmm, phys'⟩, hpages, hm₂⟩, hres⟩ := hcreate
  dsimp only at hm₂ hres
  split_ifs at hm₂ with hzero
  obtain ⟨rfl, rfl⟩ := Prod.mk.inj (some.inj hm₂)
  simp only [some.injEq, Prod.mk.injEq] at hres
  obtain ⟨rfl, rfl, rfl⟩ := hres
  obtain ⟨L', hrec⟩ := h.kmalloc (by decide) (by decide) hk
  obtain ⟨page, rfl, hnew, howned, hext, hentry, hused⟩ :=
    hrec.owned.allocPages hpages (EqOff.fill (c := 0) m₁.ram fun x hx => hx)
  have hstack : Builds m₁
      { m₁ with pmm := pmm, ram := m₁.ram.fill (page * pageSize + m₁.hhdm) stackSize 0 } L' L' roots R
      (List.range' page 4 ++ R) s [] [] (List.range' page 4) := by
    refine ⟨howned, hext, ⟨[], rfl, rfl⟩, fun f hf => ?_, id, fun hb => ?_, fun hk _ => hentry hk⟩
    · exact ⟨(hnew f hf).2, howned.reserved (mem_append_left _ hf)⟩
    · exact (hused.1 hb).symm.imp_right fun hb => .inr (.inr hb)
  refine ⟨L', page, by rw [hrec.ext.hhdm], ⟨?_, ?_⟩, hrec.trans hstack⟩
  · rintro rfl
    exact hzero (Nat.zero_mul _)
  · rw [← hrec.ext.pageCount]
    exact (hnew (page + 3) (by simp [mem_range'_1])).1

/-! ## The argument block -/

lemma Owned.stack_page {b : ℕ} (h : Owned m L roots R) (hstack : StackAt m roots s page)
    (hb : b ∈ List.range' page 4) : b < m.pmm.pageCount ∧ Foreign m L roots b := by
  obtain ⟨hlo, hhi⟩ := mem_range'_1.1 hb
  have hentry := hstack (b - page) (by omega)
  have hk : stackBase / pageSize + (b - page) < userPages := by
    unfold userPages stackBase stackTop stackSize pageSize
    omega
  have hframe : m.frameAt roots s (stackBase / pageSize + (b - page)) = some b := by
    rw [Mm.frameAt, hentry, map_some, Nat.add_sub_cancel' hlo, Nat.add_comm,
      Nat.add_mul_div_right _ _ (by decide), Nat.div_eq_of_lt (by decide), Nat.zero_add]
  obtain ⟨hlt, hforeign, -⟩ := h.mapped hk hframe
  exact ⟨hlt, hforeign⟩

/-- Writing the arguments leaves all but the stack, where they can be read. -/
lemma Owned.writeArgs (h : Owned m L roots R)
    (hstack : StackAt m roots s page) (hfit : argTotal argv ≤ stackSize) :
    EqOff (fun x => ∃ b, b ∈ List.range' page 4 ∧ InPage m b x) m.ram
        (m.writeArgs (page * pageSize + m.hhdm) argv).ram ∧
      ∀ w ∈ (argBlock argv).writes,
        (m.writeArgs (page * pageSize + m.hhdm) argv).ram.read
          (page * pageSize + m.hhdm + w.1) w.2.length = w.2 := by
  have hlast := (h.stack_page hstack (mem_range'_1.2 ⟨by omega, Nat.lt_succ_self (page + 3)⟩)).1
  have hmapped := h.inv.heap.mapped.2
  have hstackSize : stackSize = 4 * pageSize := rfl
  have hinside := argBlock_inside hfit
  -- the addresses do not wrap
  have hwrites : (argBlock argv).writes.map (fun w => (u64 (page * pageSize + m.hhdm + w.1), w.2)) =
      (argBlock argv).writes.map fun w => (page * pageSize + m.hhdm + w.1, w.2) := by
    refine map_congr_left fun w hw => ?_
    have hw' := hinside w hw
    have hlt : page * pageSize + m.hhdm + w.1 < 2 ^ 64 := by
      unfold pageSize at *
      omega
    rw [Prod.mk.injEq]
    exact ⟨Nat.mod_eq_of_lt hlt, rfl⟩
  rw [Mm.writeArgs, hwrites]
  refine ⟨(writeAll_eqOff m.ram _).mono ?_, fun w hw => ?_⟩
  · rintro x ⟨w, hw, hx⟩
    obtain ⟨v, hv, rfl⟩ := List.mem_map.1 hw
    have hv' := hinside v hv
    refine HeapMap.exists_page_of_within ?_
    unfold Within at hx ⊢
    dsimp only at hx
    omega
  · have hapart : ((argBlock argv).writes.map fun w =>
        (page * pageSize + m.hhdm + w.1, w.2)).Pairwise Mem.Apart := by
      rw [pairwise_map]
      refine (argBlock_apart hfit).imp fun {v w} hvw => ?_
      unfold Mem.Apart at hvw ⊢
      dsimp only
      omega
    exact writeAll_read hapart (List.mem_map.2 ⟨w, hw, rfl⟩)

lemma StackAt.userBytes {off : ℕ} (h : StackAt m roots s page)
    (hs : SpaceAt m roots s space) (hle : off + n ≤ stackSize) :
    m.userBytes space (stackBase + off) n =
      some (m.ram.read (page * pageSize + m.hhdm + off) n) := by
  have hstackSize : stackSize = 16384 := rfl
  have hbase : stackBase = 0x7ffffeffc000 := rfl
  refine userBytes_eq_some fun j hj => ?_
  have hlt : stackBase + off + j < 2 ^ 47 := by omega
  have hdiv : (stackBase + off + j) / pageSize = stackBase / pageSize + (off + j) / pageSize := by
    unfold pageSize
    omega
  have hmod : (stackBase + off + j) % pageSize = (off + j) % pageSize := by
    unfold pageSize
    omega
  have hentry := h ((off + j) / pageSize) (by unfold pageSize; omega)
  rw [← hdiv] at hentry
  rw [userByte_frame hs hlt (by decide) hentry, hmod]
  have haddr : m.kaddr (page + (off + j) / pageSize) + (off + j) % pageSize =
      page * pageSize + m.hhdm + off + j := by
    have hsplit := Nat.div_add_mod' (off + j) pageSize
    rw [Mm.kaddr, Nat.add_mul]
    omega
  rw [haddr]

/-! ## `proc_create` -/

lemma Owned.openStd {node file : ℕ} (h : Owned m L roots R)
    (hopen : m.openStd = some (m', node, file)) :
    ∃ L', Builds m m' L L' roots R R s [(file, fileSize), (node, fsnodeSize)] [] [] := by
  simp only [Mm.openStd, bind, bind_eq_some_iff] at hopen
  obtain ⟨⟨m₁, ptr₁⟩, hk₁, ⟨m₂, ptr₂⟩, hk₂, hres⟩ := hopen
  simp only [some.injEq, Prod.mk.injEq] at hres
  obtain ⟨rfl, rfl, rfl⟩ := hres
  obtain ⟨L₁, hrec₁⟩ := h.kmalloc (by decide) (by decide) hk₁
  obtain ⟨L₂, hrec₂⟩ := hrec₁.owned.kmalloc (by decide) (by decide) hk₂
  exact ⟨L₂, hrec₁.trans hrec₂⟩

/-- The pages that the loader maps for a file. -/
def elfPageNumbers (data : FileData) (size : ℕ) : List ℕ :=
  (elfPages (elfEvents data size).1).map fun q => q.2 / pageSize

/-- The space and the image, also when the load fails. -/
lemma Owned.loadImage {m₁ : Mm} {entry : ℕ} (h : Owned m L roots R)
    (hlow : LowPages (elfEvents data size).1)
    (hspace : m.vmmCreateUserSpace = some (m₁, space))
    (hload : m₁.elfLoad space data size = some (m', entry)) :
    ∃ L' n fs, AddsRoot m m₁ L L' roots n space ∧
      Builds m₁ m' L' L' (roots ++ [n]) R R roots.length [] (elfPageNumbers data size) fs := by
  obtain ⟨L', n, hroot⟩ := h.inv.createSpace hspace
  obtain ⟨⟨m₂, loaded⟩, hevents, hret⟩ := bind_eq_some_iff.1 hload
  obtain ⟨rfl, rfl⟩ := Prod.mk.inj (some.inj hret)
  obtain ⟨fs, hbuilds⟩ := (h.addsRoot hroot).elfRun hroot.recorded hlow hevents
  exact ⟨L', n, fs, hroot, hbuilds⟩

/-- The records that a process has besides its space, by address and size, the last one first. -/
def UserProc.records (p : UserProc) : List (ℕ × ℕ) :=
  (p.files.reverse.flatMap fun f => [(f.2, fileSize), (f.1, fsnodeSize)]) ++
    [(p.thread, threadSize), (p.proc, processSize)]

/-- From `m` to `m'` a process was made: a space with the root `n` (in `m₁`), in which the pages of
the image and the stack are mapped to some of the frames `fs`, a kernel stack from page `kstack`
on, and the records. -/
structure StartsProc (m m₁ m' : Mm) (L L₁ L' : HeapMap) (roots R : List ℕ) (elf : List ℕ)
    (argv : List (List UInt8)) (p : UserProc) (n kstack : ℕ) (fs : List ℕ) : Prop where
  root : AddsRoot m m₁ L L₁ roots n p.mem.addrSpace
  builds : Builds m₁ m' L₁ L' (roots ++ [n]) R (List.range' kstack 4 ++ R) roots.length p.records
    (elf ++ List.range' (stackBase / pageSize) 4) (fs ++ List.range' kstack 4)
  mem : p.mem = ⟨p.mem.addrSpace, 0x10000000, 0⟩
  kernelStack : p.kernelStack = kstack * pageSize + m.hhdm ∧ kstack ≠ 0 ∧
    kstack + 4 ≤ m.pmm.pageCount
  args : p.userArgv = (argBlock argv).argvUser ∧ p.userRsp = (argBlock argv).userRsp
  stack : ∃ page, StackAt m' (roots ++ [n]) roots.length page ∧
    ∀ w ∈ (argBlock argv).writes,
      m'.ram.read (page * pageSize + m'.hhdm + w.1) w.2.length = w.2

/-- The heap of a new process starts at a fixed address, and two files are open. -/
lemma Mm.procCreate_fixed {p : UserProc}
    (hcreate : m.procCreate data size argv = some (m', some p)) :
    p.mem.heapTop = 0x10000000 ∧ p.files.length = 2 := by
  simp only [Mm.procCreate, bind, bind_eq_some_iff] at hcreate
  obtain ⟨_, -, _, -, hcreate⟩ := hcreate
  split_ifs at hcreate
  · simp at hcreate
  · simp only [bind_eq_some_iff] at hcreate
    obtain ⟨_, -, _, -, _, -, _, -, _, -, _, -, hres⟩ := hcreate
    simp only [some.injEq, Prod.mk.injEq] at hres
    rw [← hres.2]
    exact ⟨rfl, rfl⟩

lemma Owned.procCreate {p : UserProc} (h : Owned m L roots R)
    (hlow : LowPages (elfEvents data size).1) (hfit : argTotal argv ≤ stackSize)
    (hcreate : m.procCreate data size argv = some (m', some p)) :
    ∃ m₁ L₁ L' n kstack fs,
      StartsProc m m₁ m' L L₁ L' roots R (elfPageNumbers data size) argv p n kstack fs := by
  simp only [Mm.procCreate, bind, bind_eq_some_iff] at hcreate
  obtain ⟨⟨m₁, space⟩, hspace, ⟨m₂, entry⟩, hload, hcreate⟩ := hcreate
  dsimp only at hload hcreate
  split_ifs at hcreate with hentry
  · simp at hcreate
  simp only [bind_eq_some_iff] at hcreate
  obtain ⟨⟨m₃, proc⟩, hproc, ⟨m₄, stackPhys⟩, hstack, m₅, hmap, ⟨m₆, thread, kernelStack⟩, hthread,
    ⟨m₇, stdin⟩, hstdin, ⟨m₈, stdout⟩, hstdout, hres⟩ := hcreate
  dsimp only at hstack hmap hthread hstdin hstdout
  simp only [some.injEq, Prod.mk.injEq] at hres
  obtain ⟨rfl, rfl⟩ := hres
  -- the space and the image, the record, and the stack
  obtain ⟨L₁, n, fs, hroot, himage⟩ := h.loadImage hlow hspace hload
  obtain ⟨L₂, hrec⟩ := himage.owned.kmalloc (by decide) (by decide) hproc
  have hb₃ := himage.trans hrec
  obtain ⟨page, rfl, hstackAt, hb₅⟩ :=
    hb₃.owned.userStack (hroot.recorded.extends hb₃.ext fun _ hr => hr) hstack hmap
  -- the arguments go to frames that were taken for the stack
  obtain ⟨hargs, hread⟩ := hb₅.owned.writeArgs hstackAt hfit
  have hb₆ := (hb₃.trans hb₅).write (fun hb => mem_append_right _ hb) hargs
  obtain ⟨-, -, hentry₆⟩ := hb₅.owned.write (fun hb => (hb₅.new _ hb).2) hargs
  -- the thread and the files
  obtain ⟨L₃, kstack, hkstack, ⟨hkzero, hkpc⟩, hthr⟩ :=
    hb₆.owned.threadCreateUser (s := roots.length) hthread
  obtain ⟨L₄, hin⟩ := hthr.owned.openStd hstdin
  obtain ⟨L₅, hout⟩ := hin.owned.openStd hstdout
  have hlast := (hthr.trans hin).trans hout
  have hall := hb₆.trans hlast
  simp only [append_nil, nil_append] at hall
  refine ⟨m₁, L₁, L₅, n, kstack, fs ++ List.range' page 4, hroot, hall, rfl, ⟨?_, hkzero, ?_⟩,
    ⟨rfl, rfl⟩, page, hstackAt.congr fun hk => ?_, fun w hw => ?_⟩
  · rw [hkstack]
    exact congrArg _ (hroot.ext.trans hb₆.ext).hhdm
  · rw [← (hroot.ext.trans hb₆.ext).pageCount]
    exact hkpc
  · exact (hlast.entry hk (.inr (by simp))).trans (hentry₆ hk)
  · rw [hlast.ext.hhdm]
    refine Eq.trans (read_congr fun x hlo hhi => ?_) (hread w hw)
    -- the byte is in one of the frames of the stack, which are left alone
    have hw' := (argBlock_inside hfit w hw).2
    have hx : Within (page * pageSize + m₅.hhdm) (4 * pageSize) x := by
      have hstackSize : stackSize = 4 * pageSize := rfl
      unfold Within
      dsimp only at hlo hhi
      omega
    obtain ⟨b, hb, hxb⟩ := HeapMap.exists_page_of_within hx
    exact hlast.ext.frame (hb₆.new b (mem_append_right _ hb)).2 hxb

end CobjOs
