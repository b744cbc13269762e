import CobjOs.Memory.HeapSpec

/-!
# What the heap's routines do

First the moves: each changes the map and the caches together, with memory as it is, and keeps
the invariant.  A page joins a class, a block is cut from it, a free block becomes an
allocation and an allocation a free block, a run of pages comes and goes.  The routines of
`heap.c` are then a change of memory the heap does not read, followed by moves.
-/

namespace CobjOs

open List Mem Option

namespace HeapMap

variable {L : HeapMap} {m m' : Mm} {c b page count size x : ℕ} {a : Alloc}

lemma Inv.size_pos (h : Inv m L) (ha : a ∈ L.live) : 0 < a.size := by
  have hok := h.live ha
  cases a with
  | small b size c => exact hok.2.2.2.1
  | large page count size => exact Nat.zero_lt_of_lt hok.1

lemma Inv.pages_of_small (h : Inv m L) (ha : a ∈ L.live) (hsize : a.size ≤ 2048) :
    a.pages = [] := by
  have hok := h.live ha
  cases a with
  | small b size c => rfl
  | large page count size => exact absurd hsize (not_le.2 hok.1)

lemma Inv.header_le_ptr (h : Inv m L) (ha : a ∈ L.live) : slabHeaderSize ≤ a.ptr m.hhdm := by
  cases a with
  | small b size c =>
    obtain ⟨s, -, -, hlo, -⟩ := h.block_bounds (h.live ha).2.1
    exact Nat.le_trans (Nat.le_add_left ..) hlo
  | large page count size => exact Nat.le_add_left ..

lemma Inv.inPages_of_live (h : Inv m L) (ha : a ∈ L.live)
    (hx : Within (a.ptr m.hhdm) a.size x) : L.InPages m.hhdm x := by
  cases a with
  | small b size c => exact h.inPages_of_block (h.live ha).2.1 (h.small_within ha hx)
  | large page count size =>
    obtain ⟨q, hq, hxq⟩ := h.large_page ha (large_within hx).1
    exact ⟨q, mem_pages_of_alloc ha hq, hxq⟩

lemma LiveOk.mono {L' : HeapMap} (ha : L.LiveOk m a)
    (hblock : ∀ {c b}, L.IsBlock m.hhdm c b → L'.IsBlock m.hhdm c b) (hfree : L'.free = L.free) :
    L'.LiveOk m a := by
  cases a with
  | small b size c => exact ⟨ha.1, hblock ha.2.1, hfree ▸ ha.2.2.1, ha.2.2.2⟩
  | large page count size => exact ha

/-! ## Moves -/

lemma Inv.addSlab (h : Inv m L) (hc : c < slabClassCount)
    (hpage : page ≠ 0 ∧ page < m.pmm.pageCount ∧ m.pmm.used page = true) (hnew : page ∉ L.pages) :
    Inv m { L with slabs := ⟨page, c, 0⟩ :: L.slabs } := by
  have hblock : ∀ {c' b}, IsBlock { L with slabs := ⟨page, c, 0⟩ :: L.slabs } m.hhdm c' b →
      L.IsBlock m.hhdm c' b := by
    rintro c' b ⟨s, hs, hcls, i, hi, hb⟩
    rcases mem_cons.mp hs with rfl | hs
    · exact absurd hi (Nat.not_lt_zero i)
    · exact ⟨s, hs, hcls, i, hi, hb⟩
  have hblock' : ∀ {c' b}, L.IsBlock m.hhdm c' b →
      IsBlock { L with slabs := ⟨page, c, 0⟩ :: L.slabs } m.hhdm c' b := by
    rintro c' b ⟨s, hs, hrest⟩
    exact ⟨s, mem_cons_of_mem _ hs, hrest⟩
  refine
    { h with
      page := fun hb => ?_
      nodup := nodup_cons.mpr ⟨hnew, h.nodup⟩
      slab := fun hs => ?_
      header := fun hb => h.header (hblock hb)
      free := fun hc hb => hblock' (h.free hc hb)
      live := fun ha => (h.live ha).mono hblock' rfl }
  · rcases mem_cons.mp hb with rfl | hb
    · exact hpage
    · exact h.page hb
  · rcases mem_cons.mp hs with rfl | hs
    · exact ⟨hc, by simp [Slab.Fits]⟩
    · exact h.slab hs

section Cut

variable {s : Slab} {rest : List Slab}

/-- The map after one more block was cut from the page that joined last. -/
def cut (L : HeapMap) (s : Slab) (rest : List Slab) : HeapMap :=
  { L with slabs := { s with count := s.count + 1 } :: rest }

/-- The place of the next block of a page. -/
def nextBlock (hhdm : ℕ) (s : Slab) : ℕ :=
  s.page * pageSize + hhdm + s.count * (classSize s.cls + slabHeaderSize) + slabHeaderSize

lemma isBlock_cut (hs : L.slabs = s :: rest) {hhdm c' b' : ℕ} :
    (L.cut s rest).IsBlock hhdm c' b' ↔
      L.IsBlock hhdm c' b' ∨ (c' = s.cls ∧ b' = nextBlock hhdm s) := by
  constructor
  · rintro ⟨s', hs', rfl, i, hi, rfl⟩
    rcases mem_cons.mp hs' with rfl | hs'
    · rcases Nat.lt_succ_iff_lt_or_eq.mp hi with hlt | rfl
      · exact .inl ⟨s, by simp [hs], rfl, i, hlt, rfl⟩
      · exact .inr ⟨rfl, rfl⟩
    · exact .inl ⟨s', by simp [hs, hs'], rfl, i, hi, rfl⟩
  · rintro (⟨s', hs', rfl, i, hi, rfl⟩ | ⟨rfl, rfl⟩)
    · rw [hs] at hs'
      rcases mem_cons.mp hs' with rfl | hs'
      · exact ⟨_, mem_cons_self, rfl, i, Nat.lt_succ_of_lt hi, rfl⟩
      · exact ⟨s', mem_cons_of_mem _ hs', rfl, i, hi, rfl⟩
    · exact ⟨_, mem_cons_self, rfl, s.count, Nat.lt_succ_self _, rfl⟩

lemma Inv.nextBlock_apart (h : Inv m L) (hs : L.slabs = s :: rest)
    (hfits : Slab.Fits { s with count := s.count + 1 }) (hb : L.IsBlock m.hhdm c b)
    (hx : Within (nextBlock m.hhdm s - slabHeaderSize) (classSize s.cls + slabHeaderSize) x) :
    ¬Within (b - slabHeaderSize) (classSize c + slabHeaderSize) x := by
  intro hx'
  have hnext : s.count * (classSize s.cls + slabHeaderSize) +
      (classSize s.cls + slabHeaderSize) ≤ pageSize := hfits.block (Nat.lt_succ_self _)
  have hsmem : s ∈ L.slabs := by simp [hs]
  obtain ⟨s', hs', rfl, i, hi, rfl⟩ := hb
  have hfits' := (h.slab hs').2.block hi
  unfold nextBlock Within at hx
  unfold Within at hx'
  have hin : Within (s.page * pageSize + m.hhdm) pageSize x := by
    unfold Within
    omega
  have hin' : Within (s'.page * pageSize + m.hhdm) pageSize x := by
    unfold Within
    omega
  have hpage : s.page = s'.page := page_unique hin hin'
  have hinj : (L.slabs.map Slab.page).Nodup := (nodup_append.mp h.nodup).1
  obtain rfl : s = s' := inj_on_of_nodup_map hinj hsmem hs' hpage
  have hle := Nat.mul_le_mul_right (classSize s.cls + slabHeaderSize) (Nat.succ_le_of_lt hi)
  rw [Nat.succ_mul] at hle
  omega

lemma Inv.nextBlock_ne (h : Inv m L) (hs : L.slabs = s :: rest)
    (hfits : Slab.Fits { s with count := s.count + 1 }) (hb : L.IsBlock m.hhdm c b) :
    b ≠ nextBlock m.hhdm s := by
  rintro rfl
  have hhdr : slabHeaderSize = 8 := rfl
  refine h.nextBlock_apart hs hfits hb (x := nextBlock m.hhdm s - slabHeaderSize) ?_ ?_ <;>
    unfold Within <;> omega

/-- A block whose header is in place is cut from the page; it belongs to nobody yet. -/
lemma Inv.cut (h : Inv m L) (hs : L.slabs = s :: rest)
    (hfits : Slab.Fits { s with count := s.count + 1 })
    (hheader : m.ram.readNat 4 (nextBlock m.hhdm s - slabHeaderSize) = s.cls) :
    Inv m (L.cut s rest) := by
  have hpages : (L.cut s rest).pages = L.pages := by simp [HeapMap.cut, pages, hs]
  have hblock : ∀ {c' b'}, (L.cut s rest).IsBlock m.hhdm c' b' ↔
      L.IsBlock m.hhdm c' b' ∨ (c' = s.cls ∧ b' = nextBlock m.hhdm s) := isBlock_cut hs
  refine
    { h with
      page := by rw [hpages]; exact h.page
      nodup := by rw [hpages]; exact h.nodup
      slab := fun hs' => ?_
      header := fun hb' => ?_
      free := fun hc hb => hblock.mpr (.inl (h.free hc hb))
      live := fun ha => (h.live ha).mono (fun hb => hblock.mpr (.inl hb)) rfl }
  · rcases mem_cons.mp hs' with rfl | hs'
    · exact ⟨(h.slab (s := s) (by simp [hs])).1, hfits⟩
    · exact h.slab (by simp [hs, hs'])
  · rcases hblock.mp hb' with hb' | ⟨rfl, rfl⟩
    · exact h.header hb'
    · exact hheader

end Cut

section Resort

variable {cache : SlabCache} {F : List ℕ} {live : List Alloc}

/-- The map with another free list for one class and other allocations. -/
def resort (L : HeapMap) (c : ℕ) (F : List ℕ) (live : List Alloc) : HeapMap :=
  { L with free := Function.update L.free c F, live := live }

/-- Blocks of one class move between its free list and the allocations. -/
lemma Inv.resort (h : Inv m L) (hc : c < slabClassCount) (hobj : cache.objSize = classSize c)
    (hchain : m.ram.Chain 8 cache.free F) (hF : ∀ b ∈ F, L.IsBlock m.hhdm c b) (hnd : F.Nodup)
    (hlive : ∀ a ∈ live, (L.resort c F live).LiveOk m a)
    (hlnd : (live.map (Alloc.ptr m.hhdm)).Nodup)
    (hpages : live.flatMap Alloc.pages = L.live.flatMap Alloc.pages)
    (htotal : F.length + cache.used = cache.total)
    (hused : cache.used = live.countP (Alloc.inClass c))
    (hother : ∀ c' ≠ c, live.countP (Alloc.inClass c') = L.live.countP (Alloc.inClass c')) :
    Inv (m.setCache c cache) (L.resort c F live) := by
  have hall : (L.resort c F live).pages = L.pages := by
    simp only [pages, HeapMap.resort, hpages]
  -- a fact of every class and its free list is one of `c`'s new ones and of the others' old ones
  have hcls : ∀ {P : ℕ → SlabCache → List ℕ → Prop}, P c cache F →
      (∀ c' ≠ c, c' < slabClassCount → P c' (m.caches c') (L.free c')) → ∀ {c'}, c' < slabClassCount →
      P c' ((m.setCache c cache).caches c') ((L.resort c F live).free c') := by
    intro P hnew hold c' hc'
    by_cases heq : c' = c
    · subst heq
      simpa [HeapMap.resort] using hnew
    · simpa [HeapMap.resort, heq] using hold c' heq hc'
  exact
    { h with
      objSize := hcls (P := fun c' k _ => k.objSize = classSize c') hobj fun _ _ => h.objSize
      page := by rw [hall]; exact h.page
      nodup := by rw [hall]; exact h.nodup
      chain := hcls (P := fun _ k F => m.ram.Chain 8 k.free F) hchain fun _ _ => h.chain
      free := fun hc => hcls (P := fun c' _ F => ∀ b ∈ F, L.IsBlock m.hhdm c' b) hF
        (fun _ _ hc b => h.free hc) hc _
      free_nodup := hcls (P := fun _ _ F => F.Nodup) hnd fun _ _ => h.free_nodup
      live := fun ha => hlive _ ha
      live_nodup := hlnd
      total := hcls (P := fun _ k F => F.length + k.used = k.total) htotal fun _ _ => h.total
      used := hcls (P := fun c' k _ => k.used = live.countP (Alloc.inClass c')) hused
        fun c' hne hc => (h.used hc).trans (hother c' hne).symm }

lemma LiveOk.resort (ha : L.LiveOk m a) (hF : ∀ b size, a = .small b size c → b ∉ F) :
    (L.resort c F live).LiveOk m a := by
  cases a with
  | small b size c' =>
    refine ⟨ha.1, ha.2.1, ?_, ha.2.2.2⟩
    by_cases heq : c' = c
    · subst heq
      simpa [HeapMap.resort] using hF b size rfl
    · simpa [HeapMap.resort, heq] using ha.2.2.1
  | large page count size => exact ha

/-- A block that was nobody's, with its link in place, becomes the first free block. -/
lemma Inv.addFree (h : Inv m L) (hc : c < slabClassCount) (hb : L.IsBlock m.hhdm c b)
    (hfree : b ∉ L.free c) (hlive : ∀ a ∈ L.live, a.ptr m.hhdm ≠ b)
    (hlink : m.ram.readNat 8 b = (m.caches c).free) :
    Inv (m.setCache c { m.caches c with free := b, total := (m.caches c).total + 1 })
      (L.resort c (b :: L.free c) L.live) := by
  obtain ⟨s, -, -, hlo, -⟩ := h.block_bounds hb
  have hzero : b ≠ 0 := by
    have hhdr : slabHeaderSize = 8 := rfl
    omega
  have htotal := h.total hc
  refine h.resort hc (h.objSize hc) ⟨rfl, hzero, hlink ▸ h.chain hc⟩ ?_
    (nodup_cons.mpr ⟨hfree, h.free_nodup hc⟩) ?_ h.live_nodup rfl ?_ (h.used hc)
    (fun _ _ => rfl)
  · intro b' hb'
    rcases mem_cons.mp hb' with rfl | hb'
    · exact hb
    · exact h.free hc hb'
  · intro a ha
    refine (h.live ha).resort ?_
    rintro b' size rfl
    have hne : b' ≠ b := hlive _ ha
    simp [hne, (h.live ha).2.2.1]
  · simp only [length_cons]
    omega

lemma Inv.take (h : Inv m L) (hc : c < slabClassCount) (hfree : L.free c = b :: F)
    (hpos : 0 < size) (hsize : size ≤ classSize c) :
    (m.takeBlock c).2 = b ∧
      Inv (m.takeBlock c).1 (L.resort c F (.small b size c :: L.live)) := by
  have hchain := h.chain hc
  have hnd := h.free_nodup hc
  have hblock : L.IsBlock m.hhdm c b := h.free hc (by simp [hfree])
  have htotal := h.total hc
  rw [hfree] at hchain hnd htotal
  obtain ⟨hhead, -, hrest⟩ := hchain
  have hm : (m.takeBlock c).1 = m.setCache c { m.caches c with
      free := m.ram.readNat 8 b, used := (m.caches c).used + 1 } := by
    rw [Mm.takeBlock, hhead]
  refine ⟨hhead, ?_⟩
  rw [hm]
  refine h.resort hc (h.objSize hc) hrest (fun b' hb' => h.free hc (by simp [hfree, hb']))
    (nodup_cons.mp hnd).2 ?_ ?_ rfl ?_ ?_ ?_
  · intro a ha
    rcases mem_cons.mp ha with rfl | ha
    · refine ⟨hc, hblock, ?_, hpos, hsize⟩
      simpa [HeapMap.resort] using (nodup_cons.mp hnd).1
    · refine (h.live ha).resort ?_
      rintro b' size' rfl hmem
      exact (h.live ha).2.2.1 (by simp [hfree, hmem])
  · refine nodup_cons.mpr ⟨?_, h.live_nodup⟩
    intro hmem
    obtain ⟨a, ha, heq⟩ := List.mem_map.mp hmem
    -- the block would be free and a live allocation's
    have heq' : a.ptr m.hhdm = b := heq
    have hpos' := h.size_pos ha
    have hpos'' := eight_le_classSize hc
    refine h.live_free ha hc (b := b) (x := b) (by simp [hfree]) ?_ ?_
    · unfold Within
      omega
    · unfold Within
      omega
  · simp only [length_cons] at htotal
    simp only
    omega
  · rw [countP_cons, h.used hc]
    simp [Alloc.inClass]
  · intro c' hne
    rw [countP_cons]
    simp [Alloc.inClass, Ne.symm hne]

/-- An allocation whose block has its link in place becomes the first free block. -/
lemma Inv.give (h : Inv m L) (hlive : L.live = .small b size c :: live)
    (hlink : m.ram.readNat 8 b = (m.caches c).free) :
    Inv (m.setCache c { m.caches c with free := b, used := (m.caches c).used - 1 })
      (L.resort c (b :: L.free c) live) := by
  obtain ⟨hc, hblock, hnot, -, -⟩ := h.live (a := .small b size c) (by simp [hlive])
  obtain ⟨s, -, -, hlo, -⟩ := h.block_bounds hblock
  have hzero : b ≠ 0 := by
    have hhdr : slabHeaderSize = 8 := rfl
    omega
  have htotal := h.total hc
  have hused := h.used hc
  have hlnd := h.live_nodup
  rw [hlive, map_cons, nodup_cons] at hlnd
  rw [hlive, countP_cons] at hused
  simp only [Alloc.inClass, decide_true, if_true] at hused
  refine h.resort hc (h.objSize hc) ⟨rfl, hzero, hlink ▸ h.chain hc⟩ ?_
    (nodup_cons.mpr ⟨hnot, h.free_nodup hc⟩) ?_ hlnd.2 ?_ ?_ ?_ ?_
  · intro b' hb'
    rcases mem_cons.mp hb' with rfl | hb'
    · exact hblock
    · exact h.free hc hb'
  · intro a ha
    have hok := h.live (a := a) (by simp [hlive, ha])
    refine hok.resort ?_
    rintro b' size' rfl hmem
    rcases mem_cons.mp hmem with rfl | hmem
    · exact hlnd.1 (List.mem_map.mpr ⟨_, ha, rfl⟩)
    · exact hok.2.2.1 hmem
  · rw [hlive]
    rfl
  · simp only [length_cons]
    omega
  · simp only
    omega
  · intro c' hne
    rw [hlive, countP_cons]
    simp [Alloc.inClass, Ne.symm hne]

end Resort

/-! ### Runs of pages -/

section Large

variable {live : List Alloc}

lemma Inv.perm (h : Inv m L) (hperm : L.live.Perm live) : Inv m { L with live := live } := by
  have hpages : L.pages.Perm (pages { L with live := live }) :=
    (hperm.flatMap_right _).append_left _
  exact
    { h with
      page := fun hb => h.page (hpages.mem_iff.mpr hb)
      nodup := hpages.nodup_iff.mp h.nodup
      live := fun ha => (h.live (hperm.mem_iff.mpr ha)).mono id rfl
      live_nodup := (hperm.map _).nodup_iff.mp h.live_nodup
      used := fun hc => (h.used hc).trans (hperm.countP_eq _) }

lemma Inv.addLarge (h : Inv m L)
    (hrun : ∀ b ∈ List.range' page count,
      b ∉ L.pages ∧ b ≠ 0 ∧ b < m.pmm.pageCount ∧ m.pmm.used b = true)
    (hbig : 2048 < size) (hsize : size + slabHeaderSize ≤ count * pageSize)
    (hheader : m.ram.readNat 4 (page * pageSize + m.hhdm) = slabClassCount)
    (hpad : m.ram.readNat 4 (page * pageSize + m.hhdm + 4) = count) :
    Inv m { L with live := .large page count size :: L.live } := by
  have hpages : (pages { L with live := .large page count size :: L.live }).Perm
      (List.range' page count ++ L.pages) := by
    simp only [pages, flatMap_cons]
    exact perm_append_comm_assoc ..
  have hfirst : page ∈ List.range' page count := by
    rw [mem_range'_1]
    have hcount : count ≠ 0 := by
      rintro rfl
      omega
    omega
  refine
    { h with
      page := fun hb => ?_
      nodup := ?_
      live := fun ha => ?_
      live_nodup := nodup_cons.mpr ⟨fun hmem => ?_, h.live_nodup⟩
      used := fun hc => by simpa [countP_cons, Alloc.inClass] using h.used hc }
  · rcases mem_append.mp (hpages.mem_iff.mp hb) with hb | hb
    · exact (hrun _ hb).2
    · exact h.page hb
  · rw [hpages.nodup_iff, nodup_append]
    refine ⟨nodup_range', h.nodup, ?_⟩
    rintro b hb _ hb' rfl
    exact (hrun b hb).1 hb'
  · rcases mem_cons.mp ha with rfl | ha
    · exact ⟨hbig, hsize, hheader, hpad⟩
    · exact (h.live ha).mono id rfl
  · obtain ⟨a, ha, heq⟩ := List.mem_map.mp hmem
    have hpos' := h.size_pos ha
    have heq' : a.ptr m.hhdm = page * pageSize + m.hhdm + slabHeaderSize := heq
    -- the pointer lies in the first page of the run and in a page of the heap
    obtain ⟨q, hq, hin⟩ := h.inPages_of_live ha (x := a.ptr m.hhdm)
      (by unfold Within; omega)
    have hin' : Within (page * pageSize + m.hhdm) pageSize (a.ptr m.hhdm) := by
      have hhdr : slabHeaderSize = 8 := rfl
      have hps : pageSize = 4096 := rfl
      unfold Within
      omega
    rw [page_unique hin hin'] at hq
    exact (hrun page hfirst).1 hq

lemma Inv.dropLarge (h : Inv m L) (hlive : L.live = .large page count size :: live) :
    Inv m { L with live := live } ∧
      ∀ b, b ∈ pages { L with live := live } ↔ b ∈ L.pages ∧ b ∉ List.range' page count := by
  have hpages : L.pages.Perm (List.range' page count ++ pages { L with live := live }) := by
    simp only [pages, hlive, flatMap_cons]
    exact perm_append_comm_assoc ..
  have hnd := hpages.nodup_iff.mp h.nodup
  have hlnd := h.live_nodup
  rw [hlive, map_cons, nodup_cons] at hlnd
  obtain ⟨-, hnd', hdisj⟩ := nodup_append.mp hnd
  have hsub : ∀ {b}, b ∈ pages { L with live := live } → b ∈ L.pages := fun hb =>
    hpages.mem_iff.mpr (mem_append_right _ hb)
  refine ⟨{ h with
    page := fun hb => h.page (hsub hb)
    nodup := hnd'
    live := fun {a} ha => (h.live (a := a) (by simp [hlive, ha])).mono id rfl
    live_nodup := hlnd.2
    used := fun hc => ?_ }, fun b => ?_⟩
  · rw [h.used hc, hlive, countP_cons]
    simp [Alloc.inClass]
  · rw [hpages.mem_iff, mem_append]
    constructor
    · intro hb
      exact ⟨.inr hb, fun hrun => hdisj b hrun b hb rfl⟩
    · rintro ⟨hb | hb, hrun⟩
      · exact absurd hb hrun
      · exact hb

end Large

/-! ## The routines -/

/-- From `m` to `m'` the heap took the pages `new`, which were free, and wrote only to them. -/
structure Takes (m m' : Mm) (L L' : HeapMap) (new : List ℕ) : Prop where
  hhdm : m'.hhdm = m.hhdm
  kernelPml4 : m'.kernelPml4 = m.kernelPml4
  pageCount : m'.pmm.pageCount = m.pmm.pageCount
  free : ∀ b ∈ new, b ≠ 0 ∧ b < m.pmm.pageCount ∧ m.pmm.used b = false
  used : ∀ b, m'.pmm.used b = (decide (b ∈ new) || m.pmm.used b)
  pages : ∀ b, b ∈ L'.pages ↔ b ∈ new ∨ b ∈ L.pages
  ram : EqOff (fun x => ∃ b ∈ new, Within (b * pageSize + m.hhdm) pageSize x) m.ram m'.ram

/-- A page whose bit is clear is not the heap's. -/
lemma Inv.not_mem_pages (h : Inv m L) (hb : m.pmm.used b = false) : b ∉ L.pages :=
  fun hmem => Bool.eq_false_iff.1 hb (h.page hmem).2.2

lemma Inv.block_lt (h : Inv m L) (hc : c < slabClassCount) (hb : L.IsBlock m.hhdm c b) :
    b < 2 ^ 64 := by
  obtain ⟨s, hs, -, -, hhi⟩ := h.block_bounds hb
  have hlt := (h.page (mem_pages_of_slab hs)).2.1
  have hle := Nat.mul_le_mul_right pageSize (Nat.succ_le_of_lt hlt)
  rw [Nat.succ_mul] at hle
  have hmap := h.mapped.2
  have hsize := eight_le_classSize hc
  omega

lemma Inv.free_lt (h : Inv m L) (hc : c < slabClassCount) : (m.caches c).free < 2 ^ 64 := by
  have hchain := h.chain hc
  cases hF : L.free c with
  | nil =>
    rw [hF] at hchain
    have hz : (m.caches c).free = 0 := hchain
    omega
  | cons b F =>
    rw [hF] at hchain
    rw [hchain.1]
    exact h.block_lt hc (h.free hc (by simp [hF]))

section Refill

variable {s : Slab} {rest : List Slab}

/-- The heap reads nothing in the place of the next block. -/
lemma Inv.nextBlock_meta (h : Inv m L) (hs : L.slabs = s :: rest)
    (hfits : Slab.Fits { s with count := s.count + 1 })
    (hx : Within (nextBlock m.hhdm s - slabHeaderSize) (classSize s.cls + slabHeaderSize) x) :
    ¬L.Meta m.hhdm x := by
  have hsmem : s ∈ L.slabs := by simp [hs]
  rintro (⟨c, b, hb, hx'⟩ | ⟨c, hc, b, hb, hx'⟩ | ⟨page, count, size, ha, hx'⟩)
  · exact h.nextBlock_apart hs hfits hb hx (header_within hx')
  · refine h.nextBlock_apart hs hfits (h.free hc hb) hx ?_
    have hsize := eight_le_classSize hc
    obtain ⟨s', -, -, hlo, -⟩ := h.block_bounds (h.free hc hb)
    unfold Within at hx' ⊢
    omega
  · have hnext : s.count * (classSize s.cls + slabHeaderSize) +
        (classSize s.cls + slabHeaderSize) ≤ pageSize := hfits.block (Nat.lt_succ_self _)
    obtain ⟨q, hq, hxq⟩ := h.large_page ha (x := x) (by unfold Within at hx' ⊢; omega)
    have hin : Within (s.page * pageSize + m.hhdm) pageSize x := by
      unfold nextBlock Within at hx
      unfold Within
      omega
    exact h.slab_ne hsmem ha hq (page_unique hin hxq)

lemma carve_spec {ram : Mem} {free raw n i : ℕ} (hc : c < 256 ^ 4) (hfree : free < 256 ^ 8)
    (hraw : raw = page + i * n) {r : Mem × ℕ} (hr : Mm.carve c n page (ram, free) i = r) :
    EqOff (Within raw 16) ram r.1 ∧ r.1.readNat 4 raw = c ∧
      r.2 = raw + slabHeaderSize ∧ r.1.readNat 8 r.2 = free := by
  have hhdr : slabHeaderSize = 8 := rfl
  simp only [Mm.carve, ← hraw] at hr
  subst hr
  refine ⟨?_, ?_, rfl, readNat_writeNat _ _ hfree⟩
  · refine ((EqOff.writeNat _ ?_).trans (EqOff.writeNat _ ?_)).trans
      (EqOff.writeNat _ ?_) <;>
    · intro x hx
      unfold Within at hx ⊢
      omega
  · have hfirst := readNat_writeNat (w := 4) ram raw hc
    refine Eq.trans (EqOff.readNat (P := Within (raw + 4) 12)
      ((EqOff.writeNat _ ?_).trans (EqOff.writeNat _ ?_)) ?_) hfirst
    · intro x hx
      unfold Within at hx ⊢
      omega
    · intro x hx
      unfold Within at hx ⊢
      omega
    · intro x hx hx'
      unfold Within at hx hx'
      omega

lemma Inv.carve (h : Inv m L) (hs : L.slabs = s :: rest)
    (hfits : Slab.Fits { s with count := s.count + 1 }) {r : Mem × ℕ}
    (hr : Mm.carve s.cls (classSize s.cls + slabHeaderSize) (s.page * pageSize + m.hhdm)
      (m.ram, (m.caches s.cls).free) s.count = r) :
    EqOff (Within (s.page * pageSize + m.hhdm) pageSize) m.ram r.1 ∧
      Inv (Mm.setCache { m with ram := r.1 } s.cls
        { m.caches s.cls with free := r.2, total := (m.caches s.cls).total + 1 })
        ((L.cut s rest).resort s.cls (r.2 :: L.free s.cls) L.live) := by
  have hhdr : slabHeaderSize = 8 := rfl
  have hc := (h.slab (s := s) (by simp [hs])).1
  have hsize := eight_le_classSize hc
  have hnext : s.count * (classSize s.cls + slabHeaderSize) +
      (classSize s.cls + slabHeaderSize) ≤ pageSize := hfits.block (Nat.lt_succ_self _)
  have hraw : nextBlock m.hhdm s - slabHeaderSize =
      s.page * pageSize + m.hhdm + s.count * (classSize s.cls + slabHeaderSize) := by
    unfold nextBlock
    omega
  have hcls : s.cls < 256 ^ 4 := by
    unfold slabClassCount at hc
    omega
  obtain ⟨hoff, hheader, hblk, hlink⟩ := carve_spec hcls (h.free_lt hc) hraw hr
  have hb : r.2 = nextBlock m.hhdm s := by
    rw [hblk, hraw]
    rfl
  rw [hb] at hlink ⊢
  -- everything is written in the place of the new block, so the heap as it was is kept
  have h₁ : Inv { m with ram := r.1 } L := by
    refine h.frame rfl rfl rfl (fun b hb => (h.page hb).2.2) fun x hx => hoff x fun hin => ?_
    refine h.nextBlock_meta hs hfits ?_ hx
    unfold Within at hin ⊢
    omega
  have h₂ := h₁.cut hs hfits hheader
  have hblock : (L.cut s rest).IsBlock m.hhdm s.cls (nextBlock m.hhdm s) :=
    (isBlock_cut hs).mpr (.inr ⟨rfl, rfl⟩)
  refine ⟨hoff.mono fun x hx => ?_, h₂.addFree hc hblock ?_ ?_ hlink⟩
  · unfold Within at hx ⊢
    omega
  · intro hmem
    exact h.nextBlock_ne hs hfits (h.free hc hmem) rfl
  · intro a ha
    cases a with
    | small b size c => exact h.nextBlock_ne hs hfits (h.live ha).2.1
    | large page count size =>
      intro heq
      have hpos : 0 < size := h.size_pos ha
      have hin : Within ((Alloc.large page count size).ptr m.hhdm) size
          (nextBlock m.hhdm s) := by
        have heq' : (Alloc.large page count size).ptr m.hhdm = nextBlock m.hhdm s := heq
        unfold Within
        omega
      refine h₂.block_large hblock ha (x := nextBlock m.hhdm s) ?_ (large_within hin).1
      unfold Within
      omega

lemma Inv.carve_range (h : Inv m L) (hs : L.slabs = ⟨page, c, 0⟩ :: rest) : ∀ (n : ℕ),
    n * (classSize c + slabHeaderSize) ≤ pageSize → ∀ {r : Mem × ℕ},
    (List.range n).foldl (Mm.carve c (classSize c + slabHeaderSize) (page * pageSize + m.hhdm))
      (m.ram, (m.caches c).free) = r →
    EqOff (Within (page * pageSize + m.hhdm) pageSize) m.ram r.1 ∧
      ∃ F, F.length = n + (L.free c).length ∧
        Inv (Mm.setCache { m with ram := r.1 } c
          { m.caches c with free := r.2, total := (m.caches c).total + n })
          { slabs := ⟨page, c, n⟩ :: rest, free := Function.update L.free c F, live := L.live }
  | 0, _, r, hr => by
      subst hr
      refine ⟨EqOff.refl _, L.free c, by simp, ?_⟩
      simpa [Mm.setCache, ← hs] using h
  | n + 1, hn, r, hr => by
      have hn' : n * (classSize c + slabHeaderSize) ≤ pageSize := by
        rw [Nat.succ_mul] at hn
        omega
      obtain ⟨hoff, F, hlen, hinv⟩ := h.carve_range hs n hn' rfl
      rw [range_succ, foldl_append, foldl_cons, foldl_nil] at hr
      obtain ⟨hoff', hinv'⟩ := hinv.carve (s := ⟨page, c, n⟩) rfl hn rfl
      simp only [Mm.setCache_self, Mm.setCache_hhdm, Mm.setCache_ram, Prod.mk.eta] at hoff' hinv'
      rw [hr] at hoff' hinv'
      refine ⟨hoff.trans hoff', r.2 :: F, ?_, ?_⟩
      · rw [length_cons, hlen]
        omega
      · simpa [Mm.setCache, HeapMap.resort, HeapMap.cut, Nat.add_assoc] using hinv'

lemma count_pos (hc : c < slabClassCount) : 0 < pageSize / (classSize c + slabHeaderSize) := by
  unfold slabClassCount at hc
  interval_cases c <;> decide

/-- `slab_refill` adds a page to the class and all its blocks to the free list. -/
lemma Inv.slabRefill (h : Inv m L) (hc : c < slabClassCount) (hr : m.slabRefill c = some m') :
    ∃ page F, F ≠ [] ∧
      Inv m' { slabs := ⟨page, c, pageSize / (classSize c + slabHeaderSize)⟩ :: L.slabs
               free := Function.update L.free c F, live := L.live } ∧
      Takes m m' L { slabs := ⟨page, c, pageSize / (classSize c + slabHeaderSize)⟩ :: L.slabs
                     free := Function.update L.free c F, live := L.live } [page] := by
  simp only [Mm.slabRefill, bind, bind_eq_some_iff] at hr
  obtain ⟨⟨pmm, phys⟩, halloc, hr⟩ := hr
  obtain ⟨page, rfl, hlt, hfree, hpc, hbits⟩ := Pmm.allocPage_spec halloc
  split_ifs at hr with hz
  rw [some.injEq] at hr
  have hpage : page ≠ 0 := by
    rintro rfl
    exact hz (Nat.zero_mul _)
  have hnew : page ∉ L.pages := h.not_mem_pages hfree
  -- the page is cleared, which the heap does not see
  have hfill : EqOff (Within (page * pageSize + m.hhdm) pageSize) m.ram
      (m.ram.fill (page * pageSize + m.hhdm) pageSize 0) := EqOff.fill _ fun x hx => hx
  have h₁ : Inv { m with pmm := pmm, ram := m.ram.fill (page * pageSize + m.hhdm) pageSize 0 } L := by
    refine h.frame rfl rfl hpc (fun b hb => ?_) fun x hx => hfill x fun hin => ?_
    · rw [hbits, (h.page hb).2.2, Bool.or_true]
    · obtain ⟨b, hb, hxb⟩ := h.inPages_of_meta hx
      exact hnew (page_unique hxb hin ▸ hb)
  have hok : page ≠ 0 ∧ page < pmm.pageCount ∧ pmm.used page = true :=
    ⟨hpage, by simpa [hpc] using hlt, by simp [hbits]⟩
  have h₂ := h₁.addSlab hc hok hnew
  have hn : pageSize / (classSize c + slabHeaderSize) * (classSize c + slabHeaderSize) ≤ pageSize :=
    Nat.div_mul_le_self _ _
  obtain ⟨hoff, F, hlen, h₃⟩ := h₂.carve_range rfl _ hn rfl
  simp only [h.objSize hc] at hr h₃
  have hpos := count_pos hc
  refine ⟨page, F, ?_, ?_, ?_⟩
  · rintro rfl
    simp only [length_nil] at hlen
    omega
  · rw [← hr]
    exact h₃
  · rw [← hr]
    refine ⟨rfl, rfl, hpc, fun b hb => ?_, fun b => ?_, fun b => by simp [HeapMap.pages],
      (hfill.trans hoff).mono fun x hx => ⟨page, by simp, hx⟩⟩
    · rw [mem_singleton.mp hb]
      exact ⟨hpage, hlt, hfree⟩
    · simp only [mem_singleton, Mm.setCache_pmm, hbits]

end Refill

/-! ### `kmalloc` -/

lemma classSize_le (hc : c < slabClassCount) : classSize c ≤ 2048 := by
  unfold slabClassCount at hc
  interval_cases c <;> decide

lemma Takes.refl (m : Mm) (L : HeapMap) : Takes m m L L [] :=
  ⟨rfl, rfl, rfl, nofun, fun b => by simp, fun b => by simp, EqOff.refl _⟩

lemma Takes.takeBlock {L' : HeapMap} {new : List ℕ} (h : Takes m m' L L' new) {F : List ℕ} :
    Takes m (m'.takeBlock c).1 L (L'.resort c F (.small b size c :: L'.live)) new :=
  { h with }

lemma large_header_spec (ram : Mem) (raw : ℕ) (hcount : count < 256 ^ 4) {r : Mem}
    (hr : (ram.writeNat 4 raw slabClassCount).writeNat 4 (raw + 4) count = r) :
    EqOff (Within raw slabHeaderSize) ram r ∧ r.readNat 4 raw = slabClassCount ∧
      r.readNat 4 (raw + 4) = count := by
  have hhdr : slabHeaderSize = 8 := rfl
  subst hr
  refine ⟨?_, ?_, readNat_writeNat _ _ hcount⟩
  · refine (EqOff.writeNat _ ?_).trans (EqOff.writeNat _ ?_) <;>
    · intro x hx
      unfold Within at hx ⊢
      omega
  · have hfirst := readNat_writeNat (w := 4) (v := slabClassCount) ram raw (by decide)
    refine Eq.trans (EqOff.readNat (P := Within (raw + 4) 4)
      (EqOff.writeNat _ fun x hx => hx) fun x hx hx' => ?_) hfirst
    unfold Within at hx hx'
    omega

lemma Inv.kmallocLarge (h : Inv m L) (hbig : 2048 < size) (hwrap : size + 8 + 4095 < 2 ^ 64)
    {p : ℕ} (hk : m.kmallocLarge size = some (m', p)) :
    ∃ page count, (Alloc.large page count size).ptr m.hhdm = p ∧
      Inv m' { L with live := .large page count size :: L.live } ∧
      Takes m m' L { L with live := .large page count size :: L.live }
        (List.range' page count) := by
  have hhdr : slabHeaderSize = 8 := rfl
  have hps : pageSize = 4096 := rfl
  simp only [Mm.kmallocLarge, bind, bind_eq_some_iff] at hk
  obtain ⟨⟨pmm, phys⟩, halloc, hk⟩ := hk
  -- the page computation does not wrap
  have htotal : u64 (size + slabHeaderSize) = size + 8 := Nat.mod_eq_of_lt (by omega)
  have hpages : u64 (u64 (size + slabHeaderSize) + pageSize - 1) / pageSize =
      (size + 8 + 4095) / 4096 := by
    rw [htotal, hps, u64, Nat.mod_eq_of_lt (by omega)]
    omega
  rw [hpages] at halloc hk
  generalize hn : (size + 8 + 4095) / 4096 = count at halloc hk
  obtain ⟨page, rfl, hfree, hpc, hbits⟩ := Pmm.allocPages_spec halloc
  split_ifs at hk with hz
  obtain ⟨hm', hp⟩ := Prod.mk.inj (some.inj hk)
  have hpage : page ≠ 0 := by
    rintro rfl
    exact hz (Nat.zero_mul _)
  have hrun : ∀ b, b ∈ List.range' page count ↔ Pmm.InRun page count b := fun b =>
    mem_range'_1
  have hsize : size + slabHeaderSize ≤ count * pageSize := by
    rw [hps]
    omega
  have hcount : count < 256 ^ 4 := by
    have hlast := (hfree (page + count - 1) (by unfold Pmm.InRun; omega)).1
    have hmap := h.mapped.1
    omega
  obtain ⟨hoff, hheader, hpad⟩ := large_header_spec m.ram (page * pageSize + m.hhdm) hcount rfl
  have hin : ∀ x, Within (page * pageSize + m.hhdm) slabHeaderSize x →
      ∃ b ∈ List.range' page count, Within (b * pageSize + m.hhdm) pageSize x := by
    intro x hx
    refine exists_page_of_within ?_
    unfold Within at hx ⊢
    omega
  have h₁ : Inv { m with pmm := pmm, ram := (m.ram.writeNat 4 (page * pageSize + m.hhdm)
      slabClassCount).writeNat 4 (page * pageSize + m.hhdm + 4) count } L := by
    refine h.frame rfl rfl hpc (fun b hb => ?_) fun x hx => hoff x fun hxin => ?_
    · rw [hbits, (h.page hb).2.2, Bool.or_true]
    · obtain ⟨b, hb, hxb⟩ := h.inPages_of_meta hx
      obtain ⟨b', hb', hxb'⟩ := hin x hxin
      obtain rfl := page_unique hxb hxb'
      exact h.not_mem_pages (hfree b ((hrun b).mp hb')).2 hb
  refine ⟨page, count, hp, ?_, ?_⟩
  · rw [← hm']
    refine h₁.addLarge (fun b hb => ?_) hbig hsize hheader hpad
    have hb' := (hrun b).mp hb
    refine ⟨h.not_mem_pages (hfree b hb').2, ?_, ?_, ?_⟩
    · unfold Pmm.InRun at hb'
      omega
    · simpa [hpc] using (hfree b hb').1
    · simp [hbits, hb']
  · rw [← hm']
    refine ⟨rfl, rfl, hpc, fun b hb => ?_, fun b => by simp only [hbits, hrun], fun b => ?_,
      hoff.mono hin⟩
    · have hb' := (hrun b).mp hb
      refine ⟨?_, hfree b hb'⟩
      unfold Pmm.InRun at hb'
      omega
    · simp only [HeapMap.pages, flatMap_cons, Alloc.pages, mem_append]
      exact or_left_comm

/-- `kmalloc` of a size that does not wrap the page computation returns a new allocation: a
block of a class, or for more than 2048 bytes a run of pages taken for it. -/
lemma Inv.kmalloc (h : Inv m L) (hpos : 0 < size) (hwrap : size + 8 + 4095 < 2 ^ 64)
    {p : ℕ} (hk : m.kmalloc size = some (m', p)) :
    ∃ L' a new, Inv m' L' ∧ Takes m m' L L' new ∧ L'.live = a :: L.live ∧
      a.ptr m.hhdm = p ∧ a.size = size ∧
      (2048 < size → a.pages = new) ∧ (size ≤ 2048 → a.pages = []) := by
  rw [Mm.kmalloc, if_neg (Nat.ne_of_gt hpos)] at hk
  split at hk
  · next c hfind =>
    have hc : c < slabClassCount := mem_range.mp (mem_of_find?_eq_some hfind)
    have hfit : size ≤ classSize c := by
      have hle := find?_some hfind
      rwa [decide_eq_true_eq, h.objSize hc] at hle
    have hle := classSize_le hc
    -- after the refill, if there is one, the class has a free block
    obtain ⟨m₁, hm₁, hk⟩ : ∃ m₁, (if (m.caches c).free = 0 then m.slabRefill c else some m) =
        some m₁ ∧ some (m₁.takeBlock c) = some (m', p) := bind_eq_some_iff.mp hk
    obtain ⟨L₁, new, b, F, hinv, htakes, hlive, hfree⟩ : ∃ L₁ new b F, Inv m₁ L₁ ∧
        Takes m m₁ L L₁ new ∧ L₁.live = L.live ∧ L₁.free c = b :: F := by
      split_ifs at hm₁ with hnull
      · obtain ⟨page, F, hF, hinv, htakes⟩ := h.slabRefill hc hm₁
        obtain ⟨b, F', rfl⟩ := exists_cons_of_ne_nil hF
        exact ⟨_, _, b, F', hinv, htakes, rfl, Function.update_self ..⟩
      · obtain rfl := some.inj hm₁
        have hne : L.free c ≠ [] := fun hnil => hnull ((h.chain hc).eq_nil_iff.mpr hnil)
        obtain ⟨b, F, hF⟩ := exists_cons_of_ne_nil hne
        exact ⟨L, [], b, F, h, Takes.refl m L, rfl, hF⟩
    obtain ⟨hptr, hinv'⟩ := hinv.take hc hfree hpos hfit
    rw [some.injEq] at hk
    rw [hk] at hptr hinv'
    have htakes' : Takes m (m₁.takeBlock c).1 L (L₁.resort c F (.small b size c :: L₁.live)) new :=
      htakes.takeBlock
    rw [hk] at htakes'
    refine ⟨_, .small b size c, new, hinv', htakes', ?_, hptr.symm, rfl, fun hbig => ?_,
      fun _ => rfl⟩
    · rw [HeapMap.resort, hlive]
    · omega
  · next hfind =>
    have hbig : ¬size ≤ 2048 := by
      intro hle
      have hlast := find?_eq_none.mp hfind 7 (by decide)
      rw [h.objSize (by decide)] at hlast
      exact hlast (by simpa [classSize, slabSizes] using hle)
    obtain ⟨page, count, hptr, hinv, htakes⟩ := h.kmallocLarge (not_le.mp hbig) hwrap hk
    exact ⟨_, .large page count size, _, hinv, htakes, rfl, hptr, rfl, fun _ => rfl,
      fun hle => absurd hle hbig⟩

/-! ### `kfree` -/

/-- From `m` to `m'` the heap gave back the pages `old` and wrote only to its own pages, outside
the allocations that stay. -/
structure Gives (m m' : Mm) (L L' : HeapMap) (old : List ℕ) : Prop where
  hhdm : m'.hhdm = m.hhdm
  kernelPml4 : m'.kernelPml4 = m.kernelPml4
  pageCount : m'.pmm.pageCount = m.pmm.pageCount
  used : ∀ b, m'.pmm.used b = (!decide (b ∈ old) && m.pmm.used b)
  pages : ∀ b, b ∈ L'.pages ↔ b ∈ L.pages ∧ b ∉ old
  ram : EqOff (L.InPages m.hhdm) m.ram m'.ram
  data : ∀ a ∈ L'.live, ∀ x, Within (a.ptr m.hhdm) a.size x → m'.ram x = m.ram x

lemma Inv.kfree_small (h : Inv m L) {live : List Alloc} (hlive : L.live = .small b size c :: live) :
    ∃ m' L', m.kfree b = some m' ∧ Inv m' L' ∧ L'.live = live ∧ Gives m m' L L' [] := by
  have hmem : Alloc.small b size c ∈ L.live := by simp [hlive]
  obtain ⟨hc, hblock, hnot, hpos, -⟩ := h.live hmem
  obtain ⟨s, -, -, hlo, -⟩ := h.block_bounds hblock
  have hsize := eight_le_classSize hc
  have hhdr : slabHeaderSize = 8 := rfl
  have hz : b ≠ 0 := by omega
  have hoff : EqOff (Within b 8) m.ram (m.ram.writeNat 8 b (m.caches c).free) :=
    EqOff.writeNat _ fun x hx => hx
  -- the link goes where the holder's bytes were
  have h₁ : Inv { m with ram := m.ram.writeNat 8 b (m.caches c).free } L := by
    refine h.frame rfl rfl rfl (fun b hb => (h.page hb).2.2) fun x hx => hoff x fun hin => ?_
    rcases hx with ⟨c', b', hb', hx⟩ | ⟨c', hc', b', hb', hx⟩ | ⟨page, count, size', ha, hx⟩
    · by_cases heq : b = b'
      · subst heq
        unfold Within at hx hin
        omega
      · refine h.block_block hblock hb' heq (x := x) ?_ (header_within hx)
        unfold Within at hin ⊢
        omega
    · have hb'' := h.free hc' hb'
      by_cases heq : b = b'
      · subst heq
        have hcls : c = c' := (h.header hblock).symm.trans (h.header hb'')
        exact hnot (hcls ▸ hb')
      · obtain ⟨s', -, -, hlo', -⟩ := h.block_bounds hb''
        have hsize' := eight_le_classSize hc'
        refine h.block_block hblock hb'' heq (x := x) ?_ ?_
        · unfold Within at hin ⊢
          omega
        · unfold Within at hx ⊢
          omega
    · refine h.block_large hblock ha (x := x) ?_ ?_
      · unfold Within at hin ⊢
        omega
      · unfold Within at hx ⊢
        omega
  have h₂ := h₁.give hlive (readNat_writeNat _ _ (h.free_lt hc))
  have hrun : m.kfree b = some (Mm.setCache { m with
      ram := m.ram.writeNat 8 b (m.caches c).free } c
      { m.caches c with free := b, used := (m.caches c).used - 1 }) := by
    simp only [Mm.kfree, if_neg hz, h.header hblock]
    rw [if_neg (Nat.ne_of_lt hc), if_neg (Nat.not_le_of_lt hc)]
  refine ⟨_, _, hrun, h₂, rfl, rfl, rfl, rfl, fun b => by simp, fun b' => ?_,
    hoff.mono fun x hx => ?_, fun a ha x hx => hoff x fun hin => ?_⟩
  · simp [HeapMap.pages, HeapMap.resort, hlive, Alloc.pages]
  · refine h.inPages_of_block hblock ?_
    unfold Within at hx ⊢
    omega
  · -- the block is free now, and what stays is apart from it
    refine h₂.live_free ha hc (b := b) (by simp [HeapMap.resort]) hx ?_
    unfold Within at hin ⊢
    omega

lemma Inv.kfree_large (h : Inv m L) {live : List Alloc}
    (hlive : L.live = .large page count size :: live) :
    ∃ m' L', m.kfree ((Alloc.large page count size).ptr m.hhdm) = some m' ∧ Inv m' L' ∧
      L'.live = live ∧ Gives m m' L L' (List.range' page count) := by
  have hmem : Alloc.large page count size ∈ L.live := by simp [hlive]
  obtain ⟨-, hsize, hheader, hpad⟩ := h.live hmem
  have hrun : ∀ b, b ∈ List.range' page count ↔ Pmm.InRun page count b := fun b =>
    mem_range'_1
  have haddr : m.pmm.Addressable := by
    have hmap := h.mapped.2
    unfold Pmm.Addressable
    omega
  obtain ⟨pmm, hfree, hpc, hbits⟩ := Pmm.freePages_eq haddr fun b hb =>
    h.page (mem_pages_of_alloc hmem ((hrun b).mpr hb))
  obtain ⟨h₁, hpages⟩ := h.dropLarge hlive
  have hptr : (Alloc.large page count size).ptr m.hhdm =
      page * pageSize + m.hhdm + slabHeaderSize := rfl
  have hz : (Alloc.large page count size).ptr m.hhdm ≠ 0 := by
    have hhdr : slabHeaderSize = 8 := rfl
    omega
  have hrunk : m.kfree ((Alloc.large page count size).ptr m.hhdm) =
      some { m with pmm := pmm } := by
    simp only [Mm.kfree, hptr, Nat.add_sub_cancel, hheader, if_true, hpad, hfree]
    rfl
  refine ⟨_, _, hrunk, h₁.frame rfl rfl hpc (fun b hb => ?_) fun _ _ => rfl, rfl, rfl, rfl, hpc,
    fun b => by simp only [hbits, hrun], hpages, EqOff.refl _, fun _ _ _ _ => rfl⟩
  obtain ⟨hb, hnot⟩ := (hpages b).mp hb
  rw [hrun] at hnot
  simp [hbits, hnot, (h.page hb).2.2]

/-- `kfree` of a live allocation succeeds and gives back exactly the pages taken for it. -/
lemma Inv.kfree (h : Inv m L) (ha : a ∈ L.live) :
    ∃ m' L', m.kfree (a.ptr m.hhdm) = some m' ∧ Inv m' L' ∧ L'.live = L.live.erase a ∧
      Gives m m' L L' a.pages := by
  have hperm := perm_cons_erase ha
  have h' := h.perm hperm
  have hpages : ∀ b, b ∈ HeapMap.pages { L with live := a :: L.live.erase a } ↔ b ∈ L.pages :=
    fun b => ((hperm.flatMap_right _).append_left _).mem_iff.symm
  obtain ⟨m', L', hrun, hinv, hlive, hgives⟩ : ∃ m' L', m.kfree (a.ptr m.hhdm) = some m' ∧
      Inv m' L' ∧ L'.live = L.live.erase a ∧
      Gives m m' { L with live := a :: L.live.erase a } L' a.pages := by
    cases a with
    | small b size c => exact h'.kfree_small rfl
    | large page count size => exact h'.kfree_large rfl
  exact ⟨m', L', hrun, hinv, hlive, { hgives with
    pages := fun b => (hgives.pages b).trans (and_congr_left fun _ => hpages b)
    ram := hgives.ram.mono fun x ⟨b, hb, hx⟩ => ⟨b, (hpages b).mp hb, hx⟩ }⟩

/-! ### `slab_init` -/

/-- The heap right after `slab_init`. -/
def empty : HeapMap := { slabs := [], free := fun _ => [], live := [] }

lemma Inv.slabInit (hmap : m.Mapped) : Inv m.slabInit empty where
  mapped := hmap
  objSize := fun _ => rfl
  page := nofun
  nodup := nodup_nil
  slab := nofun
  header := by
    rintro c b ⟨s, hs, -⟩
    cases hs
  chain := fun _ => rfl
  free := nofun
  free_nodup := fun _ => nodup_nil
  live := nofun
  live_nodup := nodup_nil
  total := fun _ => rfl
  used := fun _ => rfl

end HeapMap

end CobjOs
