import CobjOs.Memory.VmmSpec

/-!
# Frames

The mappings of a space as a map from page numbers (`Mm.pageEntry`), and what the kernel's
operations leave alone.  A page is *foreign* when it is marked used and holds neither a table nor
a page of the heap.  `Extends m m'` says that between `m` and `m'` the kernel took pages, let the
tables and the heap grow and wrote to no foreign page and into no allocation; it composes.

`MapsFrame` is one turn of a loop of mappings: a free page is taken and mapped.  `MapsRange` is the
loop.
-/

namespace CobjOs

open List Mem

/-- The number of pages of a lower half. -/
def userPages : ℕ := 2 ^ 35

/-- The mapping of a page of the lower half. -/
def Mm.pageEntry (m : Mm) (roots : List ℕ) (s k : ℕ) : Option ℕ :=
  m.leafOf roots s (k * pageSize)

section PageEntry

variable {m m' : Mm} {roots : List ℕ} {s s' space virt k : ℕ} {new : Option ℕ}

lemma userPages_mul (hk : k < userPages) : k * pageSize < 2 ^ 47 := by
  unfold userPages at hk
  unfold pageSize
  omega

lemma div_lt_userPages (h : virt < 2 ^ 47) : virt / pageSize < userPages := by
  unfold userPages pageSize
  omega

lemma leafOf_eq_pageEntry (h : virt < 2 ^ 47) :
    m.leafOf roots s virt = m.pageEntry roots s (virt / pageSize) := by
  have hk := userPages_mul (div_lt_userPages h)
  have hsame := (path_eq_iff hk h).2 (Nat.mul_div_cancel _ (by decide))
  rw [Mm.pageEntry, Mm.leafOf, Mm.leafOf, hsame.1, hsame.2]

lemma vmmGetMapping_pageEntry (hs : SpaceAt m roots s space) (h : virt < 2 ^ 47) :
    m.vmmGetMapping space virt = (m.pageEntry roots s (virt / pageSize)).map decodeEntry := by
  rw [vmmGetMapping_eq hs, leafOf_eq_pageEntry h]
  rfl

lemma decodeEntry_frame {f flags : ℕ} (h : flags < pageSize) :
    decodeEntry (f * pageSize + flags) = (f * pageSize, flags) := by
  rw [decodeEntry, entryToPhys, alignDown, Prod.mk.injEq]
  unfold pageSize at h ⊢
  omega

lemma Remaps.pageEntry (h : Remaps m m' roots s virt new) (hvirt : virt < 2 ^ 47)
    (hk : k < userPages) : m'.pageEntry roots s' k =
      if s' = s ∧ k = virt / pageSize then new else m.pageEntry roots s' k := by
  have hlt := userPages_mul hk
  have hiff := path_eq_iff hvirt hlt
  rw [Nat.mul_div_cancel _ (by decide)] at hiff
  rw [Mm.pageEntry, Mm.leafOf, h s' _ _ (lowPath_pathOf hlt) rfl (ptIdx_lt _)]
  refine if_congr (and_congr_right fun _ => ?_) rfl rfl
  rw [hiff, eq_comm]

/-- The byte that a program finds at an address of its own, if the page is mapped. -/
def Mm.userByte (m : Mm) (space virt : ℕ) : Option UInt8 :=
  (m.vmmGetMapping space virt).map fun e => m.ram (e.1 + m.hhdm + virt % pageSize)

lemma userByte_frame {f flags : ℕ} (hs : SpaceAt m roots s space) (h : virt < 2 ^ 47)
    (hflags : flags < pageSize)
    (hentry : m.pageEntry roots s (virt / pageSize) = some (f * pageSize + flags)) :
    m.userByte space virt = some (m.ram (m.kaddr f + virt % pageSize)) := by
  rw [Mm.userByte, vmmGetMapping_pageEntry hs h, hentry, Option.map_some, decodeEntry_frame hflags]
  rfl

/-- The bytes of a range of a program's addresses, if all of it is mapped. -/
def Mm.userBytes (m : Mm) (space virt n : ℕ) : Option (List UInt8) :=
  (List.range n).mapM fun j => m.userByte space (virt + j)

lemma userBytes_eq_some {n : ℕ} {g : ℕ → UInt8}
    (h : ∀ j < n, m.userByte space (virt + j) = some (g j)) :
    m.userBytes space virt n = some ((List.range n).map g) := by
  have hall : ∀ l : List ℕ, (∀ j ∈ l, j < n) →
      l.mapM (fun j => m.userByte space (virt + j)) = some (l.map g) := by
    intro l hl
    induction l with
    | nil => rfl
    | cons j l ih =>
      rw [mapM_cons, h j (hl j mem_cons_self),
        ih fun i hi => hl i (mem_cons_of_mem _ hi)]
      rfl
  exact hall _ fun j hj => mem_range.1 hj

/-- Entries of the tables are unchanged, so the mappings are. -/
lemma pageEntry_congr (h : SameEntries m m' roots)
    (hk : k < userPages) : m'.pageEntry roots s k = m.pageEntry roots s k :=
  leaf_congr h (lowPath_pathOf (userPages_mul hk)) (ptIdx_lt _)

end PageEntry

/-! ## Foreign pages -/

/-- The page is in use, and not for tables or the heap. -/
structure Foreign (m : Mm) (L : HeapMap) (roots : List ℕ) (b : ℕ) : Prop where
  used : m.pmm.used b = true
  table : ¬IsTable m roots b
  heap : b ∉ L.pages

/-- From `m` to `m'` pages were taken, and no foreign page and no allocation was written to. -/
structure Extends (m m' : Mm) (L L' : HeapMap) (roots roots' : List ℕ) : Prop where
  hhdm : m'.hhdm = m.hhdm
  kernelPml4 : m'.kernelPml4 = m.kernelPml4
  pageCount : m'.pmm.pageCount = m.pmm.pageCount
  used : ∀ {b}, m.pmm.used b = true → m'.pmm.used b = true
  table : ∀ {t}, IsTable m roots t → IsTable m' roots' t
  live : ∀ {a}, a ∈ L.live → a ∈ L'.live
  data : ∀ {a x}, a ∈ L.live → Within (a.ptr m.hhdm) a.size x → m'.ram x = m.ram x
  foreign : ∀ {b}, Foreign m L roots b → Foreign m' L' roots' b
  frame : ∀ {b x}, Foreign m L roots b → InPage m b x → m'.ram x = m.ram x
  root_mem : ∀ root ∈ roots, root ∈ roots'
  upper : SameUpper m m' roots

namespace Extends

variable {m m' m'' : Mm} {L L' L'' : HeapMap} {roots roots' roots'' : List ℕ}

lemma refl (m : Mm) (L : HeapMap) (roots : List ℕ) : Extends m m L L roots roots where
  hhdm := rfl
  kernelPml4 := rfl
  pageCount := rfl
  used := id
  table := id
  live := id
  data := fun _ _ => rfl
  foreign := id
  frame := fun _ _ => rfl
  root_mem := fun _ hr => hr
  upper := fun _ _ _ _ _ => rfl

lemma inPage (h : Extends m m' L L' roots roots') {b x : ℕ} : InPage m' b x ↔ InPage m b x := by
  rw [InPage, InPage, Mm.kaddr, Mm.kaddr, h.hhdm]

/-- A page that is free later was free before. -/
lemma free (h : Extends m m' L L' roots roots') {b : ℕ} (hb : m'.pmm.used b = false) :
    m.pmm.used b = false :=
  Bool.eq_false_iff.2 fun hu => Bool.eq_false_iff.1 hb (h.used hu)

lemma trans (h : Extends m m' L L' roots roots') (h' : Extends m' m'' L' L'' roots' roots'') :
    Extends m m'' L L'' roots roots'' where
  hhdm := h'.hhdm.trans h.hhdm
  kernelPml4 := h'.kernelPml4.trans h.kernelPml4
  pageCount := h'.pageCount.trans h.pageCount
  used := fun hb => h'.used (h.used hb)
  table := fun ht => h'.table (h.table ht)
  live := fun ha => h'.live (h.live ha)
  data := fun ha hx => (h'.data (h.live ha) (h.hhdm ▸ hx)).trans (h.data ha hx)
  foreign := fun hb => h'.foreign (h.foreign hb)
  frame := fun hb hx => (h'.frame (h.foreign hb) (h.inPage.2 hx)).trans (h.frame hb hx)
  root_mem := fun r hr => h'.root_mem r (h.root_mem r hr)
  upper := fun r hr i hlo hhi =>
    (h'.upper r (h.root_mem r hr) i hlo hhi).trans (h.upper r hr i hlo hhi)

end Extends

/-- The record of a space is an allocation and leads to its root. -/
structure Recorded (m : Mm) (L : HeapMap) (roots : List ℕ) (s space : ℕ) : Prop where
  spaceAt : SpaceAt m roots s space
  alloc : ∃ a ∈ L.live, a.ptr m.hhdm = space ∧ a.size = Mm.addrSpaceSize

lemma Recorded.extends {m m' : Mm} {L L' : HeapMap} {roots roots' : List ℕ} {s space : ℕ}
    (h : Recorded m L roots s space) (hext : Extends m m' L L' roots roots')
    (hroots : ∀ root, roots[s]? = some root → roots'[s]? = some root) :
    Recorded m' L' roots' s space := by
  obtain ⟨a, ha, rfl, hsize⟩ := h.alloc
  obtain ⟨root, hroot, hread⟩ := h.spaceAt
  refine ⟨SpaceAt.congr ⟨root, hroots root hroot, hread⟩ hext.hhdm fun x hx => hext.data ha ?_,
    a, hext.live ha, by rw [hext.hhdm], hsize⟩
  rw [hsize, Mm.addrSpaceSize]
  unfold Within at hx ⊢
  omega

section Steps

variable {m m' : Mm} {L : HeapMap} {roots : List ℕ} {s space virt : ℕ} {ram : Mem}

lemma SameEntries.upper (h : SameEntries m m' roots) : SameUpper m m' roots :=
  fun root hroot i _ hi => h root (isTable_root m hroot) i hi

lemma MmInv.extends_grown (h : MmInv m L roots) (hg : Grown m m' roots) :
    Extends m m' L L roots roots := by
  obtain ⟨hinv, hdata⟩ := h.grown hg
  have htable : ∀ {b}, Foreign m L roots b → ¬IsTable m' roots b := by
    rintro b hb ⟨s, p, hp, ht⟩
    rcases hg.fresh hp ht with ht | ⟨-, hfree⟩
    · exact hb.table ⟨s, p, hp, ht⟩
    · exact Bool.eq_false_iff.1 hfree hb.used
  refine ⟨hg.hhdm, hg.kernelPml4, hg.pageCount, hg.used, hg.isTable, id, fun ha hx => ?_,
    fun hb => ⟨hg.used hb.used, htable hb, hb.heap⟩, fun hb hx => hg.ram _ ?_, fun _ hr => hr,
    hg.upper⟩
  · exact hdata _ (h.heap.inPages_of_live ha hx)
  · rintro ⟨t, ht, hxt⟩
    exact htable hb (hxt.unique hx ▸ ht)

lemma Extends.of_sameEntries {L' : HeapMap} (hentry : SameEntries m m' roots)
    (hhdm : m'.hhdm = m.hhdm) (hpml4 : m'.kernelPml4 = m.kernelPml4)
    (hpc : m'.pmm.pageCount = m.pmm.pageCount)
    (hused : ∀ {b}, m.pmm.used b = true → m'.pmm.used b = true)
    (hlive : ∀ {a}, a ∈ L.live → a ∈ L'.live)
    (hdata : ∀ {a x}, a ∈ L.live → Within (a.ptr m.hhdm) a.size x → m'.ram x = m.ram x)
    (hheap : ∀ {b}, Foreign m L roots b → b ∉ L'.pages)
    (hframe : ∀ {b x}, Foreign m L roots b → InPage m b x → m'.ram x = m.ram x) :
    Extends m m' L L' roots roots :=
  ⟨hhdm, hpml4, hpc, hused, (isTable_congr hentry).2, hlive, hdata,
    fun hb => ⟨hused hb.used, fun ht => hb.table ((isTable_congr hentry).1 ht), hheap hb⟩, hframe,
    fun _ hr => hr, hentry.upper⟩

lemma ram_of_used {new : ℕ → Prop} {b x : ℕ} (hfree : ∀ {b}, new b → m.pmm.used b = false)
    (hram : EqOff (fun x => ∃ b, new b ∧ InPage m b x) m.ram ram) (hb : m.pmm.used b = true)
    (hx : InPage m b x) : ram x = m.ram x := by
  refine hram x ?_
  rintro ⟨c, hc, hxc⟩
  exact Bool.eq_false_iff.1 (hfree hc) (hx.unique hxc ▸ hb)

/-- `kmalloc` is an extension and leaves the mappings. -/
lemma MmInv.extends_takes {L' : HeapMap} {new : List ℕ} (h : MmInv m L roots) (hinv : L'.Inv m')
    (ht : HeapMap.Takes m m' L L' new) (hlive : ∀ a ∈ L.live, a ∈ L'.live) :
    Extends m m' L L' roots roots := by
  have hfree : ∀ {b}, b ∈ new → m.pmm.used b = false := fun hb => (ht.free _ hb).2.2
  refine .of_sameEntries (h.takes hinv ht).2 ht.hhdm ht.kernelPml4 ht.pageCount
    (fun hb => by rw [ht.used, hb, Bool.or_true]) (fun ha => hlive _ ha) (fun ha hx => ?_)
    (fun hb => ?_) fun hb hx => ram_of_used hfree ht.ram hb.used hx
  · obtain ⟨b, hb, hxb⟩ := h.heap.inPages_of_live ha hx
    exact ram_of_used hfree ht.ram (h.used (.inl hb)) hxb
  · rw [ht.pages, not_or]
    exact ⟨fun hmem => Bool.eq_false_iff.1 (hfree hmem) hb.used, hb.heap⟩

lemma MmInv.extends_taken {pmm : Pmm} {new : ℕ → Prop} (h : MmInv m L roots)
    (hpc : pmm.pageCount = m.pmm.pageCount) (hfree : ∀ {b}, new b → m.pmm.used b = false)
    (hbits : ∀ {b}, pmm.used b = true ↔ new b ∨ m.pmm.used b = true)
    (hram : EqOff (fun x => ∃ b, new b ∧ InPage m b x) m.ram ram) :
    MmInv { m with pmm := pmm, ram := ram } L roots ∧
      SameEntries m { m with pmm := pmm, ram := ram } roots ∧
      (∀ {b}, new b → Foreign { m with pmm := pmm, ram := ram } L roots b) ∧
      Extends m { m with pmm := pmm, ram := ram } L L roots roots := by
  have hmono : ∀ {b}, m.pmm.used b = true → pmm.used b = true := fun hb => hbits.2 (.inr hb)
  have hne : ∀ {b}, new b → ¬(b ∈ L.pages ∨ IsTable m roots b) :=
    fun hn hb => Bool.eq_false_iff.1 (hfree hn) (h.used hb)
  obtain ⟨hinv, hentry⟩ : MmInv { m with pmm := pmm, ram := ram } L roots ∧
      SameEntries m { m with pmm := pmm, ram := ram } roots :=
    h.frame rfl rfl hpc (fun b hb => hmono (h.used hb))
      fun b hb x hx => ram_of_used hfree hram (h.used hb) hx
  refine ⟨hinv, hentry, fun hb => ⟨hbits.2 (.inl hb), fun ht => ?_, fun hmem => hne hb (.inl hmem)⟩,
    .of_sameEntries hentry rfl rfl hpc hmono id (fun ha hx => ?_) Foreign.heap
      fun hb hx => ram_of_used hfree hram hb.used hx⟩
  · exact hne hb (.inr ((isTable_congr hentry).1 ht))
  · obtain ⟨b, hb, hxb⟩ := h.heap.inPages_of_live ha hx
    exact ram_of_used hfree hram (h.used (.inl hb)) hxb

lemma MmInv.extends_allocPage {pmm : Pmm} {phys : ℕ} (h : MmInv m L roots)
    (halloc : m.pmm.allocPage = some (pmm, phys))
    (hram : EqOff (Within (phys + m.hhdm) pageSize) m.ram ram) :
    ∃ f, phys = f * pageSize ∧ f < m.pmm.pageCount ∧ m.pmm.used f = false ∧
      MmInv { m with pmm := pmm, ram := ram } L roots ∧
      SameEntries m { m with pmm := pmm, ram := ram } roots ∧
      Foreign { m with pmm := pmm, ram := ram } L roots f ∧
      Extends m { m with pmm := pmm, ram := ram } L L roots roots ∧
      ∀ {b}, pmm.used b = true → b = f ∨ m.pmm.used b = true := by
  obtain ⟨f, rfl, hlt, hfree, hpc, hbits⟩ := Pmm.allocPage_spec halloc
  have hused : ∀ {b}, pmm.used b = true ↔ b = f ∨ m.pmm.used b = true := by
    intro b
    rw [hbits, Bool.or_eq_true, decide_eq_true_eq]
  have hram' : EqOff (fun x => ∃ b, b = f ∧ InPage m b x) m.ram ram :=
    hram.mono fun x hx => ⟨f, rfl, hx⟩
  obtain ⟨hinv, hentry, hforeign, hext⟩ :=
    h.extends_taken hpc (fun {b} (hb : b = f) => hb ▸ hfree) hused hram'
  exact ⟨f, rfl, hlt, hfree, hinv, hentry, hforeign rfl, hext, hused.1⟩

lemma MmInv.writeLive {a : Alloc} (h : MmInv m L roots) (ha : a ∈ L.live)
    (hram : EqOff (Within (a.ptr m.hhdm) a.size) m.ram ram) :
    MmInv { m with ram := ram } L roots ∧ SameEntries m { m with ram := ram } roots := by
  have hentry : SameEntries m { m with ram := ram } roots := entries_of_eqOff rfl hram
    fun t ht x hx hxa => h.apart ht (hx.mem_pages (h.heap.inPages_of_live ha hxa))
  refine ⟨⟨?_, h.tables.frame hentry rfl fun t => h.tables.used,
    fun ht => h.apart ((isTable_congr hentry).1 ht)⟩, hentry⟩
  exact h.heap.frame rfl rfl rfl (fun b hb => (h.heap.page hb).2.2)
    fun x hx => hram x fun hxa => h.heap.live_meta ha hxa hx

lemma MmInv.writeForeign {W : ℕ → Prop} (h : MmInv m L roots)
    (hW : ∀ {b}, W b → Foreign m L roots b)
    (hram : EqOff (fun x => ∃ b, W b ∧ InPage m b x) m.ram ram) :
    MmInv { m with ram := ram } L roots ∧ SameEntries m { m with ram := ram } roots := by
  refine h.frame rfl rfl rfl (fun b => h.used) fun b hb x hx => hram x ?_
  rintro ⟨c, hc, hxc⟩
  obtain rfl := hx.unique hxc
  exact hb.elim (hW hc).heap (hW hc).table

lemma Extends.writeNew {m₀ : Mm} {L₀ : HeapMap} {roots₀ : List ℕ} {W : ℕ → Prop}
    (h : Extends m₀ m L₀ L roots₀ roots) (hinv : MmInv m L roots)
    (hW : ∀ {b}, W b → Foreign m L roots b ∧ m₀.pmm.used b = false)
    (hram : EqOff (fun x => ∃ b, W b ∧ InPage m b x) m.ram ram) :
    Extends m₀ { m with ram := ram } L₀ L roots₀ roots := by
  obtain ⟨-, hentry⟩ := hinv.writeForeign (fun hb => (hW hb).1) hram
  have htable : ∀ {t}, IsTable { m with ram := ram } roots t ↔ IsTable m roots t :=
    isTable_congr hentry
  refine { h with
    table := fun ht => htable.2 (h.table ht)
    data := fun {a x} ha hx => Eq.trans (hram x ?_) (h.data ha hx)
    foreign := fun hb =>
      ⟨(h.foreign hb).used, fun ht => (h.foreign hb).table (htable.1 ht), (h.foreign hb).heap⟩
    frame := fun {b x} hb hx => Eq.trans (hram x ?_) (h.frame hb hx)
    upper := fun r hr i hlo hhi =>
      (hentry r (isTable_root m (h.root_mem r hr)) i hhi).trans (h.upper r hr i hlo hhi) }
  · rintro ⟨b, hb, hxb⟩
    rw [← h.hhdm] at hx
    exact (hW hb).1.heap (hxb.mem_pages (hinv.heap.inPages_of_live (h.live ha) hx))
  · rintro ⟨c, hc, hxc⟩
    obtain rfl : b = c := (h.inPage.2 hx).unique hxc
    exact Bool.eq_false_iff.1 (hW hc).2 hb.used

/-- A new record: an allocation with its bytes filled in. -/
structure AddsRecord (m m' : Mm) (L L' : HeapMap) (roots : List ℕ) (ptr size : ℕ) : Prop where
  inv : MmInv m' L' roots
  ext : Extends m m' L L' roots roots
  live : ∃ a, L'.live = a :: L.live ∧ a.ptr m.hhdm = ptr ∧ a.size = size
  pages_mono : ∀ {b}, b ∈ L.pages → b ∈ L'.pages
  taken : ∀ {b}, m'.pmm.used b = true → m.pmm.used b = true ∨ b ∈ L'.pages
  entry : ∀ {s k}, k < userPages → m'.pageEntry roots s k = m.pageEntry roots s k

lemma MmInv.newRecord {m₁ : Mm} {size ptr : ℕ} (h : MmInv m L roots) (hpos : 0 < size)
    (hwrap : size + 8 + 4095 < 2 ^ 64) (hk : m.kmalloc size = some (m₁, ptr))
    (hram : EqOff (Within ptr size) m₁.ram ram) :
    ∃ L', AddsRecord m { m₁ with ram := ram } L L' roots ptr size := by
  obtain ⟨L', a, new, hinv, htakes, hlive, rfl, rfl, -, -⟩ := h.heap.kmalloc hpos hwrap hk
  obtain ⟨h₁, hentry₁⟩ := h.takes hinv htakes
  have ha : a ∈ L'.live := by simp [hlive]
  have hsub : ∀ c ∈ L.live, c ∈ L'.live := fun c hc => by simp [hlive, hc]
  have hext := h.extends_takes hinv htakes hsub
  rw [← htakes.hhdm] at hram
  obtain ⟨h₂, hentry₂⟩ := h₁.writeLive ha hram
  have hentry := hentry₁.trans hentry₂
  refine ⟨L', h₂, .of_sameEntries hentry htakes.hhdm htakes.kernelPml4 htakes.pageCount hext.used
      hext.live (fun {c x} hc hx => ?_) (fun hb => (hext.foreign hb).heap) fun hb hx => ?_,
    ⟨a, hlive, rfl, rfl⟩, fun hb => (htakes.pages _).2 (.inr hb), fun {b} hb => ?_,
    fun hk => pageEntry_congr hentry hk⟩
  · have hne : c ≠ a := by
      rintro rfl
      have hnd := hinv.live_nodup
      rw [hlive, map_cons, nodup_cons] at hnd
      exact hnd.1 (mem_map.2 ⟨c, hc, rfl⟩)
    have hx₁ : Within (c.ptr m₁.hhdm) c.size x := by rwa [htakes.hhdm]
    refine Eq.trans (hram x fun hxa => ?_) (hext.data hc hx)
    exact hinv.live_live (hsub c hc) ha hne hx₁ hxa
  · refine Eq.trans (hram _ fun hxa => (hext.foreign hb).heap ?_) (hext.frame hb hx)
    exact (hext.inPage.2 hx).mem_pages (hinv.inPages_of_live ha hxa)
  · have hused : m₁.pmm.used b = true := hb
    rw [htakes.used, Bool.or_eq_true, decide_eq_true_eq] at hused
    exact hused.symm.imp_right fun hnew => (htakes.pages b).2 (.inl hnew)

/-- One more root, in a page with an empty lower half. -/
lemma MmInv.addRoot {n : ℕ} (h : MmInv m L roots) (hn : n ≠ 0) (hlt : n < m.pmm.pageCount)
    (hf : Foreign m L roots n) (hzero : ∀ i < 256, m.entry n i = 0) :
    MmInv m L (roots ++ [n]) ∧
      (∀ {t}, IsTable m (roots ++ [n]) t ↔ t = n ∨ IsTable m roots t) ∧
      ∀ {s k}, k < userPages → m.pageEntry (roots ++ [n]) s k = m.pageEntry roots s k := by
  have hnew : ∀ s p, LowPath p → m.table roots s p ≠ some n :=
    fun s p hp ht => hf.table ⟨s, p, hp, ht⟩
  have hroots : ∀ s, s ≠ roots.length → (roots ++ [n])[s]? = roots[s]? := by
    intro s hs
    rcases Nat.lt_or_gt_of_ne hs with hlt | hlt
    · exact getElem?_append_left hlt
    · have hle : (roots ++ [n]).length ≤ s := by simpa using Nat.succ_le_of_lt hlt
      rw [getElem?_eq_none hle, getElem?_eq_none (Nat.le_of_lt hlt)]
  have hold : roots[roots.length]? = none := getElem?_eq_none (Nat.le_refl _)
  have hempty : ∀ i, LowPath [i] → m.child n i = none := by
    intro i hi
    rw [Mm.child, Mm.present, hzero i (hi.2.2 i rfl)]
    rfl
  have hall := Forest.tableAt_root (fun _ _ => LowPath.tail) hold
    (getElem?_concat_length (l := roots)) hroots hempty (fun _ _ _ _ _ _ => rfl)
  have htable : ∀ {t}, IsTable m (roots ++ [n]) t ↔ t = n ∨ IsTable m roots t := by
    refine ⟨?_, ?_⟩
    · rintro ⟨s, p, hp, ht⟩
      rcases hall s p hp with ⟨-, -, heq⟩ | ⟨-, heq⟩
      · exact .inl (Option.some.inj (ht.symm.trans heq))
      · exact .inr ⟨s, p, hp, heq.symm.trans ht⟩
    · rintro (rfl | ⟨s, p, hp, ht⟩)
      · exact isTable_root m (by simp)
      · rcases hall s p hp with ⟨rfl, rfl, -⟩ | ⟨-, heq⟩
        · exact absurd (ht.symm.trans hold) (Option.some_ne_none _)
        · exact ⟨s, p, hp, heq.trans ht⟩
  refine ⟨⟨h.heap, ⟨h.tables.forest.insert hnew hall, ?_⟩, ?_⟩, htable, ?_⟩
  · intro s p t hp ht
    rcases htable.1 ⟨s, p, hp, ht⟩ with rfl | ⟨s', p', hp', ht'⟩
    · exact ⟨hn, hlt, hf.used⟩
    · exact h.tables.page hp' ht'
  · intro t ht
    rcases htable.1 ht with rfl | ht
    · exact hf.heap
    · exact h.apart ht
  · intro s k hk
    have hsame : m.table (roots ++ [n]) s (Mm.pathOf (k * pageSize)) =
        m.table roots s (Mm.pathOf (k * pageSize)) := by
      rcases hall s _ (lowPath_pathOf (userPages_mul hk)) with ⟨-, hnil, -⟩ | ⟨-, heq⟩
      · simp [Mm.pathOf] at hnil
      · exact heq
    rw [Mm.pageEntry, Mm.pageEntry, Mm.leafOf, Mm.leafOf, Mm.leaf, Mm.leaf, hsame]

/-- A new address space: nothing is mapped in it. -/
structure AddsRoot (m m' : Mm) (L L' : HeapMap) (roots : List ℕ) (n space : ℕ) : Prop where
  inv : MmInv m' L' (roots ++ [n])
  ext : Extends m m' L L' roots (roots ++ [n])
  recorded : Recorded m' L' (roots ++ [n]) roots.length space
  live : ∃ a, L'.live = a :: L.live ∧ a.ptr m.hhdm = space ∧ a.size = Mm.addrSpaceSize
  free : m.pmm.used n = false
  entry : ∀ {s k}, k < userPages → m'.pageEntry (roots ++ [n]) s k = m.pageEntry roots s k
  copied : ∀ {k}, m.kernelPml4 = k * pageSize → Foreign m L roots k →
    ∀ i, 256 ≤ i → i < 512 → m'.entry n i = m.entry k i

/-- `vmm_create_user_space`: the record is made, then the root page. -/
lemma MmInv.createSpace (h : MmInv m L roots) (hc : m.vmmCreateUserSpace = some (m', space)) :
    ∃ L' n, AddsRoot m m' L L' roots n space := by
  simp only [Mm.vmmCreateUserSpace, bind, Option.bind_eq_some_iff] at hc
  obtain ⟨⟨m₁, ptr⟩, hk, hc⟩ := hc
  split_ifs at hc
  simp only [Option.bind_eq_some_iff] at hc
  obtain ⟨⟨pmm, phys⟩, halloc, hc⟩ := hc
  split_ifs at hc with hz
  obtain ⟨rfl, rfl⟩ := Prod.mk.inj (Option.some.inj hc)
  have hwrite : EqOff (Within ptr Mm.addrSpaceSize) m₁.ram
      ((m₁.ram.writeNat 8 (ptr + 8) phys).writeNat 8 ptr (phys + m₁.hhdm)) := by
    have hsize : Mm.addrSpaceSize = 16 := rfl
    refine (EqOff.writeNat _ fun x hx => ?_).trans (EqOff.writeNat _ fun x hx => ?_) <;>
      unfold Within at hx ⊢ <;> omega
  obtain ⟨L', hr⟩ := h.newRecord (by decide) (by decide) hk hwrite
  obtain ⟨hoff, hlower, hupper⟩ := copyKernelHalf_spec (m₁.kernelPml4 + m₁.hhdm)
    (phys + m₁.hhdm) ((m₁.ram.writeNat 8 (ptr + 8) phys).writeNat 8 ptr (phys + m₁.hhdm))
  generalize Mm.copyKernelHalf _ _ _ = ram at hoff hlower hupper ⊢
  obtain ⟨n, rfl, hlt, hfree, hinv, hsame, hforeign, hext, -⟩ :=
    hr.inv.extends_allocPage halloc hoff
  have hn : n ≠ 0 := by
    rintro rfl
    exact hz (Nat.zero_mul _)
  obtain ⟨hinv', htable, hentry⟩ := hinv.addRoot hn
    (lt_of_lt_of_eq hlt hext.pageCount.symm) hforeign hlower
  have hall := hr.ext.trans hext
  have hnfree := hr.ext.free hfree
  obtain ⟨a, hlive, hptr, hsize⟩ := hr.live
  have ha : a ∈ L'.live := by simp [hlive]
  refine ⟨L', n, hinv', { hall with
      table := fun ht => htable.2 (.inr (hall.table ht))
      foreign := fun hb => ⟨(hall.foreign hb).used, fun ht => ?_, (hall.foreign hb).heap⟩
      root_mem := fun _ hroot => mem_append_left _ hroot },
    ⟨⟨n, getElem?_concat_length, ?_⟩, a, ha, ?_, hsize⟩, hr.live, hnfree,
    fun hk => (hentry hk).trans ((pageEntry_congr hsame hk).trans (hr.entry hk)),
    fun {k} hpml4 hk i hlo hhi => ?_⟩
  · rcases htable.1 ht with rfl | ht
    · exact Bool.eq_false_iff.1 hnfree hb.used
    · exact (hall.foreign hb).table ht
  · refine (readNat_congr fun x h₁ h₂ => hext.data ha ?_).trans (readNat_writeNat _ _ ?_)
    · rw [hr.ext.hhdm, hptr, hsize]
      exact ⟨h₁, h₂.trans_le (Nat.add_le_add_left (by decide) _)⟩
    · exact lt_of_lt_of_le (Nat.lt_add_of_pos_right (by decide)) (hr.inv.heap.mapped.kaddr_le hlt)
  · rw [hall.hhdm, hptr]
  · have hker : m₁.kernelPml4 + m₁.hhdm = m.kaddr k :=
      congrArg₂ (· + ·) (hr.ext.kernelPml4.trans hpml4) hr.ext.hhdm
    rw [hker] at hupper
    refine (hupper (fun x hx hxn => ?_) i hlo hhi).trans
      (readNat_congr fun x h₁ h₂ => hr.ext.frame hk (InEntry.inPage ⟨h₁, h₂⟩ hhi))
    obtain rfl : k = n := InPage.unique hx (hr.ext.inPage.1 hxn)
    exact Bool.eq_false_iff.1 hnfree hk.used

/-- `kfree` leaves the tables, the foreign pages and the other allocations. -/
structure Frees (m m' : Mm) (L L' : HeapMap) (roots : List ℕ) (a : Alloc) : Prop where
  inv : MmInv m' L' roots
  hhdm : m'.hhdm = m.hhdm
  kernelPml4 : m'.kernelPml4 = m.kernelPml4
  pageCount : m'.pmm.pageCount = m.pmm.pageCount
  live : L'.live = L.live.erase a
  used : ∀ b, m'.pmm.used b = (!decide (b ∈ a.pages) && m.pmm.used b)
  foreign : ∀ {b}, Foreign m L roots b → Foreign m' L' roots b
  frame : ∀ {b x}, b ∉ L.pages → InPage m b x → m'.ram x = m.ram x
  data : ∀ {c x}, c ∈ L'.live → Within (c.ptr m.hhdm) c.size x → m'.ram x = m.ram x
  upper : SameUpper m m' roots
  entry : ∀ {s k}, k < userPages → m'.pageEntry roots s k = m.pageEntry roots s k

lemma MmInv.kfree {a : Alloc} (h : MmInv m L roots) (ha : a ∈ L.live) :
    ∃ m' L', m.kfree (a.ptr m.hhdm) = some m' ∧ Frees m m' L L' roots a := by
  obtain ⟨m', L', hk, hinv, hlive, hg⟩ := h.heap.kfree ha
  have hout : ∀ {b}, b ∉ L.pages → b ∉ a.pages :=
    fun hb hmem => hb (HeapMap.mem_pages_of_alloc ha hmem)
  have hframe : ∀ {b x}, b ∉ L.pages → InPage m b x → m'.ram x = m.ram x :=
    fun hb hx => hg.ram _ fun hxp => hb (hx.mem_pages hxp)
  have hused : ∀ {b}, b ∉ L.pages → m.pmm.used b = true → m'.pmm.used b = true := by
    intro b hb hu
    rw [hg.used, hu, decide_eq_false (hout hb)]
    rfl
  have hentry : SameEntries m m' roots := entries_of_eqOff hg.hhdm hg.ram
    fun t ht x hx hxp => h.apart ht (hx.mem_pages hxp)
  have hpages : ∀ {b}, b ∉ L.pages → b ∉ L'.pages := fun hb hmem => hb ((hg.pages _).1 hmem).1
  refine ⟨m', L', hk, ⟨hinv, h.tables.frame hentry hg.pageCount ?_, ?_⟩, hg.hhdm, hg.kernelPml4,
    hg.pageCount, hlive, hg.used, ?_, hframe, fun hc hx => hg.data _ hc _ hx, hentry.upper,
    fun hk => pageEntry_congr hentry hk⟩
  · exact fun t ht => hused (h.apart ht) (h.tables.used ht)
  · intro t ht
    exact hpages (h.apart ((isTable_congr hentry).1 ht))
  · intro b hb
    exact ⟨hused hb.heap hb.used, fun ht => hb.table ((isTable_congr hentry).1 ht),
      hpages hb.heap⟩

end Steps

/-! ## Mapping frames -/

/-- From `m` to `m'` one page of one space was mapped. -/
structure Maps (m m' : Mm) (L : HeapMap) (roots : List ℕ) (s k e : ℕ) : Prop where
  inv : MmInv m' L roots
  ext : Extends m m' L L roots roots
  taken : ∀ {b}, m'.pmm.used b = true → m.pmm.used b = true ∨ IsTable m' roots b
  entry : ∀ {s' k'}, k' < userPages → m'.pageEntry roots s' k' =
    if s' = s ∧ k' = k then some e else m.pageEntry roots s' k'

/-- From `m` to `m'` a page was taken and one page of one space was mapped to it. -/
structure MapsFrame (m m' : Mm) (L : HeapMap) (roots : List ℕ) (s k f flags : ℕ) : Prop where
  lt : f < m.pmm.pageCount
  free : m.pmm.used f = false
  foreign : Foreign m' L roots f
  inv : MmInv m' L roots
  ext : Extends m m' L L roots roots
  taken : ∀ {b}, m'.pmm.used b = true → m.pmm.used b = true ∨ b = f ∨ IsTable m' roots b
  entry : ∀ {s' k'}, k' < userPages → m'.pageEntry roots s' k' =
    if s' = s ∧ k' = k then some (f * pageSize + flags) else m.pageEntry roots s' k'

section Mapping

variable {m m' : Mm} {L : HeapMap} {roots : List ℕ} {s space virt phys flags f : ℕ}

lemma MmInv.vmmMapPage (h : MmInv m L roots) (hs : Recorded m L roots s space)
    (hvirt : virt < 2 ^ 47) (hf : f < m.pmm.pageCount) (hflags : flags < 4096)
    (hmap : m.vmmMapPage space virt (f * pageSize) flags = some m') :
    Maps m m' L roots s (virt / pageSize) (f * pageSize + (flags ||| pagePresent)) := by
  have hphys : f * pageSize < 2 ^ 64 := by
    have hpc := h.heap.mapped.1
    unfold pageSize
    omega
  obtain ⟨hg, hr⟩ := vmmMapPage_spec h.heap.mapped h.tables hs.spaceAt hvirt hphys hflags hmap
  have hlt : flags ||| pagePresent < pageSize :=
    Nat.or_lt_two_pow (n := 12) hflags (by decide)
  refine ⟨(h.grown hg).1, h.extends_grown hg, hg.taken, fun hk => ?_⟩
  rw [hr.pageEntry hvirt hk, alignDown, Nat.mul_div_cancel _ (by decide), entry_page hlt]

/-- One turn of the loops that map new frames. -/
lemma MmInv.mapFrame {pmm : Pmm} {ram : Mem} (h : MmInv m L roots)
    (hs : Recorded m L roots s space) (hvirt : virt < 2 ^ 47) (hflags : flags < 4096)
    (halloc : m.pmm.allocPage = some (pmm, phys))
    (hram : EqOff (Within (phys + m.hhdm) pageSize) m.ram ram)
    (hmap : Mm.vmmMapPage { m with pmm := pmm, ram := ram } space virt phys flags = some m') :
    ∃ f, phys = f * pageSize ∧
      MapsFrame m m' L roots s (virt / pageSize) f (flags ||| pagePresent) ∧
      ∀ x, InPage m f x → m'.ram x = ram x := by
  obtain ⟨f, rfl, hlt, hfree, hinv, hentry, hforeign, hext, hused⟩ :=
    h.extends_allocPage halloc hram
  have hs' := hs.extends hext fun _ hroot => hroot
  have hpc : f < pmm.pageCount := lt_of_lt_of_eq hlt hext.pageCount.symm
  have hmaps := hinv.vmmMapPage hs' hvirt hpc hflags hmap
  refine ⟨f, rfl, ⟨hlt, hfree, hmaps.ext.foreign hforeign, hmaps.inv, hext.trans hmaps.ext, ?_, ?_⟩,
    fun x hx => hmaps.ext.frame hforeign hx⟩
  · intro b hb
    rcases hmaps.taken hb with hb | hb
    · exact (hused hb).symm.imp_right Or.inl
    · exact .inr (.inr hb)
  · intro s' k' hk'
    rw [hmaps.entry hk', pageEntry_congr hentry hk']

end Mapping

/-- From `m` to `m'` the pages of a space from `k` on were mapped to new frames. -/
structure MapsRange (m m' : Mm) (L : HeapMap) (roots : List ℕ) (s k : ℕ) (fs : List ℕ)
    (flags : ℕ) : Prop where
  nodup : fs.Nodup
  new : ∀ f ∈ fs, f < m.pmm.pageCount ∧ m.pmm.used f = false ∧ Foreign m' L roots f
  inv : MmInv m' L roots
  ext : Extends m m' L L roots roots
  taken : ∀ {b}, m'.pmm.used b = true → m.pmm.used b = true ∨ b ∈ fs ∨ IsTable m' roots b
  entry : ∀ {s' k'}, k' < userPages → m'.pageEntry roots s' k' =
    if s' = s ∧ k ≤ k' then
      (fs[k' - k]?.map fun f => f * pageSize + flags).or (m.pageEntry roots s' k')
    else m.pageEntry roots s' k'

namespace MapsRange

variable {m m' m'' : Mm} {L : HeapMap} {roots fs : List ℕ} {s k f flags : ℕ}

lemma nil (h : MmInv m L roots) : MapsRange m m L roots s k [] flags where
  nodup := nodup_nil
  new := by simp
  inv := h
  ext := .refl m L roots
  taken := .inl
  entry := by simp

lemma snoc (h : MapsRange m m' L roots s k fs flags)
    (hf : MapsFrame m' m'' L roots s (k + fs.length) f flags) :
    MapsRange m m'' L roots s k (fs ++ [f]) flags where
  nodup := by
    refine nodup_append.2 ⟨h.nodup, nodup_singleton f, ?_⟩
    rintro g hg _ hg' rfl
    obtain rfl := mem_singleton.1 hg'
    -- the frames mapped before are in use
    exact Bool.eq_false_iff.1 hf.free (h.new g hg).2.2.used
  new := by
    intro g hg
    rcases mem_append.1 hg with hg | hg
    · obtain ⟨hlt, hfree, hforeign⟩ := h.new g hg
      exact ⟨hlt, hfree, hf.ext.foreign hforeign⟩
    · obtain rfl := mem_singleton.1 hg
      exact ⟨h.ext.pageCount ▸ hf.lt, h.ext.free hf.free, hf.foreign⟩
  inv := hf.inv
  ext := h.ext.trans hf.ext
  taken := by
    intro b hb
    rcases hf.taken hb with hb | rfl | hb
    · rcases h.taken hb with hb | hb | hb
      · exact .inl hb
      · exact .inr (.inl (mem_append_left _ hb))
      · exact .inr (.inr (hf.ext.table hb))
    · exact .inr (.inl (by simp))
    · exact .inr (.inr hb)
  entry := by
    intro s' k' hk'
    rw [hf.entry hk', h.entry hk']
    by_cases hs : s' = s ∧ k ≤ k'
    · obtain ⟨rfl, hle⟩ := hs
      simp only [hle, true_and, if_true]
      rcases Nat.lt_trichotomy k' (k + fs.length) with hlt | rfl | hgt
      · rw [if_neg (Nat.ne_of_lt hlt), getElem?_append_left (by omega)]
      · rw [if_pos rfl, Nat.add_sub_cancel_left, getElem?_concat_length]
        rfl
      · rw [if_neg (Nat.ne_of_gt hgt), getElem?_eq_none (by omega),
          getElem?_eq_none (by simp; omega)]
    · have hne : ¬(s' = s ∧ k' = k + fs.length) := fun hk => hs ⟨hk.1, by omega⟩
      rw [if_neg hs, if_neg hs, if_neg hne]

end MapsRange

end CobjOs
