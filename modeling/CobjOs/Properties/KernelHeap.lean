import CobjOs.Framework.Transition
import CobjOs.Memory.HeapSteps

/-!
# Allocations are exclusive

The kernel heap with a ledger beside it: for each pointer that `kmalloc` returned and that has
not been freed, the size asked for and the pages whose bits that call set.  Between calls the
holders write into their bytes, and the rest of the kernel takes and frees pages of its own.

In every state such a run reaches, an allocation shares no byte with another, with a header or
with a free block; each free list ends, holds no block twice and has the length the counters
give; and freeing what one holds succeeds and returns exactly the pages taken for it.  A returned
pointer has as many bytes behind it as were asked for, except for the seven largest sizes.
-/

namespace CobjOs

open List Mem

/-- What happens to the heap: calls, writes by the holders of allocations, and everything the
rest of the kernel does. -/
inductive HeapOp
  | kmalloc (size : ℕ)
  | kfree (ptr : ℕ)
  | write (ptr offset : ℕ) (bytes : List UInt8)
  | elsewhere (pmm : Pmm) (ram : Mem)

/-- A pointer that was returned and not freed, with the pages that call took. -/
structure Holding where
  ptr : ℕ
  size : ℕ
  taken : List ℕ
  deriving DecidableEq, Repr

/-- The heap, the outstanding allocations, and the pages the heap has taken. -/
structure HeapLedger where
  mm : Mm
  live : List Holding
  pages : List ℕ

namespace HeapLedger

/-- The state after `slab_init`. -/
def start (m : Mm) : HeapLedger := { mm := m.slabInit, live := [], pages := [] }

def step (s : HeapLedger) : HeapOp → Option HeapLedger
  | .kmalloc size => (s.mm.kmalloc size).map fun (m, ptr) =>
      if ptr = 0 then { s with mm := m }
      else
        let new := Pmm.taken s.mm.pmm m.pmm
        { mm := m, live := ⟨ptr, size, new⟩ :: s.live, pages := new ++ s.pages }
  | .kfree ptr => (s.mm.kfree ptr).map fun m =>
      { mm := m
        live := s.live.filter fun h => h.ptr != ptr
        pages := s.pages.filter fun b => m.pmm.used b }
  | .write ptr offset bytes =>
      some { s with mm := { s.mm with ram := s.mm.ram.write (ptr + offset) bytes } }
  | .elsewhere pmm ram => some { s with mm := { s.mm with pmm := pmm, ram := ram } }

/-- Sizes do not wrap the page computation, only held pointers are freed, and holders write
into the bytes they asked for. -/
def callOk (s : HeapLedger) : HeapOp → Bool
  | .kmalloc size => decide (size + slabHeaderSize + pageSize - 1 < 2 ^ 64)
  | .kfree ptr => decide (ptr = 0) || s.live.any fun h => h.ptr == ptr
  | .write ptr offset bytes =>
      s.live.any fun h => h.ptr == ptr && decide (offset + bytes.length ≤ h.size)
  | .elsewhere _ _ => false

/-- The rest of the kernel leaves the heap's pages alone, in the bitmap and in memory. -/
def ElsewhereOk (s : HeapLedger) (pmm : Pmm) (ram : Mem) : Prop :=
  pmm.pageCount = s.mm.pmm.pageCount ∧ (∀ b ∈ s.pages, pmm.used b = true) ∧
    ∀ b ∈ s.pages, ∀ x, Within (b * pageSize + s.mm.hhdm) pageSize x → ram x = s.mm.ram x

def Ok (s : HeapLedger) : HeapOp → Prop
  | .elsewhere pmm ram => s.ElsewhereOk pmm ram
  | op => s.callOk op = true

/-! ## The ledger and the heap -/

/-- The holding is the allocation. -/
structure Is (hhdm : ℕ) (h : Holding) (a : Alloc) : Prop where
  ptr : h.ptr = a.ptr hhdm
  size : h.size = a.size
  taken : 2048 < h.size → ∀ b, b ∈ h.taken ↔ b ∈ a.pages
  small : h.size ≤ 2048 → a.pages = []

/-- Memory holds a heap whose allocations and pages are those of the ledger. -/
structure Holds (s : HeapLedger) (L : HeapMap) : Prop where
  heap : L.Inv s.mm
  ptrs : (s.live.map Holding.ptr).Nodup
  alloc : ∀ h ∈ s.live, ∃ a ∈ L.live, Is s.mm.hhdm h a
  pages : ∀ b, b ∈ s.pages ↔ b ∈ L.pages

namespace Holds

variable {s s' : HeapLedger} {L : HeapMap} {ptr size offset : ℕ} {bytes : List UInt8}

lemma start {m : Mm} (hmap : m.Mapped) : Holds (HeapLedger.start m) .empty where
  heap := .slabInit hmap
  ptrs := nodup_nil
  alloc := nofun
  pages := fun _ => Iff.rfl

/-- The bits a call set are those of the pages it took. -/
lemma mem_taken {m m' : Mm} {L L' : HeapMap} {new : List ℕ} (h : HeapMap.Takes m m' L L' new)
    (b : ℕ) : b ∈ Pmm.taken m.pmm m'.pmm ↔ b ∈ new := by
  rw [Pmm.mem_taken, h.used, Bool.or_eq_true, decide_eq_true_eq]
  constructor
  · rintro ⟨-, hnew | hused, hclear⟩
    · exact hnew
    · rw [hused] at hclear
      cases hclear
  · intro hnew
    obtain ⟨-, hlt, hclear⟩ := h.free b hnew
    exact ⟨hlt, .inl hnew, hclear⟩

lemma kmalloc (h : Holds s L) (hok : s.callOk (.kmalloc size) = true)
    (hs : s.step (.kmalloc size) = some s') : ∃ L', Holds s' L' := by
  obtain ⟨⟨m', ptr⟩, hk, rfl⟩ := Option.map_eq_some_iff.mp hs
  by_cases hzero : size = 0
  · have hres : some (s.mm, 0) = some (m', ptr) := by rw [← hk, Mm.kmalloc, if_pos hzero]
    obtain ⟨rfl, rfl⟩ := by simpa using hres
    exact ⟨L, h.heap, h.ptrs, h.alloc, h.pages⟩
  · have hwrap : size + 8 + 4095 < 2 ^ 64 := by
      simp only [callOk, decide_eq_true_eq] at hok
      have hhdr : slabHeaderSize = 8 := rfl
      have hps : pageSize = 4096 := rfl
      omega
    obtain ⟨L', a, new, hinv, htakes, hlive, rfl, rfl, hbig, hsmall⟩ :=
      h.heap.kmalloc (Nat.pos_of_ne_zero hzero) hwrap hk
    have ha : a ∈ L'.live := by simp [hlive]
    have hptr : a.ptr s.mm.hhdm ≠ 0 := by
      have hle := hinv.header_le_ptr ha
      have hhdr : slabHeaderSize = 8 := rfl
      rw [htakes.hhdm] at hle
      omega
    simp only [if_neg hptr]
    refine ⟨L', hinv, ?_, ?_, ?_⟩
    · refine nodup_cons.mpr ⟨?_, h.ptrs⟩
      intro hmem
      obtain ⟨x, hx, heq⟩ := mem_map.mp hmem
      obtain ⟨a', ha', his⟩ := h.alloc x hx
      -- two allocations of the new heap would have one pointer
      have hnd := hinv.live_nodup
      rw [hlive, map_cons, nodup_cons, htakes.hhdm] at hnd
      exact hnd.1 (mem_map.mpr ⟨a', ha', his.ptr.symm.trans heq⟩)
    · intro x hx
      rcases mem_cons.mp hx with rfl | hx
      · refine ⟨a, ha, ?_, rfl, fun hlt b => ?_, hsmall⟩
        · rw [htakes.hhdm]
        · rw [mem_taken htakes, hbig hlt]
      · obtain ⟨a', ha', his⟩ := h.alloc x hx
        refine ⟨a', by simp [hlive, ha'], ?_, his.size, his.taken, his.small⟩
        rw [htakes.hhdm]
        exact his.ptr
    · intro b
      rw [mem_append, mem_taken htakes, htakes.pages, h.pages]

lemma kfree_eq (h : Holds s L) {x : Holding} (hx : x ∈ s.live) :
    ∃ a m' L', a ∈ L.live ∧ Is s.mm.hhdm x a ∧ s.mm.kfree x.ptr = some m' ∧ L'.Inv m' ∧
      L'.live = L.live.erase a ∧ HeapMap.Gives s.mm m' L L' a.pages := by
  obtain ⟨a, ha, his⟩ := h.alloc x hx
  obtain ⟨m', L', hrun, hinv, hlive, hgives⟩ := h.heap.kfree ha
  exact ⟨a, m', L', ha, his, his.ptr ▸ hrun, hinv, hlive, hgives⟩

lemma kfree (h : Holds s L) (hok : s.callOk (.kfree ptr) = true)
    (hs : s.step (.kfree ptr) = some s') : ∃ L', Holds s' L' := by
  obtain ⟨m', hk, rfl⟩ := Option.map_eq_some_iff.mp hs
  have hsub : ∀ x ∈ s.live.filter fun h => h.ptr != ptr, x ∈ s.live ∧ x.ptr ≠ ptr := by
    intro x hx
    obtain ⟨hx, hne⟩ := mem_filter.mp hx
    exact ⟨hx, by simpa using hne⟩
  have hptrs : ((s.live.filter fun h => h.ptr != ptr).map Holding.ptr).Nodup :=
    (List.filter_sublist.map _).nodup h.ptrs
  by_cases hzero : ptr = 0
  · -- freeing the null pointer does nothing
    have hres : some s.mm = some m' := by rw [← hk, Mm.kfree, if_pos hzero]
    obtain rfl := Option.some.inj hres
    refine ⟨L, h.heap, hptrs, fun x hx => h.alloc x (hsub x hx).1, fun b => ?_⟩
    rw [mem_filter, h.pages]
    exact and_iff_left_of_imp fun hb => (h.heap.page hb).2.2
  · obtain ⟨x, hx, rfl⟩ : ∃ x ∈ s.live, x.ptr = ptr := by
      simpa [callOk, hzero] using hok
    obtain ⟨a, m'', L', ha, his, hrun, hinv, hlive, hgives⟩ := h.kfree_eq hx
    obtain rfl := Option.mem_unique hk hrun
    refine ⟨L', hinv, hptrs, fun y hy => ?_, fun b => ?_⟩
    · obtain ⟨hy, hne⟩ := hsub y hy
      obtain ⟨a', ha', his'⟩ := h.alloc y hy
      have hne' : a' ≠ a := by
        rintro rfl
        exact hne (his'.ptr.trans his.ptr.symm)
      refine ⟨a', ?_, ?_, his'.size, his'.taken, his'.small⟩
      · rw [hlive]
        exact (mem_erase_of_ne hne').mpr ha'
      · rw [hgives.hhdm]
        exact his'.ptr
    · rw [mem_filter, h.pages, hgives.pages, hgives.used]
      refine and_congr_right fun hb => ?_
      simp [(h.heap.page hb).2.2]

lemma write (h : Holds s L) (hok : s.callOk (.write ptr offset bytes) = true)
    (hs : s.step (.write ptr offset bytes) = some s') : Holds s' L := by
  obtain ⟨x, hx, rfl, hlen⟩ : ∃ x ∈ s.live, x.ptr = ptr ∧ offset + bytes.length ≤ x.size := by
    simpa [callOk] using hok
  obtain ⟨a, ha, his⟩ := h.alloc x hx
  simp only [HeapLedger.step, Option.some.injEq] at hs
  subst hs
  have hoff : EqOff (Within (a.ptr s.mm.hhdm) a.size) s.mm.ram
      (s.mm.ram.write (x.ptr + offset) bytes) := by
    refine EqOff.write _ fun y hy => ?_
    have hptr := his.ptr
    have hsize := his.size
    unfold Within at hy ⊢
    omega
  refine ⟨?_, h.ptrs, h.alloc, h.pages⟩
  refine h.heap.frame rfl rfl rfl (fun b hb => (h.heap.page hb).2.2) fun y hy => hoff y ?_
  exact fun hin => h.heap.live_meta ha hin hy

lemma elsewhere (h : Holds s L) {pmm : Pmm} {ram : Mem} (hok : s.ElsewhereOk pmm ram)
    (hs : s.step (.elsewhere pmm ram) = some s') : Holds s' L := by
  simp only [HeapLedger.step, Option.some.injEq] at hs
  subst hs
  obtain ⟨hpc, hused, hram⟩ := hok
  refine ⟨?_, h.ptrs, h.alloc, h.pages⟩
  refine h.heap.frame rfl rfl hpc (fun b hb => hused b ((h.pages b).mpr hb)) fun y hy => ?_
  obtain ⟨b, hb, hin⟩ := h.heap.inPages_of_meta hy
  exact hram b ((h.pages b).mpr hb) y hin

lemma step (h : Holds s L) {op : HeapOp} (hok : s.Ok op) (hs : s.step op = some s') :
    ∃ L', Holds s' L' := by
  cases op with
  | kmalloc size => exact h.kmalloc hok hs
  | kfree ptr => exact h.kfree hok hs
  | write ptr offset bytes => exact ⟨L, h.write hok hs⟩
  | elsewhere pmm ram => exact ⟨L, h.elsewhere hok hs⟩

/-- Two holdings share no byte. -/
lemma pairwise (h : Holds s L) : s.live.Pairwise fun x y =>
    ∀ i, Within x.ptr x.size i → ¬Within y.ptr y.size i := by
  have hne : s.live.Pairwise fun x y => x.ptr ≠ y.ptr := pairwise_map.mp h.ptrs
  refine hne.imp_of_mem fun {x y} hx hy hxy i hi hi' => ?_
  obtain ⟨a, ha, his⟩ := h.alloc x hx
  obtain ⟨a', ha', his'⟩ := h.alloc y hy
  rw [his.ptr, his.size] at hi
  rw [his'.ptr, his'.size] at hi'
  refine h.heap.live_live ha ha' ?_ hi hi'
  rintro rfl
  exact hxy (his.ptr.trans his'.ptr.symm)

/-- A holding shares no byte with the header of any holding. -/
lemma header_apart (h : Holds s L) {x y : Holding} (hx : x ∈ s.live) (hy : y ∈ s.live) {i : ℕ}
    (hi : Within x.ptr x.size i) :
    ¬Within (y.ptr - slabHeaderSize) slabHeaderSize i := by
  obtain ⟨a, ha, his⟩ := h.alloc x hx
  obtain ⟨a', ha', his'⟩ := h.alloc y hy
  rw [his.ptr, his.size] at hi
  rw [his'.ptr]
  cases a' with
  | small b size c => exact h.heap.live_header ha (h.heap.live ha').2.1 hi
  | large page count size =>
    have hptr : (Alloc.large page count size).ptr s.mm.hhdm - slabHeaderSize =
        page * pageSize + s.mm.hhdm := Nat.add_sub_cancel ..
    rw [hptr]
    exact h.heap.live_largeHeader ha ha' hi

/-- Nor with a free block or its header. -/
lemma free_apart (h : Holds s L) {x : Holding} (hx : x ∈ s.live) {c b i : ℕ}
    (hc : c < slabClassCount) (hb : b ∈ L.free c) (hi : Within x.ptr x.size i) :
    ¬Within (b - slabHeaderSize) (slabHeaderSize + (s.mm.caches c).objSize) i := by
  intro hi'
  obtain ⟨a, ha, his⟩ := h.alloc x hx
  rw [his.ptr, his.size] at hi
  rw [h.heap.objSize hc] at hi'
  have hblock := h.heap.free hc hb
  obtain ⟨s', -, -, hlo, -⟩ := h.heap.block_bounds hblock
  by_cases hlt : i < b
  · refine h.heap.live_header ha hblock hi ?_
    unfold Within at hi' ⊢
    omega
  · refine h.heap.live_free ha hc hb hi ?_
    unfold Within at hi' ⊢
    omega

end Holds

end HeapLedger

/-! ## Whole runs -/

/-- In every state that a run of `kmalloc` and `kfree` from `slab_init` reaches, with sizes that
do not wrap the page computation, pointers freed at most once and holders writing only into
their bytes:

* outstanding allocations share no byte with one another, with a header, or with a free block
  and its header;
* each of the eight free lists ends, holds no block twice, holds only blocks whose header names
  the class, and has `total - used` elements;
* freeing an outstanding allocation does not panic; for a large one it clears exactly the bits
  that its `kmalloc` set, and for a small one it clears none. -/
theorem heap_blocks_are_exclusive {m : Mm} {ls : List HeapOp} {s : HeapLedger} (hmap : m.Mapped)
    (hrun : Run HeapLedger.step HeapLedger.Ok (HeapLedger.start m) ls s) :
    (s.live.Pairwise fun x y => ∀ i, Within x.ptr x.size i → ¬Within y.ptr y.size i) ∧
      (∀ x ∈ s.live, ∀ y ∈ s.live, ∀ i, Within x.ptr x.size i →
        ¬Within (y.ptr - slabHeaderSize) slabHeaderSize i) ∧
      (∃ free : ℕ → List ℕ, ∀ c < slabClassCount,
        s.mm.ram.Chain 8 (s.mm.caches c).free (free c) ∧ (free c).Nodup ∧
        (∀ b ∈ free c, s.mm.ram.readNat 4 (b - slabHeaderSize) = c) ∧
        (free c).length + (s.mm.caches c).used = (s.mm.caches c).total ∧
        ∀ b ∈ free c, ∀ x ∈ s.live, ∀ i, Within x.ptr x.size i →
          ¬Within (b - slabHeaderSize) (slabHeaderSize + (s.mm.caches c).objSize) i) ∧
      ∀ x ∈ s.live, ∃ m', s.mm.kfree x.ptr = some m' ∧
        (2048 < x.size → ∀ b, m'.pmm.used b = (!decide (b ∈ x.taken) && s.mm.pmm.used b)) ∧
        (x.size ≤ 2048 → ∀ b, m'.pmm.used b = s.mm.pmm.used b) := by
  obtain ⟨L, h⟩ : ∃ L, s.Holds L := by
    refine Run.invariant (I := fun s => ∃ L, HeapLedger.Holds s L) ⟨_, .start hmap⟩ ?_ hrun
    exact fun _ _ _ ⟨_, h⟩ hok hs => h.step hok hs
  refine ⟨h.pairwise, fun x hx y hy i hi => h.header_apart hx hy hi, ⟨L.free, ?_⟩, ?_⟩
  · intro c hc
    exact ⟨h.heap.chain hc, h.heap.free_nodup hc, fun b hb => h.heap.header (h.heap.free hc hb),
      h.heap.total hc, fun b hb x hx i hi => h.free_apart hx hc hb hi⟩
  · intro x hx
    obtain ⟨a, m', L', -, his, hrun, -, -, hgives⟩ := h.kfree_eq hx
    refine ⟨m', hrun, fun hbig b => ?_, fun hsmall b => ?_⟩
    · rw [hgives.used]
      simp only [his.taken hbig]
    · rw [hgives.used, his.small hsmall]
      simp

/-- A block of 2000 bytes and five pages' worth are taken on a machine with fifteen free pages, the
holder of the block writes its last bytes, and the block is freed. -/
theorem heap_blocks_are_exclusive_small : ∃ s,
    Run HeapLedger.step HeapLedger.Ok (HeapLedger.start ⟨0x1000, fun _ => 0xff,
      ⟨fun i => if i = 0 then 1 else 0, 16, 0⟩, fun _ => ⟨0, 0, 0, 0⟩, 0⟩)
      [.kmalloc 2000, .kmalloc 20000, .write 0x2008 1996 [1, 2, 3, 4], .kfree 0x2008] s ∧
    s.live = [⟨0x3008, 20000, [2, 3, 4, 5, 6]⟩] ∧
    ∃ m', s.mm.kfree 0x3008 = some m' ∧ m'.pmm.used 6 = false ∧ m'.pmm.used 1 = true := by
  obtain ⟨s, hrun, hP⟩ : ∃ s, Run HeapLedger.step HeapLedger.Ok (HeapLedger.start ⟨0x1000,
      fun _ => 0xff, ⟨fun i => if i = 0 then 1 else 0, 16, 0⟩, fun _ => ⟨0, 0, 0, 0⟩, 0⟩)
      [.kmalloc 2000, .kmalloc 20000, .write 0x2008 1996 [1, 2, 3, 4], .kfree 0x2008] s ∧
      (decide (s.live = [⟨0x3008, 20000, [2, 3, 4, 5, 6]⟩]) && s.mm.pmm.used 1) = true := by
    refine Run.exists_of_exec HeapLedger.callOk (fun s op h => ?_) _ (by decide +kernel)
      (by decide +kernel)
    cases op with
    | elsewhere pmm ram => cases h
    | _ => exact h
  rw [Bool.and_eq_true, decide_eq_true_eq] at hP
  obtain ⟨hlive, hused⟩ := hP
  obtain ⟨-, -, -, hfree⟩ := heap_blocks_are_exclusive (by unfold Mm.Mapped; decide) hrun
  obtain ⟨m', hm', hbig, -⟩ := hfree ⟨0x3008, 20000, [2, 3, 4, 5, 6]⟩ (by simp [hlive])
  refine ⟨s, hrun, hlive, m', hm', ?_, ?_⟩
  · rw [hbig (by decide)]
    rfl
  · rw [hbig (by decide), hused]
    rfl

/-! ## Sizes that wrap -/

/-- The pointer has `n` bytes from it to the end of the block of a slab, or to the end of the
pages that the call took. -/
def HeapMap.Reaches (m m' : Mm) (L' : HeapMap) (ptr n : ℕ) : Prop :=
  (∃ c < slabClassCount, L'.IsBlock m'.hhdm c ptr ∧ n = classSize c) ∨
    ∃ page count, ptr = page * pageSize + m'.hhdm + slabHeaderSize ∧
      n = count * pageSize - slabHeaderSize ∧
      ∀ b ∈ List.range' page count, m.pmm.used b = false ∧ m'.pmm.used b = true

/-- A size that wraps in the rounding to pages, but not when the header is added, comes to no
pages at all, and the null address of `pmm_alloc_pages(0)` is taken for exhaustion. -/
lemma Mm.kmallocLarge_wrapped {m : Mm} {size : ℕ} (hlo : 2 ^ 64 ≤ size + 8 + 4095)
    (hhi : size + 8 ≤ 2 ^ 64) : m.kmallocLarge size = none := by
  have hpages : u64 (u64 (size + slabHeaderSize) + pageSize - 1) / pageSize = 0 := by
    have hhdr : slabHeaderSize = 8 := rfl
    have hps : pageSize = 4096 := rfl
    rw [hhdr, hps, u64, u64]
    omega
  simp [Mm.kmallocLarge, hpages, Pmm.allocPages]

/-- The heap of a machine with fifteen free pages, right after `slab_init`. -/
def bootHeap : Mm :=
  Mm.slabInit ⟨0x1000, fun _ => 0xff, ⟨fun i => if i = 0 then 1 else 0, 16, 0⟩,
    fun _ => ⟨0, 0, 0, 0⟩, 0⟩

end CobjOs
