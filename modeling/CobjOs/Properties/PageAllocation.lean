import CobjOs.Memory.PmmSpec

/-!
# The page search and the boot bitmap

Statements about single calls of `pmm.c`, for every bitmap and every memory map.

A search panics exactly when what it asks for is not there, and one for several pages takes the
lowest run.  The turns of `pmm_alloc_page` go through the words from the last one used, and reach
each of them only while that sum does not wrap.

The bitmap `pmm_init` leaves has a clear bit exactly for the pages that lie whole in a usable entry
and do not meet the kernel, the bitmap or the archive.  `ALIGN_UP` wraps to zero in the last page of
the address space, so memory maps with an entry that begins there and bitmaps that end there are
left out.  `page_count` comes from the usable entries alone; if the kernel or the archive is above
them, `pmm_init` panics.  The memory map is taken not to lie in a usable entry.
-/

namespace CobjOs

open Option

namespace Pmm

/-! ## Searching -/

/-- The `n` pages from `page` on are free and below `page_count`. -/
def FreeRun (m : Pmm) (n page : ℕ) : Prop :=
  page + n ≤ m.pageCount ∧ ∀ b, InRun page n b → m.used b = false

lemma not_freeRun_iff {m : Pmm} {n page : ℕ} (hle : page + n ≤ m.pageCount) :
    ¬m.FreeRun n page ↔ ∃ b, InRun page n b ∧ m.used b = true := by
  simp [FreeRun, hle]

/-- Allocation is complete.  The page addresses fit in 64 bits, and the number of the last word
used plus the number of words does too. -/
theorem page_searches_miss_nothing {m : Pmm} (hm : m.Addressable)
    (hlast : m.lastAllocWord + (m.pageCount + 63) / 64 ≤ 2 ^ 64) :
    (m.allocPage = none ↔ ∀ b < m.pageCount, m.used b = true) ∧
    ∀ n, 2 ≤ n →
      (m.allocPages n = none ↔ ∀ page, ¬m.FreeRun n page) ∧
      ∀ m' addr, m.allocPages n = some (m', addr) →
        ∃ page, addr = page * pageSize ∧ m.FreeRun n page ∧ (∀ p < page, ¬m.FreeRun n p) ∧
          m'.pageCount = m.pageCount ∧
          ∀ b, m'.used b = (decide (InRun page n b) || m.used b) := by
  have hcount : m.pageCount + 63 < 2 ^ 64 := by
    have hsize : pageSize = 4096 := rfl
    rw [Addressable, hsize] at hm
    omega
  refine ⟨allocPage_eq_none hcount hlast, fun n hn => ?_⟩
  obtain ⟨hnone, hleast⟩ := allocPages_least (m := m) hn
  refine ⟨hnone.trans ⟨fun h page hfree => ?_, fun h page hle => ?_⟩, fun m' addr h => ?_⟩
  · exact (not_freeRun_iff hfree.1).2 (h page hfree.1) hfree
  · exact (not_freeRun_iff hle).1 (h page)
  · obtain ⟨page, rfl, hfree, hpc, hbits⟩ := allocPages_spec h
    have hlastPage := (hfree (page + n - 1) ⟨by omega, by omega⟩).1
    refine ⟨page, rfl, ⟨by omega, fun b hb => (hfree b hb).2⟩, fun p hp => ?_, hpc, hbits⟩
    exact (not_freeRun_iff (by omega)).2 (hleast m' page h p hp)

/-- 130 pages in three words, of which the first 66 and page 68 are used: the search for three
pages passes the gap at page 66. -/
def gapPmm : Pmm where
  bitmap := fun w => if w = 0 then BitVec.allOnes 64 else if w = 1 then 0b10011#64 else 0#64
  pageCount := 130
  lastAllocWord := 2

theorem page_searches_miss_nothing_gap :
    ∃ m' page, gapPmm.allocPages 3 = some (m', page * pageSize) ∧ page = 69 ∧
      (∀ p < page, ¬gapPmm.FreeRun 3 p) ∧ gapPmm.allocPage ≠ none := by
  have hall := page_searches_miss_nothing (m := gapPmm) (by unfold Addressable; decide +kernel)
    (by decide +kernel)
  obtain ⟨⟨m', addr⟩, h⟩ : ∃ r, gapPmm.allocPages 3 = some r :=
    isSome_iff_exists.1 (by decide +kernel)
  have haddr : (gapPmm.allocPages 3).any (fun r => r.2 == 69 * pageSize) = true := by
    decide +kernel
  rw [h, any_some, beq_iff_eq] at haddr
  obtain ⟨page, hpage, -, hleast, -⟩ := (hall.2 3 (by decide)).2 m' addr h
  refine ⟨m', page, hpage ▸ h, ?_, hleast, fun hnone => ?_⟩
  · exact Nat.eq_of_mul_eq_mul_right (by decide) (hpage.symm.trans haddr)
  · exact absurd (hall.1.1 hnone 129 (by decide)) (by decide +kernel)

/-- With the last word number at the end of the range, the sum wraps after the first turn.  The
three turns then go to words 0, 0 and 1, and the free pages of word 2 are not found. -/
theorem wrapped_search_misses_page :
    ∃ m : Pmm, m.Addressable ∧ m.lastAllocWord < 2 ^ 64 ∧ m.allocPage = none ∧
      128 < m.pageCount ∧ m.used 128 = false := by
  refine ⟨⟨fun w => if w < 2 then BitVec.allOnes 64 else 0#64, 192, 2 ^ 64 - 1⟩, ?_, by decide,
    ?_, by decide, by decide +kernel⟩
  · unfold Addressable
    decide +kernel
  · exact isNone_iff_eq_none.1 (by decide +kernel)

/-! ## The boot bitmap -/

/-- The page lies whole in a usable entry. -/
def InUsable (mmap : List MemmapEntry) (b : ℕ) : Prop :=
  ∃ e ∈ mmap, e.type = memmapUsable ∧ e.base ≤ b * pageSize ∧
    (b + 1) * pageSize ≤ e.base + e.length

/-- The bitmap is put in a usable entry that is large enough. -/
lemma bitmapRoom_spec {mmap : List MemmapEntry} {room : MemmapEntry}
    (h : bitmapRoom mmap = some room) :
    room ∈ mmap ∧ room.type = memmapUsable ∧ bitmapSize mmap ≤ room.length := by
  have hmem := List.mem_filter.1 (List.mem_of_find?_eq_some h)
  have hfits := List.find?_some h
  exact ⟨hmem.1, of_decide_eq_true hmem.2, of_decide_eq_true hfits⟩

/-- After `pmm_init`, with entries that do not wrap, non-empty kernel and archive ranges below the
highest usable page, no usable entry that begins inside the last page of the address space and a
bitmap that does not reach into it:

* a bit below `page_count` is clear exactly for the pages that lie whole in a usable entry and
  meet none of the three ranges;
* the bits of the last word from `page_count` on are set;
* the bitmap lies in a usable entry. -/
theorem boot_bitmap_marks_the_memory_map {mmap : List MemmapEntry}
    {kernelPhysBase kernelSize initrdAddr initrdSize : ℕ} {m : Pmm}
    (hwrap : ∀ e ∈ mmap, e.base + e.length < 2 ^ 64)
    (hkernel : 0 < kernelSize)
    (hkernelEnd : kernelPhysBase + kernelSize ≤ highestUsable mmap / pageSize * pageSize)
    (hinitrd : 0 < initrdSize)
    (hinitrdEnd : initrdAddr + initrdSize ≤ highestUsable mmap / pageSize * pageSize)
    (hbase : ∀ e ∈ mmap, e.type = memmapUsable → e.base ≤ 2 ^ 64 - pageSize)
    (hroomEnd : ∀ room, bitmapRoom mmap = some room →
      room.base + bitmapSize mmap ≤ 2 ^ 64 - pageSize)
    (hinit : init mmap kernelPhysBase kernelSize initrdAddr initrdSize = some m) :
    m.pageCount = highestUsable mmap / pageSize ∧
    ∃ room, bitmapRoom mmap = some room ∧
      (∀ b < m.pageCount, m.used b = false ↔
        InUsable mmap b ∧ ¬Meets kernelPhysBase kernelSize b ∧
          ¬Meets room.base (bitmapSize mmap) b ∧ ¬Meets initrdAddr initrdSize b) ∧
      (∀ b, m.pageCount ≤ b → b < (m.pageCount + 63) / 64 * 64 → m.used b = true) ∧
      room ∈ mmap ∧ room.type = memmapUsable ∧ bitmapSize mmap ≤ room.length := by
  have hsize : pageSize = 4096 := rfl
  obtain ⟨hpc, room, hroom, hbits⟩ := init_bits hinit
  have hhigh : highestUsable mmap / pageSize * pageSize ≤ 2 ^ 64 - pageSize := by
    have hlt : highestUsable mmap < 2 ^ 64 := highestUsable_lt mmap
    rw [hsize]
    omega
  have husable : ∀ b, (mmap.any fun e => e.usablePage b) = true ↔ InUsable mmap b := by
    intro b
    rw [List.any_eq_true]
    refine exists_congr fun e => and_congr_right fun he => ?_
    by_cases hus : e.type = memmapUsable
    · exact usablePage_iff (hwrap e he) (hbase e he hus)
    · simp [MemmapEntry.usablePage, hus]
  refine ⟨hpc, room, hroom, fun b hb => ?_, fun b hb _ => ?_, bitmapRoom_spec hroom⟩
  · have hpos : 0 < bitmapSize mmap := by
      rw [bitmapSize, ← hpc]
      omega
    rw [hbits, Bool.or_eq_false_iff, Bool.or_eq_false_iff, Bool.or_eq_false_iff,
      Bool.not_eq_false', husable, ← Bool.not_eq_true, ← Bool.not_eq_true, ← Bool.not_eq_true,
      outerPage_iff hinitrd (Nat.le_trans hinitrdEnd hhigh),
      outerPage_iff hpos (hroomEnd room hroom),
      outerPage_kernel_iff hkernel (Nat.le_trans hkernelEnd hhigh)]
    tauto
  · -- a page in a usable entry ends below the highest usable address
    have hno : (mmap.any fun e => e.usablePage b) = false := by
      rw [← Bool.not_eq_true, husable]
      rintro ⟨e, he, hus, -, hend⟩
      have hle := le_highestUsable he hus
      rw [u64, Nat.mod_eq_of_lt (hwrap e he)] at hle
      rw [hpc, hsize] at hb
      rw [hsize] at hend
      omega
    rw [hbits, hno]
    simp

/-- Eight pages: the bitmap is put at page 1, the kernel and the archive take pages 2 and 3, and
page 0 and page 8 are not usable. -/
theorem boot_bitmap_marks_the_memory_map_small : ∃ m,
    init [⟨0x1000, 0x7000, 0⟩, ⟨0x8000, 0x1000, 1⟩] 0x2000 0x1000 0x3000 0x800 = some m ∧
    m.pageCount = 8 ∧ (∀ b, 8 ≤ b → b < 64 → m.used b = true) ∧ m.used 4 = false ∧
    InUsable [⟨0x1000, 0x7000, 0⟩, ⟨0x8000, 0x1000, 1⟩] 4 ∧ ¬Meets 0x3000 0x800 4 := by
  obtain ⟨m, hinit⟩ : ∃ m, init [⟨0x1000, 0x7000, 0⟩, ⟨0x8000, 0x1000, 1⟩] 0x2000 0x1000
      0x3000 0x800 = some m := isSome_iff_exists.1 (by decide +kernel)
  have hfour : (init [⟨0x1000, 0x7000, 0⟩, ⟨0x8000, 0x1000, 1⟩] 0x2000 0x1000 0x3000 0x800).any
      (fun m => !m.used 4) = true := by decide +kernel
  rw [hinit, any_some, Bool.not_eq_true'] at hfour
  have hroom : bitmapRoom [⟨0x1000, 0x7000, 0⟩, ⟨0x8000, 0x1000, 1⟩] =
      some ⟨0x1000, 0x7000, 0⟩ := by decide +kernel
  obtain ⟨hpc, room, -, hbits, hbeyond, -⟩ := boot_bitmap_marks_the_memory_map (by decide)
    (by decide) (by decide +kernel) (by decide) (by decide +kernel) (by decide)
    (fun room h => by
      obtain rfl := mem_unique hroom h
      decide +kernel) hinit
  have hcount : m.pageCount = 8 := hpc.trans (by decide +kernel)
  rw [hcount] at hbits hbeyond
  obtain ⟨hin, -, -, harchive⟩ := (hbits 4 (by decide)).1 hfour
  exact ⟨m, hinit, hcount, hbeyond, hfour, hin, harchive⟩

/-- A usable entry of 50 bytes in the last page, beside a large one.  Its start is rounded up to
zero, so that every page below is freed: page `2 ^ 40` has a clear bit and lies in no entry. -/
theorem boot_bitmap_wraps_to_zero : ∃ m,
    init [⟨0, 2 ^ 50, 0⟩, ⟨2 ^ 64 - 100, 50, 0⟩] 0x1000 1 0x2000 1 = some m ∧
    0x2000 + 1 ≤ highestUsable [⟨0, 2 ^ 50, 0⟩, ⟨2 ^ 64 - 100, 50, 0⟩] / pageSize * pageSize ∧
    2 ^ 40 < m.pageCount ∧ m.used (2 ^ 40) = false ∧
    ¬InUsable [⟨0, 2 ^ 50, 0⟩, ⟨2 ^ 64 - 100, 50, 0⟩] (2 ^ 40) := by
  have hroom : bitmapRoom [⟨0, 2 ^ 50, 0⟩, ⟨2 ^ 64 - 100, 50, 0⟩] = some ⟨0, 2 ^ 50, 0⟩ := by
    decide +kernel
  obtain ⟨m, hinit⟩ : ∃ m, init [⟨0, 2 ^ 50, 0⟩, ⟨2 ^ 64 - 100, 50, 0⟩] 0x1000 1 0x2000 1 =
      some m :=
    init_isSome hroom (by decide +kernel) (by decide +kernel) (by decide +kernel)
  obtain ⟨hpc, room, hroom', hbits⟩ := init_bits hinit
  obtain rfl := mem_unique hroom hroom'
  refine ⟨m, hinit, by decide +kernel, ?_, ?_, ?_⟩
  · rw [hpc]
    decide +kernel
  · rw [hbits]
    decide +kernel
  · have hsize : pageSize = 4096 := rfl
    simp only [InUsable, List.mem_cons, List.not_mem_nil, or_false, exists_eq_or_imp,
      exists_eq_left, hsize]
    omega

/-! ## Booting without a panic -/

/-- `LIMINE_MEMMAP_EXECUTABLE_AND_MODULES`. -/
def memmapExecutableAndModules : ℕ := 6

/-- The range lies in an entry for the kernel and the modules. -/
def InImageEntry (mmap : List MemmapEntry) (base length : ℕ) : Prop :=
  ∃ e ∈ mmap, e.type = memmapExecutableAndModules ∧ e.base ≤ base ∧
    base + length ≤ e.base + e.length

/-- A memory map as the boot loader hands it over, with the places of the kernel and of the
archive. -/
structure LegalMap (mmap : List MemmapEntry)
    (kernelPhysBase kernelSize initrdAddr initrdSize : ℕ) : Prop where
  aligned : ∀ e ∈ mmap, pageSize ∣ e.base ∧ pageSize ∣ e.length
  addressable : ∀ e ∈ mmap, e.base + e.length ≤ 2 ^ 64
  apart : mmap.Pairwise fun e f => e.base + e.length ≤ f.base ∨ f.base + f.length ≤ e.base
  room : ∃ e ∈ mmap, e.type = memmapUsable ∧ bitmapSize mmap ≤ e.length
  kernel : InImageEntry mmap kernelPhysBase kernelSize
  initrd : InImageEntry mmap initrdAddr initrdSize

/-- The range ends at or below the end of a usable entry. -/
def BelowUsable (mmap : List MemmapEntry) (base length : ℕ) : Prop :=
  ∃ e ∈ mmap, e.type = memmapUsable ∧ base + length ≤ e.base + e.length

section Legal

variable {mmap : List MemmapEntry} {kernelPhysBase kernelSize initrdAddr initrdSize x : ℕ}
  {e : MemmapEntry}

lemma alignUp_le {x n : ℕ} (hx : x ≤ n) (hn : pageSize ∣ n) (hlt : n < 2 ^ 64) :
    alignUp x ≤ n := by
  obtain ⟨k, rfl⟩ := hn
  have hsize : pageSize = 4096 := rfl
  rw [alignUp, u64, hsize]
  rw [hsize] at hx hlt
  omega

/-- An address up to the end of an aligned usable entry is, rounded up, in range. -/
lemma alignUp_le_highest (he : e ∈ mmap) (hus : e.type = memmapUsable)
    (hal : pageSize ∣ e.base ∧ pageSize ∣ e.length) (hend : e.base + e.length < 2 ^ 64)
    (hx : x ≤ e.base + e.length) :
    alignUp (u64 x) ≤ highestUsable mmap / pageSize * pageSize := by
  have hdvd : pageSize ∣ e.base + e.length := Nat.dvd_add hal.1 hal.2
  have hle := le_highestUsable he hus
  rw [u64, Nat.mod_eq_of_lt hend] at hle
  calc alignUp (u64 x) ≤ e.base + e.length :=
        alignUp_le (Nat.le_trans (Nat.mod_le _ _) hx) hdvd hend
    _ = (e.base + e.length) / pageSize * pageSize := (Nat.div_mul_cancel hdvd).symm
    _ ≤ highestUsable mmap / pageSize * pageSize :=
        Nat.mul_le_mul_right _ (Nat.div_le_div_right hle)

end Legal

end Pmm

end CobjOs
