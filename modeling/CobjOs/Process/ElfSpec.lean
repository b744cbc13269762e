import CobjOs.Memory.Frames
import CobjOs.Process.Elf

/-!
# What the loader leaves in memory

One event of a load maps one page to a new frame with the bytes of that page of the segment
(`MmInv.elfStep`).  A load of pages that are all different leaves every one of them so
(`MmInv.elfRun`); a page that is loaded twice keeps what the later turn put there.

`elfSegments` are the segments of a file in exact arithmetic, as far as `elf_load` looks at them,
and `Phdr.byte` is what a segment has at an address.  `pageByte_eq` compares them with what the
loader copies.
-/

namespace CobjOs

open List Mem Option

variable {m m' : Mm} {L : HeapMap} {roots : List ℕ} {s space va kpage size : ℕ} {data : FileData}
  {p : Phdr}

/-! ## Bytes of a page -/

/-- What the loader puts at offset `j` of the page at `va`. -/
def Phdr.pageByte (p : Phdr) (data : FileData) (va j : ℕ) : UInt8 :=
  match p.copy va with
  | some c =>
    if c.copyOffset ≤ j ∧ j < c.copyOffset + c.copySize then
      data (u64 (c.fileOffset + (j - c.copyOffset)))
    else 0
  | none => 0

lemma Phdr.mem_pages (h : va ∈ p.pages) :
    va % pageSize = 0 ∧ alignDown p.vaddr ≤ va ∧
      va < alignDown (u64 (p.vaddr + p.memsz + 0xfff)) := by
  obtain ⟨i, hi, rfl⟩ := List.mem_map.1 h
  have hi' := mem_range.1 hi
  unfold alignDown pageSize at *
  omega

lemma Phdr.copy_le {c : FileCopy} (hva : va ∈ p.pages) (hc : p.copy va = some c) :
    c.copyOffset + c.copySize ≤ pageSize := by
  obtain ⟨-, hlo, -⟩ := Phdr.mem_pages hva
  simp only [Phdr.copy, ite_none_right_eq_some, some.injEq] at hc
  obtain ⟨-, rfl⟩ := hc
  dsimp only
  unfold alignDown at hlo
  unfold pageSize at *
  split_ifs <;> omega

lemma pageImage_eqOff {ram : Mem} (hva : va ∈ p.pages) :
    EqOff (Within kpage pageSize) ram (Mm.pageImage ram data p va kpage) := by
  have hfill : EqOff (Within kpage pageSize) ram (ram.fill kpage pageSize 0) :=
    EqOff.fill _ fun x hx => hx
  unfold Mm.pageImage
  cases hc : p.copy va with
  | none => exact hfill
  | some c =>
    have hle := Phdr.copy_le hva hc
    refine hfill.trans (EqOff.write _ fun x hx => ?_)
    simp only [FileData.bytes, length_map, length_range] at hx
    unfold Within at hx ⊢
    omega

lemma pageImage_apply {ram : Mem} {j : ℕ} (hj : j < pageSize) :
    Mm.pageImage ram data p va kpage (kpage + j) = p.pageByte data va j := by
  have hin : kpage ≤ kpage + j ∧ kpage + j < kpage + pageSize := ⟨by omega, by omega⟩
  unfold Mm.pageImage Phdr.pageByte
  cases p.copy va with
  | none => simp only [Mem.fill, if_pos hin]
  | some c =>
    simp only [Mem.write, FileData.bytes, length_map, length_range]
    have hiff : (kpage + c.copyOffset ≤ kpage + j ∧ kpage + j < kpage + c.copyOffset + c.copySize) ↔
        (c.copyOffset ≤ j ∧ j < c.copyOffset + c.copySize) := by omega
    by_cases hc : c.copyOffset ≤ j ∧ j < c.copyOffset + c.copySize
    · have hidx : kpage + j - (kpage + c.copyOffset) = j - c.copyOffset := by omega
      have hlt : j - c.copyOffset < c.copySize := by omega
      rw [if_pos (hiff.2 hc), if_pos hc, hidx, getD_eq_getElem?_getD,
        getElem?_map, getElem?_range hlt]
      rfl
    · rw [if_neg fun h => hc (hiff.1 h), if_neg hc, Mem.fill, if_pos hin]

/-! ## One event -/

lemma vmmFlags_lt (p : Phdr) : p.vmmFlags < 4096 := by
  unfold Phdr.vmmFlags
  split_ifs <;> decide

lemma vmmFlags_present (p : Phdr) : p.vmmFlags ||| pagePresent = p.vmmFlags := by
  unfold Phdr.vmmFlags
  split_ifs <;> decide

/-- The page `va` of the space is in a frame of its own with the bytes of the segment. -/
structure LoadedPage (m m' : Mm) (L : HeapMap) (roots : List ℕ) (s : ℕ) (data : FileData)
    (p : Phdr) (va : ℕ) : Prop where
  frame : ∃ f, m'.pageEntry roots s (va / pageSize) = some (f * pageSize + p.vmmFlags) ∧
    m.pmm.used f = false ∧ Foreign m' L roots f ∧
    ∀ j < pageSize, m'.ram (m'.kaddr f + j) = p.pageByte data va j

/-- A load that starts with a page: it ends if page 0 is taken, and goes on otherwise. -/
lemma Mm.elfRun_page_cases {es : List ElfEvent} {loaded : Bool}
    (hrun : Mm.elfRun data space (.page p va :: es) m = some (m', loaded)) :
    ∃ pmm phys, m.pmm.allocPage = some (pmm, phys) ∧
      ((phys = 0 ∧ m' = { m with pmm := pmm } ∧ loaded = false) ∨
        ∃ m₁, Mm.vmmMapPage { m with
            pmm := pmm, ram := pageImage m.ram data p va (phys + m.hhdm) }
          space va phys p.vmmFlags = some m₁ ∧
        Mm.elfRun data space es m₁ = some (m', loaded)) := by
  obtain ⟨⟨m₁, more⟩, hstep, hrest⟩ := bind_eq_some_iff.1 hrun
  obtain ⟨⟨pmm, phys⟩, halloc, hstep⟩ := bind_eq_some_iff.1 hstep
  refine ⟨pmm, phys, halloc, ?_⟩
  dsimp only at hstep
  split_ifs at hstep with hzero
  · obtain ⟨rfl, rfl⟩ := Prod.mk.inj (some.inj hstep)
    obtain ⟨rfl, rfl⟩ := Prod.mk.inj (some.inj hrest)
    exact .inl ⟨hzero, rfl, rfl⟩
  · obtain ⟨m₂, hmap, hm⟩ := bind_eq_some_iff.1 hstep
    obtain ⟨rfl, rfl⟩ := Prod.mk.inj (some.inj hm)
    exact .inr ⟨m₂, hmap, hrest⟩

lemma MmInv.elfStep {pmm : Pmm} {phys : ℕ} (h : MmInv m L roots)
    (hs : Recorded m L roots s space) (hva : va < 2 ^ 47) (hmem : va ∈ p.pages)
    (halloc : m.pmm.allocPage = some (pmm, phys))
    (hmap : Mm.vmmMapPage { m with pmm := pmm, ram := Mm.pageImage m.ram data p va (phys + m.hhdm) }
      space va phys p.vmmFlags = some m') :
    ∃ f, MapsFrame m m' L roots s (va / pageSize) f p.vmmFlags ∧
      ∀ j < pageSize, m'.ram (m'.kaddr f + j) = p.pageByte data va j := by
  obtain ⟨f, rfl, hmaps, hbytes⟩ :=
    h.mapFrame hs hva (vmmFlags_lt p) halloc (pageImage_eqOff hmem) hmap
  rw [vmmFlags_present] at hmaps
  refine ⟨f, hmaps, fun j hj => ?_⟩
  have hin : InPage m f (m.kaddr f + j) := ⟨Nat.le_add_right _ _, Nat.add_lt_add_left hj _⟩
  rw [Mm.kaddr, hmaps.ext.hhdm, ← Mm.kaddr, hbytes _ hin]
  exact pageImage_apply hj

/-! ## A load -/

/-- The pages among the events. -/
def elfPages (es : List ElfEvent) : List (Phdr × ℕ) := es.filterMap fun
  | .read _ _ => none
  | .page p va => some (p, va)

/-- The pages are pages of their segments in the lower half. -/
def LowPages (es : List ElfEvent) : Prop := ∀ q ∈ elfPages es, q.2 < 2 ^ 47 ∧ q.2 ∈ q.1.pages

lemma lowPages_page {es : List ElfEvent} :
    LowPages (.page p va :: es) ↔ (va < 2 ^ 47 ∧ va ∈ p.pages) ∧ LowPages es := forall_mem_cons

/-- A load of different pages: each is there afterwards, and the other pages are as before. -/
lemma MmInv.elfRun {es : List ElfEvent} (h : MmInv m L roots) (hs : Recorded m L roots s space)
    (hlow : LowPages es) (hnodup : ((elfPages es).map fun q => q.2 / pageSize).Nodup)
    (hrun : Mm.elfRun data space es m = some (m', true)) :
    MmInv m' L roots ∧ Extends m m' L L roots roots ∧
      (∀ q ∈ elfPages es, LoadedPage m m' L roots s data q.1 q.2) ∧
      ∀ s' k, k < userPages → (s' ≠ s ∨ k ∉ (elfPages es).map fun q => q.2 / pageSize) →
        m'.pageEntry roots s' k = m.pageEntry roots s' k := by
  induction es generalizing m with
  | nil =>
    obtain rfl : m = m' := congrArg Prod.fst (some.inj hrun)
    exact ⟨h, .refl m L roots, by simp [elfPages], fun _ _ _ _ => rfl⟩
  | cons e es ih =>
    cases e with
    | read off len => exact ih h hs hlow hnodup hrun
    | page p va =>
      have hpages : elfPages (.page p va :: es) = (p, va) :: elfPages es := rfl
      rw [hpages, map_cons, nodup_cons] at hnodup
      obtain ⟨⟨hva, hmem⟩, hlow⟩ := lowPages_page.1 hlow
      obtain ⟨pmm, phys, halloc, ⟨-, -, hno⟩ | ⟨m₁, hmap, hrest⟩⟩ := Mm.elfRun_page_cases hrun
      · cases hno
      obtain ⟨f, hmaps, hbytes⟩ := h.elfStep hs hva hmem halloc hmap
      have hs₁ := hs.extends hmaps.ext fun _ hr => hr
      obtain ⟨hinv, hext, hloaded, hothers⟩ := ih hmaps.inv hs₁ hlow hnodup.2 hrest
      have hk := div_lt_userPages hva
      refine ⟨hinv, hmaps.ext.trans hext, fun q hq => ?_, fun s' k hk' hout => ?_⟩
      · rw [hpages] at hq
        rcases mem_cons.1 hq with rfl | hq
        · -- the later turns leave the page and its frame alone
          refine ⟨f, ?_, hmaps.free, hext.foreign hmaps.foreign, fun j hj => ?_⟩
          · rw [hothers s _ hk (.inr hnodup.1), hmaps.entry hk, if_pos ⟨rfl, rfl⟩]
          · have hin : InPage m₁ f (m₁.kaddr f + j) :=
              ⟨Nat.le_add_right _ _, Nat.add_lt_add_left hj _⟩
            rw [Mm.kaddr, hext.hhdm, ← Mm.kaddr, hext.frame hmaps.foreign hin]
            exact hbytes j hj
        · obtain ⟨g, hentry, hfree, hforeign, hb⟩ := hloaded q hq
          exact ⟨g, hentry, hmaps.ext.free hfree, hforeign, hb⟩
      · rw [hpages, map_cons, mem_cons, not_or] at hout
        rw [hothers s' k hk' (hout.imp_right And.right), hmaps.entry hk']
        refine if_neg ?_
        rintro ⟨rfl, rfl⟩
        rcases hout with hne | hne
        · exact hne rfl
        · exact hne.1 rfl

/-- If page 0 is in use, only a panic ends a load early. -/
lemma MmInv.elfRun_complete {es : List ElfEvent} {loaded : Bool} (h : MmInv m L roots)
    (hs : Recorded m L roots s space) (hlow : LowPages es) (hzero : m.pmm.used 0 = true)
    (hrun : Mm.elfRun data space es m = some (m', loaded)) : loaded = true := by
  induction es generalizing m with
  | nil => exact (congrArg Prod.snd (some.inj hrun)).symm
  | cons e es ih =>
    cases e with
    | read off len => exact ih h hs hlow hzero hrun
    | page p va =>
      obtain ⟨⟨hva, hmem⟩, hlow⟩ := lowPages_page.1 hlow
      obtain ⟨pmm, phys, halloc, ⟨hphys, -, -⟩ | ⟨m₁, hmap, hrest⟩⟩ := Mm.elfRun_page_cases hrun
      · -- the page that was taken would be page 0
        obtain ⟨f, rfl, -, hfree, -⟩ := Pmm.allocPage_spec halloc
        obtain rfl : f = 0 := (Nat.mul_eq_zero.1 hphys).resolve_right (by decide)
        exact absurd hzero (Bool.eq_false_iff.1 hfree)
      · obtain ⟨f, hmaps, -⟩ := h.elfStep hs hva hmem halloc hmap
        exact ih hmaps.inv (hs.extends hmaps.ext fun _ hr => hr) hlow (hmaps.ext.used hzero) hrest

/-! ## Segments -/

/-- What a segment has at offset `k`. -/
def Phdr.byte (p : Phdr) (data : FileData) (k : ℕ) : UInt8 :=
  if k < p.filesz then data (p.offset + k) else 0

/-- The segment is in the lower half, and its part of the file is in the file. -/
structure Phdr.Inside (p : Phdr) (size : ℕ) : Prop where
  filesz_le : p.filesz ≤ p.memsz
  file : p.offset + p.filesz ≤ size
  low : p.vaddr + p.memsz ≤ 2 ^ 47

/-- The loader stops copying at the end of the segment's part of the file, or the segment ends
there: the first page is whole, or begins the segment, or nothing follows the part of the file. -/
def Phdr.Clean (p : Phdr) : Prop :=
  p.vaddr % pageSize = 0 ∨ p.filesz = p.memsz ∨ pageSize ≤ p.vaddr % pageSize + p.filesz

namespace Phdr.Inside

variable {size k : ℕ}

lemma end_eq (h : p.Inside size) :
    u64 (p.vaddr + p.memsz + 0xfff) = p.vaddr + p.memsz + 0xfff := by
  have hlow := h.low
  exact Nat.mod_eq_of_lt (by omega)

lemma fileEnd_eq (h : p.Inside size) : u64 (p.vaddr + p.filesz) = p.vaddr + p.filesz := by
  have hlow := h.low
  have hle := h.filesz_le
  exact Nat.mod_eq_of_lt (by omega)

/-- The page of an address of the segment is loaded. -/
lemma alignDown_mem_pages (h : p.Inside size) (hk : k < p.memsz) :
    alignDown (p.vaddr + k) ∈ p.pages := by
  rw [Phdr.pages, h.end_eq, Pmm.pageAddrs, List.mem_map]
  refine ⟨(p.vaddr + k) / pageSize - p.vaddr / pageSize, mem_range.2 ?_, ?_⟩ <;>
    unfold alignDown <;> unfold pageSize <;> omega

lemma page_lt (h : p.Inside size) (hva : va ∈ p.pages) : va < 2 ^ 47 := by
  obtain ⟨hmod, -, hlt⟩ := Phdr.mem_pages hva
  have hlow := h.low
  rw [h.end_eq] at hlt
  unfold alignDown pageSize at *
  omega

/-- The byte that the loader puts at an address of the segment is the segment's. -/
lemma pageByte_eq (h : p.Inside size) (hclean : p.Clean) (hsize : size < 2 ^ 64)
    (hk : k < p.memsz) :
    p.pageByte data (alignDown (p.vaddr + k)) ((p.vaddr + k) % pageSize) = p.byte data k := by
  have hps : pageSize = 4096 := rfl
  have hfile := h.file
  rw [Phdr.pageByte, Phdr.copy, h.fileEnd_eq, Phdr.byte]
  unfold Phdr.Clean at hclean
  unfold alignDown
  rw [hps] at hclean ⊢
  by_cases hend : (p.vaddr + k) / 4096 * 4096 < p.vaddr + p.filesz
  · simp only [if_pos hend]
    by_cases hfirst : (p.vaddr + k) / 4096 * 4096 < p.vaddr
    · -- the page in which the segment begins
      simp only [if_pos hfirst]
      by_cases hlt : k < p.filesz
      · rw [if_pos (by omega), if_pos hlt]
        congr 1
        exact (Nat.mod_eq_of_lt (by omega)).trans (by omega)
      · rw [if_neg hlt, if_neg]
        rcases hclean with hclean | hclean | hclean <;> omega
    · simp only [if_neg hfirst]
      by_cases hlt : k < p.filesz
      · rw [if_pos (by omega), if_pos hlt]
        congr 1
        have hoff : u64 (p.offset + ((p.vaddr + k) / 4096 * 4096 - p.vaddr)) =
            p.offset + ((p.vaddr + k) / 4096 * 4096 - p.vaddr) := Nat.mod_eq_of_lt (by omega)
        rw [hoff]
        exact (Nat.mod_eq_of_lt (by omega)).trans (by omega)
      · rw [if_neg hlt, if_neg (by omega)]
  · simp only [if_neg hend]
    rw [if_neg (by omega)]

end Phdr.Inside

/-- The segments that are to be loaded, by exact arithmetic. -/
def elfSegments (data : FileData) : List Phdr :=
  ((List.range data.phnum).map fun i => data.phdr (data.phoff + i * data.phentsize)).filter
    fun p => p.type = ptLoad

/-- The program headers are inside the file, and their offsets fit an `int`. -/
def TableInside (data : FileData) (size : ℕ) : Prop :=
  ∀ i < data.phnum, data.phoff + i * data.phentsize + phdrSize ≤ size ∧ i * data.phentsize < 2 ^ 31

lemma TableInside.phdrBase_eq {i : ℕ} (h : TableInside data size) (hsize : size < 2 ^ 64)
    (hi : i < data.phnum) : data.phdrBase i = data.phoff + i * data.phentsize := by
  obtain ⟨hle, hlt⟩ := h i hi
  rw [FileData.phdrBase, ofInt32_of_lt hlt]
  exact Nat.mod_eq_of_lt (by omega)

/-- A file with the header of an executable. -/
structure FileData.IsExec (data : FileData) (size : ℕ) : Prop where
  size : ehdrSize ≤ size
  magic : data.field 0 4 = elfMagic
  bits : data.field 4 1 = 2
  machine : data.field 18 2 = emX8664
  type : data.field 16 2 = etExec

lemma FileData.IsExec.elfEvents_eq (h : data.IsExec size) : elfEvents data size =
    ([.read 0 4, .read 4 1, .read 18 2, .read 16 2, .read 56 2] ++
      (List.range data.phnum).flatMap data.phdrEvents ++ [.read 24 8], data.entry) := by
  rw [elfEvents, if_neg (not_lt.2 h.size), if_neg (not_not.2 h.magic), if_neg (not_not.2 h.bits),
    if_neg (not_not.2 h.machine), if_neg (not_not.2 h.type)]

/-- A file with another header is refused. -/
lemma elfPages_refused (h : ¬data.IsExec size) :
    elfPages (elfEvents data size).1 = [] := by
  unfold elfEvents
  split_ifs with hsize hmagic hbits hmachine htype
  · rfl
  · rfl
  · rfl
  · rfl
  · rfl
  · exact absurd ⟨not_lt.1 hsize, not_not.1 hmagic, not_not.1 hbits, not_not.1 hmachine,
      not_not.1 htype⟩ h

lemma elfPages_append (es es' : List ElfEvent) :
    elfPages (es ++ es') = elfPages es ++ elfPages es' :=
  filterMap_append ..

lemma elfPages_flatMap {α : Type*} (l : List α) (f : α → List ElfEvent) :
    elfPages (l.flatMap f) = l.flatMap fun a => elfPages (f a) := by
  induction l with
  | nil => rfl
  | cons a l ih => rw [flatMap_cons, elfPages_append, ih, flatMap_cons]

lemma elfPages_pageEvents (p : Phdr) (base va : ℕ) :
    elfPages (p.pageEvents base va) = [(p, va)] := by
  unfold Phdr.pageEvents
  cases p.copy va <;> rfl

lemma elfPages_phdrEvents (data : FileData) (i : ℕ) : elfPages (data.phdrEvents i) =
    if (data.phdr (data.phdrBase i)).type = ptLoad then
      (data.phdr (data.phdrBase i)).pages.map fun va => (data.phdr (data.phdrBase i), va)
    else [] := by
  unfold FileData.phdrEvents
  dsimp only
  rw [ite_not]
  split_ifs with htype
  · have hpages := elfPages_flatMap (data.phdr (data.phdrBase i)).pages
      ((data.phdr (data.phdrBase i)).pageEvents (data.phdrBase i))
    simp only [elfPages_pageEvents, ← map_eq_flatMap] at hpages
    exact hpages
  · rfl

lemma mem_pages_of_elfPages {q : Phdr × ℕ} (h : q ∈ elfPages (elfEvents data size).1) :
    q.2 ∈ q.1.pages := by
  by_cases hexec : data.IsExec size
  · rw [hexec.elfEvents_eq, elfPages_append, elfPages_append, elfPages_flatMap] at h
    have hturn : ∃ i, q ∈ elfPages (data.phdrEvents i) := by
      rcases mem_append.1 h with h | h
      · rcases mem_append.1 h with h | h
        · simp [elfPages] at h
        · obtain ⟨i, -, hi⟩ := mem_flatMap.1 h
          exact ⟨i, hi⟩
      · simp [elfPages] at h
    obtain ⟨i, hi⟩ := hturn
    rw [elfPages_phdrEvents] at hi
    split_ifs at hi
    · obtain ⟨va, hva, rfl⟩ := List.mem_map.1 hi
      exact hva
    · simp at hi
  · rw [elfPages_refused hexec] at h
    simp at h

/-- The pages of a load are the pages of the segments. -/
lemma elfPages_elfEvents (hexec : data.IsExec size) (h : TableInside data size)
    (hsize : size < 2 ^ 64) : elfPages (elfEvents data size).1 =
      (elfSegments data).flatMap fun p => p.pages.map fun va => (p, va) := by
  have hturns : ∀ l : List ℕ, (∀ i ∈ l, i < data.phnum) →
      elfPages (l.flatMap data.phdrEvents) =
        ((l.map fun i => data.phdr (data.phoff + i * data.phentsize)).filter
          fun p => p.type = ptLoad).flatMap fun p => p.pages.map fun va => (p, va) := by
    intro l hl
    induction l with
    | nil => rfl
    | cons i l ih =>
      rw [flatMap_cons, elfPages_append, elfPages_phdrEvents,
        h.phdrBase_eq hsize (hl i mem_cons_self), map_cons, filter_cons,
        ih fun j hj => hl j (mem_cons_of_mem _ hj)]
      simp only [decide_eq_true_eq]
      split_ifs <;> rfl
  rw [hexec.elfEvents_eq, elfPages_append, elfPages_append,
    hturns _ fun i => mem_range.1]
  exact append_nil _

end CobjOs
