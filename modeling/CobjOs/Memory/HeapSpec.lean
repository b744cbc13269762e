import Mathlib.Data.List.Nodup
import Mathlib.Data.List.Pairwise
import Mathlib.Tactic.IntervalCases
import CobjOs.Memory.Heap
import CobjOs.Memory.PmmSpec

/-!
# What the heap's memory holds

`HeapMap` is the heap as its callers think of it: the pages cut into blocks of each class, the
free blocks of each class in list order, and the allocations that have not been freed.
`HeapMap.Inv m L` says that the bytes, the caches and the page bitmap of `m` hold exactly `L`.

The routines of `heap.c` are described by the map they lead to, with the bytes and the bits of the
page bitmap that changed, for the parts of the kernel that share them.
-/

namespace CobjOs

open Mem

/-- The size of the blocks of a class. -/
def classSize (c : ℕ) : ℕ := slabSizes.getD c 0

/-- A page of a class, and the number of blocks cut from it so far. -/
structure Slab where
  page : ℕ
  cls : ℕ
  count : ℕ
  deriving DecidableEq, Repr

/-- A live allocation: a block of a class, or a run of pages; with the size asked for. -/
inductive Alloc
  | small (block size cls : ℕ)
  | large (page count size : ℕ)
  deriving DecidableEq, Repr

namespace Alloc

/-- The pointer `kmalloc` returned. -/
def ptr (hhdm : ℕ) : Alloc → ℕ
  | small block _ _ => block
  | large page _ _ => page * pageSize + hhdm + slabHeaderSize

def size : Alloc → ℕ
  | small _ size _ => size
  | large _ _ size => size

def inClass (c : ℕ) : Alloc → Bool
  | small _ _ cls => decide (cls = c)
  | large _ _ _ => false

/-- The pages that belong to the allocation alone. -/
def pages : Alloc → List ℕ
  | small _ _ _ => []
  | large page count _ => List.range' page count

end Alloc

/-- The blocks cut from a page lie in it. -/
def Slab.Fits (s : Slab) : Prop := s.count * (classSize s.cls + slabHeaderSize) ≤ pageSize

/-- Block `i` of a page ends before the page does. -/
lemma Slab.Fits.block {s : Slab} (h : s.Fits) {i : ℕ} (hi : i < s.count) :
    i * (classSize s.cls + slabHeaderSize) + (classSize s.cls + slabHeaderSize) ≤ pageSize := by
  have hle : (i + 1) * (classSize s.cls + slabHeaderSize) ≤
      s.count * (classSize s.cls + slabHeaderSize) := Nat.mul_le_mul_right _ hi
  rw [Nat.add_mul, Nat.one_mul] at hle
  exact Nat.le_trans hle h

/-- The contents of the heap. -/
structure HeapMap where
  slabs : List Slab
  free : ℕ → List ℕ
  live : List Alloc

namespace HeapMap

/-- The pages the heap has taken. -/
def pages (L : HeapMap) : List ℕ := L.slabs.map Slab.page ++ L.live.flatMap Alloc.pages

/-- The address of a block: a page of the class holds it at one of the multiples of the block
size, after the header. -/
def IsBlock (L : HeapMap) (hhdm c b : ℕ) : Prop :=
  ∃ s ∈ L.slabs, s.cls = c ∧ ∃ i < s.count,
    b = s.page * pageSize + hhdm + i * (classSize c + slabHeaderSize) + slabHeaderSize

/-- The bytes the heap itself reads: the headers of all blocks and of the runs of pages, and the
links of the free blocks. -/
def Meta (L : HeapMap) (hhdm x : ℕ) : Prop :=
  (∃ c b, L.IsBlock hhdm c b ∧ Within (b - slabHeaderSize) slabHeaderSize x) ∨
  (∃ c < slabClassCount, ∃ b ∈ L.free c, Within b 8 x) ∨
  ∃ page count size, Alloc.large page count size ∈ L.live ∧
    Within (page * pageSize + hhdm) slabHeaderSize x

/-- The bytes of the pages the heap has taken. -/
def InPages (L : HeapMap) (hhdm x : ℕ) : Prop :=
  ∃ b ∈ L.pages, Within (b * pageSize + hhdm) pageSize x

/-- A live allocation has its place, and its header says what it is. -/
def LiveOk (L : HeapMap) (m : Mm) : Alloc → Prop
  | .small block size cls => cls < slabClassCount ∧ L.IsBlock m.hhdm cls block ∧
      block ∉ L.free cls ∧ 0 < size ∧ size ≤ classSize cls
  | .large page count size => 2048 < size ∧ size + slabHeaderSize ≤ count * pageSize ∧
      m.ram.readNat 4 (page * pageSize + m.hhdm) = slabClassCount ∧
      m.ram.readNat 4 (page * pageSize + m.hhdm + 4) = count

/-- The memory manager's state holds the heap `L`. -/
structure Inv (m : Mm) (L : HeapMap) : Prop where
  mapped : m.Mapped
  objSize : ∀ {c}, c < slabClassCount → (m.caches c).objSize = classSize c
  page : ∀ {b}, b ∈ L.pages → b ≠ 0 ∧ b < m.pmm.pageCount ∧ m.pmm.used b = true
  nodup : L.pages.Nodup
  slab : ∀ {s}, s ∈ L.slabs → s.cls < slabClassCount ∧ s.Fits
  header : ∀ {c b}, L.IsBlock m.hhdm c b → m.ram.readNat 4 (b - slabHeaderSize) = c
  chain : ∀ {c}, c < slabClassCount → m.ram.Chain 8 (m.caches c).free (L.free c)
  free : ∀ {c b}, c < slabClassCount → b ∈ L.free c → L.IsBlock m.hhdm c b
  free_nodup : ∀ {c}, c < slabClassCount → (L.free c).Nodup
  live : ∀ {a}, a ∈ L.live → L.LiveOk m a
  live_nodup : (L.live.map (Alloc.ptr m.hhdm)).Nodup
  total : ∀ {c}, c < slabClassCount → (L.free c).length + (m.caches c).used = (m.caches c).total
  used : ∀ {c}, c < slabClassCount → (m.caches c).used = L.live.countP (Alloc.inClass c)

/-! ## Where things are -/

section Place

variable {L : HeapMap} {m m' : Mm} {hhdm c c' b b' p q x : ℕ} {a a' : Alloc}

/-- A byte lies in one page. -/
lemma page_unique (hp : Within (p * pageSize + hhdm) pageSize x)
    (hq : Within (q * pageSize + hhdm) pageSize x) : p = q := by
  unfold Within pageSize at *
  omega

lemma exists_page_of_within {page count : ℕ}
    (h : Within (page * pageSize + hhdm) (count * pageSize) x) :
    ∃ b ∈ List.range' page count, Within (b * pageSize + hhdm) pageSize x := by
  obtain ⟨y, rfl⟩ : ∃ y, x = y + hhdm := ⟨x - hhdm, by unfold Within at h; omega⟩
  have hlo : page ≤ y / pageSize := by
    rw [Nat.le_div_iff_mul_le (by decide)]
    unfold Within at h
    omega
  have hhi : y / pageSize < page + count := by
    rw [Nat.div_lt_iff_lt_mul (by decide), Nat.add_mul]
    unfold Within at h
    omega
  have hmod := Nat.div_add_mod' y pageSize
  have hlt : y % pageSize < pageSize := Nat.mod_lt _ (by decide)
  exact ⟨y / pageSize, List.mem_range'_1.mpr ⟨hlo, hhi⟩, by omega, by omega⟩

lemma mem_pages_of_slab {s : Slab} (hs : s ∈ L.slabs) : s.page ∈ L.pages :=
  List.mem_append_left _ (List.mem_map.mpr ⟨s, hs, rfl⟩)

lemma mem_pages_of_alloc (ha : a ∈ L.live) (hb : b ∈ a.pages) : b ∈ L.pages :=
  List.mem_append_right _ (List.mem_flatMap.mpr ⟨a, ha, hb⟩)

lemma Inv.block_bounds (h : Inv m L) (hb : L.IsBlock m.hhdm c b) : ∃ s ∈ L.slabs, s.cls = c ∧
    s.page * pageSize + m.hhdm + slabHeaderSize ≤ b ∧
    b + classSize c ≤ s.page * pageSize + m.hhdm + pageSize := by
  obtain ⟨s, hs, rfl, i, hi, rfl⟩ := hb
  have hfits := (h.slab hs).2.block hi
  exact ⟨s, hs, rfl, by omega, by omega⟩

lemma Inv.block_apart (h : Inv m L) (hb : L.IsBlock m.hhdm c b) (hb' : L.IsBlock m.hhdm c' b') :
    (b = b' ∧ c = c') ∨ b + classSize c + slabHeaderSize ≤ b' ∨
      b' + classSize c' + slabHeaderSize ≤ b := by
  obtain ⟨s, hs, rfl, i, hi, rfl⟩ := hb
  obtain ⟨s', hs', rfl, i', hi', rfl⟩ := hb'
  have hfits := (h.slab hs).2.block hi
  have hfits' := (h.slab hs').2.block hi'
  by_cases hpage : s.page = s'.page
  · have hinj : (L.slabs.map Slab.page).Nodup := (List.nodup_append.mp h.nodup).1
    obtain rfl : s = s' := List.inj_on_of_nodup_map hinj hs hs' hpage
    rcases Nat.lt_trichotomy i i' with hlt | rfl | hlt
    · have hle := Nat.mul_le_mul_right (classSize s.cls + slabHeaderSize) (Nat.succ_le_of_lt hlt)
      rw [Nat.succ_mul] at hle
      omega
    · exact .inl ⟨rfl, rfl⟩
    · have hle := Nat.mul_le_mul_right (classSize s.cls + slabHeaderSize) (Nat.succ_le_of_lt hlt)
      rw [Nat.succ_mul] at hle
      omega
  · rcases Nat.lt_or_gt_of_ne hpage with hlt | hlt
    · have hle := Nat.mul_le_mul_right pageSize (Nat.succ_le_of_lt hlt)
      rw [Nat.succ_mul] at hle
      omega
    · have hle := Nat.mul_le_mul_right pageSize (Nat.succ_le_of_lt hlt)
      rw [Nat.succ_mul] at hle
      omega

/-- The pages of a run are not pages of a class. -/
lemma Inv.slab_ne (h : Inv m L) {s : Slab} (hs : s ∈ L.slabs) (ha : a ∈ L.live)
    (hb : b ∈ a.pages) : s.page ≠ b := by
  obtain ⟨-, -, hdisj⟩ := List.nodup_append.mp h.nodup
  exact hdisj _ (List.mem_map.mpr ⟨s, hs, rfl⟩) _ (List.mem_flatMap.mpr ⟨a, ha, hb⟩)

lemma Inv.pages_disjoint (h : Inv m L) (ha : a ∈ L.live) (ha' : a' ∈ L.live) (hne : a ≠ a') :
    List.Disjoint a.pages a'.pages := by
  obtain ⟨-, hlive, -⟩ := List.nodup_append.mp h.nodup
  have hpair := (List.nodup_flatMap.mp hlive).2
  have hsymm : Std.Symm (Function.onFun List.Disjoint Alloc.pages) :=
    ⟨fun _ _ hd b hb hb' => hd hb' hb⟩
  exact hpair.forall ha ha' hne

lemma Inv.ptr_inj (h : Inv m L) (ha : a ∈ L.live) (ha' : a' ∈ L.live)
    (heq : a.ptr m.hhdm = a'.ptr m.hhdm) : a = a' :=
  List.inj_on_of_nodup_map h.live_nodup ha ha' heq

/-- The bytes of a live allocation lie in one page of its class, or in its own pages. -/
lemma Inv.large_page (h : Inv m L) {page count size : ℕ}
    (ha : Alloc.large page count size ∈ L.live)
    (hx : Within (page * pageSize + m.hhdm) (size + slabHeaderSize) x) :
    ∃ b ∈ List.range' page count, Within (b * pageSize + m.hhdm) pageSize x := by
  have hsize : size + slabHeaderSize ≤ count * pageSize := (h.live ha).2.1
  exact exists_page_of_within ⟨hx.1, by unfold Within at hx; omega⟩

/-- The blocks and runs of pages with all that belongs to them lie in the heap's pages. -/
lemma Inv.inPages_of_block (h : Inv m L) (hb : L.IsBlock m.hhdm c b)
    (hx : Within (b - slabHeaderSize) (classSize c + slabHeaderSize) x) :
    L.InPages m.hhdm x := by
  obtain ⟨s, hs, -, hlo, hhi⟩ := h.block_bounds hb
  refine ⟨s.page, mem_pages_of_slab hs, ?_⟩
  unfold Within at hx ⊢
  omega

lemma eight_le_classSize (hc : c < slabClassCount) : 8 ≤ classSize c := by
  unfold slabClassCount at hc
  interval_cases c <;> decide

lemma Inv.inPages_of_meta (h : Inv m L) (hx : L.Meta m.hhdm x) : L.InPages m.hhdm x := by
  have hhdr : slabHeaderSize = 8 := rfl
  rcases hx with ⟨c, b, hb, hx⟩ | ⟨c, hc, b, hb, hx⟩ | ⟨page, count, size, ha, hx⟩
  · refine h.inPages_of_block hb ?_
    unfold Within at hx ⊢
    omega
  · have hblock := h.free hc hb
    have hsize := eight_le_classSize hc
    obtain ⟨s, -, -, hlo, -⟩ := h.block_bounds hblock
    refine h.inPages_of_block hblock ?_
    unfold Within at hx ⊢
    omega
  · obtain ⟨b, hb, hxb⟩ := h.large_page ha (x := x) (by unfold Within at hx ⊢; omega)
    exact ⟨b, mem_pages_of_alloc ha hb, hxb⟩

/-- What the heap reads stays, so the heap stays. -/
lemma Inv.frame (h : Inv m L) (hhdm : m'.hhdm = m.hhdm) (hcaches : m'.caches = m.caches)
    (hcount : m'.pmm.pageCount = m.pmm.pageCount) (hused : ∀ b ∈ L.pages, m'.pmm.used b = true)
    (hram : ∀ x, L.Meta m.hhdm x → m'.ram x = m.ram x) : Inv m' L := by
  have hhdr : slabHeaderSize = 8 := rfl
  have hheader : ∀ {c b}, L.IsBlock m.hhdm c b →
      m'.ram.readNat 4 (b - slabHeaderSize) = m.ram.readNat 4 (b - slabHeaderSize) := by
    intro c b hb
    refine readNat_congr fun x h₁ h₂ => hram x (.inl ⟨c, b, hb, h₁, by omega⟩)
  refine
    { mapped := by rw [Mm.Mapped, hcount, hhdm]; exact h.mapped
      objSize := by rw [hcaches]; exact h.objSize
      page := fun hb => ⟨(h.page hb).1, by rw [hcount]; exact (h.page hb).2.1, hused _ hb⟩
      nodup := h.nodup
      slab := h.slab
      header := ?_
      chain := ?_
      free := by rw [hhdm]; exact h.free
      free_nodup := h.free_nodup
      live := ?_
      live_nodup := by rw [hhdm]; exact h.live_nodup
      total := by rw [hcaches]; exact h.total
      used := by rw [hcaches]; exact h.used }
  · intro c b hb
    rw [hhdm] at hb
    rw [hheader hb, h.header hb]
  · intro c hc
    rw [hcaches]
    refine (h.chain hc).congr fun b hb => ?_
    exact readNat_congr fun x h₁ h₂ => hram x (.inr (.inl ⟨c, hc, b, hb, h₁, h₂⟩))
  · intro a ha
    have hok := h.live ha
    cases a with
    | small block size cls =>
      simp only [LiveOk, hhdm] at hok ⊢
      exact hok
    | large page count size =>
      have hmeta : ∀ x, Within (page * pageSize + m.hhdm) slabHeaderSize x →
          m'.ram x = m.ram x := fun x hx => hram x (.inr (.inr ⟨page, count, size, ha, hx⟩))
      simp only [LiveOk, hhdm] at hok ⊢
      rw [readNat_congr fun x h₁ h₂ => hmeta x ⟨by omega, by omega⟩,
        readNat_congr fun x h₁ h₂ => hmeta x ⟨by omega, by omega⟩]
      exact hok

end Place

/-! ## What is apart from what -/

section Apart

variable {L : HeapMap} {m m' : Mm} {c c' b b' x page count page' count' size size' : ℕ}
  {a a' : Alloc}

lemma Inv.block_block (h : Inv m L) (hb : L.IsBlock m.hhdm c b) (hb' : L.IsBlock m.hhdm c' b')
    (hne : b ≠ b') (hx : Within (b - slabHeaderSize) (classSize c + slabHeaderSize) x) :
    ¬Within (b' - slabHeaderSize) (classSize c' + slabHeaderSize) x := by
  intro hx'
  obtain ⟨s, -, -, hlo, -⟩ := h.block_bounds hb
  obtain ⟨s', -, -, hlo', -⟩ := h.block_bounds hb'
  unfold Within at hx hx'
  rcases h.block_apart hb hb' with ⟨heq, -⟩ | hap | hap
  · exact hne heq
  · omega
  · omega

lemma Inv.block_large (h : Inv m L) (hb : L.IsBlock m.hhdm c b)
    (ha : Alloc.large page count size ∈ L.live)
    (hx : Within (b - slabHeaderSize) (classSize c + slabHeaderSize) x) :
    ¬Within (page * pageSize + m.hhdm) (size + slabHeaderSize) x := by
  intro hx'
  obtain ⟨s, hs, -, hlo, hhi⟩ := h.block_bounds hb
  obtain ⟨q, hq, hxq⟩ := h.large_page ha hx'
  have hxs : Within (s.page * pageSize + m.hhdm) pageSize x := by
    unfold Within at hx ⊢
    omega
  exact h.slab_ne hs ha hq (page_unique hxs hxq)

lemma Inv.large_large (h : Inv m L) (ha : Alloc.large page count size ∈ L.live)
    (ha' : Alloc.large page' count' size' ∈ L.live)
    (hne : Alloc.large page count size ≠ Alloc.large page' count' size')
    (hx : Within (page * pageSize + m.hhdm) (size + slabHeaderSize) x) :
    ¬Within (page' * pageSize + m.hhdm) (size' + slabHeaderSize) x := by
  intro hx'
  obtain ⟨q, hq, hxq⟩ := h.large_page ha hx
  obtain ⟨q', hq', hxq'⟩ := h.large_page ha' hx'
  obtain rfl := page_unique hxq hxq'
  exact h.pages_disjoint ha ha' hne hq hq'

lemma Inv.small_within (h : Inv m L) (ha : Alloc.small b size c ∈ L.live)
    (hx : Within b size x) :
    Within (b - slabHeaderSize) (classSize c + slabHeaderSize) x := by
  obtain ⟨-, hblock, -, -, hsize⟩ := h.live ha
  obtain ⟨s, -, -, hlo, -⟩ := h.block_bounds hblock
  unfold Within at hx ⊢
  omega

lemma large_within (hx : Within ((Alloc.large page count size).ptr m.hhdm) size x) :
    Within (page * pageSize + m.hhdm) (size + slabHeaderSize) x ∧
      ¬Within (page * pageSize + m.hhdm) slabHeaderSize x := by
  simp only [Alloc.ptr, Within] at hx ⊢
  omega

lemma header_within (hx : Within (b - slabHeaderSize) slabHeaderSize x) :
    Within (b - slabHeaderSize) (classSize c + slabHeaderSize) x := by
  unfold Within at hx ⊢
  omega

lemma Inv.live_live (h : Inv m L) (ha : a ∈ L.live) (ha' : a' ∈ L.live) (hne : a ≠ a')
    (hx : Within (a.ptr m.hhdm) a.size x) : ¬Within (a'.ptr m.hhdm) a'.size x := by
  intro hx'
  have hptr : a.ptr m.hhdm ≠ a'.ptr m.hhdm := fun heq => hne (h.ptr_inj ha ha' heq)
  cases a with
  | small b size c =>
    have hb := (h.live ha).2.1
    cases a' with
    | small b' size' c' =>
      exact h.block_block hb (h.live ha').2.1 hptr (h.small_within ha hx) (h.small_within ha' hx')
    | large page' count' size' =>
      exact h.block_large hb ha' (h.small_within ha hx) (large_within hx').1
  | large page count size =>
    cases a' with
    | small b' size' c' =>
      exact h.block_large (h.live ha').2.1 ha (h.small_within ha' hx') (large_within hx).1
    | large page' count' size' =>
      exact h.large_large ha ha' hne (large_within hx).1 (large_within hx').1

lemma Inv.live_header (h : Inv m L) (ha : a ∈ L.live) (hb : L.IsBlock m.hhdm c b)
    (hx : Within (a.ptr m.hhdm) a.size x) :
    ¬Within (b - slabHeaderSize) slabHeaderSize x := by
  intro hx'
  cases a with
  | small b₀ size c₀ =>
    have hb₀ := (h.live ha).2.1
    by_cases heq : b₀ = b
    · subst heq
      obtain ⟨s, -, -, hlo, -⟩ := h.block_bounds hb₀
      simp only [Alloc.ptr, Within] at hx hx'
      omega
    · exact h.block_block hb₀ hb heq (h.small_within ha hx) (header_within hx')
  | large page count size =>
    exact h.block_large hb ha (header_within hx') (large_within hx).1

lemma Inv.live_largeHeader (h : Inv m L) (ha : a ∈ L.live)
    (ha' : Alloc.large page count size ∈ L.live)
    (hx : Within (a.ptr m.hhdm) a.size x) :
    ¬Within (page * pageSize + m.hhdm) slabHeaderSize x := by
  intro hx'
  have hx'' : Within (page * pageSize + m.hhdm) (size + slabHeaderSize) x := by
    unfold Within at hx' ⊢
    omega
  cases a with
  | small b₀ size₀ c₀ =>
    exact h.block_large (h.live ha).2.1 ha' (h.small_within ha hx) hx''
  | large page₀ count₀ size₀ =>
    by_cases heq : Alloc.large page₀ count₀ size₀ = Alloc.large page count size
    · obtain ⟨rfl, rfl, rfl⟩ := by simpa using heq
      exact (large_within hx).2 hx'
    · exact h.large_large ha ha' heq (large_within hx).1 hx''

lemma Inv.live_free (h : Inv m L) (ha : a ∈ L.live) (hc : c < slabClassCount)
    (hb : b ∈ L.free c) (hx : Within (a.ptr m.hhdm) a.size x) :
    ¬Within b (classSize c) x := by
  intro hx'
  have hblock := h.free hc hb
  obtain ⟨s, -, -, hlo, -⟩ := h.block_bounds hblock
  have hx'' : Within (b - slabHeaderSize) (classSize c + slabHeaderSize) x := by
    unfold Within at hx' ⊢
    omega
  cases a with
  | small b₀ size c₀ =>
    obtain ⟨-, hb₀, hnot, -, -⟩ := h.live ha
    by_cases heq : b₀ = b
    · subst heq
      have hcls : c₀ = c := (h.header hb₀).symm.trans (h.header hblock)
      exact hnot (hcls ▸ hb)
    · exact h.block_block hb₀ hblock heq (h.small_within ha hx) hx''
  | large page count size =>
    exact h.block_large hblock ha hx'' (large_within hx).1

lemma Inv.live_meta (h : Inv m L) (ha : a ∈ L.live)
    (hx : Within (a.ptr m.hhdm) a.size x) : ¬L.Meta m.hhdm x := by
  rintro (⟨c, b, hb, hx'⟩ | ⟨c, hc, b, hb, hx'⟩ | ⟨page, count, size, ha', hx'⟩)
  · exact h.live_header ha hb hx hx'
  · refine h.live_free ha hc hb hx ?_
    have hsize := eight_le_classSize hc
    unfold Within at hx' ⊢
    omega
  · exact h.live_largeHeader ha ha' hx hx'

end Apart

end HeapMap

end CobjOs
