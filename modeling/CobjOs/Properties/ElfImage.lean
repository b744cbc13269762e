import CobjOs.Process.ElfSpec
import CobjOs.Properties.MappedRegions

/-!
# What `elf_load` makes of a file

For a file whose headers and segments are inside it, every address of a segment has the segment's
byte after the load, with two exceptions.  A page of two segments is loaded twice, and what the
first turn put there is lost.  And in the page in which an unaligned segment begins, `remaining`
counts from the start of the page, so bytes beyond its part of the file are copied.

The loader looks at nothing but the header before it follows the offsets and addresses of a file;
it stays inside the file and the lower half only if the headers do.
-/

namespace CobjOs

variable {size va : ℕ}

open List Option

/-! ## Contents -/

lemma Phdr.nodup_pages (p : Phdr) : (p.pages.map (· / pageSize)).Nodup := by
  unfold Phdr.pages Pmm.pageAddrs
  rw [List.map_map]
  refine List.Nodup.map (fun i j hij => ?_) nodup_range
  simp only [Function.comp, alignDown] at hij
  unfold pageSize at hij
  omega

/-- The pages of segments that share none are all different. -/
lemma nodup_segment_pages {segs : List Phdr}
    (h : segs.Pairwise fun p q => ∀ va ∈ p.pages, va ∉ q.pages) :
    ((segs.flatMap fun p => p.pages.map fun va => (p, va)).map fun q => q.2 / pageSize).Nodup := by
  rw [map_flatMap, nodup_flatMap]
  refine ⟨fun p _ => ?_, h.imp fun {p q} hpq k hk hk' => ?_⟩
  · rw [List.map_map]
    exact p.nodup_pages
  · simp only [List.map_map, List.mem_map, Function.comp] at hk hk'
    obtain ⟨va, hva, rfl⟩ := hk
    obtain ⟨vb, hvb, heq⟩ := hk'
    have hmod := (Phdr.mem_pages hva).1
    have hmod' := (Phdr.mem_pages hvb).1
    obtain rfl : va = vb := by
      unfold pageSize at *
      omega
    exact hpq va hva hvb

/-- A file made of the two kinds of headers and the bytes behind them. -/
def ehdrBytes (entry phoff phnum : ℕ) : List UInt8 :=
  [0x7f, 0x45, 0x4c, 0x46, 2, 1, 1, 0, 0, 0, 0, 0, 0, 0, 0, 0, 2, 0, 62, 0, 1, 0, 0, 0] ++
    leBytes 8 entry ++ leBytes 8 phoff ++ leBytes 14 64 ++ leBytes 2 56 ++ leBytes 2 phnum ++
    leBytes 6 0

def phdrBytes (p : Phdr) : List UInt8 :=
  leBytes 4 p.type ++ leBytes 4 p.flags ++ leBytes 8 p.offset ++ leBytes 8 p.vaddr ++
    leBytes 8 p.vaddr ++ leBytes 8 p.filesz ++ leBytes 8 p.memsz ++ leBytes 8 pageSize

def elfFile (ps : List Phdr) (content : List UInt8) : List UInt8 :=
  ehdrBytes 0x400000 ehdrSize ps.length ++ ps.flatMap phdrBytes ++ content

/-- The bytes of a file, with zeros behind it. -/
def fileData (bytes : List UInt8) : FileData := fun i => bytes.getD i 0

/-- An aligned segment with four bytes of the file and two pages of memory. -/
def alignedSegment : Phdr := ⟨ptLoad, 6, 120, 0x400000, 4, 8192⟩

/-- A segment in the middle of a page with four bytes of the file and cleared memory behind them. -/
def unalignedSegment : Phdr := ⟨ptLoad, 6, 120, 0x400800, 4, 16⟩

/-- Two segments of one page. -/
def pageNeighbours : List Phdr := [⟨ptLoad, 6, 176, 0x400000, 4, 4⟩, ⟨ptLoad, 6, 180, 0x400800, 4, 4⟩]

/-- The event stays inside the file, or below the top of the lower half. -/
def ElfEvent.Safe (size : ℕ) : ElfEvent → Prop
  | .read off len => ∀ j < len, u64 (off + j) < size
  | .page _ va => va + pageSize ≤ userSpaceTop

lemma ElfEvent.read_safe {off len : ℕ} (h : off + len ≤ size) :
    (ElfEvent.read off len).Safe size := by
  intro j hj
  exact (Nat.mod_le _ _).trans_lt (by omega)

/-- The segment's part of the file is in the file, with what the loader copies behind it in an
unaligned first page, and the segment is in the lower half. -/
structure Phdr.Bounded (p : Phdr) (size : ℕ) : Prop where
  file : p.offset + p.filesz ≤ size
  first : p.vaddr % pageSize ≠ 0 →
    p.offset + min (pageSize - p.vaddr % pageSize) (p.vaddr % pageSize + p.filesz) ≤ size
  low : p.vaddr + p.memsz ≤ userSpaceTop

/-- What is copied into a page is in the file. -/
lemma Phdr.Bounded.copy_le {p : Phdr} {c : FileCopy} (h : p.Bounded size)
    (hva : va ∈ p.pages) (hc : p.copy va = some c) : c.fileOffset + c.copySize ≤ size := by
  obtain ⟨hmod, hlo, -⟩ := Phdr.mem_pages hva
  obtain ⟨hfile, hfirst, -⟩ := h
  simp only [Phdr.copy, ite_none_right_eq_some, some.injEq] at hc
  obtain ⟨hend, rfl⟩ := hc
  have hle : u64 (p.vaddr + p.filesz) ≤ p.vaddr + p.filesz := Nat.mod_le _ _
  dsimp only
  unfold alignDown at hlo
  split_ifs with hlt
  · -- the page in which the segment begins: it starts as far below as the segment is off
    have hoff : p.vaddr - va = p.vaddr % pageSize := by
      unfold pageSize at *
      omega
    have hfirst := hfirst (by omega)
    rw [hoff]
    unfold pageSize at *
    omega
  · have hle' : u64 (p.offset + (va - p.vaddr)) ≤ p.offset + (va - p.vaddr) := Nat.mod_le _ _
    omega

lemma Phdr.Bounded.page_le {p : Phdr} (h : p.Bounded size) (hva : va ∈ p.pages) :
    va + pageSize ≤ userSpaceTop := by
  obtain ⟨hmod, -, hhi⟩ := Phdr.mem_pages hva
  have hlow := h.low
  have hround : u64 (p.vaddr + p.memsz + 0xfff) = p.vaddr + p.memsz + 0xfff := by
    unfold userSpaceTop at hlow
    exact Nat.mod_eq_of_lt (by omega)
  rw [hround, alignDown] at hhi
  unfold userSpaceTop pageSize at *
  omega

lemma elfEvents_refused {data : FileData} (h : ¬data.IsExec size) :
    (elfEvents data size).2 = 0 ∧ ∀ e ∈ (elfEvents data size).1, e.Safe size := by
  have hread : ∀ es : List (ℕ × ℕ), (∀ r ∈ es, r.1 + r.2 ≤ ehdrSize) → ehdrSize ≤ size →
      ∀ e ∈ es.map fun r => ElfEvent.read r.1 r.2, e.Safe size := by
    intro es hes hle e he
    obtain ⟨r, hr, rfl⟩ := List.mem_map.1 he
    exact ElfEvent.read_safe ((hes r hr).trans hle)
  unfold elfEvents
  split_ifs with hsize hmagic hbits hmachine htype
  · exact ⟨rfl, by simp⟩
  · exact ⟨rfl, hread [(0, 4)] (by decide) (not_lt.1 hsize)⟩
  · exact ⟨rfl, hread [(0, 4), (4, 1)] (by decide) (not_lt.1 hsize)⟩
  · exact ⟨rfl, hread [(0, 4), (4, 1), (18, 2)] (by decide) (not_lt.1 hsize)⟩
  · exact ⟨rfl, hread [(0, 4), (4, 1), (18, 2), (16, 2)] (by decide) (not_lt.1 hsize)⟩
  · exact absurd ⟨not_lt.1 hsize, not_not.1 hmagic, not_not.1 hbits, not_not.1 hmachine,
      not_not.1 htype⟩ h

lemma phdrEvents_safe {data : FileData} {i : ℕ} (hehdr : ehdrSize ≤ size)
    (hbase : data.phdrBase i + phdrSize ≤ size)
    (hseg : (data.phdr (data.phdrBase i)).type = ptLoad →
      (data.phdr (data.phdrBase i)).Bounded size) :
    ∀ e ∈ data.phdrEvents i, e.Safe size := by
  have hfield : ∀ {off len}, off + len ≤ phdrSize →
      (ElfEvent.read (data.phdrBase i + off) len).Safe size :=
    fun hle => ElfEvent.read_safe (by omega)
  have hhead : ∀ {off len}, off + len ≤ ehdrSize → (ElfEvent.read off len).Safe size :=
    fun hle => ElfEvent.read_safe (hle.trans hehdr)
  unfold FileData.phdrEvents
  dsimp only
  simp only [forall_mem_cons]
  have htypeField : (ElfEvent.read (data.phdrBase i) 4).Safe size :=
    ElfEvent.read_safe ((Nat.add_le_add_left (by decide) _).trans hbase)
  refine ⟨hhead (by decide), hhead (by decide), htypeField, ?_⟩
  split_ifs with htype
  · simp
  · have hseg := hseg (not_not.1 htype)
    simp only [forall_mem_cons]
    refine ⟨hfield (by decide), hfield (by decide), hfield (by decide), fun e he => ?_⟩
    obtain ⟨va, hva, he⟩ := mem_flatMap.1 he
    have hpage := hseg.page_le hva
    unfold Phdr.pageEvents at he
    rcases mem_cons.1 he with rfl | he
    · exact hfield (by decide)
    cases hc : (data.phdr (data.phdrBase i)).copy va with
    | none =>
      rw [hc] at he
      rcases mem_singleton.1 he with rfl
      exact hpage
    | some c =>
      rw [hc] at he
      simp only [mem_cons, not_mem_nil, or_false] at he
      rcases he with rfl | rfl | rfl
      · exact hfield (by decide)
      · exact ElfEvent.read_safe (hseg.copy_le hva hc)
      · exact hpage

end CobjOs
