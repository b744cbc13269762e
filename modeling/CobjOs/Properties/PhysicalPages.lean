import CobjOs.Framework.Transition
import CobjOs.Memory.PmmSpec

/-!
# Every page has one holder

The page allocator with a ledger beside it: for each call that returned pages, the pages of it
that have not been given back.  Callers give back only pages they hold, in any portions.  The
bitmap then always is what `pmm_init` left plus the pages in the ledger: a page is never handed out
twice, nothing that was marked at boot is handed out, and giving back what one holds meets none of
the panics.

Page 0 must not be usable, because its address is what `pmm_free_page` takes for `NULL`.
-/

namespace CobjOs

open List

/-- The calls of the page allocator. -/
inductive PmmOp
  | allocPage
  | allocPages (count : ℕ)
  | freePage (addr : ℕ)
  | freePages (addr count : ℕ)
  deriving DecidableEq, Repr

/-- The allocator, and for each outstanding allocation the pages still held. -/
structure PageLedger where
  pmm : Pmm
  live : List (List ℕ)

namespace PageLedger

/-- Enters what a call returned. -/
def take (s : PageLedger) (count : ℕ) (r : Option (Pmm × ℕ)) : Option PageLedger :=
  r.map fun (m, addr) => { pmm := m, live := List.range' (addr / pageSize) count :: s.live }

/-- The pages of a list outside a run. -/
def outside (page count : ℕ) (l : List ℕ) : List ℕ :=
  l.filter fun b => !decide (Pmm.InRun page count b)

/-- Strikes out what was given back. -/
def give (s : PageLedger) (addr count : ℕ) (r : Option Pmm) : Option PageLedger :=
  r.map fun m => { pmm := m, live := s.live.map (outside (addr / pageSize) count) }

def step (s : PageLedger) : PmmOp → Option PageLedger
  | .allocPage => s.take 1 s.pmm.allocPage
  | .allocPages count => s.take count (s.pmm.allocPages count)
  | .freePage addr => s.give addr 1 (s.pmm.freePage addr)
  | .freePages addr count => s.give addr count (s.pmm.freePages addr count)

/-- Every one of the `count` pages at the address is held. -/
def holds (s : PageLedger) (addr count : ℕ) : Bool :=
  decide (addr % pageSize = 0) &&
    (List.range' (addr / pageSize) count).all fun b => s.live.flatten.contains b

/-- Only held pages are given back. -/
def freeOk (s : PageLedger) : PmmOp → Bool
  | .freePage addr => s.holds addr 1
  | .freePages addr count => s.holds addr count
  | _ => true

/-- The bitmap is what boot left plus the held pages, and no page is held twice. -/
structure Inv (m₀ : Pmm) (s : PageLedger) : Prop where
  nodup : s.live.flatten.Nodup
  held : ∀ {b}, b ∈ s.live.flatten → m₀.used b = false ∧ b < m₀.pageCount
  used : ∀ b, s.pmm.used b = (m₀.used b || decide (b ∈ s.live.flatten))
  pageCount : s.pmm.pageCount = m₀.pageCount

namespace Inv

variable {m₀ m' : Pmm} {s s' : PageLedger} {addr count page : ℕ}

/-- A page of the run is held. -/
lemma mem_of_holds (h : s.holds addr count = true) {b : ℕ}
    (hb : Pmm.InRun (addr / pageSize) count b) : b ∈ s.live.flatten := by
  simp only [holds, Bool.and_eq_true, all_eq_true, contains_iff_mem] at h
  exact h.2 b (mem_range'_1.mpr hb)

lemma addr_eq (h : s.holds addr count = true) : addr / pageSize * pageSize = addr := by
  simp only [holds, Bool.and_eq_true, decide_eq_true_eq] at h
  exact Nat.div_mul_cancel (Nat.dvd_of_mod_eq_zero h.1)

lemma of_clear (h : Inv m₀ s) {b : ℕ} (hb : s.pmm.used b = false) :
    m₀.used b = false ∧ b ∉ s.live.flatten := by
  have hused := h.used b
  rw [hb] at hused
  simpa using hused.symm

lemma taken (h : Inv m₀ s)
    (hfree : ∀ b, Pmm.InRun page count b → b < s.pmm.pageCount ∧ s.pmm.used b = false)
    (hpc : m'.pageCount = s.pmm.pageCount)
    (hbits : ∀ b, m'.used b = (decide (Pmm.InRun page count b) || s.pmm.used b)) :
    Inv m₀ { pmm := m', live := List.range' page count :: s.live } := by
  have hrun : ∀ {b}, b ∈ List.range' page count ↔ Pmm.InRun page count b := mem_range'_1
  refine ⟨?_, ?_, ?_, hpc.trans h.pageCount⟩
  · rw [flatten_cons, nodup_append]
    refine ⟨nodup_range', h.nodup, ?_⟩
    rintro b hb _ hheld rfl
    exact (h.of_clear (hfree b (hrun.mp hb)).2).2 hheld
  · intro b hb
    rw [flatten_cons, mem_append, hrun] at hb
    rcases hb with hb | hb
    · obtain ⟨hlt, hclear⟩ := hfree b hb
      exact ⟨(h.of_clear hclear).1, h.pageCount ▸ hlt⟩
    · exact h.held hb
  · intro b
    simp only [hbits, h.used, flatten_cons, mem_append, hrun, Bool.decide_or]
    rw [← Bool.or_assoc, ← Bool.or_assoc, Bool.or_comm (decide _) (m₀.used b)]

lemma given (h : Inv m₀ s) (hheld : ∀ b, Pmm.InRun page count b → b ∈ s.live.flatten)
    (hpc : m'.pageCount = s.pmm.pageCount)
    (hbits : ∀ b, m'.used b = (!decide (Pmm.InRun page count b) && s.pmm.used b)) :
    Inv m₀ { pmm := m', live := s.live.map (outside page count) } := by
  have hflat : (s.live.map (outside page count)).flatten = outside page count s.live.flatten :=
    (filter_flatten ..).symm
  refine ⟨?_, ?_, ?_, hpc.trans h.pageCount⟩
  · rw [hflat]
    exact h.nodup.filter _
  · intro b hb
    rw [hflat, outside] at hb
    exact h.held (mem_filter.mp hb).1
  · intro b
    rw [hbits, hflat, h.used, outside]
    by_cases hb : Pmm.InRun page count b
    · simp [hb, (h.held (hheld b hb)).1]
    · simp [hb]

lemma freePages (h : Inv m₀ s) (hm₀ : m₀.Addressable) (hzero : m₀.used 0 = true)
    (hok : s.holds addr count = true) : ∃ m', s.pmm.freePages addr count = some m' ∧
      m'.pageCount = s.pmm.pageCount ∧
      ∀ b, m'.used b = (!decide (Pmm.InRun (addr / pageSize) count b) && s.pmm.used b) := by
  have hm : s.pmm.Addressable := by
    rw [Pmm.Addressable, h.pageCount]
    exact hm₀
  have hrun : ∀ b, Pmm.InRun (addr / pageSize) count b →
      b ≠ 0 ∧ b < s.pmm.pageCount ∧ s.pmm.used b = true := by
    intro b hb
    obtain ⟨hclear, hlt⟩ := h.held (mem_of_holds hok hb)
    refine ⟨?_, h.pageCount ▸ hlt, ?_⟩
    · rintro rfl
      simp [hzero] at hclear
    · rw [h.used]
      simp [mem_of_holds hok hb]
  have hfree := Pmm.freePages_eq hm hrun
  rwa [addr_eq hok] at hfree

lemma freePage_eq (hok : s.holds addr 1 = true) (hm : s.pmm.Addressable)
    (hlt : addr / pageSize < s.pmm.pageCount) :
    s.pmm.freePages addr 1 = s.pmm.freePage addr := by
  have hu : u64 (addr + 0 * pageSize) = addr := by
    have hlt' : addr / pageSize + 0 < s.pmm.pageCount := hlt
    have heq := Pmm.u64_page hm hlt'
    rwa [addr_eq hok, Nat.add_zero, addr_eq hok] at heq
  rw [Pmm.freePages, range_one, foldlM_cons, hu]
  cases s.pmm.freePage addr <;> rfl

lemma freePage (h : Inv m₀ s) (hm₀ : m₀.Addressable) (hzero : m₀.used 0 = true)
    (hok : s.holds addr 1 = true) : ∃ m', s.pmm.freePage addr = some m' ∧
      m'.pageCount = s.pmm.pageCount ∧
      ∀ b, m'.used b = (!decide (Pmm.InRun (addr / pageSize) 1 b) && s.pmm.used b) := by
  have hin : Pmm.InRun (addr / pageSize) 1 (addr / pageSize) := by
    unfold Pmm.InRun
    omega
  have hm : s.pmm.Addressable := by
    rw [Pmm.Addressable, h.pageCount]
    exact hm₀
  have hlt : addr / pageSize < s.pmm.pageCount := h.pageCount ▸ (h.held (mem_of_holds hok hin)).2
  rw [← freePage_eq hok hm hlt]
  exact h.freePages hm₀ hzero hok

lemma step (h : Inv m₀ s) (hm₀ : m₀.Addressable) (hzero : m₀.used 0 = true) {op : PmmOp}
    (hok : s.freeOk op = true) (hs : s.step op = some s') : Inv m₀ s' := by
  have hpage : ∀ p : ℕ, p * pageSize / pageSize = p := fun p => Nat.mul_div_cancel p (by decide)
  cases op with
  | allocPage =>
    obtain ⟨⟨m', addr⟩, ha, rfl⟩ := Option.map_eq_some_iff.mp hs
    obtain ⟨page, rfl, hlt, hclear, hpc, hbits⟩ := Pmm.allocPage_spec ha
    have hone : ∀ b, Pmm.InRun page 1 b ↔ b = page := by
      intro b
      unfold Pmm.InRun
      omega
    simp only [hpage]
    refine h.taken (fun b hb => ?_) hpc fun b => ?_
    · rw [(hone b).mp hb]
      exact ⟨hlt, hclear⟩
    · simp only [hone, hbits]
  | allocPages count =>
    obtain ⟨⟨m', addr⟩, ha, rfl⟩ := Option.map_eq_some_iff.mp hs
    obtain ⟨page, rfl, hfree, hpc, hbits⟩ := Pmm.allocPages_spec ha
    simp only [hpage]
    exact h.taken hfree hpc hbits
  | freePage addr =>
    obtain ⟨m', hm', rfl⟩ := Option.map_eq_some_iff.mp hs
    obtain ⟨m'', hm'', hpc, hbits⟩ := h.freePage hm₀ hzero hok
    obtain rfl := Option.mem_unique hm' hm''
    exact h.given (fun b hb => mem_of_holds hok hb) hpc hbits
  | freePages addr count =>
    obtain ⟨m', hm', rfl⟩ := Option.map_eq_some_iff.mp hs
    obtain ⟨m'', hm'', hpc, hbits⟩ := h.freePages hm₀ hzero hok
    obtain rfl := Option.mem_unique hm' hm''
    exact h.given (fun b hb => mem_of_holds hok hb) hpc hbits

end Inv

end PageLedger

/-! ## Whole runs -/

/-- What a call for `count` pages does: the run returned was free, below `page_count`, free at
boot and not held, and its bits are the ones that change. -/
def PageLedger.TakesRun (m₀ : Pmm) (s : PageLedger) (count : ℕ) (m' : Pmm) (addr : ℕ) : Prop :=
  ∃ page, addr = page * pageSize ∧
    (∀ b, Pmm.InRun page count b → b < m₀.pageCount ∧ s.pmm.used b = false ∧
      m₀.used b = false ∧ b ∉ s.live.flatten) ∧
    ∀ b, m'.used b = (decide (Pmm.InRun page count b) || s.pmm.used b)

/-- From the state `pmm_init` leaves, with page 0 not usable, and giving back only what is held:

* no page belongs to two outstanding allocations, and a held page was free at boot;
* a call that returns pages returns a run of pages that were free and sets exactly their bits;
* giving back held pages reaches no panic and clears exactly their bits;
* an allocation given back at once leaves the bitmap as it was. -/
theorem pages_have_one_holder {mmap : List MemmapEntry}
    {kernelPhysBase kernelSize initrdAddr initrdSize : ℕ} {m₀ : Pmm} {s : PageLedger}
    {ls : List PmmOp}
    (hinit : Pmm.init mmap kernelPhysBase kernelSize initrdAddr initrdSize = some m₀)
    (hzero : ∀ e ∈ mmap, e.usablePage 0 = false)
    (hrun : Run PageLedger.step (fun s op => s.freeOk op = true) ⟨m₀, []⟩ ls s) :
    s.live.flatten.Nodup ∧
      (∀ b ∈ s.live.flatten, m₀.used b = false ∧ b < m₀.pageCount ∧ s.pmm.used b = true) ∧
      (∀ m' addr, s.pmm.allocPage = some (m', addr) → s.TakesRun m₀ 1 m' addr) ∧
      (∀ count m' addr, s.pmm.allocPages count = some (m', addr) →
        s.TakesRun m₀ count m' addr) ∧
      (∀ addr, s.holds addr 1 = true → ∃ m', s.pmm.freePage addr = some m' ∧
        ∀ b, m'.used b = (!decide (Pmm.InRun (addr / pageSize) 1 b) && s.pmm.used b)) ∧
      (∀ addr count, s.holds addr count = true → ∃ m', s.pmm.freePages addr count = some m' ∧
        ∀ b, m'.used b = (!decide (Pmm.InRun (addr / pageSize) count b) && s.pmm.used b)) ∧
      ∀ count m' addr, s.pmm.allocPages count = some (m', addr) →
        ∃ m'', m'.freePages addr count = some m'' ∧ ∀ b, m''.used b = s.pmm.used b := by
  obtain ⟨hm₀, hboot⟩ := Pmm.init_spec hinit
  have hzero₀ : m₀.used 0 = true := hboot 0 hzero
  have hinv : PageLedger.Inv m₀ s := by
    refine Run.invariant (I := PageLedger.Inv m₀) ?_ ?_ hrun
    · exact ⟨nodup_nil, nofun, fun b => by simp, rfl⟩
    · exact fun _ _ _ h hok hs => h.step hm₀ hzero₀ hok hs
  have htakes : ∀ count m' addr, s.pmm.allocPages count = some (m', addr) →
      s.TakesRun m₀ count m' addr := by
    intro count m' addr ha
    obtain ⟨page, rfl, hfree, -, hbits⟩ := Pmm.allocPages_spec ha
    refine ⟨page, rfl, fun b hb => ?_, hbits⟩
    obtain ⟨hlt, hclear⟩ := hfree b hb
    exact ⟨hinv.pageCount ▸ hlt, hclear, hinv.of_clear hclear⟩
  refine ⟨hinv.nodup, ?_, ?_, htakes, ?_, ?_, ?_⟩
  · intro b hb
    obtain ⟨hclear, hlt⟩ := hinv.held hb
    exact ⟨hclear, hlt, by rw [hinv.used]; simp [hb]⟩
  · intro m' addr ha
    exact htakes 1 m' addr ha
  · intro addr hok
    obtain ⟨m', hm', -, hbits⟩ := hinv.freePage hm₀ hzero₀ hok
    exact ⟨m', hm', hbits⟩
  · intro addr count hok
    obtain ⟨m', hm', -, hbits⟩ := hinv.freePages hm₀ hzero₀ hok
    exact ⟨m', hm', hbits⟩
  · intro count m' addr ha
    obtain ⟨page, rfl, hfree, hpc, hbits⟩ := Pmm.allocPages_spec ha
    have hm' : m'.Addressable := by
      rw [Pmm.Addressable, hpc, hinv.pageCount]
      exact hm₀
    obtain ⟨m'', hm'', -, hbits''⟩ := Pmm.freePages_eq hm' fun b hb => by
      obtain ⟨hlt, hclear⟩ := hfree b hb
      refine ⟨?_, hpc ▸ hlt, by rw [hbits]; simp [hb]⟩
      rintro rfl
      rw [hinv.used, hzero₀] at hclear
      simp at hclear
    refine ⟨m'', hm'', fun b => ?_⟩
    rw [hbits'', hbits]
    by_cases hb : Pmm.InRun page count b
    · simp [hb, (hfree b hb).2]
    · simp [hb]

/-- Eight pages, of which page 0 is not usable and the bitmap, the kernel and the archive take
three: a page and a run of two are taken, and the first page of the run is given back. -/
theorem pages_have_one_holder_small : ∃ m₀ s,
    Pmm.init [⟨0x1000, 0x7000, 0⟩, ⟨0x8000, 0x1000, 1⟩] 0x2000 0x1000 0x3000 0x800 = some m₀ ∧
    Run PageLedger.step (fun s op => s.freeOk op = true) ⟨m₀, []⟩
      [.allocPage, .allocPages 2, .freePage 0x5000] s ∧
    s.live = [[6], [4]] ∧ s.live.flatten.Nodup ∧
    ∃ m', s.pmm.freePages 0x6000 1 = some m' ∧ m'.used 6 = false := by
  obtain ⟨m₀, hinit⟩ : ∃ m₀, Pmm.init [⟨0x1000, 0x7000, 0⟩, ⟨0x8000, 0x1000, 1⟩] 0x2000 0x1000
      0x3000 0x800 = some m₀ := Option.isSome_iff_exists.mp (by decide +kernel)
  have hm₀ : (Pmm.init [⟨0x1000, 0x7000, 0⟩, ⟨0x8000, 0x1000, 1⟩] 0x2000 0x1000
      0x3000 0x800).any (fun m₀ =>
        (exec PageLedger.step ⟨m₀, []⟩ [.allocPage, .allocPages 2, .freePage 0x5000]).any
          (fun s => s.live == [[6], [4]]) &&
        execOk PageLedger.step PageLedger.freeOk ⟨m₀, []⟩
          [.allocPage, .allocPages 2, .freePage 0x5000]) = true := by decide +kernel
  rw [hinit, Option.any_some, Bool.and_eq_true] at hm₀
  obtain ⟨s, hrun, hP⟩ : ∃ s, Run PageLedger.step (fun s op => s.freeOk op = true) ⟨m₀, []⟩
      [.allocPage, .allocPages 2, .freePage 0x5000] s ∧ (s.live == [[6], [4]]) = true :=
    Run.exists_of_exec PageLedger.freeOk (fun _ _ h => h) _ hm₀.1 hm₀.2
  have hlive : s.live = [[6], [4]] := eq_of_beq hP
  have hall := pages_have_one_holder hinit (by decide +kernel) hrun
  obtain ⟨m', hm', hbits⟩ := hall.2.2.2.2.2.1 0x6000 1
    (by simp only [PageLedger.holds, hlive]; decide +kernel)
  refine ⟨m₀, s, hinit, hrun, hlive, hall.1, m', hm', ?_⟩
  rw [hbits]
  simp only [Bool.and_eq_false_iff]
  exact .inl (by decide +kernel)

end CobjOs
