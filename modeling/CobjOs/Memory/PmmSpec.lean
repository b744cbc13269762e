import CobjOs.Memory.Pmm

/-!
# What the page allocator does to its bits

One lemma for each routine of `pmm.c`, in terms of single pages: which bits it changes, which
pages it returns, and when it comes back at all.  The two searches are described alike
(`allocPage_spec`, `allocPages_spec`): the result is a run of free pages below `page_count`, and
exactly its bits are set.
-/

namespace CobjOs

open List Option

namespace Pmm

variable {m m' : Pmm} {addr count page b base first last length words : ℕ}

/-- The `count` pages from `page` on. -/
def InRun (page count b : ℕ) : Prop := page ≤ b ∧ b < page + count

instance (page count b : ℕ) : Decidable (InRun page count b) :=
  inferInstanceAs (Decidable (_ ∧ _))

/-- The pages whose bits were set between two states. -/
def taken (m m' : Pmm) : List ℕ :=
  (List.range m.pageCount).filter fun b => m'.used b && !m.used b

lemma mem_taken :
    b ∈ taken m m' ↔ b < m.pageCount ∧ m'.used b = true ∧ m.used b = false := by
  simp [taken]

/-! ## Allocation -/

lemma allocPageIn_spec : ∀ (is : List ℕ), m.allocPageIn words is = some (m', addr) →
    ∃ page, addr = page * pageSize ∧ page < m.pageCount ∧ m.used page = false ∧
      m'.pageCount = m.pageCount ∧ ∀ b, m'.used b = (decide (b = page) || m.used b)
  | [], h => by simp [allocPageIn] at h
  | i :: is, h => by
      simp only [allocPageIn] at h
      split_ifs at h with hfull hout
      · exact allocPageIn_spec is h
      · exact allocPageIn_spec is h
      · obtain ⟨rfl, rfl⟩ := Prod.mk.inj (some.inj h)
        obtain ⟨hlt, hclear, -⟩ := ctz_not_spec hfull
        generalize u64 (m.lastAllocWord + i) % words = word at hlt hclear hout ⊢
        have hdiv : (word * 64 + ctz (~~~m.bitmap word)) / 64 = word := by omega
        have hmod : (word * 64 + ctz (~~~m.bitmap word)) % 64 = ctz (~~~m.bitmap word) := by omega
        refine ⟨_, rfl, Nat.lt_of_not_le hout, ?_, rfl, ?_⟩
        · rw [used, Bitmap.bit, hdiv, hmod, hclear]
        · intro b
          -- the word written is the one `Bitmap.set` writes
          have hset := m.bitmap.bit_set (word * 64 + ctz (~~~m.bitmap word)) b
          rw [Bitmap.set, hdiv, hmod] at hset
          exact hset

lemma allocPage_spec (h : m.allocPage = some (m', addr)) :
    ∃ page, addr = page * pageSize ∧ page < m.pageCount ∧ m.used page = false ∧
      m'.pageCount = m.pageCount ∧ ∀ b, m'.used b = (decide (b = page) || m.used b) :=
  allocPageIn_spec _ h

lemma allocPageIn_none : ∀ (is : List ℕ), m.allocPageIn words is = none →
    ∀ i ∈ is, ∀ b < m.pageCount, b / 64 = u64 (m.lastAllocWord + i) % words → m.used b = true
  | [], _, i, hi => by simp at hi
  | j :: is, h, i, hi => by
      simp only [allocPageIn] at h
      intro b hb hword
      rcases mem_cons.1 hi with rfl | hi
      · rw [← hword] at h
        rw [used, Bitmap.bit]
        by_cases hfull : m.bitmap (b / 64) = BitVec.allOnes 64
        · rw [hfull, BitVec.getLsbD_allOnes]
          exact decide_eq_true (Nat.mod_lt _ (by decide))
        · rw [if_neg hfull] at h
          split_ifs at h with hout
          -- the lowest clear bit is at or above `page_count`
          exact (ctz_not_spec hfull).2.2 _ (by omega)
      · split_ifs at h
        · exact allocPageIn_none is h i hi b hb hword
        · exact allocPageIn_none is h i hi b hb hword

/-- The turns of `pmm_alloc_page` come to every word, if their sum with the last word does not
wrap. -/
lemma exists_turn {w : ℕ} (hw : w < words) (hlast : last + words ≤ 2 ^ 64) :
    ∃ i ∈ List.range words, u64 (last + i) % words = w := by
  have hr : last % words < words := Nat.mod_lt _ (by omega)
  have hq := Nat.div_add_mod last words
  have hturn : ∀ i < words, ∀ k, last + i = w + words * k → u64 (last + i) % words = w := by
    intro i hi k hsum
    have hwrap : u64 (last + i) = last + i := Nat.mod_eq_of_lt (by omega)
    rw [hwrap, hsum, Nat.add_mul_mod_self_left, Nat.mod_eq_of_lt hw]
  by_cases hle : last % words ≤ w
  · exact ⟨w - last % words, mem_range.2 (by omega),
      hturn _ (by omega) (last / words) (by omega)⟩
  · refine ⟨w + words - last % words, mem_range.2 (by omega),
      hturn _ (by omega) (last / words + 1) ?_⟩
    rw [Nat.mul_succ]
    omega

/-- Some page of the run is used. -/
def Blocked (m : Pmm) (count page : ℕ) : Prop := ∃ b, InRun page count b ∧ m.used b = true

/-- The search for a run: the `run` bits right before `bit` are clear, and every run that starts
before them has a used page. -/
lemma findRun_spec : ∀ (fuel bit run runStart : ℕ),
    (∀ b, InRun (bit - run) run b → m.used b = false) → (∀ p < bit - run, m.Blocked count p) →
    run < count → run ≤ bit → (run ≠ 0 → runStart = bit - run) →
    (∀ page, m.findRun count fuel bit run runStart = some page → page + count ≤ bit + fuel ∧
      (∀ b, InRun page count b → m.used b = false) ∧ ∀ p < page, m.Blocked count p) ∧
    (m.findRun count fuel bit run runStart = none → ∀ p, p + count ≤ bit + fuel → m.Blocked count p)
  | 0, bit, run, runStart, _, hbefore, hlt, hle, _ => by
      refine ⟨fun page h => by simp [findRun] at h, fun _ p hp => hbefore p ?_⟩
      omega
  | fuel + 1, bit, run, runStart, hrun, hbefore, hlt, hle, hstart => by
      rw [show bit + (fuel + 1) = bit + 1 + fuel by omega]
      by_cases hbit : m.used bit = false
      · have hs : (if run = 0 then bit else runStart) = bit - run := by
          split_ifs with hz
          · rw [hz, Nat.sub_zero]
          · exact hstart hz
        have hnext : ∀ b, InRun (bit + 1 - (run + 1)) (run + 1) b → m.used b = false := by
          intro b hb
          by_cases hbb : b = bit
          · rw [hbb, hbit]
          · apply hrun
            unfold InRun at hb ⊢
            omega
        simp only [findRun, if_pos hbit, hs]
        split_ifs with hdone
        · refine ⟨fun page h => ?_, fun h => by simp at h⟩
          obtain rfl := some.inj h
          rw [Nat.add_sub_add_right, hdone] at hnext
          exact ⟨by omega, hnext, hbefore⟩
        · exact findRun_spec fuel (bit + 1) (run + 1) (bit - run) hnext
            (by rwa [Nat.add_sub_add_right]) (by omega) (by omega) (by omega)
      · simp only [findRun, if_neg hbit]
        refine findRun_spec fuel (bit + 1) 0 runStart (fun b hb => ?_) (fun p hp => ?_)
          (by omega) (by omega) (by omega)
        · unfold InRun at hb
          omega
        · by_cases hpb : p < bit - run
          · exact hbefore p hpb
          · refine ⟨bit, ?_, Bool.not_eq_false _ ▸ hbit⟩
            unfold InRun
            omega

/-- The search of `pmm_alloc_pages` finds the lowest free run. -/
lemma findRun_least (m : Pmm) (hcount : 0 < count) :
    (∀ page, m.findRun count m.pageCount 0 0 0 = some page → page + count ≤ m.pageCount ∧
      (∀ b, InRun page count b → m.used b = false) ∧ ∀ p < page, m.Blocked count p) ∧
    (m.findRun count m.pageCount 0 0 0 = none →
      ∀ p, p + count ≤ m.pageCount → m.Blocked count p) := by
  have hrun : ∀ b, InRun 0 0 b → m.used b = false := by
    intro b hb
    unfold InRun at hb
    omega
  have hall := findRun_spec m.pageCount 0 0 0 hrun (by simp) hcount (Nat.le_refl _) (by simp)
  rwa [Nat.zero_add] at hall

/-- A call for `count` pages takes a run of free ones; the run of a call for none is empty. -/
lemma allocPages_spec (h : m.allocPages count = some (m', addr)) :
    ∃ page, addr = page * pageSize ∧ (∀ b, InRun page count b → b < m.pageCount ∧
        m.used b = false) ∧ m'.pageCount = m.pageCount ∧
      ∀ b, m'.used b = (decide (InRun page count b) || m.used b) := by
  unfold allocPages at h
  split_ifs at h with hzero hone
  · obtain ⟨rfl, rfl⟩ := Prod.mk.inj (some.inj h)
    have hno : ∀ b, ¬InRun 0 count b := by
      intro b hb
      unfold InRun at hb
      omega
    exact ⟨0, by simp, fun b hb => absurd hb (hno b), rfl, fun b => by simp [hno b]⟩
  · obtain ⟨page, haddr, hlt, hfree, hpc, hbits⟩ := allocPage_spec h
    have hin : ∀ b, InRun page count b ↔ b = page := by
      intro b
      unfold InRun
      omega
    refine ⟨page, haddr, fun b hb => ?_, hpc, fun b => ?_⟩
    · rw [(hin b).mp hb]
      exact ⟨hlt, hfree⟩
    · rw [hbits]
      simp only [hin]
  · simp only [bind, bind_eq_some_iff, some.injEq, Prod.mk.injEq] at h
    obtain ⟨page, hrun, rfl, rfl⟩ := h
    obtain ⟨hbound, hfree, -⟩ := (m.findRun_least (Nat.pos_of_ne_zero hzero)).1 page hrun
    refine ⟨page, rfl, fun b hb => ⟨?_, hfree b hb⟩, rfl, fun b => ?_⟩
    · unfold InRun at hb
      omega
    · rw [used, Bitmap.bit_foldl_set]
      have hin : (b ∈ List.range' page count) = InRun page count b := by
        apply propext
        rw [mem_range'_1]
        rfl
      simp only [hin]
      rfl

/-- `pmm_alloc_page` panics exactly when every page is used. -/
lemma allocPage_eq_none (hcount : m.pageCount + 63 < 2 ^ 64)
    (hlast : m.lastAllocWord + (m.pageCount + 63) / 64 ≤ 2 ^ 64) :
    m.allocPage = none ↔ ∀ b < m.pageCount, m.used b = true := by
  have hwords : u64 (m.pageCount + 63) = m.pageCount + 63 := Nat.mod_eq_of_lt hcount
  constructor
  · intro h b hb
    rw [allocPage, hwords] at h
    obtain ⟨i, hi, hturn⟩ := exists_turn (w := b / 64) (by omega) hlast
    exact allocPageIn_none _ h i hi b hb hturn.symm
  · intro hall
    cases h : m.allocPage with
    | none => rfl
    | some r =>
      obtain ⟨m', addr⟩ := r
      obtain ⟨page, -, hlt, hfree, -⟩ := allocPage_spec h
      rw [hall page hlt] at hfree
      simp at hfree

/-- `pmm_alloc_pages` panics exactly when no run is free, and takes no later run than the
lowest. -/
lemma allocPages_least (hcount : 2 ≤ count) :
    (m.allocPages count = none ↔
      ∀ p, p + count ≤ m.pageCount → m.Blocked count p) ∧
    ∀ m' page, m.allocPages count = some (m', page * pageSize) →
      ∀ p < page, m.Blocked count p := by
  obtain ⟨hleast, hnone⟩ := m.findRun_least (Nat.zero_lt_of_lt hcount)
  have hcall : m.allocPages count = (m.findRun count m.pageCount 0 0 0).map fun runStart =>
      ({ m with bitmap := (List.range' runStart count).foldl Bitmap.set m.bitmap },
        runStart * pageSize) := by
    rw [allocPages, if_neg (by omega), if_neg (by omega)]
    cases m.findRun count m.pageCount 0 0 0 <;> rfl
  rw [hcall]
  refine ⟨⟨fun h => hnone (by simpa using h), fun hall => ?_⟩, fun m' page h => ?_⟩
  · rw [map_eq_none_iff]
    cases h : m.findRun count m.pageCount 0 0 0 with
    | none => rfl
    | some page =>
      obtain ⟨hbound, hfree, -⟩ := hleast page h
      obtain ⟨b, hb, hused⟩ := hall page hbound
      exact absurd hused (Bool.eq_false_iff.1 (hfree b hb))
  · obtain ⟨page', hrun, heq⟩ := map_eq_some_iff.1 h
    rw [Prod.mk.injEq] at heq
    have hsame : page' = page := Nat.eq_of_mul_eq_mul_right (by decide) heq.2
    exact hsame ▸ (hleast page' hrun).2.2

/-! ## Freeing -/

lemma freePage_eq_some (h : m.freePage addr = some m') :
    addr ≠ 0 ∧ addr / pageSize * pageSize = addr ∧ addr / pageSize < m.pageCount ∧
      m.used (addr / pageSize) = true ∧ m'.pageCount = m.pageCount ∧
      ∀ b, m'.used b = (!decide (b = addr / pageSize) && m.used b) := by
  unfold freePage at h
  split_ifs at h with hz hal hout hfree
  obtain rfl := some.inj h
  refine ⟨hz, Nat.div_mul_cancel (Nat.dvd_of_mod_eq_zero (not_not.mp hal)),
    Nat.lt_of_not_le hout, ?_, rfl, ?_⟩
  · simpa using hfree
  · intro b
    exact m.bitmap.bit_clear _ b

lemma freePage_eq (hpos : page ≠ 0) (hlt : page < m.pageCount) (hused : m.used page = true) :
    m.freePage (page * pageSize) = some { m with bitmap := m.bitmap.clear page } := by
  have hsize : 0 < pageSize := by decide
  have hdiv : page * pageSize / pageSize = page := Nat.mul_div_cancel _ hsize
  have hz : page * pageSize ≠ 0 := Nat.mul_ne_zero hpos (Nat.ne_of_gt hsize)
  rw [freePage, hdiv, if_neg hz, if_neg (by simp), if_neg (Nat.not_le_of_lt hlt), hused,
    if_neg (by simp)]

/-- The address of a page below `page_count` does not wrap. -/
def Addressable (m : Pmm) : Prop := m.pageCount * pageSize ≤ 2 ^ 64

lemma u64_page (hm : m.Addressable) {i : ℕ} (hlt : page + i < m.pageCount) :
    u64 (page * pageSize + i * pageSize) = (page + i) * pageSize := by
  have hle : (page + i) * pageSize < m.pageCount * pageSize :=
    Nat.mul_lt_mul_of_pos_right hlt (by decide)
  rw [u64, ← Nat.add_mul, Nat.mod_eq_of_lt (Nat.lt_of_lt_of_le hle hm)]

lemma freePages_eq (hm : m.Addressable)
    (hrun : ∀ b, InRun page count b → b ≠ 0 ∧ b < m.pageCount ∧ m.used b = true) :
    ∃ m', m.freePages (page * pageSize) count = some m' ∧ m'.pageCount = m.pageCount ∧
      ∀ b, m'.used b = (!decide (InRun page count b) && m.used b) := by
  induction count with
  | zero =>
    have hno : ∀ b, ¬InRun page 0 b := by
      intro b hb
      unfold InRun at hb
      omega
    exact ⟨m, rfl, rfl, fun b => by simp [hno b]⟩
  | succ count ih =>
    have hsub : ∀ b, InRun page count b → InRun page (count + 1) b := by
      intro b hb
      unfold InRun at hb ⊢
      omega
    obtain ⟨m₁, hfree₁, hpc₁, hbits₁⟩ := ih fun b hb => hrun b (hsub b hb)
    have hlast : InRun page (count + 1) (page + count) := by
      unfold InRun
      omega
    have hnew : ¬InRun page count (page + count) := by
      unfold InRun
      omega
    obtain ⟨hpos, hlt, hused⟩ := hrun _ hlast
    have hused₁ : m₁.used (page + count) = true := by
      rw [hbits₁, hused]
      simp [hnew]
    have hone := freePage_eq hpos (hpc₁ ▸ hlt) hused₁
    have hall : m.freePages (page * pageSize) (count + 1) =
        some { m₁ with bitmap := m₁.bitmap.clear (page + count) } := by
      rw [freePages, range_succ, foldlM_append]
      rw [freePages] at hfree₁
      rw [hfree₁]
      simp only [foldlM_cons, foldlM_nil, bind, bind_some]
      rw [u64_page hm hlt, hone]
      rfl
    refine ⟨_, hall, hpc₁, fun b => ?_⟩
    rw [used, Bitmap.bit_clear]
    have hb₁ : m₁.bitmap.bit b = (!decide (InRun page count b) && m.used b) := hbits₁ b
    rw [hb₁, ← Bool.and_assoc]
    congr 1
    have hsplit : InRun page (count + 1) b ↔ b = page + count ∨ InRun page count b := by
      unfold InRun
      omega
    simp only [hsplit, Bool.decide_or, Bool.not_or]

/-! ## Boot -/

lemma mem_pageAddrs (hfirst : pageSize ∣ first) (hlast : pageSize ∣ last) :
    b * pageSize ∈ pageAddrs first last ↔ first ≤ b * pageSize ∧ b * pageSize < last := by
  obtain ⟨f, rfl⟩ := hfirst
  obtain ⟨l, rfl⟩ := hlast
  have hsize : pageSize = 4096 := rfl
  simp only [pageAddrs, List.mem_map, mem_range, hsize]
  constructor
  · rintro ⟨i, hi, heq⟩
    omega
  · intro h
    exact ⟨b - f, by omega, by omega⟩

lemma dvd_alignUp (x : ℕ) : pageSize ∣ alignUp x := ⟨_, Nat.mul_comm _ _⟩

lemma dvd_alignDown (x : ℕ) : pageSize ∣ alignDown x := ⟨_, Nat.mul_comm _ _⟩

lemma dvd_of_mem_pageAddrs {a : ℕ} (hfirst : pageSize ∣ first)
    (ha : a ∈ pageAddrs first last) : a / pageSize * pageSize = a := by
  obtain ⟨i, -, rfl⟩ := List.mem_map.mp ha
  exact Nat.div_mul_cancel (Nat.dvd_add hfirst ⟨i, Nat.mul_comm _ _⟩)

/-- Marking every page of a list changes the bits of these pages as marking one page does. -/
lemma foldlM_mark {mark : Pmm → ℕ → Option Pmm} {v : Bool}
    (hmark : ∀ {m m' a}, mark m a = some m' → m'.pageCount = m.pageCount ∧
      ∀ b, m'.used b = if b = a / pageSize then v else m.used b) :
    ∀ (as : List ℕ) (m : Pmm), as.foldlM mark m = some m' → m'.pageCount = m.pageCount ∧
      ∀ b, m'.used b = if b ∈ as.map (· / pageSize) then v else m.used b
  | [], m, h => by
      obtain rfl := some.inj h
      simp
  | a :: as, m, h => by
      simp only [foldlM_cons, bind, bind_eq_some_iff] at h
      obtain ⟨m₁, h₁, h⟩ := h
      obtain ⟨hpc₁, hbits₁⟩ := hmark h₁
      obtain ⟨hpc, hbits⟩ := foldlM_mark hmark as m₁ h
      refine ⟨hpc.trans hpc₁, fun b => ?_⟩
      rw [hbits, hbits₁]
      by_cases hb : b = a / pageSize <;> simp [hb]

lemma markFree_spec {a : ℕ} (h : m.markFree a = some m') : m'.pageCount = m.pageCount ∧
    ∀ b, m'.used b = if b = a / pageSize then false else m.used b := by
  unfold markFree at h
  split_ifs at h
  obtain rfl := some.inj h
  refine ⟨rfl, fun b => (m.bitmap.bit_clear (a / pageSize) b).trans ?_⟩
  by_cases hb : b = a / pageSize <;> simp [hb, used]

lemma markUsed_spec {a : ℕ} (h : m.markUsed a = some m') : m'.pageCount = m.pageCount ∧
    ∀ b, m'.used b = if b = a / pageSize then true else m.used b := by
  unfold markUsed at h
  split_ifs at h
  obtain rfl := some.inj h
  refine ⟨rfl, fun b => (m.bitmap.bit_set (a / pageSize) b).trans ?_⟩
  by_cases hb : b = a / pageSize <;> simp [hb, used]

lemma mem_map_pageAddrs (hfirst : pageSize ∣ first) (hlast : pageSize ∣ last) :
    b ∈ (pageAddrs first last).map (· / pageSize) ↔
      first ≤ b * pageSize ∧ b * pageSize < last := by
  rw [← mem_pageAddrs hfirst hlast, List.mem_map]
  constructor
  · rintro ⟨a, ha, rfl⟩
    rwa [dvd_of_mem_pageAddrs hfirst ha]
  · intro hb
    exact ⟨_, hb, Nat.mul_div_cancel _ (by decide)⟩

lemma markRangeFree_spec (h : m.markRangeFree base length = some m') :
    m'.pageCount = m.pageCount ∧ ∀ b, m'.used b =
      (!decide (alignUp base ≤ b * pageSize ∧ b * pageSize < alignDown (u64 (base + length))) &&
        m.used b) := by
  obtain ⟨hpc, hbits⟩ := foldlM_mark markFree_spec _ m h
  refine ⟨hpc, fun b => ?_⟩
  simp only [hbits, mem_map_pageAddrs (dvd_alignUp _) (dvd_alignDown _)]
  split_ifs with hb <;> simp [hb]

lemma markRangeUsed_spec (h : m.markRangeUsed base length = some m') :
    m'.pageCount = m.pageCount ∧ ∀ b, m'.used b =
      (decide (alignDown base ≤ b * pageSize ∧ b * pageSize < alignUp (u64 (base + length))) ||
        m.used b) := by
  obtain ⟨hpc, hbits⟩ := foldlM_mark markUsed_spec _ m h
  refine ⟨hpc, fun b => ?_⟩
  simp only [hbits, mem_map_pageAddrs (dvd_alignDown _) (dvd_alignUp _)]
  split_ifs with hb <;> simp [hb]

end Pmm

/-- The page lies whole in the entry, and the entry is usable. -/
def MemmapEntry.usablePage (e : MemmapEntry) (b : ℕ) : Bool :=
  decide (e.type = memmapUsable) && decide (alignUp e.base ≤ b * pageSize) &&
    decide (b * pageSize < alignDown (u64 (e.base + e.length)))

namespace Pmm

/-- Freeing the usable entries: a page outside all of them keeps its bit. -/
lemma foldlM_markRangeFree {m' : Pmm} : ∀ (es : List MemmapEntry) (m : Pmm),
    (∀ e ∈ es, e.type = memmapUsable) →
    es.foldlM (fun m e => m.markRangeFree e.base e.length) m = some m' →
    m'.pageCount = m.pageCount ∧
      ∀ b, m'.used b = (!es.any (fun e => e.usablePage b) && m.used b)
  | [], m, _, h => by
      simp only [foldlM_nil, pure, some.injEq] at h
      subst h
      simp
  | e :: es, m, hus, h => by
      simp only [foldlM_cons, bind, bind_eq_some_iff] at h
      obtain ⟨m₁, h₁, h⟩ := h
      obtain ⟨hpc₁, hbits₁⟩ := markRangeFree_spec h₁
      obtain ⟨hpc, hbits⟩ := foldlM_markRangeFree es m₁ (fun e he => hus e (by simp [he])) h
      refine ⟨hpc.trans hpc₁, fun b => ?_⟩
      have he : e.usablePage b = decide (alignUp e.base ≤ b * pageSize ∧
          b * pageSize < alignDown (u64 (e.base + e.length))) := by
        simp [MemmapEntry.usablePage, hus e (by simp)]
      rw [hbits, hbits₁, any_cons, he, Bool.not_or, ← Bool.and_assoc]
      congr 1
      exact Bool.and_comm _ _

/-- The highest address a usable entry reaches. -/
def highestUsable (mmap : List MemmapEntry) : ℕ :=
  (mmap.filter fun e => e.type = memmapUsable).foldl (fun h e => max h (u64 (e.base + e.length))) 0

/-- The bytes of the bitmap for the memory map. -/
def bitmapSize (mmap : List MemmapEntry) : ℕ := (highestUsable mmap / pageSize + 63) / 64 * 8

/-- The entry the bitmap is put at the start of. -/
def bitmapRoom (mmap : List MemmapEntry) : Option MemmapEntry :=
  (mmap.filter fun e => e.type = memmapUsable).find? fun e => bitmapSize mmap ≤ e.length

lemma foldl_max_lt : ∀ (es : List MemmapEntry) (h₀ : ℕ), h₀ < 2 ^ 64 →
    es.foldl (fun h e => max h (u64 (e.base + e.length))) h₀ < 2 ^ 64
  | [], _, hlt => hlt
  | e :: es, h₀, hlt =>
      have hu : u64 (e.base + e.length) < 2 ^ 64 := Nat.mod_lt _ (by decide)
      foldl_max_lt es _ (Nat.max_lt.mpr ⟨hlt, hu⟩)

lemma le_foldl_max : ∀ (es : List MemmapEntry) (h₀ : ℕ),
    h₀ ≤ es.foldl (fun h e => max h (u64 (e.base + e.length))) h₀ ∧
    ∀ e ∈ es, u64 (e.base + e.length) ≤
      es.foldl (fun h e => max h (u64 (e.base + e.length))) h₀
  | [], _ => by simp
  | e :: es, h₀ => by
      obtain ⟨hinit, hes⟩ := le_foldl_max es (max h₀ (u64 (e.base + e.length)))
      refine ⟨Nat.le_trans (Nat.le_max_left _ _) hinit, fun e' he' => ?_⟩
      rcases mem_cons.1 he' with rfl | he'
      · exact Nat.le_trans (Nat.le_max_right _ _) hinit
      · exact hes e' he'

lemma highestUsable_lt (mmap : List MemmapEntry) : highestUsable mmap < 2 ^ 64 :=
  foldl_max_lt _ 0 (by decide)

lemma le_highestUsable {mmap : List MemmapEntry} {e : MemmapEntry} (he : e ∈ mmap)
    (hus : e.type = memmapUsable) : u64 (e.base + e.length) ≤ highestUsable mmap :=
  (le_foldl_max _ 0).2 e (mem_filter.2 ⟨he, decide_eq_true hus⟩)

/-- The pages `pmm_mark_range_used` marks. -/
def outerPage (base length b : ℕ) : Bool :=
  decide (alignDown base ≤ b * pageSize ∧ b * pageSize < alignUp (u64 (base + length)))

section Boot

variable {mmap : List MemmapEntry}
  {kernelPhysBase kernelSize initrdAddr initrdSize b base length : ℕ} {m : Pmm}

/-- The bitmap `pmm_init` leaves: a bit is clear if it lies in a usable entry and was not marked
afterwards. -/
lemma init_bits (h : init mmap kernelPhysBase kernelSize initrdAddr initrdSize = some m) :
    m.pageCount = highestUsable mmap / pageSize ∧
    ∃ room, bitmapRoom mmap = some room ∧ ∀ b, m.used b =
      (outerPage initrdAddr initrdSize b || (outerPage room.base (bitmapSize mmap) b ||
        (outerPage kernelPhysBase
          (u64 (alignUp (u64 (kernelPhysBase + kernelSize)) + 2 ^ 64 - kernelPhysBase)) b ||
        !mmap.any fun e => e.usablePage b))) := by
  simp only [init, bind, bind_eq_some_iff] at h
  obtain ⟨room, hroom, m₁, h₁, m₂, h₂, m₃, h₃, h₄⟩ := h
  obtain ⟨hpc₁, hbits₁⟩ := foldlM_markRangeFree _ _
    (fun e he => by simpa using (mem_filter.mp he).2) h₁
  obtain ⟨hpc₂, hbits₂⟩ := markRangeUsed_spec h₂
  obtain ⟨hpc₃, hbits₃⟩ := markRangeUsed_spec h₃
  obtain ⟨hpc₄, hbits₄⟩ := markRangeUsed_spec h₄
  refine ⟨by rw [hpc₄, hpc₃, hpc₂, hpc₁]; rfl, room, hroom, fun b => ?_⟩
  have hall : Bitmap.bit (fun _ => BitVec.allOnes 64) b = true := by
    rw [Bitmap.bit, BitVec.getLsbD_allOnes]
    exact decide_eq_true (Nat.mod_lt _ (by decide))
  -- an entry of another type has no usable page
  have hany : ((mmap.filter fun e => decide (e.type = memmapUsable)).any
      fun e => e.usablePage b) = mmap.any fun e => e.usablePage b := by
    rw [List.any_filter]
    congr 1
    funext e
    rw [MemmapEntry.usablePage, ← Bool.and_assoc, ← Bool.and_assoc, Bool.and_self]
  rw [hbits₄, hbits₃, hbits₂, hbits₁, hany, used, hall, Bool.and_true]
  rfl

/-- `page_count` times the page size is at most the highest usable address, and `pmm_init` leaves
marked what is no usable page. -/
lemma init_spec (h : init mmap kernelPhysBase kernelSize initrdAddr initrdSize = some m) :
    m.Addressable ∧ ∀ b, (∀ e ∈ mmap, e.usablePage b = false) → m.used b = true := by
  obtain ⟨hpc, room, -, hbits⟩ := init_bits h
  refine ⟨?_, fun b hb => ?_⟩
  · rw [Addressable, hpc]
    exact Nat.le_trans (Nat.div_mul_le_self _ _) (Nat.le_of_lt (highestUsable_lt mmap))
  · have hno : (mmap.any fun e => e.usablePage b) = false := by
      rw [List.any_eq_false]
      intro e he
      simp [hb e he]
    rw [hbits, hno]
    simp

/-- Some byte of the range lies in the page. -/
def Meets (base length b : ℕ) : Prop :=
  ∃ x, base ≤ x ∧ x < base + length ∧ x / pageSize = b

lemma meets_iff (hlen : 0 < length) :
    Meets base length b ↔ base < (b + 1) * pageSize ∧ b * pageSize < base + length := by
  have hsize : pageSize = 4096 := rfl
  rw [Meets, hsize]
  constructor
  · rintro ⟨x, hlo, hhi, rfl⟩
    omega
  · rintro ⟨hlo, hhi⟩
    exact ⟨max base (b * 4096), by omega, by omega, by omega⟩

/-- Marking rounds outward: the pages marked are those the range meets. -/
lemma outerPage_iff (hlen : 0 < length) (hend : base + length ≤ 2 ^ 64 - pageSize) :
    outerPage base length b = true ↔ Meets base length b := by
  have hsize : pageSize = 4096 := rfl
  rw [meets_iff hlen, outerPage, decide_eq_true_eq, alignDown, alignUp, u64, u64]
  rw [hsize] at hend ⊢
  omega

/-- The kernel's range was rounded up before it is marked. -/
lemma outerPage_kernel_iff (hlen : 0 < length) (hend : base + length ≤ 2 ^ 64 - pageSize) :
    outerPage base (u64 (alignUp (u64 (base + length)) + 2 ^ 64 - base)) b = true ↔
      Meets base length b := by
  have hsize : pageSize = 4096 := rfl
  rw [meets_iff hlen, outerPage, decide_eq_true_eq, alignDown, alignUp, alignUp, u64, u64, u64,
    u64, u64]
  rw [hsize] at hend ⊢
  omega

end Boot

/-- Freeing rounds inward: the pages freed are those that lie whole in the entry. -/
lemma usablePage_iff {e : MemmapEntry} {b : ℕ} (hend : e.base + e.length < 2 ^ 64)
    (hbase : e.base ≤ 2 ^ 64 - pageSize) :
    e.usablePage b = true ↔ e.type = memmapUsable ∧ e.base ≤ b * pageSize ∧
      (b + 1) * pageSize ≤ e.base + e.length := by
  have hsize : pageSize = 4096 := rfl
  rw [MemmapEntry.usablePage, Bool.and_eq_true, Bool.and_eq_true, decide_eq_true_eq,
    decide_eq_true_eq, decide_eq_true_eq, and_assoc, alignUp, alignDown, u64, u64]
  rw [hsize] at hbase ⊢
  refine and_congr_right fun _ => ?_
  omega

/-! The marking loops come to an end without a panic if all their pages are below
`page_count`. -/

lemma markFree_isSome (m : Pmm) (a : ℕ) (ha : a / pageSize < m.pageCount) :
    ∃ m', m.markFree a = some m' ∧ m'.pageCount = m.pageCount :=
  ⟨_, if_neg (Nat.not_le_of_lt ha), rfl⟩

lemma markUsed_isSome (m : Pmm) (a : ℕ) (ha : a / pageSize < m.pageCount) :
    ∃ m', m.markUsed a = some m' ∧ m'.pageCount = m.pageCount :=
  ⟨_, if_neg (Nat.not_le_of_lt ha), rfl⟩

lemma foldlM_mark_isSome {α : Type} {mark : Pmm → α → Option Pmm} (ok : ℕ → α → Prop)
    (hmark : ∀ m a, ok m.pageCount a → ∃ m', mark m a = some m' ∧ m'.pageCount = m.pageCount) :
    ∀ (as : List α) (m : Pmm), (∀ a ∈ as, ok m.pageCount a) →
      ∃ m', as.foldlM mark m = some m' ∧ m'.pageCount = m.pageCount
  | [], m, _ => ⟨m, rfl, rfl⟩
  | a :: as, m, has => by
      obtain ⟨m₁, h₁, hpc₁⟩ := hmark m a (has a (by simp))
      obtain ⟨m', h', hpc'⟩ := foldlM_mark_isSome ok hmark as m₁ fun a ha => by
        rw [hpc₁]
        exact has a (by simp [ha])
      refine ⟨m', ?_, hpc'.trans hpc₁⟩
      rw [foldlM_cons, h₁]
      exact h'

lemma lt_of_mem_pageAddrs {first last a n : ℕ} (hfirst : pageSize ∣ first)
    (hlast : pageSize ∣ last) (hle : last ≤ n * pageSize) (ha : a ∈ pageAddrs first last) :
    a / pageSize < n := by
  have heq := dvd_of_mem_pageAddrs hfirst ha
  rw [← heq, mem_pageAddrs hfirst hlast] at ha
  exact Nat.lt_of_mul_lt_mul_right (Nat.lt_of_lt_of_le ha.2 hle)

lemma markRangeFree_isSome (m : Pmm) (e : MemmapEntry)
    (hle : alignDown (u64 (e.base + e.length)) ≤ m.pageCount * pageSize) :
    ∃ m', m.markRangeFree e.base e.length = some m' ∧ m'.pageCount = m.pageCount :=
  foldlM_mark_isSome (fun n a => a / pageSize < n) markFree_isSome _ m
    fun _ ha => lt_of_mem_pageAddrs (dvd_alignUp _) (dvd_alignDown _) hle ha

lemma markRangeUsed_isSome {m : Pmm} {base length : ℕ}
    (hle : alignUp (u64 (base + length)) ≤ m.pageCount * pageSize) :
    ∃ m', m.markRangeUsed base length = some m' ∧ m'.pageCount = m.pageCount :=
  foldlM_mark_isSome (fun n a => a / pageSize < n) markUsed_isSome _ m
    fun _ ha => lt_of_mem_pageAddrs (dvd_alignDown _) (dvd_alignUp _) hle ha

/-- `pmm_init` completes if there is room for the bitmap and the three ranges it marks, rounded
up, end below the highest usable page. -/
lemma init_isSome {mmap : List MemmapEntry}
    {kernelPhysBase kernelSize initrdAddr initrdSize : ℕ} {room : MemmapEntry}
    (hroom : bitmapRoom mmap = some room)
    (hkernel : alignUp (u64 (kernelPhysBase +
        u64 (alignUp (u64 (kernelPhysBase + kernelSize)) + 2 ^ 64 - kernelPhysBase))) ≤
      highestUsable mmap / pageSize * pageSize)
    (hbitmap : alignUp (u64 (room.base + bitmapSize mmap)) ≤
      highestUsable mmap / pageSize * pageSize)
    (hinitrd : alignUp (u64 (initrdAddr + initrdSize)) ≤
      highestUsable mmap / pageSize * pageSize) :
    ∃ m, init mmap kernelPhysBase kernelSize initrdAddr initrdSize = some m := by
  obtain ⟨m₁, h₁, hpc₁⟩ := @foldlM_mark_isSome MemmapEntry
    (fun m e => m.markRangeFree e.base e.length)
    (fun n e => alignDown (u64 (e.base + e.length)) ≤ n * pageSize) markRangeFree_isSome
    (mmap.filter fun e => e.type = memmapUsable)
    ⟨fun _ => BitVec.allOnes 64, highestUsable mmap / pageSize, 0⟩ fun e he => by
      obtain ⟨hmem, hus⟩ := mem_filter.1 he
      exact Nat.mul_le_mul_right _
        (Nat.div_le_div_right (le_highestUsable hmem (of_decide_eq_true hus)))
  have hcount : highestUsable mmap / pageSize = m₁.pageCount := hpc₁.symm
  rw [hcount] at hkernel hbitmap hinitrd
  obtain ⟨m₂, h₂, hpc₂⟩ := markRangeUsed_isSome hkernel
  rw [← hpc₂] at hbitmap hinitrd
  obtain ⟨m₃, h₃, hpc₃⟩ := markRangeUsed_isSome hbitmap
  rw [← hpc₃] at hinitrd
  obtain ⟨m₄, h₄, -⟩ := markRangeUsed_isSome hinitrd
  refine ⟨m₄, ?_⟩
  simp only [init, bind, bind_eq_some_iff]
  exact ⟨room, hroom, m₁, h₁, m₂, h₂, m₃, h₃, h₄⟩

end Pmm

end CobjOs
