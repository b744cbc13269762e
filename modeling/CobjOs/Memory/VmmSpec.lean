import CobjOs.Framework.Radix
import CobjOs.Memory.HeapSteps
import CobjOs.Memory.Vmm

/-!
# The tables of the address spaces

`Mm.table m roots s p` is the page of the table that the path `p` of indices leads to in the
address space `s`, with `roots` the pages of the `PML4`s; the paths of interest (`LowPath`) start in
the lower half.  `Tables m roots` says that these tables form a forest in pages that are marked
used.  `Mm.leaf` is the present last-level entry at a path and an index, which is what a mapping is.

`vmm_get_pte` without `alloc` computes `Mm.table`; with `alloc` it lets the forest grow along
one path (`Grown`), by free pages only, and changes no mapping.
-/

namespace CobjOs

variable {p roots : List ℕ}

open List Mem Option

/-- The paths of tables below the lower half of a `PML4`, last index first. -/
def LowPath (p : List ℕ) : Prop :=
  p.length ≤ 3 ∧ (∀ i ∈ p, i < 512) ∧ ∀ i ∈ p.getLast?, i < 256

lemma LowPath.tail {i : ℕ} (h : LowPath (i :: p)) : LowPath p := by
  obtain ⟨hlen, hall, hlast⟩ := h
  refine ⟨Nat.le_of_succ_le hlen, fun j hj => hall j (mem_cons_of_mem _ hj), ?_⟩
  cases p with
  | nil => simp
  | cons j p => simpa using hlast

lemma LowPath.index {i : ℕ} (h : LowPath (i :: p)) : i < 512 :=
  h.2.1 i mem_cons_self

namespace Mm

/-- The address at which the kernel sees a page. -/
def kaddr (m : Mm) (t : ℕ) : ℕ := t * pageSize + m.hhdm

/-- Entry `i` of the table in page `t`. -/
def entry (m : Mm) (t i : ℕ) : ℕ := m.ram.readNat 8 (m.kaddr t + 8 * i)

/-- The entry, if it is present. -/
def present (m : Mm) (t i : ℕ) : Option ℕ :=
  if isPresent (m.entry t i) then some (m.entry t i) else none

/-- The page an entry points to. -/
def child (m : Mm) (t i : ℕ) : Option ℕ := (m.present t i).map (· / pageSize)

/-- The table at the end of a path. -/
def table (m : Mm) (roots : List ℕ) (s : ℕ) (p : List ℕ) : Option ℕ :=
  tableAt (fun s => roots[s]?) m.child s p

/-- The present last-level entry at index `i` of the table at the end of a path. -/
def leaf (m : Mm) (roots : List ℕ) (s : ℕ) (p : List ℕ) (i : ℕ) : Option ℕ :=
  (m.table roots s p).bind fun t => m.present t i

/-- The path to the last-level table of an address. -/
def pathOf (virt : ℕ) : List ℕ := [pdIdx virt, pdptIdx virt, pml4Idx virt]

lemma table_cons (m : Mm) (roots : List ℕ) (s i : ℕ) (p : List ℕ) :
    m.table roots s (i :: p) = (m.table roots s p).bind fun t => m.child t i := rfl

end Mm

lemma lowPath_pathOf {virt : ℕ} (h : virt < 2 ^ 47) : LowPath (Mm.pathOf virt) := by
  refine ⟨by simp [Mm.pathOf], ?_, ?_⟩
  · intro i hi
    simp only [Mm.pathOf, mem_cons, not_mem_nil, or_false] at hi
    rcases hi with rfl | rfl | rfl <;> exact Nat.mod_lt _ (by decide)
  · intro i hi
    simp only [Mm.pathOf, getLast?_cons_cons, getLast?_singleton, mem_def,
      some.injEq] at hi
    subst hi
    unfold pml4Idx
    omega

/-! ## Entries -/

section Entries

variable {m m' : Mm} {t t' i i' e : ℕ}

/-- The bytes of an entry. -/
def InEntry (m : Mm) (t i x : ℕ) : Prop := Within (m.kaddr t + 8 * i) 8 x

/-- The bytes of a page. -/
def InPage (m : Mm) (t x : ℕ) : Prop := Within (m.kaddr t) pageSize x

lemma InEntry.inPage {x : ℕ} (h : InEntry m t i x) (hi : i < 512) : InPage m t x := by
  have hps : pageSize = 4096 := rfl
  unfold InEntry Within at h
  unfold InPage Within
  omega

lemma InPage.unique {x : ℕ} (h : InPage m t x) (h' : InPage m t' x) : t = t' := by
  unfold InPage Mm.kaddr Within pageSize at h h'
  omega

/-- A page with a byte of the heap is one of the heap's. -/
lemma InPage.mem_pages {L : HeapMap} {x : ℕ} (h : InPage m t x) (hx : L.InPages m.hhdm x) :
    t ∈ L.pages := by
  obtain ⟨b, hb, hxb⟩ := hx
  exact h.unique (show InPage m b x from hxb) ▸ hb

lemma Mm.kaddr_congr (h : m'.hhdm = m.hhdm) : m'.kaddr = m.kaddr := by
  funext b
  rw [Mm.kaddr, Mm.kaddr, h]

lemma Mm.Mapped.kaddr_le (h : m.Mapped) (ht : t < m.pmm.pageCount) :
    m.kaddr t + pageSize ≤ 2 ^ 64 := by
  have hle := Nat.mul_le_mul_right pageSize (Nat.succ_le_of_lt ht)
  rw [Nat.succ_mul] at hle
  have hmap := h.2
  unfold Mm.kaddr
  omega

lemma InEntry.unique {x : ℕ} (h : InEntry m t i x) (h' : InEntry m t' i' x) (hi : i < 512)
    (hi' : i' < 512) : t = t' ∧ i = i' := by
  obtain rfl := (h.inPage hi).unique (h'.inPage hi')
  unfold InEntry Within at h h'
  exact ⟨rfl, by omega⟩

lemma entry_of_eqOff {P : ℕ → Prop} (hh : m'.hhdm = m.hhdm) (h : EqOff P m.ram m'.ram)
    (hout : ∀ x, InEntry m t i x → ¬P x) : m'.entry t i = m.entry t i := by
  unfold Mm.entry Mm.kaddr
  rw [hh]
  exact h.readNat hout

lemma present_congr {t' : ℕ} (h : m'.entry t' i = m.entry t i) :
    m'.present t' i = m.present t i := by
  rw [Mm.present, Mm.present, h]

lemma child_congr (h : m'.entry t i = m.entry t i) : m'.child t i = m.child t i := by
  rw [Mm.child, Mm.child, present_congr h]

/-- The address in an entry built from a page and flags. -/
lemma entry_page {page flags : ℕ} (hf : flags < pageSize) :
    (page * pageSize ||| flags) = page * pageSize + flags := by
  have hps : pageSize = 2 ^ 12 := rfl
  rw [hps] at hf ⊢
  rw [Nat.mul_comm page, ← Nat.two_pow_add_eq_or_of_lt hf]

end Entries

/-! ## The forest -/

/-- The tables of the lower halves are in different used pages. -/
structure Tables (m : Mm) (roots : List ℕ) : Prop where
  forest : Forest LowPath (fun s : ℕ => roots[s]?) m.child
  page : ∀ {s p t}, LowPath p → m.table roots s p = some t →
    t ≠ 0 ∧ t < m.pmm.pageCount ∧ m.pmm.used t = true

/-- A page whose bit is clear holds no table. -/
lemma Tables.ne_of_free {m : Mm} {n : ℕ} (h : Tables m roots)
    (hfree : m.pmm.used n = false) (s : ℕ) (p : List ℕ) (hp : LowPath p) :
    m.table roots s p ≠ some n :=
  fun ht => Bool.eq_false_iff.1 hfree (h.page hp ht).2.2

/-- The page holds a table of a lower half. -/
def IsTable (m : Mm) (roots : List ℕ) (t : ℕ) : Prop :=
  ∃ s p, LowPath p ∧ m.table roots s p = some t

lemma exists_table_root (m : Mm) {root : ℕ} (h : root ∈ roots) :
    ∃ s, LowPath [] ∧ m.table roots s [] = some root := by
  obtain ⟨s, hs⟩ := mem_iff_getElem?.1 h
  exact ⟨s, ⟨by simp, by simp, by simp⟩, hs⟩

lemma isTable_root (m : Mm) {root : ℕ} (h : root ∈ roots) :
    IsTable m roots root := by
  obtain ⟨s, hp, hs⟩ := exists_table_root m h
  exact ⟨s, [], hp, hs⟩

lemma table_nil (m : Mm) (s : ℕ) (p : List ℕ) : m.table [] s p = none :=
  tableAt_of_root_none rfl p

lemma not_isTable_nil (m : Mm) (t : ℕ) : ¬IsTable m [] t := by
  rintro ⟨s, p, -, ht⟩
  rw [table_nil] at ht
  cases ht

/-- Without address spaces there are no tables. -/
lemma Tables.nil (m : Mm) : Tables m [] where
  forest := fun s _ p _ t _ _ ht _ => by
    have hnone : tableAt (fun s : ℕ => ([] : List ℕ)[s]?) m.child s p = none := table_nil m s p
    rw [hnone] at ht
    cases ht
  page := fun {s p t} hp ht => absurd ⟨s, p, hp, ht⟩ (not_isTable_nil m t)

lemma Tables.used {m : Mm} {t : ℕ} (h : Tables m roots)
    (ht : IsTable m roots t) : m.pmm.used t = true := by
  obtain ⟨s, p, hp, ht⟩ := ht
  exact (h.page hp ht).2.2

/-- The entries of the tables are unchanged. -/
def SameEntries (m m' : Mm) (roots : List ℕ) : Prop :=
  ∀ t, IsTable m roots t → ∀ i < 512, m'.entry t i = m.entry t i

section Frame

variable {m m' : Mm} {roots p : List ℕ} {s t i : ℕ}

lemma table_congr (h : SameEntries m m' roots)
    (hp : LowPath p) : m'.table roots s p = m.table roots s p :=
  tableAt_congr (fun _ _ => LowPath.tail) (fun _ _ _ hip ht =>
    child_congr (h _ ⟨s, _, hip.tail, ht⟩ _ hip.index)) p hp

lemma leaf_congr (h : SameEntries m m' roots)
    (hp : LowPath p) (hi : i < 512) : m'.leaf roots s p i = m.leaf roots s p i := by
  rw [Mm.leaf, Mm.leaf, table_congr h hp]
  cases ht : m.table roots s p with
  | none => rfl
  | some t => exact present_congr (h t ⟨s, p, hp, ht⟩ i hi)

lemma isTable_congr (h : SameEntries m m' roots) :
    IsTable m' roots t ↔ IsTable m roots t := by
  refine exists_congr fun s => exists_congr fun p => and_congr_right fun hp => ?_
  rw [table_congr h hp]

lemma SameEntries.trans {m'' : Mm} (h : SameEntries m m' roots) (h' : SameEntries m' m'' roots) :
    SameEntries m m'' roots :=
  fun t ht i hi => (h' t ((isTable_congr h).2 ht) i hi).trans (h t ht i hi)

lemma Tables.frame (ht : Tables m roots) (h : SameEntries m m' roots)
    (hpc : m'.pmm.pageCount = m.pmm.pageCount)
    (hused : ∀ t, IsTable m roots t → m'.pmm.used t = true) : Tables m' roots where
  forest := ht.forest.congr fun _ _ hp => table_congr h hp
  page := by
    intro s p t hp htab
    rw [table_congr h hp] at htab
    obtain ⟨hz, hlt, -⟩ := ht.page hp htab
    exact ⟨hz, hpc ▸ hlt, hused t ⟨s, p, hp, htab⟩⟩

lemma entries_of_eqOff {P : ℕ → Prop} (hh : m'.hhdm = m.hhdm) (h : EqOff P m.ram m'.ram)
    (hout : ∀ t, IsTable m roots t → ∀ x, InPage m t x → ¬P x) :
    SameEntries m m' roots :=
  fun t ht _ hi => entry_of_eqOff hh h fun x hx => hout t ht x (hx.inPage hi)

end Frame

/-! ## Growing -/

/-- The entries of the roots for the kernel's half are unchanged. -/
def SameUpper (m m' : Mm) (roots : List ℕ) : Prop :=
  ∀ root ∈ roots, ∀ i, 256 ≤ i → i < 512 → m'.entry root i = m.entry root i

/-- From `m` to `m'` tables were added in free pages, and only tables were written. -/
structure Grown (m m' : Mm) (roots : List ℕ) : Prop where
  hhdm : m'.hhdm = m.hhdm
  kernelPml4 : m'.kernelPml4 = m.kernelPml4
  caches : m'.caches = m.caches
  pageCount : m'.pmm.pageCount = m.pmm.pageCount
  tables : Tables m' roots
  keeps : ∀ {s p t}, LowPath p → m.table roots s p = some t → m'.table roots s p = some t
  fresh : ∀ {s p t}, LowPath p → m'.table roots s p = some t →
    m.table roots s p = some t ∨ (m.table roots s p = none ∧ m.pmm.used t = false)
  used : ∀ {b}, m.pmm.used b = true → m'.pmm.used b = true
  taken : ∀ {b}, m'.pmm.used b = true → m.pmm.used b = true ∨ IsTable m' roots b
  ram : EqOff (fun x => ∃ t, IsTable m' roots t ∧ InPage m t x) m.ram m'.ram
  upper : SameUpper m m' roots

/-- No mapping changed. -/
def SameLeaves (m m' : Mm) (roots : List ℕ) : Prop :=
  ∀ s p i, LowPath p → p.length = 3 → i < 512 → m'.leaf roots s p i = m.leaf roots s p i

namespace Grown

variable {m m' m'' : Mm} {roots : List ℕ}

lemma refl (h : Tables m roots) : Grown m m roots where
  hhdm := rfl
  kernelPml4 := rfl
  caches := rfl
  pageCount := rfl
  tables := h
  keeps := fun _ ht => ht
  fresh := fun _ ht => .inl ht
  used := fun hb => hb
  taken := fun hb => .inl hb
  ram := EqOff.refl _
  upper := fun _ _ _ _ _ => rfl

lemma isTable (h : Grown m m' roots) {t : ℕ} (ht : IsTable m roots t) : IsTable m' roots t := by
  obtain ⟨s, p, hp, ht⟩ := ht
  exact ⟨s, p, hp, h.keeps hp ht⟩

lemma trans (h : Grown m m' roots) (h' : Grown m' m'' roots) : Grown m m'' roots where
  hhdm := h'.hhdm.trans h.hhdm
  kernelPml4 := h'.kernelPml4.trans h.kernelPml4
  caches := h'.caches.trans h.caches
  pageCount := h'.pageCount.trans h.pageCount
  tables := h'.tables
  keeps := fun hp ht => h'.keeps hp (h.keeps hp ht)
  fresh := by
    intro s p t hp ht
    rcases h'.fresh hp ht with ht | ⟨hnone, hfree⟩
    · exact h.fresh hp ht
    · refine .inr ⟨?_, Bool.eq_false_iff.2 fun hu => Bool.eq_false_iff.1 hfree (h.used hu)⟩
      refine eq_none_iff_forall_ne_some.2 fun u hu => ?_
      rw [h.keeps hp hu] at hnone
      cases hnone
  used := fun hb => h'.used (h.used hb)
  taken := by
    intro b hb
    rcases h'.taken hb with hb | hb
    · exact (h.taken hb).imp_right h'.isTable
    · exact .inr hb
  ram := by
    refine (h.ram.mono ?_).trans (h'.ram.mono ?_)
    · rintro x ⟨t, ht, hx⟩
      exact ⟨t, h'.isTable ht, hx⟩
    · rintro x ⟨t, ht, hx⟩
      refine ⟨t, ht, ?_⟩
      unfold InPage Mm.kaddr at hx ⊢
      rwa [h.hhdm] at hx
  upper := fun r hr i hlo hhi => (h'.upper r hr i hlo hhi).trans (h.upper r hr i hlo hhi)

end Grown

section NextLevel

variable {m m' : Mm} {roots p : List ℕ} {s t i : ℕ}

/-- Without `alloc` a level is one step of the path. -/
lemma nextLevel_false (m : Mm) (t i : ℕ) :
    m.nextLevel (m.kaddr t) i false = some (m, (m.child t i).map m.kaddr) := by
  have hentry : m.ram.readNat 8 (m.kaddr t + 8 * i) = m.entry t i := rfl
  simp only [Mm.nextLevel, hentry, Mm.child, Mm.present]
  split_ifs with hp <;> simp_all [Mm.nextTable, entryToPhys, alignDown, Mm.kaddr]

lemma nextLevel_of_child {u : ℕ} {alloc : Bool} (h : m.child t i = some u) :
    m.nextLevel (m.kaddr t) i alloc = some (m, some (m.kaddr u)) := by
  have hentry : m.ram.readNat 8 (m.kaddr t + 8 * i) = m.entry t i := rfl
  rw [Mm.child, map_eq_some_iff] at h
  obtain ⟨e, he, rfl⟩ := h
  rw [Mm.present, ite_none_right_eq_some, some.injEq] at he
  obtain ⟨hp, rfl⟩ := he
  simp only [Mm.nextLevel, hentry, hp, if_true]
  rfl

/-- A new table: its page was free, is cleared, and is entered in the empty entry. -/
lemma nextLevel_alloc {r : Option ℕ} (hnone : m.child t i = none)
    (h : m.nextLevel (m.kaddr t) i true = some (m', r)) : ∃ n ram, n ≠ 0 ∧
      n < m.pmm.pageCount ∧ m.pmm.used n = false ∧ ram = m.ram.fill (m.kaddr n) pageSize 0 ∧
      m'.ram = ram.writeNat 8 (m.kaddr t + 8 * i) (n * pageSize + 7) ∧
      m'.hhdm = m.hhdm ∧ m'.kernelPml4 = m.kernelPml4 ∧ m'.caches = m.caches ∧
      m'.pmm.pageCount = m.pmm.pageCount ∧
      (∀ b, m'.pmm.used b = (decide (b = n) || m.pmm.used b)) ∧
      r = some (m'.nextTable (m'.entry t i)) := by
  have hentry : m.ram.readNat 8 (m.kaddr t + 8 * i) = m.entry t i := rfl
  have habs : isPresent (m.entry t i) = false := by
    simpa [Mm.child, Mm.present] using hnone
  simp only [Mm.nextLevel, hentry, habs, Bool.not_true, if_false, bind,
    bind_eq_some_iff, Bool.false_eq_true] at h
  obtain ⟨⟨pmm, phys⟩, halloc, h⟩ := h
  obtain ⟨n, rfl, hlt, hfree, hpc, hbits⟩ := Pmm.allocPage_spec halloc
  split_ifs at h with hz
  obtain ⟨rfl, rfl⟩ := Prod.mk.inj (some.inj h)
  have hn : n ≠ 0 := by
    rintro rfl
    exact hz (Nat.zero_mul _)
  refine ⟨n, _, hn, hlt, hfree, rfl, ?_, rfl, rfl, rfl, hpc, hbits, rfl⟩
  have hor : (n * pageSize ||| pagePresent ||| pageWrite ||| pageUser) = n * pageSize + 7 := by
    rw [Nat.or_assoc, Nat.or_assoc, ← entry_page (by decide : 7 < pageSize)]
    rfl
  rw [hor]
  rfl

lemma nextLevel_grown {r : Option ℕ} (hmap : m.Mapped) (htab : Tables m roots)
    (ht : m.table roots s p = some t) (hp : LowPath (i :: p))
    (h : m.nextLevel (m.kaddr t) i true = some (m', r)) :
    ∃ u, r = some (m'.kaddr u) ∧ m'.table roots s (i :: p) = some u ∧ Grown m m' roots ∧
      SameLeaves m m' roots := by
  cases hc : m.child t i with
  | some u =>
    rw [nextLevel_of_child hc, some.injEq, Prod.mk.injEq] at h
    obtain ⟨rfl, rfl⟩ := h
    exact ⟨u, rfl, by rw [Mm.table_cons, ht, bind_some, hc], .refl htab,
      fun _ _ _ _ _ _ => rfl⟩
  | none =>
    obtain ⟨n, ram, hn, hlt, hfree, hfill, hram, hhdm, hk, hcaches, hpc, hbits, rfl⟩ :=
      nextLevel_alloc hc h
    have hps : pageSize = 4096 := rfl
    have hi := hp.index
    have hkaddr := Mm.kaddr_congr hhdm
    have hnone : m.table roots s (i :: p) = none := by rw [Mm.table_cons, ht, bind_some, hc]
    have hnew := htab.ne_of_free hfree
    have htn : t ≠ n := by
      rintro rfl
      exact hnew s p hp.tail ht
    have hentry : m'.entry t i = n * pageSize + 7 := by
      have hsmall : n * pageSize + 7 < 256 ^ 8 := by
        have hle := hmap.kaddr_le hlt
        unfold Mm.kaddr at hle
        omega
      rw [Mm.entry, hkaddr, hram]
      exact readNat_writeNat _ _ hsmall
    have hfillOff : EqOff (InPage m n) m.ram ram := by
      rw [hfill]
      exact EqOff.fill _ fun x hx => hx
    have hwriteOff : EqOff (InEntry m t i) ram m'.ram := by
      rw [hram]
      exact EqOff.writeNat _ fun x hx => hx
    -- an entry of another page, or another entry of this one, is as before
    have hsame : ∀ u j, j < 512 → u ≠ n → ¬(u = t ∧ j = i) → m'.entry u j = m.entry u j := by
      intro u j hj hun hne
      have hoff : EqOff (fun x => InPage m n x ∨ InEntry m t i x) m.ram m'.ram :=
        (hfillOff.mono fun x hx => .inl hx).trans (hwriteOff.mono fun x hx => .inr hx)
      refine entry_of_eqOff hhdm hoff fun x hx hor => ?_
      rcases hor with hin | hin
      · exact hun ((hx.inPage hj).unique hin)
      · exact hne (hx.unique hin hj hi)
    have hempty : ∀ j, j < 512 → m'.present n j = none := by
      intro j hj
      have hz : m'.entry n j = 0 := by
        rw [Mm.entry, hkaddr, hwriteOff.readNat fun x hx hin => htn (hin.inPage hi |>.unique
          (InEntry.inPage (i := j) hx hj)), hfill]
        exact readNat_fill_zero _ (by omega) (by omega)
      rw [Mm.present, hz]
      rfl
    have hlink : m'.child t i = some n := by
      have hpres : isPresent (n * pageSize + 7) = true := by
        rw [isPresent, hps]
        simp
        omega
      rw [Mm.child, Mm.present, hentry, if_pos hpres, map_some, hps]
      congr 1
      omega
    have hall := htab.forest.tableAt_link (fun _ _ => LowPath.tail) ht hp hc hnew hlink
      (fun j q hq => by rw [Mm.child, hempty j hq.index]; rfl)
      (fun u j q hq hun hne => child_congr (hsame u j hq.index hun hne))
    have hnext : m'.table roots s (i :: p) = some n := by
      rcases hall s (i :: p) hp with ⟨-, -, htab'⟩ | ⟨hne, -⟩
      · exact htab'
      · exact absurd ⟨rfl, rfl⟩ hne
    have hkeeps : ∀ {s' p' u}, LowPath p' → m.table roots s' p' = some u →
        m'.table roots s' p' = some u := by
      intro s' p' u hp' hu
      rcases hall s' p' hp' with ⟨rfl, rfl, -⟩ | ⟨-, heq⟩
      · rw [hnone] at hu
        cases hu
      · exact heq.trans hu
    refine ⟨n, ?_, hnext, ?_, ?_⟩
    · have hdiv : (n * pageSize + 7) / pageSize = n := by
        rw [hps]
        omega
      rw [Mm.nextTable, hentry, entryToPhys, alignDown, hdiv, Mm.kaddr]
    · refine
        { hhdm := hhdm
          kernelPml4 := hk
          caches := hcaches
          pageCount := hpc
          tables := ⟨htab.forest.insert hnew hall, ?_⟩
          keeps := hkeeps
          fresh := ?_
          used := fun hb => by rw [hbits, hb, Bool.or_true]
          taken := ?_
          ram := ?_
          upper := ?_ }
      · intro s' p' u hp' hu
        rcases hall s' p' hp' with ⟨-, -, hn'⟩ | ⟨-, heq⟩
        · obtain rfl : n = u := some.inj (hn'.symm.trans hu)
          exact ⟨hn, hpc ▸ hlt, by simp [hbits]⟩
        · obtain ⟨hz, hlt', hused⟩ := htab.page hp' (heq.symm.trans hu)
          exact ⟨hz, hpc ▸ hlt', by rw [hbits, hused, Bool.or_true]⟩
      · intro s' p' u hp' hu
        rcases hall s' p' hp' with ⟨rfl, rfl, hn'⟩ | ⟨-, heq⟩
        · obtain rfl : n = u := some.inj (hn'.symm.trans hu)
          exact .inr ⟨hnone, hfree⟩
        · exact .inl (heq.symm.trans hu)
      · intro b hb
        rw [hbits, Bool.or_eq_true, decide_eq_true_eq] at hb
        rcases hb with rfl | hb
        · exact .inr ⟨s, i :: p, hp, hnext⟩
        · exact .inl hb
      · refine (hfillOff.mono fun x hx => ⟨n, ⟨s, i :: p, hp, hnext⟩, hx⟩).trans
          (hwriteOff.mono fun x hx => ⟨t, ⟨s, p, hp.tail, hkeeps hp.tail ht⟩, hx.inPage hi⟩)
      · intro root hroot j hlo hhi
        obtain ⟨s', hnil, hroot'⟩ := exists_table_root m hroot
        refine hsame root j hhi ?_ ?_
        · rintro rfl
          exact hnew s' [] hnil hroot'
        · -- the new entry of a root is in its lower half
          rintro ⟨rfl, rfl⟩
          obtain ⟨-, rfl⟩ := htab.forest hp.tail hnil ht hroot'
          have hlow : j < 256 := hp.2.2 j rfl
          omega
    · intro s' p' j hp' hlen hj
      rw [Mm.leaf, Mm.leaf]
      rcases hall s' p' hp' with ⟨rfl, rfl, hn'⟩ | ⟨-, heq⟩
      · rw [hnext, hnone, bind_some, hempty j hj, bind_none]
      · have heq' : m'.table roots s' p' = m.table roots s' p' := heq
        rw [heq']
        cases hu : m.table roots s' p' with
        | none => rfl
        | some u =>
          refine present_congr (hsame u j hj ?_ ?_)
          · rintro rfl
            exact hnew s' p' hp' hu
          · -- a last-level table is not the table that got the new entry
            rintro ⟨rfl, -⟩
            obtain ⟨-, rfl⟩ := htab.forest hp' hp.tail hu ht
            have hlen' : p'.length + 1 ≤ 3 := hp.1
            omega

end NextLevel

/-! ## `vmm_get_pte` -/

section GetPte

variable {m m' : Mm} {roots : List ℕ} {s root space virt : ℕ}

/-- The record of an address space leads to its root. -/
def SpaceAt (m : Mm) (roots : List ℕ) (s space : ℕ) : Prop :=
  ∃ root, roots[s]? = some root ∧ m.ram.readNat 8 space = m.kaddr root

lemma SpaceAt.congr (h : SpaceAt m roots s space) (hh : m'.hhdm = m.hhdm)
    (hram : ∀ x, Within space 8 x → m'.ram x = m.ram x) : SpaceAt m' roots s space := by
  obtain ⟨root, hroot, hread⟩ := h
  refine ⟨root, hroot, ?_⟩
  rw [Mm.kaddr, hh, readNat_congr fun x h₁ h₂ => hram x ⟨h₁, h₂⟩]
  exact hread

/-- Without `alloc`, `vmm_get_pte` finds the last-level entry if the tables on its path exist. -/
lemma vmmGetPte_false (hs : SpaceAt m roots s space) : m.vmmGetPte space virt false =
    some (m, (m.table roots s (Mm.pathOf virt)).map fun t => m.kaddr t + 8 * ptIdx virt) := by
  obtain ⟨root, hroot, hread⟩ := hs
  have h₀ : m.table roots s [] = some root := hroot
  simp only [Mm.vmmGetPte, hread, nextLevel_false, bind, bind_some, Mm.pathOf,
    Mm.table_cons, h₀]
  cases h₁ : m.child root (pml4Idx virt) with
  | none => rfl
  | some pdpt =>
    simp only [map_some, nextLevel_false, bind_some]
    cases h₂ : m.child pdpt (pdptIdx virt) with
    | none => rfl
    | some pd =>
      simp only [map_some, nextLevel_false, bind_some]
      cases h₃ : m.child pd (pdIdx virt) with
      | none => rfl
      | some pt => rfl

lemma vmmGetPte_grown (hmap : m.Mapped) (htab : Tables m roots) (hs : SpaceAt m roots s space)
    (hvirt : virt < 2 ^ 47) {r : Option ℕ} (h : m.vmmGetPte space virt true = some (m', r)) :
    ∃ t, r = some (m'.kaddr t + 8 * ptIdx virt) ∧
      m'.table roots s (Mm.pathOf virt) = some t ∧ Grown m m' roots ∧
      SameLeaves m m' roots := by
  obtain ⟨root, hroot, hread⟩ := hs
  have hpath : LowPath [pdIdx virt, pdptIdx virt, pml4Idx virt] := lowPath_pathOf hvirt
  have h₀ : m.table roots s [] = some root := hroot
  have hmapped : ∀ {m₁ : Mm}, Grown m m₁ roots → m₁.Mapped := by
    intro m₁ hg
    rw [Mm.Mapped, hg.pageCount, hg.hhdm]
    exact hmap
  simp only [Mm.vmmGetPte, hread, bind, bind_eq_some_iff] at h
  obtain ⟨⟨m₁, r₁⟩, hlevel₁, h⟩ := h
  obtain ⟨pdpt, rfl, h₁, hg₁, hl₁⟩ := nextLevel_grown hmap htab h₀ hpath.tail.tail hlevel₁
  simp only [bind_eq_some_iff] at h
  obtain ⟨⟨m₂, r₂⟩, hlevel₂, h⟩ := h
  obtain ⟨pd, rfl, h₂, hg₂, hl₂⟩ :=
    nextLevel_grown (hmapped hg₁) hg₁.tables h₁ hpath.tail hlevel₂
  simp only [bind_eq_some_iff] at h
  obtain ⟨⟨m₃, r₃⟩, hlevel₃, h⟩ := h
  obtain ⟨pt, rfl, h₃, hg₃, hl₃⟩ :=
    nextLevel_grown (hmapped (hg₁.trans hg₂)) hg₂.tables h₂ hpath hlevel₃
  obtain ⟨rfl, rfl⟩ := Prod.mk.inj (some.inj h)
  refine ⟨pt, rfl, h₃, (hg₁.trans hg₂).trans hg₃, fun s p i hp hlen hi => ?_⟩
  rw [hl₃ s p i hp hlen hi, hl₂ s p i hp hlen hi, hl₁ s p i hp hlen hi]

end GetPte

/-! ## Writing a last-level entry -/

section WriteLeaf

variable {m : Mm} {roots p : List ℕ} {s t i e : ℕ}

/-- The state with entry `i` of table `t` written. -/
def Mm.setEntry (m : Mm) (t i e : ℕ) : Mm :=
  { m with ram := m.ram.writeNat 8 (m.kaddr t + 8 * i) e }

lemma Mm.setEntry_self (he : e < 2 ^ 64) : (m.setEntry t i e).entry t i = e :=
  readNat_writeNat _ _ he

lemma Mm.setEntry_of_ne {u j : ℕ} (hi : i < 512) (hj : j < 512) (hne : ¬(u = t ∧ j = i)) :
    (m.setEntry t i e).entry u j = m.entry u j := by
  have hoff : EqOff (InEntry m t i) m.ram (m.setEntry t i e).ram :=
    EqOff.writeNat _ fun x hx => hx
  exact entry_of_eqOff rfl hoff fun x hx hin => hne (hx.unique hin hj hi)

/-- No table is reached through a last-level entry. -/
lemma table_setEntry (htab : Tables m roots) (hp : LowPath p) (hlen : p.length = 3)
    (ht : m.table roots s p = some t) (hi : i < 512) {s' : ℕ} {p' : List ℕ} (hp' : LowPath p') :
    (m.setEntry t i e).table roots s' p' = m.table roots s' p' := by
  refine tableAt_congr (fun _ _ => LowPath.tail) (fun q j u hq hu => ?_) p' hp'
  refine child_congr (Mm.setEntry_of_ne hi hq.index ?_)
  rintro ⟨rfl, -⟩
  obtain ⟨-, rfl⟩ := htab.forest hq.tail hp hu ht
  have hlen' : q.length + 1 ≤ 3 := hq.1
  omega

lemma Tables.setEntry (htab : Tables m roots) (hp : LowPath p) (hlen : p.length = 3)
    (ht : m.table roots s p = some t) (hi : i < 512) : Tables (m.setEntry t i e) roots where
  forest := htab.forest.congr fun _ _ hp' => table_setEntry htab hp hlen ht hi hp'
  page := by
    intro s' p' u hp' hu
    rw [table_setEntry htab hp hlen ht hi hp'] at hu
    exact htab.page hp' hu

lemma leaf_setEntry (htab : Tables m roots) (hp : LowPath p) (hlen : p.length = 3)
    (ht : m.table roots s p = some t) (hi : i < 512) (he : e < 2 ^ 64) {s' j : ℕ} {p' : List ℕ}
    (hp' : LowPath p') (hj : j < 512) :
    (m.setEntry t i e).leaf roots s' p' j = if s' = s ∧ p' = p ∧ j = i then
      (if isPresent e then some e else none) else m.leaf roots s' p' j := by
  rw [Mm.leaf, table_setEntry htab hp hlen ht hi hp']
  split_ifs with hsame hpres
  · obtain ⟨rfl, rfl, rfl⟩ := hsame
    rw [ht, bind_some, Mm.present, Mm.setEntry_self he, if_pos hpres]
  · obtain ⟨rfl, rfl, rfl⟩ := hsame
    rw [ht, bind_some, Mm.present, Mm.setEntry_self he, if_neg hpres]
  · rw [Mm.leaf]
    cases hu : m.table roots s' p' with
    | none => rfl
    | some u =>
      refine present_congr (Mm.setEntry_of_ne hi hj ?_)
      rintro ⟨rfl, rfl⟩
      obtain ⟨rfl, rfl⟩ := htab.forest hp' hp hu ht
      exact hsame ⟨rfl, rfl, rfl⟩

lemma Grown.setEntry {m₀ : Mm} (hg : Grown m₀ m roots) (hp : LowPath p) (hlen : p.length = 3)
    (ht : m.table roots s p = some t) (hi : i < 512) : Grown m₀ (m.setEntry t i e) roots := by
  have hsame : ∀ {s' p'}, LowPath p' →
      (m.setEntry t i e).table roots s' p' = m.table roots s' p' :=
    fun hp' => table_setEntry hg.tables hp hlen ht hi hp'
  have htable : ∀ {u}, IsTable m roots u → IsTable (m.setEntry t i e) roots u := by
    rintro u ⟨s', p', hp', hu⟩
    exact ⟨s', p', hp', (hsame hp').trans hu⟩
  refine
    { hg with
      tables := hg.tables.setEntry hp hlen ht hi
      keeps := fun hp' hu => (hsame hp').trans (hg.keeps hp' hu)
      fresh := fun hp' hu => hg.fresh hp' ((hsame hp').symm.trans hu)
      taken := fun hb => (hg.taken hb).imp_right htable
      ram := (hg.ram.mono fun x ⟨u, hu, hx⟩ => ⟨u, htable hu, hx⟩).trans
        (EqOff.writeNat _ fun x hx => ⟨t, htable ⟨s, p, hp, ht⟩, ?_⟩)
      upper := fun root hroot j hlo hhi =>
        Eq.trans (Mm.setEntry_of_ne hi hhi ?_) (hg.upper root hroot j hlo hhi) }
  · rw [InPage, ← Mm.kaddr_congr hg.hhdm]
    exact InEntry.inPage hx hi
  · rintro ⟨rfl, -⟩
    obtain ⟨s', hnil, hroot'⟩ := exists_table_root m hroot
    obtain ⟨-, rfl⟩ := hg.tables.forest hp hnil ht hroot'
    simp at hlen

end WriteLeaf

/-! ## Mapping and unmapping -/

section Mapping

variable {m m' : Mm} {roots : List ℕ} {s space virt phys flags : ℕ}

lemma ptIdx_lt (virt : ℕ) : ptIdx virt < 512 := Nat.mod_lt _ (by decide)

/-- The mapping of an address. -/
def Mm.leafOf (m : Mm) (roots : List ℕ) (s virt : ℕ) : Option ℕ :=
  m.leaf roots s (Mm.pathOf virt) (ptIdx virt)

/-- `vmm_get_mapping` reads the mapping. -/
lemma vmmGetMapping_eq (hs : SpaceAt m roots s space) : m.vmmGetMapping space virt =
    (m.leafOf roots s virt).map fun e => (entryToPhys e, e % 4096) := by
  simp only [Mm.vmmGetMapping, vmmGetPte_false hs, bind, bind_some, Mm.leafOf, Mm.leaf]
  cases m.table roots s (Mm.pathOf virt) with
  | none => rfl
  | some t =>
    have hentry : m.ram.readNat 8 (m.kaddr t + 8 * ptIdx virt) = m.entry t (ptIdx virt) := rfl
    simp only [map_some, bind_some, hentry, Mm.present]
    split_ifs <;> rfl

/-- The address and the flags in an entry. -/
def decodeEntry (e : ℕ) : ℕ × ℕ := (entryToPhys e, e % 4096)

/-- Two addresses of the lower half have the same last-level entry just if they are in the same
page. -/
lemma path_eq_iff {virt virt' : ℕ} (h : virt < 2 ^ 47) (h' : virt' < 2 ^ 47) :
    (Mm.pathOf virt' = Mm.pathOf virt ∧ ptIdx virt' = ptIdx virt) ↔
      virt / pageSize = virt' / pageSize := by
  simp only [Mm.pathOf, List.cons.injEq, and_true, pml4Idx, pdptIdx, pdIdx, ptIdx, pageSize]
  constructor
  · rintro ⟨⟨h₁, h₂, h₃⟩, h₄⟩
    omega
  · intro heq
    omega

lemma decodeEntry_map {phys flags : ℕ} (hphys : phys % pageSize = 0) (hflags : flags < pageSize) :
    decodeEntry (alignDown phys ||| (flags ||| pagePresent)) =
      (phys, flags ||| pagePresent) := by
  have hps : pageSize = 4096 := rfl
  have hlt : flags ||| pagePresent < pageSize := Nat.or_lt_two_pow (n := 12) hflags (by decide)
  rw [alignDown, entry_page hlt, decodeEntry, entryToPhys, alignDown]
  generalize flags ||| pagePresent = f at hlt
  rw [hps] at hlt hphys ⊢
  rw [Prod.mk.injEq]
  omega

/-- Only the mapping of `virt` in the space `s` changed, to `new`. -/
def Remaps (m m' : Mm) (roots : List ℕ) (s virt : ℕ) (new : Option ℕ) : Prop :=
  ∀ s' p j, LowPath p → p.length = 3 → j < 512 → m'.leaf roots s' p j =
    if s' = s ∧ p = Mm.pathOf virt ∧ j = ptIdx virt then new else m.leaf roots s' p j

/-- The entry of a mapping is present, whatever the flags. -/
lemma isPresent_mapped (phys flags : ℕ) :
    isPresent (alignDown phys ||| (flags ||| pagePresent)) = true := by
  rw [isPresent, beq_iff_eq, Nat.or_mod_two_eq_one, Nat.or_mod_two_eq_one]
  exact .inr (.inr rfl)

lemma vmmMapPage_spec (hmap : m.Mapped) (htab : Tables m roots) (hs : SpaceAt m roots s space)
    (hvirt : virt < 2 ^ 47) (hphys : phys < 2 ^ 64) (hflags : flags < 4096)
    (h : m.vmmMapPage space virt phys flags = some m') :
    Grown m m' roots ∧
      Remaps m m' roots s virt (some (alignDown phys ||| (flags ||| pagePresent))) := by
  simp only [Mm.vmmMapPage, bind, bind_eq_some_iff] at h
  obtain ⟨⟨m₁, r⟩, hpte, pte, hr, h⟩ := h
  obtain ⟨t, rfl, ht, hg, hl⟩ := vmmGetPte_grown hmap htab hs hvirt hpte
  simp only [some.injEq] at hr h
  subst hr
  have hm' : m' = m₁.setEntry t (ptIdx virt) (alignDown phys ||| (flags ||| pagePresent)) := h.symm
  have hpath := lowPath_pathOf hvirt
  have he : alignDown phys ||| (flags ||| pagePresent) < 2 ^ 64 := by
    refine Nat.or_lt_two_pow ?_ (Nat.or_lt_two_pow (by omega) (by decide))
    unfold alignDown pageSize
    omega
  subst hm'
  refine ⟨hg.setEntry hpath rfl ht (ptIdx_lt virt), fun s' p j hp hlen hj => ?_⟩
  rw [leaf_setEntry hg.tables hpath rfl ht (ptIdx_lt virt) he hp hj,
    if_pos (isPresent_mapped _ _), hl s' p j hp hlen hj]

lemma vmmUnmapPage_spec (htab : Tables m roots) (hs : SpaceAt m roots s space)
    (hvirt : virt < 2 ^ 47) (h : m.vmmUnmapPage space virt = some m') :
    (m.leafOf roots s virt).isSome ∧ m'.pmm = m.pmm ∧ Grown m m' roots ∧
      Remaps m m' roots s virt none := by
  simp only [Mm.vmmUnmapPage, vmmGetPte_false hs, bind, bind_some,
    bind_eq_some_iff, map_eq_some_iff] at h
  obtain ⟨pte, ⟨t, ht, rfl⟩, h⟩ := h
  have hentry : m.ram.readNat 8 (m.kaddr t + 8 * ptIdx virt) = m.entry t (ptIdx virt) := rfl
  rw [hentry] at h
  split_ifs at h with hpres
  rw [some.injEq] at h
  have hm' : m' = m.setEntry t (ptIdx virt) 0 := h.symm
  subst hm'
  have hpath := lowPath_pathOf hvirt
  refine ⟨?_, rfl, (Grown.refl htab).setEntry hpath rfl ht (ptIdx_lt virt),
    fun s' p j hp hlen hj => ?_⟩
  · rw [Mm.leafOf, Mm.leaf, ht, bind_some, Mm.present, if_pos hpres]
    rfl
  · rw [leaf_setEntry htab hpath rfl ht (ptIdx_lt virt) (by decide) hp hj]
    rfl

end Mapping

/-! ## New address spaces -/

section Create

variable {m m' : Mm} {L : HeapMap} {roots : List ℕ}

/-- The heap and the tables of the lower halves share memory without sharing pages. -/
structure MmInv (m : Mm) (L : HeapMap) (roots : List ℕ) : Prop where
  heap : L.Inv m
  tables : Tables m roots
  apart : ∀ {t}, IsTable m roots t → t ∉ L.pages

lemma MmInv.used {m : Mm} {L : HeapMap} {roots : List ℕ} {b : ℕ} (h : MmInv m L roots)
    (hb : b ∈ L.pages ∨ IsTable m roots b) : m.pmm.used b = true :=
  hb.elim (fun hb => (h.heap.page hb).2.2) h.tables.used

lemma copyEntries_eqOff (k pml4 : ℕ) : ∀ (n : ℕ) (ram : Mem), n ≤ 256 →
    EqOff (Within (pml4 + 2048) 2048) ram
      ((List.range' 256 n).foldl (Mm.copyEntry k pml4) ram)
  | 0, ram, _ => EqOff.refl _
  | n + 1, ram, hn => by
      rw [range'_concat, foldl_append, foldl_cons, foldl_nil]
      refine (copyEntries_eqOff k pml4 n ram (by omega)).trans (EqOff.writeNat _ ?_)
      intro x hx
      unfold Within at hx ⊢
      omega

lemma copyEntries_read {k pml4 : ℕ}
    (hout : ∀ x, Within k pageSize x → ¬Within pml4 pageSize x) :
    ∀ (n : ℕ) (ram : Mem), n ≤ 256 → ∀ i, 256 ≤ i → i < 256 + n →
      ((List.range' 256 n).foldl (Mm.copyEntry k pml4) ram).readNat 8 (pml4 + 8 * i) =
        ram.readNat 8 (k + 8 * i)
  | 0, _, _, i, hlo, hhi => by omega
  | n + 1, ram, hn, i, hlo, hhi => by
      have hps : pageSize = 4096 := rfl
      rw [range'_concat, foldl_append, foldl_cons, foldl_nil, Mm.copyEntry]
      by_cases hi : i = 256 + 1 * n
      · rw [← hi, readNat_writeNat _ _ (readNat_lt _ _ _)]
        refine (copyEntries_eqOff k pml4 n ram (by omega)).readNat fun x hx hx' => hout x ?_ ?_ <;>
          unfold Within at hx hx' ⊢ <;> omega
      · have hwrite : EqOff (Within (pml4 + 8 * (256 + 1 * n)) 8)
            ((List.range' 256 n).foldl (Mm.copyEntry k pml4) ram)
            (((List.range' 256 n).foldl (Mm.copyEntry k pml4) ram).writeNat 8
              (pml4 + 8 * (256 + 1 * n)) (((List.range' 256 n).foldl (Mm.copyEntry k pml4)
                ram).readNat 8 (k + 8 * (256 + 1 * n)))) := EqOff.writeNat _ fun x hx => hx
        rw [hwrite.readNat fun x hx hx' => by unfold Within at hx hx'; omega]
        exact copyEntries_read hout n ram (by omega) i hlo (by omega)

/-- The root page that `vmm_create_user_space` writes: empty below, the kernel's half above. -/
lemma copyKernelHalf_spec (k pml4 : ℕ) (ram : Mem) :
    EqOff (Within pml4 pageSize) ram (Mm.copyKernelHalf k pml4 (ram.fill pml4 pageSize 0)) ∧
      (∀ i < 256, (Mm.copyKernelHalf k pml4 (ram.fill pml4 pageSize 0)).readNat 8
        (pml4 + 8 * i) = 0) ∧
      ((∀ x, Within k pageSize x → ¬Within pml4 pageSize x) → ∀ i, 256 ≤ i → i < 512 →
        (Mm.copyKernelHalf k pml4 (ram.fill pml4 pageSize 0)).readNat 8 (pml4 + 8 * i) =
          ram.readNat 8 (k + 8 * i)) := by
  have hps : pageSize = 4096 := rfl
  have hfill : EqOff (Within pml4 pageSize) ram (ram.fill pml4 pageSize 0) :=
    EqOff.fill _ fun x hx => hx
  have hcopy := copyEntries_eqOff k pml4 256 (ram.fill pml4 pageSize 0) (Nat.le_refl _)
  refine ⟨hfill.trans (hcopy.mono fun x hx => ?_), fun i hi => ?_, fun hout i hlo hhi => ?_⟩
  · unfold Within at hx ⊢
    omega
  · rw [Mm.copyKernelHalf, hcopy.readNat fun x hx hx' => by unfold Within at hx hx'; omega]
    exact readNat_fill_zero _ (by omega) (by omega)
  · rw [Mm.copyKernelHalf, copyEntries_read hout 256 _ le_rfl i hlo (by omega)]
    refine hfill.readNat fun x hx => hout x ?_
    unfold Within at hx ⊢
    omega

lemma MmInv.takes {L' : HeapMap} {new : List ℕ} (h : MmInv m L roots) (hinv : L'.Inv m')
    (ht : HeapMap.Takes m m' L L' new) :
    MmInv m' L' roots ∧ SameEntries m m' roots := by
  have hnew : ∀ {t}, IsTable m roots t → t ∉ new :=
    fun htab hmem => Bool.eq_false_iff.1 (ht.free _ hmem).2.2 (h.tables.used htab)
  have hentry : SameEntries m m' roots := by
    refine entries_of_eqOff ht.hhdm ht.ram ?_
    rintro t htab x hx ⟨b, hb, hxb⟩
    exact hnew htab (hx.unique (show InPage m b x from hxb) ▸ hb)
  refine ⟨⟨hinv, h.tables.frame hentry ht.pageCount fun t htab => ?_, ?_⟩, hentry⟩
  · rw [ht.used, h.tables.used htab, Bool.or_true]
  · intro t htab
    rw [isTable_congr hentry] at htab
    rw [ht.pages, not_or]
    exact ⟨hnew htab, h.apart htab⟩

lemma MmInv.grown (h : MmInv m L roots) (hg : Grown m m' roots) :
    MmInv m' L roots ∧ ∀ x, L.InPages m.hhdm x → m'.ram x = m.ram x := by
  have hapart : ∀ {t}, IsTable m' roots t → t ∉ L.pages := by
    rintro t ⟨s, p, hp, ht⟩
    rcases hg.fresh hp ht with ht | ⟨-, hfree⟩
    · exact h.apart ⟨s, p, hp, ht⟩
    · exact h.heap.not_mem_pages hfree
  have hdata : ∀ x, L.InPages m.hhdm x → m'.ram x = m.ram x := by
    intro x hx
    refine hg.ram x ?_
    rintro ⟨t, ht, hxt⟩
    exact hapart ht (hxt.mem_pages hx)
  refine ⟨⟨?_, hg.tables, hapart⟩, hdata⟩
  exact h.heap.frame hg.hhdm hg.caches hg.pageCount (fun b hb => hg.used (h.heap.page hb).2.2)
    fun x hx => hdata x (h.heap.inPages_of_meta hx)

lemma MmInv.frame (h : MmInv m L roots) (hhdm : m'.hhdm = m.hhdm) (hcaches : m'.caches = m.caches)
    (hpc : m'.pmm.pageCount = m.pmm.pageCount)
    (hused : ∀ b, b ∈ L.pages ∨ IsTable m roots b → m'.pmm.used b = true)
    (hram : ∀ b, b ∈ L.pages ∨ IsTable m roots b → ∀ x, InPage m b x → m'.ram x = m.ram x) :
    MmInv m' L roots ∧ SameEntries m m' roots := by
  have hoff : EqOff (fun x => ∀ t, IsTable m roots t → ¬InPage m t x) m.ram m'.ram := by
    intro x hx
    simp only [not_forall, not_not] at hx
    obtain ⟨t, ht, hin⟩ := hx
    exact hram t (.inr ht) x hin
  have hentry := entries_of_eqOff hhdm hoff fun t ht x hx hx' => hx' t ht hx
  refine ⟨⟨?_, h.tables.frame hentry hpc fun t ht => hused t (.inr ht), ?_⟩, hentry⟩
  · refine h.heap.frame hhdm hcaches hpc (fun b hb => hused b (.inl hb)) fun x hx => ?_
    obtain ⟨b, hb, hxb⟩ := h.heap.inPages_of_meta hx
    exact hram b (.inl hb) x hxb
  · exact fun ht => h.apart ((isTable_congr hentry).1 ht)

end Create

end CobjOs
