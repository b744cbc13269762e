import CobjOs.Framework.Transition
import CobjOs.Memory.Frames

/-!
# Address spaces are maps

Any number of address spaces, made by `vmm_create_user_space`, with pages mapped and unmapped in
their lower halves in any order, while the rest of the kernel and the programs write to memory
outside the tables and the heap.

`lastMapping` is what the history says about a page of a space: the last `vmm_map_page` of it
unless `vmm_unmap_page` came later.  `vmm_get_mapping` returns exactly that, so an operation on one
page of one space is seen nowhere else.
-/

namespace CobjOs

open List Option

/-- Operations on address spaces, which are numbered in the order of their creation, and
everything else that happens to memory. -/
inductive VmmOp
  | create
  | map (space virt phys flags : ℕ)
  | unmap (space virt : ℕ)
  | elsewhere (pmm : Pmm) (ram : Mem)

/-- Memory, the records of the address spaces, and the pages taken for tables and records. -/
structure VmmLedger where
  mm : Mm
  spaces : List ℕ
  pages : List ℕ

namespace VmmLedger

/-- The kernel right after `slab_init`, without user address spaces. -/
def start (m : Mm) : VmmLedger := { mm := m.slabInit, spaces := [], pages := [] }

/-- Records the pages a call took. -/
def next (s : VmmLedger) (m : Mm) (spaces : List ℕ) : VmmLedger :=
  { mm := m, spaces := spaces, pages := Pmm.taken s.mm.pmm m.pmm ++ s.pages }

def step (s : VmmLedger) : VmmOp → Option VmmLedger
  | .create => s.mm.vmmCreateUserSpace.map fun (m, space) => s.next m (s.spaces ++ [space])
  | .map i virt phys flags => do
      let space ← s.spaces[i]?
      let m ← s.mm.vmmMapPage space virt phys flags
      some (s.next m s.spaces)
  | .unmap i virt => do
      let space ← s.spaces[i]?
      let m ← s.mm.vmmUnmapPage space virt
      some (s.next m s.spaces)
  | .elsewhere pmm ram => some { s with mm := { s.mm with pmm := pmm, ram := ram } }

/-- Addresses of the lower half, aligned physical addresses, and the flags that callers pass. -/
def callOk : VmmOp → Bool
  | .create => true
  | .map _ virt phys flags => decide (virt < 2 ^ 47) && decide (phys % pageSize = 0) &&
      decide (phys < 2 ^ 52) && decide (flags < 2 ^ 5)
  | .unmap _ virt => decide (virt < 2 ^ 47)
  | .elsewhere _ _ => false

/-- The pages taken for tables and records are left alone. -/
def ElsewhereOk (s : VmmLedger) (pmm : Pmm) (ram : Mem) : Prop :=
  pmm.pageCount = s.mm.pmm.pageCount ∧ (∀ b ∈ s.pages, pmm.used b = true) ∧
    ∀ b ∈ s.pages, ∀ x, InPage s.mm b x → ram x = s.mm.ram x

def Ok (s : VmmLedger) : VmmOp → Prop
  | .elsewhere pmm ram => s.ElsewhereOk pmm ram
  | op => callOk op = true

/-- The pages of the `PML4`s, from the records. -/
def roots (s : VmmLedger) : List ℕ :=
  s.spaces.map fun space => (s.mm.ram.readNat 8 space - s.mm.hhdm) / pageSize

end VmmLedger

/-! ## The history -/

/-- What an operation does to the mapping of a page of a space. -/
def VmmOp.effect (s page : ℕ) (curr : Option (ℕ × ℕ)) : VmmOp → Option (ℕ × ℕ)
  | .map s' virt phys flags =>
      if s' = s ∧ virt / pageSize = page then some (phys, flags ||| pagePresent) else curr
  | .unmap s' virt => if s' = s ∧ virt / pageSize = page then none else curr
  | .create => curr
  | .elsewhere _ _ => curr

/-- The last mapping of a page of a space that was not undone. -/
def lastMapping (ls : List VmmOp) (s page : ℕ) : Option (ℕ × ℕ) :=
  ls.foldl (fun curr op => op.effect s page curr) none

lemma lastMapping_snoc (ls : List VmmOp) (op : VmmOp) (s page : ℕ) :
    lastMapping (ls ++ [op]) s page = op.effect s page (lastMapping ls s page) := by
  rw [lastMapping, foldl_append]
  rfl

namespace VmmLedger

/-! ## One step -/

/-- The records are allocations that lead to the roots, and the ledger has all the pages. -/
structure Holds (s : VmmLedger) (L : HeapMap) (roots : List ℕ) : Prop where
  inv : MmInv s.mm L roots
  length : roots.length = s.spaces.length
  record : ∀ {i space : ℕ}, s.spaces[i]? = some space →
    ∃ a ∈ L.live, a.ptr s.mm.hhdm = space ∧ a.size = Mm.addrSpaceSize
  spaceAt : ∀ {i space : ℕ}, s.spaces[i]? = some space → SpaceAt s.mm roots i space
  pages : ∀ {b}, b ∈ L.pages ∨ IsTable s.mm roots b → b ∈ s.pages

/-- The mappings are those of the history. -/
def Follows (s : VmmLedger) (roots : List ℕ) (ls : List VmmOp) : Prop :=
  ∀ i virt, virt < 2 ^ 47 →
    (s.mm.leafOf roots i virt).map decodeEntry = lastMapping ls i (virt / pageSize)

namespace Holds

variable {s s' : VmmLedger} {L : HeapMap} {roots : List ℕ} {ls : List VmmOp}
  {i space virt phys flags : ℕ}

lemma start {m : Mm} (hmap : m.Mapped) : Holds (VmmLedger.start m) .empty [] where
  inv :=
    { heap := .slabInit hmap
      tables := Tables.nil _
      apart := fun ht => absurd ht (not_isTable_nil _ _) }
  length := rfl
  record := by simp [VmmLedger.start]
  spaceAt := by simp [VmmLedger.start]
  pages := by
    rintro b (hb | hb)
    · simp [HeapMap.empty, HeapMap.pages] at hb
    · exact absurd hb (not_isTable_nil _ _)

/-- The bytes of a record are the heap's. -/
lemma record_inPages (h : Holds s L roots) (hs : s.spaces[i]? = some space) {x : ℕ}
    (hx : Mem.Within space 8 x) : L.InPages s.mm.hhdm x := by
  obtain ⟨a, ha, rfl, hsize⟩ := h.record hs
  refine h.inv.heap.inPages_of_live ha ?_
  rw [hsize]
  unfold Mm.addrSpaceSize
  unfold Mem.Within at hx ⊢
  omega

/-- A step that lets the forest grow keeps the records. -/
lemma grown (h : Holds s L roots) {m : Mm} (hg : Grown s.mm m roots) :
    Holds (s.next m s.spaces) L roots := by
  obtain ⟨hinv, hdata⟩ := h.inv.grown hg
  refine
    { inv := hinv
      length := h.length
      record := ?_
      spaceAt := ?_
      pages := ?_ }
  · intro i space hs
    obtain ⟨a, ha, hptr, hsize⟩ := h.record hs
    exact ⟨a, ha, by rw [← hptr]; exact congrArg a.ptr hg.hhdm, hsize⟩
  · intro i space hs
    exact (h.spaceAt hs).congr hg.hhdm fun x hx => hdata x (h.record_inPages hs hx)
  · rintro b (hb | ⟨s', p, hp, hb⟩)
    · exact mem_append_right _ (h.pages (.inl hb))
    · rcases hg.fresh hp hb with hold | ⟨-, hfree⟩
      · exact mem_append_right _ (h.pages (.inr ⟨s', p, hp, hold⟩))
      · obtain ⟨-, hlt, hused⟩ := hg.tables.page hp hb
        exact mem_append_left _ (Pmm.mem_taken.mpr ⟨hg.pageCount ▸ hlt, hused, hfree⟩)

lemma remaps (hf : Follows s roots ls) {m : Mm} {new : Option ℕ} (hvirt : virt < 2 ^ 47)
    (hr : Remaps s.mm m roots i virt new) {op : VmmOp}
    (hop : ∀ i' page curr, op.effect i' page curr =
      if i = i' ∧ virt / pageSize = page then new.map decodeEntry else curr) :
    Follows (s.next m s.spaces) roots (ls ++ [op]) := by
  intro i' virt' hvirt'
  rw [lastMapping_snoc, hop, ← hf i' virt' hvirt', ← apply_ite (Option.map decodeEntry)]
  congr 1
  have hleaf := hr i' _ (ptIdx virt') (lowPath_pathOf hvirt') rfl (ptIdx_lt virt')
  have hiff := path_eq_iff hvirt hvirt'
  refine hleaf.trans (if_congr ?_ rfl rfl)
  rw [hiff, eq_comm (a := i')]

lemma map (h : Holds s L roots) (hf : Follows s roots ls)
    (hok : callOk (.map i virt phys flags) = true)
    (hs : s.step (.map i virt phys flags) = some s') :
    Grown s.mm s'.mm roots ∧ Holds s' L roots ∧
      Follows s' roots (ls ++ [.map i virt phys flags]) := by
  simp only [callOk, Bool.and_eq_true, decide_eq_true_eq] at hok
  obtain ⟨⟨⟨hvirt, halign⟩, hphys⟩, hflags⟩ := hok
  simp only [step, bind, bind_eq_some_iff, some.injEq] at hs
  obtain ⟨space, hspace, m, hm, rfl⟩ := hs
  obtain ⟨hg, hr⟩ := vmmMapPage_spec h.inv.heap.mapped h.inv.tables (h.spaceAt hspace) hvirt
    (by omega) (by omega) hm
  refine ⟨hg, h.grown hg, remaps hf hvirt hr fun i' page curr => ?_⟩
  rw [map_some, decodeEntry_map halign (hflags.trans (by decide))]
  rfl

lemma unmap (h : Holds s L roots) (hf : Follows s roots ls) (hok : callOk (.unmap i virt) = true)
    (hs : s.step (.unmap i virt) = some s') :
    Holds s' L roots ∧ Follows s' roots (ls ++ [.unmap i virt]) := by
  have hvirt : virt < 2 ^ 47 := by simpa [callOk] using hok
  simp only [step, bind, bind_eq_some_iff, some.injEq] at hs
  obtain ⟨space, hspace, m, hm, rfl⟩ := hs
  obtain ⟨-, -, hg, hr⟩ := vmmUnmapPage_spec h.inv.tables (h.spaceAt hspace) hvirt hm
  exact ⟨h.grown hg, remaps hf hvirt hr fun i' page curr => rfl⟩

lemma create (h : Holds s L roots) (hf : Follows s roots ls) (hs : s.step .create = some s') :
    ∃ L' roots', Holds s' L' roots' ∧ Follows s' roots' (ls ++ [.create]) := by
  obtain ⟨⟨m, space⟩, hc, rfl⟩ := map_eq_some_iff.mp hs
  obtain ⟨L', n, hcr⟩ := h.inv.createSpace hc
  have hrec : ∀ {i space' : ℕ}, (s.spaces ++ [space])[i]? = some space' →
      Recorded m L' (roots ++ [n]) i space' := by
    intro i space' hs'
    rcases Nat.lt_trichotomy i s.spaces.length with hlt | rfl | hgt
    · rw [getElem?_append_left hlt] at hs'
      refine Recorded.extends ⟨h.spaceAt hs', h.record hs'⟩ hcr.ext fun root hroot => ?_
      rw [getElem?_append_left (List.getElem?_eq_some_iff.mp hroot).1, hroot]
    · rw [getElem?_concat_length, some.injEq] at hs'
      rw [← h.length, ← hs']
      exact hcr.recorded
    · rw [getElem?_eq_none (by simpa using Nat.succ_le_of_lt hgt)] at hs'
      cases hs'
  refine ⟨L', roots ++ [n], ⟨hcr.inv, by simp [next, h.length], fun hs' => (hrec hs').alloc,
    fun hs' => (hrec hs').spaceAt, ?_⟩, ?_⟩
  · intro b hb
    have hpage : b < m.pmm.pageCount ∧ m.pmm.used b = true := by
      rcases id hb with hb | ⟨s', p, hp, hb⟩
      · exact (hcr.inv.heap.page hb).2
      · exact (hcr.inv.tables.page hp hb).2
    by_cases hold : b ∈ L.pages ∨ IsTable s.mm roots b
    · exact mem_append_right _ (h.pages hold)
    · -- no page in use before has become one of the heap or of the tables
      have hfree : s.mm.pmm.used b = false := by
        rw [not_or] at hold
        refine Bool.eq_false_iff.2 fun hu => ?_
        have hforeign := hcr.ext.foreign ⟨hu, hold.2, hold.1⟩
        exact hb.elim hforeign.heap hforeign.table
      exact mem_append_left _ (Pmm.mem_taken.mpr ⟨hcr.ext.pageCount ▸ hpage.1, hpage.2, hfree⟩)
  · intro i virt hvirt
    rw [lastMapping_snoc, VmmOp.effect, ← hf i virt hvirt, leafOf_eq_pageEntry hvirt,
      leafOf_eq_pageEntry hvirt]
    exact congrArg (Option.map decodeEntry) (hcr.entry (div_lt_userPages hvirt))

lemma elsewhere (h : Holds s L roots) (hf : Follows s roots ls) {pmm : Pmm} {ram : Mem}
    (hok : s.ElsewhereOk pmm ram) (hs : s.step (.elsewhere pmm ram) = some s') :
    Holds s' L roots ∧ Follows s' roots (ls ++ [.elsewhere pmm ram]) := by
  simp only [step, some.injEq] at hs
  subst hs
  obtain ⟨hpc, hused, hram⟩ := hok
  obtain ⟨hinv, hentry⟩ : MmInv { s.mm with pmm := pmm, ram := ram } L roots ∧
      ∀ t, IsTable s.mm roots t → ∀ i < 512,
        Mm.entry { s.mm with pmm := pmm, ram := ram } t i = s.mm.entry t i :=
    h.inv.frame rfl rfl hpc (fun b hb => hused b (h.pages hb)) fun b hb => hram b (h.pages hb)
  refine ⟨⟨hinv, h.length, h.record, ?_, ?_⟩, ?_⟩
  · intro i space hs
    refine (h.spaceAt hs).congr rfl fun x hx => ?_
    obtain ⟨b, hb, hxb⟩ := h.record_inPages hs hx
    exact hram b (h.pages (.inl hb)) x hxb
  · intro b hb
    rw [isTable_congr hentry] at hb
    exact h.pages hb
  · intro i virt hvirt
    rw [lastMapping_snoc, VmmOp.effect, ← hf i virt hvirt]
    exact congrArg (Option.map decodeEntry)
      (leaf_congr hentry (lowPath_pathOf hvirt) (ptIdx_lt virt))

/-- The pages of the `PML4`s are read from the records. -/
lemma roots_eq (h : Holds s L roots) : s.roots = roots := by
  refine ext_getElem? fun i => ?_
  rw [VmmLedger.roots, getElem?_map]
  cases hs : s.spaces[i]? with
  | none =>
    rw [List.getElem?_eq_none_iff, ← h.length, ← List.getElem?_eq_none_iff] at hs
    rw [hs]
    rfl
  | some space =>
    obtain ⟨root, hroot, hread⟩ := h.spaceAt hs
    rw [hroot, map_some, hread, Mm.kaddr, Nat.add_sub_cancel,
      Nat.mul_div_cancel _ (by decide)]

end Holds

/-! ## Whole runs -/

/-- Every state that a run reaches holds a forest of tables with the mappings of the history. -/
lemma run_holds {m : Mm} {ls : List VmmOp} {s : VmmLedger} (hmap : m.Mapped)
    (hrun : Run step Ok (start m) ls s) :
    ∃ L roots, Holds s L roots ∧ Follows s roots ls := by
  induction hrun with
  | nil =>
    refine ⟨.empty, [], .start hmap, fun i virt _ => ?_⟩
    rw [Mm.leafOf, Mm.leaf, table_nil]
    rfl
  | @snoc ls s s' op _ hok hs ih =>
    obtain ⟨L, roots, h, hf⟩ := ih
    cases op with
    | create => exact h.create hf hs
    | map i virt phys flags =>
      obtain ⟨-, h'⟩ := h.map hf hok hs
      exact ⟨L, roots, h'⟩
    | unmap i virt => exact ⟨L, roots, h.unmap hf hok hs⟩
    | elsewhere pmm ram => exact ⟨L, roots, h.elsewhere hf hok hs⟩

end VmmLedger

/-- For address spaces made by `vmm_create_user_space` and any sequence of `vmm_map_page` and
`vmm_unmap_page` in their lower halves:

* `vmm_get_mapping` returns, for every space and every address of the lower half, the physical
  page and the flags with `PAGE_PRESENT` of the last mapping of that page in that space that was
  not undone, and `-1` if there is none;
* no two paths of indices, in one space or in two, lead to the same table, so every
  intermediate table is referenced by one parent entry only;
* every table that `vmm_map_page` adds is in a page that was free. -/
theorem mappings_follow_the_history {m : Mm} {ls : List VmmOp} {s : VmmLedger} (hmap : m.Mapped)
    (hrun : Run VmmLedger.step VmmLedger.Ok (VmmLedger.start m) ls s) :
    (∀ i space virt : ℕ, s.spaces[i]? = some space → virt < 2 ^ 47 →
        s.mm.vmmGetMapping space virt = lastMapping ls i (virt / pageSize)) ∧
      Forest LowPath (fun i : ℕ => s.roots[i]?) s.mm.child ∧
      ∀ i virt phys flags s', VmmLedger.callOk (.map i virt phys flags) = true →
        s.step (.map i virt phys flags) = some s' →
        ∀ j p t, LowPath p → s'.mm.table s'.roots j p = some t →
          s.mm.table s.roots j p = some t ∨ s.mm.pmm.used t = false := by
  obtain ⟨L, roots, h, hf⟩ := VmmLedger.run_holds hmap hrun
  rw [h.roots_eq]
  refine ⟨?_, h.inv.tables.forest, ?_⟩
  · intro i space virt hs hvirt
    rw [vmmGetMapping_eq (h.spaceAt hs), ← hf i virt hvirt]
    rfl
  · intro i virt phys flags s' hok hs j p t hp ht
    obtain ⟨hg, h', -⟩ := h.map hf hok hs
    rw [h'.roots_eq] at ht
    exact (hg.fresh hp ht).imp_right And.right

/-- Two spaces map different frames at one address, and one of them unmaps it. -/
theorem mappings_follow_the_history_two : ∃ s,
    Run VmmLedger.step VmmLedger.Ok (VmmLedger.start ⟨0x1000, fun _ => 0xff,
      ⟨fun i => if i = 0 then 1 else 0, 32, 0⟩, fun _ => ⟨0, 0, 0, 0⟩, 0⟩)
      [.create, .create, .map 0 0x400000 0x50000 6, .map 1 0x400000 0x60000 2,
        .unmap 0 0x400000] s ∧
    s.spaces.length = 2 ∧
    ∀ space, s.spaces[1]? = some space →
      s.mm.vmmGetMapping space 0x400123 = some (0x60000, 3) := by
  obtain ⟨s, hrun, hP⟩ : ∃ s, Run VmmLedger.step VmmLedger.Ok (VmmLedger.start ⟨0x1000,
      fun _ => 0xff, ⟨fun i => if i = 0 then 1 else 0, 32, 0⟩, fun _ => ⟨0, 0, 0, 0⟩, 0⟩)
      [.create, .create, .map 0 0x400000 0x50000 6, .map 1 0x400000 0x60000 2,
        .unmap 0 0x400000] s ∧ (decide (s.spaces.length = 2)) = true := by
    refine Run.exists_of_exec (fun _ => VmmLedger.callOk) (fun s op h => ?_) _
      (by decide +kernel) (by decide +kernel)
    cases op with
    | elsewhere pmm ram => cases h
    | _ => exact h
  refine ⟨s, hrun, of_decide_eq_true hP, fun space hspace => ?_⟩
  obtain ⟨hget, -, -⟩ := mappings_follow_the_history (by unfold Mm.Mapped; decide) hrun
  rw [hget 1 space 0x400123 hspace (by decide)]
  decide

end CobjOs
