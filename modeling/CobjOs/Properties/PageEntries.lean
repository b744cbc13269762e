import CobjOs.Properties.UserCopies

/-!
# Page entries

An entry holds the address of a page and its flags.  Seven of the flags `vmm.h` names are in the
low twelve bits, which `vmm_get_mapping` takes for the flags; `PAGE_NX` is bit 63, and there the
mask leaves it in the address.  So what `vmm_map_page` writes is read back exactly if `PAGE_NX` is
not among the flags, and both `VMM_FLAGS_KERNEL_RW` and `VMM_FLAGS_USER_RW` have it.
-/

namespace CobjOs

open Option

/-- The `PAGE_*` constants, without `PAGE_HUGE`. -/
inductive PageFlag
  | present | write | user | pwt | pcd | accessed | dirty | nx
  deriving DecidableEq

/-- The bit of a flag. -/
def PageFlag.bit : PageFlag → ℕ
  | .present => 0
  | .write => 1
  | .user => 2
  | .pwt => 3
  | .pcd => 4
  | .accessed => 5
  | .dirty => 6
  | .nx => 63

/-- Flags joined by `|`. -/
def flagsOf : List PageFlag → ℕ
  | [] => 0
  | f :: fs => 2 ^ f.bit ||| flagsOf fs

/-- `VMM_FLAGS_KERNEL_RW`, `VMM_FLAGS_USER_RW`. -/
def vmmFlagsKernelRw : List PageFlag := [.present, .write, .nx]
def vmmFlagsUserRw : List PageFlag := [.present, .write, .user, .nx]

lemma flagsOf_lt {n : ℕ} : ∀ {fs : List PageFlag}, (∀ f ∈ fs, f.bit < n) → flagsOf fs < 2 ^ n
  | [], _ => Nat.two_pow_pos n
  | f :: fs, h => by
      rw [List.forall_mem_cons] at h
      exact Nat.or_lt_two_pow (Nat.pow_lt_pow_right (by decide) h.1) (flagsOf_lt h.2)

lemma testBit_flagsOf {f : PageFlag} : ∀ {fs : List PageFlag}, f ∈ fs →
    (flagsOf fs).testBit f.bit = true
  | g :: fs, h => by
      rw [flagsOf, Nat.testBit_or, Bool.or_eq_true]
      rcases List.mem_cons.1 h with rfl | h
      · exact .inl (Nat.testBit_two_pow_self)
      · exact .inr (testBit_flagsOf h)

/-- Flags without `PAGE_NX` fit into the mask. -/
lemma flagsOf_lt_pageSize {fs : List PageFlag} (h : .nx ∉ fs) : flagsOf fs < pageSize := by
  refine Nat.lt_of_lt_of_le (flagsOf_lt (n := 7) fun f hf => ?_) (by decide)
  cases f with
  | nx => exact absurd hf h
  | _ => decide

lemma entryToPhys_nx {fs : List PageFlag} (h : .nx ∈ fs) (phys : ℕ) :
    2 ^ 63 ≤ entryToPhys (alignDown phys ||| (flagsOf fs ||| pagePresent)) := by
  have hbit : (alignDown phys ||| (flagsOf fs ||| pagePresent)).testBit 63 = true := by
    have hflag : (flagsOf fs).testBit 63 = true := testBit_flagsOf h
    rw [Nat.testBit_or, Nat.testBit_or, hflag, Bool.true_or, Bool.or_true]
  have hle := Nat.ge_two_pow_of_testBit hbit
  unfold entryToPhys
  generalize alignDown phys ||| (flagsOf fs ||| pagePresent) = e at hle
  unfold alignDown pageSize
  omega

/-! ## Writing and reading back -/

section RoundTrip

variable {m m' : Mm} {L : HeapMap} {roots : List ℕ} {s space virt phys : ℕ}

/-- Whatever is written to the entry of `virt`, the tables still lead to it: it is none of the
words that are read on the way. -/
def Mm.Settled (m : Mm) (space virt : ℕ) : Prop :=
  ∀ m₁ pte e, m.vmmGetPte space virt true = some (m₁, some pte) →
    vmmGetPte { m₁ with ram := m₁.ram.writeNat 8 pte e } space virt false =
      some ({ m₁ with ram := m₁.ram.writeNat 8 pte e }, some pte)

/-- In the lower half of the spaces that `vmm_create_user_space` makes it is so. -/
lemma MmInv.settled (h : MmInv m L roots) (hrec : Recorded m L roots s space)
    (hvirt : virt < 2 ^ 47) : m.Settled space virt := by
  intro m₁ pte e hpte
  have hpath := lowPath_pathOf hvirt
  obtain ⟨t, hr, ht, hg, -⟩ :=
    vmmGetPte_grown h.heap.mapped h.tables hrec.spaceAt hvirt hpte
  obtain rfl : pte = m₁.kaddr t + 8 * ptIdx virt := some.inj hr
  have hg' : Grown m (m₁.setEntry t (ptIdx virt) e) roots :=
    hg.setEntry hpath rfl ht (ptIdx_lt virt)
  have hspace : SpaceAt (m₁.setEntry t (ptIdx virt) e) roots s space := by
    refine hrec.spaceAt.congr hg'.hhdm fun x hx => (h.grown hg').2 x ?_
    obtain ⟨a, ha, rfl, hsize⟩ := hrec.alloc
    refine h.heap.inPages_of_live ha ?_
    rw [hsize, Mm.addrSpaceSize]
    unfold Mem.Within at hx ⊢
    omega
  have hwalk : (m₁.setEntry t (ptIdx virt) e).vmmGetPte space virt false = _ :=
    vmmGetPte_false hspace
  rw [table_setEntry hg.tables hpath rfl ht (ptIdx_lt virt) hpath, ht] at hwalk
  exact hwalk

/-- The entry that was written is the one that is read. -/
lemma vmmGetMapping_mapped {flags : ℕ} (hs : m.Settled space virt) (hphys : phys < 2 ^ 64)
    (hflags : flags < 2 ^ 64) (h : m.vmmMapPage space virt phys flags = some m') :
    m'.vmmGetMapping space virt =
      some (decodeEntry (alignDown phys ||| (flags ||| pagePresent))) := by
  simp only [Mm.vmmMapPage, bind, bind_eq_some_iff, some.injEq] at h
  obtain ⟨⟨m₁, r⟩, hpte, pte, rfl, rfl⟩ := h
  have he : alignDown phys ||| (flags ||| pagePresent) < 256 ^ 8 := by
    refine Nat.or_lt_two_pow (n := 64) ?_ (Nat.or_lt_two_pow hflags (by decide))
    unfold alignDown pageSize
    omega
  simp only [Mm.vmmGetMapping, hs _ _ _ hpte, bind, bind_some, Mem.readNat_writeNat _ _ he,
    isPresent_mapped, if_true]
  rfl

/-- What `vmm_map_page` writes is what `vmm_get_mapping` returns, exactly if `PAGE_NX` is not among
the flags. -/
theorem mapping_reads_back {fs : List PageFlag} (hs : m.Settled space virt)
    (halign : phys % pageSize = 0) (hphys : phys < 2 ^ 52)
    (h : m.vmmMapPage space virt phys (flagsOf fs) = some m') :
    m'.vmmGetMapping space virt = some (phys, flagsOf fs ||| pagePresent) ↔ .nx ∉ fs := by
  have hflags : flagsOf fs < 2 ^ 64 := flagsOf_lt fun f _ => by cases f <;> decide
  rw [vmmGetMapping_mapped hs (hphys.trans (by decide)) hflags h, some.injEq]
  constructor
  · intro hread hnx
    have hle := entryToPhys_nx hnx phys
    rw [(Prod.mk.inj hread).1] at hle
    omega
  · intro hnx
    exact decodeEntry_map halign (flagsOf_lt_pageSize hnx)

end RoundTrip

/-- The way to page 510 of the machine, whatever its entry holds. -/
lemma vmmGetPte_copyMachine {ram : Mem} (alloc : Bool)
    (h : Mem.EqOff (Mem.Within 0x5ff0 8) (copyMachine 5).ram ram) :
    Mm.vmmGetPte { copyMachine 5 with ram := ram } 0x100 (510 * 4096) alloc =
      some ({ copyMachine 5 with ram := ram }, some 0x5ff0) := by
  have hread : ∀ w, w + 8 ≤ 0x5ff0 → ram.readNat 8 w = (copyMachine 5).ram.readNat 8 w := by
    intro w hw
    refine h.readNat fun x hx hin => ?_
    unfold Mem.Within at hx hin
    omega
  have h₀ : ram.readNat 8 0x100 = 0x2000 := (hread _ (by decide)).trans (by decide +kernel)
  have h₁ : ram.readNat 8 0x2000 = 0x2007 := (hread _ (by decide)).trans (by decide +kernel)
  have h₂ : ram.readNat 8 0x3000 = 0x3007 := (hread _ (by decide)).trans (by decide +kernel)
  have h₃ : ram.readNat 8 0x4000 = 0x4007 := (hread _ (by decide)).trans (by decide +kernel)
  have hhdm : (copyMachine 5).hhdm = 0x1000 := rfl
  simp [Mm.vmmGetPte, Mm.nextLevel, Mm.nextTable, isPresent, pml4Idx, pdptIdx, pdIdx, ptIdx,
    entryToPhys, alignDown, pageSize, h₀, h₁, h₂, h₃, hhdm]

/-- A page written with every flag but `PAGE_NX`. -/
theorem mapping_reads_back_low_flags :
    ∃ m', (copyMachine 5).vmmMapPage 0x100 (510 * 4096) 0x7000
        (flagsOf [.write, .user, .pwt, .pcd, .accessed, .dirty]) = some m' ∧
      m'.vmmGetMapping 0x100 (510 * 4096) = some (0x7000, 0x7f) := by
  have hpte : (copyMachine 5).vmmGetPte 0x100 (510 * 4096) true =
      some (copyMachine 5, some 0x5ff0) := vmmGetPte_copyMachine true (Mem.EqOff.refl _)
  have hsettled : (copyMachine 5).Settled 0x100 (510 * 4096) := by
    intro m₁ pte e h
    obtain ⟨rfl, hp⟩ := Prod.mk.inj (some.inj (hpte.symm.trans h))
    obtain rfl := some.inj hp
    exact vmmGetPte_copyMachine false (Mem.EqOff.writeNat _ fun _ hx => hx)
  obtain ⟨m', hmap⟩ : ∃ m', (copyMachine 5).vmmMapPage 0x100 (510 * 4096) 0x7000
      (flagsOf [.write, .user, .pwt, .pcd, .accessed, .dirty]) = some m' :=
    ⟨_, by rw [Mm.vmmMapPage, hpte]; rfl⟩
  exact ⟨m', hmap, (mapping_reads_back hsettled rfl (by decide) hmap).2 (by decide)⟩

/-- With `VMM_FLAGS_USER_RW` the address comes back with bit 63 set, and the flag is gone. -/
theorem nx_mapping_has_wild_address :
    ((copyMachine 5).vmmMapPage 0x100 (510 * 4096) 0x7000 (flagsOf vmmFlagsUserRw)).map
      (fun m' => m'.vmmGetMapping 0x100 (510 * 4096)) =
      some (some (2 ^ 63 + 0x7000, 7)) := by
  decide +kernel

end CobjOs
