import CobjOs.Memory.Owned

/-!
# How the processor translates

The processor reads the four levels of tables like `vmm_get_pte`, except that it stops at an entry
with bit 7 set, which maps a large page: the boot loader maps the kernel's half with such pages.
`Mm.kernelTables` are the tables that it can come to from the kernel's half of a `PML4`.
-/

namespace CobjOs

/-- The page that the address in an entry is in: bits 12 to 51. -/
def tableOf (entry : ℕ) : ℕ := entry / pageSize % 2 ^ 40

/-- Bit 7 of an entry. -/
def isLarge (entry : ℕ) : Bool := entry / 128 % 2 == 1

namespace Mm

variable {m m' : Mm} {virt level t k root : ℕ}

/-- The walk from a table of the given level down: the entry that maps the address, with its
level. -/
def descend (m : Mm) (virt : ℕ) : ℕ → ℕ → Option (ℕ × ℕ)
  | 0, t => (m.present t (ptIdx virt)).map fun e => (0, e)
  | level + 1, t => (m.present t (virt / 2 ^ (12 + 9 * (level + 1)) % 512)).bind fun e =>
    if isLarge e then some (level + 1, e) else m.descend virt level (tableOf e)

/-- The translation of an address, with the `PML4` in page `root`. -/
def translate (m : Mm) (root virt : ℕ) : Option (ℕ × ℕ) :=
  (m.present root (pml4Idx virt)).bind fun e => m.descend virt 2 (tableOf e)

/-- The tables below a table, and the table itself. -/
def subtables (m : Mm) : ℕ → ℕ → List ℕ
  | 0, t => [t]
  | level + 1, t => t :: (List.range 512).flatMap fun i =>
    match m.present t i with
    | none => []
    | some e => if isLarge e then [] else m.subtables level (tableOf e)

/-- The `PML4` in page `k` and the tables of its upper half. -/
def kernelTables (m : Mm) (k : ℕ) : List ℕ :=
  k :: (List.range' 256 256).flatMap fun i =>
    match m.present k i with
    | none => []
    | some e => m.subtables 2 (tableOf e)

lemma mem_subtables (m : Mm) (level t : ℕ) : t ∈ m.subtables level t := by
  cases level <;> simp [subtables]

lemma descend_congr (h : ∀ t' ∈ m.subtables level t, ∀ i < 512, m'.entry t' i = m.entry t' i) :
    m'.descend virt level t = m.descend virt level t := by
  induction level generalizing t with
  | zero =>
    have hhere := h t (m.mem_subtables 0 t) (ptIdx virt) (ptIdx_lt virt)
    rw [descend, descend, present_congr hhere]
  | succ level ih =>
    have hlt : virt / 2 ^ (12 + 9 * (level + 1)) % 512 < 512 := Nat.mod_lt _ (by decide)
    have hhere := h t (m.mem_subtables _ t) _ hlt
    rw [descend, descend, present_congr hhere]
    cases he : m.present t (virt / 2 ^ (12 + 9 * (level + 1)) % 512) with
    | none => rfl
    | some e =>
      rw [Option.bind_some, Option.bind_some]
      split_ifs with hlarge
      · rfl
      · refine ih fun t' ht' => h t' ?_
        rw [subtables, List.mem_cons, List.mem_flatMap]
        refine .inr ⟨_, List.mem_range.2 hlt, ?_⟩
        rw [he]
        simpa [hlarge] using ht'

/-- A space whose upper half is that of the kernel translates its addresses like the kernel. -/
lemma translate_congr (hvirt : 256 ≤ pml4Idx virt)
    (hroot : m'.entry root (pml4Idx virt) = m.entry k (pml4Idx virt))
    (h : ∀ t ∈ m.kernelTables k, ∀ i < 512, m'.entry t i = m.entry t i) :
    m'.translate root virt = m.translate k virt := by
  rw [translate, translate, present_congr hroot]
  cases he : m.present k (pml4Idx virt) with
  | none => rfl
  | some e =>
    rw [Option.bind_some, Option.bind_some]
    refine descend_congr fun t ht => h t ?_
    have hlt : pml4Idx virt < 512 := Nat.mod_lt _ (by decide)
    rw [kernelTables, List.mem_cons, List.mem_flatMap]
    refine .inr ⟨_, List.mem_range'_1.2 ⟨hvirt, hlt⟩, ?_⟩
    rw [he]
    exact ht

end Mm

end CobjOs
