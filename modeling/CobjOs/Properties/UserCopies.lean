import CobjOs.Memory.Owned
import CobjOs.Process.UserCopy

/-!
# Copies to and from a program

A copy returns 0 exactly when all of the range is mapped with the flags it needs, and then the bytes
arrive and nothing else changes.  This takes that the copy does not write to the tables that it
reads: a range in which a page of tables is mapped can lose its own translation half-way.  Where
every page has one owner, tables are not mapped (`Owned.words_apart`).
-/

namespace CobjOs

open Mem Option

/-- The frame of the page that an address is in. -/
def Mm.userFrame (m : Mm) (space virt : ℕ) : Option ℕ :=
  (m.vmmGetMapping space virt).map fun e => e.1 / pageSize

section Frames

variable {m : Mm} {space va len x : ℕ}

lemma entry_aligned {e : ℕ × ℕ} (he : m.vmmGetMapping space x = some e) : e.1 % pageSize = 0 := by
  rw [vmmGetMapping_walk, map_eq_some_iff] at he
  obtain ⟨w, -, rfl⟩ := he
  unfold decodeEntry entryToPhys alignDown pageSize
  omega

/-- If pages have frames of their own, bytes have addresses of their own. -/
lemma userAddr_injOn {allowed : ℕ → Bool}
    (hok : ∀ x, Within va len x → m.Accessible allowed space x)
    (hframes : ∀ x x', Within va len x → Within va len x' →
      m.userFrame space x = m.userFrame space x' → x / pageSize = x' / pageSize) {x' : ℕ}
    (hx : Within va len x) (hx' : Within va len x')
    (heq : m.userAddr space x = m.userAddr space x') : x = x' := by
  obtain ⟨-, e, he, -⟩ := hok x hx
  obtain ⟨-, e', he', -⟩ := hok x' hx'
  rw [userAddr_eq he, userAddr_eq he', some.injEq] at heq
  have hal := entry_aligned he
  have hal' := entry_aligned he'
  have hsame : e.1 / pageSize = e'.1 / pageSize := by
    unfold pageSize at *
    omega
  have hpage := hframes x x' hx hx' (by
    rw [Mm.userFrame, Mm.userFrame, he, he', map_some, map_some, hsame])
  unfold pageSize at *
  omega

end Frames

/-- Copies are correct, if the range holds no word that translating it reads, and the buffer that is
written to holds none either. -/
theorem user_copies_are_correct (m : Mm) (space va src dst len : ℕ) :
    (m.Spares space va len (m.UserRange space va len) →
      ((m.copyToUser space va src len).2 = true ↔
        ∀ x, Within va len x → m.Accessible Mm.writableFlags space x)) ∧
    (m.Spares space va len (Within dst len) →
      ((m.copyFromUser space dst va len).2 = true ↔
        ∀ x, Within va len x → m.Accessible Mm.readableFlags space x)) ∧
    (m.Spares space va len (m.UserRange space va len) →
      m.Spares space va len (Within dst len) →
      (m.copyToUser space va src len).2 = true →
      (∀ x x', Within va len x → Within va len x' →
        m.userFrame space x = m.userFrame space x' → x / pageSize = x' / pageSize) →
      (∀ y, m.UserRange space va len y → ¬Within src len y ∧ ¬Within dst len y) →
      ∃ m', (m.copyToUser space va src len).1 = m' ∧ m' = { m with ram := m'.ram } ∧
        EqOff (m.UserRange space va len) m.ram m'.ram ∧
        (∀ j < len, m'.userByte space (va + j) = some (m.ram (src + j))) ∧
        (m'.copyFromUser space dst va len).2 = true ∧
        ∀ j < len, (m'.copyFromUser space dst va len).1.ram (dst + j) = m.ram (src + j)) := by
  refine ⟨fun h => ?_, fun h => ?_, fun hto hfrom hret hframes hbuf => ?_⟩
  · obtain ⟨-, -, -, hiff⟩ := copyToUser_spec src h
    exact hiff
  · obtain ⟨-, -, -, hiff⟩ := copyFromUser_spec h
    exact hiff
  obtain ⟨ram, hm', hram, hiff⟩ := copyToUser_spec src hto
  have hok := hiff.1 hret
  have hdata : ∀ j < len, ∀ y, m.userAddr space (va + j) = some y → ram y = m.ram (src + j) := by
    intro j hj y hy
    have hd := copyToUser_data hto hok
      (fun x x' hx hx' => userAddr_injOn hok hframes hx hx') (fun y hy => (hbuf y hy).1) hj hy
    rwa [hm'] at hd
  -- the tables are those from before
  have haddr : ∀ {x}, Within va len x →
      Mm.userAddr { m with ram := ram } space x = m.userAddr space x := fun hx =>
    hto.userAddr hram hx
  have hfrom' : Mm.Spares { m with ram := ram } space va len (Within dst len) := by
    intro x hx w hw
    rw [(vmmGetMapping_congr hram (hto x hx)).2] at hw
    exact hfrom x hx w hw
  have hok' : ∀ x, Within va len x →
      Mm.Accessible { m with ram := ram } Mm.readableFlags space x := by
    intro x hx
    obtain ⟨htop, e, he, hflags⟩ := hok x hx
    refine ⟨htop, e, (hto.mapping hram hx).trans he, ?_⟩
    rw [Mm.writableFlags, Bool.and_eq_true] at hflags
    exact hflags.1
  have hdst : ∀ y, Mm.UserRange { m with ram := ram } space va len y → ¬Within dst len y := by
    rintro y ⟨x, hx, hxy⟩
    exact (hbuf y ⟨x, hx, (haddr hx).symm.trans hxy⟩).2
  obtain ⟨-, -, -, hiff'⟩ := copyFromUser_spec hfrom'
  refine ⟨{ m with ram := ram }, hm', rfl, hram, fun j hj => ?_, hiff'.2 hok', fun j hj => ?_⟩
  · have hin : Within va len (va + j) := ⟨by omega, by omega⟩
    have hy := userAddr_getD hok hj
    have hbyte : Mm.userByte { m with ram := ram } space (va + j) =
        (Mm.userAddr { m with ram := ram } space (va + j)).map ram := by
      rw [Mm.userByte, Mm.userAddr, map_map]
      rfl
    rw [hbyte, haddr hin, hy, map_some, hdata j hj _ hy]
  · have hin : Within va len (va + j) := ⟨by omega, by omega⟩
    have hy := userAddr_getD hok hj
    rw [copyFromUser_data hfrom' hok' hdst hj ((haddr hin).trans hy)]
    exact hdata j hj _ hy

/-- A machine with one address space, of which the pages 510 and 511 are mapped: the first to
`frame`, the second to page 6.  The tables are in the pages 1 to 4, and there are four bytes at
`0x9000`. -/
def copyMachine (frame : ℕ) : Mm :=
  { hhdm := 0x1000
    ram := ((((((Mem.writeNat (fun _ => 0) 8 0x100 0x2000).writeNat 8 0x2000 0x2007).writeNat 8
      0x3000 0x3007).writeNat 8 0x4000 0x4007).writeNat 8 (0x5000 + 510 * 8)
      (frame * 0x1000 + 7)).writeNat 8 (0x5000 + 511 * 8) 0x6007).write 0x9000 [1, 2, 3, 4]
    pmm := ⟨fun _ => 0, 64, 0⟩
    caches := fun _ => ⟨0, 0, 0, 0⟩
    kernelPml4 := 0 }

lemma accessible_iff {m : Mm} {allowed : ℕ → Bool} {space virt : ℕ} :
    m.Accessible allowed space virt ↔
      virt < userSpaceTop ∧ (m.vmmGetMapping space virt).any (fun e => allowed e.2) = true := by
  rw [Mm.Accessible, any_eq_true]

/-- Four bytes, two in each page, on a machine whose tables are elsewhere. -/
theorem user_copies_are_correct_two_pages :
    ∃ m', ((copyMachine 5).copyToUser 0x100 (510 * 4096 + 4094) 0x9000 4).1 = m' ∧
      ∀ j < 4, (m'.copyFromUser 0x100 0xa000 (510 * 4096 + 4094) 4).1.ram (0xa000 + j) =
        (copyMachine 5).ram (0x9000 + j) := by
  have hwords : ∀ j < 4, ∀ w ∈ (copyMachine 5).walkWords 0x100 (510 * 4096 + 4094 + j),
      w + 8 ≤ 0x6000 := by decide +kernel
  have haddrs : ∀ j < 4, ((copyMachine 5).userAddr 0x100 (510 * 4096 + 4094 + j)).all
      (fun y => decide (0x6000 ≤ y ∧ y < 0x8000)) = true := by decide +kernel
  have hrange : ∀ y, (copyMachine 5).UserRange 0x100 (510 * 4096 + 4094) 4 y →
      0x6000 ≤ y ∧ y < 0x8000 := by
    rintro y ⟨x, hx, hxy⟩
    obtain ⟨j, rfl⟩ := Nat.exists_eq_add_of_le hx.1
    have hy := haddrs j (Nat.lt_of_add_lt_add_left hx.2)
    rwa [hxy, all_some, decide_eq_true_eq] at hy
  have hspares : ∀ {W : ℕ → Prop}, (∀ y, W y → 0x6000 ≤ y) →
      (copyMachine 5).Spares 0x100 (510 * 4096 + 4094) 4 W := by
    intro W hW x hx w hw y hy hWy
    obtain ⟨j, rfl⟩ := Nat.exists_eq_add_of_le hx.1
    have hle := hwords j (Nat.lt_of_add_lt_add_left hx.2) w hw
    have hge := hW y hWy
    unfold Within at hy
    omega
  have hframes : ∀ i < 4, ∀ j < 4, (copyMachine 5).userFrame 0x100 (510 * 4096 + 4094 + i) =
      (copyMachine 5).userFrame 0x100 (510 * 4096 + 4094 + j) →
      (510 * 4096 + 4094 + i) / pageSize = (510 * 4096 + 4094 + j) / pageSize := by decide +kernel
  obtain ⟨m', hm', -, -, -, -, hback⟩ := (user_copies_are_correct (copyMachine 5) 0x100
    (510 * 4096 + 4094) 0x9000 0xa000 4).2.2 (hspares fun y hy => (hrange y hy).1)
    (hspares fun y hy => by unfold Within at hy; omega) (by decide +kernel)
    (fun x x' hx hx' => by
      obtain ⟨i, rfl⟩ := Nat.exists_eq_add_of_le hx.1
      obtain ⟨j, rfl⟩ := Nat.exists_eq_add_of_le hx'.1
      exact hframes i (Nat.lt_of_add_lt_add_left hx.2) j (Nat.lt_of_add_lt_add_left hx'.2))
    (fun y hy => by
      have hy' := hrange y hy
      unfold Within
      omega)
  exact ⟨m', hm', hback⟩

/-- Page 510 is mapped to the table that maps both: the first eight bytes of the copy take the
mapping of page 511 away, and the copy returns -1 although all of the range was mapped. -/
theorem copy_over_tables_fails :
    (∀ x, Within (510 * 4096 + 4088) 9 x →
      (copyMachine 4).Accessible Mm.writableFlags 0x100 x) ∧
    ((copyMachine 4).copyToUser 0x100 (510 * 4096 + 4088) 0xa000 9).2 = false := by
  refine ⟨fun x hx => ?_, by decide +kernel⟩
  have hall : ∀ j < 9, 510 * 4096 + 4088 + j < userSpaceTop ∧
      ((copyMachine 4).vmmGetMapping 0x100 (510 * 4096 + 4088 + j)).any
        (fun e => Mm.writableFlags e.2) = true := by decide +kernel
  obtain ⟨j, rfl⟩ := Nat.exists_eq_add_of_le hx.1
  exact accessible_iff.2 (hall j (Nat.lt_of_add_lt_add_left hx.2))

/-! ## Tables that are not mapped -/

section Owner

variable {m : Mm} {L : HeapMap} {roots R : List ℕ} {s space va len t w x y : ℕ}

/-- The words of a look-up in the lower half are entries of tables. -/
lemma isTable_of_mem_tableWords {p is : List ℕ} (hp : LowPath p) (ht : m.table roots s p = some t)
    (hlen : p.length + is.length ≤ 4) (his : ∀ i ∈ is, i < 512)
    (hlow : p = [] → ∀ i ∈ is.head?, i < 256) (hw : w ∈ m.tableWords (m.kaddr t) is) :
    ∃ t' i, IsTable m roots t' ∧ i < 512 ∧ w = m.kaddr t' + 8 * i := by
  induction is generalizing p t with
  | nil => simp [Mm.tableWords] at hw
  | cons i is ih =>
    have hi := his i List.mem_cons_self
    rcases List.mem_cons.1 hw with rfl | hw
    · exact ⟨t, i, ⟨s, p, hp, ht⟩, hi, rfl⟩
    split at hw
    case isFalse => simp at hw
    case isTrue hpresent =>
      cases is with
      | nil => simp [Mm.tableWords] at hw
      | cons i' is =>
        have hentry : isPresent (m.entry t i) = true := hpresent
        have hchild : m.child t i = some (m.entry t i / pageSize) := by
          rw [Mm.child, Mm.present, if_pos hentry, map_some]
        have hnext : m.nextTable (m.ram.readNat 8 (m.kaddr t + 8 * i)) =
            m.kaddr (m.entry t i / pageSize) := by
          rw [Mm.nextTable, entryToPhys, alignDown, Mm.kaddr, Mm.entry]
          rfl
        rw [hnext] at hw
        refine ih (p := i :: p) ⟨?_, ?_, ?_⟩ ?_ ?_ (fun j hj => his j (List.mem_cons_of_mem _ hj))
          (fun hnil => by cases hnil) hw
        · simp only [List.length_cons] at hlen ⊢
          omega
        · intro j hj
          rcases List.mem_cons.1 hj with rfl | hj
          · exact hi
          · exact hp.2.1 j hj
        · cases p with
          | nil => simpa using hlow rfl i (by simp)
          | cons j p => simpa using hp.2.2
        · rw [Mm.table_cons, ht, bind_some, hchild]
        · simp only [List.length_cons] at hlen ⊢
          omega

/-- A byte of the lower half is in a frame. -/
lemma exists_frame (hs : SpaceAt m roots s space) (hx : x < 2 ^ 47)
    (hxy : m.userAddr space x = some y) :
    ∃ f, m.frameAt roots s (x / pageSize) = some f ∧ y = m.kaddr f + x % pageSize := by
  rw [Mm.userAddr, vmmGetMapping_pageEntry hs hx, map_map, map_eq_some_iff] at hxy
  obtain ⟨e, he, rfl⟩ := hxy
  exact ⟨e / pageSize, by rw [Mm.frameAt, he, map_some], rfl⟩

lemma inPage_frame (m : Mm) (f x : ℕ) : InPage m f (m.kaddr f + x % pageSize) :=
  ⟨Nat.le_add_right _ _, Nat.add_lt_add_left (Nat.mod_lt _ (by decide)) _⟩

/-- Where every page has one owner, a byte of memory is one byte of one lower half. -/
lemma Owned.userAddr_unique {s' space' x' : ℕ} (h : Owned m L roots R)
    (hs : SpaceAt m roots s space) (hs' : SpaceAt m roots s' space') (hx : x < 2 ^ 47)
    (hx' : x' < 2 ^ 47) (hy : m.userAddr space x = some y)
    (hy' : m.userAddr space' x' = some y) : s = s' ∧ x = x' := by
  obtain ⟨f, hf, rfl⟩ := exists_frame hs hx hy
  obtain ⟨f', hf', heq⟩ := exists_frame hs' hx' hy'
  have hin := inPage_frame m f' x'
  rw [← heq] at hin
  obtain rfl := (inPage_frame m f x).unique hin
  obtain ⟨rfl, hpage⟩ := h.unique (div_lt_userPages hx) (div_lt_userPages hx') hf hf'
  refine ⟨rfl, ?_⟩
  unfold pageSize at *
  omega

/-- Where every page has one owner, no lower half maps a word that looking up an address of any
lower half reads. -/
lemma Owned.words_apart {s' space' : ℕ} (h : Owned m L roots R) (hs : SpaceAt m roots s space)
    (hrec : Recorded m L roots s' space') (hlow : va + len ≤ 2 ^ 47) (hx : x < 2 ^ 47)
    (hw : w ∈ m.walkWords space' x) (hy : Within w 8 y) : ¬m.UserRange space va len y := by
  rintro ⟨x', hx', hxy⟩
  have hlt' : x' < 2 ^ 47 := by
    unfold Within at hx'
    omega
  obtain ⟨f, hf, hyf⟩ := exists_frame hs hlt' hxy
  have hforeign := (h.mapped (div_lt_userPages hlt') hf).2.1
  have hin : InPage m f y := hyf ▸ inPage_frame m f x'
  obtain ⟨root, hroot, hread⟩ := hrec.spaceAt
  rcases List.mem_cons.1 hw with rfl | hw
  · obtain ⟨a, ha, rfl, hsize⟩ := hrec.alloc
    obtain ⟨b, hb, hyb⟩ := h.inv.heap.inPages_of_live ha (x := y) (by
      rw [hsize, Mm.addrSpaceSize]
      unfold Within at hy ⊢
      omega)
    have hyb' : InPage m b y := hyb
    exact hforeign.heap (hin.unique hyb' ▸ hb)
  · rw [hread] at hw
    have hempty : LowPath [] := ⟨by simp, by simp, by simp⟩
    have htable : m.table roots s' [] = some root := hroot
    obtain ⟨t, i, ht, hi, rfl⟩ := isTable_of_mem_tableWords hempty htable (by simp [Mm.indices]) (by
        intro j hj
        simp only [Mm.indices, List.mem_cons, List.not_mem_nil, or_false] at hj
        rcases hj with rfl | rfl | rfl | rfl <;> exact Nat.mod_lt _ (by decide))
      (fun _ j hj => by
        obtain rfl : pml4Idx x = j := by simpa [Mm.indices] using hj
        unfold pml4Idx
        omega) hw
    have hyt : InPage m t y := InEntry.inPage hy hi
    exact hforeign.table (hin.unique hyt ▸ ht)

lemma userByte_eq (m : Mm) (space x : ℕ) : m.userByte space x = (m.userAddr space x).map m.ram := by
  rw [Mm.userByte, Mm.userAddr, map_map]
  rfl

end Owner

end CobjOs
