import CobjOs.Memory.Frames
import CobjOs.Process.Mmap

/-!
# Copies between the kernel and a program

`copy_to_user` and `copy_from_user` of `src/userspace/syscall.c` look up the range page by page in
the tables of the current process and copy the part of the page through the direct map.  They are
one loop, which differs in the flags a page must have and in the direction of the `memcpy`.

The tables are read again for every page, after the pages before it were copied.  So what a copy
does is determined by the tables it starts with only if it does not overwrite them: `walkWords` are
the words that a look-up reads.
-/

namespace CobjOs

open Mem Option

/-- `flags & flag`. -/
def hasFlag (flags flag : ℕ) : Bool := flags &&& flag != 0

namespace Mm

/-- `chunk`: the part of the range in its first page. -/
def chunk (va len : ℕ) : ℕ := min (pageSize - va % pageSize) len

lemma chunk_pos (va : ℕ) {len : ℕ} (h : len ≠ 0) : 0 < chunk va len := by
  have hoff : va % pageSize < pageSize := Nat.mod_lt _ (by decide)
  unfold chunk
  omega

/-- One turn of the loop of both functions, with `buf` the kernel's buffer; `none` for `-1`. -/
def copyChunk (allowed : ℕ → Bool) (memcpy : Mem → ℕ → ℕ → ℕ → Mem) (m : Mm)
    (space va buf len : ℕ) : Option Mm :=
  let pageOff := va % pageSize
  if userSpaceTop ≤ va then none
  else do
    let (phys, flags) ← m.vmmGetMapping space (va - pageOff)
    if !allowed flags then none
    else some { m with ram := memcpy m.ram (phys + m.hhdm + pageOff) buf (chunk va len) }

/-- The loop: the state after it, and whether 0 is returned. -/
def userCopy (allowed : ℕ → Bool) (memcpy : Mem → ℕ → ℕ → ℕ → Mem) (m : Mm)
    (space va buf len : ℕ) : Mm × Bool :=
  if len = 0 then (m, true)
  else
    match m.copyChunk allowed memcpy space va buf len with
    | none => (m, false)
    | some m =>
      userCopy allowed memcpy m space (va + chunk va len) (buf + chunk va len) (len - chunk va len)
termination_by len
decreasing_by
  have hpos := chunk_pos va ‹len ≠ 0›
  omega

/-- The flags that `copy_to_user` and `copy_from_user` ask for. -/
def writableFlags (flags : ℕ) : Bool :=
  hasFlag flags pagePresent && hasFlag flags pageUser && hasFlag flags pageWrite
def readableFlags (flags : ℕ) : Bool := hasFlag flags pagePresent && hasFlag flags pageUser

/-- `copy_to_user`. -/
def copyToUser (m : Mm) (space userDst kernelSrc len : ℕ) : Mm × Bool :=
  m.userCopy writableFlags (fun ram user kernel n => ram.copy user kernel n) space userDst
    kernelSrc len

/-- `copy_from_user`. -/
def copyFromUser (m : Mm) (space kernelDst userSrc len : ℕ) : Mm × Bool :=
  m.userCopy readableFlags (fun ram user kernel n => ram.copy kernel user n) space userSrc
    kernelDst len

/-! ## Look-ups -/

/-- The entry that the tables lead to. -/
def walk (m : Mm) (table : ℕ) : List ℕ → Option ℕ
  | [] => none
  | i :: is =>
    let entry := m.ram.readNat 8 (table + 8 * i)
    if !isPresent entry then none
    else if is = [] then some entry
    else m.walk (m.nextTable entry) is

/-- The entries read on the way. -/
def tableWords (m : Mm) (table : ℕ) : List ℕ → List ℕ
  | [] => []
  | i :: is =>
    let entry := m.ram.readNat 8 (table + 8 * i)
    (table + 8 * i) :: if isPresent entry then m.tableWords (m.nextTable entry) is else []

/-- The indices of an address. -/
def indices (virt : ℕ) : List ℕ := [pml4Idx virt, pdptIdx virt, pdIdx virt, ptIdx virt]

/-- The words that looking up `virt` reads: the first of the record of the space, and entries of
the tables. -/
def walkWords (m : Mm) (space virt : ℕ) : List ℕ :=
  space :: m.tableWords (m.ram.readNat 8 space) (indices virt)

/-- Where in the kernel's addresses a byte of a program is. -/
def userAddr (m : Mm) (space virt : ℕ) : Option ℕ :=
  (m.vmmGetMapping space virt).map fun e => e.1 + m.hhdm + virt % pageSize

end Mm

section Walk

variable {m : Mm} {W : ℕ → Prop} {ram : Mem} {space virt : ℕ}

lemma nextLevel_look (m : Mm) (table i : ℕ) : m.nextLevel table i false =
    some (m, if isPresent (m.ram.readNat 8 (table + 8 * i)) then
      some (m.nextTable (m.ram.readNat 8 (table + 8 * i))) else none) := by
  unfold Mm.nextLevel
  dsimp only
  cases isPresent (m.ram.readNat 8 (table + 8 * i)) <;> rfl

lemma vmmGetMapping_walk (m : Mm) (space virt : ℕ) : m.vmmGetMapping space virt =
    (m.walk (m.ram.readNat 8 space) (Mm.indices virt)).map decodeEntry := by
  unfold Mm.vmmGetMapping Mm.vmmGetPte Mm.indices
  simp only [nextLevel_look, Mm.walk, bind, bind_some]
  -- level by level: an absent entry ends both
  cases hpml4e : isPresent (m.ram.readNat 8 (m.ram.readNat 8 space + 8 * pml4Idx virt)) with
  | false => simp
  | true =>
    generalize m.nextTable (m.ram.readNat 8 (m.ram.readNat 8 space + 8 * pml4Idx virt)) = pdpt
    cases hpdpte : isPresent (m.ram.readNat 8 (pdpt + 8 * pdptIdx virt)) with
    | false => simp [hpdpte]
    | true =>
      generalize hpd : m.nextTable (m.ram.readNat 8 (pdpt + 8 * pdptIdx virt)) = pd
      cases hpde : isPresent (m.ram.readNat 8 (pd + 8 * pdIdx virt)) with
      | false => simp [hpdpte, hpd, hpde]
      | true =>
        generalize hpt : m.nextTable (m.ram.readNat 8 (pd + 8 * pdIdx virt)) = pt
        cases hpte : isPresent (m.ram.readNat 8 (pt + 8 * ptIdx virt)) <;>
          simp [hpdpte, hpd, hpde, hpt, hpte, decodeEntry]

lemma walk_congr {table : ℕ} {is : List ℕ} (hram : EqOff W m.ram ram)
    (hout : ∀ w ∈ m.tableWords table is, ∀ x, Within w 8 x → ¬W x) :
    Mm.walk { m with ram := ram } table is = m.walk table is ∧
      Mm.tableWords { m with ram := ram } table is = m.tableWords table is := by
  induction is generalizing table with
  | nil => exact ⟨rfl, rfl⟩
  | cons i is ih =>
    rw [Mm.tableWords, List.forall_mem_cons] at hout
    have hword : ram.readNat 8 (table + 8 * i) = m.ram.readNat 8 (table + 8 * i) :=
      hram.readNat hout.1
    unfold Mm.walk Mm.tableWords
    dsimp only
    rw [hword]
    cases hp : isPresent (m.ram.readNat 8 (table + 8 * i)) with
    | false => exact ⟨rfl, rfl⟩
    | true =>
      rw [hp, if_pos rfl] at hout
      obtain ⟨hwalk, hwords⟩ := ih hout.2
      refine ⟨?_, congrArg _ hwords⟩
      simp only [Bool.not_true, Bool.false_eq_true, if_false]
      exact if_congr Iff.rfl rfl hwalk

lemma vmmGetMapping_congr (hram : EqOff W m.ram ram)
    (hout : ∀ w ∈ m.walkWords space virt, ∀ x, Within w 8 x → ¬W x) :
    Mm.vmmGetMapping { m with ram := ram } space virt = m.vmmGetMapping space virt ∧
      Mm.walkWords { m with ram := ram } space virt = m.walkWords space virt := by
  rw [Mm.walkWords, List.forall_mem_cons] at hout
  have hpml4 : ram.readNat 8 space = m.ram.readNat 8 space := hram.readNat hout.1
  obtain ⟨hwalk, hwords⟩ := walk_congr hram hout.2
  rw [vmmGetMapping_walk, vmmGetMapping_walk, Mm.walkWords, Mm.walkWords]
  dsimp only
  rw [hpml4, hwalk, hwords]
  exact ⟨rfl, rfl⟩

/-- Addresses of one page have the same indices. -/
lemma indices_page (virt : ℕ) : Mm.indices (virt - virt % pageSize) = Mm.indices virt := by
  unfold Mm.indices pml4Idx pdptIdx pdIdx ptIdx pageSize
  congr 1
  · omega
  · congr 1
    · omega
    · congr 1
      · omega
      · congr 1
        omega

lemma vmmGetMapping_page (m : Mm) (space virt : ℕ) :
    m.vmmGetMapping space (virt - virt % pageSize) = m.vmmGetMapping space virt := by
  rw [vmmGetMapping_walk, vmmGetMapping_walk, indices_page]

end Walk

/-! ## The loop -/

/-- The byte is in a page of the lower half with the flags that are asked for. -/
def Mm.Accessible (m : Mm) (allowed : ℕ → Bool) (space virt : ℕ) : Prop :=
  virt < userSpaceTop ∧ ∃ e, m.vmmGetMapping space virt = some e ∧ allowed e.2 = true

/-- No word that looking up the range reads has a byte in `W`. -/
def Mm.Spares (m : Mm) (space va len : ℕ) (W : ℕ → Prop) : Prop :=
  ∀ x, Within va len x → ∀ w ∈ m.walkWords space x, ∀ y, Within w 8 y → ¬W y

section Loop

variable {m : Mm} {allowed : ℕ → Bool} {memcpy : Mem → ℕ → ℕ → ℕ → Mem} {W V : ℕ → Prop}
  {ram : Mem} {space va buf len x : ℕ}

lemma chunk_le (va len : ℕ) : Mm.chunk va len ≤ len := Nat.min_le_right _ _

lemma off_add_chunk_le (va len : ℕ) : va % pageSize + Mm.chunk va len ≤ pageSize := by
  have hoff : va % pageSize < pageSize := Nat.mod_lt _ (by decide)
  unfold Mm.chunk
  omega

/-- The bytes of the first chunk are in the page of the first. -/
lemma page_of_chunk (hx : Within va (Mm.chunk va len) x) :
    x - x % pageSize = va - va % pageSize := by
  have hoff := off_add_chunk_le va len
  unfold Within at hx
  unfold pageSize at *
  omega

lemma vmmGetMapping_chunk (hx : Within va (Mm.chunk va len) x) :
    m.vmmGetMapping space x = m.vmmGetMapping space va := by
  rw [← vmmGetMapping_page m space x, page_of_chunk hx, vmmGetMapping_page]

lemma accessible_chunk (hx : Within va (Mm.chunk va len) x) :
    m.Accessible allowed space x ↔ m.Accessible allowed space va := by
  have htop : x < userSpaceTop ↔ va < userSpaceTop := by
    have hpage := page_of_chunk hx
    unfold userSpaceTop
    unfold pageSize at hpage
    omega
  rw [Mm.Accessible, Mm.Accessible, vmmGetMapping_chunk hx, htop]

lemma copyChunk_none (h : ¬m.Accessible allowed space va) :
    m.copyChunk allowed memcpy space va buf len = none := by
  rw [Mm.copyChunk]
  dsimp only
  by_cases htop : userSpaceTop ≤ va
  · rw [if_pos htop]
  · rw [if_neg htop, vmmGetMapping_page]
    cases he : m.vmmGetMapping space va with
    | none => rfl
    | some e =>
      have hflags : allowed e.2 = false :=
        Bool.eq_false_iff.2 fun hf => h ⟨Nat.lt_of_not_le htop, e, he, hf⟩
      simp [hflags]

lemma copyChunk_some {e : ℕ × ℕ} (htop : va < userSpaceTop)
    (he : m.vmmGetMapping space va = some e) (hflags : allowed e.2 = true) :
    m.copyChunk allowed memcpy space va buf len = some { m with
      ram := memcpy m.ram (e.1 + m.hhdm + va % pageSize) buf (Mm.chunk va len) } := by
  rw [Mm.copyChunk]
  dsimp only
  rw [if_neg (Nat.not_le_of_lt htop), vmmGetMapping_page, he]
  simp [hflags]

lemma within_rest {c : ℕ} (hc : c ≤ len) (hx : Within (va + c) (len - c) x) : Within va len x := by
  unfold Within at hx ⊢
  omega

lemma Mm.Spares.mapping (h : m.Spares space va len W) (hram : EqOff W m.ram ram)
    (hx : Within va len x) :
    vmmGetMapping { m with ram := ram } space x = m.vmmGetMapping space x :=
  (vmmGetMapping_congr hram (h x hx)).1

lemma Mm.Spares.accessible (h : m.Spares space va len W) (hram : EqOff W m.ram ram)
    (hx : Within va len x) :
    Accessible { m with ram := ram } allowed space x ↔ m.Accessible allowed space x := by
  rw [Accessible, Accessible, h.mapping hram hx]

lemma Mm.Spares.rest {c : ℕ} (h : m.Spares space va len W) (hc : c ≤ len)
    (hram : EqOff W m.ram ram) (hV : ∀ y, V y → W y) :
    Spares { m with ram := ram } space (va + c) (len - c) V := by
  intro x hx w hw y hy hVy
  rw [(vmmGetMapping_congr hram (h x (within_rest hc hx))).2] at hw
  exact h x (within_rest hc hx) w hw y hy (hV y hVy)

lemma userCopy_step {e : ℕ × ℕ} (hlen : len ≠ 0) (htop : va < userSpaceTop)
    (he : m.vmmGetMapping space va = some e) (hflags : allowed e.2 = true) :
    m.userCopy allowed memcpy space va buf len = Mm.userCopy allowed memcpy
      { m with ram := memcpy m.ram (e.1 + m.hhdm + va % pageSize) buf (Mm.chunk va len) } space
      (va + Mm.chunk va len) (buf + Mm.chunk va len) (len - Mm.chunk va len) := by
  rw [Mm.userCopy, if_neg hlen, copyChunk_some htop he hflags]

/-- The loop returns 0 if all of the range is accessible, and changes nothing outside `W`: if the
chunks are copied to places in `W`, and `W` spares what the look-ups read. -/
lemma userCopy_spec (allowed : ℕ → Bool) (memcpy : Mem → ℕ → ℕ → ℕ → Mem) (buf : ℕ)
    (hspares : m.Spares space va len W)
    (hcopy : ∀ ram x n e, va ≤ x → x + n ≤ va + len → 0 < n → x % pageSize + n ≤ pageSize →
      m.vmmGetMapping space x = some e →
      EqOff W ram (memcpy ram (e.1 + m.hhdm + x % pageSize) (buf + (x - va)) n)) :
    ∃ ram, (m.userCopy allowed memcpy space va buf len).1 = { m with ram := ram } ∧
      EqOff W m.ram ram ∧ ((m.userCopy allowed memcpy space va buf len).2 = true ↔
        ∀ x, Within va len x → m.Accessible allowed space x) := by
  induction len using Nat.strong_induction_on generalizing m va buf with
  | _ len ih =>
  by_cases hlen : len = 0
  · rw [Mm.userCopy, if_pos hlen]
    refine ⟨m.ram, rfl, EqOff.refl _, iff_of_true rfl fun x hx => ?_⟩
    unfold Within at hx
    omega
  by_cases hacc : m.Accessible allowed space va
  · obtain ⟨htop, e, he, hflags⟩ := id hacc
    have hpos := Mm.chunk_pos va hlen
    have hle := chunk_le va len
    have hchunk : ∀ x, Within va (Mm.chunk va len) x → m.Accessible allowed space x :=
      fun x hx => (accessible_chunk hx).2 hacc
    have hfirst := hcopy m.ram va _ e le_rfl (by omega) hpos (off_add_chunk_le va len) he
    rw [Nat.sub_self, Nat.add_zero] at hfirst
    rw [userCopy_step hlen htop he hflags]
    generalize Mm.chunk va len = c at hpos hle hchunk hfirst ⊢
    generalize memcpy m.ram (e.1 + m.hhdm + va % pageSize) buf c = ram₁ at hfirst ⊢
    obtain ⟨ram, hm, hram, hiff⟩ := ih (len - c) (by omega) (buf + c)
      (hspares.rest hle hfirst fun _ hy => hy) fun ram x n e hlo hhi hn hoff he => by
        rw [hspares.mapping hfirst ⟨by omega, by omega⟩] at he
        have hrest := hcopy ram x n e (by omega) (by omega) hn hoff he
        rwa [show buf + (x - va) = buf + c + (x - (va + c)) by omega] at hrest
    refine ⟨ram, hm, hfirst.trans hram, hiff.trans ⟨fun h x hx => ?_, fun h x hx => ?_⟩⟩
    · by_cases hxc : x < va + c
      · exact hchunk x ⟨hx.1, hxc⟩
      · refine (hspares.accessible hfirst hx).1 (h x ?_)
        unfold Within at hx ⊢
        omega
    · exact (hspares.accessible hfirst (within_rest hle hx)).2 (h x (within_rest hle hx))
  · rw [Mm.userCopy, if_neg hlen, copyChunk_none hacc]
    refine ⟨m.ram, rfl, EqOff.refl _, iff_of_false (by simp) fun h => ?_⟩
    exact hacc (h va ⟨le_rfl, by omega⟩)

/-- A copy between two rows of bytes. -/
lemma copy_rows {tgt org : ℕ → ℕ} {a b n : ℕ} (ram : Mem)
    (hrow : ∀ k < n, tgt k = a + k ∧ org k = b + k) (hapart : ∀ i < n, ∀ k < n, tgt i ≠ org k) :
    EqOff (fun y => ∃ k < n, tgt k = y) ram (ram.copy a b n) ∧
      ∀ k < n, ram.copy a b n (tgt k) = ram (org k) := by
  refine ⟨(EqOff.copy ram).mono fun y hy => ?_, fun k hk => ?_⟩
  · obtain ⟨k, rfl⟩ := Nat.exists_eq_add_of_le hy.1
    have hk : k < n := Nat.lt_of_add_lt_add_left hy.2
    exact ⟨k, hk, (hrow k hk).1⟩
  · rw [(hrow k hk).1, (hrow k hk).2]
    refine copy_apply hk fun i hi hin => ?_
    obtain ⟨l, hl⟩ := Nat.exists_eq_add_of_le hin.1
    have hln : l < n := by
      unfold Within at hin
      omega
    exact hapart l hln i hi (by rw [(hrow l hln).1, (hrow i hi).2, hl])

/-- What the loop copies, with `tgt j` and `org j` the addresses that byte `j` is copied to and
from: if they are all different, every byte arrives. -/
lemma userCopy_data (memcpy : Mem → ℕ → ℕ → ℕ → Mem) (buf : ℕ) (tgt org : ℕ → ℕ)
    (hspares : m.Spares space va len fun y => ∃ j < len, tgt j = y)
    (hok : ∀ x, Within va len x → m.Accessible allowed space x)
    (hcopy : ∀ ram i n e, 0 < n → i + n ≤ len → (va + i) % pageSize + n ≤ pageSize →
      m.vmmGetMapping space (va + i) = some e → ∃ a b,
        memcpy ram (e.1 + m.hhdm + (va + i) % pageSize) (buf + i) n = ram.copy a b n ∧
        ∀ k < n, tgt (i + k) = a + k ∧ org (i + k) = b + k)
    (hinj : ∀ i < len, ∀ k < len, tgt i = tgt k → i = k)
    (hapart : ∀ i < len, ∀ k < len, tgt i ≠ org k) :
    ∀ j < len, (m.userCopy allowed memcpy space va buf len).1.ram (tgt j) = m.ram (org j) := by
  induction len using Nat.strong_induction_on generalizing m va buf tgt org with
  | _ len ih =>
  intro j hj
  have hlen : len ≠ 0 := by omega
  have hpos := Mm.chunk_pos va hlen
  have hle := chunk_le va len
  obtain ⟨htop, e, he, hflags⟩ := hok va ⟨le_rfl, by omega⟩
  obtain ⟨a, b, hcall, hrow⟩ := hcopy m.ram 0 (Mm.chunk va len) e hpos (by omega)
    (off_add_chunk_le va len) he
  rw [Nat.add_zero, Nat.add_zero] at hcall
  simp only [Nat.zero_add] at hrow
  rw [userCopy_step hlen htop he hflags, hcall]
  generalize Mm.chunk va len = c at hpos hle hrow ⊢
  obtain ⟨hfirst, hdata⟩ := copy_rows m.ram hrow fun i hi k hk =>
    hapart i (by omega) k (by omega)
  generalize m.ram.copy a b c = ram₁ at hfirst hdata ⊢
  have hfirst' : EqOff (fun y => ∃ j < len, tgt j = y) m.ram ram₁ := by
    refine hfirst.mono ?_
    rintro y ⟨k, hk, rfl⟩
    exact ⟨k, by omega, rfl⟩
  have hspares₁ : Mm.Spares { m with ram := ram₁ } space (va + c) (len - c)
      fun y => ∃ j < len - c, tgt (c + j) = y := by
    refine hspares.rest hle hfirst' ?_
    rintro y ⟨k, hk, rfl⟩
    exact ⟨_, by omega, rfl⟩
  have hcopy₁ : ∀ ram i n e, 0 < n → i + n ≤ len - c → (va + c + i) % pageSize + n ≤ pageSize →
      Mm.vmmGetMapping { m with ram := ram₁ } space (va + c + i) = some e →
      ∃ a b, memcpy ram (e.1 + m.hhdm + (va + c + i) % pageSize) (buf + c + i) n =
        ram.copy a b n ∧ ∀ k < n, tgt (c + (i + k)) = a + k ∧ org (c + (i + k)) = b + k := by
    intro ram i n e hn hi hoff he
    rw [hspares.mapping hfirst' ⟨by omega, by omega⟩] at he
    rw [Nat.add_assoc va] at he hoff ⊢
    have hc := hcopy ram (c + i) n e hn (by omega) hoff he
    simpa only [Nat.add_assoc] using hc
  by_cases hjc : j < c
  · -- the rest does not write to it
    obtain ⟨ram₂, hm, hram, -⟩ := userCopy_spec allowed memcpy (buf + c) hspares₁
      fun ram x n e hlo hhi hn hoff he => by
        obtain ⟨i, rfl⟩ := Nat.exists_eq_add_of_le hlo
        obtain ⟨a, b, hcall', hrow'⟩ := hcopy₁ ram i n e hn (by omega) hoff he
        rw [Nat.add_sub_cancel_left, hcall']
        refine (EqOff.copy ram).mono fun y hy => ?_
        obtain ⟨k, rfl⟩ := Nat.exists_eq_add_of_le hy.1
        have hk : k < n := Nat.lt_of_add_lt_add_left hy.2
        exact ⟨i + k, by omega, (hrow' k hk).1⟩
    rw [hm]
    refine (hram _ ?_).trans (hdata j hjc)
    rintro ⟨k, hk, hkj⟩
    have hkj' := hinj _ (by omega) _ hj hkj
    omega
  · have hrest := ih (len - c) (by omega) _ _ _ hspares₁ (fun x hx => ?_) hcopy₁
      (fun i hi k hk hik => ?_) (fun i hi k hk => hapart _ (by omega) _ (by omega)) (j - c)
      (by omega)
    · rw [Nat.add_sub_cancel' (Nat.le_of_not_lt hjc)] at hrest
      refine hrest.trans (hfirst _ ?_)
      rintro ⟨k, hk, hkj⟩
      exact hapart k (by omega) j hj hkj
    · exact (hspares.accessible hfirst' (within_rest hle hx)).2 (hok x (within_rest hle hx))
    · have hik' := hinj _ (by omega) _ (by omega) hik
      omega

end Loop

/-! ## Both directions -/

/-- The kernel's addresses of the bytes of a range. -/
def Mm.UserRange (m : Mm) (space va len y : ℕ) : Prop :=
  ∃ x, Within va len x ∧ m.userAddr space x = some y

section Directions

variable {m : Mm} {W : ℕ → Prop} {ram : Mem} {space va src dst len x y n j : ℕ} {e : ℕ × ℕ}

lemma userAddr_eq (he : m.vmmGetMapping space x = some e) :
    m.userAddr space x = some (e.1 + m.hhdm + x % pageSize) := by
  rw [Mm.userAddr, he, map_some]

/-- The bytes of a page are in a row. -/
lemma userAddr_add (he : m.vmmGetMapping space x = some e) (hoff : x % pageSize + n ≤ pageSize)
    (hj : j < n) : m.userAddr space (x + j) = some (e.1 + m.hhdm + x % pageSize + j) := by
  have hmod : (x + j) % pageSize = x % pageSize + j := by
    unfold pageSize at *
    omega
  have hpage : x + j - (x + j) % pageSize = x - x % pageSize := by omega
  have he' : m.vmmGetMapping space (x + j) = some e := by
    rw [← vmmGetMapping_page, hpage, vmmGetMapping_page, he]
  rw [userAddr_eq he', hmod, Nat.add_assoc (e.1 + m.hhdm)]

/-- What looking up the range yields is left as well. -/
lemma Mm.Spares.userAddr (h : m.Spares space va len W) (hram : EqOff W m.ram ram)
    (hx : Within va len x) :
    Mm.userAddr { m with ram := ram } space x = m.userAddr space x := by
  rw [Mm.userAddr, Mm.userAddr, h.mapping hram hx]

lemma copyToUser_spec (src : ℕ) (h : m.Spares space va len (m.UserRange space va len)) :
    ∃ ram, (m.copyToUser space va src len).1 = { m with ram := ram } ∧
      EqOff (m.UserRange space va len) m.ram ram ∧
      ((m.copyToUser space va src len).2 = true ↔
        ∀ x, Within va len x → m.Accessible Mm.writableFlags space x) := by
  refine userCopy_spec _ _ _ h fun ram x n e hlo hhi hn hoff he => ?_
  refine (EqOff.copy ram).mono fun y hy => ?_
  obtain ⟨j, rfl⟩ := Nat.exists_eq_add_of_le hy.1
  have hj : j < n := Nat.lt_of_add_lt_add_left hy.2
  exact ⟨x + j, ⟨by omega, by omega⟩, userAddr_add he hoff hj⟩

lemma copyFromUser_spec (h : m.Spares space va len (Within dst len)) :
    ∃ ram, (m.copyFromUser space dst va len).1 = { m with ram := ram } ∧
      EqOff (Within dst len) m.ram ram ∧
      ((m.copyFromUser space dst va len).2 = true ↔
        ∀ x, Within va len x → m.Accessible Mm.readableFlags space x) := by
  refine userCopy_spec _ _ _ h fun ram x n e hlo hhi hn hoff he => ?_
  refine (EqOff.copy ram).mono fun y hy => ?_
  unfold Within at hy ⊢
  omega

lemma userAddr_getD {allowed : ℕ → Bool}
    (hok : ∀ x, Within va len x → m.Accessible allowed space x) (hj : j < len) :
    m.userAddr space (va + j) = some ((m.userAddr space (va + j)).getD 0) := by
  obtain ⟨-, e, he, -⟩ := hok (va + j) ⟨by omega, by omega⟩
  rw [userAddr_eq he]
  rfl

/-- What `copy_to_user` writes: if no two bytes of the range are the same byte of memory, and none
is in the buffer, the range becomes the buffer. -/
lemma copyToUser_data (h : m.Spares space va len (m.UserRange space va len))
    (hok : ∀ x, Within va len x → m.Accessible Mm.writableFlags space x)
    (hinj : ∀ x x', Within va len x → Within va len x' →
      m.userAddr space x = m.userAddr space x' → x = x')
    (hsrc : ∀ y, m.UserRange space va len y → ¬Within src len y) (hj : j < len)
    (hy : m.userAddr space (va + j) = some y) :
    (m.copyToUser space va src len).1.ram y = m.ram (src + j) := by
  have haddr : ∀ {i}, i < len →
      m.userAddr space (va + i) = some ((m.userAddr space (va + i)).getD 0) :=
    fun hi => userAddr_getD hok hi
  have hrange : ∀ {i}, i < len →
      m.UserRange space va len ((m.userAddr space (va + i)).getD 0) :=
    fun hi => ⟨_, ⟨by omega, by omega⟩, haddr hi⟩
  have hdata := userCopy_data (fun ram user kernel n => ram.copy user kernel n) src
    (fun j => (m.userAddr space (va + j)).getD 0) (fun j => src + j)
    (fun x hx w hw y hy => ?_) hok
    (fun ram i n e hn hi hoff he => ⟨_, _, rfl, fun k hk => ⟨?_, (Nat.add_assoc _ _ _).symm⟩⟩)
    (fun i hi k hk hik => ?_) (fun i hi k hk hik => ?_) j hj
  · rwa [hy, getD_some] at hdata
  · rintro ⟨i, hi, rfl⟩
    exact h x hx w hw _ hy (hrange hi)
  · rw [← Nat.add_assoc, userAddr_add he hoff hk, getD_some]
  · have hx := hinj (va + i) (va + k) ⟨by omega, by omega⟩ ⟨by omega, by omega⟩
      (by rw [haddr hi, haddr hk, hik])
    omega
  · refine hsrc _ (hrange hi) ?_
    rw [hik]
    exact ⟨by omega, by omega⟩

/-- What `copy_from_user` reads: if no byte of the range is in the buffer, the buffer becomes the
range. -/
lemma copyFromUser_data (h : m.Spares space va len (Within dst len))
    (hok : ∀ x, Within va len x → m.Accessible Mm.readableFlags space x)
    (hdst : ∀ y, m.UserRange space va len y → ¬Within dst len y) (hj : j < len)
    (hy : m.userAddr space (va + j) = some y) :
    (m.copyFromUser space dst va len).1.ram (dst + j) = m.ram y := by
  have hdata := userCopy_data (fun ram user kernel n => ram.copy kernel user n) dst
    (fun j => dst + j) (fun j => (m.userAddr space (va + j)).getD 0)
    (fun x hx w hw y hy => ?_) hok
    (fun ram i n e hn hi hoff he => ⟨_, _, rfl, fun k hk => ⟨(Nat.add_assoc _ _ _).symm, ?_⟩⟩)
    (fun i hi k hk hik => by omega) (fun i hi k hk hik => ?_) j hj
  · rwa [hy, getD_some] at hdata
  · rintro ⟨i, hi, rfl⟩
    exact h x hx w hw _ hy ⟨by omega, by omega⟩
  · rw [← Nat.add_assoc, userAddr_add he hoff hk, getD_some]
  · refine hdst _ ⟨va + k, ⟨by omega, by omega⟩, userAddr_getD hok hk⟩ ?_
    rw [← hik]
    exact ⟨by omega, by omega⟩

end Directions

end CobjOs
