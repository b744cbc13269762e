import CobjOs.Framework.BlockList
import CobjOs.User.Malloc

/-!
# The allocator's list in memory

`Seg mem p bs q` says that the links from `p` lead through the headers of the blocks `bs` to `q`.
The list of the allocator is `Seg h.mem h.head bs 0`, and `Heap.Ok h bs` is its invariant: the
blocks are laid one behind the other below `heap_ptr`, and their bytes are those that `sbrk` has
handed out.  Each function is what the block list library says on the list, and changes nothing
but headers and payloads that are not in use.
-/

namespace CobjOs

namespace User

open Block Mem

variable {mem mem' : Mem} {blk size next : ℕ} {free : Bool}

/-! ## Headers -/

section Header

lemma sizeAt_congr (h : ∀ x, Within blk headerSize x → mem' x = mem x) :
    sizeAt mem' blk = sizeAt mem blk :=
  readNat_congr fun x h₁ h₂ => h x ⟨h₁, by unfold headerSize; omega⟩

lemma freeAt_congr (h : ∀ x, Within blk headerSize x → mem' x = mem x) :
    freeAt mem' blk = freeAt mem blk := by
  rw [freeAt, freeAt, h (blk + 8) ⟨by omega, by unfold headerSize; omega⟩]

lemma nextAt_congr (h : ∀ x, Within blk headerSize x → mem' x = mem x) :
    nextAt mem' blk = nextAt mem blk :=
  readNat_congr fun x h₁ h₂ => h x ⟨by omega, by unfold headerSize; omega⟩

lemma eqOff_setSize : EqOff (Within blk 8) mem (setSize mem blk size) :=
  .writeNat mem fun _ hx => hx

lemma eqOff_setFree : EqOff (Within (blk + 8) 1) mem (setFree mem blk free) :=
  .write mem fun _ hx => hx

lemma eqOff_setNext : EqOff (Within (blk + 16) 8) mem (setNext mem blk next) :=
  .writeNat mem fun _ hx => hx

lemma sizeAt_setSize (h : size < 2 ^ 64) : sizeAt (setSize mem blk size) blk = size := by
  rw [sizeAt, setSize, u64, Nat.mod_eq_of_lt h]
  exact readNat_writeNat mem blk h

lemma nextAt_setNext (h : next < 2 ^ 64) : nextAt (setNext mem blk next) blk = next := by
  rw [nextAt, setNext, u64, Nat.mod_eq_of_lt h]
  exact readNat_writeNat mem _ h

@[simp] lemma freeAt_setFree : freeAt (setFree mem blk free) blk = free := by
  cases free <;> simp [freeAt, setFree, Mem.write]

@[simp] lemma sizeAt_setFree : sizeAt (setFree mem blk free) blk = sizeAt mem blk :=
  eqOff_setFree.readNat fun x hx hx' => by unfold Within at hx hx'; omega

@[simp] lemma sizeAt_setNext : sizeAt (setNext mem blk next) blk = sizeAt mem blk :=
  eqOff_setNext.readNat fun x hx hx' => by unfold Within at hx hx'; omega

@[simp] lemma nextAt_setFree : nextAt (setFree mem blk free) blk = nextAt mem blk :=
  eqOff_setFree.readNat fun x hx hx' => by unfold Within at hx hx'; omega

@[simp] lemma freeAt_setSize : freeAt (setSize mem blk size) blk = freeAt mem blk := by
  rw [freeAt, freeAt, eqOff_setSize]
  unfold Within
  omega

@[simp] lemma freeAt_setNext : freeAt (setNext mem blk next) blk = freeAt mem blk := by
  rw [freeAt, freeAt, eqOff_setNext]
  unfold Within
  omega

lemma eqOff_header {a n : ℕ} (h : EqOff (Within a n) mem mem') (hlo : blk ≤ a)
    (hhi : a + n ≤ blk + headerSize) : EqOff (Within blk headerSize) mem mem' := by
  refine h.mono fun x hx => ?_
  unfold Within at hx ⊢
  omega

lemma setSize_header : EqOff (Within blk headerSize) mem (setSize mem blk size) :=
  eqOff_header eqOff_setSize le_rfl (by unfold headerSize; omega)

lemma setFree_header : EqOff (Within blk headerSize) mem (setFree mem blk free) :=
  eqOff_header eqOff_setFree (by omega) (by unfold headerSize; omega)

lemma setNext_header : EqOff (Within blk headerSize) mem (setNext mem blk next) :=
  eqOff_header eqOff_setNext (by omega) (by unfold headerSize; omega)

lemma eqOff_setHeader : EqOff (Within blk headerSize) mem (setHeader mem blk size free next) :=
  (setSize_header.trans setFree_header).trans setNext_header

lemma nextAt_lt : nextAt mem blk < 2 ^ 64 := readNat_lt mem 8 _

lemma sizeAt_setHeader (h : size < 2 ^ 64) :
    sizeAt (setHeader mem blk size free next) blk = size := by
  rw [setHeader, sizeAt_setNext, sizeAt_setFree, sizeAt_setSize h]

lemma freeAt_setHeader : freeAt (setHeader mem blk size free next) blk = free := by
  rw [setHeader, freeAt_setNext, freeAt_setFree]

lemma nextAt_setHeader (h : next < 2 ^ 64) :
    nextAt (setHeader mem blk size free next) blk = next := nextAt_setNext h

/-- Whatever memory holds, a split leaves a block of at least the size asked for. -/
lemma le_sizeAt_split (hn : size ≤ sizeAt mem blk) : size ≤ sizeAt (split mem blk size) blk := by
  have hlt : sizeAt mem blk < 2 ^ 64 := readNat_lt mem 8 _
  unfold split
  split_ifs
  · exact hn
  · rw [sizeAt_setNext, sizeAt_setSize (hn.trans_lt hlt)]

lemma eqOff_coalesceLoop : ∀ {fuel : ℕ} {mem mem' : Mem},
    coalesceLoop fuel mem blk = some mem' → EqOff (Within blk headerSize) mem mem'
  | 0, _, _, h => by cases h
  | fuel + 1, mem, mem', h => by
    rw [coalesceLoop] at h
    split_ifs at h
    · exact (setSize_header.trans setNext_header).trans (eqOff_coalesceLoop h)
    · rw [Option.some.injEq] at h
      exact h ▸ .refl mem

end Header

/-! ## Lists -/

/-- The header of a block is in memory. -/
structure HeaderAt (mem : Mem) (b : Block) : Prop where
  addr_ne : b.addr ≠ 0
  size : sizeAt mem b.addr = b.size
  free : freeAt mem b.addr = b.free

/-- The links from `p` lead through the blocks to `q`. -/
def Seg (mem : Mem) : ℕ → List Block → ℕ → Prop
  | p, [], q => p = q
  | p, b :: bs, q => p = b.addr ∧ HeaderAt mem b ∧ Seg mem (nextAt mem b.addr) bs q

namespace Seg

variable {p q : ℕ} {b : Block} {bs cs : List Block}

lemma append : Seg mem p (bs ++ cs) q ↔ ∃ r, Seg mem p bs r ∧ Seg mem r cs q := by
  induction bs generalizing p with
  | nil => simp [Seg]
  | cons b bs ih => simp only [List.cons_append, Seg, ih, ← exists_and_left, and_assoc]

lemma congr (h : Seg mem p bs q)
    (heq : ∀ b ∈ bs, ∀ x, Within b.addr headerSize x → mem' x = mem x) : Seg mem' p bs q := by
  induction bs generalizing p with
  | nil => exact h
  | cons b bs ih =>
    obtain ⟨hp, hb, hrest⟩ := h
    have hsame := heq b (by simp)
    refine ⟨hp, ⟨hb.addr_ne, ?_, ?_⟩, ?_⟩
    · rw [sizeAt_congr hsame, hb.size]
    · rw [freeAt_congr hsame, hb.free]
    · rw [nextAt_congr hsame]
      exact ih hrest fun c hc => heq c (by simp [hc])

lemma header (h : Seg mem p bs q) (hb : b ∈ bs) : HeaderAt mem b := by
  induction bs generalizing p with
  | nil => cases hb
  | cons c bs ih =>
    rcases List.mem_cons.1 hb with rfl | hb
    · exact h.2.1
    · exact ih h.2.2 hb

end Seg

/-- A change of memory between `s` and `e`, where the list now has `mid`, leaves the parts of the
list before `s` and from `e` on. -/
lemma Seg.replace {p q r lo hi s e : ℕ} {pre mid post : List Block}
    (hpre : Seg mem p pre q) (hpost : Seg mem r post 0) (hmid : Seg mem' q mid r)
    (hlpre : Laid headerSize lo pre s) (hlpost : Laid headerSize e post hi)
    (hoff : EqOff (fun x => s ≤ x ∧ x < e) mem mem') : Seg mem' p (pre ++ (mid ++ post)) 0 := by
  refine Seg.append.2 ⟨q, hpre.congr fun b hb x hx => hoff x fun h => ?_,
    Seg.append.2 ⟨r, hmid, hpost.congr fun b hb x hx => hoff x fun h => ?_⟩⟩
  · have hb := (hlpre.bounds hb).2
    unfold fin at hb
    unfold Within at hx
    omega
  · have hb := (hlpost.bounds hb).1
    unfold Within at hx
    omega

/-- The list of the allocator, laid out below an address that 64 bits hold. -/
structure ListAt (mem : Mem) (p : ℕ) (bs : List Block) (hi : ℕ) : Prop where
  seg : Seg mem p bs 0
  laid : Laid headerSize 0 bs hi
  hi_lt : hi < 2 ^ 64

namespace ListAt

variable {p hi : ℕ} {b : Block} {bs pre post : List Block}

/-- The list split at a block: what is before it, its header, and what is behind it. -/
lemma split_at (h : ListAt mem p (pre ++ b :: post) hi) :
    Seg mem p pre b.addr ∧ HeaderAt mem b ∧ Seg mem (nextAt mem b.addr) post 0 ∧
      Laid headerSize 0 pre b.addr ∧ Laid headerSize (b.fin headerSize) post hi ∧
      b.fin headerSize < 2 ^ 64 := by
  obtain ⟨r, hpre, hr, hb, hpost⟩ := Seg.append.1 h.seg
  obtain ⟨m, hlpre, hm, hlpost⟩ := Laid.append.1 h.laid
  exact ⟨hr ▸ hpre, hb, hpost, hlpre.mono_right hm, hlpost, hlpost.le.trans_lt h.hi_lt⟩

/-- The blocks in the place of one block and those behind it, and the change in memory for it. -/
lemma replace (h : ListAt mem p (pre ++ b :: post) hi) {mid post' : List Block} {r e : ℕ}
    (hmid : Seg mem' b.addr mid r) (hpost : Seg mem r post' 0)
    (hlmid : Laid headerSize b.addr mid e) (hlpost : Laid headerSize e post' hi)
    (hoff : EqOff (fun x => b.addr ≤ x ∧ x < e) mem mem') :
    ListAt mem' p (pre ++ (mid ++ post')) hi := by
  obtain ⟨hpre, -, -, hlpre, -⟩ := h.split_at
  refine ⟨hpre.replace hpost hmid hlpre hlpost hoff, ?_, h.hi_lt⟩
  exact Laid.append.2 ⟨_, hlpre, Laid.append.2 ⟨e, hlmid, hlpost⟩⟩

lemma length_lt (h : ListAt mem p bs hi) : bs.length < listFuel := by
  have hlen := h.laid.length_le
  have hhi := h.hi_lt
  unfold headerSize at hlen
  unfold listFuel
  omega

/-! ## The functions on the list -/

lemma setFree (h : ListAt mem p (pre ++ b :: post) hi) (free : Bool) :
    ListAt (setFree mem b.addr free) p (pre ++ { b with free := free } :: post) hi := by
  obtain ⟨-, hb, hpost, -, hlpost, -⟩ := h.split_at
  have hmid : Seg (User.setFree mem b.addr free) b.addr [{ b with free := free }]
      (nextAt mem b.addr) := by
    refine ⟨rfl, ⟨hb.addr_ne, ?_, freeAt_setFree⟩, nextAt_setFree⟩
    rw [sizeAt_setFree]
    exact hb.size
  refine h.replace hmid hpost ⟨le_rfl, le_rfl⟩ hlpost (eqOff_setFree.mono fun x hx => ?_)
  unfold Within at hx
  unfold fin headerSize
  dsimp only
  omega

lemma coalesceLoop {fuel : ℕ} (h : ListAt mem p (pre ++ b :: post) hi)
    (hfuel : post.length < fuel) :
    ∃ mem', coalesceLoop fuel mem b.addr = some mem' ∧
      ListAt mem' p (pre ++ absorb headerSize b post) hi ∧
      EqOff (Within b.addr headerSize) mem mem' := by
  induction post generalizing b mem fuel with
  | nil =>
    obtain ⟨fuel, rfl⟩ : ∃ f, fuel = f + 1 := ⟨fuel - 1, by simp at hfuel; omega⟩
    obtain ⟨-, -, hpost, -⟩ := h.split_at
    have hnext : nextAt mem b.addr = 0 := hpost
    exact ⟨mem, by simp [User.coalesceLoop, hnext], h, .refl mem⟩
  | cons c cs ih =>
    obtain ⟨fuel, rfl⟩ : ∃ f, fuel = f + 1 := ⟨fuel - 1, by simp at hfuel; omega⟩
    obtain ⟨-, hb, ⟨hnext, hc, hcs⟩, -, ⟨hbc, hlcs⟩, -⟩ := h.split_at
    have hgrown : b.size + headerSize + c.size < 2 ^ 64 := by
      have := hlcs.le.trans_lt h.hi_lt
      unfold fin at this hbc
      omega
    rw [absorb]
    by_cases hfree : c.free = true
    · rw [if_pos hfree]
      -- the size and the link of `b` change; `c` is no longer on the list
      have hoff : EqOff (Within b.addr headerSize) mem
          (setNext (setSize mem b.addr (b.size + headerSize + c.size)) b.addr
            (nextAt mem c.addr)) :=
        setSize_header.trans setNext_header
      have hmid : Seg (setNext (setSize mem b.addr (b.size + headerSize + c.size)) b.addr
          (nextAt mem c.addr)) b.addr [{ b with size := b.size + (headerSize + c.size) }]
          (nextAt mem c.addr) := by
        refine ⟨rfl, ⟨hb.addr_ne, ?_, ?_⟩, nextAt_setNext nextAt_lt⟩
        · rw [sizeAt_setNext, sizeAt_setSize hgrown, Nat.add_assoc]
        · rw [freeAt_setNext, freeAt_setSize]
          exact hb.free
      have hnew := h.replace hmid hcs (e := c.fin headerSize) ⟨le_rfl, ?_⟩ hlcs
        (hoff.mono fun x hx => ?_)
      · obtain ⟨mem', hloop, hlist, hoff'⟩ := ih hnew (by simp at hfuel; omega)
        refine ⟨mem', ?_, hlist, hoff.trans hoff'⟩
        rw [User.coalesceLoop, hnext]
        have hsame : nextAt (setSize mem b.addr (b.size + headerSize + c.size)) c.addr =
            nextAt mem c.addr := by
          refine nextAt_congr fun x hx => eqOff_setSize x fun hx' => ?_
          unfold Within at hx hx'
          unfold fin headerSize at hbc
          omega
        simp only [hc.addr_ne, hc.free, hfree, ne_eq, not_false_eq_true, and_self, if_true,
          hb.size, hc.size, hsame]
        exact hloop
      · unfold fin at hbc ⊢
        dsimp only [Laid, fin]
        omega
      · unfold Within at hx
        unfold fin at hbc ⊢
        omega
    · rw [if_neg hfree]
      refine ⟨mem, ?_, h, .refl mem⟩
      rw [User.coalesceLoop, hnext]
      simp [hc.free, hfree]

lemma coalesce (h : ListAt mem p (pre ++ b :: post) hi) :
    ∃ mem', User.coalesce mem b.addr = some mem' ∧
      ListAt mem' p (pre ++ grown headerSize b post :: post.dropWhile Block.free) hi ∧
      EqOff (Within b.addr headerSize) mem mem' := by
  have hfuel : post.length < listFuel := by
    have hlen := h.length_lt
    simp at hlen
    omega
  obtain ⟨mem', hloop, hlist, hoff⟩ := h.coalesceLoop hfuel
  exact ⟨mem', hloop, absorb_eq headerSize b post ▸ hlist, hoff⟩

lemma split {n : ℕ} (h : ListAt mem p (pre ++ b :: post) hi) (hn : n ≤ b.size)
    (hwrap : n + minSplit < 2 ^ 64) :
    ∃ rest, ListAt (User.split mem b.addr n) p (pre ++ shrunk minSplit n b :: rest) hi ∧
      used rest = used post ∧
      total headerSize (shrunk minSplit n b :: rest) = total headerSize (b :: post) ∧
      EqOff (fun x => Within b.addr headerSize x ∨
        Within (b.addr + headerSize + n) (b.size - n) x) mem (User.split mem b.addr n) := by
  obtain ⟨-, hb, hpost, -, hlpost, hfin⟩ := h.split_at
  rw [User.split, hb.size, u64, Nat.mod_eq_of_lt hwrap]
  by_cases hsmall : b.size < n + minSplit
  · rw [if_pos hsmall, shrunk, if_pos hsmall]
    exact ⟨post, h, rfl, rfl, .refl mem⟩
  rw [if_neg hsmall, shrunk, if_neg hsmall]
  unfold minSplit at hsmall
  unfold fin at hfin
  have hnew : u64 (b.addr + headerSize + n) = b.addr + headerSize + n :=
    Nat.mod_eq_of_lt (by omega)
  rw [hnew]
  set c : Block := ⟨b.addr + headerSize + n, b.size - n - headerSize, true⟩ with hc
  set mem₁ := setHeader mem c.addr c.size true (nextAt mem b.addr) with hmem₁
  set mem₂ := setNext (setSize mem₁ b.addr n) b.addr c.addr with hmem₂
  have hoff₁ : EqOff (Within c.addr headerSize) mem mem₁ := eqOff_setHeader
  have hoff₂ : EqOff (Within b.addr headerSize) mem₁ mem₂ :=
    setSize_header.trans setNext_header
  have hoff : EqOff (fun x => Within b.addr headerSize x ∨
      Within (b.addr + headerSize + n) (b.size - n) x) mem mem₂ := by
    refine (hoff₁.mono fun x hx => ?_).trans (hoff₂.mono fun x hx => Or.inl hx)
    unfold Within at hx ⊢
    simp only [hc] at hx
    omega
  -- the new header was written before the old one, and apart from it
  have hsame : ∀ x, Within c.addr headerSize x → mem₂ x = mem₁ x := fun x hx => hoff₂ x <| by
    unfold Within at hx ⊢
    simp only [hc] at hx
    omega
  have hfirst : ∀ x, Within b.addr headerSize x → mem₁ x = mem x := fun x hx => hoff₁ x <| by
    unfold Within at hx ⊢
    simp only [hc]
    omega
  have hmid : Seg mem₂ b.addr [{ b with size := n }, c] (nextAt mem b.addr) := by
    refine ⟨rfl, ⟨hb.addr_ne, ?_, ?_⟩, ?_, ⟨?_, ?_, ?_⟩, ?_⟩
    · rw [hmem₂, sizeAt_setNext, sizeAt_setSize (by omega)]
    · rw [hmem₂, freeAt_setNext, freeAt_setSize, freeAt_congr hfirst]
      exact hb.free
    · exact nextAt_setNext (by simp only [hc]; omega)
    · simp only [hc]
      have := hb.addr_ne
      omega
    · exact (sizeAt_congr hsame).trans (sizeAt_setHeader (by simp only [hc]; omega))
    · exact (freeAt_congr hsame).trans freeAt_setHeader
    · exact (nextAt_congr hsame).trans (nextAt_setHeader nextAt_lt)
  have hlmid : Laid headerSize b.addr [{ b with size := n }, c] (b.fin headerSize) := by
    refine ⟨le_rfl, le_rfl, ?_⟩
    simp only [Laid, fin, hc]
    omega
  refine ⟨c :: post, ?_, used_cons_of_free rfl, ?_, hoff⟩
  · refine h.replace hmid hpost hlmid hlpost (hoff.mono fun x hx => ?_)
    unfold Within at hx
    unfold fin
    omega
  · simp only [total_cons, hc]
    omega

lemma write_payload (h : ListAt mem p bs hi) (hb : b ∈ bs)
    (hoff : EqOff (Within (b.addr + headerSize) b.size) mem mem') : ListAt mem' p bs hi := by
  refine ⟨h.seg.congr fun c hc x hx => hoff x fun hx' => ?_, h.laid, h.hi_lt⟩
  have hapart := h.laid.apart hc hb
  unfold fin at hapart
  unfold Within at hx hx'
  rcases hapart with rfl | hapart | hapart <;> omega

end ListAt

/-- The payloads of the blocks have not changed. -/
def Kept (mem mem' : Mem) (bs : List Block) : Prop :=
  ∀ b ∈ bs, ∀ x, Within (b.addr + headerSize) b.size x → mem' x = mem x

namespace Kept

variable {mem'' : Mem} {p hi : ℕ} {b : Block} {bs cs : List Block}

lemma refl : Kept mem mem bs := fun _ _ _ _ => rfl

lemma trans (h : Kept mem mem' bs) (h' : Kept mem' mem'' bs) : Kept mem mem'' bs :=
  fun b hb x hx => (h' b hb x hx).trans (h b hb x hx)

lemma mono (h : Kept mem mem' bs) (hcs : ∀ c ∈ cs, c ∈ bs) : Kept mem mem' cs :=
  fun c hc => h c (hcs c hc)

/-- A header is no payload. -/
lemma of_header (hlist : ListAt mem p bs hi) (hb : b ∈ bs)
    (hoff : EqOff (Within b.addr headerSize) mem mem') : Kept mem mem' bs := by
  intro c hc x hx
  refine hoff x fun hx' => ?_
  have hapart := hlist.laid.apart hc hb
  unfold fin at hapart
  unfold Within at hx hx'
  rcases hapart with rfl | hapart | hapart <;> omega

end Kept

namespace ListAt

variable {p hi n cur : ℕ} {b : Block} {bs pre post : List Block}

/-- A free block that is large enough is taken: it grows by the free blocks behind it and is
split. -/
lemma take (h : ListAt mem p (pre ++ b :: post) hi) (hfree : b.free = true) (hn : n ≤ b.size)
    (hwrap : n + minSplit < 2 ^ 64) :
    ∃ mem₁ bs' b', User.coalesce mem b.addr = some mem₁ ∧ n ≤ sizeAt mem₁ b.addr ∧
      ListAt (User.setFree (User.split mem₁ b.addr n) b.addr false) p bs' hi ∧
      b'.addr = b.addr ∧ n ≤ b'.size ∧ (used bs').Perm (b' :: used (pre ++ b :: post)) ∧
      total headerSize bs' = total headerSize (pre ++ b :: post) ∧
      Kept mem (User.setFree (User.split mem₁ b.addr n) b.addr false)
        (used (pre ++ b :: post)) := by
  obtain ⟨mem₁, hmem₁, hlist₁, hoff₁⟩ := h.coalesce
  have hn₁ : n ≤ (grown headerSize b post).size := le_trans hn (Nat.le_add_right _ _)
  obtain ⟨rest, hlist₂, hrest, htotal, hoff₂⟩ := hlist₁.split hn₁ hwrap
  have hlist₃ := hlist₂.setFree false
  simp only [addr_grown, addr_shrunk] at hlist₂ hlist₃ hoff₂
  set c := shrunk minSplit n (grown headerSize b post) with hc
  have hused : used (pre ++ b :: post) = used pre ++ used post := by
    rw [used_append, used_cons_of_free hfree]
  refine ⟨mem₁, _, ⟨b.addr, c.size, false⟩, hmem₁, ?_, hlist₃, rfl, le_size_shrunk hn₁, ?_, ?_, ?_⟩
  · have hsize := (hlist₁.seg.header (b := grown headerSize b post) (by simp)).size
    rw [addr_grown] at hsize
    rw [hsize]
    exact hn₁
  · rw [hused, used_append, used_cons_of_used rfl, hrest, used_dropWhile]
    exact List.perm_middle
  · rw [total_append, total_append, ← total_grown headerSize b post, ← htotal, total_cons,
      total_cons]
  · have hkept₁ : Kept mem mem₁ (used (pre ++ b :: post)) :=
      (Kept.of_header h (by simp) hoff₁).mono fun d hd => (mem_used.1 hd).1
    have hkept₃ : Kept (User.split mem₁ b.addr n)
        (User.setFree (User.split mem₁ b.addr n) b.addr false) (used (pre ++ b :: post)) := by
      refine (Kept.of_header hlist₂ (b := c) (by simp) ?_).mono fun d hd => ?_
      · rw [hc, addr_shrunk, addr_grown]
        exact setFree_header
      · rw [hused, ← used_dropWhile post, ← hrest, List.mem_append] at hd
        rcases hd with hd | hd
        · exact List.mem_append_left _ (mem_used.1 hd).1
        · exact List.mem_append_right _ (List.mem_cons_of_mem _ (mem_used.1 hd).1)
    -- the split writes inside the free block only
    refine (hkept₁.trans fun d hd x hx => hoff₂ x fun hx' => ?_).trans hkept₃
    rw [hused, ← used_dropWhile post, List.mem_append] at hd
    have hapart : d.fin headerSize ≤ b.addr ∨
        (grown headerSize b post).fin headerSize ≤ d.addr := by
      obtain ⟨-, -, -, hlpre, hlpost, -⟩ := hlist₁.split_at
      rcases hd with hd | hd
      · exact Or.inl (hlpre.bounds (mem_used.1 hd).1).2
      · exact Or.inr (hlpost.bounds (mem_used.1 hd).1).1
    unfold fin at hapart
    unfold Within at hx hx'
    rw [addr_grown] at hapart
    rcases hapart with hapart | hapart <;> rcases hx' with hx' | hx' <;> omega

/-- The loop of `malloc` stops at the first free block that is large enough, and coalesces, splits
and takes it; if there is none it changes nothing. -/
lemma search {fuel : ℕ} (hpre : Seg mem p pre cur) (hpost : Seg mem cur post 0)
    (hlaid : Laid headerSize 0 (pre ++ post) hi) (hhi : hi < 2 ^ 64) (hfuel : post.length < fuel) :
    (User.findBlock fuel mem n cur = some (mem, 0) ∧ ∀ b ∈ post, b.free = true → b.size < n) ∨
      ∃ mid b post' mem₁, post = mid ++ b :: post' ∧ b.free = true ∧ n ≤ b.size ∧
        User.coalesce mem b.addr = some mem₁ ∧ n ≤ sizeAt mem₁ b.addr ∧
        User.findBlock fuel mem n cur =
          some (User.setFree (User.split mem₁ b.addr n) b.addr false, b.addr + headerSize) := by
  induction post generalizing pre cur fuel with
  | nil =>
    obtain ⟨fuel, rfl⟩ : ∃ f, fuel = f + 1 := ⟨fuel - 1, by simp at hfuel; omega⟩
    have hcur : cur = 0 := hpost
    exact Or.inl ⟨by rw [User.findBlock, if_pos hcur], by simp⟩
  | cons b post ih =>
    obtain ⟨fuel, rfl⟩ : ∃ f, fuel = f + 1 := ⟨fuel - 1, by simp at hfuel; omega⟩
    have hseg := Seg.append.2 ⟨cur, hpre, hpost⟩
    obtain ⟨rfl, hb, hrest⟩ := hpost
    rw [User.findBlock, if_neg hb.addr_ne, hb.free, hb.size]
    by_cases hfit : b.free = true ∧ n ≤ b.size
    · obtain ⟨mem₁, hmem₁, hlist₁, -⟩ := (ListAt.mk hseg hlaid hhi).coalesce
      have hsize : n ≤ sizeAt mem₁ b.addr := by
        have hgrown := (hlist₁.seg.header (b := grown headerSize b post) (by simp)).size
        rw [addr_grown] at hgrown
        rw [hgrown]
        exact le_trans hfit.2 (Nat.le_add_right _ _)
      refine Or.inr ⟨[], b, post, mem₁, rfl, hfit.1, hfit.2, hmem₁, hsize, ?_⟩
      rw [if_pos hfit, hmem₁]
      exact if_pos hsize
    · rw [if_neg hfit]
      have hsplit : pre ++ b :: post = (pre ++ [b]) ++ post := by simp
      have hpre' : Seg mem p (pre ++ [b]) (nextAt mem b.addr) :=
        Seg.append.2 ⟨_, hpre, rfl, hb, rfl⟩
      rcases ih hpre' hrest (hsplit ▸ hlaid) (by simp at hfuel; omega) with
        ⟨hfind, hnone⟩ | ⟨mid, c, post', mem₁, rfl, hfound⟩
      · refine Or.inl ⟨hfind, fun c hc => ?_⟩
        rcases List.mem_cons.1 hc with rfl | hc
        · exact fun hfree => not_le.1 fun hle => hfit ⟨hfree, hle⟩
        · exact hnone c hc
      · exact Or.inr ⟨b :: mid, c, post', mem₁, rfl, hfound⟩

/-- The loop of `malloc` finds nothing and changes nothing, or takes a block. -/
lemma findBlock (h : ListAt mem p bs hi) (hwrap : n + minSplit < 2 ^ 64) :
    ∃ mem' ptr, User.findBlock listFuel mem n p = some (mem', ptr) ∧
      ((ptr = 0 ∧ mem' = mem) ∨
        ∃ bs' b', ptr = b'.addr + headerSize ∧ n ≤ b'.size ∧ ListAt mem' p bs' hi ∧
          (used bs').Perm (b' :: used bs) ∧ total headerSize bs' = total headerSize bs ∧
          Kept mem mem' (used bs)) := by
  have hnil : Seg mem p [] p := rfl
  rcases search (n := n) hnil h.seg h.laid h.hi_lt h.length_lt with
    ⟨hfind, -⟩ | ⟨mid, b, post, mem₁, rfl, hfree, hn, hco, -, hfind⟩
  · exact ⟨mem, 0, hfind, Or.inl ⟨rfl, rfl⟩⟩
  · obtain ⟨mem₁', bs', b', hco', -, hlist, haddr, hn', hrest⟩ := h.take hfree hn hwrap
    obtain rfl : mem₁ = mem₁' := Option.some.inj (hco.symm.trans hco')
    exact ⟨_, _, hfind, Or.inr ⟨bs', b', by rw [haddr], hn', hlist, hrest⟩⟩

lemma lastBlock {fuel : ℕ} (h : Seg mem p (pre ++ [b]) 0) (hfuel : pre.length < fuel) :
    User.lastBlock fuel mem p = some b.addr := by
  induction pre generalizing p fuel with
  | nil =>
    obtain ⟨fuel, rfl⟩ : ∃ f, fuel = f + 1 := ⟨fuel - 1, by simp at hfuel; omega⟩
    obtain ⟨rfl, -, hseg⟩ := h
    have hnext : nextAt mem b.addr = 0 := hseg
    rw [User.lastBlock, if_neg (not_not.2 hnext)]
  | cons c pre ih =>
    obtain ⟨fuel, rfl⟩ : ∃ f, fuel = f + 1 := ⟨fuel - 1, by simp at hfuel; omega⟩
    obtain ⟨rfl, -, hrest⟩ := h
    have hne : nextAt mem c.addr ≠ 0 := by
      cases pre with
      | nil => exact hrest.1 ▸ hrest.2.1.addr_ne
      | cons d pre => exact hrest.1 ▸ hrest.2.1.addr_ne
    rw [User.lastBlock, if_pos hne]
    exact ih hrest (by simp at hfuel; omega)

end ListAt

end User

end CobjOs
