import CobjOs.User.MallocSpec

/-!
# The allocator's functions

`Heap.Ok h bs` is the invariant of the allocator: `bs` is its list, laid one behind the other below
`heap_ptr`, and the bytes of the blocks are those that `sbrk` has handed out.  Each function is
described by what it does to the blocks in use: `malloc` adds one (`Adds`), `free` takes one away,
`realloc` exchanges one for another.  The payloads of the other blocks stay as they are.

The assumptions on a request are in `Heap.Fits`: `mmap` answers with an address behind all regions
that `sbrk` asked for before, and no sum in the request wraps.
-/

namespace CobjOs

open List Option

namespace User

open Block Mem

namespace Heap

/-- The allocator's invariant, with the blocks of its list. -/
structure Ok (h : Heap) (bs : List Block) : Prop where
  list : ListAt h.mem h.head bs h.heapPtr
  ptr_le : h.heapPtr ≤ h.heapEnd
  end_lt : h.heapEnd < 2 ^ 64
  total : total headerSize bs = h.handed
  empty : h.head = 0 → h.heapPtr = 0
  top : h.heapPtr = 0 ∨ ∃ c ∈ h.chunks, c.1 + c.2 = h.heapEnd

/-- The bytes handed out so far leave no room for a request of `n` bytes. -/
def Full (h : Heap) (n : ℕ) : Prop := h.heapPtr = 0 ∨ h.heapEnd < h.heapPtr + headerSize + n

/-- What a request of `n` bytes, rounded up, assumes. -/
structure Fits (h : Heap) (n page : ℕ) : Prop where
  wrap : n + minSplit < 2 ^ 64
  ptr_lt : h.heapPtr + headerSize + n < 2 ^ 64
  region : h.Full n → page ≠ 0 ∧ (∀ c ∈ h.chunks, c.1 + c.2 ≤ page) ∧
    page + headerSize + n + 4096 < 2 ^ 64

/-- What a call leaves of the regions: they are as before, or there is one more for a request that
did not fit. -/
inductive Regions (h : Heap) (n page : ℕ) (h' : Heap) : Prop
  | same : h'.chunks = h.chunks → h'.heapEnd = h.heapEnd → h'.head = h.head → Regions h n page h'
  | more : h.Full n → h'.chunks = (page, headerSize + n + 4096) :: h.chunks →
      h'.heapEnd = page + (headerSize + n + 4096) →
      h'.head = (if h.head = 0 then page else h.head) → Regions h n page h'

/-- A block of at least `n` bytes is in use now, and the others stay. -/
structure Adds (h : Heap) (bs : List Block) (n page : ℕ) (h' : Heap) (bs' : List Block)
    (b : Block) : Prop where
  ok : h'.Ok bs'
  used : (used bs').Perm (b :: used bs)
  size : n ≤ b.size
  kept : Kept h.mem h'.mem (Block.used bs)
  regions : Regions h n page h'

variable {h h' : Heap} {bs : List Block} {b : Block} {n size page ptr dst k l src : ℕ} {mem : Mem}

lemma u64_of_lt (hn : n < 2 ^ 64) : u64 n = n := Nat.mod_eq_of_lt hn

lemma Regions.of_eq {h₁ h₂ : Heap} (hreg : Regions h n page h₁) (hchunks : h₂.chunks = h₁.chunks)
    (hend : h₂.heapEnd = h₁.heapEnd) (hhead : h₂.head = h₁.head) : Regions h n page h₂ := by
  cases hreg with
  | same hc he hh => exact .same (hchunks.trans hc) (hend.trans he) (hhead.trans hh)
  | more hf hc he hh => exact .more hf (hchunks.trans hc) (hend.trans he) (hhead.trans hh)

lemma le_roundUp (h : size + 7 < 2 ^ 64) : size ≤ roundUp size := by
  rw [roundUp, u64_of_lt h]
  omega

lemma roundUp_roundUp (h : roundUp size + 7 < 2 ^ 64) : roundUp (roundUp size) = roundUp size := by
  rw [roundUp, u64_of_lt h]
  unfold roundUp
  omega

lemma payload_ne : b.addr + headerSize ≠ 0 := by
  unfold headerSize
  omega

namespace Ok

/-- The heap with another memory for the same list of bytes. -/
lemma with_mem (hok : h.Ok bs) {bs' : List Block} (hlist : ListAt mem h.head bs' h.heapPtr)
    (htotal : Block.total headerSize bs' = Block.total headerSize bs) :
    Ok { h with mem := mem } bs' :=
  ⟨hlist, hok.ptr_le, hok.end_lt, htotal.trans hok.total, hok.empty, hok.top⟩

lemma sizeAt_eq (hok : h.Ok bs) (hb : b ∈ used bs) : sizeAt h.mem b.addr = b.size :=
  (hok.list.seg.header (mem_used.1 hb).1).size

lemma heapPtr_le_page (hok : h.Ok bs) (habove : ∀ c ∈ h.chunks, c.1 + c.2 ≤ page) :
    h.heapPtr ≤ page := by
  rcases hok.top with htop | ⟨c, hc, htop⟩
  · rw [htop]
    exact Nat.zero_le page
  · exact hok.ptr_le.trans (htop ▸ habove c hc)

lemma sbrk (hok : h.Ok bs) (hfit : h.Fits n page) :
    ∃ h' blk, h.sbrk (u64 (headerSize + n)) page = (h', blk) ∧ blk ≠ 0 ∧ h.heapPtr ≤ blk ∧
      h'.heapPtr = blk + headerSize + n ∧ h'.heapPtr ≤ h'.heapEnd ∧ h'.heapEnd < 2 ^ 64 ∧
      h'.mem = h.mem ∧ h'.head = h.head ∧ h'.handed = h.handed + (headerSize + n) ∧
      (∃ c ∈ h'.chunks, c.1 + c.2 = h'.heapEnd) ∧
      ((h.heapPtr ≠ 0 ∧ h'.chunks = h.chunks ∧ h'.heapEnd = h.heapEnd) ∨
        (h.Full n ∧ blk = page ∧ h'.chunks = (page, headerSize + n + 4096) :: h.chunks ∧
          h'.heapEnd = page + (headerSize + n + 4096))) := by
  have hptr : h.heapPtr + (headerSize + n) < 2 ^ 64 := by
    simpa [Nat.add_assoc] using hfit.ptr_lt
  have hfull_iff : h.Full n ↔ h.heapPtr = 0 ∨ h.heapEnd < h.heapPtr + (headerSize + n) := by
    rw [Full, Nat.add_assoc]
  rw [u64_of_lt ((Nat.le_add_left ..).trans_lt hptr), Heap.sbrk, u64_of_lt hptr]
  by_cases hfull : h.heapPtr = 0 ∨ h.heapEnd < h.heapPtr + (headerSize + n)
  · obtain ⟨hpage, habove, hlt⟩ := hfit.region (hfull_iff.2 hfull)
    have hlt₁ : page + (headerSize + n + 4096) < 2 ^ 64 := by simpa [Nat.add_assoc] using hlt
    have hlt₂ : page + (headerSize + n) ≤ page + (headerSize + n + 4096) :=
      Nat.add_le_add_left (Nat.le_add_right ..) page
    simp only [if_pos hfull, u64_of_lt ((Nat.le_add_left ..).trans_lt hlt₁), u64_of_lt hlt₁,
      u64_of_lt (hlt₂.trans_lt hlt₁)]
    exact ⟨_, _, rfl, hpage, hok.heapPtr_le_page habove, (Nat.add_assoc ..).symm, hlt₂, hlt₁, rfl,
      rfl, rfl, ⟨_, mem_cons_self, rfl⟩, Or.inr ⟨hfull_iff.2 hfull, rfl, rfl, rfl⟩⟩
  · simp only [if_neg hfull, u64_of_lt hptr]
    have hne : h.heapPtr ≠ 0 := fun hzero => hfull (Or.inl hzero)
    exact ⟨_, _, rfl, hne, le_rfl, (Nat.add_assoc ..).symm,
      not_lt.1 fun hlt => hfull (Or.inr hlt), hok.end_lt, rfl, rfl, rfl,
      hok.top.resolve_left hne, Or.inl ⟨hne, rfl, rfl⟩⟩

lemma head_eq_zero_iff (hok : h.Ok bs) : h.head = 0 ↔ bs = [] := by
  cases bs with
  | nil => exact ⟨fun _ => rfl, fun _ => hok.list.seg⟩
  | cons b bs =>
    have hhead := hok.list.seg.1
    have hne := hok.list.seg.2.1.addr_ne
    simp [hhead, hne]

lemma head_le (hok : h.Ok bs) (hb : b ∈ bs) : h.head ≤ b.addr := by
  cases bs with
  | nil => cases hb
  | cons c bs =>
    rw [hok.list.seg.1]
    rcases mem_cons.1 hb with rfl | hb
    · exact le_rfl
    · have hle := (hok.list.laid.2.bounds hb).1
      unfold fin at hle
      omega

lemma setHeader_above {blk m : ℕ} {free : Bool} (hok : h.Ok bs) (hle : h.heapPtr ≤ blk) :
    ListAt (setHeader h.mem blk n free m) h.head bs h.heapPtr := by
  refine ⟨hok.list.seg.congr fun d hd x hx => eqOff_setHeader x fun hx' => ?_, hok.list.laid,
    hok.list.hi_lt⟩
  have hfin := (hok.list.laid.bounds hd).2
  unfold fin at hfin
  unfold Within at hx hx'
  omega

lemma lastBlock {p hi : ℕ} (hlist : ListAt mem p bs hi) (hbs : bs ≠ []) :
    ∃ pre last, bs = pre ++ [last] ∧ User.lastBlock listFuel mem p = some last.addr := by
  obtain ⟨pre, last, rfl⟩ : ∃ pre last, bs = pre ++ [last] :=
    ⟨bs.dropLast, bs.getLast hbs, (dropLast_append_getLast hbs).symm⟩
  have hfuel : pre.length < listFuel := by
    have hlen := hlist.length_lt
    simp at hlen
    omega
  exact ⟨pre, last, rfl, ListAt.lastBlock hlist.seg hfuel⟩

lemma extendHeap (hok : h.Ok bs) (hfit : h.Fits n page) :
    ∃ h' blk, h.extendHeap n page = some (h', blk) ∧ blk ≠ 0 ∧
      h'.Ok (bs ++ [⟨blk, n, false⟩]) ∧ Kept h.mem h'.mem bs ∧ Regions h n page h' := by
  obtain ⟨h₁, blk, hsbrk, hne, hle, hptr, hptr', hend, hmem, hhead, hhanded, hchunk, hreg⟩ :=
    hok.sbrk hfit
  have hnlt : n < 2 ^ 64 := (Nat.le_add_right n minSplit).trans_lt hfit.wrap
  rw [Heap.extendHeap, hsbrk]
  simp only [if_neg hne, hhead, hmem]
  set c : Block := ⟨blk, n, false⟩ with hc
  set mem₁ := setHeader h.mem blk n false 0 with hmem₁
  have hoff : EqOff (Within blk headerSize) h.mem mem₁ := eqOff_setHeader
  have hlow : ∀ d ∈ bs, ∀ x, x < d.fin headerSize → mem₁ x = h.mem x := by
    intro d hd x hx
    have hfin := (hok.list.laid.bounds hd).2
    refine hoff x fun hx' => ?_
    unfold Within at hx'
    omega
  have hnewAt : ∀ mem₂ : Mem, EqOff (fun x => x < blk) mem₁ mem₂ → Seg mem₂ blk [c] 0 := by
    intro mem₂ hoff₂
    have hsame : ∀ x, Within blk headerSize x → mem₂ x = mem₁ x :=
      fun x hx => hoff₂ x (not_lt.2 hx.1)
    exact ⟨rfl, ⟨hne, (sizeAt_congr hsame).trans (sizeAt_setHeader hnlt),
      (freeAt_congr hsame).trans freeAt_setHeader⟩,
      (nextAt_congr hsame).trans (nextAt_setHeader (by norm_num))⟩
  have hlaid : Laid headerSize 0 (bs ++ [c]) h₁.heapPtr :=
    Laid.append.2 ⟨_, hok.list.laid, hle, hptr.ge⟩
  have hhi : h₁.heapPtr < 2 ^ 64 := hptr'.trans_lt hend
  have htotal : Block.total headerSize (bs ++ [c]) = h₁.handed := by
    rw [total_append, hok.total, hhanded]
    simp [hc]
  by_cases hzero : h.head = 0
  · have hbs := hok.head_eq_zero_iff.1 hzero
    subst hbs
    refine ⟨_, blk, if_pos hzero, hne, ⟨⟨hnewAt _ (.refl _), hlaid, hhi⟩, hptr', hend, htotal,
      fun hblk => absurd hblk hne, Or.inr hchunk⟩, fun d hd => absurd hd (by simp), ?_⟩
    rcases hreg with ⟨hptr₀, -⟩ | ⟨hfull, rfl, hchunks, hend'⟩
    · exact absurd (hok.empty hzero) hptr₀
    · exact .more hfull hchunks hend' (if_pos hzero).symm
  · rw [if_neg hzero]
    have hbs : bs ≠ [] := fun hnil => hzero (hok.head_eq_zero_iff.2 hnil)
    have hlist₁ : ListAt mem₁ h.head bs h.heapPtr := hok.setHeader_above hle
    obtain ⟨pre, last, rfl, hlastBlock⟩ := lastBlock hlist₁ hbs
    rw [hlastBlock]
    obtain ⟨hpre, hlast, -, hlpre, hlpost, -⟩ := hlist₁.split_at
    have hlfin : last.fin headerSize ≤ blk := (Laid.le hlpost).trans hle
    have hblk : blk < 2 ^ 64 := by omega
    have hoff₂ : EqOff (Within last.addr headerSize) mem₁ (setNext mem₁ last.addr blk) :=
      setNext_header
    refine ⟨_, blk, rfl, hne, ⟨⟨?_, hlaid, hhi⟩, hptr', hend, htotal,
      fun hhead' => absurd hhead' hzero, Or.inr hchunk⟩, ?_, ?_⟩
    · refine Seg.append.2 ⟨blk, Seg.append.2 ⟨last.addr, ?_, rfl, ⟨hlast.addr_ne, ?_, ?_⟩, ?_⟩, ?_⟩
      · refine hpre.congr fun d hd x hx => hoff₂ x fun hx' => ?_
        have hfin := (hlpre.bounds hd).2
        unfold fin at hfin
        unfold Within at hx hx'
        omega
      · exact sizeAt_setNext.trans hlast.size
      · exact freeAt_setNext.trans hlast.free
      · exact nextAt_setNext hblk
      · refine hnewAt _ (hoff₂.mono fun x hx => ?_)
        unfold fin at hlfin
        unfold Within at hx
        omega
    · have hkept : Kept h.mem mem₁ (pre ++ [last]) := fun d hd x hx => hlow d hd x <| by
        unfold Within at hx
        unfold fin
        omega
      exact hkept.trans (Kept.of_header hlist₁ (by simp) hoff₂)
    · rcases hreg with ⟨-, hchunks, hend'⟩ | ⟨hfull, -, hchunks, hend'⟩
      · exact .same hchunks hend' rfl
      · exact .more hfull hchunks hend' (if_neg hzero).symm

lemma mallocRounded (hok : h.Ok bs) (hfit : h.Fits n page) :
    ∃ h' bs' b, h.mallocRounded n page = some (h', b.addr + headerSize) ∧
      Adds h bs n page h' bs' b := by
  obtain ⟨mem, ptr, hfind, hres⟩ := hok.list.findBlock hfit.wrap
  rw [Heap.mallocRounded, hfind]
  rcases hres with ⟨rfl, rfl⟩ | ⟨bs', b, rfl, hn, hlist, hused, htotal, hkept⟩
  · obtain ⟨h', blk, hext, hne, hok', hkept, hreg⟩ := hok.extendHeap hfit
    refine ⟨h', _, ⟨blk, n, false⟩, ?_, hok', ?_, le_rfl,
      hkept.mono fun c hc => (mem_used.1 hc).1, hreg⟩
    · simp [hext, hne]
    · rw [used_append, used_cons_of_used rfl]
      exact perm_append_comm
  · refine ⟨{ h with mem := mem }, bs', b, ?_, hok.with_mem hlist htotal, hused, hn, hkept,
      .same rfl rfl rfl⟩
    simp only [bind_eq_bind, bind_some, if_pos payload_ne]

lemma malloc (hok : h.Ok bs) (hsize : size ≠ 0) (hfit : h.Fits (roundUp size) page) :
    ∃ h' bs' b, h.malloc size page = some (h', b.addr + headerSize) ∧
      Adds h bs (roundUp size) page h' bs' b := by
  rw [Heap.malloc, if_neg hsize]
  exact hok.mallocRounded hfit

lemma free (hok : h.Ok bs) (hb : b ∈ used bs) :
    ∃ mem bs', h.free (b.addr + headerSize) = some { h with mem := mem } ∧
      Ok { h with mem := mem } bs' ∧ (used bs).Perm (b :: used bs') ∧ Kept h.mem mem bs := by
  obtain ⟨hmem, hused⟩ := mem_used.1 hb
  obtain ⟨pre, post, rfl⟩ := append_of_mem hmem
  have hlist := hok.list.setFree true
  obtain ⟨mem, hco, hlist', hoff⟩ := hlist.coalesce
  dsimp only at hco hoff
  refine ⟨mem, _, ?_, hok.with_mem hlist' ?_, ?_, ?_⟩
  · simp only [Heap.free, if_neg payload_ne, Nat.add_sub_cancel, hco]
    rfl
  · rw [total_append, total_grown, total_append, total_cons, total_cons]
  · rw [used_append, used_append, used_cons_of_used hused, used_cons_of_free rfl, used_dropWhile]
    exact perm_middle
  · have hfree : Kept h.mem (setFree h.mem b.addr true) (pre ++ b :: post) :=
      Kept.of_header hok.list hmem setFree_header
    have hkept := Kept.of_header (b := { b with free := true }) hlist (by simp) hoff
    refine hfree.trans fun c hc => ?_
    -- the freed block is on the list with the other flag
    rcases mem_append.1 hc with hc | hc
    · exact hkept c (by simp [hc])
    · rcases mem_cons.1 hc with rfl | hc
      · exact hkept { c with free := true } (by simp)
      · exact hkept c (by simp [hc])

end Ok

/-! ## `realloc` and `calloc` -/

/-- A block in use has taken the place of another, and the others stay. -/
structure Swaps (h : Heap) (bs : List Block) (b : Block) (n page : ℕ) (h' : Heap)
    (bs' : List Block) (b' : Block) : Prop where
  ok : h'.Ok bs'
  used : ∃ others, (used bs).Perm (b :: others) ∧ (Block.used bs').Perm (b' :: others) ∧
    Kept h.mem h'.mem others
  size : n ≤ b'.size
  regions : Regions h n page h'

/-- An exchange that changes memory only, and then another. -/
lemma Swaps.trans {bs₁ bs' : List Block} {b₁ b' : Block} {m : ℕ}
    (hs : Swaps h bs b m page { h with mem := mem } bs₁ b₁)
    (hs' : Swaps { h with mem := mem } bs₁ b₁ n page h' bs' b') :
    Swaps h bs b n page h' bs' b' := by
  obtain ⟨others, hothers, hothers₁, hkept⟩ := hs.used
  obtain ⟨others', hothers', hothers₂, hkept'⟩ := hs'.used
  have hsame : others.Perm others' := (hothers₁.symm.trans hothers').cons_inv
  refine ⟨hs'.ok, ⟨others, hothers, hothers₂.trans (hsame.symm.cons b'),
    hkept.trans (hkept'.mono fun c hc => hsame.mem_iff.1 hc)⟩, hs'.size, ?_⟩
  cases hs'.regions with
  | same hc he hp => exact .same hc he hp
  | more hf hc he hp => exact .more hf hc he hp

/-- The first `k` payload bytes of the one block are now those of the other. -/
def Carries (mem mem' : Mem) (b b' : Block) (k : ℕ) : Prop :=
  ∀ i < k, mem' (b'.addr + headerSize + i) = mem (b.addr + headerSize + i)

lemma Carries.trans {mem₁ mem₂ mem₃ : Mem} {b₁ b₂ b₃ : Block}
    (h : Carries mem₁ mem₂ b₁ b₂ k) (h' : Carries mem₂ mem₃ b₂ b₃ l) :
    Carries mem₁ mem₃ b₁ b₃ (min k l) := by
  intro i hi
  rw [h' i (lt_of_lt_of_le hi (min_le_right k l)), h i (lt_of_lt_of_le hi (min_le_left k l))]

lemma Carries.mono {mem₁ mem₂ : Mem} {b₁ b₂ : Block} (h : Carries mem₁ mem₂ b₁ b₂ k)
    (hle : l ≤ k) : Carries mem₁ mem₂ b₁ b₂ l :=
  fun i hi => h i (lt_of_lt_of_le hi hle)

/-- A payload that was kept. -/
lemma Carries.of_kept {mem₁ mem₂ : Mem} (h : Kept mem₁ mem₂ bs) (hb : b ∈ bs) :
    Carries mem₁ mem₂ b b b.size := by
  intro i hi
  exact h b hb _ ⟨Nat.le_add_right _ _, Nat.add_lt_add_left hi _⟩

/-- The copying loop is a copy from the lowest byte on. -/
lemma copyBytes_eq_copy : copyBytes mem dst src n = mem.copy dst src n := by
  induction n with
  | zero => rfl
  | succ n ih =>
    have hstep : copyBytes mem dst src (n + 1) =
        (copyBytes mem dst src n).write (dst + n) [copyBytes mem dst src n (src + n)] := by
      rw [copyBytes, range_succ, foldl_append]
      rfl
    rw [hstep, ih]
    funext x
    by_cases hx : x = dst + n
    · simp [Mem.write, Mem.copy, hx]
    · have hout : ¬(dst + n ≤ x ∧ x < dst + n + 1) := by omega
      simp only [Mem.write, Mem.copy, length_singleton, if_neg hout, if_neg hx]

lemma eqOff_copyBytes : EqOff (Within dst n) mem (copyBytes mem dst src n) :=
  copyBytes_eq_copy ▸ EqOff.copy mem

namespace Ok

/-- A block in use is split in place. -/
lemma split (hok : h.Ok bs) (page : ℕ) (hb : b ∈ used bs) (hn : n ≤ b.size)
    (hwrap : n + minSplit < 2 ^ 64) :
    ∃ bs' b', b'.addr = b.addr ∧
      Swaps h bs b n page { h with mem := User.split h.mem b.addr n } bs' b' ∧
      Carries h.mem (User.split h.mem b.addr n) b b' n := by
  obtain ⟨hmem, hused⟩ := mem_used.1 hb
  obtain ⟨pre, post, rfl⟩ := append_of_mem hmem
  obtain ⟨rest, hlist, hrest, htotal, hoff⟩ := hok.list.split hn hwrap
  refine ⟨_, shrunk minSplit n b, addr_shrunk, ⟨hok.with_mem hlist ?_,
    ⟨used pre ++ used post, ?_, ?_, ?_⟩, le_size_shrunk hn, .same rfl rfl rfl⟩, ?_⟩
  · rw [total_append, total_append, htotal]
  · rw [used_append, used_cons_of_used hused]
    exact perm_middle
  · rw [used_append, used_cons_of_used (free_shrunk.trans hused), hrest]
    exact perm_middle
  · intro c hc x hx
    refine hoff x fun hx' => ?_
    have hapart : c.fin headerSize ≤ b.addr ∨ b.fin headerSize ≤ c.addr := by
      obtain ⟨-, -, -, hlpre, hlpost, -⟩ := hok.list.split_at
      rcases mem_append.1 hc with hc | hc
      · exact Or.inl (hlpre.bounds (mem_used.1 hc).1).2
      · exact Or.inr (hlpost.bounds (mem_used.1 hc).1).1
    unfold fin at hapart
    unfold Within at hx hx'
    rcases hapart with hapart | hapart <;> rcases hx' with hx' | hx' <;> omega
  · intro i hi
    rw [addr_shrunk]
    refine hoff _ fun hx => ?_
    unfold Within at hx
    omega

/-- A block in use grows by the free blocks behind it. -/
lemma coalesce (hok : h.Ok bs) (page : ℕ) (hb : b ∈ used bs) :
    ∃ mem bs' b', User.coalesce h.mem b.addr = some mem ∧ b'.addr = b.addr ∧
      Swaps h bs b b.size page { h with mem := mem } bs' b' ∧
      Carries h.mem mem b b' b.size := by
  obtain ⟨hmem, hused⟩ := mem_used.1 hb
  obtain ⟨pre, post, rfl⟩ := append_of_mem hmem
  obtain ⟨mem, hco, hlist, hoff⟩ := hok.list.coalesce
  have hkept := Kept.of_header hok.list hmem hoff
  refine ⟨mem, _, grown headerSize b post, hco, rfl, ⟨hok.with_mem hlist ?_,
    ⟨used pre ++ used post, ?_, ?_, ?_⟩, Nat.le_add_right _ _, .same rfl rfl rfl⟩,
    Carries.of_kept hkept hmem⟩
  · rw [total_append, total_grown, total_append]
  · rw [used_append, used_cons_of_used hused]
    exact perm_middle
  · rw [used_append, used_cons_of_used (free_grown.trans hused), used_dropWhile]
    exact perm_middle
  · refine hkept.mono fun c hc => ?_
    rcases mem_append.1 hc with hc | hc
    · exact mem_append_left _ (mem_used.1 hc).1
    · exact mem_append_right _ (mem_cons_of_mem _ (mem_used.1 hc).1)

lemma others_apart {us : List Block} {c : Block} {x : ℕ} (hok : h.Ok bs)
    (hused : (used bs).Perm (b :: us)) (hc : c ∈ us)
    (hx : Within (c.addr + headerSize) c.size x) : ¬Within (b.addr + headerSize) b.size x := by
  intro hx'
  have hnodup : (b :: us).Nodup :=
    hused.nodup_iff.1 ((hok.list.laid.nodup (by decide)).filter _)
  have hmem : ∀ d ∈ b :: us, d ∈ bs := fun d hd => (mem_used.1 (hused.mem_iff.2 hd)).1
  have hapart := hok.list.laid.apart (hmem c (mem_cons_of_mem _ hc))
    (hmem b mem_cons_self)
  unfold fin at hapart
  unfold Within at hx hx'
  rcases hapart with rfl | hapart | hapart
  · exact (nodup_cons.1 hnodup).1 hc
  · omega
  · omega

/-- The end of `realloc`: another block is taken, the bytes are copied, and the old one is freed. -/
lemma moveBlock (hok : h.Ok bs) (hb : b ∈ used bs) (hsize : size ≠ 0)
    (hround : size + 7 < 2 ^ 64) (hfit : h.Fits (roundUp size) page) :
    ∃ h' bs' b', h.moveBlock (b.addr + headerSize) size page = some (h', b'.addr + headerSize) ∧
      Swaps h bs b (roundUp size) page h' bs' b' ∧
      Carries h.mem h'.mem b b' (min b.size size) := by
  obtain ⟨h₁, bs₁, b', hmalloc, hok₁, hused₁, hn, hkept₁, hreg⟩ := hok.malloc hsize hfit
  obtain ⟨others, hothers⟩ : ∃ others, (used bs).Perm (b :: others) :=
    ⟨_, perm_cons_erase hb⟩
  have hb' : b' ∈ used bs₁ := hused₁.mem_iff.2 mem_cons_self
  have hb₁ : b ∈ used bs₁ := hused₁.mem_iff.2 (mem_cons_of_mem _ hb)
  have hcopy : min (sizeAt h₁.mem b.addr) size ≤ b'.size :=
    (min_le_right _ _).trans ((le_roundUp hround).trans hn)
  set mem₂ := copyBytes h₁.mem (b'.addr + headerSize) (b.addr + headerSize)
    (min (sizeAt h₁.mem b.addr) size) with hmem₂
  have hoff : EqOff (Within (b'.addr + headerSize) b'.size) h₁.mem mem₂ :=
    eqOff_copyBytes.mono fun x hx => by
      unfold Within at hx ⊢
      omega
  have hlist₂ := hok₁.list.write_payload (mem_used.1 hb').1 hoff
  obtain ⟨mem₃, bs₃, hfree, hok₃, hused₃, hkept₃⟩ := (hok₁.with_mem hlist₂ rfl).free hb₁
  refine ⟨_, bs₃, b', ?_, ⟨hok₃, ⟨others, hothers, ?_, ?_⟩, hn, hreg.of_eq rfl rfl rfl⟩, ?_⟩
  · simp only [Heap.moveBlock, hmalloc, bind_eq_bind, bind_some, if_neg payload_ne,
      Nat.add_sub_cancel, ← hmem₂, hfree]
  · -- the old block is cancelled on both sides
    refine List.Perm.cons_inv (a := b) (hused₃.symm.trans (hused₁.trans ?_))
    exact (hothers.cons b').trans (List.Perm.swap b b' others)
  · have hmem : ∀ c ∈ others, c ∈ used bs := fun c hc =>
      hothers.mem_iff.2 (mem_cons_of_mem _ hc)
    have hmem₁ : ∀ c ∈ others, c ∈ used bs₁ := fun c hc =>
      hused₁.mem_iff.2 (mem_cons_of_mem _ (hmem c hc))
    refine ((hkept₁.mono hmem).trans fun c hc x hx => hoff x fun hx' => ?_).trans
      (hkept₃.mono fun c hc => (mem_used.1 (hmem₁ c hc)).1)
    exact others_apart hok₁ hused₁ (hmem c hc) hx hx'
  · -- kept while the new block is taken, copied, and kept while the old one is freed
    have hsame : sizeAt h₁.mem b.addr = b.size := sizeAt_eq hok₁ hb₁
    have hsrc : Carries h.mem h₁.mem b b b.size := .of_kept hkept₁ hb
    have hcopied : Carries h₁.mem mem₂ b b' (min b.size size) := by
      intro i hi
      rw [hmem₂, copyBytes_eq_copy, hsame]
      refine Mem.copy_apply hi fun j hj hx => ?_
      have hin : Within (b.addr + headerSize) b.size (b.addr + headerSize + j) :=
        ⟨Nat.le_add_right _ _, by omega⟩
      refine others_apart hok₁ hused₁ hb hin ?_
      unfold Within at hx ⊢
      omega
    have hdst : Carries mem₂ mem₃ b' b' b'.size := .of_kept hkept₃ (mem_used.1 hb').1
    refine ((hsrc.trans hcopied).trans hdst).mono ?_
    omega

lemma realloc (hok : h.Ok bs) (hb : b ∈ used bs) (hsize : size ≠ 0)
    (hfit : h.Fits (roundUp size) page) :
    ∃ h' bs' b', h.realloc (b.addr + headerSize) size page = some (h', b'.addr + headerSize) ∧
      Swaps h bs b (roundUp size) page h' bs' b' ∧
      Carries h.mem h'.mem b b' (min b.size (roundUp size)) := by
  have hn := sizeAt_eq hok hb
  simp only [Heap.realloc, if_neg payload_ne, if_neg hsize, Nat.add_sub_cancel, hn]
  by_cases hle : roundUp size ≤ b.size
  · rw [if_pos hle]
    obtain ⟨bs', b', haddr, hswap, hdata⟩ := hok.split page hb hle hfit.wrap
    exact ⟨_, bs', b', by rw [haddr], hswap, hdata.mono (min_le_right _ _)⟩
  rw [if_neg hle]
  obtain ⟨mem, bs₁, b₁, hco, haddr, hgrow, hdata₁⟩ := hok.coalesce page hb
  obtain ⟨others, -, hothers, -⟩ := hgrow.used
  have hok₁ := hgrow.ok
  have hb₁ : b₁ ∈ used bs₁ := hothers.mem_iff.2 mem_cons_self
  have hn₁ : sizeAt mem b.addr = b₁.size := haddr ▸ sizeAt_eq hok₁ hb₁
  simp only [hco, bind_eq_bind, bind_some, hn₁]
  by_cases hle₁ : roundUp size ≤ b₁.size
  · rw [if_pos hle₁]
    obtain ⟨bs', b', haddr', hswap, hdata⟩ := hok₁.split page hb₁ hle₁ hfit.wrap
    refine ⟨_, bs', b', ?_, hgrow.trans hswap, hdata₁.trans hdata⟩
    rw [haddr', haddr]
  · rw [if_neg hle₁]
    have hlt : roundUp size + 7 < 2 ^ 64 := by
      have hwrap := hfit.wrap
      unfold minSplit at hwrap
      omega
    have hne : roundUp size ≠ 0 := fun hzero => hle₁ (hzero ▸ Nat.zero_le _)
    have hfit₁ : Fits { h with mem := mem } (roundUp (roundUp size)) page := by
      rw [roundUp_roundUp hlt]
      exact ⟨hfit.wrap, hfit.ptr_lt, hfit.region⟩
    obtain ⟨h', bs', b', hmove, hswap, hdata⟩ := hok₁.moveBlock hb₁ hne hlt hfit₁
    rw [haddr] at hmove
    rw [roundUp_roundUp hlt] at hswap
    have hgrew : b.size ≤ b₁.size := hgrow.size
    exact ⟨h', bs', b', hmove, hgrow.trans hswap, (hdata₁.trans hdata).mono (by omega)⟩

lemma calloc {nmemb : ℕ} (hok : h.Ok bs) (hsize : nmemb * size ≠ 0)
    (hround : nmemb * size + 7 < 2 ^ 64) (hfit : h.Fits (roundUp (nmemb * size)) page) :
    ∃ h' bs' b, h.calloc nmemb size page = some (h', b.addr + headerSize) ∧
      Adds h bs (roundUp (nmemb * size)) page h' bs' b := by
  obtain ⟨h₁, bs₁, b, hmalloc, hok₁, hused, hn, hkept, hreg⟩ := hok.malloc hsize hfit
  have hb : b ∈ used bs₁ := hused.mem_iff.2 mem_cons_self
  have hoff : EqOff (Within (b.addr + headerSize) b.size) h₁.mem
      (h₁.mem.fill (b.addr + headerSize) (nmemb * size) 0) :=
    EqOff.fill _ fun x hx => by
      have hle := (le_roundUp hround).trans hn
      unfold Within at hx ⊢
      omega
  refine ⟨_, bs₁, b, ?_, hok₁.with_mem (hok₁.list.write_payload (mem_used.1 hb).1 hoff) rfl, hused,
    hn, hkept.trans fun c hc x hx => hoff x fun hx' => ?_, hreg.of_eq rfl rfl rfl⟩
  · have hwrap : u64 (nmemb * size) = nmemb * size := u64_of_lt (by omega)
    simp only [Heap.calloc, hwrap, hmalloc, bind_eq_bind, bind_some,
      if_neg payload_ne]
  · exact others_apart hok₁ hused hc hx hx'

end Ok

/-! ## Recorded sizes

What a call records as the size of the block it returns does not depend on the sums that may wrap
behind it: the address of a new block, the limit of the region and the size of the region.  Only
the address `mmap` answers with has to be behind the earlier regions. -/

lemma sbrk_frame (h : Heap) (n page : ℕ) : (h.sbrk n page).1.mem = h.mem ∧
    (h.sbrk n page).1.head = h.head ∧
    ((h.sbrk n page).2 = h.heapPtr ∨ (h.sbrk n page).2 = page) := by
  unfold Heap.sbrk
  dsimp only
  split_ifs
  · exact ⟨rfl, rfl, Or.inr rfl⟩
  · exact ⟨rfl, rfl, Or.inl rfl⟩

namespace Ok

lemma extendHeap_size {blk : ℕ} (hok : h.Ok bs) (habove : ∀ c ∈ h.chunks, c.1 + c.2 ≤ page)
    (hn : n < 2 ^ 64) (hcall : h.extendHeap n page = some (h', blk)) (hblk : blk ≠ 0) :
    h.heapPtr ≤ blk ∧ sizeAt h'.mem blk = n := by
  obtain ⟨hmem, hhead, hres⟩ := sbrk_frame h (u64 (headerSize + n)) page
  rw [Heap.extendHeap] at hcall
  generalize h.sbrk (u64 (headerSize + n)) page = r at hcall hmem hhead hres
  obtain ⟨h₁, blk₁⟩ := r
  dsimp only at hcall hmem hhead hres
  have hle : h.heapPtr ≤ blk₁ := by
    rcases hres with rfl | rfl
    · exact le_rfl
    · exact hok.heapPtr_le_page habove
  rw [hmem, hhead] at hcall
  split_ifs at hcall with hzero hempty
  · obtain ⟨-, rfl⟩ := by simpa using hcall
    exact absurd rfl hblk
  · obtain ⟨rfl, rfl⟩ := by simpa using hcall
    exact ⟨hle, sizeAt_setHeader hn⟩
  · have hbs : bs ≠ [] := fun hnil => hempty (hok.head_eq_zero_iff.2 hnil)
    have hlist : ListAt (setHeader h.mem blk₁ n false 0) h.head bs h.heapPtr :=
      hok.setHeader_above hle
    obtain ⟨pre, last, rfl, hlast⟩ := lastBlock hlist hbs
    simp only [hlast, bind_eq_bind, bind_some, some.injEq,
      Prod.mk.injEq] at hcall
    obtain ⟨rfl, rfl⟩ := hcall
    refine ⟨hle, Eq.trans (sizeAt_congr fun x hx => setNext_header x fun hx' => ?_)
      (sizeAt_setHeader hn)⟩
    have hfin := (hok.list.laid.bounds (b := last) (by simp)).2
    unfold fin at hfin
    unfold Within at hx hx'
    omega

/-- What `malloc` returns: a block that records at least the size asked for, and whose header is
apart from those of the blocks in use. -/
lemma mallocRounded_size (hok : h.Ok bs) (habove : ∀ c ∈ h.chunks, c.1 + c.2 ≤ page)
    (hn : n < 2 ^ 64) (hcall : h.mallocRounded n page = some (h', ptr)) (hptr : ptr ≠ 0) :
    ∃ blk, ptr = blk + headerSize ∧ n ≤ sizeAt h'.mem blk ∧
      ∀ b ∈ used bs, ∀ x, Within blk headerSize x → ¬Within b.addr headerSize x := by
  have hnil : Seg h.mem h.head [] h.head := rfl
  rw [Heap.mallocRounded] at hcall
  rcases ListAt.search (n := n) hnil hok.list.seg hok.list.laid hok.list.hi_lt
    hok.list.length_lt with ⟨hfind, -⟩ | ⟨mid, c, post, mem₁, rfl, hfree, -, -, hsize, hfind⟩
  · simp only [hfind, bind_eq_bind, bind_some, ne_eq, not_true_eq_false,
      if_false, bind_eq_some_iff] at hcall
    obtain ⟨⟨h₁, blk⟩, hext, hcall⟩ := hcall
    split_ifs at hcall with hzero
    · obtain ⟨-, rfl⟩ := by simpa using hcall
      exact absurd rfl hptr
    · obtain ⟨rfl, rfl⟩ := by simpa using hcall
      obtain ⟨hle, hblk⟩ := hok.extendHeap_size habove hn hext hzero
      refine ⟨blk, rfl, hblk.ge, fun b hb x hx hx' => ?_⟩
      have hfin := (hok.list.laid.bounds (mem_used.1 hb).1).2
      unfold fin at hfin
      unfold Within at hx hx'
      omega
  · simp only [hfind, bind_eq_bind, bind_some, if_pos payload_ne,
      some.injEq, Prod.mk.injEq] at hcall
    obtain ⟨rfl, rfl⟩ := hcall
    refine ⟨c.addr, rfl, ?_, fun b hb x hx hx' => ?_⟩
    · rw [sizeAt_setFree]
      exact le_sizeAt_split hsize
    · obtain ⟨hmem, hused⟩ := mem_used.1 hb
      have hapart := hok.list.laid.apart hmem (c := c) (by simp)
      unfold fin at hapart
      unfold Within at hx hx'
      rcases hapart with rfl | hapart | hapart
      · simp [hfree] at hused
      · omega
      · omega

end Ok

lemma roundUp_lt : roundUp size < 2 ^ 64 := by
  have hlt : u64 (size + 7) < 2 ^ 64 := Nat.mod_lt _ (by norm_num)
  unfold roundUp
  omega

namespace Ok

lemma malloc_size (hok : h.Ok bs) (habove : ∀ c ∈ h.chunks, c.1 + c.2 ≤ page)
    (hn : n + 7 < 2 ^ 64) (hcall : h.malloc n page = some (h', ptr)) (hptr : ptr ≠ 0) :
    ∃ blk, ptr = blk + headerSize ∧ roundUp n ≤ sizeAt h'.mem blk ∧
      ∀ b ∈ used bs, ∀ x, Within blk headerSize x → ¬Within b.addr headerSize x := by
  rw [Heap.malloc] at hcall
  split_ifs at hcall with hzero
  · obtain ⟨-, rfl⟩ := by simpa using hcall
    exact absurd rfl hptr
  · exact hok.mallocRounded_size habove roundUp_lt hcall hptr

lemma moveBlock_size (hok : h.Ok bs) (hb : b ∈ used bs)
    (habove : ∀ c ∈ h.chunks, c.1 + c.2 ≤ page) (hn : n + 7 < 2 ^ 64)
    (hcall : h.moveBlock (b.addr + headerSize) n page = some (h', ptr)) (hptr : ptr ≠ 0) :
    ∃ blk, ptr = blk + headerSize ∧ roundUp n ≤ sizeAt h'.mem blk := by
  simp only [Heap.moveBlock, bind_eq_bind, bind_eq_some_iff,
    Nat.add_sub_cancel] at hcall
  obtain ⟨⟨h₁, newPtr⟩, hmalloc, hcall⟩ := hcall
  split_ifs at hcall with hzero
  · obtain ⟨-, rfl⟩ := by simpa using hcall
    exact absurd rfl hptr
  obtain ⟨h₂, hfree, hcall⟩ := bind_eq_some_iff.1 hcall
  obtain ⟨rfl, rfl⟩ := by simpa using hcall
  obtain ⟨blk, rfl, hsize, hapart⟩ := hok.malloc_size habove hn hmalloc hzero
  refine ⟨blk, rfl, hsize.trans_eq (Eq.symm ?_)⟩
  simp only [Heap.free, if_neg payload_ne, Nat.add_sub_cancel, bind_eq_bind,
    bind_eq_some_iff] at hfree
  obtain ⟨mem, hco, hfree⟩ := hfree
  obtain rfl := some.inj hfree
  -- the copy goes to the payload, and the old header is apart from the new one
  refine sizeAt_congr fun x hx => ?_
  have hout := hapart b hb x hx
  have hcopy : ¬Within (blk + headerSize) (min (sizeAt h₁.mem b.addr) n) x := by
    unfold Within at hx ⊢
    omega
  exact (eqOff_coalesceLoop hco x hout).trans ((setFree_header x hout).trans
    (eqOff_copyBytes x hcopy))

lemma realloc_size (hok : h.Ok bs) (hb : b ∈ used bs)
    (habove : ∀ c ∈ h.chunks, c.1 + c.2 ≤ page) (hn : n + 7 < 2 ^ 64)
    (hcall : h.realloc (b.addr + headerSize) n page = some (h', ptr)) (hptr : ptr ≠ 0) :
    ∃ blk, ptr = blk + headerSize ∧ roundUp n ≤ sizeAt h'.mem blk := by
  simp only [Heap.realloc, if_neg payload_ne, Nat.add_sub_cancel] at hcall
  split_ifs at hcall with hzero hfits
  · obtain ⟨_, -, hcall⟩ := bind_eq_some_iff.1 hcall
    obtain ⟨-, rfl⟩ := by simpa using hcall
    exact absurd rfl hptr
  · obtain ⟨rfl, rfl⟩ := by simpa using hcall
    exact ⟨b.addr, rfl, le_sizeAt_split hfits⟩
  obtain ⟨mem, hco, hcall⟩ := bind_eq_some_iff.1 hcall
  split_ifs at hcall with hfits₁
  · obtain ⟨rfl, rfl⟩ := by simpa using hcall
    exact ⟨b.addr, rfl, le_sizeAt_split hfits₁⟩
  obtain ⟨mem', bs₁, b₁, hco', haddr, hgrow, -⟩ := hok.coalesce page hb
  obtain rfl : mem = mem' := some.inj (hco.symm.trans hco')
  obtain ⟨others, -, hothers, -⟩ := hgrow.used
  have hb₁ : b₁ ∈ used bs₁ := hothers.mem_iff.2 mem_cons_self
  have hround : roundUp n + 7 < 2 ^ 64 := by
    rw [roundUp, u64_of_lt hn]
    omega
  rw [← haddr] at hcall
  obtain ⟨blk, hblk, hsize⟩ := hgrow.ok.moveBlock_size hb₁ habove hround hcall hptr
  rw [roundUp_roundUp hround] at hsize
  exact ⟨blk, hblk, hsize⟩

end Ok

end Heap

end User

end CobjOs
