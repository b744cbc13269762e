import CobjOs.Properties.UserHeap

/-!
# The regions of a user program

A program that uses the allocator and maps regions of its own, with the kernel's side of
`mmap(0, n)`: the regions follow each other from `heap_top`, which starts at `0x10000000`.

`coalesce` joins neighbours of the list without asking whether they are neighbours in memory.  If
the program maps a region between two regions of the allocator, a joined block can reach into it.
As long as no region of the program is followed by one of the allocator, the allocator's regions
tile the addresses from `head` on, and every block lies in them.
-/

namespace CobjOs

open List Option

namespace User

open Block Mem

/-- The program, the kernel's `heap_top` for it, and the regions it has mapped for itself. -/
structure Space where
  prog : Prog
  heapTop : ℕ
  own : List (ℕ × ℕ)

/-- What the program does: calls, regions of its own, and writes into them. -/
inductive SpaceAct
  | call (a : Act)
  | mmap (size : ℕ)
  | store (addr : ℕ) (value : UInt8)
  deriving DecidableEq

/-- The end of the pages that `sys_mmap` maps for a region. -/
def regionEnd (r : ℕ × ℕ) : ℕ := r.1 + (r.2 + 4095) / 4096 * 4096

/-- The address is in the pages of the region. -/
def InRegion (r : ℕ × ℕ) (x : ℕ) : Prop := r.1 ≤ x ∧ x < regionEnd r

instance (r : ℕ × ℕ) (x : ℕ) : Decidable (InRegion r x) := inferInstanceAs (Decidable (_ ∧ _))

/-- `heap_top` after a call that may have mapped one more region. -/
def topAfter (top : ℕ) (old : List (ℕ × ℕ)) : List (ℕ × ℕ) → ℕ
  | [] => top
  | c :: cs => if cs = old then regionEnd c else top

namespace Space

/-- A new process. -/
def start (mem : Mem) : Space := { prog := .start mem, heapTop := 0x10000000, own := [] }

def step (s : Space) : SpaceAct → Option Space
  | .call a => (s.prog.step (a, s.heapTop)).map fun p =>
      { s with prog := p, heapTop := topAfter s.heapTop s.prog.heap.chunks p.heap.chunks }
  | .mmap size => some { s with
      heapTop := regionEnd (s.heapTop, size), own := (s.heapTop, size) :: s.own }
  | .store addr value =>
      some { s with prog.heap.mem := s.prog.heap.mem.write addr [value] }

/-- The calls are used as intended, no sum wraps, and the program writes into its own bytes. -/
def Ok (s : Space) : SpaceAct → Prop
  | .call a => s.prog.Ok (a, s.heapTop)
  | .mmap size => s.heapTop + size + 4095 < 2 ^ 64
  | .store addr _ => ∃ r ∈ s.own, Within r.1 r.2 addr

/-- A request that does not fit the allocator's last region is made only while that region is the
last one of the program. -/
def Adjacent (s : Space) : SpaceAct → Prop
  | .call a => a.request ≠ 0 → s.prog.heap.Full (roundUp a.request) →
      ∀ c ∈ s.prog.heap.chunks.head?, regionEnd c = s.heapTop
  | .mmap _ | .store _ _ => True

instance (s : Space) : (a : SpaceAct) → Decidable (s.Ok a)
  | .call a => inferInstanceAs (Decidable (s.prog.Ok (a, s.heapTop)))
  | .mmap size => inferInstanceAs (Decidable (s.heapTop + size + 4095 < 2 ^ 64))
  | .store addr _ => inferInstanceAs (Decidable (∃ r ∈ s.own, Within r.1 r.2 addr))

instance (s : Space) : (a : SpaceAct) → Decidable (s.Adjacent a)
  | .call a => inferInstanceAs (Decidable (a.request ≠ 0 → s.prog.heap.Full (roundUp a.request) →
      ∀ c ∈ s.prog.heap.chunks.head?, regionEnd c = s.heapTop))
  | .mmap _ | .store _ _ => inferInstanceAs (Decidable True)

end Space

/-! ## Regions one behind the other -/

/-- The regions, the newest first, fill the addresses from `lo` to `hi`. -/
def Tiles : List (ℕ × ℕ) → ℕ → ℕ → Prop
  | [], lo, hi => lo = hi
  | c :: cs, lo, hi => hi = regionEnd c ∧ Tiles cs lo c.1

lemma Tiles.covers {rs : List (ℕ × ℕ)} {lo hi x : ℕ} (h : Tiles rs lo hi) (hlo : lo ≤ x)
    (hhi : x < hi) : ∃ r ∈ rs, InRegion r x := by
  induction rs generalizing hi with
  | nil =>
    have heq : lo = hi := h
    omega
  | cons r rs ih =>
    obtain ⟨rfl, hrest⟩ := h
    by_cases hx : x < r.1
    · obtain ⟨r', hr', hin⟩ := ih hrest hx
      exact ⟨r', mem_cons_of_mem _ hr', hin⟩
    · exact ⟨r, mem_cons_self, not_lt.1 hx, hhi⟩

lemma le_regionEnd (r : ℕ × ℕ) : r.1 + r.2 ≤ regionEnd r := by
  unfold regionEnd
  omega

/-- A request of no bytes maps nothing. -/
lemma Prog.chunks_of_request_zero {s s' : Prog} {a : Act} {page : ℕ} (hreq : a.request = 0)
    (hs : s.step (a, page) = some s') : s'.heap.chunks = s.heap.chunks := by
  have hfree : ∀ ptr h, s.heap.free ptr = some h → h.chunks = s.heap.chunks := by
    intro ptr h hcall
    rw [Heap.free] at hcall
    split_ifs at hcall
    · exact some.inj hcall ▸ rfl
    · obtain ⟨mem, -, hcall⟩ := bind_eq_some_iff.1 hcall
      exact some.inj hcall ▸ rfl
  cases a with
  | malloc size =>
    obtain rfl : size = 0 := hreq
    exact some.inj hs ▸ rfl
  | calloc nmemb size =>
    have hzero : nmemb * size = 0 := hreq
    simp only [step, Heap.calloc, Heap.malloc, hzero, u64, Nat.zero_mod, if_true] at hs
    exact some.inj hs ▸ rfl
  | realloc ptr size =>
    obtain rfl : size = 0 := hreq
    obtain ⟨⟨h, p⟩, hcall, rfl⟩ := map_eq_some_iff.1 hs
    by_cases hptr : ptr = 0
    · rw [Heap.realloc, if_pos hptr] at hcall
      obtain rfl : s.heap = h := congrArg Prod.fst (some.inj hcall)
      rfl
    · rw [Heap.realloc, if_neg hptr, if_pos rfl] at hcall
      obtain ⟨h₁, hfreed, heq⟩ := bind_eq_some_iff.1 hcall
      obtain rfl : h₁ = h := congrArg Prod.fst (some.inj heq)
      exact hfree ptr h₁ hfreed
  | free ptr =>
    obtain ⟨h, hcall, rfl⟩ := map_eq_some_iff.1 hs
    exact hfree ptr h hcall
  | store addr value => exact some.inj hs ▸ rfl

namespace Space

/-- The invariant of a run: the allocator's, and where the regions are. -/
structure Inv (s : Space) (bs : List Block) : Prop where
  prog : s.prog.Inv bs
  top : s.heapTop ≠ 0
  below : ∀ r ∈ s.prog.heap.chunks ++ s.own, regionEnd r ≤ s.heapTop
  apart : ∀ r ∈ s.own, ∀ c ∈ s.prog.heap.chunks, regionEnd r ≤ c.1 ∨ regionEnd c ≤ r.1
  tiles : (s.prog.heap.head = 0 ∧ s.prog.heap.chunks = []) ∨
    (s.prog.heap.head ≠ 0 ∧ s.prog.heap.chunks ≠ [] ∧
      ∃ hi, Tiles s.prog.heap.chunks s.prog.heap.head hi ∧ s.prog.heap.heapEnd ≤ hi)

variable {s s' : Space} {bs : List Block}

lemma inv_start (mem : Mem) : (start mem).Inv [] where
  prog := Prog.inv_start mem
  top := by
    show (0x10000000 : ℕ) ≠ 0
    decide
  below := by simp [start, Prog.start]
  apart := by simp [start]
  tiles := Or.inl ⟨rfl, rfl⟩

namespace Inv

lemma call {a : Act} (hinv : s.Inv bs) (hok : s.Ok (.call a)) (hadj : s.Adjacent (.call a))
    (hs : s.step (.call a) = some s') : ∃ bs', s'.Inv bs' := by
  obtain ⟨p, bs', hp, hinv', hreg⟩ := hinv.prog.step hok
  have hs' : { s with
      prog := p, heapTop := topAfter s.heapTop s.prog.heap.chunks p.heap.chunks } = s' := by
    rw [step, hp] at hs
    exact some.inj hs
  subst hs'
  refine ⟨bs', ?_⟩
  have hsame : p.heap.chunks = s.prog.heap.chunks →
      topAfter s.heapTop s.prog.heap.chunks p.heap.chunks = s.heapTop := by
    intro heq
    rw [heq]
    cases hc : s.prog.heap.chunks with
    | nil => rfl
    | cons c cs => exact if_neg fun hcs => cons_ne_self c cs hcs.symm
  cases hreg with
  | same hchunks hend hhead =>
    refine ⟨hinv', ?_, ?_, ?_, ?_⟩ <;> dsimp only
    · rw [hsame hchunks]
      exact hinv.top
    · rw [hsame hchunks, hchunks]
      exact hinv.below
    · rw [hchunks]
      exact hinv.apart
    · rw [hchunks, hend, hhead]
      exact hinv.tiles
  | more hfull hchunks hend hhead =>
    have hreq : a.request ≠ 0 := by
      intro hzero
      have heq := Prog.chunks_of_request_zero hzero hp
      rw [hchunks] at heq
      exact cons_ne_self _ _ heq
    set r : ℕ × ℕ := (s.heapTop, headerSize + roundUp a.request + 4096) with hr
    have htop : topAfter s.heapTop s.prog.heap.chunks p.heap.chunks = regionEnd r := by
      rw [hchunks]
      exact if_pos rfl
    have hle : s.heapTop ≤ regionEnd r := (Nat.le_add_right _ _).trans (le_regionEnd r)
    refine ⟨hinv', ?_, ?_, ?_, Or.inr ⟨?_, ?_, regionEnd r, ?_, ?_⟩⟩ <;> dsimp only
    · rw [htop]
      exact fun hzero => hinv.top (Nat.le_zero.1 (hzero ▸ hle))
    · rw [htop, hchunks]
      intro c hc
      rcases mem_cons.1 hc with rfl | hc
      · exact le_rfl
      · exact (hinv.below c hc).trans hle
    · rw [hchunks]
      intro o ho c hc
      rcases mem_cons.1 hc with rfl | hc
      · exact Or.inl (hinv.below o (mem_append_right _ ho))
      · exact hinv.apart o ho c hc
    · rw [hhead]
      split_ifs with hzero
      · exact hinv.top
      · exact hzero
    · rw [hchunks]
      exact cons_ne_nil _ _
    · rw [hchunks, hhead]
      refine ⟨rfl, ?_⟩
      rcases hinv.tiles with ⟨hzero, hnil⟩ | ⟨hne, hsome, hi, htiles, -⟩
      · rw [if_pos hzero, hnil]
        rfl
      · -- the new region begins where the last one of the allocator ends
        rw [if_neg hne]
        have hlast := hadj hreq hfull
        cases hc : s.prog.heap.chunks with
        | nil => exact absurd hc hsome
        | cons c cs =>
          rw [hc] at htiles hlast
          have hend : regionEnd c = s.heapTop := hlast c rfl
          exact ⟨hend.symm, htiles.2⟩
    · rw [hend]
      exact le_regionEnd r

lemma mmap {size : ℕ} (hinv : s.Inv bs) :
    Inv { s with heapTop := regionEnd (s.heapTop, size), own := (s.heapTop, size) :: s.own } bs := by
  have hle : s.heapTop ≤ regionEnd (s.heapTop, size) := Nat.le_add_right _ _
  refine ⟨hinv.prog, ?_, ?_, ?_, hinv.tiles⟩ <;> dsimp only
  · exact fun hzero => hinv.top (Nat.le_zero.1 (hzero ▸ hle))
  · intro r hr
    rcases mem_append.1 hr with hr | hr
    · exact (hinv.below r (mem_append_left _ hr)).trans hle
    · rcases mem_cons.1 hr with rfl | hr
      · exact le_rfl
      · exact (hinv.below r (mem_append_right _ hr)).trans hle
  · intro r hr c hc
    rcases mem_cons.1 hr with rfl | hr
    · exact Or.inr (hinv.below c (mem_append_left _ hc))
    · exact hinv.apart r hr c hc

/-- Every byte of a block is in a region of the allocator. -/
lemma in_region (hinv : s.Inv bs) {b : Block} (hb : b ∈ bs) {x : ℕ}
    (hx : Within b.addr (headerSize + b.size) x) : ∃ c ∈ s.prog.heap.chunks, InRegion c x := by
  have hheap := hinv.prog.heap
  rcases hinv.tiles with ⟨hzero, -⟩ | ⟨-, -, hi, htiles, hend⟩
  · rw [hheap.head_eq_zero_iff.1 hzero] at hb
    cases hb
  · have hfin := (hheap.list.laid.bounds hb).2
    have hle := hheap.ptr_le
    unfold fin at hfin
    unfold Within at hx
    refine htiles.covers ((hheap.head_le hb).trans hx.1) ?_
    omega

/-- No region of the program meets one of the allocator. -/
lemma not_own (hinv : s.Inv bs) {c r : ℕ × ℕ} (hc : c ∈ s.prog.heap.chunks) (hr : r ∈ s.own)
    {x : ℕ} (hx : InRegion c x) : ¬InRegion r x := by
  rintro ⟨hlo, hhi⟩
  obtain ⟨hlo', hhi'⟩ := hx
  rcases hinv.apart r hr c hc with h | h <;> omega

lemma store (hinv : s.Inv bs) {addr : ℕ} (value : UInt8)
    (hown : ∃ r ∈ s.own, Within r.1 r.2 addr) :
    Inv { s with prog.heap.mem := s.prog.heap.mem.write addr [value] } bs := by
  obtain ⟨r, hr, hin⟩ := hown
  have hlist := hinv.prog.heap.list
  have hoff : EqOff (fun x => x = addr) s.prog.heap.mem (s.prog.heap.mem.write addr [value]) :=
    EqOff.write _ fun x hx => by
      simp only [Within, length_singleton] at hx
      omega
  have hlist' : ListAt (s.prog.heap.mem.write addr [value]) s.prog.heap.head bs
      s.prog.heap.heapPtr := by
    refine ⟨hlist.seg.congr fun b hb x hx => hoff x ?_, hlist.laid, hlist.hi_lt⟩
    rintro rfl
    have hx' : Within b.addr (headerSize + b.size) x := by
      unfold Within at hx ⊢
      omega
    obtain ⟨c, hc, hcx⟩ := hinv.in_region hb hx'
    exact hinv.not_own hc hr hcx ⟨hin.1, hin.2.trans_le (le_regionEnd r)⟩
  exact ⟨⟨hinv.prog.heap.with_mem hlist' rfl, hinv.prog.ledger⟩, hinv.top, hinv.below, hinv.apart,
    hinv.tiles⟩

lemma step {a : SpaceAct} (hinv : s.Inv bs) (hok : s.Ok a) (hadj : s.Adjacent a)
    (hs : s.step a = some s') : ∃ bs', s'.Inv bs' := by
  cases a with
  | call a => exact hinv.call hok hadj hs
  | mmap size => exact ⟨bs, some.inj hs ▸ hinv.mmap⟩
  | store addr value => exact ⟨bs, some.inj hs ▸ hinv.store value hok⟩

end Inv

end Space

/-! ## Whole runs -/

/-- If a request that needs a new region is only made while the program has mapped nothing behind
the allocator's last region, then in every state that the run reaches each byte of each block on
the list, its header included, lies in a region that `sbrk` obtained, and in no region that the
program mapped for itself; in particular no byte of a pointer in use does. -/
theorem blocks_lie_in_allocator_regions {mem : Mem} {ls : List SpaceAct} {s : Space}
    (hrun : Run Space.step (fun s a => s.Ok a ∧ s.Adjacent a) (Space.start mem) ls s) :
    ∃ bs, Seg s.prog.heap.mem s.prog.heap.head bs 0 ∧
      (∀ b ∈ bs, ∀ x, Within b.addr (headerSize + b.size) x →
        (∃ c ∈ s.prog.heap.chunks, InRegion c x) ∧ ∀ r ∈ s.own, ¬InRegion r x) ∧
      (∀ e ∈ s.prog.live, ∀ x, Within e.1 e.2 x →
        (∃ c ∈ s.prog.heap.chunks, InRegion c x) ∧ ∀ r ∈ s.own, ¬InRegion r x) ∧
      ∀ a, s.Ok a → (s.step a).isSome := by
  obtain ⟨bs, hinv⟩ : ∃ bs, s.Inv bs := by
    refine Run.invariant (I := fun s => ∃ bs, Space.Inv s bs) ⟨_, Space.inv_start mem⟩ ?_ hrun
    exact fun s a s' ⟨bs, hinv⟩ hok hs => hinv.step hok.1 hok.2 hs
  have hblocks : ∀ b ∈ bs, ∀ x, Within b.addr (headerSize + b.size) x →
      (∃ c ∈ s.prog.heap.chunks, InRegion c x) ∧ ∀ r ∈ s.own, ¬InRegion r x := by
    intro b hb x hx
    obtain ⟨c, hc, hcx⟩ := hinv.in_region hb hx
    exact ⟨⟨c, hc, hcx⟩, fun r hr => hinv.not_own hc hr hcx⟩
  refine ⟨bs, hinv.prog.heap.list.seg, hblocks, fun e he x hx => ?_, fun a hok => ?_⟩
  · obtain ⟨b, others, hperm, hptr, hle⟩ := hinv.prog.ledger.block he
    have hb : b ∈ bs := (mem_used.1 (hperm.mem_iff.2 mem_cons_self)).1
    refine hblocks b hb x ?_
    unfold Within at hx ⊢
    omega
  · cases a with
    | call a =>
      obtain ⟨p, -, hp, -⟩ := hinv.prog.step hok
      rw [Space.step, hp]
      rfl
    | mmap size => rfl
    | store addr value => rfl

/-- The program maps a region and writes to it while the allocator's region has room for two
blocks, which are then joined. -/
theorem blocks_lie_in_allocator_regions_joined : ∃ s,
    Run Space.step (fun s a => s.Ok a ∧ s.Adjacent a) (Space.start fun _ => 0xff)
      [.call (.malloc 8), .mmap 4096, .store 0x10002010 1, .call (.malloc 500),
        .call (.free 0x10000038), .call (.realloc 0x10000018 400)] s ∧
    s.own = [(0x10002000, 4096)] ∧ s.prog.live = [(0x10000018, 400)] ∧
    ∀ x, Within 0x10000018 400 x → ¬InRegion (0x10002000, 4096) x := by
  obtain ⟨s, hrun, hP⟩ : ∃ s,
      Run Space.step (fun s a => s.Ok a ∧ s.Adjacent a) (Space.start fun _ => 0xff)
        [.call (.malloc 8), .mmap 4096, .store 0x10002010 1, .call (.malloc 500),
          .call (.free 0x10000038), .call (.realloc 0x10000018 400)] s ∧
      decide (s.own = [(0x10002000, 4096)] ∧ s.prog.live = [(0x10000018, 400)]) = true :=
    Run.exists_of_exec (fun s a => decide (s.Ok a ∧ s.Adjacent a)) (fun _ _ => of_decide_eq_true) _
      (by decide +kernel) (by decide +kernel)
  obtain ⟨hown, hlive⟩ := of_decide_eq_true hP
  obtain ⟨bs, -, -, hptrs, -⟩ := blocks_lie_in_allocator_regions hrun
  refine ⟨s, hrun, hown, hlive, fun x hx => ?_⟩
  exact (hptrs (0x10000018, 400) (by simp [hlive]) x hx).2 _ (by simp [hown])

/-- The program maps a region behind the allocator's first region, the allocator gets a second one
behind it, and the blocks of both are freed, the second first.  The joined block then serves a
request of 8224 bytes, whose last bytes are in the program's own region. -/
theorem joined_block_covers_own_region : ∃ s,
    Run Space.step Space.Ok (Space.start fun _ => 0)
      [.call (.malloc 8), .mmap 4096, .call (.malloc 8192), .call (.free 0x10003018),
        .call (.free 0x10000018), .call (.malloc 8224)] s ∧
    s.own = [(0x10002000, 4096)] ∧ s.prog.live = [(0x10000018, 8224)] ∧
    Within 0x10000018 8224 0x10002000 ∧ InRegion (0x10002000, 4096) 0x10002000 ∧
    ∀ c ∈ s.prog.heap.chunks, ¬InRegion c 0x10002000 := by
  obtain ⟨s, hrun, hP⟩ : ∃ s, Run Space.step Space.Ok (Space.start fun _ => 0)
      [.call (.malloc 8), .mmap 4096, .call (.malloc 8192), .call (.free 0x10003018),
        .call (.free 0x10000018), .call (.malloc 8224)] s ∧
      decide (s.own = [(0x10002000, 4096)] ∧ s.prog.live = [(0x10000018, 8224)] ∧
        ∀ c ∈ s.prog.heap.chunks, ¬InRegion c 0x10002000) = true :=
    Run.exists_of_exec (fun s a => decide (s.Ok a)) (fun _ _ => of_decide_eq_true) _
      (by decide +kernel) (by decide +kernel)
  obtain ⟨hown, hlive, hchunks⟩ := of_decide_eq_true hP
  exact ⟨s, hrun, hown, hlive, by decide, by decide, hchunks⟩

end User

end CobjOs
