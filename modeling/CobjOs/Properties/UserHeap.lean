import CobjOs.Framework.Transition
import CobjOs.User.HeapSpec

/-!
# The heap of a user program

A program calls the allocator and writes into the bytes it asked for.  The ledger `live` holds the
pointers it was given and has not freed, with the requested sizes.

In every state such a run reaches, the list from `head` is in the order of addresses without
overlaps, its blocks in use are those of the ledger, and its bytes are those that `sbrk` handed out.
The kernel's answers to `mmap` are only assumed to be behind the regions it gave before.
-/

namespace CobjOs

open List

namespace User

open Block Mem

/-- What a program does with its heap. -/
inductive Act
  | malloc (size : ℕ)
  | calloc (nmemb size : ℕ)
  | realloc (ptr size : ℕ)
  | free (ptr : ℕ)
  | store (addr : ℕ) (value : UInt8)
  deriving DecidableEq

/-- The bytes that an action asks for. -/
def Act.request : Act → ℕ
  | .malloc size => size
  | .calloc nmemb size => nmemb * size
  | .realloc _ size => size
  | .free _ | .store _ _ => 0

/-- The heap, and the pointers in use with the sizes asked for. -/
structure Prog where
  heap : Heap
  live : List (ℕ × ℕ)

namespace Prog

/-- A program that has not called the allocator. -/
def start (mem : Mem) : Prog :=
  { heap := { mem := mem, heapPtr := 0, heapEnd := 0, head := 0, handed := 0, chunks := [] }
    live := [] }

/-- The ledger without the pointer. -/
def drop (live : List (ℕ × ℕ)) (ptr : ℕ) : List (ℕ × ℕ) := live.eraseP fun e => e.1 == ptr

/-- The ledger with the answer to a request. -/
def give (live : List (ℕ × ℕ)) (ptr size : ℕ) : List (ℕ × ℕ) :=
  if ptr = 0 then live else (ptr, size) :: live

/-- One action; `page` is the kernel's answer if `mmap` is called. -/
def step (s : Prog) : Act × ℕ → Option Prog
  | (.malloc size, page) => (s.heap.malloc size page).map fun (h, p) => ⟨h, give s.live p size⟩
  | (.calloc nmemb size, page) =>
      (s.heap.calloc nmemb size page).map fun (h, p) => ⟨h, give s.live p (nmemb * size)⟩
  | (.realloc ptr size, page) => (s.heap.realloc ptr size page).map fun (h, p) =>
      ⟨h, if p = 0 ∧ size ≠ 0 then s.live else give (drop s.live ptr) p size⟩
  | (.free ptr, _) => (s.heap.free ptr).map fun h => ⟨h, drop s.live ptr⟩
  | (.store addr value, _) =>
      some { s with heap := { s.heap with mem := s.heap.mem.write addr [value] } }

/-- A request of `size` bytes does not wrap, and `mmap` answers it with a new region. -/
def Asks (s : Prog) (size page : ℕ) : Prop :=
  size + 7 < 2 ^ 64 ∧ s.heap.Fits (roundUp size) page

/-- A pointer in use. -/
def Held (s : Prog) (ptr : ℕ) : Prop := ∃ n, (ptr, n) ∈ s.live

/-- Only pointers in use are freed or resized, and writes stay inside the requested bytes. -/
def Ok (s : Prog) : Act × ℕ → Prop
  | (.malloc size, page) => s.Asks size page
  | (.calloc nmemb size, page) => s.Asks (nmemb * size) page
  | (.realloc ptr size, page) => (ptr = 0 ∨ s.Held ptr) ∧ s.Asks size page
  | (.free ptr, _) => ptr = 0 ∨ s.Held ptr
  | (.store addr _, _) => ∃ e ∈ s.live, Within e.1 e.2 addr

end Prog

/-! ## The ledger and the blocks in use -/

/-- The entries of the ledger are the blocks, each with no more than its size. -/
def Ledger (live : List (ℕ × ℕ)) (us : List Block) : Prop :=
  ∃ vs, vs.Perm us ∧ List.Forall₂ (fun e b => e.1 = b.addr + headerSize ∧ e.2 ≤ b.size) live vs

namespace Ledger

variable {live : List (ℕ × ℕ)} {us vs : List Block} {b : Block} {n ptr : ℕ}

lemma perm (h : Ledger live us) (hperm : us.Perm vs) : Ledger live vs := by
  obtain ⟨ws, hws, hall⟩ := h
  exact ⟨ws, hws.trans hperm, hall⟩

lemma add (h : Ledger live us) (hn : n ≤ b.size) :
    Ledger ((b.addr + headerSize, n) :: live) (b :: us) := by
  obtain ⟨ws, hws, hall⟩ := h
  exact ⟨b :: ws, hws.cons b, .cons ⟨rfl, hn⟩ hall⟩

lemma split {l₁ l₂ : List (ℕ × ℕ)} {e : ℕ × ℕ} (h : Ledger (l₁ ++ e :: l₂) us) :
    ∃ b others, us.Perm (b :: others) ∧ e.1 = b.addr + headerSize ∧ e.2 ≤ b.size ∧
      Ledger (l₁ ++ l₂) others := by
  obtain ⟨vs, hvs, hall⟩ := h
  have h₁ := (forall₂_take_append _ _ _ hall.flip).flip
  have h₂ := (forall₂_drop_append _ _ _ hall.flip).flip
  obtain ⟨b, v₂, he, h₂, hdrop⟩ := forall₂_cons_left_iff.1 h₂
  have hsplit : vs.take l₁.length ++ b :: v₂ = vs := by rw [← hdrop, take_append_drop]
  refine ⟨b, vs.take l₁.length ++ v₂, ?_, he.1, he.2, _, .rfl, rel_append h₁ h₂⟩
  exact hvs.symm.trans ((List.Perm.of_eq hsplit.symm).trans perm_middle)

lemma block (h : Ledger live us) {e : ℕ × ℕ} (he : e ∈ live) :
    ∃ b others, us.Perm (b :: others) ∧ e.1 = b.addr + headerSize ∧ e.2 ≤ b.size := by
  obtain ⟨l₁, l₂, rfl⟩ := append_of_mem he
  obtain ⟨b, others, hperm, hptr, hle, -⟩ := h.split
  exact ⟨b, others, hperm, hptr, hle⟩

lemma held (h : Ledger live us) (hb : b ∈ us) : ∃ n, (b.addr + headerSize, n) ∈ live := by
  obtain ⟨vs, hperm, hall⟩ := h
  obtain ⟨v₁, v₂, rfl⟩ := append_of_mem (hperm.mem_iff.2 hb)
  obtain ⟨e, rest, he, -, hdrop⟩ :=
    forall₂_cons_right_iff.1 (forall₂_drop_append _ _ _ hall)
  have hmem : e ∈ live := mem_of_mem_drop (hdrop ▸ mem_cons_self)
  exact ⟨e.2, he.1 ▸ hmem⟩

/-- The null pointer is not in the ledger. -/
lemma drop_zero (h : Ledger live us) : Prog.drop live 0 = live := by
  refine eraseP_of_forall_not fun e he => ?_
  obtain ⟨b, -, -, hptr, -⟩ := h.block he
  rw [hptr, beq_iff_eq]
  exact Heap.payload_ne

lemma drop (h : Ledger live us) (hheld : ∃ n, (ptr, n) ∈ live) :
    ∃ b others, us.Perm (b :: others) ∧ ptr = b.addr + headerSize ∧
      Ledger (Prog.drop live ptr) others := by
  obtain ⟨n, hn⟩ := hheld
  obtain ⟨e, l₁, l₂, -, he, rfl, hdrop⟩ :=
    exists_of_eraseP (p := fun e : ℕ × ℕ => e.1 == ptr) hn (by simp)
  obtain ⟨b, others, hperm, hptr, -, hrest⟩ := h.split
  have hptr' : ptr = e.1 := (beq_iff_eq.1 he).symm
  refine ⟨b, others, hperm, hptr'.trans hptr, ?_⟩
  rw [Prog.drop, hdrop]
  exact hrest

end Ledger

namespace Prog

/-- The invariant of a run: the allocator's, and the ledger is what is in use. -/
structure Inv (s : Prog) (bs : List Block) : Prop where
  heap : s.heap.Ok bs
  ledger : Ledger s.live (used bs)

variable {s s' : Prog} {bs : List Block} {ptr size page : ℕ}

lemma inv_start (mem : Mem) : Inv (start mem) [] where
  heap := ⟨⟨rfl, le_rfl, by norm_num [start]⟩, le_rfl, by norm_num [start], rfl, fun _ => rfl,
    Or.inl rfl⟩
  ledger := ⟨[], .rfl, .nil⟩

namespace Inv

/-- A request that returns a new block. -/
lemma adds {h' : Heap} {bs' : List Block} {b : Block} (hinv : s.Inv bs)
    (hround : size + 7 < 2 ^ 64) (hadds : s.heap.Adds bs (roundUp size) page h' bs' b) :
    Inv ⟨h', give s.live (b.addr + headerSize) size⟩ bs' := by
  refine ⟨hadds.ok, ?_⟩
  rw [give, if_neg Heap.payload_ne]
  exact (hinv.ledger.add ((Heap.le_roundUp hround).trans hadds.size)).perm hadds.used.symm

lemma give_zero (hinv : s.Inv bs) : Inv ⟨s.heap, give s.live 0 size⟩ bs := ⟨hinv.heap, hinv.ledger⟩

lemma malloc (hinv : s.Inv bs) (hasks : s.Asks size page) :
    ∃ h' p bs', s.heap.malloc size page = some (h', p) ∧ Inv ⟨h', give s.live p size⟩ bs' ∧
      s.heap.Regions (roundUp size) page h' := by
  obtain ⟨hround, hfit⟩ := hasks
  by_cases hzero : size = 0
  · exact ⟨s.heap, 0, bs, by rw [Heap.malloc, if_pos hzero], hinv.give_zero, .same rfl rfl rfl⟩
  · obtain ⟨h', bs', b, hcall, hadds⟩ := hinv.heap.malloc hzero hfit
    exact ⟨h', _, bs', hcall, hinv.adds hround hadds, hadds.regions⟩

lemma calloc {nmemb : ℕ} (hinv : s.Inv bs) (hasks : s.Asks (nmemb * size) page) :
    ∃ h' p bs', s.heap.calloc nmemb size page = some (h', p) ∧
      Inv ⟨h', give s.live p (nmemb * size)⟩ bs' ∧
      s.heap.Regions (roundUp (nmemb * size)) page h' := by
  obtain ⟨hround, hfit⟩ := hasks
  by_cases hzero : nmemb * size = 0
  · have hcall : s.heap.calloc nmemb size page = some (s.heap, 0) := by
      simp [Heap.calloc, Heap.malloc, hzero, u64]
    exact ⟨s.heap, 0, bs, hcall, hinv.give_zero, .same rfl rfl rfl⟩
  · obtain ⟨h', bs', b, hcall, hadds⟩ := hinv.heap.calloc hzero hround hfit
    exact ⟨h', _, bs', hcall, hinv.adds hround hadds, hadds.regions⟩

lemma free (hinv : s.Inv bs) (hheld : ptr = 0 ∨ s.Held ptr) :
    ∃ mem bs', s.heap.free ptr = some { s.heap with mem := mem } ∧
      Inv ⟨{ s.heap with mem := mem }, drop s.live ptr⟩ bs' := by
  by_cases hzero : ptr = 0
  · subst hzero
    refine ⟨s.heap.mem, bs, if_pos rfl, hinv.heap, ?_⟩
    rw [hinv.ledger.drop_zero]
    exact hinv.ledger
  · obtain ⟨b, others, hperm, rfl, hrest⟩ := hinv.ledger.drop (hheld.resolve_left hzero)
    have hb : b ∈ used bs := hperm.mem_iff.2 mem_cons_self
    obtain ⟨mem, bs', hcall, hok, hused, -⟩ := hinv.heap.free hb
    exact ⟨mem, bs', hcall, hok, hrest.perm (hperm.symm.trans hused).cons_inv⟩

lemma realloc (hinv : s.Inv bs) (hheld : ptr = 0 ∨ s.Held ptr) (hasks : s.Asks size page) :
    ∃ h' p bs', s.heap.realloc ptr size page = some (h', p) ∧
      Inv ⟨h', if p = 0 ∧ size ≠ 0 then s.live else give (drop s.live ptr) p size⟩ bs' ∧
      s.heap.Regions (roundUp size) page h' := by
  by_cases hptr : ptr = 0
  · subst hptr
    obtain ⟨h', p, bs', hcall, hinv', hreg⟩ := hinv.malloc hasks
    refine ⟨h', p, bs', by rw [Heap.realloc, if_pos rfl, hcall], ?_, hreg⟩
    rw [hinv.ledger.drop_zero]
    split_ifs with hp
    · rw [hp.1] at hinv'
      exact hinv'
    · exact hinv'
  by_cases hzero : size = 0
  · obtain ⟨mem, bs', hcall, hinv'⟩ := hinv.free hheld
    refine ⟨{ s.heap with mem := mem }, 0, bs', ?_, ?_, .same rfl rfl rfl⟩
    · rw [Heap.realloc, if_neg hptr, if_pos hzero, hcall]
      rfl
    · rw [if_neg fun h => h.2 hzero]
      exact hinv'
  · obtain ⟨b, others, hperm, rfl, hrest⟩ := hinv.ledger.drop (hheld.resolve_left hptr)
    have hb : b ∈ used bs := hperm.mem_iff.2 mem_cons_self
    obtain ⟨hround, hfit⟩ := hasks
    obtain ⟨h', bs', b', hcall, hswap, -⟩ := hinv.heap.realloc hb hzero hfit
    refine ⟨h', _, bs', hcall, ⟨hswap.ok, ?_⟩, hswap.regions⟩
    obtain ⟨others', hperm', hused, -⟩ := hswap.used
    rw [if_neg fun h => Heap.payload_ne h.1, give, if_neg Heap.payload_ne]
    have hrest' := hrest.perm (hperm.symm.trans hperm').cons_inv
    exact (hrest'.add ((Heap.le_roundUp hround).trans hswap.size)).perm hused.symm

lemma store (hinv : s.Inv bs) {addr : ℕ} (value : UInt8)
    (hin : ∃ e ∈ s.live, Within e.1 e.2 addr) :
    Inv { s with heap := { s.heap with mem := s.heap.mem.write addr [value] } } bs := by
  obtain ⟨e, he, hin⟩ := hin
  obtain ⟨b, others, hperm, hptr, hle⟩ := hinv.ledger.block he
  have hb : b ∈ used bs := hperm.mem_iff.2 mem_cons_self
  have hoff : EqOff (Within (b.addr + headerSize) b.size) s.heap.mem
      (s.heap.mem.write addr [value]) := by
    refine EqOff.write _ fun x hx => ?_
    simp only [Within, length_singleton] at hx hin ⊢
    omega
  exact ⟨hinv.heap.with_mem (hinv.heap.list.write_payload (mem_used.1 hb).1 hoff) rfl, hinv.ledger⟩

/-- Every allowed action returns and keeps the invariant. -/
lemma step {a : Act} (hinv : s.Inv bs) (hok : s.Ok (a, page)) :
    ∃ s' bs', s.step (a, page) = some s' ∧ s'.Inv bs' ∧
      s.heap.Regions (roundUp a.request) page s'.heap := by
  cases a with
  | malloc size =>
    obtain ⟨h', p, bs', hcall, hinv', hreg⟩ := hinv.malloc hok
    exact ⟨_, bs', by rw [Prog.step, hcall]; rfl, hinv', hreg⟩
  | calloc nmemb size =>
    obtain ⟨h', p, bs', hcall, hinv', hreg⟩ := hinv.calloc hok
    exact ⟨_, bs', by rw [Prog.step, hcall]; rfl, hinv', hreg⟩
  | realloc ptr size =>
    obtain ⟨h', p, bs', hcall, hinv', hreg⟩ := hinv.realloc hok.1 hok.2
    exact ⟨_, bs', by rw [Prog.step, hcall]; rfl, hinv', hreg⟩
  | free ptr =>
    obtain ⟨mem, bs', hcall, hinv'⟩ := hinv.free hok
    exact ⟨_, bs', by rw [Prog.step, hcall]; rfl, hinv', .same rfl rfl rfl⟩
  | store addr value => exact ⟨_, bs, rfl, hinv.store value hok, .same rfl rfl rfl⟩

lemma within_of_entry {e : ℕ × ℕ} {b : Block} {x : ℕ}
    (h : e.1 = b.addr + headerSize ∧ e.2 ≤ b.size) (hx : Within e.1 e.2 x) :
    Within (b.addr + headerSize) b.size x := by
  unfold Within at hx ⊢
  omega

lemma pairwise (hinv : s.Inv bs) : s.live.Pairwise fun e f =>
    ∀ x, Within e.1 e.2 x → ¬Within f.1 f.2 x := by
  obtain ⟨vs, hperm, hall⟩ := hinv.ledger
  have hvs : vs.Pairwise fun b c => ∀ x, Within (b.addr + headerSize) b.size x →
      ¬Within (c.addr + headerSize) c.size x := by
    have hnodup : vs.Nodup :=
      hperm.nodup_iff.2 ((hinv.heap.list.laid.nodup (by decide)).filter _)
    refine hnodup.imp_of_mem fun {b c} hb hc hne x hx hx' => ?_
    have hmem : ∀ d ∈ vs, d ∈ bs := fun d hd => (mem_used.1 (hperm.mem_iff.1 hd)).1
    have hapart := hinv.heap.list.laid.apart (hmem b hb) (hmem c hc)
    unfold fin at hapart
    unfold Within at hx hx'
    rcases hapart with heq | hapart | hapart
    · exact hne heq
    · omega
    · omega
  rw [pairwise_iff_getElem] at hvs ⊢
  intro i j hi hj hij x hx hx'
  have hlen := hall.length_eq
  have hri := hall.get hi (hlen ▸ hi)
  have hrj := hall.get hj (hlen ▸ hj)
  refine hvs i j (hlen ▸ hi) (hlen ▸ hj) hij x ?_ ?_
  · exact within_of_entry hri hx
  · exact within_of_entry hrj hx'

lemma header_apart (hinv : s.Inv bs) {e : ℕ × ℕ} (he : e ∈ s.live) {b : Block} (hb : b ∈ bs)
    {x : ℕ} (hx : Within e.1 e.2 x) : ¬Within b.addr headerSize x := by
  intro hx'
  obtain ⟨c, others, hperm, hptr, hle⟩ := hinv.ledger.block he
  have hc : c ∈ bs := (mem_used.1 (hperm.mem_iff.2 mem_cons_self)).1
  have hapart := hinv.heap.list.laid.apart hb hc
  unfold fin at hapart
  unfold Within at hx hx'
  rcases hapart with rfl | hapart | hapart <;> omega

end Inv

/-! ### Evaluation -/

instance (h : Heap) (n : ℕ) : Decidable (h.Full n) := inferInstanceAs (Decidable (_ ∨ _))

instance (h : Heap) (n page : ℕ) : Decidable (h.Fits n page) :=
  decidable_of_iff (n + minSplit < 2 ^ 64 ∧ h.heapPtr + headerSize + n < 2 ^ 64 ∧
      (h.Full n → page ≠ 0 ∧ (∀ c ∈ h.chunks, c.1 + c.2 ≤ page) ∧
        page + headerSize + n + 4096 < 2 ^ 64))
    ⟨fun ⟨h₁, h₂, h₃⟩ => ⟨h₁, h₂, h₃⟩, fun ⟨h₁, h₂, h₃⟩ => ⟨h₁, h₂, h₃⟩⟩

instance (s : Prog) (size page : ℕ) : Decidable (s.Asks size page) :=
  inferInstanceAs (Decidable (_ ∧ _))

instance (s : Prog) (ptr : ℕ) : Decidable (s.Held ptr) :=
  decidable_of_iff (∃ e ∈ s.live, e.1 = ptr)
    ⟨fun ⟨e, he, hptr⟩ => ⟨e.2, hptr ▸ he⟩, fun ⟨n, hn⟩ => ⟨(ptr, n), hn, rfl⟩⟩

instance (a n x : ℕ) : Decidable (Within a n x) := inferInstanceAs (Decidable (_ ∧ _))

instance (s : Prog) : (l : Act × ℕ) → Decidable (s.Ok l)
  | (.malloc size, page) => inferInstanceAs (Decidable (s.Asks size page))
  | (.calloc nmemb size, page) => inferInstanceAs (Decidable (s.Asks (nmemb * size) page))
  | (.realloc ptr size, page) =>
      inferInstanceAs (Decidable ((ptr = 0 ∨ s.Held ptr) ∧ s.Asks size page))
  | (.free ptr, _) => inferInstanceAs (Decidable (ptr = 0 ∨ s.Held ptr))
  | (.store addr _, _) => inferInstanceAs (Decidable (∃ e ∈ s.live, Within e.1 e.2 addr))

end Prog

/-! ## Whole runs -/

lemma Prog.exists_inv {mem : Mem} {ls : List (Act × ℕ)} {s : Prog}
    (hrun : Run Prog.step Prog.Ok (Prog.start mem) ls s) : ∃ bs, s.Inv bs := by
  refine Run.invariant (I := fun s => ∃ bs, Prog.Inv s bs) ⟨_, Prog.inv_start mem⟩ ?_ hrun
  rintro s ⟨a, page⟩ s' ⟨bs, hinv⟩ hok hs
  obtain ⟨s₁, bs₁, hs₁, hinv₁, -⟩ := hinv.step hok
  obtain rfl : s₁ = s' := Option.some.inj (hs₁.symm.trans hs)
  exact ⟨bs₁, hinv₁⟩

/-- In every state that a run of `malloc`, `calloc`, `realloc` and `free` reaches, with pointers in
use freed or resized once, writes inside the requested bytes, sums that do not wrap and `mmap`
answering with regions behind one another:

* the blocks of the list from `head` follow each other in memory, each ending before the next
  begins, and their bytes are those that `sbrk` handed out;
* the blocks in use are those of the pointers in use, so none was absorbed by another;
* the bytes of the pointers in use overlap neither each other nor a header;
* the next call returns. -/
theorem blocks_stay_in_order {mem : Mem} {ls : List (Act × ℕ)} {s : Prog}
    (hrun : Run Prog.step Prog.Ok (Prog.start mem) ls s) :
    ∃ bs, Seg s.heap.mem s.heap.head bs 0 ∧
      (bs.Pairwise fun b c => b.addr < c.addr ∧ b.fin headerSize ≤ c.addr) ∧
      total headerSize bs = s.heap.handed ∧
      (∀ e ∈ s.live, ∃ b ∈ bs, b.free = false ∧ e.1 = b.addr + headerSize ∧ e.2 ≤ b.size) ∧
      (∀ b ∈ bs, b.free = false → s.Held (b.addr + headerSize)) ∧
      (s.live.Pairwise fun e f => ∀ x, Within e.1 e.2 x → ¬Within f.1 f.2 x) ∧
      (∀ e ∈ s.live, ∀ b ∈ bs, ∀ x, Within e.1 e.2 x → ¬Within b.addr headerSize x) ∧
      ∀ l, s.Ok l → (s.step l).isSome := by
  obtain ⟨bs, hinv⟩ := Prog.exists_inv hrun
  refine ⟨bs, hinv.heap.list.seg, ?_, hinv.heap.total, fun e he => ?_, fun b hb hused => ?_,
    hinv.pairwise, fun e he b hb x hx => hinv.header_apart he hb hx, ?_⟩
  · refine hinv.heap.list.laid.pairwise.imp fun {b c} hle => ⟨?_, hle⟩
    unfold fin headerSize at hle
    omega
  · obtain ⟨b, others, hperm, hptr, hle⟩ := hinv.ledger.block he
    obtain ⟨hb, hused⟩ := mem_used.1 (hperm.mem_iff.2 mem_cons_self)
    exact ⟨b, hb, hused, hptr, hle⟩
  · exact hinv.ledger.held (mem_used.2 ⟨hb, hused⟩)
  · rintro ⟨a, page⟩ hok
    obtain ⟨s', -, hs', -⟩ := hinv.step hok
    rw [hs']
    rfl

/-- A block is freed and another resized, which moves it to a second region; the first block is then
used again. -/
theorem blocks_stay_in_order_moved : ∃ s,
    Run Prog.step Prog.Ok (Prog.start fun _ => 0xff)
      [(.malloc 100, 0x10000000), (.calloc 3 20, 0), (.free 0x10000018, 0),
        (.store 0x100000a0 7, 0), (.realloc 0x10000098 5000, 0x10002000), (.malloc 90, 0)] s ∧
    s.live = [(0x10000018, 90), (0x10002018, 5000)] ∧
    ∃ bs, Seg s.heap.mem s.heap.head bs 0 ∧ total headerSize bs = s.heap.handed := by
  obtain ⟨s, hrun, hlive⟩ : ∃ s, Run Prog.step Prog.Ok (Prog.start fun _ => 0xff)
      [(.malloc 100, 0x10000000), (.calloc 3 20, 0), (.free 0x10000018, 0),
        (.store 0x100000a0 7, 0), (.realloc 0x10000098 5000, 0x10002000), (.malloc 90, 0)] s ∧
      decide (s.live = [(0x10000018, 90), (0x10002018, 5000)]) = true :=
    Run.exists_of_exec (fun s l => decide (s.Ok l)) (fun _ _ => of_decide_eq_true) _
      (by decide +kernel) (by decide +kernel)
  obtain ⟨bs, hseg, -, htotal, -⟩ := blocks_stay_in_order hrun
  exact ⟨s, hrun, of_decide_eq_true hlive, bs, hseg, htotal⟩

end User

end CobjOs
