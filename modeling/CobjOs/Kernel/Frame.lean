import CobjOs.Framework.Store
import CobjOs.Kernel.Syscall

/-!
# What the routines leave alone

`Frame T k k'` says that each thread of `k` is still there in `k'`, changed at most as the
relation `T` allows, and that the process list, the scheduler's variables and the clock are as
they were.  It composes, and the invariants of the scheduler are carried over frames, once for each
kind of change: waking (`Wakes`), which also leaves the run queue alone, and relinking.
-/

namespace CobjOs

open Function Option

/-- The parts of a process the scheduler looks at. -/
def Process.core (pr : Process) : ℕ × Ptr := (pr.pid, pr.thread)

/-- Between `k` and `k'` the threads changed as `T` allows; none came or went, and the
process list, the current thread and the clock stayed. -/
structure Frame (T : Ptr → Thread → Thread → Prop) (k k' : Kernel) : Prop where
  thread : ∀ {t th}, k.threads t = some th → ∃ th', k'.threads t = some th' ∧ T t th th'
  absent : ∀ {t}, k.threads t = none → k'.threads t = none
  procs : ∀ p, (k'.procs p).map Process.core = (k.procs p).map Process.core
  curr : k'.currThread = k.currThread
  idle : k'.idleThread = k.idleThread
  procList : k'.procList = k.procList
  kstacks : k'.kstacks = k.kstacks
  brk : k.brk ≤ k'.brk
  nextProcId : k'.nextProcId = k.nextProcId
  ticks : k'.lapicTimerTicks = k.lapicTimerTicks

namespace Frame

variable {T T' T'' : Ptr → Thread → Thread → Prop} {k k' k'' : Kernel} {p t : Ptr}

lemma comp (h : Frame T k k') (h' : Frame T' k' k'')
    (hT : ∀ t a b c, T t a b → T' t b c → T'' t a c) : Frame T'' k k'' where
  thread ht := by
    obtain ⟨th', ht', hw⟩ := h.thread ht
    obtain ⟨th'', ht'', hw'⟩ := h'.thread ht'
    exact ⟨th'', ht'', hT _ _ _ _ hw hw'⟩
  absent ht := h'.absent (h.absent ht)
  procs p := (h'.procs p).trans (h.procs p)
  curr := h'.curr.trans h.curr
  idle := h'.idle.trans h.idle
  procList := h'.procList.trans h.procList
  kstacks := h'.kstacks.trans h.kstacks
  brk := h.brk.trans h'.brk
  nextProcId := h'.nextProcId.trans h.nextProcId
  ticks := h'.ticks.trans h.ticks

lemma mono (h : Frame T k k') (hT : ∀ t a b, T t a b → T' t a b) : Frame T' k k' :=
  { h with thread := fun ht => (h.thread ht).imp fun _ hw => ⟨hw.1, hT _ _ _ hw.2⟩ }

lemma thread_back (h : Frame T k k') {th' : Thread} (ht : k'.threads t = some th') :
    ∃ th, k.threads t = some th ∧ T t th th' := by
  cases hk : k.threads t with
  | none => rw [h.absent hk] at ht; simp at ht
  | some th =>
    obtain ⟨th₁, h₁, hw⟩ := h.thread hk
    rw [ht, some.injEq] at h₁
    exact ⟨th, rfl, h₁ ▸ hw⟩

lemma proc (h : Frame T k k') {pr : Process} (hp : k.procs p = some pr) :
    ∃ pr', k'.procs p = some pr' ∧ pr'.pid = pr.pid ∧ pr'.thread = pr.thread := by
  obtain ⟨pr', hp', hcore⟩ := Store.exists_of_map_eq (h.procs p) hp
  exact ⟨pr', hp', Prod.ext_iff.1 hcore⟩

lemma proc_back (h : Frame T k k') {pr' : Process} (hp : k'.procs p = some pr') :
    ∃ pr, k.procs p = some pr ∧ pr'.pid = pr.pid ∧ pr'.thread = pr.thread := by
  obtain ⟨pr, hpr, hcore⟩ := Store.exists_of_map_eq (h.procs p).symm hp
  exact ⟨pr, hpr, Prod.ext_iff.1 hcore.symm⟩

/-- The threads and the scheduler's variables. -/
def view (k : Kernel) := (k.threads, k.currThread, k.idleThread, k.procList, k.kstacks,
  k.nextProcId, k.lapicTimerTicks)

/-- A change outside of them. -/
lemma of_eq (hT : ∀ t a, T t a a) (hbrk : k.brk ≤ k'.brk)
    (hpr : ∀ p, (k'.procs p).map Process.core = (k.procs p).map Process.core)
    (hview : view k' = view k) : Frame T k k' := by
  simp only [view, Prod.mk.injEq] at hview
  obtain ⟨hth, hcurr, hidle, hlist, hstacks, hpid, hticks⟩ := hview
  exact ⟨fun h => ⟨_, hth ▸ h, hT _ _⟩, fun h => hth ▸ h, hpr, hcurr, hidle, hlist, hstacks, hbrk,
    hpid, hticks⟩

lemma setThread (hT : ∀ t a, T t a a) {th th' : Thread} (ht : k.threads t = some th)
    (hw : T t th th') : Frame T k (k.setThread t th') where
  thread {u thu} hu := by
    by_cases hut : u = t
    · subst hut
      rw [ht, some.injEq] at hu
      exact ⟨th', by simp, hu ▸ hw⟩
    · exact ⟨thu, by simp [hut, hu], hT _ _⟩
  absent {u} hu := by
    have hut : u ≠ t := by
      rintro rfl
      rw [ht] at hu
      simp at hu
    simp [hut, hu]
  procs _ := rfl
  curr := rfl
  idle := rfl
  procList := rfl
  kstacks := rfl
  brk := le_refl _
  nextProcId := rfl
  ticks := rfl

lemma modThread (hT : ∀ t a, T t a a) {f : Thread → Thread}
    (hf : ∀ th, k.threads t = some th → T t th (f th)) (h : k.modThread t f = some k') :
    Frame T k k' := by
  rw [Kernel.modThread, map_eq_some_iff] at h
  obtain ⟨th, ht, rfl⟩ := h
  exact Frame.setThread hT ht (hf th ht)

end Frame

/-! ## Kinds of change -/

/-- `th'` is `th`, or `th` woken from a block. -/
inductive Thread.Woken (th : Thread) : Thread → Prop
  | same : Woken th th
  | woken (w : ℕ) : th.state = .blocked →
      Woken th { th with state := .ready, waitingFor := w }

/-- Some blocked threads are woken. -/
def anyWake (_ : Ptr) (th th' : Thread) : Prop := th.Woken th'

/-- Of the threads in `S`, some that are blocked become ready. -/
def portWake (S : Ptr → Prop) (t : Ptr) (th th' : Thread) : Prop :=
  th' = th ∨ S t ∧ th.state = .blocked ∧ th' = { th with state := .ready }

/-- Some threads blocked on `pid` are woken by its end. -/
def exitWake (pid : ℕ) (_ : Ptr) (th th' : Thread) : Prop := th' = th ∨ th' = th.wakePid pid

/-- Only the link changes. -/
def relink (_ : Ptr) (th th' : Thread) : Prop := th' = { th with next := th'.next }

namespace Thread.Woken

variable {th th' th'' : Thread}

lemma trans (h : th.Woken th') (h' : th'.Woken th'') : th.Woken th'' := by
  cases h with
  | same => exact h'
  | woken w hb =>
    cases h' with
    | same => exact .woken w hb
    | woken w' hb' => exact absurd hb' (by simp)

lemma next (h : th.Woken th') : th'.next = th.next := by cases h <;> rfl

lemma process (h : th.Woken th') : th'.process = th.process := by cases h <;> rfl

lemma kernelStack (h : th.Woken th') : th'.kernelStack = th.kernelStack := by cases h <;> rfl

lemma call (h : th.Woken th') : th'.call = th.call := by cases h <;> rfl

lemma dead_iff (h : th.Woken th') : th'.state = .dead ↔ th.state = .dead := by
  cases h with
  | same => rfl
  | woken w hb => simp [hb]

lemma running_iff (h : th.Woken th') : th'.state = .running ↔ th.state = .running := by
  cases h with
  | same => rfl
  | woken w hb => simp [hb]

/-- A thread still blocked was not touched. -/
lemma eq_of_blocked (h : th.Woken th') (hb : th'.state = .blocked) : th' = th := by
  cases h with
  | same => rfl
  | woken w _ => simp at hb

lemma ready (h : th.Woken th') (hr : th.state = .ready) : th'.state = .ready := by
  cases h with
  | same => exact hr
  | woken w _ => rfl

end Thread.Woken

lemma portWake.woken {S : Ptr → Prop} {t : Ptr} {th th' : Thread} (h : portWake S t th th') :
    anyWake t th th' := by
  rcases h with rfl | ⟨-, hb, rfl⟩
  · exact .same
  · exact .woken th.waitingFor hb

lemma portWake.trans {S : Ptr → Prop} (t : Ptr) (a b c : Thread) (h : portWake S t a b)
    (h' : portWake S t b c) : portWake S t a c := by
  rcases h with rfl | ⟨hS, hb, rfl⟩
  · exact h'
  · rcases h' with rfl | ⟨-, hb', -⟩
    · exact .inr ⟨hS, hb, rfl⟩
    · simp at hb'

lemma exitWake.woken {pid : ℕ} {t : Ptr} {th th' : Thread} (h : exitWake pid t th th') :
    anyWake t th th' := by
  rcases h with rfl | rfl
  · exact .same
  · unfold Thread.wakePid
    split_ifs with hw
    · exact .woken u64Max hw.1
    · exact .same

/-- A frame that also leaves the head of the run queue alone. -/
structure Wakes (T : Ptr → Thread → Thread → Prop) (k k' : Kernel) : Prop
    extends Frame T k k' where
  head : k'.runqueueHead = k.runqueueHead

namespace Wakes

variable {T T' T'' : Ptr → Thread → Thread → Prop} {S : Ptr → Prop} {k k' k'' : Kernel}

lemma mono (h : Wakes T k k') (hT : ∀ t a b, T t a b → T' t a b) : Wakes T' k k' :=
  ⟨h.toFrame.mono hT, h.head⟩

lemma comp (h : Wakes T k k') (h' : Wakes T' k' k'')
    (hT : ∀ t a b c, T t a b → T' t b c → T'' t a c) : Wakes T'' k k'' :=
  ⟨h.toFrame.comp h'.toFrame hT, h'.head.trans h.head⟩

lemma refl (hT : ∀ t a, T t a a) (k : Kernel) : Wakes T k k :=
  ⟨.of_eq hT le_rfl (fun _ => rfl) rfl, rfl⟩

lemma portTrans (h : Wakes (portWake S) k k') (h' : Wakes (portWake S) k' k'') :
    Wakes (portWake S) k k'' := h.comp h' portWake.trans

lemma any (h : Wakes (portWake S) k k') : Wakes anyWake k k' :=
  h.mono fun _ _ _ => portWake.woken

/-- What wakes nobody wakes some. -/
lemma quiet (h : Wakes (portWake fun _ => False) k k') : Wakes anyWake k k' := h.any

lemma nextOf (h : Wakes anyWake k k') (t : Ptr) : k'.nextOf t = k.nextOf t := by
  unfold Kernel.nextOf
  cases hk : k.threads t with
  | none => rw [h.absent hk]
  | some th =>
    obtain ⟨th', ht', hw⟩ := h.thread hk
    rw [ht', bind_some, bind_some, Thread.Woken.next hw]

end Wakes

/-! ## What the port routines write -/

namespace Kernel

variable {k k' : Kernel} {p : Ptr} {token i n tsc : ℕ}

/-- The state after `port_create` for the process `owner`. -/
@[simps]
def withPort (k : Kernel) (token : ℕ) (owner : Ptr) : Kernel :=
  { k with
    ports := update k.ports k.brk (some
      { token := token, head := none, tail := none, owner := owner })
    brk := k.brk + 1
    portTable := update k.portTable k.portTableCount (some k.brk)
    portTableCount := k.portTableCount + 1 }

lemma portCreate_cases (h : k.portCreate tsc = some (k', p)) :
    ∃ owner, k.currProc = some owner ∧ p = k.brk ∧ k' = k.withPort (portToken tsc) owner := by
  simp only [portCreate, bind, bind_eq_some_iff, some.injEq, Prod.mk.injEq] at h
  obtain ⟨th, ht, owner, ho, rfl, rfl⟩ := h
  exact ⟨owner, by rw [currProc, ht, bind_some, ho], rfl, rfl⟩

lemma sysPortCreate_cases (h : k.sysPortCreate tsc = some (k', n)) :
    ∃ proc pr, k.currProc = some proc ∧ k.procs proc = some pr ∧
      ((∀ i, i < maxPorts → pr.ports i ≠ none) ∧ k' = k.withPort (portToken tsc) proc ∨
        ∃ i, i < maxPorts ∧ pr.ports i = none ∧ k' = (k.withPort (portToken tsc) proc).setProc proc
          { pr with ports := update pr.ports i (some k.brk) }) := by
  simp only [sysPortCreate, bind, bind_eq_some_iff] at h
  obtain ⟨proc, hproc, ⟨k₁, port⟩, h₁, pr, hpr, h⟩ := h
  obtain ⟨owner, howner, rfl, rfl⟩ := portCreate_cases h₁
  obtain rfl := mem_unique hproc howner
  refine ⟨proc, pr, hproc, hpr, ?_⟩
  cases hfree : (List.range maxPorts).find? fun i => (pr.ports i).isNone with
  | none =>
    simp only [hfree, some.injEq, Prod.mk.injEq] at h
    refine .inl ⟨fun i hi hnone => ?_, h.1.symm⟩
    simpa [hnone] using List.find?_eq_none.mp hfree i (List.mem_range.mpr hi)
  | some i =>
    simp only [hfree, bind_eq_some_iff, some.injEq, Prod.mk.injEq] at h
    obtain ⟨k₂, h₂, rfl, -⟩ := h
    rw [modProc, hpr, map_some, some.injEq] at h₂
    have hlt : i < maxPorts := List.mem_range.mp (List.mem_of_find?_eq_some hfree)
    have hi : pr.ports i = none := by simpa using List.find?_some hfree
    exact .inr ⟨i, hlt, hi, h₂.symm⟩

/-- The message node `port_forward` allocates. -/
@[simps]
def withMsg (k : Kernel) (msg : List UInt8) : Kernel :=
  { k with
    msgs := update k.msgs k.brk (some
      { len := msg.length, data := msg, next := none })
    brk := k.brk + 1 }

lemma portForward_cases {msg : List UInt8} (h : k.portForward token msg = some (k', n)) :
    k.portLookup token = some none ∧ k' = k ∧ n = u64Max ∨
      ∃ p port k₁, k.portLookup token = some (some p) ∧ k.ports p = some port ∧
        (k.withMsg msg).enqueue p port k.brk = some k₁ ∧ k₁.wakeOwner port.owner = some k' ∧
        n = msg.length := by
  simp only [portForward, bind, bind_eq_some_iff] at h
  obtain ⟨found, hfound, h⟩ := h
  cases found with
  | none =>
    simp only [some.injEq, Prod.mk.injEq] at h
    exact .inl ⟨hfound, h.1.symm, h.2.symm⟩
  | some p =>
    simp only [bind_eq_some_iff, some.injEq, Prod.mk.injEq] at h
    obtain ⟨port, hport, k₁, h₁, k₂, h₂, rfl, rfl⟩ := h
    exact .inr ⟨p, port, k₁, hfound, hport, h₁, h₂, rfl⟩

lemma modProc_eq_some {p : Ptr} {f : Process → Process} (h : k.modProc p f = some k') :
    ∃ pr, k.procs p = some pr ∧ k' = k.setProc p (f pr) := by
  rw [modProc, map_eq_some_iff] at h
  obtain ⟨pr, hpr, rfl⟩ := h
  exact ⟨pr, hpr, rfl⟩

/-- The queue of the port `p` was changed: its record, under the same token and owner, and
message nodes. -/
def Requeued (k : Kernel) (p : Ptr) (port : Port) (k' : Kernel) : Prop :=
  ∃ m port', port'.token = port.token ∧ port'.owner = port.owner ∧
    k' = Kernel.setPort { k with msgs := m } p port'

lemma enqueue_requeued {p node : Ptr} {port : Port} (h : k.enqueue p port node = some k') :
    k.Requeued p port k' := by
  unfold enqueue at h
  cases htail : port.tail with
  | none =>
    simp only [htail, some.injEq] at h
    refine ⟨k.msgs, _, ?_, ?_, h.symm⟩ <;> rfl
  | some tail =>
    simp only [htail, bind, bind_eq_some_iff, some.injEq] at h
    obtain ⟨last, -, rfl⟩ := h
    refine ⟨_, _, ?_, ?_, rfl⟩ <;> rfl

lemma dequeue_requeued {p node : Ptr} {port : Port} {len : ℕ} {r : Received}
    (h : k.dequeue p port node len = some (k', r)) : k.Requeued p port k' := by
  simp only [dequeue, bind, bind_eq_some_iff, some.injEq, Prod.mk.injEq] at h
  obtain ⟨nd, -, rfl, -⟩ := h
  exact ⟨update k.msgs node none, { port with
    head := nd.next, tail := if nd.next.isNone then none else port.tail }, rfl, rfl, rfl⟩

lemma closeFd_cases {proc : Ptr} (h : k.closeFd proc i = some k') : k' = k ∨
    ∃ v, ({ k with vfs := v } : Kernel).modProc proc
      (fun pr => { pr with fds := update pr.fds i none }) = some k' := by
  simp only [closeFd, bind, bind_eq_some_iff] at h
  obtain ⟨pr, -, h⟩ := h
  cases hf : pr.fds i with
  | none =>
    simp only [hf, some.injEq] at h
    exact .inl h.symm
  | some f =>
    simp only [hf, bind_eq_some_iff] at h
    obtain ⟨v, -, h⟩ := h
    exact .inr ⟨v, h⟩

lemma closePort_cases {proc : Ptr} (h : k.closePort proc i = some k') :
    ∃ pr, k.procs proc = some pr ∧ (pr.ports i = none ∧ k' = k ∨
      ∃ p k₁, pr.ports i = some p ∧ k.portDestroy p = some k₁ ∧ k₁.modProc proc
        (fun pr => { pr with ports := update pr.ports i none }) = some k') := by
  simp only [closePort, bind, bind_eq_some_iff] at h
  obtain ⟨pr, hpr, h⟩ := h
  refine ⟨pr, hpr, ?_⟩
  cases hp : pr.ports i with
  | none =>
    simp only [hp, some.injEq] at h
    exact .inl ⟨rfl, h.symm⟩
  | some p =>
    simp only [hp, bind_eq_some_iff] at h
    obtain ⟨k₁, h₁, h₂⟩ := h
    exact .inr ⟨p, k₁, rfl, h₁, h₂⟩

lemma sysPortDestroy_cases (h : k.sysPortDestroy token = some k') :
    ∃ proc pr, k.currProc = some proc ∧ k.procs proc = some pr ∧ (k' = k ∨
      ∃ i p k₁, k.portSlotIn pr token (List.range maxPorts) = some (some (i, p)) ∧
        k.portDestroy p = some k₁ ∧ k₁.modProc proc
          (fun pr => { pr with ports := update pr.ports i none }) = some k') := by
  simp only [sysPortDestroy, bind, bind_eq_some_iff] at h
  obtain ⟨proc, hproc, pr, hpr, slot, hslot, h⟩ := h
  refine ⟨proc, pr, hproc, hpr, ?_⟩
  cases slot with
  | none =>
    rw [some.injEq] at h
    exact .inl h.symm
  | some ip =>
    simp only [bind_eq_some_iff] at h
    obtain ⟨k₁, h₁, h₂⟩ := h
    exact .inr ⟨ip.1, ip.2, k₁, hslot, h₁, h₂⟩

end Kernel

/-! ## Ports -/

namespace Kernel

variable {k k' : Kernel} {S : Ptr → Prop} {p proc : Ptr}

lemma portWake_refl (S : Ptr → Prop) (t : Ptr) (th : Thread) : portWake S t th th := .inl rfl

/-- The thread of the owner of the port `p`. -/
def ownerThread (k : Kernel) (p t : Ptr) : Prop :=
  ∃ port pr, k.ports p = some port ∧ k.procs port.owner = some pr ∧ pr.thread = t

lemma wakes_of_eq (hbrk : k.brk ≤ k'.brk) (hpr : k'.procs = k.procs)
    (hview : Frame.view k' = Frame.view k) (hhead : k'.runqueueHead = k.runqueueHead) :
    Wakes (portWake S) k k' :=
  ⟨.of_eq (portWake_refl S) hbrk (fun p => by rw [hpr]) hview, hhead⟩

lemma wakes_requestCleanup : Wakes (portWake S) k k.requestCleanup :=
  wakes_of_eq le_rfl rfl rfl rfl

lemma wakes_modProc {f : Process → Process} (hf : ∀ pr, (f pr).core = pr.core)
    (h : k.modProc p f = some k') : Wakes (portWake S) k k' := by
  obtain ⟨pr, hp, rfl⟩ := modProc_eq_some h
  refine ⟨.of_eq (portWake_refl S) le_rfl (fun q => ?_) rfl, rfl⟩
  by_cases hq : q = p
  · subst hq
    simp [hp, hf]
  · simp [hq]

lemma wakes_wakeOwner {owner : Ptr} (h : k.wakeOwner owner = some k')
    (hS : ∀ pr, k.procs owner = some pr → S pr.thread) : Wakes (portWake S) k k' := by
  simp only [wakeOwner, bind, bind_eq_some_iff, some.injEq] at h
  obtain ⟨pr, hp, th, ht, rfl⟩ := h
  split_ifs with hb
  · exact ⟨.setThread (portWake_refl S) ht (.inr ⟨hS pr hp, hb, rfl⟩), rfl⟩
  · exact .refl (portWake_refl S) k

lemma Requeued.wakes {port : Port} (h : k.Requeued p port k') :
    Wakes (portWake S) k k' := by
  obtain ⟨m, port', -, -, rfl⟩ := h
  exact wakes_of_eq le_rfl rfl rfl rfl

lemma wakes_dequeue {node : Ptr} {port : Port} {len : ℕ} {r : Received}
    (h : k.dequeue p port node len = some (k', r)) : Wakes (portWake S) k k' :=
  (dequeue_requeued h).wakes

lemma wakes_portForward {dst n : ℕ} {msg : List UInt8}
    (h : k.portForward dst msg = some (k', n))
    (hS : ∀ p t, k.portLookup dst = some (some p) → k.ownerThread p t → S t) :
    Wakes (portWake S) k k' := by
  rcases portForward_cases h with ⟨-, rfl, -⟩ | ⟨p, port, k₁, hfound, hport, h₁, h₂, -⟩
  · exact .refl (portWake_refl S) k'
  · have h₀ : Wakes (portWake S) k (k.withMsg msg) :=
      wakes_of_eq (Nat.le_succ _) rfl rfl rfl
    have hq := enqueue_requeued h₁
    refine (h₀.portTrans hq.wakes).portTrans (wakes_wakeOwner h₂ ?_)
    intro pr hpr
    obtain ⟨m, port', -, -, rfl⟩ := hq
    exact hS p pr.thread hfound ⟨port, pr, hport, hpr, rfl⟩

lemma wakes_freeMsgs : ∀ (fuel : ℕ) (k : Kernel) (node : Option Ptr),
    freeMsgs fuel k node = some k' → Wakes (portWake S) k k'
  | _, k, none, h => by
      rw [freeMsgs, some.injEq] at h
      exact h ▸ .refl (portWake_refl S) k
  | 0, _, some _, h => by simp [freeMsgs] at h
  | fuel + 1, k, some node, h => by
      simp only [freeMsgs, bind, bind_eq_some_iff] at h
      obtain ⟨nd, -, h⟩ := h
      have h₀ : Wakes (portWake S) k { k with msgs := update k.msgs node none } :=
        wakes_of_eq le_rfl rfl rfl rfl
      exact h₀.portTrans (wakes_freeMsgs fuel _ _ h)

lemma wakes_portDestroy (h : k.portDestroy p = some k')
    (hS : ∀ t, k.ownerThread p t → S t) : Wakes (portWake S) k k' := by
  simp only [portDestroy, bind, bind_eq_some_iff, some.injEq] at h
  obtain ⟨port, hport, k₁, h₁, k₂, h₂, rfl⟩ := h
  refine ((wakes_wakeOwner h₁ ?_).portTrans (wakes_freeMsgs _ _ _ h₂)).portTrans ?_
  · intro pr hpr
    exact hS pr.thread ⟨port, pr, hport, hpr, rfl⟩
  · exact wakes_of_eq le_rfl rfl rfl rfl

/-! ## Closing ports and descriptors -/

lemma wakes_closeFd {i : ℕ} (h : k.closeFd proc i = some k') :
    Wakes (portWake S) k k' := by
  rcases closeFd_cases h with rfl | ⟨v, h⟩
  · exact .refl (portWake_refl S) k'
  · have h₀ : Wakes (portWake S) k { k with vfs := v } := wakes_of_eq le_rfl rfl rfl rfl
    exact h₀.portTrans (wakes_modProc (by intro pr; rfl) h)

lemma wakes_closePort {i : ℕ} (h : k.closePort proc i = some k')
    (hS : ∀ pr p t, k.procs proc = some pr → pr.ports i = some p → k.ownerThread p t → S t) :
    Wakes (portWake S) k k' := by
  obtain ⟨pr, hpr, ⟨-, rfl⟩ | ⟨p, k₁, hp, h₁, h₂⟩⟩ := closePort_cases h
  · exact .refl (portWake_refl S) k'
  · exact (wakes_portDestroy h₁ fun t => hS pr p t hpr hp).portTrans
      (wakes_modProc (by intro pr; rfl) h₂)

/-- A loop of waking steps is one; `P` is what the steps need and keep. -/
lemma wakes_foldlM {P : Kernel → Prop} {f : Kernel → ℕ → Option Kernel}
    (hf : ∀ k i k', P k → f k i = some k' → Wakes (portWake S) k k' ∧ P k') :
    ∀ (is : List ℕ) (k : Kernel), P k → is.foldlM f k = some k' →
      Wakes (portWake S) k k' ∧ P k'
  | [], k, hP, h => by
      simp only [List.foldlM_nil, pure, some.injEq] at h
      exact h ▸ ⟨.refl (portWake_refl S) k, hP⟩
  | i :: is, k, hP, h => by
      simp only [List.foldlM_cons, bind, bind_eq_some_iff] at h
      obtain ⟨k₁, h₁, h⟩ := h
      obtain ⟨hw₁, hP₁⟩ := hf k i k₁ hP h₁
      obtain ⟨hw₂, hP₂⟩ := wakes_foldlM hf is k₁ hP₁ h
      exact ⟨hw₁.portTrans hw₂, hP₂⟩

lemma wakes_closeFds (h : k.closeFds proc = some k') :
    Wakes (portWake S) k k' :=
  (wakes_foldlM (fun _ _ _ _ h => ⟨wakes_closeFd h, trivial⟩) _ k trivial h).1

/-- Whoever owns the ports, closing them only wakes. -/
lemma wakes_closePorts (h : k.closePorts proc = some k') :
    Wakes anyWake k k' := by
  have hw := wakes_foldlM (S := fun _ => True) (P := fun _ => True)
    (fun _ _ _ _ h => ⟨wakes_closePort h fun _ _ _ _ _ _ => trivial, trivial⟩) _ k trivial h
  exact hw.1.any

/-! ## The port system calls -/

lemma wakes_sysPortCreate {tsc n : ℕ} (h : k.sysPortCreate tsc = some (k', n)) :
    Wakes (portWake S) k k' := by
  obtain ⟨proc, pr, -, hpr, hk'⟩ := sysPortCreate_cases h
  have hw : Wakes (portWake S) k (k.withPort (portToken tsc) proc) :=
    wakes_of_eq (Nat.le_succ _) rfl rfl rfl
  rcases hk' with ⟨-, rfl⟩ | ⟨i, -, -, rfl⟩
  · exact hw
  · refine hw.portTrans (wakes_modProc (p := proc) (f := fun pr =>
      { pr with ports := update pr.ports i (some k.brk) }) (by intro pr; rfl) ?_)
    rw [modProc, withPort_procs, hpr]
    rfl

lemma wakes_sysPortDestroy {token : ℕ} (h : k.sysPortDestroy token = some k')
    (hS : ∀ proc pr i p t, k.currProc = some proc → k.procs proc = some pr →
      k.portSlotIn pr token (List.range maxPorts) = some (some (i, p)) →
      k.ownerThread p t → S t) : Wakes (portWake S) k k' := by
  obtain ⟨proc, pr, hproc, hpr, rfl | ⟨i, p, k₁, hslot, h₁, h₂⟩⟩ := sysPortDestroy_cases h
  · exact .refl (portWake_refl S) k'
  · exact (wakes_portDestroy h₁ fun t => hS proc pr i p t hproc hpr hslot).portTrans
      (wakes_modProc (by intro pr; rfl) h₂)

end Kernel

end CobjOs
