import CobjOs.Kernel.Machine
import CobjOs.Kernel.Wf

/-!
# What each entry into the kernel does

One lemma for each entry that takes it apart into the routines it is made of, with the state
each of them starts from.  The invariants use these and do not unfold the entries again.
-/

namespace CobjOs

open Option

namespace Kernel

variable {k k' : Kernel} {pid token len : ℕ} {p proc t : Ptr} {r : Option Received} {op : Op}

lemma asUser_eq_some {call : Option Kernel} (h : k.asUser call = some k') :
    (∃ th proc, k.threads k.currThread = some th ∧ th.process = some proc ∧
      th.call = .user) ∧ call = some k' := by
  unfold asUser at h
  split_ifs at h with hu
  refine ⟨?_, h⟩
  unfold inUserMode at hu
  cases hth : k.threads k.currThread with
  | none => simp [hth] at hu
  | some th =>
    simp only [hth, Bool.and_eq_true, beq_iff_eq, isSome_iff_exists] at hu
    obtain ⟨⟨proc, hproc⟩, hcall⟩ := hu
    exact ⟨th, proc, rfl, hproc, hcall⟩

lemma asUser_fst {α : Type*} {call : Option (Kernel × α)}
    (h : k.asUser (call.map Prod.fst) = some k') :
    (∃ th proc, k.threads k.currThread = some th ∧ th.process = some proc ∧
      th.call = .user) ∧ ∃ r, call = some (k', r) := by
  refine (asUser_eq_some h).imp_right fun h => ?_
  obtain ⟨⟨k₁, r⟩, hc, rfl⟩ := map_eq_some_iff.mp h
  exact ⟨r, hc⟩

lemma step_bareRemove (h : k.step (.bareRemove t) = some k') :
    ∃ th, k.threads t = some th ∧ k.runqueueRemove t = some k' := by
  simp only [step] at h
  split_ifs at h with hsome
  obtain ⟨th, ht⟩ := isSome_iff_exists.mp hsome
  exact ⟨th, ht, h⟩

lemma step_resume (h : k.step .resume = some k') :
    ∃ th proc r, k.threads k.currThread = some th ∧ th.process = some proc ∧
      k.resume = some (k', r) := by
  simp only [step] at h
  split_ifs at h with hu
  obtain ⟨⟨k₁, r⟩, hr, rfl⟩ := map_eq_some_iff.mp h
  obtain ⟨proc, hproc⟩ := isSome_iff_exists.mp hu
  rw [currProc, bind_eq_some_iff] at hproc
  obtain ⟨th, ht, hp⟩ := hproc
  exact ⟨th, proc, r, ht, hp, hr⟩

lemma modThread_eq_some {f : Thread → Thread} (h : k.modThread t f = some k') :
    ∃ th, k.threads t = some th ∧ k' = k.setThread t (f th) := by
  rw [modThread, map_eq_some_iff] at h
  obtain ⟨th, ht, rfl⟩ := h
  exact ⟨th, ht, rfl⟩

/-! ## Search -/

lemma procFindIn_eq_some : ∀ (ps : List Ptr), k.procFindIn pid ps = some (some p) →
    p ∈ ps ∧ ∃ pr, k.procs p = some pr ∧ pr.pid = pid
  | [], h => by simp [procFindIn] at h
  | q :: ps, h => by
      simp only [procFindIn, bind, bind_eq_some_iff] at h
      obtain ⟨qr, hq, h⟩ := h
      split_ifs at h with hpid
      · rw [some.injEq, some.injEq] at h
        subst h
        exact ⟨by simp, qr, hq, hpid⟩
      · obtain ⟨hmem, hpr⟩ := procFindIn_eq_some ps h
        exact ⟨List.mem_cons_of_mem q hmem, hpr⟩

lemma procFind_eq_some (h : k.procFind pid = some (some p)) :
    p ∈ k.procList ∧ ∃ pr, k.procs p = some pr ∧ pr.pid = pid :=
  procFindIn_eq_some k.procList h

/-! ## Blocking -/

lemma sysWaitPid_cases (h : k.sysWaitPid pid = some k') :
    k' = k ∨ ∃ target pr th, k.procFind pid = some (some target) ∧ k.procs target = some pr ∧
      pr.pid = pid ∧ k.threads k.currThread = some th ∧
      (k.setThread k.currThread (th.blockOnPid pid pid)).schedule = some k' := by
  simp only [sysWaitPid, bind, bind_eq_some_iff] at h
  obtain ⟨found, hfound, h⟩ := h
  cases found with
  | none =>
    rw [some.injEq] at h
    exact .inl h.symm
  | some target =>
    simp only [blockOnPid, bind, bind_eq_some_iff] at h
    obtain ⟨k₁, ⟨pr, hpr, hk₁⟩, h⟩ := h
    obtain ⟨th, ht, rfl⟩ := modThread_eq_some hk₁
    obtain ⟨-, pr', hpr', hpid⟩ := procFind_eq_some hfound
    obtain rfl := mem_unique hpr hpr'
    rw [hpid] at h
    exact .inr ⟨target, pr, th, hfound, hpr, hpid, ht, h⟩

lemma sysSleep_cases {ms : ℕ} (h : k.sysSleep ms = some k') :
    ∃ th, k.threads k.currThread = some th ∧
      (k.setThread k.currThread (th.blockAsleep k.lapicTimerTicks ms)).schedule = some k' := by
  simp only [sysSleep, blockAsleep, bind, bind_eq_some_iff] at h
  obtain ⟨k₁, hk₁, h⟩ := h
  obtain ⟨th, ht, rfl⟩ := modThread_eq_some hk₁
  exact ⟨th, ht, h⟩

lemma portReceiveLoop_cases (h : k.portReceiveLoop p len = some (k', r)) :
    (∃ port th, k.ports p = some port ∧ port.head = none ∧ r = none ∧
        k.threads k.currThread = some th ∧
        (k.setThread k.currThread (th.blockOnPort p len)).schedule = some k') ∨
      ∃ port node k₁ r' th, k.ports p = some port ∧ port.head = some node ∧ r = some r' ∧
        k.dequeue p port node len = some (k₁, r') ∧ k₁.threads k₁.currThread = some th ∧
        k' = k₁.setThread k₁.currThread th.toUser := by
  simp only [portReceiveLoop, bind, bind_eq_some_iff] at h
  obtain ⟨port, hport, h⟩ := h
  cases hhead : port.head with
  | none =>
    simp only [hhead, bind_eq_some_iff, blockOnPort, some.injEq,
      Prod.mk.injEq] at h
    obtain ⟨k₁, hk₁, k₂, hk₂, rfl, rfl⟩ := h
    obtain ⟨th, ht, rfl⟩ := modThread_eq_some hk₁
    exact .inl ⟨port, th, hport, hhead, rfl, ht, hk₂⟩
  | some node =>
    simp only [hhead, bind_eq_some_iff, some.injEq, Prod.mk.injEq] at h
    obtain ⟨⟨k₁, r'⟩, hk₁, k₂, hk₂, rfl, rfl⟩ := h
    obtain ⟨th, ht, rfl⟩ := modThread_eq_some hk₂
    exact .inr ⟨port, node, k₁, r', th, hport, hhead, rfl, hk₁, ht, rfl⟩

lemma sysPortReceive_cases (h : k.sysPortReceive token len = some (k', r)) :
    k' = k ∧ r = none ∨ ∃ proc pr i q p, k.currProc = some proc ∧ k.procs proc = some pr ∧
      k.portSlotIn pr token (List.range maxPorts) = some (some (i, q)) ∧
      k.portLookup token = some (some p) ∧ k.portReceiveLoop p len = some (k', r) := by
  simp only [sysPortReceive, bind, bind_eq_some_iff] at h
  obtain ⟨proc, hproc, pr, hpr, slot, hslot, h⟩ := h
  cases slot with
  | none =>
    rw [some.injEq, Prod.mk.injEq] at h
    exact .inl ⟨h.1.symm, h.2.symm⟩
  | some iq =>
    simp only [bind_eq_some_iff] at h
    obtain ⟨found, hfound, h⟩ := h
    cases found with
    | none =>
      rw [some.injEq, Prod.mk.injEq] at h
      exact .inl ⟨h.1.symm, h.2.symm⟩
    | some p => exact .inr ⟨proc, pr, iq.1, iq.2, p, hproc, hpr, hslot, hfound, h⟩

lemma resume_cases (h : k.resume = some (k', r)) :
    ∃ th, k.threads k.currThread = some th ∧
      ((((∃ pid, th.call = .waitPid pid) ∨ ∃ t0 ms, th.call = .sleep t0 ms) ∧ r = none ∧
          k' = k.setThread k.currThread th.toUser) ∨
        ∃ p len, th.call = .receive p len ∧ k.portReceiveLoop p len = some (k', r)) := by
  simp only [resume, bind, bind_eq_some_iff] at h
  obtain ⟨th, ht, h⟩ := h
  refine ⟨th, ht, ?_⟩
  cases hc : th.call with
  | user => simp [hc] at h
  | waitPid pid =>
    simp only [hc, bind_eq_some_iff, some.injEq, Prod.mk.injEq] at h
    obtain ⟨k₁, hk₁, rfl, rfl⟩ := h
    rw [modThread_eq ht, some.injEq] at hk₁
    exact .inl ⟨.inl ⟨pid, rfl⟩, rfl, hk₁.symm⟩
  | sleep t0 ms =>
    simp only [hc, bind_eq_some_iff, some.injEq, Prod.mk.injEq] at h
    obtain ⟨k₁, hk₁, rfl, rfl⟩ := h
    rw [modThread_eq ht, some.injEq] at hk₁
    exact .inl ⟨.inr ⟨t0, ms, rfl⟩, rfl, hk₁.symm⟩
  | receive p len =>
    simp only [hc] at h
    exact .inr ⟨p, len, rfl, h⟩

/-! ## Death -/

lemma exitBody_cases (h : k.exitBody = some k') :
    ∃ proc pr k₁ k₂ k₃ k₄, k.currProc = some proc ∧ k.procs proc = some pr ∧
      k.closePorts proc = some k₁ ∧ k₁.closeFds proc = some k₂ ∧
      k₂.runqueueRemove k₂.currThread = some k₃ ∧ k₃.markDead k₃.currThread = some k₄ ∧
      k₄.requestCleanup.threadWakePid pr.pid = some k' := by
  simp only [exitBody, bind, bind_eq_some_iff] at h
  obtain ⟨proc, hproc, pr, hpr, k₁, h₁, k₂, h₂, k₃, h₃, k₄, h₄, h⟩ := h
  exact ⟨proc, pr, k₁, k₂, k₃, k₄, hproc, hpr, h₁, h₂, h₃, h₄, h⟩

lemma killBody_cases (h : k.killBody proc = some (k', t)) :
    ∃ pr k₁ k₂ k₃ k₄, k.closePorts proc = some k₁ ∧ k₁.closeFds proc = some k₂ ∧
      k₂.procs proc = some pr ∧ k₂.runqueueRemove pr.thread = some k₃ ∧
      k₃.markDead pr.thread = some k₄ ∧ k' = k₄.requestCleanup ∧ t = pr.thread := by
  simp only [killBody, bind, bind_eq_some_iff, some.injEq, Prod.mk.injEq] at h
  obtain ⟨k₁, h₁, k₂, h₂, pr, hpr, k₃, h₃, k₄, h₄, rfl, rfl⟩ := h
  exact ⟨pr, k₁, k₂, k₃, k₄, h₁, h₂, hpr, h₃, h₄, rfl, rfl⟩

lemma sysKill_cases (h : k.sysKill pid = some k') :
    k' = k ∨ ∃ proc k₁ t, k.procFind pid = some (some proc) ∧
      k.killBody proc = some (k₁, t) ∧
      (t = k₁.currThread ∧ k₁.leave = some k' ∨ t ≠ k₁.currThread ∧ k' = k₁) := by
  simp only [sysKill, bind, bind_eq_some_iff] at h
  obtain ⟨found, hfound, h⟩ := h
  cases found with
  | none =>
    rw [some.injEq] at h
    exact .inl h.symm
  | some proc =>
    simp only [bind_eq_some_iff] at h
    obtain ⟨⟨k₁, t⟩, hk₁, h⟩ := h
    refine .inr ⟨proc, k₁, t, hfound, hk₁, ?_⟩
    by_cases ht : t = k₁.currThread
    · rw [if_pos ht] at h
      exact .inl ⟨ht, h⟩
    · rw [if_neg ht, some.injEq] at h
      exact .inr ⟨ht, h.symm⟩

lemma isrHandler_cases (h : k.isrHandler = some k') :
    ∃ k₁ k₂, k.runqueueRemove k.currThread = some k₁ ∧ k₁.markDead k₁.currThread = some k₂ ∧
      k₂.leave = some k' := by
  simp only [isrHandler, faultBody, bind, bind_eq_some_iff] at h
  obtain ⟨k₂, ⟨k₁, h₁, h₂⟩, h⟩ := h
  exact ⟨k₁, k₂, h₁, h₂, h⟩

/-! ## Cleaning up and the timer -/

/-- `proc_cleanup` on a well-formed table: the dead are reaped, and `init` may be started. -/
lemma procCleanup_cases (hwf : Wf k.procList k) (h : k.procCleanup = some k') :
    ∃ k₁ rest, Wf rest k₁ ∧ Reaped k k₁ ∧
      (∀ p ∈ k.procList, ∀ pr th, k.procs p = some pr → k.threads pr.thread = some th →
        (p ∈ rest ↔ th.state ≠ .dead)) ∧
      (k' = k₁.setProcList rest ∨
        ∃ entry pid, (k₁.setProcList rest).procCreate entry = some (k', pid)) := by
  obtain ⟨k₁, rest, hreap, hwf₁, hreaped, -, hiff⟩ := reap_spec k.procList [] k hwf
  simp only [procCleanup, hreap, bind, bind_some, bind_eq_some_iff] at h
  obtain ⟨alive, -, h⟩ := h
  refine ⟨k₁, rest, hwf₁, hreaped, hiff, ?_⟩
  split_ifs at h
  · simp only [bind_eq_some_iff, some.injEq] at h
    obtain ⟨entry, -, ⟨k₂, pid⟩, hk₂, rfl⟩ := h
    exact .inr ⟨entry, pid, hk₂⟩
  · rw [some.injEq] at h
    exact .inl h.symm

lemma timerTick_cases (h : k.timerTick = some k') :
    k' = k.ticked ∨ k.procNeedsCleanup = true ∧ k.ticked.cleanupTaken.procCleanup = some k' := by
  unfold timerTick at h
  dsimp only at h
  split_ifs at h with hc
  · exact .inr ⟨hc, h⟩
  · rw [some.injEq] at h
    exact .inl h.symm

lemma irqTimer_cases (h : k.irqTimer = some k') :
    ∃ k₁, k.timerTick = some k₁ ∧ (k' = k₁ ∨ k₁.schedule = some k') := by
  simp only [irqTimer, bind, bind_eq_some_iff] at h
  obtain ⟨k₁, h₁, h⟩ := h
  refine ⟨k₁, h₁, ?_⟩
  split_ifs at h
  · exact .inr h
  · rw [some.injEq] at h
    exact .inl h.symm

/-- The state in which `kidle` starts `init`. -/
@[simps]
def enabled (k : Kernel) (v : Vfs) : Kernel :=
  { k with threadsEnabled := true, vfs := v, brk := k.brk + 1 }

lemma kidle_cases (h : k.kidle = some k') :
    ∃ v entry pid, (k.enabled v).procCreate entry = some (k', pid) := by
  simp only [kidle, bind, bind_eq_some_iff, some.injEq] at h
  obtain ⟨entry, -, ⟨k₁, pid⟩, hk₁, rfl⟩ := h
  exact ⟨_, entry, pid, hk₁⟩

/-! ## Entries that at most wake threads -/

lemma enabled_wakes (v : Vfs) : Wakes anyWake k (k.enabled v) :=
  Wakes.quiet (wakes_of_eq (Nat.le_succ _) rfl rfl rfl)

lemma portCreate_wakes {tsc n : ℕ} (h : k.sysPortCreate tsc = some (k', n)) :
    Wakes anyWake k k' := (wakes_sysPortCreate h).quiet

lemma portForward_wakes {n : ℕ} {msg : List UInt8} (h : k.portForward token msg = some (k', n)) :
    Wakes anyWake k k' :=
  (wakes_portForward (S := fun _ => True) h fun _ _ _ _ => trivial).any

lemma portDestroy_wakes (h : k.sysPortDestroy token = some k') : Wakes anyWake k k' :=
  (wakes_sysPortDestroy (S := fun _ => True) h fun _ _ _ _ _ _ _ _ _ => trivial).any

lemma threadWakePid_wakes (h : k.threadWakePid pid = some k') : Wakes anyWake k k' :=
  (wakes_threadWakePid h).mono fun _ _ _ => exitWake.woken

/-- The entries, and the start of `kidle`, that at most wake threads. -/
inductive Woke (k : Kernel) : Op → Kernel → Prop
  | enabled (v : Vfs) : Woke k .kidle (k.enabled v)
  | portCreate {tsc n : ℕ} {k' : Kernel} : k.sysPortCreate tsc = some (k', n) →
      Woke k (.portCreate tsc) k'
  | portForward {token n : ℕ} {msg : List UInt8} {k' : Kernel} :
      k.portForward token msg = some (k', n) → Woke k (.portForward token msg) k'
  | portDestroy {token : ℕ} {k' : Kernel} : k.sysPortDestroy token = some k' →
      Woke k (.portDestroy token) k'
  | bareWake {pid : ℕ} {k' : Kernel} : k.threadWakePid pid = some k' → Woke k (.bareWake pid) k'

lemma Woke.wakes (h : k.Woke op k') : Wakes anyWake k k' := by
  cases h with
  | enabled v => exact enabled_wakes v
  | portCreate h => exact portCreate_wakes h
  | portForward h => exact portForward_wakes h
  | portDestroy h => exact portDestroy_wakes h
  | bareWake h => exact threadWakePid_wakes h

/-! ## What an entry passes through

`Passes` lists the states an entry comes to between two routines, so that an invariant is one
induction over it. -/

/-- The running thread, of the process `proc`, is in `port_receive` on the port `p`: it has just
found it, or it comes back from `schedule()`. -/
inductive Receives (k : Kernel) (proc p : Ptr) (len : ℕ) : Op → Prop
  | called {token i : ℕ} {pr : Process} {q : Ptr} : k.procs proc = some pr →
      k.portSlotIn pr token (List.range maxPorts) = some (some (i, q)) →
      k.portLookup token = some (some p) → Receives k proc p len (.portReceive token len)
  | resumed {th : Thread} : k.threads k.currThread = some th → th.call = .receive p len →
      Receives k proc p len .resume

/-- The current thread `th` blocks and is written back as `th'`. -/
inductive Blocks (k : Kernel) (th : Thread) : Op → Thread → Prop
  | waitPid {pid : ℕ} {target : Ptr} {pr : Process} : th.call = .user →
      k.procFind pid = some (some target) → k.procs target = some pr → pr.pid = pid →
      Blocks k th (.waitPid pid) (th.blockOnPid pid pid)
  | sleep {ms : ℕ} : th.call = .user →
      Blocks k th (.sleep ms) (th.blockAsleep k.lapicTimerTicks ms)
  | receive {op : Op} {proc p : Ptr} {len : ℕ} : th.process = some proc →
      th.call = .user ∨ (∃ q n, th.call = .receive q n) → k.Receives proc p len op →
      Blocks k th op (th.blockOnPort p len)

lemma Blocks.keeps {th th' : Thread} (h : k.Blocks th op th') :
    th'.next = th.next ∧ th'.process = th.process ∧ th'.kernelStack = th.kernelStack ∧
      th'.state = .blocked := by
  cases h <;> exact ⟨rfl, rfl, rfl, rfl⟩

lemma Blocks.ne_timer {th th' : Thread} (h : k.Blocks th op th') : op ≠ .timer := by
  rintro rfl
  cases h with
  | receive _ _ hrec => cases hrec

/-- An entry that has ended the thread `t`. -/
inductive Dies (k : Kernel) : Op → Ptr → Kernel → Prop
  | exit {th : Thread} {proc : Ptr} {k' : Kernel} : k.threads k.currThread = some th →
      th.process = some proc → k.exitBody = some k' → Dies k .exit k.currThread k'
  | kill {pid : ℕ} {proc t : Ptr} {k' : Kernel} : k.procFind pid = some (some proc) →
      k.killBody proc = some (k', t) → Dies k (.kill pid) t k'
  | exception {th : Thread} {proc : Ptr} {k₁ k' : Kernel} : k.threads k.currThread = some th →
      th.process = some proc → k.runqueueRemove k.currThread = some k₁ →
      k₁.markDead k.currThread = some k' → Dies k .exception k.currThread k'

/-- The thread `t`, not the idle thread, is taken out of the queue and marked dead; before and
after it threads are woken at most. -/
structure Retires (k : Kernel) (t : Ptr) (k' : Kernel) : Prop where
  parts : ∃ k₁ k₂ k₃, Wakes anyWake k k₁ ∧ t ≠ k₁.idleThread ∧ k₁.runqueueRemove t = some k₂ ∧
    k₂.markDead t = some k₃ ∧ Wakes anyWake k₃ k'

/-- Closing the ports and descriptors of a process. -/
lemma closeAll_wakes {k₁ k₂ : Kernel} (h₁ : k.closePorts proc = some k₁)
    (h₂ : k₁.closeFds proc = some k₂) : Wakes anyWake k k₂ :=
  (wakes_closePorts h₁).comp (wakes_closeFds h₂).quiet fun _ _ _ _ => Thread.Woken.trans

lemma Dies.retires {L : List Ptr} (hwf : Wf L k) (h : k.Dies op t k') :
    k.Retires t k' := by
  cases h with
  | exit ht hp hs =>
    obtain ⟨proc, pr, k₁, k₂, k₃, k₄, -, -, h₁, h₂, h₃, h₄, h₅⟩ := exitBody_cases hs
    have hw := closeAll_wakes h₁ h₂
    rw [(runqueueRemove_frame h₃).curr, hw.curr] at h₄
    rw [hw.curr] at h₃
    refine ⟨k₂, k₃, k₄, hw, ?_, h₃, h₄, wakes_requestCleanup.quiet.comp
      (threadWakePid_wakes h₅) fun _ _ _ _ => Thread.Woken.trans⟩
    rw [hw.idle]
    exact hwf.ne_idle ht (by simp [hp])
  | kill _ hs =>
    obtain ⟨pr, k₁, k₂, k₃, k₄, h₁, h₂, hpr, h₃, h₄, rfl, rfl⟩ := killBody_cases hs
    have hw := closeAll_wakes h₁ h₂
    exact ⟨k₂, k₃, k₄, hw, (hwf.wakes hw).thread_ne_idle hpr, h₃, h₄,
      wakes_requestCleanup.quiet⟩
  | exception ht hp h₁ h₂ =>
    exact ⟨k, _, _, .refl (fun _ _ => .same) k, hwf.ne_idle ht (by simp [hp]), h₁, h₂,
      .refl (fun _ _ => .same) _⟩

/-- `schedule()` behind a death must not come back. -/
lemma leave_eq_some (h : k.leave = some k') :
    k.schedule = some k' ∧ k'.currThread ≠ k.currThread := by
  simp only [leave, bind, bind_eq_some_iff] at h
  obtain ⟨k₁, hs, h⟩ := h
  split_ifs at h with hc
  obtain rfl := some.inj h
  exact ⟨hs, hc⟩

/-- Where an entry stands: the current thread goes on, it is about to call `schedule()`, or it
is dead and the call must not come back. -/
inductive Phase
  | going
  | asking
  | leaving

/-- The entry by `op` from `k` passes through the state `k'`. -/
inductive Passes (k : Kernel) (op : Op) : Phase → Kernel → Prop
  | start : Passes k op .going k
  | woke {k₁ : Kernel} : k.Woke op k₁ → Passes k op .going k₁
  | ticked (b : Bool) : op = .timer → Passes k op .going { k.ticked with procNeedsCleanup := b }
  | reaped {k₁ k₂ : Kernel} {rest : List Ptr} : Passes k op .going k₁ → Reaped k₁ k₂ →
      Wf rest k₂ → (∀ p ∈ k₁.procList, ∀ pr th, k₁.procs p = some pr →
        k₁.threads pr.thread = some th → (p ∈ rest ↔ th.state ≠ .dead)) →
      Passes k op .going (k₂.setProcList rest)
  | created {k₁ k₂ : Kernel} {entry pid : ℕ} : Passes k op .going k₁ →
      k₁.nextProcId = k.nextProcId → k₁.procCreate entry = some (k₂, pid) →
      Passes k op .going k₂
  | asked {k₁ : Kernel} : Passes k op .going k₁ → Passes k op .asking k₁
  | blocked {th th' : Thread} : k.threads k.currThread = some th → th.process ≠ none →
      k.Blocks th op th' → Passes k op .asking (k.setThread k.currThread th')
  | scheduled {k₁ k₂ : Kernel} : Passes k op .asking k₁ → k₁.schedule = some k₂ →
      Passes k op .going k₂
  | died {t : Ptr} {k₁ : Kernel} : k.Dies op t k₁ → Passes k op .leaving k₁
  | spared {t : Ptr} {k₁ : Kernel} : k.Dies op t k₁ → t ≠ k₁.currThread → Passes k op .going k₁
  | left {k₁ k₂ : Kernel} : Passes k op .leaving k₁ → k₁.schedule = some k₂ →
      k₂.currThread ≠ k₁.currThread → Passes k op .going k₂
  | received {p node : Ptr} {port : Port} {len : ℕ} {k₁ : Kernel} {r : Received} {th : Thread} :
      k.ports p = some port → k.dequeue p port node len = some (k₁, r) →
      k.threads k.currThread = some th → th.process ≠ none → k₁.threads = k.threads →
      k₁.currThread = k.currThread → (∃ proc, k.Receives proc p len op) →
      Passes k op .going (k₁.setThread k.currThread th.toUser)
  | returned {th : Thread} : op = .resume → k.threads k.currThread = some th →
      th.process ≠ none → Passes k op .going (k.setThread k.currThread th.toUser)
  | bareNext {k₁ : Kernel} {n : Ptr} : op = .bareNext → k.runqueueNext = some (k₁, n) →
      Passes k op .going k₁
  | bareRemove {k₁ : Kernel} {t : Ptr} {th : Thread} : op = .bareRemove t →
      k.threads t = some th → k.runqueueRemove t = some k₁ → Passes k op .going k₁

namespace Passes

variable {k k' k₁ : Kernel} {op : Op}

lemma cleanup (h : k.Passes op .going k₁) (hid : k₁.nextProcId = k.nextProcId)
    (hwf : Wf k₁.procList k₁) (hc : k₁.procCleanup = some k') : k.Passes op .going k' := by
  obtain ⟨k₂, rest, hwf₂, hr, hrest, hk'⟩ := procCleanup_cases hwf hc
  have h₂ : k.Passes op .going (k₂.setProcList rest) := .reaped h hr hwf₂ hrest
  rcases hk' with rfl | ⟨entry, pid, hcr⟩
  · exact h₂
  · refine .created h₂ ?_ hcr
    rw [← hid, hr.rest]
    rfl

lemma timerTick (hwf : Wf k.procList k) (ht : k.timerTick = some k') :
    k.Passes .timer .going k' := by
  rcases timerTick_cases ht with rfl | ⟨-, hc⟩
  · exact .ticked k.procNeedsCleanup rfl
  · have hwf' : Wf k.ticked.cleanupTaken.procList k.ticked.cleanupTaken := { hwf with }
    exact cleanup (.ticked false rfl) rfl hwf' hc

lemma leave (h : k.Passes op .leaving k₁) (hl : k₁.leave = some k') : k.Passes op .going k' :=
  .left h (leave_eq_some hl).1 (leave_eq_some hl).2

/-- One turn of the loop of `port_receive`. -/
lemma portReceiveLoop {th : Thread} {proc p : Ptr} {len : ℕ} {r : Option Received}
    (ht : k.threads k.currThread = some th) (hp : th.process = some proc)
    (hcall : th.call = .user ∨ ∃ q n, th.call = .receive q n) (hrec : k.Receives proc p len op)
    (hl : k.portReceiveLoop p len = some (k', r)) : k.Passes op .going k' := by
  have hp' : th.process ≠ none := by simp [hp]
  rcases portReceiveLoop_cases hl with
    ⟨port, th₁, -, -, -, ht₁, hs⟩ | ⟨port, node, k₁, r', th₁, hport, -, -, hd, ht₁, rfl⟩
  · obtain rfl := mem_unique ht ht₁
    exact .scheduled (.blocked ht hp' (.receive hp hcall hrec)) hs
  · have hsame : k₁.threads = k.threads ∧ k₁.currThread = k.currThread := by
      obtain ⟨m, port', -, -, rfl⟩ := dequeue_requeued hd
      exact ⟨rfl, rfl⟩
    rw [hsame.1, hsame.2] at ht₁
    obtain rfl := mem_unique ht ht₁
    rw [hsame.2]
    exact .received hport hd ht hp' hsame.1 hsame.2 ⟨proc, hrec⟩

end Passes

/-- The state an entry leaves is one it passes through, with the current thread going on. -/
lemma step_passes (hwf : Wf k.procList k) (hs : k.step op = some k') :
    k.Passes op .going k' := by
  cases op with
  | kidle =>
    simp only [step] at hs
    split_ifs at hs
    obtain ⟨v, entry, pid, hc⟩ := kidle_cases hs
    exact .created (.woke (.enabled _)) rfl hc
  | timer =>
    obtain ⟨k₁, ht, rfl | hsch⟩ := irqTimer_cases hs
    · exact .timerTick hwf ht
    · exact .scheduled (.asked (.timerTick hwf ht)) hsch
  | schedule => exact .scheduled (.asked .start) hs
  | cleanup => exact Passes.start.cleanup rfl hwf hs
  | spawn entry =>
    obtain ⟨-, pid, hc⟩ := asUser_fst hs
    exact .created .start rfl hc
  | waitPid pid =>
    obtain ⟨⟨th, proc, ht, hp, hcall⟩, hs⟩ := asUser_eq_some hs
    rcases sysWaitPid_cases hs with rfl | ⟨target, pr, th₁, hfound, hpr, hpid, ht₁, hsch⟩
    · exact .start
    · obtain rfl := mem_unique ht ht₁
      exact .scheduled (.blocked ht (by simp [hp]) (.waitPid hcall hfound hpr hpid)) hsch
  | sleep ms =>
    obtain ⟨⟨th, proc, ht, hp, hcall⟩, hs⟩ := asUser_eq_some hs
    obtain ⟨th₁, ht₁, hsch⟩ := sysSleep_cases hs
    obtain rfl := mem_unique ht ht₁
    exact .scheduled (.blocked ht (by simp [hp]) (.sleep hcall)) hsch
  | exit =>
    obtain ⟨⟨th, proc, ht, hp, -⟩, hs⟩ := asUser_eq_some hs
    simp only [sysExit, bind, bind_eq_some_iff] at hs
    obtain ⟨k₁, hbody, hleave⟩ := hs
    exact Passes.leave (.died (.exit ht hp hbody)) hleave
  | kill pid =>
    rcases sysKill_cases (asUser_eq_some hs).2 with
      rfl | ⟨proc, k₁, t, hfound, hbody, ⟨-, hleave⟩ | ⟨hne, rfl⟩⟩
    · exact .start
    · exact Passes.leave (.died (.kill hfound hbody)) hleave
    · exact .spared (.kill hfound hbody) hne
  | exception =>
    obtain ⟨⟨th, proc, ht, hp, -⟩, hs⟩ := asUser_eq_some hs
    obtain ⟨k₁, k₂, h₁, h₂, hleave⟩ := isrHandler_cases hs
    rw [(runqueueRemove_frame h₁).curr] at h₂
    exact Passes.leave (.died (.exception ht hp h₁ h₂)) hleave
  | portCreate tsc =>
    obtain ⟨-, n, hc⟩ := asUser_fst hs
    exact .woke (.portCreate hc)
  | portForward token msg =>
    obtain ⟨-, n, hc⟩ := asUser_fst hs
    exact .woke (.portForward hc)
  | portReceive token len =>
    obtain ⟨⟨th, proc, ht, hp, hcall⟩, r, hc⟩ := asUser_fst hs
    rcases sysPortReceive_cases hc with
      ⟨rfl, -⟩ | ⟨proc₁, pr, i, q, p, hproc, hpr, hslot, hfound, hl⟩
    · exact .start
    · rw [currProc, ht, bind_some] at hproc
      exact .portReceiveLoop ht hproc (.inl hcall) (.called hpr hslot hfound) hl
  | portDestroy token => exact .woke (.portDestroy (asUser_eq_some hs).2)
  | resume =>
    obtain ⟨th, proc, r, ht, hp, hr⟩ := step_resume hs
    obtain ⟨th₁, ht₁, hcase⟩ := resume_cases hr
    obtain rfl := mem_unique ht ht₁
    rcases hcase with ⟨-, -, hk'⟩ | ⟨p, len, hcall, hl⟩
    · exact hk' ▸ .returned rfl ht (by simp [hp])
    · exact .portReceiveLoop ht hp (.inr ⟨_, _, hcall⟩) (.resumed ht hcall) hl
  | bareNext =>
    obtain ⟨⟨k₁, n⟩, hn, rfl⟩ := map_eq_some_iff.mp hs
    exact .bareNext rfl hn
  | bareRemove t =>
    obtain ⟨th, ht, hr⟩ := step_bareRemove hs
    exact .bareRemove rfl ht hr
  | bareWake pid => exact .woke (.bareWake hs)

end Kernel

end CobjOs
