import CobjOs.Kernel.Mail
import CobjOs.Kernel.PreemptQueue
import CobjOs.Properties.RunQueue

/-!
# Messages that wake nobody

`port_receive` tests its queue, sets its thread `THREAD_BLOCKED` and calls `schedule()`, with
interrupts enabled all the while, and `port_forward` wakes the owner of the port only if it
finds it `THREAD_BLOCKED`.  A message that is sent between the test and the write wakes nobody,
and the receiver then sleeps on a queue that is not empty.  When no message is sent to a port
whose owner is at that point, a sleeping owner always has an empty queue.
-/

namespace CobjOs

open Function Kernel Option

namespace Preempt

/-- The thread is inside `port_receive` on this port. -/
def receivesOn (s : Preempt) (t : Ptr) : Option Ptr := (s.rest t).head?.bind Stmt.port?

/-- The thread has found the port empty and is about to block. -/
def aboutToBlock (s : Preempt) (t p : Ptr) : Bool :=
  match (s.rest t).head? with
  | some (.setBlocked q _) => q == p
  | _ => false

/-- No message is sent to a port whose owner is about to block on it. -/
def forwardOk (s : Preempt) : PreemptOp → Bool
  | .atomic (.portForward token _) =>
    match s.kernel.portLookup token with
    | some (some p) => (s.kernel.ports p).all fun port => (s.kernel.procs port.owner).all fun pr =>
        !s.aboutToBlock pr.thread p
    | _ => true
  | _ => true

end Preempt

/-! ## Queues that fill -/

/-- A port with a queue that is not empty was there before, with the same owner, and its queue
was not empty then unless the port is in `F`. -/
def Drains (F : Ptr → Prop) (k k' : Kernel) : Prop :=
  ∀ p port', k'.ports p = some port' → port'.head ≠ none →
    ∃ port, k.ports p = some port ∧ port.owner = port'.owner ∧ (F p ∨ port.head ≠ none)

namespace Drains

variable {F : Ptr → Prop} {k k' : Kernel}

lemma of_portsFrom (h : PortsFrom F k k') : Drains F k k' := by
  intro p port' hp hne
  obtain ⟨port, hport, hfrom⟩ := h p port' hp
  exact ⟨port, hport, hfrom.owner.symm, hfrom.head hne⟩

/-- Only a port that is sent a message gets a queue that is not empty. -/
lemma step (hwf : Wf k.procList k) {op : Op} (hs : k.step op = some k') :
    Drains (k.SendsTo op) k k' := by
  intro p port' hp hne
  rcases (step_mail hwf hs).port hp with
    ⟨port, hport, hfrom⟩ | ⟨tsc, owner, -, -, -, rfl⟩
  · exact ⟨port, hport, hfrom.owner.symm, hfrom.head hne⟩
  · exact absurd rfl hne

/-- No statement sends a message. -/
lemma ran {c : Stmt} {more : List Stmt} (h : Stmt.Ran k k' c more) : Drains F k k' := by
  refine of_portsFrom ?_
  cases h with
  | noPort hk' | noFile hk' | stay _ _ hk' | empty _ _ hk' => exact .of_ports (by rw [hk'])
  | destroyPort hd => exact PortsFrom.portDestroy (.of_ports rfl) hd
  | clearSlot hm | clearFd hm => exact .of_same (.modProc hm)
  | closeFile hk' => exact .of_ports (by rw [hk'])
  | removeCurr hr => exact .of_same (.threadsOnly (ThreadsOnly.runqueueRemove hr))
  | removeThread _ hr => exact .of_same (.threadsOnly (ThreadsOnly.runqueueRemove hr))
  | killCurr hd => exact .of_same (.threadsOnly (ThreadsOnly.markDead hd))
  | killThread _ hd => exact .of_same (.threadsOnly (ThreadsOnly.markDead hd))
  | requestCleanup hk' => exact .of_ports (by rw [hk']; rfl)
  | wakePid hw => exact .of_same (.threadsOnly (ThreadsOnly.threadWakePid hw))
  | leave hl | leaveIfCurr _ _ hl =>
    exact .of_same (.threadsOnly (ThreadsOnly.schedule (leave_eq_some hl).1))
  | taken hport hhead hd => exact PortsFrom.dequeue hport hhead hd
  | setBlocked _ hk' => exact .of_ports (by rw [hk']; rfl)
  | callSchedule hs => exact .of_same (.threadsOnly (ThreadsOnly.schedule hs))

end Drains

/-! ## The owner of a port -/

namespace Kernel

variable {k k' : Kernel} {p t : Ptr} {port port' : Port}

/-- `t` is the thread of the process that owns the port. -/
def OwnedBy (k : Kernel) (port : Port) (t : Ptr) : Prop :=
  ∃ pr, k.procs port.owner = some pr ∧ pr.thread = t

/-- A filled queue of an old thread, seen from before the step. -/
lemma OwnedBy.before {c F : Ptr → Prop} (h : k'.OwnedBy port' t) (hm : Move c k k')
    (hd : Drains F k k') (ht : t < k.brk) (hp : k'.ports p = some port')
    (hne : port'.head ≠ none) :
    ∃ port, k.ports p = some port ∧ k.OwnedBy port t ∧ (F p ∨ port.head ≠ none) := by
  obtain ⟨port, hport, howner, hF⟩ := hd p port' hp hne
  obtain ⟨pr', hpr', hthr'⟩ := h
  refine ⟨port, hport, ?_, hF⟩
  rcases hm.proc hpr' with ⟨pr, hpr, hthr⟩ | ⟨-, hle⟩
  · exact ⟨pr, howner ▸ hpr, hthr ▸ hthr'⟩
  · rw [hthr'] at hle
    exact absurd ht (Nat.not_lt.mpr hle)

lemma portForward_wakes_owner {token n : ℕ} {msg : List UInt8} {th' : Thread}
    (h : k.portForward token msg = some (k', n)) (hfound : k.portLookup token = some (some p))
    (hport : k.ports p = some port) (ho : k.OwnedBy port t) (ht : k'.threads t = some th') :
    th'.state ≠ .blocked := by
  obtain ⟨pr, hpr, rfl⟩ := ho
  rcases portForward_cases h with
    ⟨hnone, -, -⟩ | ⟨q, port₁, k₁, hfound₁, hport₁, h₁, h₂, -⟩
  · simp [hfound] at hnone
  rw [hfound, some.injEq, some.injEq] at hfound₁
  subst hfound₁
  obtain rfl := mem_unique hport hport₁
  have hprocs : k₁.procs port.owner = some pr := by
    obtain ⟨m, port', -, -, rfl⟩ := enqueue_requeued h₁
    exact hpr
  simp only [Kernel.wakeOwner, hprocs, bind, bind_some, bind_eq_some_iff,
    some.injEq] at h₂
  obtain ⟨th, hth, rfl⟩ := h₂
  split_ifs at ht with hb
  · rw [setThread_threads, update_self, some.injEq] at ht
    simp [← ht]
  · rw [hth, some.injEq] at ht
    exact ht ▸ hb

end Kernel

/-! ## The invariant -/

/-- A thread that is about to block on its port, or is blocked inside `port_receive` on it,
has an empty queue there. -/
structure Preempt.Delivered (s : Preempt) : Prop where
  queued : ∃ l, s.Queued l
  about : ∀ {t p port}, s.aboutToBlock t p = true → s.kernel.ports p = some port →
    s.kernel.OwnedBy port t → port.head = none
  asleep : ∀ {t th p port}, s.kernel.threads t = some th → th.state = .blocked →
    s.receivesOn t = some p → s.kernel.ports p = some port → s.kernel.OwnedBy port t →
    port.head = none

namespace Preempt

variable {s s' : Preempt} {t p : Ptr}

lemma receivesOn_of_about (h : s.aboutToBlock t p = true) : s.receivesOn t = some p := by
  unfold aboutToBlock at h
  split at h
  · next q len hq =>
    rw [receivesOn, hq]
    simpa [Stmt.port?] using h
  · simp at h

lemma rest_ne_nil (h : s.receivesOn t = some p) : s.rest t ≠ [] := by
  intro hnil
  simp [receivesOn, hnil] at h

namespace Delivered

/-- An entry outside the lists. -/
lemma atomic (h : s.Delivered) {op : Op} {k : Kernel}
    (hop : op = .timer ∨ op.staysAtomic = true ∧ s.rest s.kernel.currThread = [])
    (hok : s.forwardOk (.atomic op) = true) (hk : s.kernel.step op = some k)
    (hq : ∃ l, ({ s with kernel := k } : Preempt).Queued l) :
    ({ s with kernel := k } : Preempt).Delivered := by
  obtain ⟨l, hl⟩ := h.queued
  have hm := Move.passes hl.inv.wf (step_passes hl.inv.wf hk)
  have hd := Drains.step hl.inv.wf hk
  refine ⟨hq, ?_, ?_⟩
  · intro t p port' habout hp ho
    by_contra hne
    have hbusy := hl.inv.busy (rest_ne_nil (receivesOn_of_about habout))
    obtain ⟨port, hport, hown, hsent | hfull⟩ := ho.before hm hd hbusy.2 hp hne
    · obtain ⟨token, msg, rfl, hfound⟩ := hsent
      obtain ⟨pr, hpr, rfl⟩ := hown
      have hnot : s.aboutToBlock pr.thread p = false := by
        simpa [forwardOk, hfound, hport, hpr] using hok
      have habout' : s.aboutToBlock pr.thread p = true := habout
      simp [hnot] at habout'
    · exact hfull (h.about habout hport hown)
  · intro t th' p port' ht' hb hrec hp ho
    by_contra hne
    have hbusy := hl.inv.busy (rest_ne_nil hrec)
    obtain ⟨port, hport, hown, hF⟩ := ho.before hm hd hbusy.2 hp hne
    -- the thread was blocked before: the entry blocks at most a thread outside its list
    have hold : ∃ th, s.kernel.threads t = some th ∧ th.state = .blocked := by
      refine (hm.blocked ht' hb).resolve_left ?_
      rintro ⟨rfl, hne⟩
      exact rest_ne_nil hrec (hop.resolve_left hne).2
    obtain ⟨th, ht, hb₀⟩ := hold
    rcases hF with ⟨token, msg, rfl, hfound⟩ | hfull
    · obtain ⟨-, n, hc⟩ := asUser_fst hk
      exact portForward_wakes_owner hc hfound hport hown ht' hb
    · exact hfull (h.asleep ht hb₀ hrec hport hown)

/-- The current thread starts a call; it is not blocked. -/
lemma enter (h : s.Delivered) {stmts : List Stmt} (hempty : s.rest s.kernel.currThread = [])
    (hset : ∀ p len cs, stmts ≠ .setBlocked p len :: cs)
    (hq : ∃ l, (s.enter stmts).Queued l) : (s.enter stmts).Delivered := by
  refine ⟨hq, ?_, ?_⟩
  · intro t p port habout hp ho
    by_cases htc : t = s.kernel.currThread
    · have hrest : (s.enter stmts).rest t = stmts := by
        rw [htc]
        exact update_self _ _ _
      unfold aboutToBlock at habout
      rw [hrest] at habout
      cases stmts with
      | nil => simp at habout
      | cons c cs =>
        cases c with
        | setBlocked q len => exact absurd rfl (hset q len cs)
        | _ => simp at habout
    · refine h.about (t := t) ?_ hp ho
      simpa [aboutToBlock, Preempt.enter, update_of_ne htc] using habout
  · intro t th p port ht hb hrec hp ho
    by_cases htc : t = s.kernel.currThread
    · obtain ⟨l, hl⟩ := h.queued
      rcases hl.free with hfree | ⟨q, len, hwait⟩
      · exact absurd hb (hfree th (htc ▸ ht))
      · simp [hempty] at hwait
    · refine h.asleep ht hb ?_ hp ho
      simpa [receivesOn, Preempt.enter, update_of_ne htc] using hrec

lemma ran (h : s.Delivered) {c : Stmt} {cs more : List Stmt} {k : Kernel}
    (hrest : s.rest s.kernel.currThread = c :: cs) (hc : Stmt.Ran s.kernel k c more)
    (hs' : s' = { kernel := k, rest := update s.rest s.kernel.currThread (more ++ cs) })
    (hq : ∃ l, s'.Queued l) : s'.Delivered := by
  obtain ⟨l, hl⟩ := h.queued
  have hbusy := hl.inv.busy (t := s.kernel.currThread) (by simp [hrest])
  have hshape : Stmt.Shape (c :: cs) := hrest ▸ hl.shape _
  have hm := Move.ran hl.inv.wf hbusy.1 hc
  have hd : Drains (fun _ => False) s.kernel k := .ran hc
  have hkernel : s'.kernel = k := by rw [hs']
  have hother : ∀ {u}, u ≠ s.kernel.currThread → s'.rest u = s.rest u := by
    intro u hu
    rw [hs']
    exact update_of_ne hu _ _
  have hself : s'.rest s.kernel.currThread = more ++ cs := by
    rw [hs']
    exact update_self _ _ _
  refine ⟨hq, ?_, ?_⟩
  · intro t p port' habout hp ho
    rw [hkernel] at hp ho
    by_contra hne
    by_cases htc : t = s.kernel.currThread
    · -- the current thread has just found the queue empty
      have hrec := receivesOn_of_about habout
      rw [receivesOn, htc, hself] at hrec
      unfold aboutToBlock at habout
      rw [htc, hself] at habout
      rcases hshape.receive_cases hc hrec with
        ⟨len, port, -, hport, hhead, hk⟩ | ⟨len, -, hnow⟩ | ⟨len, -, hnow, -⟩
      · rw [hk, hport, some.injEq] at hp
        exact hne (hp ▸ hhead)
      · simp [hnow] at habout
      · simp [hnow] at habout
    · have habout' : s.aboutToBlock t p = true := by
        simpa [aboutToBlock, hother htc] using habout
      have hold := hl.inv.busy (rest_ne_nil (receivesOn_of_about habout'))
      obtain ⟨port, hport, hown, hF | hfull⟩ := ho.before hm hd hold.2 hp hne
      · exact hF
      · exact hfull (h.about habout' hport hown)
  · intro t th' p port' ht' hb hrec hp ho
    rw [hkernel] at ht' hp ho
    by_contra hne
    by_cases htc : t = s.kernel.currThread
    · subst htc
      obtain ⟨port, hport, hown, hF | hfull⟩ := ho.before hm hd hbusy.2 hp hne
      · exact hF
      rw [receivesOn, hself] at hrec
      rcases hshape.receive_cases hc hrec with
        ⟨len, -, rfl, -, -, hk⟩ | ⟨len, rfl, -⟩ | ⟨len, rfl, -, hsch⟩
      · -- not blocked where it tests the queue
        rcases hl.free with hfree | ⟨q, n, hwait⟩
        · exact hfree th' (hk ▸ ht') hb
        · simp [hrest] at hwait
      · exact hfull (h.about (by simp [aboutToBlock, hrest]) hport hown)
      · have hm' : Move (fun _ => False) s.kernel k := .schedule hl.inv.wf hsch
        obtain ⟨th, ht, hb₀⟩ := (hm'.blocked ht' hb).resolve_left not_false
        exact hfull (h.asleep ht hb₀ (by simp [receivesOn, hrest, Stmt.port?]) hport hown)
    · have hrec' : s.receivesOn t = some p := by
        simpa [receivesOn, hother htc] using hrec
      have hold := hl.inv.busy (rest_ne_nil hrec')
      obtain ⟨port, hport, hown, hF | hfull⟩ := ho.before hm hd hold.2 hp hne
      · exact hF
      · obtain ⟨th, ht, hb₀⟩ := (hm.blocked ht' hb).resolve_left fun hc => htc hc.1
        exact hfull (h.asleep ht hb₀ hrec' hport hown)

lemma step (h : s.Delivered) {op : PreemptOp} (hok : s.forwardOk op = true)
    (hs : s.step op = some s') : s'.Delivered := by
  have hq : ∃ l, s'.Queued l := by
    obtain ⟨l, hl⟩ := h.queued
    exact hl.step hs
  cases Preempt.step_taken hs with
  | atomic hop hk hs' =>
    subst hs'
    exact h.atomic hop hok hk hq
  | exit _ _ hempty _ hs' | kill _ _ hempty _ hs' | portReceive _ _ hempty _ hs' =>
    subst hs'
    exact h.enter hempty nofun hq
  | same hs' => exact hs' ▸ h
  | advance hrest hran hs' => exact h.ran hrest hran hs' hq

end Delivered

end Preempt

/-! ## Whole runs -/

lemma delivered_start {initEntry : Option ℕ} {k : Kernel} (h : start initEntry = some k) :
    (Preempt.init k).Delivered := by
  obtain ⟨l, hsched⟩ := (good_start h).sched
  have hidle : k.idleThread ∈ l := by
    obtain ⟨th, hth, -, ha⟩ := hsched.wf.idle
    exact (hsched.member _).mpr ⟨not_false, th, hth, ha.ne_dead⟩
  have hlive : ∀ t ∈ l, ∃ th, k.threads t = some th ∧ th.state ≠ .dead :=
    fun t ht => ((hsched.member t).mp ht).2
  have hfree : CurrFree k := by
    rw [start_eq, some.injEq] at h
    subst h
    intro th hth
    have hfirst : some firstThread = some th := hth
    rw [some.injEq] at hfirst
    simp [← hfirst, firstThread]
  refine ⟨⟨l, .init hsched.wf, fun _ => .nil, ⟨hsched.queue, hidle, hlive⟩,
    by simp [Preempt.init], by simp [Preempt.init], .inl hfree⟩, ?_, ?_⟩
  · intro t p port habout
    simp [Preempt.aboutToBlock, Preempt.init] at habout
  · intro t th p port _ _ hrec
    simp [Preempt.receivesOn, Preempt.init] at hrec

/-- In a run in which no message is sent to a port while its owner stands between finding the
queue empty and setting itself `THREAD_BLOCKED`: whenever the owner of a port is blocked inside
`port_receive` on it, switched out or about to be, the queue of the port is empty. -/
theorem blocked_receiver_has_empty_queue {initEntry : Option ℕ} {k₀ : Kernel} {s : Preempt}
    {ls : List PreemptOp} {t p : Ptr} {th : Thread} {port : Port}
    (h₀ : start initEntry = some k₀)
    (hrun : Run Preempt.step (fun s op => s.forwardOk op = true) (Preempt.init k₀) ls s)
    (ht : s.kernel.threads t = some th) (hb : th.state = .blocked)
    (hrec : s.receivesOn t = some p) (hp : s.kernel.ports p = some port)
    (ho : s.kernel.OwnedBy port t) : port.head = none := by
  have hinv : s.Delivered := by
    refine hrun.invariant (delivered_start h₀) ?_
    intro s op s' hs hok hstep
    exact hs.step hok hstep
  exact hinv.asleep ht hb hrec hp ho

/-- `init` blocks, is woken by a message of its child, takes it, and blocks again. -/
theorem blocked_receiver_has_empty_queue_again : ∃ k₀ s th port, start (some 7) = some k₀ ∧
    Run Preempt.step (fun s op => s.forwardOk op = true) (Preempt.init k₀)
      [.atomic .kidle, .atomic .timer, .atomic (.portCreate 0), .atomic (.spawn 9),
        .portReceive 0 8, .advance, .advance, .advance, .atomic .timer,
        .atomic (.portForward 0 [1]), .atomic .timer, .atomic .timer, .advance,
        .portReceive 0 8, .advance, .advance, .advance] s ∧
    s.kernel.threads 5 = some th ∧ th.state = .blocked ∧ s.receivesOn 5 = some 11 ∧
    s.kernel.ports 11 = some port ∧ s.kernel.OwnedBy port 5 ∧ port.head = none := by
  obtain ⟨s, hrun, hP⟩ : ∃ s, Run Preempt.step (fun s op => s.forwardOk op = true)
      (Preempt.init (started (some 7)))
      [.atomic .kidle, .atomic .timer, .atomic (.portCreate 0), .atomic (.spawn 9),
        .portReceive 0 8, .advance, .advance, .advance, .atomic .timer,
        .atomic (.portForward 0 [1]), .atomic .timer, .atomic .timer, .advance,
        .portReceive 0 8, .advance, .advance, .advance] s ∧
      ((s.kernel.threads 5).any (fun th => th.state == .blocked) &&
        s.receivesOn 5 == some 11 && (s.kernel.ports 11).any fun port =>
          (s.kernel.procs port.owner).any fun pr => pr.thread == 5) = true :=
    Run.exists_of_exec Preempt.forwardOk (fun _ _ h => h) _ (by decide +kernel)
      (by decide +kernel)
  simp only [Bool.and_eq_true, any_eq_true, beq_iff_eq] at hP
  obtain ⟨⟨⟨th, ht, hb⟩, hrec⟩, port, hp, pr, hpr, hthr⟩ := hP
  exact ⟨_, s, th, port, start_eq (some 7), hrun, ht, hb, hrec, hp, ⟨pr, hpr, hthr⟩,
    blocked_receiver_has_empty_queue (start_eq (some 7)) hrun ht hb hrec hp ⟨pr, hpr, hthr⟩⟩

/-- `init` finds its queue empty and is preempted; its child sends a message, which wakes
nobody; `init` then sets itself `THREAD_BLOCKED` and is switched out, with the message in its
queue. -/
theorem receiver_sleeps_on_message : ∃ k₀ s th port, start (some 7) = some k₀ ∧
    Run Preempt.step (fun _ _ => True) (Preempt.init k₀)
      [.atomic .kidle, .atomic .timer, .atomic (.portCreate 0), .atomic (.spawn 9),
        .portReceive 0 8, .advance, .atomic .timer, .atomic .timer, .atomic .timer,
        .atomic (.portForward 0 [1]), .atomic .timer, .atomic .timer, .advance, .advance] s ∧
    s.kernel.threads 5 = some th ∧ th.state = .blocked ∧ s.kernel.currThread ≠ 5 ∧
    s.receivesOn 5 = some 11 ∧ s.kernel.ports 11 = some port ∧ s.kernel.OwnedBy port 5 ∧
    port.head ≠ none := by
  obtain ⟨s, hrun, hP⟩ : ∃ s, Run Preempt.step (fun _ _ => True)
      (Preempt.init (started (some 7)))
      [.atomic .kidle, .atomic .timer, .atomic (.portCreate 0), .atomic (.spawn 9),
        .portReceive 0 8, .advance, .atomic .timer, .atomic .timer, .atomic .timer,
        .atomic (.portForward 0 [1]), .atomic .timer, .atomic .timer, .advance, .advance] s ∧
      ((s.kernel.threads 5).any (fun th => th.state == .blocked) &&
        s.kernel.currThread != 5 && s.receivesOn 5 == some 11 &&
        (s.kernel.ports 11).any fun port =>
          ((s.kernel.procs port.owner).any fun pr => pr.thread == 5) &&
            port.head != none) = true :=
    Run.exists_of_exec (fun _ _ => true) (fun _ _ _ => trivial) _ (by decide +kernel)
      (by decide +kernel)
  simp only [Bool.and_eq_true, any_eq_true, beq_iff_eq, bne_iff_ne] at hP
  obtain ⟨⟨⟨⟨th, ht, hb⟩, hcurr⟩, hrec⟩, port, hp, ⟨pr, hpr, hthr⟩, hhead⟩ := hP
  exact ⟨_, s, th, port, start_eq (some 7), hrun, ht, hb, hcurr, hrec, hp, ⟨pr, hpr, hthr⟩,
    hhead⟩

end CobjOs
