import CobjOs.Properties.RunQueue

/-!
# Waiting for the end of a process

`sys_wait_pid` blocks its caller until `thread_wake_pid` finds it with that process id.  Only
`sys_exit` calls `thread_wake_pid`; `sys_kill` and the user-mode exception do not, and a wait that
begins between the death of a process and its reaping has nobody left to end it.  As long as no
process is killed or faults while somebody waits for it, and no wait begins on a dead process, every
thread blocked in `sys_wait_pid` waits for a process that is listed and alive.
-/

namespace CobjOs

variable {k k' : Kernel} {pid : ℕ}

open Kernel Option

namespace Kernel

/-- A listed process with that id has a thread that is not dead. -/
def AliveId (k : Kernel) (pid : ℕ) : Prop :=
  ∃ p ∈ k.procList, ∃ pr th, k.procs p = some pr ∧ pr.pid = pid ∧
    k.threads pr.thread = some th ∧ th.state ≠ .dead

instance (k : Kernel) (pid : ℕ) : Decidable (k.AliveId pid) :=
  decidable_of_iff (k.procList.any (fun p => (k.procs p).any fun pr => pr.pid == pid &&
      (k.threads pr.thread).any fun th => th.state != .dead) = true) <| by
    simp only [AliveId, List.any_eq_true, any_eq_true, Bool.and_eq_true, beq_iff_eq,
      bne_iff_ne]
    constructor
    · rintro ⟨p, hp, pr, hpr, hpid, th, hth, hd⟩
      exact ⟨p, hp, pr, th, hpr, hpid, hth, hd⟩
    · rintro ⟨p, hp, pr, th, hpr, hpid, hth, hd⟩
      exact ⟨p, hp, pr, hpr, hpid, th, hth, hd⟩

/-- Some thread is blocked in `sys_wait_pid(pid)`. -/
def isAwaited (k : Kernel) (pid : ℕ) : Bool :=
  (List.range k.brk).any fun t =>
    (k.threads t).any fun th => th.state == .blocked && th.call == .waitPid pid

/-- `proc_find(pid)` finds a process whose thread is dead. -/
def findsDead (k : Kernel) (pid : ℕ) : Bool :=
  match k.procFind pid with
  | some (some p) => (k.procs p).any fun pr => k.stateOf pr.thread == some .dead
  | _ => false

/-- The process id of the current thread. -/
def currPid (k : Kernel) : Option ℕ := (k.currProc.bind k.procs).map Process.pid

/-- Nobody waits for a process that is killed or faults, and no wait begins on a dead one. -/
def exitWakeOk (k : Kernel) : Op → Bool
  | .kill pid => !k.isAwaited pid
  | .exception => k.currPid.all fun pid => !k.isAwaited pid
  | .waitPid pid => !k.findsDead pid
  | .bareNext | .bareRemove _ => false
  | _ => true

end Kernel

/-- Every thread blocked in `sys_wait_pid` waits for a process that is listed and alive, the
process ids in `S` excepted. -/
def Waits (S : ℕ → Prop) (k : Kernel) : Prop :=
  ∀ t th pid, k.threads t = some th → th.state = .blocked → th.call = .waitPid pid →
    th.waitingFor = pid ∧ (¬S pid → k.AliveId pid)

namespace Kernel.AliveId

variable {k k' : Kernel} {pid : ℕ}

lemma frame {T : Ptr → Thread → Thread → Prop} (h : k.AliveId pid) (hf : Frame T k k')
    (hT : ∀ t a b, T t a b → (b.state = .dead ↔ a.state = .dead)) : k'.AliveId pid := by
  obtain ⟨p, hp, pr, th, hpr, hpid, hth, hd⟩ := h
  obtain ⟨pr', hpr', hpid', hthr⟩ := hf.proc hpr
  obtain ⟨th', hth', hab⟩ := hf.thread hth
  exact ⟨p, by rw [hf.procList]; exact hp, pr', th', hpr', hpid'.trans hpid,
    by rw [hthr]; exact hth', fun hd' => hd ((hT _ _ _ hab).mp hd')⟩

lemma created {L : List Ptr} {v : Vfs} {brk : Ptr} {fds : ℕ → Option Ptr} (h : k.AliveId pid)
    (hwf : Wf L k) : (k.created v brk fds).AliveId pid := by
  obtain ⟨p, hp, pr, th, hpr, hpid, hth, hd⟩ := h
  have hpne : p ≠ k.brk := Nat.ne_of_lt (hwf.proc_lt hpr)
  have htne : pr.thread ≠ k.brk + 1 := Nat.ne_of_lt (Nat.lt_succ_of_lt (hwf.thread_lt hth))
  exact ⟨p, List.mem_cons_of_mem _ hp, pr, th, by simp [hpne, hpr], hpid,
    by simp [htne, hth], hd⟩

lemma reaped {k₁ : Kernel} {rest : List Ptr} (h : k.AliveId pid) (hr : Reaped k k₁)
    (hrest : ∀ p ∈ k.procList, ∀ pr th, k.procs p = some pr → k.threads pr.thread = some th →
      (p ∈ rest ↔ th.state ≠ .dead)) : (k₁.setProcList rest).AliveId pid := by
  obtain ⟨p, hp, pr, th, hpr, hpid, hth, hd⟩ := h
  exact ⟨p, (hrest p hp pr th hpr hth).mpr hd, pr, th, hr.proc_keep hpr hth hd, hpid,
    hr.keep hth hd, hd⟩

end Kernel.AliveId

namespace Waits

variable {S : ℕ → Prop} {k k' : Kernel} {l : List Ptr}

lemma frame {T : Ptr → Thread → Thread → Prop} (h : Waits S k) (hf : Frame T k k')
    (hT : ∀ t a b, T t a b → (b.state = .dead ↔ a.state = .dead))
    (hwait : ∀ t a b, T t a b → b.state = .blocked → ∀ pid, b.call = .waitPid pid →
      a.state = .blocked ∧ a.call = .waitPid pid ∧ b.waitingFor = a.waitingFor) :
    Waits S k' := by
  intro t th' pid ht' hb hc
  obtain ⟨th, ht, hab⟩ := hf.thread_back ht'
  obtain ⟨hb₀, hc₀, hw⟩ := hwait _ _ _ hab hb pid hc
  obtain ⟨hw₀, halive⟩ := h t th pid ht hb₀ hc₀
  exact ⟨hw.trans hw₀, fun hS => (halive hS).frame hf hT⟩

lemma wakes (h : Waits S k) (hw : Wakes anyWake k k') : Waits S k' := by
  refine h.frame hw.toFrame (fun _ _ _ hab => Thread.Woken.dead_iff hab) ?_
  intro t a b hab hb pid hc
  have heq := Thread.Woken.eq_of_blocked hab hb
  subst heq
  exact ⟨hb, hc, rfl⟩

lemma relink (h : Waits S k) (hf : Frame relink k k') : Waits S k' := by
  refine h.frame hf relink_dead ?_
  intro t a b hab hb pid hc
  unfold CobjOs.relink at hab
  rw [hab] at hb hc ⊢
  exact ⟨hb, hc, rfl⟩

/-- A write to one thread that does not start a wait. -/
lemma setThread (h : Waits S k) {t : Ptr} {th th' : Thread} (ht : k.threads t = some th)
    (hd : th'.state = .dead ↔ th.state = .dead)
    (hwait : th'.state = .blocked → ∀ pid, th'.call ≠ .waitPid pid) :
    Waits S (k.setThread t th') := by
  have hf : Frame (fun _ a b => b = a ∨ a = th ∧ b = th') k (k.setThread t th') :=
    .setThread (fun _ _ => .inl rfl) ht (.inr ⟨rfl, rfl⟩)
  refine h.frame hf ?_ ?_
  · rintro u a b (rfl | ⟨rfl, rfl⟩)
    · rfl
    · exact hd
  · rintro u a b (rfl | ⟨rfl, rfl⟩) hb pid hc
    · exact ⟨hb, hc, rfl⟩
    · exact absurd hc (hwait hb pid)

lemma schedule {L : List Ptr} (h : Waits S k) (hwf : Wf L k) (hs : k.schedule = some k') :
    Waits S k' := by
  obtain ⟨k₁, hf, hk', -⟩ := schedule_frame hwf.idle_awake hs
  have h₁ : Waits S k₁ := by
    refine h.frame hf (fun _ _ _ hab => moved.dead_iff hab) ?_
    intro t a b hab hb pid hc
    have heq := moved.eq_of_blocked hab hb
    subst heq
    exact ⟨hb, hc, rfl⟩
  rw [hk']
  exact h₁

lemma procCreate {L : List Ptr} (h : Waits S k) (hwf : Wf L k) {entry pid : ℕ}
    (hc : k.procCreate entry = some (k', pid)) : Waits S k' := by
  rcases procCreate_frame hc with rfl | ⟨v, brk, fds, -, hf⟩
  · exact h
  · refine Waits.relink ?_ hf
    intro t th pid ht hb hcall
    rcases Store.update_eq_some ht with ⟨-, rfl⟩ | ⟨-, ht⟩
    · simp at hb
    · obtain ⟨hw, halive⟩ := h t th pid ht hb hcall
      exact ⟨hw, fun hS => (halive hS).created hwf⟩

/-- The end of the thread of a process with the id `pid`: only waits for that id can be left
without a living process. -/
lemma retire {p : Ptr} {pr : Process} {k₁ : Kernel} (h : Waits (fun _ => False) k)
    (hwf : Wf k.procList k) (hp : k.procs p = some pr)
    (hrem : k.runqueueRemove pr.thread = some k₁) (hdead : k₁.markDead pr.thread = some k') :
    Waits (fun pid => pid = pr.pid) k' := by
  have hf := runqueueRemove_frame hrem
  have h₁ := h.relink hf
  obtain ⟨th₁, ht₁, rfl⟩ := modThread_eq_some hdead
  have hwf₁ : Wf k₁.procList k₁ := by
    rw [hf.procList]
    exact hwf.relink hf
  obtain ⟨pr₁, hp₁, hpid₁, hthr₁⟩ := hf.proc hp
  intro u th pid hu hb hc
  rcases Store.update_eq_some hu with ⟨-, rfl⟩ | ⟨-, hu⟩
  · simp at hb
  obtain ⟨hw, halive⟩ := h₁ u th pid hu hb hc
  refine ⟨hw, fun hne => ?_⟩
  obtain ⟨q, hq, qr, thq, hqr, hqpid, hthq, hqd⟩ := halive id
  have hqt : qr.thread ≠ pr.thread := by
    intro heq
    have hqp : q = p := hwf₁.thread_inj hqr hp₁ (by rw [heq, hthr₁])
    subst hqp
    rw [hqr, some.injEq] at hp₁
    exact hne (by rw [← hqpid, hp₁, hpid₁])
  exact ⟨q, hq, qr, thq, hqr, hqpid, by simp [hqt, hthq], hqd⟩

/-- `thread_wake_pid` on a queue that holds every living thread leaves no wait for `pid`. -/
lemma threadWakePid {k₀ : Kernel} {pid : ℕ} (h : Waits (fun p => p = pid) k)
    (hs : Sched (fun _ => False) k₀ k l) (hw : k.threadWakePid pid = some k') :
    Waits (fun _ => False) k' := by
  have hwakes := (wakes_threadWakePid hw).mono fun _ _ _ => exitWake.woken
  have h' := h.wakes hwakes
  rw [threadWakePid_queue hs.queue, some.injEq] at hw
  subst hw
  intro u th' p hu hb hc
  obtain ⟨hwait, halive⟩ := h' u th' p hu hb hc
  refine ⟨hwait, fun _ => halive fun hp => ?_⟩
  obtain ⟨th, hth, hab⟩ := hwakes.thread_back hu
  have hmem : u ∈ l := by
    refine (hs.member u).mpr ⟨id, th, hth, fun hd => ?_⟩
    rw [(Thread.Woken.dead_iff hab).mpr hd] at hb
    simp at hb
  have hth' : th' = th.wakePid pid := by
    simp only [Kernel.wokenIn, if_pos hmem, hth, map_some, some.injEq] at hu
    exact hu.symm
  rw [hth', Thread.wakePid] at hb hwait
  split_ifs at hb hwait with hcond
  exact hcond ⟨hb, hwait.trans hp⟩

end Waits

/-! ## Nobody waits -/

/-- No thread is blocked in `sys_wait_pid(pid)`. -/
def NoWait (pid : ℕ) (k : Kernel) : Prop :=
  ∀ t th, k.threads t = some th → th.state = .blocked → th.call ≠ .waitPid pid

lemma noWait_of_isAwaited {L : List Ptr} (hwf : Wf L k)
    (h : k.isAwaited pid = false) : NoWait pid k := by
  intro t th ht hb hc
  have hmem : t ∈ List.range k.brk := List.mem_range.mpr (hwf.thread_lt ht)
  have hall := List.any_eq_false.mp h t hmem
  simp [ht, hb, hc] at hall

lemma NoWait.frame {T : Ptr → Thread → Thread → Prop} (h : NoWait pid k) (hf : Frame T k k')
    (hT : ∀ t a b, T t a b → b.state = .blocked → a.state = .blocked ∧ b.call = a.call) :
    NoWait pid k' := by
  intro t th' ht' hb
  obtain ⟨th, ht, hab⟩ := hf.thread_back ht'
  obtain ⟨hb₀, hc₀⟩ := hT _ _ _ hab hb
  rw [hc₀]
  exact h t th ht hb₀

lemma NoWait.wakes (h : NoWait pid k) (hw : Wakes anyWake k k') :
    NoWait pid k' := by
  refine h.frame hw.toFrame ?_
  intro t a b hab hb
  have heq := Thread.Woken.eq_of_blocked hab hb
  subst heq
  exact ⟨hb, rfl⟩

lemma NoWait.retire {k₁ : Kernel} {t : Ptr} (h : NoWait pid k)
    (hrem : k.runqueueRemove t = some k₁) (hdead : k₁.markDead t = some k') :
    NoWait pid k' := by
  refine h.frame (retire_frame hrem hdead) ?_
  rintro u a b (hab | ⟨-, hab⟩) hb
  · unfold relink at hab
    rw [hab] at hb ⊢
    exact ⟨hb, rfl⟩
  · unfold relink at hab
    rw [hab] at hb
    simp at hb

/-- When nobody waits for `pid` the exception for it is not needed. -/
lemma Waits.of_noWait (h : Waits (fun p => p = pid) k)
    (hn : NoWait pid k) : Waits (fun _ => False) k := by
  intro t th p ht hb hc
  obtain ⟨hw, halive⟩ := h t th p ht hb hc
  refine ⟨hw, fun _ => halive ?_⟩
  rintro rfl
  exact hn t th ht hb hc

/-! ## One step -/

namespace Waits

variable {k₀ k k' : Kernel} {proc t : Ptr}

lemma exit (h : Waits (fun _ => False) k) (hg : Good (fun _ => False) k₀ k) {th : Thread}
    (ht : k.threads k.currThread = some th) (hp : th.process = some proc)
    (hbody : k.exitBody = some k') : Waits (fun _ => False) k' := by
  obtain ⟨proc', pr, k₁, k₂, k₃, k₄, hproc', hpr, h₁, h₂, h₃, h₄, h₅⟩ :=
    exitBody_cases hbody
  rw [Kernel.currProc, ht, bind_some] at hproc'
  obtain rfl := mem_unique hp hproc'
  have hw := closeAll_wakes h₁ h₂
  obtain ⟨l, hsched⟩ := hg.sched
  have hsched₂ := hsched.wakes hw
  obtain ⟨pr₂, hpr₂, hpid₂, hthr₂⟩ := hw.proc hpr
  have hcurr : k₂.currThread = pr₂.thread := by
    obtain ⟨pr₁, hpr₁, hthr₁⟩ := hg.wf.process_thread ht hp
    obtain rfl := mem_unique hpr hpr₁
    rw [hw.curr, ← hthr₁, hthr₂]
  rw [(runqueueRemove_frame h₃).curr, hcurr] at h₄
  rw [hcurr] at h₃
  have hW₄ := (h.wakes hw).retire hsched₂.wf hpr₂ h₃ h₄
  have hW₅ : Waits (fun p => p = pr.pid) k₄.requestCleanup := by
    rw [← hpid₂]
    exact hW₄
  have hne : pr₂.thread ≠ k₂.idleThread := hsched₂.wf.thread_ne_idle hpr₂
  exact hW₅.threadWakePid ((hsched₂.retire hne h₃ h₄).wakes wakes_requestCleanup.quiet) h₅

lemma kill (h : Waits (fun _ => False) k) (hwf : Wf k.procList k) {pid : ℕ}
    (hok : k.isAwaited pid = false) (hfound : k.procFind pid = some (some proc))
    (hbody : k.killBody proc = some (k', t)) : Waits (fun _ => False) k' := by
  obtain ⟨pr, k₁, k₂, k₃, k₄, h₁, h₂, hpr, h₃, h₄, rfl, rfl⟩ := killBody_cases hbody
  have hw := closeAll_wakes h₁ h₂
  have hpid : pr.pid = pid := by
    obtain ⟨-, pr₀, hpr₀, hpid₀⟩ := procFind_eq_some hfound
    obtain ⟨pr₁, hpr₁, hpid₁, -⟩ := hw.proc hpr₀
    obtain rfl := mem_unique hpr hpr₁
    rw [hpid₁, hpid₀]
  have hwf₂ : Wf k₂.procList k₂ := hw.procList ▸ hwf.wakes hw
  have hW₄ : Waits (fun _ => False) k₄ := by
    refine ((h.wakes hw).retire hwf₂ hpr h₃ h₄).of_noWait ?_
    rw [hpid]
    exact ((noWait_of_isAwaited hwf hok).wakes hw).retire h₃ h₄
  exact hW₄

lemma exception (h : Waits (fun _ => False) k) (hwf : Wf k.procList k) {th : Thread}
    {k₁ : Kernel} (ht : k.threads k.currThread = some th)
    (hp : th.process = some proc) (hok : ∀ pid, k.currPid = some pid → k.isAwaited pid = false)
    (h₁ : k.runqueueRemove k.currThread = some k₁) (h₂ : k₁.markDead k.currThread = some k') :
    Waits (fun _ => False) k' := by
  obtain ⟨pr, hpr, hthr⟩ := hwf.process_thread ht hp
  have hpid : k.currPid = some pr.pid := by
    simp [Kernel.currPid, Kernel.currProc, ht, hp, hpr]
  rw [← hthr] at h₁ h₂
  refine (h.retire hwf hpr h₁ h₂).of_noWait ?_
  exact (noWait_of_isAwaited hwf (hok _ hpid)).retire h₁ h₂

lemma waitPid (h : Waits (fun _ => False) k) {th : Thread} {pid : ℕ}
    (ht : k.threads k.currThread = some th) (hd : th.state ≠ .dead) (hid : k.AliveId pid) :
    Waits (fun _ => False) (k.setThread k.currThread (th.blockOnPid pid pid)) := by
  have hf : Frame (fun _ a b => b.state = .dead ↔ a.state = .dead) k
      (k.setThread k.currThread (th.blockOnPid pid pid)) :=
    .setThread (fun _ _ => Iff.rfl) ht (by simp [hd])
  intro u thu p hu hb hc
  rcases Store.update_eq_some hu with ⟨-, rfl⟩ | ⟨-, hu⟩
  · rw [Thread.blockOnPid_call, Call.waitPid.injEq] at hc
    subst hc
    exact ⟨rfl, fun _ => hid.frame hf fun _ _ _ hab => hab⟩
  · obtain ⟨hw, ha⟩ := h u thu p hu hb hc
    exact ⟨hw, fun hS => (ha hS).frame hf fun _ _ _ hab => hab⟩

/-- A thread that ends leaves nobody waiting for it, under the condition. -/
lemma dies (h : Waits (fun _ => False) k) (hg : Good (fun _ => False) k₀ k) {op : Op}
    (hok : k.exitWakeOk op = true) (hd : k.Dies op t k') : Waits (fun _ => False) k' := by
  cases hd with
  | exit ht hp hbody => exact h.exit hg ht hp hbody
  | kill hfound hbody => exact h.kill hg.wf (by simpa [Kernel.exitWakeOk] using hok) hfound hbody
  | exception ht hp h₁ h₂ =>
    refine h.exception hg.wf ht hp ?_ h₁ h₂
    intro pid hpid
    simpa [Kernel.exitWakeOk, hpid] using hok

/-- An entry taken under the condition keeps every wait on a living process. -/
lemma passes (h : Waits (fun _ => False) k) (hg : Good (fun _ => False) k₀ k) {op : Op}
    {ph : Kernel.Phase} (hok : k.exitWakeOk op = true) (hp : k.Passes op ph k') :
    Waits (fun _ => False) k' := by
  have hwf := hg.wf
  induction hp with
  | start => exact h
  | woke hw => exact h.wakes hw.wakes
  | ticked => exact h
  | reaped _ hr _ hrest ih =>
    intro t th pid ht hb hcall
    obtain ⟨hw, halive⟩ := ih t th pid (hr.sub ht) hb hcall
    exact ⟨hw, fun hS => (halive hS).reaped hr hrest⟩
  | created hp _ hc ih => exact ih.procCreate (hp.wf hwf) hc
  | asked _ ih => exact ih
  | blocked ht _ hb =>
    have hd := hg.alive.state ht
    cases hb with
    | waitPid _ hfound hpr hpid =>
      -- the process found is listed and, by the condition, alive
      obtain ⟨hmem, -⟩ := procFind_eq_some hfound
      obtain ⟨tht, htht, -⟩ := hwf.thread_of hpr
      have halive : tht.state ≠ .dead := by
        intro hdead
        simp [Kernel.exitWakeOk, Kernel.findsDead, hfound, hpr, Kernel.stateOf, htht, hdead] at hok
      exact h.waitPid ht hd ⟨_, hmem, _, tht, hpr, hpid, htht, halive⟩
    | sleep | receive => exact h.setThread ht (by simp [hd]) (by simp)
  | scheduled hp hs ih | left hp hs _ ih => exact ih.schedule (hp.wf hwf) hs
  | died hd | spared hd => exact h.dies hg hok hd
  | @received _ _ _ _ k₁ _ th _ hdeq ht _ hth =>
    have hw := (wakes_dequeue hdeq).quiet
    have ht₁ : k₁.threads k.currThread = some th := hth ▸ ht
    exact (h.wakes hw).setThread ht₁ Iff.rfl fun _ pid hc => by simp at hc
  | returned _ ht => exact h.setThread ht Iff.rfl fun _ pid hc => by simp at hc
  | bareNext hop | bareRemove hop => simp [hop, Kernel.exitWakeOk] at hok

end Waits

/-! ## Whole runs -/

/-- In every state of a run in which no process is killed or faults while somebody waits for
it, and no wait begins on a dead process, every thread blocked in `sys_wait_pid` waits for a
process that is on the list and whose thread is not dead. -/
theorem waits_are_for_living_processes {initEntry : Option ℕ} {k₀ k : Kernel} {ls : List Op}
    (h₀ : start initEntry = some k₀)
    (hrun : Run Kernel.step (fun k op => k.exitWakeOk op = true) k₀ ls k) :
    ∀ t th pid, k.threads t = some th → th.state = .blocked → th.call = .waitPid pid →
      k.AliveId pid := by
  have hinv : Good (fun _ => False) k₀ k ∧ Waits (fun _ => False) k := by
    refine Run.invariant (I := fun k => Good (fun _ => False) k₀ k ∧ Waits (fun _ => False) k)
      ⟨good_start h₀, ?_⟩ ?_ hrun
    · intro t th pid ht hb hc
      rw [start_eq, some.injEq] at h₀
      rw [← h₀, started] at ht
      by_cases ht1 : t = 1
      · simp only [ht1, Function.update_self, some.injEq] at ht
        rw [← ht] at hc
        simp [firstThread] at hc
      · simp [ht1] at ht
    · rintro s op s' ⟨hg, hw⟩ hok hs
      refine ⟨?_, hw.passes hg hok (step_passes hg.wf hs)⟩
      have hstep := hg.step hs
      rwa [removedAlso_of_ne] at hstep
      rintro t rfl
      simp [Kernel.exitWakeOk] at hok
  intro t th pid ht hb hc
  exact (hinv.2 t th pid ht hb hc).2 id

/-- `init` waits for a child, and the child's exit wakes it. -/
theorem waits_are_for_living_processes_sample : ∃ k₀ k, start (some 7) = some k₀ ∧
    Run Kernel.step (fun k op => k.exitWakeOk op = true) k₀
      [.kidle, .timer, .spawn 9, .waitPid 1, .timer, .kill 7] k ∧
    ∃ t th, k.threads t = some th ∧ th.state = .blocked ∧ th.call = .waitPid 1 ∧
      k.AliveId 1 := by
  obtain ⟨k, hrun, hP⟩ : ∃ k, Run Kernel.step (fun k op => k.exitWakeOk op = true)
      (started (some 7)) [.kidle, .timer, .spawn 9, .waitPid 1, .timer, .kill 7] k ∧
      (k.threads 5).any (fun th => th.state == .blocked && th.call == .waitPid 1) = true :=
    Run.exists_of_exec Kernel.exitWakeOk (fun _ _ h => h) _ (by decide +kernel)
      (by decide +kernel)
  simp only [any_eq_true, Bool.and_eq_true, beq_iff_eq] at hP
  obtain ⟨th, ht, hb, hc⟩ := hP
  exact ⟨_, k, start_eq (some 7), hrun, 5, th, ht, hb, hc,
    waits_are_for_living_processes (start_eq (some 7)) hrun 5 th 1 ht hb hc⟩

/-- A thread is blocked in `sys_wait_pid(pid)` although no listed process with that id has a
living thread. -/
def LostWait (k : Kernel) (pid : ℕ) : Prop :=
  (∃ t th, k.threads t = some th ∧ th.state = .blocked ∧ th.call = .waitPid pid ∧
    th.waitingFor = pid) ∧ ¬k.AliveId pid

lemma exists_lostWait {ls : List Op} (t : Ptr)
    (h : (exec Kernel.step (started (some 7)) ls).any (fun k => (k.threads t).any (fun th =>
      th.state == .blocked && th.call == .waitPid pid && th.waitingFor == pid) &&
      !decide (k.AliveId pid)) = true)
    (hok : execOk Kernel.step (fun _ op => !op.bare) (started (some 7)) ls = true) :
    ∃ k₀ k, start (some 7) = some k₀ ∧ Run Kernel.step kernelStep k₀ ls k ∧
      LostWait k pid := by
  obtain ⟨k, hrun, hP⟩ : ∃ k, Run Kernel.step kernelStep (started (some 7)) ls k ∧ _ :=
    Run.exists_of_exec (fun _ op => !op.bare) kernelStep_of_not_bare _ h hok
  simp only [Bool.and_eq_true, any_eq_true, beq_iff_eq, Bool.not_eq_true',
    decide_eq_false_iff_not] at hP
  obtain ⟨⟨th, ht, ⟨hb, hc⟩, hw⟩, hdead⟩ := hP
  exact ⟨_, k, start_eq (some 7), hrun, ⟨t, th, ht, hb, hc, hw⟩, hdead⟩

/-- Three ways to wait for ever: the child faults, the child is killed (here by itself), and
the wait begins when the child has faulted but has not been reaped. -/
theorem exit_wakeups_are_lost :
    (∃ k₀ k, start (some 7) = some k₀ ∧ Run Kernel.step kernelStep k₀
      [.kidle, .timer, .spawn 9, .waitPid 1, .timer, .exception] k ∧ LostWait k 1) ∧
    (∃ k₀ k, start (some 7) = some k₀ ∧ Run Kernel.step kernelStep k₀
      [.kidle, .timer, .spawn 9, .waitPid 1, .timer, .kill 1] k ∧ LostWait k 1) ∧
    ∃ k₀ k, start (some 7) = some k₀ ∧ Run Kernel.step kernelStep k₀
      [.kidle, .timer, .spawn 9, .timer, .timer, .timer, .exception, .timer, .waitPid 1] k ∧
      LostWait k 1 :=
  ⟨exists_lostWait 5 (by decide +kernel) (by decide +kernel),
    exists_lostWait 5 (by decide +kernel) (by decide +kernel),
    exists_lostWait 5 (by decide +kernel) (by decide +kernel)⟩

end CobjOs
