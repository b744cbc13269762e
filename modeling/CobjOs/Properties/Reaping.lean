import CobjOs.Kernel.PreemptSpec
import CobjOs.Properties.RunQueue

/-!
# Reaping the running thread

`sys_exit` and a `sys_kill` of oneself mark the running thread dead and ask for a cleanup while
the thread still runs on its own kernel stack, with interrupts enabled.  A timer interrupt that
comes then calls `proc_cleanup`, which frees the thread, its process and the stack it runs on.
Everywhere else the running thread is not dead, so `proc_cleanup` leaves it alone.
-/

namespace CobjOs

open Function Kernel Option

namespace Preempt

/-- The running thread is in `sys_exit`, or in `sys_kill` of its own process, past the statement
that marks it dead. -/
def dying (s : Preempt) : Bool :=
  match s.rest s.kernel.currThread with
  | [.requestCleanup, .wakePid _, .leave] | [.wakePid _, .leave] | [.leave] => true
  | [.requestCleanup, .leaveIfCurr proc] | [.leaveIfCurr proc] =>
    (s.kernel.procs proc).any fun pr => pr.thread == s.kernel.currThread
  | _ => false

lemma dying_cases {s : Preempt} (h : s.dying = true) :
    (∃ pid, s.rest s.kernel.currThread = [.requestCleanup, .wakePid pid, .leave]) ∨
      (∃ pid, s.rest s.kernel.currThread = [.wakePid pid, .leave]) ∨
      s.rest s.kernel.currThread = [.leave] ∨
      ∃ proc pr, (s.rest s.kernel.currThread = [.requestCleanup, .leaveIfCurr proc] ∨
        s.rest s.kernel.currThread = [.leaveIfCurr proc]) ∧
        s.kernel.procs proc = some pr ∧ pr.thread = s.kernel.currThread := by
  unfold dying at h
  split at h
  · next pid hr => exact .inl ⟨pid, hr⟩
  · next pid hr => exact .inr (.inl ⟨pid, hr⟩)
  · next hr => exact .inr (.inr (.inl hr))
  · next proc hr =>
    simp only [any_eq_true, beq_iff_eq] at h
    obtain ⟨pr, hpr, hown⟩ := h
    exact .inr (.inr (.inr ⟨proc, pr, .inl hr, hpr, hown⟩))
  · next proc hr =>
    simp only [any_eq_true, beq_iff_eq] at h
    obtain ⟨pr, hpr, hown⟩ := h
    exact .inr (.inr (.inr ⟨proc, pr, .inr hr, hpr, hown⟩))
  · simp at h

/-- No timer interrupt comes while the running thread is dying and a cleanup is asked for. -/
def reapOk (s : Preempt) : PreemptOp → Bool
  | .atomic .timer => !(s.dying && s.kernel.procNeedsCleanup)
  | _ => true

end Preempt

/-! ## What follows a death -/

/-- Behind a statement that marks a thread dead stands the end of its call. -/
def Guarded : List Stmt → Prop
  | [] => True
  | .killCurr :: cs => ∃ pid, cs = [.requestCleanup, .wakePid pid, .leave]
  | .killThread proc :: cs => cs = [.requestCleanup, .leaveIfCurr proc]
  | _ :: cs => Guarded cs

namespace Guarded

lemma tail {c : Stmt} {cs : List Stmt} (h : Guarded (c :: cs)) : Guarded cs := by
  cases c with
  | killCurr =>
    obtain ⟨pid, rfl⟩ := h
    exact trivial
  | killThread proc =>
    have hcs : cs = [.requestCleanup, .leaveIfCurr proc] := h
    rw [hcs]
    exact trivial
  | _ => exact h

lemma closeAll {proc : Ptr} {cs : List Stmt} (h : Guarded cs) :
    Guarded (Stmt.closeAll proc ++ cs) := by
  have hports : ∀ (is : List ℕ) (ds : List Stmt), Guarded ds →
      Guarded (is.map (.destroyPort proc) ++ ds) := by
    intro is ds hds
    induction is with
    | nil => exact hds
    | cons i is ih => exact ih
  have hfds : ∀ (is : List ℕ) (ds : List Stmt), Guarded ds →
      Guarded (is.map (.closeFile proc) ++ ds) := by
    intro is ds hds
    induction is with
    | nil => exact hds
    | cons i is ih => exact ih
  rw [Stmt.closeAll, List.append_assoc]
  exact hports _ _ (hfds _ _ h)

lemma sysExit (proc : Ptr) (pid : ℕ) : Guarded (Stmt.sysExit proc pid) :=
  closeAll ⟨pid, rfl⟩

lemma sysKill (proc : Ptr) : Guarded (Stmt.sysKill proc) := closeAll rfl

/-- The statements a statement asks for mark nobody dead. -/
lemma ran {k k' : Kernel} {c : Stmt} {more cs : List Stmt} (h : Guarded (c :: cs))
    (hc : Stmt.Ran k k' c more) : Guarded (more ++ cs) := by
  cases hc <;> exact h.tail

end Guarded

/-! ## The invariant -/

/-- The running thread exists, and it is dead only between its death and its `schedule()`. -/
structure Preempt.RunsAlive (s : Preempt) : Prop where
  inv : s.Inv
  guarded : ∀ t, Guarded (s.rest t)
  curr : ∃ th, s.kernel.threads s.kernel.currThread = some th ∧
    (th.state = .dead → s.dying = true)

namespace Preempt.RunsAlive

variable {s s' : Preempt} {c : Stmt} {cs : List Stmt}

lemma alive_of_not_dying (h : s.RunsAlive) (hd : s.dying = false) : CurrAlive s.kernel := by
  obtain ⟨th, ht, hdead⟩ := h.curr
  refine ⟨th, ht, fun hst => ?_⟩
  rw [hdead hst] at hd
  simp at hd

lemma of_alive (hinv : s.Inv) (hg : ∀ t, Guarded (s.rest t)) (ha : CurrAlive s.kernel) :
    s.RunsAlive := by
  obtain ⟨th, ht, hd⟩ := ha
  exact ⟨hinv, hg, th, ht, fun hst => absurd hst hd⟩

/-- The timer interrupt, allowed in this state. -/
lemma timer (h : s.RunsAlive) (hok : s.reapOk (.atomic .timer) = true) {k : Kernel}
    (hk : s.kernel.step .timer = some k) (hinv : ({ s with kernel := k } : Preempt).Inv) :
    ({ s with kernel := k } : Preempt).RunsAlive := by
  by_cases hd : s.dying = true
  · -- no cleanup is asked for, so only `schedule()` runs
    have hflag : s.kernel.procNeedsCleanup = false := by simpa [reapOk, hd] using hok
    obtain ⟨k₀, ht, hk'⟩ := irqTimer_cases hk
    rcases timerTick_cases ht with rfl | ⟨hc, -⟩
    · rcases hk' with rfl | hsch
      · exact ⟨hinv, h.guarded, h.curr⟩
      · obtain ⟨k₁, hf, hk', hrun⟩ := schedule_frame
          (k := s.kernel.ticked) h.inv.wf.idle_awake hsch
        by_cases hcurr : k.currThread = s.kernel.currThread
        · obtain ⟨th, hth, -⟩ := h.curr
          have hprocs : k.procs = s.kernel.procs := by
            have hto := ThreadsOnly.schedule hsch
            unfold ThreadsOnly at hto
            rw [hto]
            rfl
          obtain ⟨th', hth', -⟩ := hf.thread hth
          refine ⟨hinv, h.guarded, th', ?_, fun _ => ?_⟩
          · show k.threads k.currThread = some th'
            rw [hcurr, hk']
            exact hth'
          · unfold dying at hd ⊢
            simp only [hcurr, hprocs]
            exact hd
        · obtain ⟨th, hth, hr⟩ := hrun hcurr
          exact of_alive hinv h.guarded ⟨th, hth, by simp [hr]⟩
    · simp [hflag] at hc
  · exact of_alive hinv h.guarded ((h.alive_of_not_dying (by simpa using hd)).passes h.inv.wf
      (step_passes h.inv.wf hk) nofun)

lemma ran (h : s.RunsAlive) (hrest : s.rest s.kernel.currThread = c :: cs) {k : Kernel}
    {more : List Stmt} (hc : Stmt.Ran s.kernel k c more)
    (hs' : s' = { kernel := k, rest := update s.rest s.kernel.currThread (more ++ cs) })
    (hinv : s'.Inv) : s'.RunsAlive := by
  have hguard : ∀ t, Guarded (s'.rest t) := by
    intro t
    rw [hs']
    by_cases htc : t = s.kernel.currThread
    · subst htc
      simp only [update_self]
      exact Guarded.ran (hrest ▸ h.guarded _) hc
    · simp only [update_of_ne htc]
      exact h.guarded t
  have hkernel : s'.kernel = k := by rw [hs']
  have hg : Guarded (c :: cs) := hrest ▸ h.guarded _
  have hself : k.currThread = s.kernel.currThread → s'.rest s'.kernel.currThread = more ++ cs := by
    intro hcurr
    rw [hs']
    simp only [hcurr, update_self]
  have hleave : s.kernel.leave = some k → s'.RunsAlive := by
    intro hl
    obtain ⟨hsch, hne⟩ := leave_eq_some hl
    exact of_alive hinv hguard (hkernel ▸ CurrAlive.of_switch h.inv.wf hsch hne)
  by_cases hd : s.dying = true
  · -- the last statements of a death
    obtain ⟨th, ht, -⟩ := h.curr
    have hwakes : Wakes anyWake s.kernel k → s'.dying = true → s'.RunsAlive := by
      intro hw hd'
      obtain ⟨th', ht', -⟩ := hw.thread ht
      exact ⟨hinv, hguard, th', by rw [hkernel, hw.curr]; exact ht', fun _ => hd'⟩
    rcases dying_cases hd with ⟨pid, hr⟩ | ⟨pid, hr⟩ | hr | ⟨proc, pr, hr | hr, hpr, hown⟩
    all_goals
      rw [hrest, List.cons.injEq] at hr
      obtain ⟨rfl, rfl⟩ := hr
      cases hc
    case inl.requestCleanup hk =>
      exact hwakes (Stmt.Ran.requestCleanup hk |>.wakes rfl) (by simp [dying, hself, hk])
    case inr.inl.wakePid hw =>
      have hw' := threadWakePid_wakes hw
      exact hwakes hw' (by simp [dying, hself hw'.curr])
    case inr.inr.inl.leave hl => exact hleave hl
    case inr.inr.inr.inl.requestCleanup hk =>
      refine hwakes (Stmt.Ran.requestCleanup hk |>.wakes rfl) ?_
      unfold dying
      rw [hself (by rw [hk]; rfl)]
      simp [hkernel, hk, hpr, hown]
    case inr.inr.inr.inr.leaveIfCurr _ _ hl _ => exact hleave hl
    case inr.inr.inr.inr.stay pr' hne _ hpr' =>
      obtain rfl := mem_unique hpr hpr'
      exact absurd hown hne
  -- everything else runs in a living thread
  have ha := h.alive_of_not_dying (by simpa using hd)
  have hstay : CurrAlive k → s'.RunsAlive := fun ha => of_alive hinv hguard (hkernel ▸ ha)
  by_cases hplain : c.plain = true
  · exact hstay (ha.wakes (hc.wakes hplain))
  cases hc with
  | removeCurr hr => exact hstay (ha.frame (runqueueRemove_frame hr) relink_dead)
  | removeThread _ hr => exact hstay (ha.frame (runqueueRemove_frame hr) relink_dead)
  | killCurr hk =>
    obtain ⟨pid, rfl⟩ := hg
    obtain ⟨th₁, ht₁, rfl⟩ := modThread_eq_some hk
    refine ⟨hinv, hguard, { th₁ with state := .dead }, ?_, fun _ => ?_⟩
    · rw [hkernel]
      exact update_self _ _ _
    · unfold dying
      rw [hself rfl]
      rfl
  | @killThread proc pr hpr hk =>
    have hcs : cs = [.requestCleanup, .leaveIfCurr proc] := hg
    subst hcs
    obtain ⟨th₁, ht₁, rfl⟩ := modThread_eq_some hk
    by_cases hown : pr.thread = s.kernel.currThread
    · refine ⟨hinv, hguard, { th₁ with state := .dead }, ?_, fun _ => ?_⟩
      · rw [hkernel]
        show (s.kernel.setThread pr.thread _).threads s.kernel.currThread = _
        rw [← hown]
        exact update_self _ _ _
      · unfold dying
        rw [hself rfl]
        simp [hkernel, hpr, hown]
    · obtain ⟨th', ht', hd'⟩ := ha
      exact hstay ⟨th', by simp [Ne.symm hown, ht'], hd'⟩
  | leave hl | leaveIfCurr _ _ hl => exact hleave hl
  | stay _ _ hk => exact hstay (hk ▸ ha)
  | setBlocked _ hk => exact hstay (hk ▸ CurrAlive.setCurrent rfl (by simp))
  | callSchedule hsch => exact hstay (ha.schedule h.inv.wf hsch)
  | _ => exact absurd rfl hplain

lemma enter (h : s.RunsAlive) {stmts : List Stmt} (hempty : s.rest s.kernel.currThread = [])
    (hg : Guarded stmts) (hinv : (s.enter stmts).Inv) : (s.enter stmts).RunsAlive := by
  refine of_alive hinv ?_ (h.alive_of_not_dying (by simp [dying, hempty]))
  intro t
  by_cases htc : t = s.kernel.currThread
  · subst htc
    simp only [Preempt.enter, update_self]
    exact hg
  · simp only [Preempt.enter, update_of_ne htc]
    exact h.guarded t

lemma step (h : s.RunsAlive) {op : PreemptOp} (hok : s.reapOk op = true)
    (hs : s.step op = some s') : s'.RunsAlive := by
  have hinv := h.inv.step hs
  cases Preempt.step_taken hs with
  | @atomic op k hop hk hs' =>
    subst hs'
    by_cases htimer : op = .timer
    · subst htimer
      exact h.timer hok hk hinv
    · have hempty : op.staysAtomic = true ∧ s.rest s.kernel.currThread = [] := by
        rcases hop with hop | hop
        · exact absurd hop htimer
        · exact hop
      have hd : s.dying = false := by simp [dying, hempty.2]
      exact of_alive hinv h.guarded
        ((h.alive_of_not_dying hd).passes h.inv.wf (step_passes h.inv.wf hk) nofun)
  | exit _ _ hempty _ hs' =>
    subst hs'
    exact h.enter hempty (Guarded.sysExit _ _) hinv
  | kill _ _ hempty _ hs' =>
    subst hs'
    exact h.enter hempty (Guarded.sysKill _) hinv
  | portReceive _ _ hempty _ hs' =>
    subst hs'
    exact h.enter hempty trivial hinv
  | same hs' => exact hs' ▸ h
  | advance hrest hran hs' => exact h.ran hrest hran hs' hinv

end Preempt.RunsAlive

/-! ## Whole runs -/

lemma runsAlive_start {initEntry : Option ℕ} {k : Kernel} (h : start initEntry = some k) :
    (Preempt.init k).RunsAlive := by
  have hg := good_start h
  obtain ⟨l, hsched⟩ := hg.sched
  exact .of_alive (.init hsched.wf) (fun _ => trivial) hg.alive

/-- In a run in which no timer interrupt comes while the running thread is past its death in
`sys_exit` or in `sys_kill` of its own process and a cleanup is asked for: a timer interrupt
leaves the running thread, its process and its kernel stack allocated. -/
theorem running_thread_not_reaped {initEntry : Option ℕ} {k₀ k' : Kernel} {s : Preempt}
    {ls : List PreemptOp} (h₀ : start initEntry = some k₀)
    (hrun : Run Preempt.step (fun s op => s.reapOk op = true) (Preempt.init k₀) ls s)
    (hok : s.reapOk (.atomic .timer) = true) (ht : s.kernel.timerTick = some k') :
    ∃ th th', s.kernel.threads s.kernel.currThread = some th ∧
      k'.threads s.kernel.currThread = some th' ∧ th'.kernelStack = th.kernelStack ∧
      k'.kstacks th.kernelStack = true ∧ th'.process = th.process ∧
      ∀ proc, th.process = some proc →
        ∃ pr, k'.procs proc = some pr ∧ pr.thread = s.kernel.currThread := by
  have hinv : s.RunsAlive := by
    refine hrun.invariant (runsAlive_start h₀) ?_
    intro s op s' hs hok hstep
    exact hs.step hok hstep
  have hwf' := (Kernel.Passes.timerTick hinv.inv.wf ht).wf hinv.inv.wf
  obtain ⟨th, hth, hdead⟩ := hinv.curr
  -- the thread is still there, with its process and its stack
  have hkeep : ∃ th', k'.threads s.kernel.currThread = some th' ∧
      th'.kernelStack = th.kernelStack ∧ th'.process = th.process := by
    rcases timerTick_cases ht with rfl | ⟨hflag, hc⟩
    · exact ⟨th, hth, rfl, rfl⟩
    · have hd : th.state ≠ .dead := by
        intro hst
        simp [Preempt.reapOk, hdead hst, hflag] at hok
      have hwf : Wf s.kernel.ticked.cleanupTaken.procList s.kernel.ticked.cleanupTaken :=
        { hinv.inv.wf with }
      obtain ⟨k₁, rest, hwf₁, hr, -, hk'⟩ := procCleanup_cases hwf hc
      have hth₁ : (k₁.setProcList rest).threads s.kernel.currThread = some th := hr.keep hth hd
      rcases hk' with rfl | ⟨entry, pid, hcr⟩
      · exact ⟨th, hth₁, rfl, rfl⟩
      · have hwf' : Wf rest (k₁.setProcList rest) := { hwf₁ with }
        obtain ⟨-, -, hold⟩ := procCreate_old hwf' hcr
        obtain ⟨th', hth', hab⟩ := hold hth₁
        unfold relink at hab
        exact ⟨th', hth', by rw [hab], by rw [hab]⟩
  obtain ⟨th', hth', hstack, hproc⟩ := hkeep
  refine ⟨th, th', hth, hth', hstack, hstack ▸ hwf'.stack hth', hproc, ?_⟩
  intro proc hp
  exact hwf'.process_thread hth' (hproc.trans hp)

/-- The timer comes in the middle of `sys_exit`, before the death. -/
theorem running_thread_not_reaped_midway : ∃ k₀ s k', start (some 7) = some k₀ ∧
    Run Preempt.step (fun s op => s.reapOk op = true) (Preempt.init k₀)
      [.atomic .kidle, .atomic .timer, .exit, .advance, .advance] s ∧
    s.reapOk (.atomic .timer) = true ∧ s.kernel.timerTick = some k' ∧
    (s.rest s.kernel.currThread).length = 129 ∧
    ∃ th', k'.threads s.kernel.currThread = some th' ∧ k'.kstacks th'.kernelStack = true := by
  obtain ⟨s, hrun, hP⟩ : ∃ s, Run Preempt.step (fun s op => s.reapOk op = true)
      (Preempt.init (started (some 7)))
      [.atomic .kidle, .atomic .timer, .exit, .advance, .advance] s ∧
      (s.reapOk (.atomic .timer) && s.kernel.timerTick.isSome &&
        (s.rest s.kernel.currThread).length == 129) = true :=
    Run.exists_of_exec Preempt.reapOk (fun _ _ h => h) _ (by decide +kernel) (by decide +kernel)
  simp only [Bool.and_eq_true, beq_iff_eq, isSome_iff_exists] at hP
  obtain ⟨⟨hok, k', ht⟩, hlen⟩ := hP
  obtain ⟨th, th', -, hth', hstack, hst, -⟩ :=
    running_thread_not_reaped (start_eq (some 7)) hrun hok ht
  exact ⟨_, s, k', start_eq (some 7), hrun, hok, ht, hlen, th', hth', hstack ▸ hst⟩

/-- `init` runs `sys_exit` up to `proc_needs_cleanup = true`; the timer interrupt that comes
then frees its thread, its process and its kernel stack while it is still the running one. -/
theorem running_thread_is_reaped : ∃ k₀ s k' th proc, start (some 7) = some k₀ ∧
    Run Preempt.step (fun _ _ => True) (Preempt.init k₀)
      ([.atomic .kidle, .atomic .timer, .exit] ++ List.replicate 129 .advance) s ∧
    s.kernel.threads s.kernel.currThread = some th ∧ th.process = some proc ∧
    s.kernel.timerTick = some k' ∧ k'.currThread = s.kernel.currThread ∧
    k'.threads k'.currThread = none ∧ k'.procs proc = none ∧
    k'.kstacks th.kernelStack = false := by
  obtain ⟨s, hrun, hP⟩ : ∃ s, Run Preempt.step (fun _ _ => True)
      (Preempt.init (started (some 7)))
      ([.atomic .kidle, .atomic .timer, .exit] ++ List.replicate 129 .advance) s ∧
      ((s.kernel.threads s.kernel.currThread).any fun th =>
        th.process == some 4 && s.kernel.timerTick.any fun k' =>
          k'.currThread == s.kernel.currThread && (k'.threads k'.currThread).isNone &&
            (k'.procs 4).isNone && !k'.kstacks th.kernelStack) = true :=
    Run.exists_of_exec (fun _ _ => true) (fun _ _ _ => trivial) _ (by decide +kernel)
      (by decide +kernel)
  simp only [Bool.and_eq_true, any_eq_true, beq_iff_eq, isNone_iff_eq_none,
    Bool.not_eq_true'] at hP
  obtain ⟨th, ht, hp, k', htick, ⟨⟨hcurr, hthread⟩, hproc⟩, hstack⟩ := hP
  exact ⟨_, s, k', th, 4, start_eq (some 7), hrun, ht, hp, htick, hcurr, hthread, hproc, hstack⟩

end CobjOs
