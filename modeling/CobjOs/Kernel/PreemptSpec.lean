import CobjOs.Kernel.PortSpec
import CobjOs.Kernel.Preempt

/-!
# What a step under the timer can do

Between the statements of a dying thread the run queue and the thread states do not fit
together, so the invariants of the atomic machine are not available here.  What is left is
`Move c k k'`: the tables stay well formed, the idle thread stays the idle thread, a thread is
newly blocked only if `c` says so, and a process never changes its thread.  Every entry and
every statement is a move of this kind.
-/

namespace CobjOs

open Kernel Option

namespace Move

variable {k k' : Kernel}

/-- Every statement of a thread other than the idle thread moves; only the write of
`port_receive` blocks. -/
lemma ran (h : Wf k.procList k) (hne : k.currThread ≠ k.idleThread) {c : Stmt}
    {more : List Stmt} (hc : Stmt.Ran k k' c more) :
    Move (fun t => t = k.currThread ∧ ∃ p len, c = .setBlocked p len) k k' := by
  by_cases hplain : c.plain = true
  · exact wakes h (hc.wakes hplain)
  cases hc with
  | removeCurr hr => exact relink h (runqueueRemove_frame hr)
  | removeThread _ hr => exact relink h (runqueueRemove_frame hr)
  | killCurr hd => exact markDead h hne hd
  | killThread hp hd => exact markDead h (h.thread_ne_idle hp) hd
  | leave hl | leaveIfCurr _ _ hl => exact schedule h (leave_eq_some hl).1
  | stay _ _ hk' =>
    rw [hk']
    exact refl h
  | setBlocked ht hk' =>
    exact hk' ▸ setThread h ht rfl rfl hne fun _ => .inl ⟨rfl, _, _, rfl⟩
  | callSchedule hs => exact schedule h hs
  | _ => exact absurd rfl hplain

end Move

/-! ## The invariant of all runs -/

/-- The tables are well formed, and only threads of processes are inside a call. -/
structure Preempt.Inv (s : Preempt) : Prop where
  wf : Wf s.kernel.procList s.kernel
  busy : ∀ {t}, s.rest t ≠ [] → t ≠ s.kernel.idleThread ∧ t < s.kernel.brk

namespace Preempt.Inv

variable {s s' : Preempt}

lemma init {k : Kernel} (h : Wf k.procList k) : (Preempt.init k).Inv :=
  ⟨h, fun hrest => absurd rfl hrest⟩

/-- The kernel moves and at most the current thread, not the idle one, gets new statements. -/
lemma move {c : Ptr → Prop} {k : Kernel} (h : s.Inv) (stmts : List Stmt)
    (hm : Move c s.kernel k) (hcurr : stmts ≠ [] → s.kernel.currThread ≠ s.kernel.idleThread ∧
      s.kernel.currThread < s.kernel.brk) :
    Inv { kernel := k, rest := Function.update s.rest s.kernel.currThread stmts } := by
  refine ⟨hm.wf, ?_⟩
  intro t hrest
  show t ≠ k.idleThread ∧ t < k.brk
  rw [hm.idle]
  by_cases htc : t = s.kernel.currThread
  · subst htc
    simp only [Function.update_self] at hrest
    exact ⟨(hcurr hrest).1, lt_of_lt_of_le (hcurr hrest).2 hm.brk⟩
  · simp only [Function.update_of_ne htc] at hrest
    exact ⟨(h.busy hrest).1, lt_of_lt_of_le (h.busy hrest).2 hm.brk⟩

lemma enter (h : s.Inv) {th : Thread} (ht : s.kernel.threads s.kernel.currThread = some th)
    (hp : th.process ≠ none) (stmts : List Stmt) : (s.enter stmts).Inv := by
  exact h.move (c := fun _ => False) stmts (.refl h.wf) fun _ =>
    ⟨h.wf.ne_idle ht hp, h.wf.thread_lt ht⟩

lemma step (h : s.Inv) {op : PreemptOp} (hs : s.step op = some s') : s'.Inv := by
  cases Preempt.step_taken hs with
  | atomic _ hk hs' =>
    subst hs'
    have hm := Move.passes h.wf (step_passes h.wf hk)
    have hinv := h.move (s.rest s.kernel.currThread) hm h.busy
    rwa [Function.update_eq_self] at hinv
  | exit ht hp _ _ hs' => exact hs' ▸ h.enter ht (by simp [hp]) _
  | kill ht hp _ _ hs' | portReceive ht hp _ _ hs' => exact hs' ▸ h.enter ht hp _
  | same hs' => exact hs' ▸ h
  | advance hrest hran hs' =>
    have hbusy := h.busy (t := s.kernel.currThread) (by simp [hrest])
    exact hs' ▸ h.move _ (Move.ran h.wf hbusy.1 hran) fun _ => hbusy

end Preempt.Inv

/-! ## Without interruption -/

namespace Stmt

variable {k k' : Kernel}

/-- The statements of a call run by the current thread. -/
abbrev Runs (k : Kernel) (cs : List Stmt) (k' : Kernel) : Prop :=
  Seq (fun k c => Stmt.exec k c) k cs k'

lemma runs_closeAll {proc : Ptr} {k₁ : Kernel} (h₁ : k.closePorts proc = some k₁)
    (h₂ : k₁.closeFds proc = some k') : Runs k (closeAll proc) k' := by
  refine Seq.append (Seq.map_of_foldlM ?_ _ _ h₁) (Seq.map_of_foldlM ?_ _ _ h₂)
  · intro k i k' h
    simp only [Kernel.closePort, bind, bind_eq_some_iff] at h
    obtain ⟨pr, hpr, h⟩ := h
    cases hp : pr.ports i with
    | none =>
      simp only [hp, some.injEq] at h
      subst h
      exact .single (by simp [exec, hpr, hp])
    | some p =>
      simp only [hp, bind_eq_some_iff] at h
      obtain ⟨k₁, h₁, h₂⟩ := h
      have hdestroy : exec k (.destroyPort proc i) = some (k₁, [.clearSlot proc i]) := by
        simp [exec, hpr, hp, h₁]
      exact .then_single hdestroy (.single (by simp [exec, h₂]))
  · intro k i k' h
    simp only [Kernel.closeFd, bind, bind_eq_some_iff] at h
    obtain ⟨pr, hpr, h⟩ := h
    cases hf : pr.fds i with
    | none =>
      simp only [hf, some.injEq] at h
      subst h
      exact .single (by simp [exec, hpr, hf])
    | some f =>
      simp only [hf, bind_eq_some_iff] at h
      obtain ⟨v, hv, h⟩ := h
      have hclose : exec k (.closeFile proc i) = some ({ k with vfs := v }, [.clearFd proc i]) := by
        simp [exec, hpr, hf, hv]
      exact .then_single hclose (.single (by simp [exec, h]))

/-- The statements of `sys_exit` run without interruption are the atomic `sys_exit`. -/
theorem runs_sysExit (h : k.sysExit = some k') : ∃ proc pr, k.currProc = some proc ∧
    k.procs proc = some pr ∧ Runs k (sysExit proc pr.pid) k' := by
  simp only [Kernel.sysExit, bind, bind_eq_some_iff] at h
  obtain ⟨k₅, hbody, hleave⟩ := h
  obtain ⟨proc, pr, k₁, k₂, k₃, k₄, hproc, hpr, h₁, h₂, h₃, h₄, h₅⟩ :=
    exitBody_cases hbody
  refine ⟨proc, pr, hproc, hpr, (runs_closeAll h₁ h₂).append ?_⟩
  have e₃ : exec k₂ .removeCurr = some (k₃, []) := by simp [exec, h₃]
  have e₄ : exec k₃ .killCurr = some (k₄, []) := by simp [exec, h₄]
  have e₅ : exec k₄.requestCleanup (.wakePid pr.pid) = some (k₅, []) := by simp [exec, h₅]
  have e₆ : exec k₅ .leave = some (k', []) := by simp [exec, hleave]
  exact .step e₃ (.step e₄ (.step rfl (.step e₅ (.single e₆))))

/-- The statements of `sys_kill` run without interruption are the atomic `sys_kill`. -/
theorem runs_sysKill {pid : ℕ} {proc : Ptr} (hfound : k.procFind pid = some (some proc))
    (h : k.sysKill pid = some k') : Runs k (sysKill proc) k' := by
  simp only [Kernel.sysKill, hfound, bind, bind_some, bind_eq_some_iff] at h
  obtain ⟨⟨k₅, t⟩, hbody, hend⟩ := h
  obtain ⟨pr, k₁, k₂, k₃, k₄, h₁, h₂, hpr, h₃, h₄, rfl, rfl⟩ := killBody_cases hbody
  obtain ⟨pr₃, hpr₃, -, hthr₃⟩ := (runqueueRemove_frame h₃).proc hpr
  obtain ⟨th₃, -, hk₄⟩ := modThread_eq_some h₄
  have hpr₄ : k₄.requestCleanup.procs proc = some pr₃ := by
    rw [hk₄]
    exact hpr₃
  refine (runs_closeAll h₁ h₂).append ?_
  have e₃ : exec k₂ (.removeThread proc) = some (k₃, []) := by simp [exec, hpr, h₃]
  have e₄ : exec k₃ (.killThread proc) = some (k₄, []) := by simp [exec, hpr₃, hthr₃, h₄]
  have e₅ : exec k₄.requestCleanup (.leaveIfCurr proc) = some (k', []) := by
    dsimp only at hend
    simp only [exec, hpr₄, hthr₃, bind, bind_some]
    split_ifs at hend ⊢
    · simp [hend]
    · simpa using hend
  exact .step e₃ (.step e₄ (.step rfl (.single e₅)))

end Stmt

end CobjOs
