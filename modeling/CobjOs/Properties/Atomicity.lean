import CobjOs.Kernel.PreemptSpec
import CobjOs.Properties.RunQueue

/-!
# Atomic calls are calls that are not interrupted

The machine with atomic system calls and the machine that runs `sys_exit` and `sys_kill` statement
by statement are two models of one kernel.  Whatever the first can do, the second can do with the
same entries in the same order: it runs the statements of a call one after the other, and the
timer does not come in between.
-/

namespace CobjOs

open Function Kernel Option

namespace Stmt

variable {k k' : Kernel} {c : Stmt} {cs more : List Stmt}

/-- The statements of `sys_exit` and `sys_kill` before the last one. -/
def stays : Stmt → Bool
  | .leave | .leaveIfCurr _ | .testHead _ _ | .callSchedule _ _ => false
  | _ => true

lemma Ran.stays (h : Ran k k' c more) (hc : c.stays = true) :
    k'.currThread = k.currThread ∧ ∀ d ∈ more, d.stays = true := by
  have hwakes : c.plain = true → k'.currThread = k.currThread := fun hp => (h.wakes hp).curr
  cases h with
  | noPort | noFile | clearSlot | clearFd | requestCleanup | wakePid => exact ⟨hwakes rfl, nofun⟩
  | destroyPort | closeFile => exact ⟨hwakes rfl, by simp [Stmt.stays]⟩
  | removeCurr hr | removeThread _ hr => exact ⟨(runqueueRemove_frame hr).curr, nofun⟩
  | killCurr hd | killThread _ hd =>
    obtain ⟨th, -, rfl⟩ := modThread_eq_some hd
    exact ⟨rfl, nofun⟩
  | setBlocked _ hk' => exact ⟨hk' ▸ rfl, nofun⟩
  | _ => simp [Stmt.stays] at hc

/-- A statement that a call ends with asks for nothing more. -/
lemma Ran.ends (h : Ran k k' c more) (hc : c = .leave ∨ ∃ proc, c = .leaveIfCurr proc) :
    more = [] := by
  rcases hc with rfl | ⟨proc, rfl⟩ <;> cases h <;> rfl

lemma closeAll_stays (proc : Ptr) : ∀ c ∈ closeAll proc, c.stays = true := by
  intro c hc
  simp only [closeAll, List.mem_append, List.mem_map] at hc
  rcases hc with ⟨i, -, rfl⟩ | ⟨i, -, rfl⟩ <;> rfl

end Stmt

/-- The entry that a step begins. -/
def PreemptOp.entry : PreemptOp → Option Op
  | .atomic op => some op
  | .exit => some .exit
  | .kill pid => some (.kill pid)
  | .portReceive token len => some (.portReceive token len)
  | .advance => none

/-- The entries that are atomic in both machines, and the two calls that end a process. -/
def Op.inBoth : Op → Bool
  | .exit | .kill _ => true
  | op => op.staysAtomic

namespace Preempt

/-- Between `s` and `s'` the entries `ops` were made. -/
def Does (s : Preempt) (ops : List Op) (s' : Preempt) : Prop :=
  ∃ ls, Run Preempt.step (fun _ _ => True) s ls s' ∧ ls.filterMap PreemptOp.entry = ops

variable {s s₁ s' : Preempt} {k k' : Kernel}

lemma Does.trans {ops ops' : List Op} (h : s.Does ops s₁) (h' : s₁.Does ops' s') :
    s.Does (ops ++ ops') s' := by
  obtain ⟨ls, hrun, rfl⟩ := h
  obtain ⟨ls', hrun', rfl⟩ := h'
  exact ⟨ls ++ ls', hrun.append hrun', List.filterMap_append⟩

lemma Does.one {l : PreemptOp} (h : s.step l = some s') : s.Does l.entry.toList s' := by
  refine ⟨[] ++ [l], .snoc .nil trivial h, ?_⟩
  cases hl : l.entry <;> simp [hl]

/-- The statements of a call, run one after the other by the current thread, which gives up the
processor with the last of them. -/
lemma does_stmts {cs : List Stmt} (h : Stmt.Runs k cs k') :
    ∀ {body : List Stmt} {last : Stmt}, cs = body ++ [last] → (∀ c ∈ body, c.stays = true) →
      (last = .leave ∨ ∃ proc, last = .leaveIfCurr proc) →
      Does ((init k).enter cs) [] (init k') := by
  induction h with
  | nil =>
    intro body last hcs
    simp at hcs
  | @cons k k₁ k' c more cs hc hseq ih =>
    intro body last hcs hbody hlast
    have hstep : ((init k).enter (c :: cs)).step .advance =
        some { kernel := k₁, rest := update (fun _ => []) k.currThread (more ++ cs) } := by
      simp [Preempt.step, advance, enter, init, hc]
    refine (Does.one hstep).trans ?_
    cases body with
    | nil =>
      obtain ⟨rfl, rfl⟩ := List.cons.inj hcs
      obtain rfl := (Stmt.exec_ran hc).ends hlast
      cases hseq
      rw [List.append_nil, update_eq_self_iff.mpr rfl]
      exact ⟨[], .nil, rfl⟩
    | cons b body =>
      obtain ⟨rfl, rfl⟩ := List.cons.inj hcs
      obtain ⟨hcurr, hmore⟩ := (Stmt.exec_ran hc).stays (hbody c List.mem_cons_self)
      rw [← hcurr]
      refine ih (List.append_assoc more body [last]).symm ?_ hlast
      intro d hd
      rcases List.mem_append.mp hd with hd | hd
      · exact hmore d hd
      · exact hbody d (List.mem_cons_of_mem c hd)

/-- A call that ends a process begins with its first statement. -/
lemma does_call {op : Op} {l : PreemptOp} {cs : List Stmt} {last : Stmt} {proc : Ptr}
    (body : List Stmt) (hl : l.entry = some op)
    (hstep : (init k).step l = some ((init k).enter cs)) (hruns : Stmt.Runs k cs k')
    (hcs : cs = Stmt.closeAll proc ++ body ++ [last]) (hbody : ∀ c ∈ body, c.stays = true)
    (hlast : last = .leave ∨ ∃ proc, last = .leaveIfCurr proc) :
    (init k).Does [op] (init k') := by
  have hone : (init k).Does [op] ((init k).enter cs) := by simpa [hl] using Does.one hstep
  refine hone.trans (does_stmts hruns hcs ?_ hlast)
  intro c hc
  exact (List.mem_append.mp hc).elim (Stmt.closeAll_stays proc c) (hbody c)

/-- One atomic entry. -/
lemma does_step {op : Op} (hop : op.inBoth = true) (hs : k.step op = some k') :
    (init k).Does [op] (init k') := by
  unfold Op.inBoth at hop
  split at hop
  · simp only [Kernel.step, asUser, ite_none_right_eq_some] at hs
    obtain ⟨proc, pr, hproc, hpr, hruns⟩ := Stmt.runs_sysExit hs.2
    refine does_call (l := .exit) [.removeCurr, .killCurr, .requestCleanup, .wakePid pr.pid] rfl
      ?_ hruns rfl ?_ (.inl rfl)
    · simp [Preempt.step, init, idleList, exitStmts, hs.1, hproc, hpr]
    · simp [Stmt.stays]
  · next pid =>
    simp only [Kernel.step, asUser, ite_none_right_eq_some] at hs
    obtain ⟨huser, hs⟩ := hs
    have hkill : (init k).step (.kill pid) = (killStmts k pid).map (init k).enterFound := by
      simp [Preempt.step, init, idleList, huser]
    cases hfound : k.procFind pid with
    | none => simp [Kernel.sysKill, hfound] at hs
    | some found =>
      cases found with
      | none =>
        obtain rfl : k = k' := by simpa [Kernel.sysKill, hfound] using hs
        exact Does.one (l := .kill pid) (by simp [hkill, killStmts, hfound, enterFound])
      | some proc =>
        refine does_call (l := .kill pid) [.removeThread proc, .killThread proc, .requestCleanup]
          rfl ?_ (Stmt.runs_sysKill hfound hs) rfl ?_ (.inr ⟨proc, rfl⟩)
        · simp [hkill, killStmts, hfound, enterFound]
        · simp [Stmt.stays]
  · exact Does.one (l := .atomic op) (by simp [Preempt.step, init, idleList, hop, hs])

end Preempt

/-- Every run of the machine with atomic system calls is a run of the machine under the timer with
the same entries in the same order: the statements of `sys_exit` and `sys_kill` then follow each
other without an interruption. -/
theorem atomic_runs_are_runs_under_the_timer {k₀ k : Kernel} {ops : List Op}
    (h : Run Kernel.step (fun _ op => op.inBoth = true) k₀ ops k) :
    ∃ ls, Run Preempt.step (fun _ _ => True) (Preempt.init k₀) ls (Preempt.init k) ∧
      ls.filterMap PreemptOp.entry = ops := by
  show (Preempt.init k₀).Does ops (Preempt.init k)
  induction h with
  | nil => exact ⟨[], .nil, rfl⟩
  | snoc _ hop hs ih => exact ih.trans (Preempt.does_step hop hs)

/-- `init` starts a child, kills it and ends itself. -/
theorem atomic_runs_are_runs_under_the_timer_kill : ∃ k ls,
    Run Kernel.step (fun _ op => op.inBoth = true) (started (some 7))
      [.kidle, .timer, .spawn 9, .kill 1, .exit] k ∧
    Run Preempt.step (fun _ _ => True) (Preempt.init (started (some 7))) ls (Preempt.init k) ∧
    ls.filterMap PreemptOp.entry = [.kidle, .timer, .spawn 9, .kill 1, .exit] := by
  obtain ⟨k, hrun, -⟩ : ∃ k, Run Kernel.step (fun _ op => op.inBoth = true) (started (some 7))
      [.kidle, .timer, .spawn 9, .kill 1, .exit] k ∧ true = true :=
    Run.exists_of_exec (fun _ => Op.inBoth) (fun _ _ h => h) _ (by decide +kernel)
      (by decide +kernel)
  obtain ⟨ls, hls, hentries⟩ := atomic_runs_are_runs_under_the_timer hrun
  exact ⟨k, ls, hrun, hls, hentries⟩

end CobjOs
