import CobjOs.Framework.Statements
import CobjOs.Kernel.Steps

/-!
# System calls under the timer

System calls run with interrupts enabled (`syscall_entry` executes `sti`), so the timer can
come between any two statements of `sys_exit`, `sys_kill` and `port_receive`.  Here these three
are lists of statements; the running thread takes them one by one, and the timer interrupt, which
itself runs with interrupts off, may come before each of them.  All other entries stay atomic and
are made by a thread that is not in the middle of a list.
-/

namespace CobjOs

open Function Kernel Option

/-- The statements of `sys_exit`, `sys_kill` and `port_receive`. -/
inductive Stmt
  /-- `if (proc->ports[i]) port_destroy(proc->ports[i]);` -/
  | destroyPort (proc : Ptr) (i : ℕ)
  /-- `proc->ports[i] = NULL;` -/
  | clearSlot (proc : Ptr) (i : ℕ)
  /-- `if (proc->fds[i])` with the statements up to `kfree(f);` -/
  | closeFile (proc : Ptr) (i : ℕ)
  /-- `proc->fds[i] = NULL;` -/
  | clearFd (proc : Ptr) (i : ℕ)
  /-- `runqueue_remove(curr_thread);` -/
  | removeCurr
  /-- `curr_thread->state = THREAD_DEAD;` -/
  | killCurr
  /-- `runqueue_remove(proc->thread);` -/
  | removeThread (proc : Ptr)
  /-- `proc->thread->state = THREAD_DEAD;` -/
  | killThread (proc : Ptr)
  /-- `proc_needs_cleanup = true;` -/
  | requestCleanup
  /-- `thread_wake_pid(dying_pid);` -/
  | wakePid (pid : ℕ)
  /-- `schedule()` followed by an undefined instruction. -/
  | leave
  /-- `if (proc->thread == curr_thread)` and then the same. -/
  | leaveIfCurr (proc : Ptr)
  /-- `while (!port->head)`, and behind the loop the rest of `port_receive`. -/
  | testHead (p : Ptr) (len : ℕ)
  /-- `curr_thread->state = THREAD_BLOCKED;` -/
  | setBlocked (p : Ptr) (len : ℕ)
  /-- `schedule();` in the loop of `port_receive`. -/
  | callSchedule (p : Ptr) (len : ℕ)
  deriving DecidableEq, Repr

/-- The thread blocked by `port_receive`. -/
@[simps]
def Thread.block (th : Thread) : Thread := { th with state := .blocked }

namespace Stmt

/-- One statement, run by the current thread. -/
def exec (k : Kernel) : Stmt → Option (Kernel × List Stmt)
  | .destroyPort proc i => do
    let pr ← k.procs proc
    match pr.ports i with
    | none => some (k, [])
    | some p =>
      let k ← k.portDestroy p
      some (k, [.clearSlot proc i])
  | .clearSlot proc i => do
    let k ← k.modProc proc fun pr => { pr with ports := update pr.ports i none }
    some (k, [])
  | .closeFile proc i => do
    let pr ← k.procs proc
    match pr.fds i with
    | none => some (k, [])
    | some f =>
      let v ← k.vfs.closeFile f
      some ({ k with vfs := v }, [.clearFd proc i])
  | .clearFd proc i => do
    let k ← k.modProc proc fun pr => { pr with fds := update pr.fds i none }
    some (k, [])
  | .removeCurr => do
    let k ← k.runqueueRemove k.currThread
    some (k, [])
  | .killCurr => do
    let k ← k.markDead k.currThread
    some (k, [])
  | .removeThread proc => do
    let pr ← k.procs proc
    let k ← k.runqueueRemove pr.thread
    some (k, [])
  | .killThread proc => do
    let pr ← k.procs proc
    let k ← k.markDead pr.thread
    some (k, [])
  | .requestCleanup => some (k.requestCleanup, [])
  | .wakePid pid => do
    let k ← k.threadWakePid pid
    some (k, [])
  | .leave => do
    let k ← k.leave
    some (k, [])
  | .leaveIfCurr proc => do
    let pr ← k.procs proc
    if pr.thread = k.currThread then
      let k ← k.leave
      some (k, [])
    else some (k, [])
  | .testHead p len => do
    let port ← k.ports p
    match port.head with
    | none => some (k, [.setBlocked p len, .callSchedule p len, .testHead p len])
    | some node =>
      let (k, _) ← k.dequeue p port node len
      some (k, [])
  | .setBlocked _ _ => do
    let k ← k.modThread k.currThread Thread.block
    some (k, [])
  | .callSchedule _ _ => do
    let k ← k.schedule
    some (k, [])

/-- The loops over the ports and the descriptors of a process. -/
def closeAll (proc : Ptr) : List Stmt :=
  (List.range maxPorts).map (.destroyPort proc) ++
    (List.range' fdReserved (maxFds - fdReserved)).map (.closeFile proc)

/-- `sys_exit`, after it has read its process and the process id. -/
def sysExit (proc : Ptr) (pid : ℕ) : List Stmt :=
  closeAll proc ++ [.removeCurr, .killCurr, .requestCleanup, .wakePid pid, .leave]

/-- `sys_kill`, after it has found the process. -/
def sysKill (proc : Ptr) : List Stmt :=
  closeAll proc ++ [.removeThread proc, .killThread proc, .requestCleanup, .leaveIfCurr proc]

/-- `port_receive`, after it has found the port. -/
def portReceive (p : Ptr) (len : ℕ) : List Stmt := [.testHead p len]

end Stmt

/-- The kernel, and the statements each thread still has to run. -/
structure Preempt where
  kernel : Kernel
  rest : Ptr → List Stmt

/-- The steps of the running thread, and the timer. -/
inductive PreemptOp
  /-- An entry that is atomic: the timer at any time, everything else outside a list. -/
  | atomic (op : Op)
  | exit
  | kill (pid : ℕ)
  | portReceive (token len : ℕ)
  /-- The next statement of the running thread. -/
  | advance
  deriving DecidableEq, Repr

/-- The entries that are not taken apart. -/
def Op.staysAtomic : Op → Bool
  | .exit | .kill _ | .portReceive _ _ | .cleanup => false
  | op => !op.bare

namespace Preempt

/-- Nothing is left to run for the current thread. -/
def idleList (s : Preempt) : Bool := (s.rest s.kernel.currThread).isEmpty

/-- The current thread enters a call with the given statements. -/
def enter (s : Preempt) (stmts : List Stmt) : Preempt :=
  { s with rest := update s.rest s.kernel.currThread stmts }

/-- The call found its object, or returns at once. -/
def enterFound (s : Preempt) (stmts : Option (List Stmt)) : Preempt :=
  match stmts with
  | none => s
  | some stmts => s.enter stmts

/-- What `sys_exit` starts with. -/
def exitStmts (k : Kernel) : Option (List Stmt) := do
  let proc ← k.currProc
  let pr ← k.procs proc
  some (Stmt.sysExit proc pr.pid)

/-- What `sys_kill` starts with. -/
def killStmts (k : Kernel) (pid : ℕ) : Option (Option (List Stmt)) := do
  match ← k.procFind pid with
  | none => some none
  | some proc => some (some (Stmt.sysKill proc))

/-- What `sys_port_receive` starts with. -/
def receiveStmts (k : Kernel) (token len : ℕ) : Option (Option (List Stmt)) := do
  let proc ← k.currProc
  let pr ← k.procs proc
  match ← k.portSlotIn pr token (List.range maxPorts) with
  | none => some none
  | some _ =>
    match ← k.portLookup token with
    | none => some none
    | some p => some (some (Stmt.portReceive p len))

/-- The next statement of the running thread. -/
def advance (s : Preempt) : Option Preempt :=
  match s.rest s.kernel.currThread with
  | [] => none
  | c :: cs => do
    let (k, more) ← c.exec s.kernel
    some { kernel := k, rest := update s.rest s.kernel.currThread (more ++ cs) }

/-- One step. -/
def step (s : Preempt) : PreemptOp → Option Preempt
  | .atomic op =>
    if op = .timer ∨ op.staysAtomic ∧ s.idleList then
      (s.kernel.step op).map fun k => { s with kernel := k }
    else none
  | .exit =>
    if s.kernel.inUserMode && s.idleList then (exitStmts s.kernel).map s.enter else none
  | .kill pid =>
    if s.kernel.inUserMode && s.idleList then (killStmts s.kernel pid).map s.enterFound
    else none
  | .portReceive token len =>
    if s.kernel.inUserMode && s.idleList then
      (receiveStmts s.kernel token len).map s.enterFound
    else none
  | .advance => s.advance

/-- The state in which the kernel leaves `thread_init`; no thread is inside a call. -/
def init (k : Kernel) : Preempt := { kernel := k, rest := fun _ => [] }

end Preempt

/-! ## What a statement did -/

namespace Stmt

/-- The statement led from `k` to `k'` and asked for the statements `more`. -/
inductive Ran (k k' : Kernel) : Stmt → List Stmt → Prop
  | noPort {proc : Ptr} {i : ℕ} : k' = k → Ran k k' (.destroyPort proc i) []
  | destroyPort {proc p : Ptr} {i : ℕ} : k.portDestroy p = some k' →
      Ran k k' (.destroyPort proc i) [.clearSlot proc i]
  | clearSlot {proc : Ptr} {i : ℕ} :
      (k.modProc proc fun pr => { pr with ports := update pr.ports i none }) = some k' →
      Ran k k' (.clearSlot proc i) []
  | noFile {proc : Ptr} {i : ℕ} : k' = k → Ran k k' (.closeFile proc i) []
  | closeFile {proc : Ptr} {i : ℕ} {v : Vfs} : k' = { k with vfs := v } →
      Ran k k' (.closeFile proc i) [.clearFd proc i]
  | clearFd {proc : Ptr} {i : ℕ} :
      (k.modProc proc fun pr => { pr with fds := update pr.fds i none }) = some k' →
      Ran k k' (.clearFd proc i) []
  | removeCurr : k.runqueueRemove k.currThread = some k' → Ran k k' .removeCurr []
  | killCurr : k.markDead k.currThread = some k' → Ran k k' .killCurr []
  | removeThread {proc : Ptr} {pr : Process} : k.procs proc = some pr →
      k.runqueueRemove pr.thread = some k' → Ran k k' (.removeThread proc) []
  | killThread {proc : Ptr} {pr : Process} : k.procs proc = some pr →
      k.markDead pr.thread = some k' → Ran k k' (.killThread proc) []
  | requestCleanup : k' = k.requestCleanup → Ran k k' .requestCleanup []
  | wakePid {pid : ℕ} : k.threadWakePid pid = some k' → Ran k k' (.wakePid pid) []
  | leave : k.leave = some k' → Ran k k' .leave []
  | leaveIfCurr {proc : Ptr} {pr : Process} : k.procs proc = some pr →
      pr.thread = k.currThread → k.leave = some k' → Ran k k' (.leaveIfCurr proc) []
  | stay {proc : Ptr} {pr : Process} : k.procs proc = some pr → pr.thread ≠ k.currThread →
      k' = k → Ran k k' (.leaveIfCurr proc) []
  | empty {p : Ptr} {len : ℕ} {port : Port} : k.ports p = some port → port.head = none →
      k' = k →
      Ran k k' (.testHead p len) [.setBlocked p len, .callSchedule p len, .testHead p len]
  | taken {p node : Ptr} {len : ℕ} {port : Port} {r : Received} : k.ports p = some port →
      port.head = some node → k.dequeue p port node len = some (k', r) →
      Ran k k' (.testHead p len) []
  | setBlocked {p : Ptr} {len : ℕ} {th : Thread} : k.threads k.currThread = some th →
      k' = k.setThread k.currThread th.block → Ran k k' (.setBlocked p len) []
  | callSchedule {p : Ptr} {len : ℕ} : k.schedule = some k' →
      Ran k k' (.callSchedule p len) []

lemma exec_ran {k k' : Kernel} {c : Stmt} {more : List Stmt}
    (h : c.exec k = some (k', more)) : Ran k k' c more := by
  cases c with
  | destroyPort proc i =>
    simp only [exec, bind, bind_eq_some_iff] at h
    obtain ⟨pr, -, h⟩ := h
    cases hp : pr.ports i with
    | none =>
      simp only [hp, some.injEq, Prod.mk.injEq] at h
      obtain ⟨rfl, rfl⟩ := h
      exact .noPort rfl
    | some p =>
      simp only [hp, bind_eq_some_iff, some.injEq, Prod.mk.injEq] at h
      obtain ⟨k₁, h₁, rfl, rfl⟩ := h
      exact .destroyPort h₁
  | closeFile proc i =>
    simp only [exec, bind, bind_eq_some_iff] at h
    obtain ⟨pr, -, h⟩ := h
    cases hf : pr.fds i with
    | none =>
      simp only [hf, some.injEq, Prod.mk.injEq] at h
      obtain ⟨rfl, rfl⟩ := h
      exact .noFile rfl
    | some f =>
      simp only [hf, bind_eq_some_iff, some.injEq, Prod.mk.injEq] at h
      obtain ⟨v, -, rfl, rfl⟩ := h
      exact .closeFile rfl
  | removeThread proc =>
    simp only [exec, bind, bind_eq_some_iff, some.injEq, Prod.mk.injEq] at h
    obtain ⟨pr, hpr, k₁, h₁, rfl, rfl⟩ := h
    exact .removeThread hpr h₁
  | killThread proc =>
    simp only [exec, bind, bind_eq_some_iff, some.injEq, Prod.mk.injEq] at h
    obtain ⟨pr, hpr, k₁, h₁, rfl, rfl⟩ := h
    exact .killThread hpr h₁
  | leaveIfCurr proc =>
    simp only [exec, bind, bind_eq_some_iff] at h
    obtain ⟨pr, hpr, h⟩ := h
    split_ifs at h with hc
    · simp only [bind_eq_some_iff, some.injEq, Prod.mk.injEq] at h
      obtain ⟨k₁, h₁, rfl, rfl⟩ := h
      exact .leaveIfCurr hpr hc h₁
    · obtain ⟨rfl, rfl⟩ := Prod.mk.inj (some.inj h)
      exact .stay hpr hc rfl
  | testHead p len =>
    simp only [exec, bind, bind_eq_some_iff] at h
    obtain ⟨port, hport, h⟩ := h
    cases hh : port.head with
    | none =>
      simp only [hh, some.injEq, Prod.mk.injEq] at h
      obtain ⟨rfl, rfl⟩ := h
      exact .empty hport hh rfl
    | some node =>
      simp only [hh, bind_eq_some_iff, some.injEq, Prod.mk.injEq] at h
      obtain ⟨⟨k₁, r⟩, h₁, rfl, rfl⟩ := h
      exact .taken hport hh h₁
  | requestCleanup =>
    simp only [exec, some.injEq, Prod.mk.injEq] at h
    obtain ⟨rfl, rfl⟩ := h
    exact .requestCleanup rfl
  | setBlocked p len =>
    simp only [exec, bind, bind_eq_some_iff, some.injEq, Prod.mk.injEq] at h
    obtain ⟨k₁, h₁, rfl, rfl⟩ := h
    obtain ⟨th, ht, rfl⟩ := modThread_eq_some h₁
    exact .setBlocked ht rfl
  | clearSlot | clearFd | removeCurr | killCurr | wakePid | leave | callSchedule =>
    simp only [exec, bind, bind_eq_some_iff, some.injEq, Prod.mk.injEq] at h
    obtain ⟨k₁, h₁, rfl, rfl⟩ := h
    constructor
    exact h₁

/-- The statements that at most wake threads. -/
def plain : Stmt → Bool
  | .destroyPort _ _ | .clearSlot _ _ | .closeFile _ _ | .clearFd _ _ | .requestCleanup
  | .wakePid _ | .testHead _ _ => true
  | _ => false

lemma Ran.wakes {k k' : Kernel} {c : Stmt} {more : List Stmt} (h : Ran k k' c more)
    (hc : c.plain = true) : Wakes anyWake k k' := by
  cases h with
  | noPort hk' | noFile hk' | empty _ _ hk' =>
    rw [hk']
    exact .refl (fun _ _ => .same) k
  | destroyPort hd =>
    exact (wakes_portDestroy (S := fun _ => True) hd fun _ _ => trivial).any
  | clearSlot hm | clearFd hm =>
    exact (wakes_modProc (by intro pr; rfl) hm).quiet
  | closeFile hk' | requestCleanup hk' =>
    rw [hk']
    exact Wakes.quiet (wakes_of_eq le_rfl rfl rfl rfl)
  | wakePid hw => exact threadWakePid_wakes hw
  | taken _ _ hd => exact (wakes_dequeue hd).quiet
  | _ => simp [plain] at hc

end Stmt

/-! ## What a step did -/

namespace Preempt

/-- A step under the timer. -/
inductive Taken (s s' : Preempt) : PreemptOp → Prop
  | atomic {op : Op} {k : Kernel} :
      op = .timer ∨ op.staysAtomic = true ∧ s.rest s.kernel.currThread = [] →
      s.kernel.step op = some k → s' = { s with kernel := k } → Taken s s' (.atomic op)
  | exit {th : Thread} {proc : Ptr} {pr : Process} :
      s.kernel.threads s.kernel.currThread = some th → th.process = some proc →
      s.rest s.kernel.currThread = [] → s.kernel.procs proc = some pr →
      s' = s.enter (Stmt.sysExit proc pr.pid) → Taken s s' .exit
  | kill {th : Thread} {pid : ℕ} {proc : Ptr} :
      s.kernel.threads s.kernel.currThread = some th → th.process ≠ none →
      s.rest s.kernel.currThread = [] → s.kernel.procFind pid = some (some proc) →
      s' = s.enter (Stmt.sysKill proc) → Taken s s' (.kill pid)
  | portReceive {th : Thread} {token len : ℕ} {p : Ptr} :
      s.kernel.threads s.kernel.currThread = some th → th.process ≠ none →
      s.rest s.kernel.currThread = [] → s.kernel.portLookup token = some (some p) →
      s' = s.enter (Stmt.portReceive p len) → Taken s s' (.portReceive token len)
  | same {op : PreemptOp} : s' = s → Taken s s' op
  | advance {c : Stmt} {cs more : List Stmt} {k : Kernel} :
      s.rest s.kernel.currThread = c :: cs → Stmt.Ran s.kernel k c more →
      s' = { kernel := k, rest := update s.rest s.kernel.currThread (more ++ cs) } →
      Taken s s' .advance

lemma inUserMode_spec {k : Kernel} (h : k.inUserMode = true) :
    ∃ th proc, k.threads k.currThread = some th ∧ th.process = some proc := by
  have hcall : k.asUser (some k) = some k := by rw [Kernel.asUser, if_pos h]
  obtain ⟨⟨th, proc, ht, hp, -⟩, -⟩ := asUser_eq_some hcall
  exact ⟨th, proc, ht, hp⟩

lemma step_taken {s s' : Preempt} {op : PreemptOp} (h : s.step op = some s') :
    Taken s s' op := by
  cases op with
  | atomic op =>
    simp only [step] at h
    split_ifs at h with hop
    obtain ⟨k, hk, rfl⟩ := map_eq_some_iff.mp h
    refine .atomic ?_ hk rfl
    rcases hop with hop | ⟨hop, hlist⟩
    · exact .inl hop
    · exact .inr ⟨hop, by simpa [idleList] using hlist⟩
  | exit =>
    simp only [step] at h
    split_ifs at h with hu
    rw [Bool.and_eq_true] at hu
    obtain ⟨th, proc, ht, hp⟩ := inUserMode_spec hu.1
    obtain ⟨stmts, hst, rfl⟩ := map_eq_some_iff.mp h
    simp only [exitStmts, bind, bind_eq_some_iff, some.injEq] at hst
    obtain ⟨proc', hproc', pr, hpr, rfl⟩ := hst
    rw [Kernel.currProc, ht, bind_some, hp, some.injEq] at hproc'
    subst hproc'
    exact .exit ht hp (by simpa [idleList] using hu.2) hpr rfl
  | kill pid =>
    simp only [step] at h
    split_ifs at h with hu
    rw [Bool.and_eq_true] at hu
    obtain ⟨th, proc, ht, hp⟩ := inUserMode_spec hu.1
    obtain ⟨stmts, hst, rfl⟩ := map_eq_some_iff.mp h
    simp only [killStmts, bind, bind_eq_some_iff] at hst
    obtain ⟨found, hfound, hst⟩ := hst
    cases found with
    | none =>
      rw [some.injEq] at hst
      exact hst ▸ .same rfl
    | some target =>
      obtain rfl := some.inj hst
      exact .kill ht (by simp [hp]) (by simpa [idleList] using hu.2) hfound rfl
  | portReceive token len =>
    simp only [step] at h
    split_ifs at h with hu
    rw [Bool.and_eq_true] at hu
    obtain ⟨th, proc, ht, hp⟩ := inUserMode_spec hu.1
    obtain ⟨stmts, hst, rfl⟩ := map_eq_some_iff.mp h
    simp only [receiveStmts, bind, bind_eq_some_iff] at hst
    obtain ⟨-, -, pr, -, slot, -, hst⟩ := hst
    cases slot with
    | none =>
      rw [some.injEq] at hst
      exact hst ▸ .same rfl
    | some iq =>
      simp only [bind_eq_some_iff] at hst
      obtain ⟨found, hfound, hst⟩ := hst
      cases found with
      | none =>
        rw [some.injEq] at hst
        exact hst ▸ .same rfl
      | some p =>
        obtain rfl := some.inj hst
        exact .portReceive ht (by simp [hp]) (by simpa [idleList] using hu.2) hfound rfl
  | advance =>
    simp only [step, Preempt.advance] at h
    cases hrest : s.rest s.kernel.currThread with
    | nil => simp [hrest] at h
    | cons c cs =>
      simp only [hrest, bind, bind_eq_some_iff, some.injEq] at h
      obtain ⟨⟨k, more⟩, hk, rfl⟩ := h
      exact .advance hrest (Stmt.exec_ran hk) rfl

end Preempt

end CobjOs
