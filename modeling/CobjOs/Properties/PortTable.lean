import CobjOs.Kernel.Mail
import CobjOs.Properties.Reasons

/-!
# The capacity of the port table

`port_create` writes at `port_table_count` and adds one to it; nothing ever takes one off, and
`port_destroy` leaves a hole.  So the counter is the number of ports created since the start,
whatever became of them: the first 1024 fit into the table, and the next one is written behind
it, even if there was never more than one port at a time.
-/

namespace CobjOs

open Function Option

/-- The entry that creates a port. -/
def Op.createsPort : Op → Bool
  | .portCreate _ => true
  | _ => false

/-! ## The counter -/

namespace Kernel

variable {k k' : Kernel}

/-- `sys_port_create` writes one entry, at the counter. -/
lemma sysPortCreate_entry {tsc n : ℕ} (h : k.sysPortCreate tsc = some (k', n)) :
    k'.portTable = update k.portTable k.portTableCount (some k.brk) ∧
      k'.portTableCount = k.portTableCount + 1 := by
  obtain ⟨proc, pr, -, -, ⟨-, rfl⟩ | ⟨i, -, -, rfl⟩⟩ := sysPortCreate_cases h
  · exact ⟨rfl, rfl⟩
  · exact ⟨rfl, rfl⟩

/-- No step but the creation of a port moves the counter. -/
lemma step_count (hwf : Wf k.procList k) {op : Op} (hs : k.step op = some k') :
    k'.portTableCount ≤ k.portTableCount + if op.createsPort then 1 else 0 := by
  rcases (step_mail hwf hs).count with hcount | ⟨⟨tsc, rfl⟩, hcount⟩
  · rw [hcount]
    exact Nat.le_add_right _ _
  · rw [hcount]
    exact le_refl _

end Kernel

/-! ## Whole runs -/

lemma Run.portTableCount_le {initEntry : Option ℕ} {k₀ k : Kernel} {ls : List Op}
    (h₀ : start initEntry = some k₀) (hrun : Run Kernel.step anyStep k₀ ls k) :
    k.portTableCount ≤ ls.countP Op.createsPort := by
  induction hrun with
  | nil =>
    rw [start_eq, some.injEq] at h₀
    rw [← h₀]
    exact le_refl 0
  | @snoc ls s s' op hprev _ hs ih =>
    obtain ⟨l, hsched⟩ := ((good_start h₀).run hprev).sched
    have hstep := Kernel.step_count hsched.wf hs
    rw [List.countP_append, List.countP_singleton]
    omega

/-- As long as no more than 1024 ports have been created, `port_table_count` stays within the
table, and the next port, if it is among the first 1024, is written inside it. -/
theorem port_index_in_table {initEntry : Option ℕ} {k₀ k : Kernel} {ls : List Op}
    (h₀ : start initEntry = some k₀) (hrun : Run Kernel.step anyStep k₀ ls k)
    (hfew : ls.countP Op.createsPort ≤ portTableSize) :
    k.portTableCount ≤ portTableSize ∧
      ∀ tsc k', k.step (.portCreate tsc) = some k' →
        (ls ++ [Op.portCreate tsc]).countP Op.createsPort ≤ portTableSize →
        ∃ i < portTableSize,
          k'.portTable = update k.portTable i (some k.brk) ∧
          k'.portTableCount = i + 1 := by
  have hle := Run.portTableCount_le h₀ hrun
  refine ⟨hle.trans hfew, ?_⟩
  intro tsc k' hs hcount
  have hlt : ls.countP Op.createsPort < portTableSize := by
    rw [List.countP_append, List.countP_singleton] at hcount
    exact hcount
  obtain ⟨-, hs⟩ := Kernel.asUser_eq_some hs
  obtain ⟨⟨k₁, n⟩, hc, rfl⟩ := map_eq_some_iff.mp hs
  exact ⟨k.portTableCount, lt_of_le_of_lt hle hlt, Kernel.sysPortCreate_entry hc⟩

/-- The second port of a run goes to a place inside the table. -/
theorem port_index_in_table_second : ∃ k₀ k k', start (some 7) = some k₀ ∧
    Run Kernel.step anyStep k₀ [.kidle, .timer, .portCreate 0, .portDestroy 0] k ∧
    k.step (.portCreate 0) = some k' ∧
    ∃ i < portTableSize, k'.portTable = update k.portTable i (some k.brk) := by
  obtain ⟨k, hrun, hP⟩ : ∃ k, Run Kernel.step anyStep (started (some 7))
      [.kidle, .timer, .portCreate 0, .portDestroy 0] k ∧
      (k.step (.portCreate 0)).isSome = true :=
    Run.exists_of_exec (fun _ _ => true) (fun _ _ _ => trivial) _ (by decide +kernel)
      (by decide +kernel)
  obtain ⟨k', hk'⟩ := isSome_iff_exists.mp hP
  obtain ⟨i, hi, htable, -⟩ :=
    (port_index_in_table (start_eq (some 7)) hrun (by decide)).2 0 k' hk' (by decide)
  exact ⟨_, k, k', start_eq (some 7), hrun, hk', i, hi, htable⟩

/-! ## Ports one after the other -/

/-- The running thread is in user mode, its first port slot is free and the table is empty. -/
structure NoPorts (k : Kernel) (th : Thread) (proc : Ptr) (pr : Process) : Prop where
  thread : k.threads k.currThread = some th
  running : th.state = .running
  process : th.process = some proc
  user : th.call = .user
  proc : k.procs proc = some pr
  self : pr.thread = k.currThread
  slot : pr.ports 0 = none
  fresh : ∀ p, k.brk ≤ p → k.ports p = none
  table : k.portTable = fun _ => none

namespace NoPorts

variable {k : Kernel} {th : Thread} {proc : Ptr} {pr : Process}

lemma asUser (h : NoPorts k th proc pr) (call : Option Kernel) : k.asUser call = call := by
  rw [Kernel.asUser, if_pos]
  simp [Kernel.inUserMode, h.thread, h.process, h.user]

/-- The state after a port has been created. -/
def one (k : Kernel) (proc : Ptr) (pr : Process) : Kernel :=
  (k.withPort 0 proc).setProc proc { pr with ports := update pr.ports 0 (some k.brk) }

lemma step_create (h : NoPorts k th proc pr) : k.step (.portCreate 0) = some (one k proc pr) := by
  have hcreate : k.portCreate 0 = some (k.withPort 0 proc, k.brk) := by
    simp only [Kernel.portCreate, h.thread, h.process, bind, bind_some]
    rfl
  have hproc : (k.withPort 0 proc).procs proc = some pr := h.proc
  have hrange : List.range maxPorts = 0 :: (List.range 63).map Nat.succ := by decide
  have hfree : ((List.range maxPorts).find? fun i => (pr.ports i).isNone) = some 0 := by
    rw [hrange, List.find?_cons_of_pos]
    simp [h.slot]
  rw [Kernel.step, h.asUser, Kernel.sysPortCreate, Kernel.currProc]
  simp only [h.thread, h.process, hcreate, hproc, hfree, bind, bind_some, Kernel.modProc,
    map_some]
  rfl

lemma one_proc : (one k proc pr).procs proc =
    some { pr with ports := update pr.ports 0 (some k.brk) } :=
  update_self _ _ _

lemma one_port : (one k proc pr).ports k.brk =
    some { token := 0, head := none, tail := none, owner := proc } :=
  update_self _ _ _

lemma clearEntry_single (n : ℕ) (p : Ptr) :
    Kernel.clearEntry (update (fun _ => none) n (some p)) p (List.range (n + 1)) =
      fun _ => none := by
  have hentry : ∀ {i}, update (fun _ => none) n (some p) i = some p → i = n := by
    intro i hi
    by_contra hin
    rw [update_of_ne hin] at hi
    simp at hi
  rw [Kernel.clearEntry_eq]
  · funext i
    by_cases hin : i = n
    · simp [hin]
    · simp [hin]
  · intro i j hi hj
    rw [hentry hi, hentry hj]
  · intro i hi
    rw [hentry hi]
    exact List.mem_range.mpr (Nat.lt_succ_self n)

/-- The port is gone and its place in the table is empty, but the counter has moved on. -/
def gone (k : Kernel) (proc : Ptr) (pr : Process) : Kernel :=
  { k with
    brk := k.brk + 1
    portTableCount := k.portTableCount + 1
    procs := update (one k proc pr).procs proc (some pr) }

lemma portDestroy_one (h : NoPorts k th proc pr) : (one k proc pr).portDestroy k.brk =
    some { one k proc pr with portTable := k.portTable, ports := k.ports } := by
  have hthread : (one k proc pr).threads pr.thread = some th := by
    rw [h.self]
    exact h.thread
  have hwake : (one k proc pr).wakeOwner proc = some (one k proc pr) := by
    simp only [Kernel.wakeOwner, one_proc, hthread, bind, bind_some, h.running]
    rfl
  have hports : update (one k proc pr).ports k.brk none = k.ports := by
    show update (update k.ports _ _) _ _ = _
    rw [update_idem, ← h.fresh k.brk (le_refl _), update_eq_self]
  have htable : Kernel.clearEntry (one k proc pr).portTable k.brk
      (List.range (one k proc pr).portTableCount) = k.portTable := by
    show Kernel.clearEntry (update k.portTable _ _) _ (List.range (_ + 1)) = _
    rw [h.table, clearEntry_single]
  simp only [Kernel.portDestroy, one_port, hwake, Kernel.freeMsgs, bind, bind_some,
    hports, htable]

lemma step_destroy (h : NoPorts k th proc pr) :
    (one k proc pr).step (.portDestroy 0) = some (gone k proc pr) := by
  have huser : (one k proc pr).inUserMode = true := by
    have hth : (one k proc pr).threads (one k proc pr).currThread = some th := h.thread
    simp [Kernel.inUserMode, hth, h.process, h.user]
  have hcurr : (one k proc pr).currProc = some proc := by
    show (k.threads k.currThread).bind Thread.process = some proc
    rw [h.thread, bind_some, h.process]
  have hslot : (one k proc pr).portSlotIn
      { pr with ports := update pr.ports 0 (some k.brk) } 0 (List.range maxPorts) =
      some (some (0, k.brk)) := by
    have hrange : List.range maxPorts = 0 :: (List.range 63).map Nat.succ := by decide
    rw [hrange, Kernel.portSlotIn]
    simp [one_port]
  have hslots : update (update pr.ports 0 (some k.brk)) 0 none = pr.ports := by
    rw [update_idem, ← h.slot, update_eq_self]
  rw [Kernel.step, Kernel.asUser, if_pos huser, Kernel.sysPortDestroy]
  simp only [hcurr, one_proc, hslot, h.portDestroy_one, bind, bind_some, Kernel.modProc,
    map_some, hslots]
  rfl

lemma gone_noPorts (h : NoPorts k th proc pr) : NoPorts (gone k proc pr) th proc pr :=
  { h with
    proc := update_self _ _ _
    fresh := fun p hp => h.fresh p (Nat.le_of_succ_le hp) }

/-- After any number of ports created and destroyed one after the other the counter is that
number. -/
lemma run_pairs (h : NoPorts k th proc pr) (n : ℕ) :
    ∃ ls k', Run Kernel.step kernelStep k ls k' ∧ NoPorts k' th proc pr ∧
      k'.portTableCount = k.portTableCount + n := by
  induction n with
  | zero => exact ⟨[], k, .nil, h, rfl⟩
  | succ n ih =>
    obtain ⟨ls, k', hrun, h', hcount⟩ := ih
    have hone : Run Kernel.step kernelStep k (ls ++ [.portCreate 0]) (one k' proc pr) :=
      .snoc hrun rfl h'.step_create
    refine ⟨ls ++ [.portCreate 0] ++ [.portDestroy 0], gone k' proc pr, ?_, h'.gone_noPorts, ?_⟩
    · exact .snoc hone rfl h'.step_destroy
    · show k'.portTableCount + 1 = _
      rw [hcount, Nat.add_assoc]

end NoPorts

/-- `init` creates and destroys 1024 ports, one after the other.  The table is empty, and the
next `sys_port_create` writes at index 1024, behind its end. -/
theorem port_table_overflows : ∃ k₀ k k' ls, start (some 7) = some k₀ ∧
    Run Kernel.step kernelStep k₀ ls k ∧ (∀ i, k.portTable i = none) ∧
    k.step (.portCreate 0) = some k' ∧ k.portTableCount = portTableSize ∧
    k'.portTable portTableSize = some k.brk := by
  obtain ⟨k, hrun, hP⟩ : ∃ k, Run Kernel.step kernelStep (started (some 7)) [.kidle, .timer] k ∧
      ((k.threads k.currThread).any (fun th => th.process == some 4 && th.call == .user) &&
        (k.procs 4).any fun pr => (pr.ports 0).isNone) = true :=
    Run.exists_of_exec (fun _ op => !op.bare) kernelStep_of_not_bare _ (by decide +kernel)
      (by decide +kernel)
  simp only [Bool.and_eq_true, any_eq_true, beq_iff_eq, isNone_iff_eq_none] at hP
  obtain ⟨⟨th, ht, hp, hcall⟩, pr, hpr, hslot⟩ := hP
  -- the rest of `NoPorts` comes from the invariants
  have hinv : Turning (started (some 7)) k ∧ PortInv k := by
    refine Run.invariant (I := fun k => Turning (started (some 7)) k ∧ PortInv k)
      ⟨turning_start (start_eq _), portInv_start (start_eq _)⟩ ?_ hrun
    rintro s op s' ⟨hg, hports⟩ hok hs
    obtain ⟨l, hturn⟩ := hg.turn
    exact ⟨hg.step (.inl hok) hs, hports.step hturn.sched.wf hs⟩
  obtain ⟨⟨⟨l, hturn⟩, th', ht', hruns⟩, hports⟩ := hinv
  have hzero : k.portTableCount = 0 := by
    have hle := Run.portTableCount_le (start_eq (some 7)) (hrun.mono fun _ _ _ => trivial)
    exact Nat.le_zero.mp hle
  have hno : NoPorts k th 4 pr := by
    refine ⟨ht, ?_, hp, hcall, hpr, ?_, hslot, ?_, ?_⟩
    · rw [ht, some.injEq] at ht'
      rw [ht', hruns]
    · obtain ⟨pr', hpr', hthr⟩ := hturn.sched.wf.process_thread ht hp
      rw [hpr, some.injEq] at hpr'
      rw [hpr', hthr]
    · intro p hple
      by_contra hsome
      obtain ⟨port, hport⟩ := ne_none_iff_exists'.mp hsome
      exact absurd (hports.port_lt hport) (Nat.not_lt.mpr hple)
    · funext i
      by_contra hsome
      obtain ⟨p, hi⟩ := ne_none_iff_exists'.mp hsome
      have hlt := (hports.entry hi).1
      omega
  obtain ⟨ls, k', hrun', hno', hcount⟩ := hno.run_pairs portTableSize
  rw [hzero, Nat.zero_add] at hcount
  refine ⟨_, k', _, _, start_eq (some 7), hrun.append hrun', ?_, hno'.step_create, hcount, ?_⟩
  · intro i
    rw [hno'.table]
  · show update k'.portTable k'.portTableCount _ portTableSize = _
    rw [hcount, update_self]

end CobjOs
