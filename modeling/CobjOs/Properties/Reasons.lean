import CobjOs.Kernel.PortSpec
import CobjOs.Properties.ExitWakeup
import CobjOs.Properties.Running

/-!
# Why a blocking call returns

Three calls block a thread, and all of them use the one state `THREAD_BLOCKED`: `sys_wait_pid`
leaves the awaited id in `waiting_for`, `sys_sleep` the end of the sleep in `sleep_until`, and
`port_receive` leaves nothing.  `port_forward` wakes the owner of the port whatever it is
blocked in, and the end of a sleep can wrap; either way a call comes back too early.

`Thread.Reason` ties the two fields to the call a thread is in.  As long as no message is sent
to a port whose owner waits or sleeps, and no counter overflows, it holds of every living
thread, and a call that returns has what it waited for.
-/

namespace CobjOs

open Kernel Option

namespace Kernel

/-- The thread is blocked in `sys_wait_pid` or `sys_sleep`. -/
def waitsOrSleeps (th : Thread) : Bool :=
  th.state == .blocked &&
    match th.call with
    | .waitPid _ | .sleep _ _ => true
    | _ => false

/-- `port_forward` to the token would wake a thread that waits or sleeps. -/
def disturbs (k : Kernel) (token : ℕ) : Bool :=
  match k.portLookup token with
  | some (some p) => (k.ports p).any fun port => (k.procs port.owner).any fun pr =>
      (k.threads pr.thread).any waitsOrSleeps
  | _ => false

/-- No message goes to a port whose owner waits or sleeps, and the process ids, the ticks and
the ends of sleeps do not overflow. -/
def reasonOk (k : Kernel) (op : Op) : Bool :=
  !op.bare && decide (k.nextProcId < u64Max) &&
    match op with
    | .timer => decide (k.lapicTimerTicks < u64Max)
    | .sleep ms => decide (k.lapicTimerTicks + ms ≤ u64Max)
    | .portForward token _ => !k.disturbs token
    | _ => true

end Kernel

/-! ## Growing old -/

/-- Time goes on: ids and ticks grow, and no process that was dead is alive again. -/
structure Later (k k' : Kernel) : Prop where
  nextProcId : k.nextProcId ≤ k'.nextProcId
  ticks : k.lapicTimerTicks ≤ k'.lapicTimerTicks
  alive : ∀ {pid}, pid < k.nextProcId → k'.AliveId pid → k.AliveId pid

namespace Later

variable {k k' k'' : Kernel}

lemma frame {T : Ptr → Thread → Thread → Prop} (hf : Frame T k k')
    (hT : ∀ t a b, T t a b → a.state = .dead → b.state = .dead) : Later k k' := by
  refine ⟨hf.nextProcId.ge, hf.ticks.ge, ?_⟩
  rintro pid - ⟨p, hp, pr', th', hpr', hpid, hth', hd⟩
  obtain ⟨pr, hpr, hpid', hthr⟩ := hf.proc_back hpr'
  obtain ⟨th, hth, hab⟩ := hf.thread_back hth'
  rw [hf.procList] at hp
  exact ⟨p, hp, pr, th, hpr, hpid'.symm.trans hpid, by rw [← hthr]; exact hth,
    fun hdead => hd (hT _ _ _ hab hdead)⟩

lemma created {v : Vfs} {brk : Ptr} {fds : ℕ → Option Ptr} (hwf : Wf k.procList k)
    (hid : k.nextProcId < u64Max) : Later k (k.created v brk fds) := by
  have hnext : u64 (k.nextProcId + 1) = k.nextProcId + 1 :=
    Nat.mod_eq_of_lt (by unfold u64Max at hid; omega)
  refine ⟨?_, le_refl _, ?_⟩
  · rw [created_nextProcId, hnext]
    exact Nat.le_succ _
  · rintro pid hlt ⟨p, hp, pr, th, hpr, hpid, hth, hd⟩
    rcases Store.update_eq_some hpr with ⟨-, rfl⟩ | ⟨hpn, hpr⟩
    · exact absurd hpid (Nat.ne_of_gt hlt)
    · obtain ⟨th₀, hth₀, -⟩ := hwf.thread_of hpr
      have htn : pr.thread ≠ k.brk + 1 := Nat.ne_of_lt (Nat.lt_succ_of_lt (hwf.thread_lt hth₀))
      rw [created_threads, Function.update_of_ne htn] at hth
      have hmem : p ∈ k.procList := by
        rcases List.mem_cons.mp hp with hp | hp
        · exact absurd hp hpn
        · exact hp
      exact ⟨p, hmem, pr, th, hpr, hpid, hth, hd⟩

lemma reaped {k₁ : Kernel} {rest : List Ptr} (hwf : Wf k.procList k) (hr : Reaped k k₁) :
    Later k (k₁.setProcList rest) := by
  refine ⟨?_, ?_, ?_⟩
  · show k.nextProcId ≤ k₁.nextProcId
    rw [hr.rest]
  · show k.lapicTimerTicks ≤ k₁.lapicTimerTicks
    rw [hr.rest]
  · rintro pid - ⟨p, hp, pr, th, hpr, hpid, hth, hd⟩
    exact ⟨p, (hwf.listed p).mpr ⟨pr, hr.proc_sub hpr⟩, pr, th, hr.proc_sub hpr, hpid,
      hr.sub hth, hd⟩

end Later

/-! ## The reason of one thread -/

/-- `sleep_until` and `waiting_for` belong to the call the thread is in, and a thread that is
no longer blocked in a call may return from it. -/
def Thread.Reason (k : Kernel) (th : Thread) : Prop :=
  match th.call with
  | .user => th.sleepUntil = 0 ∧ th.waitingFor = u64Max ∧ th.state ≠ .blocked
  | .waitPid pid => th.sleepUntil = 0 ∧ pid < k.nextProcId ∧
      (th.state = .blocked → th.waitingFor = pid) ∧
      (th.state ≠ .blocked → th.waitingFor = u64Max ∧ ¬k.AliveId pid)
  | .sleep t0 ms => th.waitingFor = u64Max ∧
      (th.state = .blocked → th.sleepUntil = t0 + ms) ∧
      (th.state ≠ .blocked → th.sleepUntil = 0 ∧ t0 + ms ≤ k.lapicTimerTicks)
  | .receive _ _ => th.sleepUntil = 0 ∧ th.waitingFor = u64Max

namespace Thread.Reason

variable {k k' : Kernel} {th th' : Thread}

lemma later (h : th.Reason k) (hl : Later k k') : th.Reason k' := by
  unfold Thread.Reason at h ⊢
  cases hc : th.call with
  | user => simpa only [hc] using h
  | waitPid pid =>
    simp only [hc] at h ⊢
    obtain ⟨hsl, hlt, hb, hn⟩ := h
    refine ⟨hsl, lt_of_lt_of_le hlt hl.nextProcId, hb, fun hnb => ?_⟩
    obtain ⟨hw, hdead⟩ := hn hnb
    exact ⟨hw, fun ha => hdead (hl.alive hlt ha)⟩
  | sleep t0 ms =>
    simp only [hc] at h ⊢
    obtain ⟨hw, hb, hn⟩ := h
    refine ⟨hw, hb, fun hnb => ?_⟩
    obtain ⟨hsl, hle⟩ := hn hnb
    exact ⟨hsl, hle.trans hl.ticks⟩
  | receive p len => simpa only [hc] using h

/-- The link, the process and the stack play no part, nor does who of the awake is running. -/
lemma congr (h : th.Reason k) (hc : th'.call = th.call) (hs : th'.sleepUntil = th.sleepUntil)
    (hw : th'.waitingFor = th.waitingFor) (hb : th'.state = .blocked ↔ th.state = .blocked) :
    th'.Reason k := by
  unfold Thread.Reason at h ⊢
  rw [hc, hs, hw, ne_eq, hb]
  exact h

lemma relink {t : Ptr} (h : th.Reason k) (hr : CobjOs.relink t th th') : th'.Reason k := by
  unfold CobjOs.relink at hr
  rw [hr]
  exact h.congr rfl rfl rfl Iff.rfl

/-- `schedule()` wakes a sleeper only when its time has come. -/
lemma moved {t : Ptr} (h : th.Reason k) (hm : CobjOs.moved k.lapicTimerTicks t th th') :
    th'.Reason k := by
  rcases hm with rfl | ⟨ha, s, hs, rfl⟩ | ⟨hb, hpos, hle, s, hs, rfl⟩
  · exact h
  · have hnb : th.state ≠ .blocked := by rcases ha with ha | ha <;> simp [ha]
    have hsb : s ≠ .blocked := by rcases hs with rfl | rfl <;> simp
    exact h.congr rfl rfl rfl (by simp [hnb, hsb])
  · have hsb : s ≠ .blocked := by rcases hs with rfl | rfl <;> simp
    unfold Thread.Reason at h ⊢
    cases hc : th.call with
    | sleep t0 ms =>
      simp only [hc] at h ⊢
      obtain ⟨hw, hbl, -⟩ := h
      refine ⟨hw, fun hc => absurd hc hsb, fun _ => ⟨trivial, ?_⟩⟩
      rw [← hbl hb]
      exact hle
    | user | waitPid _ | receive _ _ =>
      simp only [hc] at h
      omega

/-- `thread_wake_pid` wakes only threads that wait for the id. -/
lemma exitWake {t : Ptr} {pid : ℕ} (h : th.Reason k) (hm : CobjOs.exitWake pid t th th')
    (hpid : pid < u64Max) (hdead : ¬k.AliveId pid) : th'.Reason k := by
  rcases hm with rfl | rfl
  · exact h
  unfold Thread.wakePid
  split_ifs with hcond
  · obtain ⟨hb, hw⟩ := hcond
    unfold Thread.Reason at h ⊢
    cases hc : th.call with
    | waitPid q =>
      simp only [hc] at h ⊢
      obtain ⟨hsl, hlt, hbl, -⟩ := h
      have hq : q = pid := (hbl hb).symm.trans hw
      refine ⟨hsl, hlt, by simp, fun _ => ⟨trivial, ?_⟩⟩
      rw [hq]
      exact hdead
    | user | sleep _ _ | receive _ _ =>
      simp only [hc] at h
      omega
  · exact h

lemma portWake {S : Ptr → Prop} {t : Ptr} (h : th.Reason k) (hm : CobjOs.portWake S t th th')
    (hS : S t → Kernel.waitsOrSleeps th = false) : th'.Reason k := by
  rcases hm with rfl | ⟨hSt, hb, rfl⟩
  · exact h
  have hcall := hS hSt
  unfold Thread.Reason at h ⊢
  cases hc : th.call with
  | user =>
    simp only [hc] at h
    exact absurd hb h.2.2
  | receive p len => simpa only [hc] using h
  | waitPid _ | sleep _ _ => simp [Kernel.waitsOrSleeps, hb, hc] at hcall

end Thread.Reason

/-! ## All threads -/

/-- The process ids are distinct and below the next one, and every living thread of a process,
those in `X` excepted, is blocked for the reason of its call. -/
structure Reasons (X : Ptr → Prop) (k : Kernel) : Prop where
  bound : k.nextProcId ≤ u64Max
  pid_lt : ∀ {p pr}, k.procs p = some pr → pr.pid < k.nextProcId
  pid_inj : ∀ {p q pr qr}, k.procs p = some pr → k.procs q = some qr → pr.pid = qr.pid → p = q
  reason : ∀ {t th}, ¬X t → k.threads t = some th → th.process ≠ none → th.state ≠ .dead →
    th.Reason k

namespace Reasons

variable {X X' : Ptr → Prop} {k k' k₁ k₂ : Kernel} {t : Ptr} {th : Thread}

/-- Carried over a change that wakes nobody without reason. -/
lemma frame {T : Ptr → Thread → Thread → Prop} (h : Reasons X k) (hf : Frame T k k')
    (hdead : ∀ t a b, T t a b → a.state = .dead → b.state = .dead)
    (hproc : ∀ t a b, T t a b → b.process = a.process)
    (hT : ∀ t a b, ¬X' t → k.threads t = some a → T t a b → b.state ≠ .dead →
      ¬X t ∧ (a.Reason k → b.Reason k)) : Reasons X' k' where
  bound := by rw [hf.nextProcId]; exact h.bound
  pid_lt hp' := by
    obtain ⟨pr, hp, hpid, -⟩ := hf.proc_back hp'
    rw [hpid, hf.nextProcId]
    exact h.pid_lt hp
  pid_inj hp' hq' hpid := by
    obtain ⟨pr, hp, hpid₁, -⟩ := hf.proc_back hp'
    obtain ⟨qr, hq, hpid₂, -⟩ := hf.proc_back hq'
    exact h.pid_inj hp hq (by rw [← hpid₁, ← hpid₂, hpid])
  reason {u b} hX hu hp hd := by
    obtain ⟨a, ha, hab⟩ := hf.thread_back hu
    obtain ⟨hXa, hreason⟩ := hT u a b hX ha hab hd
    have had : a.state ≠ .dead := fun hda => hd (hdead u a b hab hda)
    exact (hreason (h.reason hXa ha (by rwa [← hproc u a b hab]) had)).later (.frame hf hdead)

/-- Changes that leave threads, processes and counters alone. -/
lemma congr (h : Reasons X k) (hth : k'.threads = k.threads) (hpr : k'.procs = k.procs)
    (hlist : k'.procList = k.procList) (hid : k'.nextProcId = k.nextProcId)
    (ht : k.lapicTimerTicks ≤ k'.lapicTimerTicks) : Reasons X k' := by
  have hl : Later k k' := by
    refine ⟨hid.ge, ht, ?_⟩
    rintro pid - ⟨p, hp, pr, th, hp', hpid, hth', hd⟩
    rw [hlist] at hp
    rw [hpr] at hp'
    rw [hth] at hth'
    exact ⟨p, hp, pr, th, hp', hpid, hth', hd⟩
  refine ⟨by rw [hid]; exact h.bound, ?_, ?_, ?_⟩
  · rw [hpr, hid]
    exact h.pid_lt
  · rw [hpr]
    exact h.pid_inj
  · intro t th hX ht hp hd
    rw [hth] at ht
    exact (h.reason hX ht hp hd).later hl

lemma relink (h : Reasons X k) (hf : Frame relink k k') : Reasons X k' := by
  refine h.frame hf (fun t a b hab => (relink_dead t a b hab).mpr) ?_ ?_
  · intro t a b hab
    unfold CobjOs.relink at hab
    rw [hab]
  · intro t a b hX _ hab _
    exact ⟨hX, fun hr => hr.relink hab⟩

lemma portWakes {S : Ptr → Prop} (h : Reasons X k) (hw : Wakes (portWake S) k k')
    (hS : ∀ t a, k.threads t = some a → ¬X' t →
      ¬X t ∧ (S t → Kernel.waitsOrSleeps a = false)) : Reasons X' k' := by
  refine h.frame hw.toFrame (fun t a b hab => (Thread.Woken.dead_iff (portWake.woken hab)).mpr)
    (fun t a b hab => Thread.Woken.process (portWake.woken hab)) ?_
  intro t a b hX ha hab _
  exact ⟨(hS t a ha hX).1, fun hr => hr.portWake hab (hS t a ha hX).2⟩

lemma schedule {L : List Ptr} (h : Reasons X k) (hwf : Wf L k) (hs : k.schedule = some k') :
    Reasons X k' := by
  obtain ⟨k₁, hf, hk', -⟩ := schedule_frame hwf.idle_awake hs
  have h₁ : Reasons X k₁ := by
    refine h.frame hf (fun t a b hab => (moved.dead_iff hab).mpr)
      (fun t a b hab => moved.process hab) ?_
    intro t a b hX _ hab _
    exact ⟨hX, fun hr => hr.moved hab⟩
  rw [hk']
  exact h₁.congr rfl rfl rfl rfl (le_refl _)

lemma setThread (h : Reasons X k) {th' : Thread} (ht : k.threads t = some th)
    (hp : th'.process = th.process) (hd : th.state ≠ .dead) (hr : th'.Reason k) :
    Reasons X (k.setThread t th') := by
  have hf : Frame (fun u a b => b = a ∨ u = t ∧ a = th ∧ b = th') k (k.setThread t th') :=
    .setThread (fun _ _ => .inl rfl) ht (.inr ⟨rfl, rfl, rfl⟩)
  refine h.frame hf ?_ ?_ ?_
  · rintro u a b (rfl | ⟨-, rfl, rfl⟩) hda
    · exact hda
    · exact absurd hda hd
  · rintro u a b (rfl | ⟨-, rfl, rfl⟩)
    · rfl
    · exact hp
  · rintro u a b hX - (rfl | ⟨-, rfl, rfl⟩) -
    · exact ⟨hX, id⟩
    · exact ⟨hX, fun _ => hr⟩

lemma procCreate (h : Reasons X k) (hwf : Wf k.procList k) (hid : k.nextProcId < u64Max)
    {entry pid : ℕ} (hc : k.procCreate entry = some (k', pid)) : Reasons X k' := by
  rcases procCreate_frame hc with rfl | ⟨v, brk, fds, -, hf⟩
  · exact h
  refine Reasons.relink ?_ hf
  have hnext : (k.created v brk fds).nextProcId = k.nextProcId + 1 :=
    Nat.mod_eq_of_lt (by unfold u64Max at hid; omega)
  have hproc : ∀ {p pr}, (k.created v brk fds).procs p = some pr →
      p = k.brk ∧ pr.pid = k.nextProcId ∨ k.procs p = some pr ∧ pr.pid < k.nextProcId := by
    intro p pr hp
    rcases Store.update_eq_some hp with ⟨hpn, rfl⟩ | ⟨-, hp⟩
    · exact .inl ⟨hpn, rfl⟩
    · exact .inr ⟨hp, h.pid_lt hp⟩
  refine ⟨?_, ?_, ?_, ?_⟩
  · rw [hnext]
    exact hid
  · intro p pr hp
    rw [hnext]
    rcases hproc hp with ⟨-, hpid⟩ | ⟨-, hpid⟩ <;> omega
  · intro p q pr qr hp hq hpq
    rcases hproc hp with ⟨rfl, hpid⟩ | ⟨hp, hpid⟩ <;> rcases hproc hq with ⟨rfl, hqid⟩ | ⟨hq, hqid⟩
    · rfl
    · omega
    · omega
    · exact h.pid_inj hp hq hpq
  · intro t th hX ht hp hd
    rcases Store.update_eq_some ht with ⟨-, rfl⟩ | ⟨-, ht⟩
    · exact ⟨rfl, rfl, by simp⟩
    · exact (h.reason hX ht hp hd).later (.created hwf hid)

lemma reaped {rest : List Ptr} (h : Reasons X k) (hwf : Wf k.procList k) (hr : Reaped k k₁) :
    Reasons X (k₁.setProcList rest) := by
  have hid : (k₁.setProcList rest).nextProcId = k.nextProcId := by
    show k₁.nextProcId = _
    rw [hr.rest]
  refine ⟨by rw [hid]; exact h.bound, ?_, ?_, ?_⟩
  · intro p pr hp
    rw [hid]
    exact h.pid_lt (hr.proc_sub hp)
  · intro p q pr qr hp hq
    exact h.pid_inj (hr.proc_sub hp) (hr.proc_sub hq)
  · intro t th hX ht hp hd
    exact (h.reason hX (hr.sub ht) hp hd).later (.reaped hwf hr)

lemma retire (h : Reasons (fun u => u = t) k) (hrem : k.runqueueRemove t = some k₁)
    (hdead : k₁.markDead t = some k') : Reasons (fun _ => False) k' := by
  have h₁ := h.relink (runqueueRemove_frame hrem)
  obtain ⟨th₁, ht₁, rfl⟩ := modThread_eq_some hdead
  have hf : Frame (fun _ a b => b = a ∨ b = { a with state := .dead }) k₁
      (k₁.setThread t { th₁ with state := .dead }) :=
    .setThread (fun _ _ => .inl rfl) ht₁ (.inr rfl)
  have hlater : Later k₁ (k₁.setThread t { th₁ with state := .dead }) := by
    refine .frame hf ?_
    rintro u a b (rfl | rfl) hd
    · exact hd
    · rfl
  refine ⟨h₁.bound, h₁.pid_lt, h₁.pid_inj, ?_⟩
  intro u th _ hu hp hd
  rcases Store.update_eq_some hu with ⟨-, rfl⟩ | ⟨hut, hu⟩
  · simp at hd
  · exact (h₁.reason hut hu hp hd).later hlater

/-- After the thread of a process has been marked dead, its id is not alive. -/
lemma not_alive_of_retire (h : Reasons X k) {p : Ptr} {pr : Process} (hp : k.procs p = some pr)
    (hrem : k.runqueueRemove pr.thread = some k₁) (hdead : k₁.markDead pr.thread = some k') :
    ¬k'.AliveId pr.pid := by
  have hf := retire_frame hrem hdead
  rintro ⟨q, -, qr', th', hq', hpid, hth', hd⟩
  obtain ⟨qr, hq, hqpid, hqthr⟩ := hf.proc_back hq'
  have hqp : q = p := h.pid_inj hq hp (by rw [← hqpid, hpid])
  subst hqp
  rw [hp, some.injEq] at hq
  obtain ⟨th₁, ht₁, rfl⟩ := modThread_eq_some hdead
  rw [hqthr, ← hq, setThread_threads, Function.update_self, some.injEq] at hth'
  rw [← hth'] at hd
  simp at hd

lemma threadWakePid (h : Reasons X k) {pid : ℕ} (hpid : pid < u64Max) (hdead : ¬k.AliveId pid)
    (hw : k.threadWakePid pid = some k') : Reasons X k' := by
  refine h.frame (wakes_threadWakePid hw).toFrame
    (fun t a b hab => (Thread.Woken.dead_iff (exitWake.woken hab)).mpr)
    (fun t a b hab => Thread.Woken.process (exitWake.woken hab)) ?_
  intro t a b hX _ hab _
  exact ⟨hX, fun hr => hr.exitWake hab hpid hdead⟩

/-! ## One step -/

variable {k₀ : Kernel}

lemma exit (h : Reasons (fun _ => False) k) (hports : PortInv k) (hwf : Wf k.procList k)
    {proc : Ptr} (ht : k.threads k.currThread = some th) (hp : th.process = some proc)
    (hbody : k.exitBody = some k') : Reasons (fun _ => False) k' := by
  obtain ⟨proc', pr, k₂, k₃, k₄, k₅, hproc, hpr, h₂, h₃, h₄, h₅, h₆⟩ :=
    exitBody_cases hbody
  rw [Kernel.currProc, ht, bind_some] at hproc
  obtain rfl := mem_unique hp hproc
  obtain ⟨pr', hpr', hthr⟩ := hwf.process_thread ht hp
  obtain rfl := mem_unique hpr hpr'
  have hw := (hports.closeAll hpr h₂ h₃).1
  have hr₃ : Reasons (fun u => u = pr.thread) k₃ := h.portWakes hw fun u a _ hu =>
    ⟨id, fun hu' => absurd hu' hu⟩
  rw [(runqueueRemove_frame h₄).curr, hw.curr, ← hthr] at h₅
  rw [hw.curr, ← hthr] at h₄
  obtain ⟨pr₃, hpr₃, hpid₃, hthr₃⟩ := hw.proc hpr
  have hdead : ¬k₅.AliveId pr.pid := by
    rw [← hpid₃]
    rw [← hthr₃] at h₄ h₅
    exact hr₃.not_alive_of_retire hpr₃ h₄ h₅
  have hr₅ : Reasons (fun _ => False) k₅.requestCleanup :=
    (hr₃.retire h₄ h₅).congr rfl rfl rfl rfl (le_refl _)
  exact hr₅.threadWakePid (lt_of_lt_of_le (h.pid_lt hpr) h.bound) hdead h₆

lemma kill (h : Reasons (fun _ => False) k) (hports : PortInv k) {pid : ℕ} {proc : Ptr}
    (hfound : k.procFind pid = some (some proc)) (hbody : k.killBody proc = some (k', t)) :
    Reasons (fun _ => False) k' := by
  obtain ⟨-, pr₀, hpr₀, -⟩ := procFind_eq_some hfound
  obtain ⟨pr, k₂, k₃, k₄, k₅, h₂, h₃, hpr, h₄, h₅, rfl, rfl⟩ := killBody_cases hbody
  have hw := (hports.closeAll hpr₀ h₂ h₃).1
  obtain ⟨pr₃, hpr₃, -, hthr₃⟩ := hw.proc hpr₀
  obtain rfl := mem_unique hpr hpr₃
  have hr₃ : Reasons (fun u => u = pr.thread) k₃ := h.portWakes hw fun u a _ hu =>
    ⟨id, fun hu' => absurd (hu'.trans hthr₃.symm) hu⟩
  exact (hr₃.retire h₄ h₅).congr rfl rfl rfl rfl (le_refl _)

lemma dies (h : Reasons (fun _ => False) k) (hports : PortInv k) (hwf : Wf k.procList k)
    {op : Op} (hd : k.Dies op t k') : Reasons (fun _ => False) k' := by
  cases hd with
  | exit ht hp hbody => exact h.exit hports hwf ht hp hbody
  | kill hfound hbody => exact h.kill hports hfound hbody
  | exception ht hp h₁ h₂ =>
    have hX : Reasons (fun u => u = k.currThread) k :=
      ⟨h.bound, h.pid_lt, h.pid_inj, fun _ => h.reason id⟩
    exact hX.retire h₁ h₂

/-- The current thread comes back from a call it is no longer blocked in. -/
lemma toUser (h : Reasons X k) (ht : k.threads t = some th) (hr : th.state = .running)
    (hreason : th.Reason k) : Reasons X (k.setThread t th.toUser) := by
  refine h.setThread ht rfl (by simp [hr]) ?_
  have hnb : th.state ≠ .blocked := by simp [hr]
  unfold Thread.Reason at hreason
  show th.sleepUntil = 0 ∧ th.waitingFor = u64Max ∧ th.state ≠ .blocked
  cases hc : th.call with
  | user =>
    simp only [hc] at hreason
    exact hreason
  | waitPid pid =>
    simp only [hc] at hreason
    exact ⟨hreason.1, (hreason.2.2.2 hnb).1, hnb⟩
  | sleep t0 ms =>
    simp only [hc] at hreason
    exact ⟨(hreason.2.2 hnb).1, hreason.1, hnb⟩
  | receive p len =>
    simp only [hc] at hreason
    exact ⟨hreason.1, hreason.2, hnb⟩

lemma portForward (h : Reasons (fun _ => False) k) {token n : ℕ} {msg : List UInt8}
    (hok : k.disturbs token = false) (hf : k.portForward token msg = some (k', n)) :
    Reasons (fun _ => False) k' := by
  have hw : Wakes (portWake fun t => ∃ p, k.portLookup token = some (some p) ∧
      k.ownerThread p t) k k' :=
    wakes_portForward hf fun p t hfound ho => ⟨p, hfound, ho⟩
  refine h.portWakes hw fun t a ha _ => ⟨id, ?_⟩
  rintro ⟨p, hfound, port, pr, hport, hpr, rfl⟩
  simpa [Kernel.disturbs, hfound, hport, hpr, ha] using hok

/-- `sys_port_destroy` can wake the caller alone, which is not blocked. -/
lemma sysPortDestroy (h : Reasons (fun _ => False) k) (hports : PortInv k) (hg : Turning k₀ k)
    {token : ℕ} (hd : k.sysPortDestroy token = some k') : Reasons (fun _ => False) k' := by
  obtain ⟨l, hturn⟩ := hg.turn
  obtain ⟨th, ht, hrun⟩ := hg.runs
  have hw : Wakes (portWake fun t => t = k.currThread) k k' := by
    refine wakes_sysPortDestroy hd ?_
    rintro proc pr i p t hproc hpr hslot ⟨port, pr', hport, hpr', rfl⟩
    obtain ⟨port', hport', ho⟩ := hports.slot hpr (portSlotIn_eq_some _ hslot).1
    rw [hport, some.injEq] at hport'
    rw [Kernel.currProc, ht, bind_some] at hproc
    obtain ⟨pr₁, hpr₁, hthr⟩ := hturn.sched.wf.process_thread ht hproc
    rw [hport', ho, hpr₁, some.injEq] at hpr'
    rw [← hpr', hthr]
  refine h.portWakes hw fun t a ha _ => ⟨id, ?_⟩
  rintro rfl
  rw [ht, some.injEq] at ha
  simp [Kernel.waitsOrSleeps, ← ha, hrun]

lemma blocks (h : Reasons (fun _ => False) k) (hg : Turning k₀ k) {op : Op} {th' : Thread}
    (hok : k.reasonOk op = true) (ht : k.threads k.currThread = some th)
    (hp : th.process ≠ none) (hb : k.Blocks th op th') :
    Reasons (fun _ => False) (k.setThread k.currThread th') := by
  have hd : th.state ≠ .dead := by simp [hg.state ht]
  have hreason := h.reason id ht hp hd
  refine h.setThread ht hb.keeps.2.1 hd ?_
  unfold Thread.Reason at hreason
  cases hb with
  | @waitPid pid _ _ hcall _ hpr hpid =>
    simp only [hcall] at hreason
    exact ⟨hreason.1, hpid ▸ h.pid_lt hpr, fun _ => rfl, fun hnb => absurd rfl hnb⟩
  | @sleep ms hcall =>
    simp only [hcall] at hreason
    refine ⟨hreason.2.1, fun _ => ?_, fun hnb => absurd rfl hnb⟩
    simp only [Kernel.reasonOk, Bool.and_eq_true, decide_eq_true_eq] at hok
    have hle := hok.2
    exact Nat.mod_eq_of_lt (by unfold u64Max at hle; omega)
  | receive _ hcall =>
    show th.sleepUntil = 0 ∧ th.waitingFor = u64Max
    rcases hcall with hcall | ⟨q, n, hcall⟩
    · simp only [hcall] at hreason
      exact ⟨hreason.1, hreason.2.1⟩
    · simp only [hcall] at hreason
      exact hreason

lemma woke (h : Reasons (fun _ => False) k) (hports : PortInv k) (hg : Turning k₀ k) {op : Op}
    (hok : k.reasonOk op = true) (hw : k.Woke op k') : Reasons (fun _ => False) k' := by
  simp only [Kernel.reasonOk, Bool.and_eq_true] at hok
  cases hw with
  | enabled => exact h.congr rfl rfl rfl rfl (le_refl _)
  | portCreate hc =>
    have hw : Wakes (portWake fun _ => False) k k' := wakes_sysPortCreate hc
    exact h.portWakes hw fun _ _ _ _ => ⟨id, False.elim⟩
  | portForward hc => exact h.portForward (by simpa using hok.2) hc
  | portDestroy hc => exact h.sysPortDestroy hports hg hc
  | bareWake => simp [Op.bare] at hok

/-- An entry under the condition leaves every living thread blocked for its reason only. -/
lemma passes (h : Reasons (fun _ => False) k) (hports : PortInv k) (hg : Turning k₀ k) {op : Op}
    {ph : Kernel.Phase} (hok : k.reasonOk op = true) (hp : k.Passes op ph k') :
    Reasons (fun _ => False) k' := by
  have hok' := hok
  simp only [Kernel.reasonOk, Bool.and_eq_true, decide_eq_true_eq] at hok'
  obtain ⟨⟨hbare, hid⟩, hcond⟩ := hok'
  have hwf := hg.wf
  have hback : ∀ {th}, k.threads k.currThread = some th → th.process ≠ none → th.Reason k :=
    fun ht hp => h.reason id ht hp (by simp [hg.state ht])
  induction hp with
  | start => exact h
  | woke hw => exact h.woke hports hg hok hw
  | ticked b hop =>
    subst hop
    have hticks : k.lapicTimerTicks < u64Max := of_decide_eq_true hcond
    have hmod : u64 (k.lapicTimerTicks + 1) = k.lapicTimerTicks + 1 :=
      Nat.mod_eq_of_lt (by unfold u64Max at hticks; omega)
    refine h.congr rfl rfl rfl rfl ?_
    show k.lapicTimerTicks ≤ u64 (k.lapicTimerTicks + 1)
    omega
  | reaped hp hr _ _ ih => exact ih.reaped (hp.wf hwf) hr
  | created hp hid' hc ih => exact ih.procCreate (hp.wf hwf) (hid' ▸ hid) hc
  | asked _ ih => exact ih
  | blocked ht hp hb => exact h.blocks hg hok ht hp hb
  | scheduled hp hs ih | left hp hs _ ih => exact ih.schedule (hp.wf hwf) hs
  | died hd | spared hd => exact h.dies hports hwf hd
  | @received _ _ _ _ k₁ _ th _ hdeq ht hp hth =>
    have hw : Wakes (portWake fun _ => False) k k₁ := wakes_dequeue hdeq
    have h₁ : Reasons (fun _ => False) k₁ := h.portWakes hw fun _ _ _ _ => ⟨id, False.elim⟩
    have ht₁ : k₁.threads k.currThread = some th := hth ▸ ht
    exact h₁.toUser ht₁ (hg.state ht) (h₁.reason id ht₁ hp (by simp [hg.state ht]))
  | returned _ ht hp => exact h.toUser ht (hg.state ht) (hback ht hp)
  | bareNext hop | bareRemove hop => simp [hop, Op.bare] at hbare

end Reasons

/-! ## Whole runs -/

lemma portInv_start {initEntry : Option ℕ} {k : Kernel} (h : start initEntry = some k) :
    PortInv k := by
  rw [start_eq, some.injEq] at h
  rw [← h]
  refine ⟨?_, ?_, ?_, ?_, ?_⟩
  · intro p port hp
    simp [started, Kernel.boot] at hp
  · intro proc pr i p hp
    simp [started, Kernel.boot] at hp
  · intro proc pr i j p hp
    simp [started, Kernel.boot] at hp
  · intro i p hi
    simp [started, Kernel.boot] at hi
  · intro i j p hi
    simp [started, Kernel.boot] at hi

lemma reasons_start {initEntry : Option ℕ} {k : Kernel} (h : start initEntry = some k) :
    Reasons (fun _ => False) k := by
  rw [start_eq, some.injEq] at h
  rw [← h]
  refine ⟨Nat.zero_le _, ?_, ?_, ?_⟩
  · intro p pr hp
    simp [started, Kernel.boot] at hp
  · intro p q pr qr hp
    simp [started, Kernel.boot] at hp
  · intro t th _ ht hp
    by_cases ht1 : t = 1
    · simp only [started, ht1, Function.update_self, some.injEq] at ht
      rw [← ht] at hp
      simp [firstThread] at hp
    · simp [started, Kernel.boot, ht1] at ht

/-- In a run in which no message is sent to a port whose owner waits or sleeps, and no counter
overflows, a call of `sys_wait_pid(p)` that blocked returns only when no listed process with
the id `p` has a living thread, and a call of `sys_sleep(ms)` entered at tick `t0` only when
the tick counter has reached `t0 + ms`. -/
theorem blocked_calls_return_for_their_reason {initEntry : Option ℕ} {k₀ k k' : Kernel}
    {ls : List Op} (h₀ : start initEntry = some k₀)
    (hrun : Run Kernel.step (fun k op => k.reasonOk op = true) k₀ ls k)
    (hret : k.step .resume = some k') :
    ∃ th, k.threads k.currThread = some th ∧
      (∀ pid, th.call = .waitPid pid → ¬k.AliveId pid) ∧
      ∀ t0 ms, th.call = .sleep t0 ms → t0 + ms ≤ k.lapicTimerTicks := by
  have hinv : Turning k₀ k ∧ PortInv k ∧ Reasons (fun _ => False) k := by
    refine Run.invariant (I := fun k => Turning k₀ k ∧ PortInv k ∧ Reasons (fun _ => False) k)
      ⟨turning_start h₀, portInv_start h₀, reasons_start h₀⟩ ?_ hrun
    rintro s op s' ⟨hg, hports, hr⟩ hok hs
    have hbare : op.bare = false := by
      simp only [Kernel.reasonOk, Bool.and_eq_true] at hok
      simpa using hok.1.1
    exact ⟨hg.step (.inl hbare) hs, hports.step hg.wf hs,
      hr.passes hports hg hok (step_passes hg.wf hs)⟩
  obtain ⟨hg, -, hr⟩ := hinv
  obtain ⟨th, proc, -, ht, hp, -⟩ := step_resume hret
  obtain ⟨th₀, ht₀, hruns⟩ := hg.runs
  obtain rfl := mem_unique ht ht₀
  have hnb : th.state ≠ .blocked := by simp [hruns]
  have hreason := hr.reason id ht (by simp [hp]) (by simp [hruns])
  unfold Thread.Reason at hreason
  refine ⟨th, ht, ?_, ?_⟩
  · intro pid hcall
    simp only [hcall] at hreason
    exact (hreason.2.2.2 hnb).2
  · intro t0 ms hcall
    simp only [hcall] at hreason
    exact (hreason.2.2 hnb).2

/-- `init` sleeps for two ticks from tick 1 on and comes back at tick 3. -/
theorem blocked_calls_return_after_sleep : ∃ k₀ k k', start (some 7) = some k₀ ∧
    Run Kernel.step (fun k op => k.reasonOk op = true) k₀
      [.kidle, .timer, .sleep 2, .timer, .timer] k ∧ k.step .resume = some k' ∧
    ∃ th, k.threads k.currThread = some th ∧ th.call = .sleep 1 2 ∧
      1 + 2 ≤ k.lapicTimerTicks := by
  obtain ⟨k, hrun, hP⟩ : ∃ k, Run Kernel.step (fun k op => k.reasonOk op = true)
      (started (some 7)) [.kidle, .timer, .sleep 2, .timer, .timer] k ∧
      ((k.step .resume).isSome &&
        (k.threads k.currThread).any (fun th => th.call == .sleep 1 2)) = true :=
    Run.exists_of_exec Kernel.reasonOk (fun _ _ h => h) _ (by decide +kernel)
      (by decide +kernel)
  simp only [Bool.and_eq_true, isSome_iff_exists, any_eq_true, beq_iff_eq] at hP
  obtain ⟨⟨k', hk'⟩, th, ht, hcall⟩ := hP
  obtain ⟨th', ht', -, hsleep⟩ :=
    blocked_calls_return_for_their_reason (start_eq (some 7)) hrun hk'
  obtain rfl := mem_unique ht ht'
  exact ⟨_, k, k', start_eq (some 7), hrun, hk', th, ht, hcall, hsleep 1 2 hcall⟩

/-- `sys_wait_pid(1)` returns while process 1 lives, because a message arrived at a port of
the waiting process; and `sys_sleep(2^64 - 1)`, entered at tick 3, returns at tick 4. -/
theorem blocked_calls_return_too_early :
    (∃ k₀ k k' th, start (some 7) = some k₀ ∧ Run Kernel.step kernelStep k₀
      [.kidle, .timer, .portCreate 0, .spawn 9, .waitPid 1, .timer, .portForward 0 [1],
        .timer, .timer] k ∧
      k.step .resume = some k' ∧ k.threads k.currThread = some th ∧ th.call = .waitPid 1 ∧
      k.AliveId 1) ∧
    ∃ k₀ k k' th, start (some 7) = some k₀ ∧ Run Kernel.step kernelStep k₀
      [.kidle, .timer, .timer, .timer, .sleep u64Max, .timer] k ∧
      k.step .resume = some k' ∧ k.threads k.currThread = some th ∧
      th.call = .sleep 3 u64Max ∧ k.lapicTimerTicks < 3 + u64Max := by
  constructor
  · obtain ⟨k, hrun, hP⟩ : ∃ k, Run Kernel.step kernelStep (started (some 7))
        [.kidle, .timer, .portCreate 0, .spawn 9, .waitPid 1, .timer, .portForward 0 [1],
          .timer, .timer] k ∧
        ((k.step .resume).isSome && (k.threads k.currThread).any (fun th =>
          th.call == .waitPid 1) && decide (k.AliveId 1)) = true :=
      Run.exists_of_exec (fun _ op => !op.bare) kernelStep_of_not_bare _ (by decide +kernel)
        (by decide +kernel)
    simp only [Bool.and_eq_true, isSome_iff_exists, any_eq_true, beq_iff_eq,
      decide_eq_true_eq] at hP
    obtain ⟨⟨⟨k', hk'⟩, th, ht, hcall⟩, halive⟩ := hP
    exact ⟨_, k, k', th, start_eq (some 7), hrun, hk', ht, hcall, halive⟩
  · obtain ⟨k, hrun, hP⟩ : ∃ k, Run Kernel.step kernelStep (started (some 7))
        [.kidle, .timer, .timer, .timer, .sleep u64Max, .timer] k ∧
        ((k.step .resume).isSome && (k.threads k.currThread).any (fun th =>
          th.call == .sleep 3 u64Max) && decide (k.lapicTimerTicks < 3 + u64Max)) = true :=
      Run.exists_of_exec (fun _ op => !op.bare) kernelStep_of_not_bare _ (by decide +kernel)
        (by decide +kernel)
    simp only [Bool.and_eq_true, isSome_iff_exists, any_eq_true, beq_iff_eq,
      decide_eq_true_eq] at hP
    obtain ⟨⟨⟨k', hk'⟩, th, ht, hcall⟩, hticks⟩ := hP
    exact ⟨_, k, k', th, start_eq (some 7), hrun, hk', ht, hcall, hticks⟩

end CobjOs
