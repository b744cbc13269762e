import CobjOs.Kernel.Sched

/-!
# Ports, their table and the slots of processes

`ThreadsOnly k k'` says that only threads, the head of the run queue and the current thread
changed, as in the scheduler's routines.  `KeepsPorts D k k'` says that ports, their table and the
slots of processes stayed, and that no thread outside `D` died; all but five pieces of an entry are
of this kind (`Passes.ports`).

`PortInv` is the invariant behind the port system calls: a slot of a process holds a live port
that the process owns, no port is in two slots, and the entries of the port table are live and
distinct.
-/

namespace CobjOs

open Function Kernel Option

/-- Only threads, the head of the run queue and the current thread changed. -/
def ThreadsOnly (k k' : Kernel) : Prop :=
  k' = { k with threads := k'.threads, runqueueHead := k'.runqueueHead,
                currThread := k'.currThread }

namespace ThreadsOnly

variable {k k' k'' : Kernel} {t : Ptr}

lemma refl (k : Kernel) : ThreadsOnly k k := rfl

lemma trans (h : ThreadsOnly k k') (h' : ThreadsOnly k' k'') : ThreadsOnly k k'' := by
  unfold ThreadsOnly at *
  rw [h', h]

lemma setThread (t : Ptr) (th : Thread) : ThreadsOnly k (k.setThread t th) := rfl

lemma setHead (t : Option Ptr) : ThreadsOnly k (k.setHead t) := rfl

lemma setCurr (t : Ptr) : ThreadsOnly k (k.setCurr t) := rfl

lemma modThread {f : Thread → Thread} (h : k.modThread t f = some k') : ThreadsOnly k k' := by
  obtain ⟨th, -, rfl⟩ := modThread_eq_some h
  exact setThread t (f th)

lemma markDead (h : k.markDead t = some k') : ThreadsOnly k k' := modThread h

lemma runqueueNext {n : Ptr} (h : k.runqueueNext = some (k', n)) : ThreadsOnly k k' := by
  rcases runqueueNext_cases h with ⟨th, -, -, rfl⟩ | ⟨rfl, -⟩
  · exact rfl
  · exact refl k'

lemma switchTo {n : Ptr} (h : k.switchTo n = some k') : ThreadsOnly k k' := by
  simp only [Kernel.switchTo, bind, bind_eq_some_iff, some.injEq] at h
  obtain ⟨prev, -, k₁, hk₁, rfl⟩ := h
  split_ifs at hk₁
  · exact ((setThread _ _).trans (modThread hk₁)).trans (setCurr n)
  · exact (modThread hk₁).trans (setCurr n)

lemma schedule (h : k.schedule = some k') : ThreadsOnly k k' := by
  simp only [Kernel.schedule, bind, bind_eq_some_iff] at h
  obtain ⟨⟨k₁, n⟩, hn, h⟩ := h
  split_ifs at h
  · rw [some.injEq] at h
    exact h ▸ runqueueNext hn
  · exact (runqueueNext hn).trans (switchTo h)

lemma runqueueRemove (h : k.runqueueRemove t = some k') : ThreadsOnly k k' := by
  rcases runqueueRemove_cases h with ⟨hd, rfl⟩ | ⟨prev, n, hd, k₁, h₁, h₂⟩
  · exact setHead hd
  · exact ((modThread h₁).trans (setHead hd)).trans (modThread h₂)

lemma runqueuePush (h : k.runqueuePush t = some k') : ThreadsOnly k k' := by
  simp only [Kernel.runqueuePush, bind, bind_eq_some_iff] at h
  obtain ⟨k₁, h₁, h⟩ := h
  cases hhead : k₁.runqueueHead with
  | none =>
    simp only [hhead, bind_eq_some_iff, some.injEq] at h
    obtain ⟨k₂, h₂, rfl⟩ := h
    exact ((modThread h₁).trans (modThread h₂)).trans (setHead _)
  | some head =>
    simp only [hhead, bind_eq_some_iff] at h
    obtain ⟨tail, -, k₂, h₂, h₃⟩ := h
    exact ((modThread h₁).trans (modThread h₂)).trans (modThread h₃)

lemma threadWakePidLoop {pid : ℕ} : ∀ (fuel : ℕ) (k : Kernel) (t : Ptr),
    Kernel.threadWakePidLoop pid fuel k t = some k' → ThreadsOnly k k'
  | 0, _, _, h => by simp [Kernel.threadWakePidLoop] at h
  | fuel + 1, k, t, h => by
      simp only [Kernel.threadWakePidLoop, bind, bind_eq_some_iff] at h
      obtain ⟨th, -, n, -, h⟩ := h
      split_ifs at h
      · rw [some.injEq] at h
        exact h ▸ setThread t _
      · exact (setThread t _).trans (threadWakePidLoop fuel _ n h)

lemma threadWakePid {pid : ℕ} (h : k.threadWakePid pid = some k') : ThreadsOnly k k' := by
  unfold Kernel.threadWakePid at h
  cases hhead : k.runqueueHead with
  | none =>
    rw [hhead, some.injEq] at h
    exact h ▸ refl k
  | some head =>
    rw [hhead] at h
    exact threadWakePidLoop _ _ _ h

lemma wakeOwner {owner : Ptr} (h : k.wakeOwner owner = some k') : ThreadsOnly k k' := by
  simp only [Kernel.wakeOwner, bind, bind_eq_some_iff, some.injEq] at h
  obtain ⟨pr, -, th, -, rfl⟩ := h
  split_ifs
  · exact setThread _ _
  · exact refl k

end ThreadsOnly

/-- A thread ends by an exception, or its process first closes what it holds. -/
lemma Kernel.Dies.ends {L : List Ptr} {k k' : Kernel} {op : Op} {t : Ptr} (hwf : Wf L k)
    (h : k.Dies op t k') : op = .exception ∧ ThreadsOnly k k' ∨
      (op = .exit ∨ ∃ pid, op = .kill pid) ∧ ∃ proc pr k₁ k₂ k₃ k₄, k.procs proc = some pr ∧
        pr.thread = t ∧ k.closePorts proc = some k₁ ∧ k₁.closeFds proc = some k₂ ∧
        k₂.runqueueRemove t = some k₃ ∧ k₃.markDead t = some k₄ ∧
        ThreadsOnly k₄.requestCleanup k' ∧ Wakes anyWake k₄.requestCleanup k' := by
  cases h with
  | exit ht hp hs =>
    obtain ⟨proc, pr, k₁, k₂, k₃, k₄, hproc, hpr, h₁, h₂, h₃, h₄, h₅⟩ := exitBody_cases hs
    rw [currProc, ht, bind_some] at hproc
    obtain ⟨pr', hpr', hthr⟩ := hwf.process_thread ht hproc
    obtain rfl := mem_unique hpr hpr'
    have hcurr := (closeAll_wakes h₁ h₂).curr
    rw [(runqueueRemove_frame h₃).curr, hcurr] at h₄
    rw [hcurr] at h₃
    exact .inr ⟨.inl rfl, proc, pr, k₁, k₂, k₃, k₄, hpr, hthr, h₁, h₂, h₃, h₄,
      .threadWakePid h₅, threadWakePid_wakes h₅⟩
  | @kill pid _ _ _ _ hs =>
    obtain ⟨pr, k₁, k₂, k₃, k₄, h₁, h₂, hpr, h₃, h₄, rfl, rfl⟩ := killBody_cases hs
    obtain ⟨pr₀, hpr₀, -, hthr⟩ := (closeAll_wakes h₁ h₂).proc_back hpr
    exact .inr ⟨.inr ⟨pid, rfl⟩, _, pr₀, k₁, k₂, k₃, k₄, hpr₀, hthr.symm, h₁, h₂, h₃, h₄,
      .refl _, .refl (fun _ _ => .same) _⟩
  | exception _ _ h₁ h₂ => exact .inl ⟨rfl, (ThreadsOnly.runqueueRemove h₁).trans (.markDead h₂)⟩

/-! ## What leaves the ports alone -/

/-- Between `k` and `k'` no port was registered or destroyed, no process with a port came or
went, and no thread outside `D` died. -/
structure KeepsPorts (D : Ptr → Prop) (k k' : Kernel) : Prop where
  brk : k.brk ≤ k'.brk
  table : k'.portTable = k.portTable
  count : k'.portTableCount = k.portTableCount
  owner : ∀ p, (k'.ports p).map Port.owner = (k.ports p).map Port.owner
  proc : ∀ {q qr}, k.procs q = some qr → ∃ qr', k'.procs q = some qr' ∧ qr'.ports = qr.ports
  holder : ∀ {q qr' i p}, k'.procs q = some qr' → qr'.ports i = some p →
    ∃ qr, k.procs q = some qr ∧ qr.ports = qr'.ports ∧ qr.thread = qr'.thread
  alive : ∀ {t th}, ¬D t → k.threads t = some th → th.state ≠ .dead →
    ∃ th', k'.threads t = some th' ∧ th'.state ≠ .dead

namespace KeepsPorts

variable {D : Ptr → Prop} {k k' k'' : Kernel} {t : Ptr} {th : Thread}

lemma trans (h : KeepsPorts D k k') (h' : KeepsPorts D k' k'') : KeepsPorts D k k'' where
  brk := h.brk.trans h'.brk
  table := h'.table.trans h.table
  count := h'.count.trans h.count
  owner p := (h'.owner p).trans (h.owner p)
  proc hq := by
    obtain ⟨qr', hq', hs'⟩ := h.proc hq
    obtain ⟨qr'', hq'', hs''⟩ := h'.proc hq'
    exact ⟨qr'', hq'', hs''.trans hs'⟩
  holder hq hi := by
    obtain ⟨qr', hq', hs', ht'⟩ := h'.holder hq hi
    obtain ⟨qr, hqr, hs, ht⟩ := h.holder hq' (hs' ▸ hi)
    exact ⟨qr, hqr, hs.trans hs', ht.trans ht'⟩
  alive hD ht hd := by
    obtain ⟨th', ht', hd'⟩ := h.alive hD ht hd
    exact h'.alive hD ht' hd'

lemma of_eq (hbrk : k.brk ≤ k'.brk) (hpr : k'.procs = k.procs) (hpo : k'.ports = k.ports)
    (htab : k'.portTable = k.portTable) (hcount : k'.portTableCount = k.portTableCount)
    (halive : ∀ {t th}, ¬D t → k.threads t = some th → th.state ≠ .dead →
      ∃ th', k'.threads t = some th' ∧ th'.state ≠ .dead) : KeepsPorts D k k' where
  brk := hbrk
  table := htab
  count := hcount
  owner p := by rw [hpo]
  proc hq := ⟨_, hpr ▸ hq, rfl⟩
  holder hq _ := ⟨_, hpr ▸ hq, rfl, rfl⟩
  alive := halive

/-- A change outside the threads, the processes, the ports and the table. -/
lemma outside (hbrk : k.brk ≤ k'.brk)
    (hview : (k'.threads, k'.procs, k'.ports, k'.portTable, k'.portTableCount) =
      (k.threads, k.procs, k.ports, k.portTable, k.portTableCount)) : KeepsPorts D k k' := by
  simp only [Prod.mk.injEq] at hview
  obtain ⟨hth, hpr, hpo, htab, hcount⟩ := hview
  exact of_eq hbrk hpr hpo htab hcount fun _ ht hd => ⟨_, hth ▸ ht, hd⟩

lemma refl (k : Kernel) : KeepsPorts D k k := outside le_rfl rfl

lemma threadsOnly (h : ThreadsOnly k k') (halive : ∀ {t th}, ¬D t → k.threads t = some th →
    th.state ≠ .dead → ∃ th', k'.threads t = some th' ∧ th'.state ≠ .dead) : KeepsPorts D k k' :=
  of_eq (by rw [h]) (by rw [h]) (by rw [h]) (by rw [h]) (by rw [h]) halive

lemma of_frame {T : Ptr → Thread → Thread → Prop} (h : ThreadsOnly k k') (hf : Frame T k k')
    (hT : ∀ t a b, ¬D t → T t a b → a.state ≠ .dead → b.state ≠ .dead) : KeepsPorts D k k' := by
  refine threadsOnly h fun hD ht hd => ?_
  obtain ⟨th', ht', hw⟩ := hf.thread ht
  exact ⟨th', ht', hT _ _ _ hD hw hd⟩

lemma setThread {th' : Thread} (ht : k.threads t = some th)
    (hd : ¬D t → th.state ≠ .dead → th'.state ≠ .dead) : KeepsPorts D k (k.setThread t th') :=
  of_frame (T := fun t a b => ¬D t → a.state ≠ .dead → b.state ≠ .dead) (.setThread t th')
    (.setThread (fun _ _ _ h => h) ht hd) fun _ _ _ hD h => h hD

lemma wakes (h : ThreadsOnly k k') (hw : Wakes anyWake k k') : KeepsPorts D k k' :=
  of_frame h hw.toFrame fun _ _ _ _ hab hd hd' => hd ((Thread.Woken.dead_iff hab).mp hd')

lemma relinks (h : ThreadsOnly k k') (hf : Frame relink k k') : KeepsPorts D k k' :=
  of_frame h hf fun t a b _ hab hd hd' => hd ((relink_dead t a b hab).mp hd')

lemma schedule {L : List Ptr} (hwf : Wf L k) (hs : k.schedule = some k') : KeepsPorts D k k' := by
  refine threadsOnly (.schedule hs) fun _ ht hd => ?_
  obtain ⟨k₁, hf, hk', -⟩ := schedule_frame hwf.idle_awake hs
  obtain ⟨th', ht', hm⟩ := hf.thread ht
  exact ⟨th', by rw [hk']; exact ht', fun hd' => hd (hm.dead_iff.mp hd')⟩

lemma retire {k₁ : Kernel} (hrem : k.runqueueRemove t = some k₁)
    (hdead : k₁.markDead t = some k') : KeepsPorts (fun u => u = t) k k' := by
  obtain ⟨th, ht, rfl⟩ := modThread_eq_some hdead
  exact (relinks (.runqueueRemove hrem) (runqueueRemove_frame hrem)).trans
    (setThread ht fun hne => absurd rfl hne)

lemma procCreate {L : List Ptr} (hwf : Wf L k) {entry pid : ℕ}
    (hc : k.procCreate entry = some (k', pid)) : KeepsPorts D k k' := by
  rcases procCreate_cases hc with rfl | ⟨v, brk, fds, hbrk, hpush⟩
  · exact refl k'
  have hnew : KeepsPorts D k (k.created v brk fds) := by
    refine ⟨Nat.le_of_add_right_le hbrk, rfl, rfl, fun _ => rfl, ?_, ?_, ?_⟩
    · intro q qr hq
      have hne : q ≠ k.brk := Nat.ne_of_lt (hwf.proc_lt hq)
      exact ⟨qr, by rw [created_procs, update_of_ne hne, hq], rfl⟩
    · intro q qr' i p hq hi
      rcases Store.update_eq_some hq with ⟨-, rfl⟩ | ⟨-, hq⟩
      · simp at hi
      · exact ⟨qr', hq, rfl, rfl⟩
    · intro t th _ ht hd
      have hne : t ≠ k.brk + 1 := Nat.ne_of_lt (Nat.lt_succ_of_lt (hwf.thread_lt ht))
      exact ⟨th, by rw [created_threads, update_of_ne hne, ht], hd⟩
  refine hnew.trans (relinks (.runqueuePush hpush) (runqueuePush_frame ?_ hpush))
  intro th ht
  rw [created_threads, update_self, some.injEq] at ht
  rw [← ht]
  rfl

lemma setPort {p : Ptr} {port port' : Port} (hp : k.ports p = some port)
    (ho : port'.owner = port.owner) : KeepsPorts D k (k.setPort p port') := by
  refine { refl k with owner := fun q => ?_ }
  rw [setPort_ports]
  rcases eq_or_ne q p with rfl | hq
  · rw [update_self, hp, map_some, map_some, ho]
  · rw [update_of_ne hq]

lemma requeued {p : Ptr} {port : Port} (hp : k.ports p = some port)
    (hq : k.Requeued p port k') : KeepsPorts D k k' := by
  obtain ⟨m, port', -, ho, rfl⟩ := hq
  have hmsgs : KeepsPorts D k { k with msgs := m } := outside le_rfl rfl
  exact hmsgs.trans (setPort hp ho)

lemma portForward {token n : ℕ} {msg : List UInt8}
    (hf : k.portForward token msg = some (k', n)) : KeepsPorts D k k' := by
  rcases portForward_cases hf with ⟨-, rfl, -⟩ | ⟨p, port, k₁, -, hport, h₁, h₂, -⟩
  · exact refl _
  · have hmsg : KeepsPorts D k (k.withMsg msg) := outside (Nat.le_succ _) rfl
    have hwake := (wakes_wakeOwner (S := fun _ => True) h₂ fun _ _ => trivial).any
    exact (hmsg.trans (requeued hport (enqueue_requeued h₁))).trans
      (wakes (.wakeOwner h₂) hwake)

lemma closeFd {proc : Ptr} {i : ℕ} (hc : k.closeFd proc i = some k') : KeepsPorts D k k' := by
  rcases closeFd_cases hc with rfl | ⟨v, hc⟩
  · exact refl k'
  obtain ⟨pr, hpr, rfl⟩ := modProc_eq_some hc
  refine ⟨le_refl _, rfl, rfl, fun _ => rfl, ?_, ?_, fun _ ht hd => ⟨_, ht, hd⟩⟩
  · intro q qr hq
    by_cases hqp : q = proc
    · subst hqp
      obtain rfl := mem_unique hpr hq
      exact ⟨_, update_self _ _ _, rfl⟩
    · exact ⟨qr, by rw [setProc_procs, update_of_ne hqp, hq], rfl⟩
  · intro q qr' j p hq _
    rcases Store.update_eq_some hq with ⟨rfl, rfl⟩ | ⟨-, hq⟩
    · exact ⟨pr, hpr, rfl, rfl⟩
    · exact ⟨qr', hq, rfl, rfl⟩

lemma closeFds {proc : Ptr} (hc : k.closeFds proc = some k') : KeepsPorts D k k' :=
  foldlM_invariant (I := KeepsPorts D k) (fun _ _ _ h hf => h.trans (closeFd hf)) _ k (refl k) hc

end KeepsPorts

namespace Kernel

variable {k k' : Kernel} {op : Op}

/-- A thread ends by an exception, or its process closes its ports first. -/
lemma Dies.ports {L : List Ptr} {t : Ptr} (hwf : Wf L k) (h : k.Dies op t k') :
    op = .exception ∧ KeepsPorts (fun u => u = t) k k' ∨
      ∃ proc pr k₁, k.procs proc = some pr ∧ pr.thread = t ∧ k.closePorts proc = some k₁ ∧
        KeepsPorts (fun u => u = t) k₁ k' := by
  rcases h.ends hwf with
    ⟨rfl, -⟩ | ⟨-, proc, pr, k₁, k₂, k₃, k₄, hpr, hthr, h₁, h₂, h₃, h₄, ht, hw⟩
  · cases h with
    | exception _ _ h₁ h₂ => exact .inl ⟨rfl, .retire h₁ h₂⟩
  · have hreq : KeepsPorts (fun u => u = t) k₄ k₄.requestCleanup :=
      .outside le_rfl rfl
    exact .inr ⟨proc, pr, k₁, hpr, hthr, h₁, (((KeepsPorts.closeFds h₂).trans (.retire h₃ h₄)).trans
      hreq).trans (.wakes ht hw)⟩

/-- What is kept by all that leaves the ports alone, by reaping, and by the calls that create and
destroy ports, is kept by an entry. -/
lemma Passes.ports {I : Kernel → Prop} {ph : Phase} (hp : k.Passes op ph k')
    (hwf : Wf k.procList k) (h : I k)
    (hkeeps : ∀ {k₁ k₂}, I k₁ → KeepsPorts (fun _ => False) k₁ k₂ → I k₂)
    (hreaped : ∀ {k₁ k₂}, I k₁ → Reaped k₁ k₂ → I k₂)
    (hcreate : ∀ {tsc n k₁}, op = .portCreate tsc → k.sysPortCreate tsc = some (k₁, n) → I k₁)
    (hdestroy : ∀ {token k₁}, k.sysPortDestroy token = some k₁ → I k₁)
    (hdies : ∀ {t k₁}, k.Dies op t k₁ → I k₁) : I k' := by
  induction hp with
  | start => exact h
  | woke hw =>
    cases hw with
    | enabled => exact hkeeps h (.outside (Nat.le_succ _) rfl)
    | portCreate hc => exact hcreate rfl hc
    | portForward hc => exact hkeeps h (.portForward hc)
    | portDestroy hc => exact hdestroy hc
    | bareWake hw => exact hkeeps h (.wakes (.threadWakePid hw) (threadWakePid_wakes hw))
  | ticked => exact hkeeps h (.outside le_rfl rfl)
  | reaped _ hr _ _ ih => exact hkeeps (hreaped ih hr) (.outside le_rfl rfl)
  | created hp _ hc ih => exact hkeeps ih (.procCreate (hp.wf hwf) hc)
  | asked _ ih => exact ih
  | blocked ht _ hb => exact hkeeps h (.setThread ht fun _ _ => by simp [hb.keeps])
  | scheduled hp hs ih | left hp hs _ ih => exact hkeeps ih (.schedule (hp.wf hwf) hs)
  | died hd | spared hd => exact hdies hd
  | @received _ _ _ _ k₁ _ th hport hdeq ht _ hth =>
    have ht₁ : k₁.threads k.currThread = some th := hth ▸ ht
    exact hkeeps (hkeeps h (.requeued hport (dequeue_requeued hdeq)))
      (.setThread ht₁ fun _ hd => hd)
  | returned _ ht => exact hkeeps h (.setThread ht fun _ hd => hd)
  | bareNext _ hn =>
    exact hkeeps h (.of_frame (.runqueueNext hn) (runqueueNext_frame hn)
      fun _ _ _ _ hab hd hd' => hd (hab.dead_iff.mp hd'))
  | bareRemove _ _ hr => exact hkeeps h (.relinks (.runqueueRemove hr) (runqueueRemove_frame hr))

end Kernel

/-! ## The invariant -/

/-- Slots hold live ports of their process, no port stands in two slots, and the entries of
the table are live and distinct. -/
structure PortInv (k : Kernel) : Prop where
  port_lt : ∀ {p port}, k.ports p = some port → p < k.brk
  slot : ∀ {proc pr i p}, k.procs proc = some pr → pr.ports i = some p →
    ∃ port, k.ports p = some port ∧ port.owner = proc
  slot_inj : ∀ {proc pr i j p}, k.procs proc = some pr → pr.ports i = some p →
    pr.ports j = some p → i = j
  entry : ∀ {i p}, k.portTable i = some p → i < k.portTableCount ∧ ∃ port, k.ports p = some port
  entry_inj : ∀ {i j p}, k.portTable i = some p → k.portTable j = some p → i = j

lemma PortInv.keeps {D : Ptr → Prop} {k k' : Kernel} (h : PortInv k) (hk : KeepsPorts D k k') :
    PortInv k' where
  port_lt hp := by
    obtain ⟨port, hport, -⟩ := Store.exists_of_map_eq (hk.owner _).symm hp
    exact (h.port_lt hport).trans_le hk.brk
  slot hq hi := by
    obtain ⟨qr, hqr, hports, -⟩ := hk.holder hq hi
    obtain ⟨port, hport, rfl⟩ := h.slot hqr (hports ▸ hi)
    exact Store.exists_of_map_eq (hk.owner _) hport
  slot_inj hq hi hj := by
    obtain ⟨qr, hqr, hports, -⟩ := hk.holder hq hi
    exact h.slot_inj hqr (hports ▸ hi) (hports ▸ hj)
  entry hi := by
    rw [hk.table] at hi
    obtain ⟨hlt, port, hport⟩ := h.entry hi
    obtain ⟨port', hport', -⟩ := Store.exists_of_map_eq (hk.owner _) hport
    exact ⟨hk.count ▸ hlt, port', hport'⟩
  entry_inj := by
    rw [hk.table]
    exact h.entry_inj

/-! ## What the port routines write -/

namespace Kernel

variable {k k' : Kernel} {p : Ptr} {token : ℕ} {pr qr : Process}

lemma portSlotIn_eq_some {i : ℕ} : ∀ (is : List ℕ), k.portSlotIn pr token is = some (some (i, p)) →
      pr.ports i = some p ∧ ∃ port, k.ports p = some port ∧ port.token = token
  | [], h => by simp [portSlotIn] at h
  | j :: js, h => by
      rw [portSlotIn] at h
      cases hj : pr.ports j with
      | none =>
        rw [hj] at h
        exact portSlotIn_eq_some js h
      | some q =>
        simp only [hj, bind, bind_eq_some_iff] at h
        obtain ⟨port, hport, h⟩ := h
        split_ifs at h with htok
        · obtain ⟨rfl, rfl⟩ := Prod.mk.inj (some.inj (some.inj h))
          exact ⟨hj, port, hport, htok⟩
        · exact portSlotIn_eq_some js h

lemma portLookup_eq_some (h : k.portLookup token = some (some p)) :
    ∃ port, k.ports p = some port ∧ port.token = token := by
  have hscan : ∀ is : List ℕ, k.portLookupIn token is = some (some p) →
      ∃ port, k.ports p = some port ∧ port.token = token := by
    intro is
    induction is with
    | nil =>
      intro h
      simp [portLookupIn] at h
    | cons i is ih =>
      intro h
      rw [portLookupIn] at h
      cases hi : k.portTable i with
      | none =>
        rw [hi] at h
        exact ih h
      | some q =>
        simp only [hi, bind, bind_eq_some_iff] at h
        obtain ⟨port, hport, h⟩ := h
        split_ifs at h with htok
        · rw [some.injEq, some.injEq] at h
          exact ⟨port, h ▸ hport, htok⟩
        · exact ih h
  exact hscan _ h

lemma freeMsgs_eq : ∀ (fuel : ℕ) (k : Kernel) (node : Option Ptr),
    freeMsgs fuel k node = some k' → k' = { k with msgs := k'.msgs }
  | _, k, none, h => by
      rw [freeMsgs, some.injEq] at h
      rw [← h]
  | 0, _, some _, h => by simp [freeMsgs] at h
  | fuel + 1, k, some node, h => by
      simp only [freeMsgs, bind, bind_eq_some_iff] at h
      obtain ⟨nd, -, h⟩ := h
      rw [freeMsgs_eq fuel _ _ h]

lemma clearEntry_eq {table : ℕ → Option Ptr}
    (hinj : ∀ {i j}, table i = some p → table j = some p → i = j) :
    ∀ is : List ℕ, (∀ i, table i = some p → i ∈ is) →
      clearEntry table p is = fun i => if table i = some p then none else table i
  | [], hmem => by
      funext i
      have hi : table i ≠ some p := fun hi => by simpa using hmem i hi
      rw [clearEntry, if_neg hi]
  | j :: js, hmem => by
      rw [clearEntry]
      by_cases hj : table j = some p
      · rw [if_pos hj]
        funext i
        by_cases hij : i = j
        · rw [hij, update_self, if_pos hj]
        · have hi : table i ≠ some p := fun hi => hij (hinj hi hj)
          rw [update_of_ne hij, if_neg hi]
      · rw [if_neg hj]
        refine clearEntry_eq hinj js fun i hi => ?_
        rcases List.mem_cons.mp (hmem i hi) with rfl | hmem'
        · exact absurd hi hj
        · exact hmem'

lemma setSlot_cases {proc q r : Ptr} {i j : ℕ} {v : Option Ptr} (hpr : k.procs proc = some pr)
    (hq : (k.setProc proc { pr with ports := update pr.ports i v }).procs q = some qr)
    (hj : qr.ports j = some r) : q = proc ∧ j = i ∧ v = some r ∧ qr.thread = pr.thread ∨
      (q = proc → j ≠ i) ∧
        ∃ qr₀, k.procs q = some qr₀ ∧ qr₀.ports j = some r ∧ qr₀.thread = qr.thread := by
  rcases Store.update_eq_some hq with ⟨rfl, rfl⟩ | ⟨hne, hq⟩
  · rcases eq_or_ne j i with rfl | hji
    · simp only [update_self] at hj
      exact .inl ⟨rfl, rfl, hj, rfl⟩
    · simp only [update_of_ne hji] at hj
      exact .inr ⟨fun _ => hji, pr, hpr, hj, rfl⟩
  · exact .inr ⟨fun hc => absurd hc hne, qr, hq, hj, rfl⟩

lemma setSlot_keeps {proc q r : Ptr} {i j : ℕ} {v : Option Ptr}
    (hpr : k.procs proc = some pr) (hq : k.procs q = some qr) (hj : qr.ports j = some r)
    (hne : q = proc → j ≠ i) :
    ∃ qr', (k.setProc proc { pr with ports := update pr.ports i v }).procs q = some qr' ∧
      qr'.ports j = some r := by
  by_cases hqp : q = proc
  · subst hqp
    obtain rfl := mem_unique hpr hq
    exact ⟨_, update_self _ _ _, by rw [← hj]; exact update_of_ne (hne rfl) _ _⟩
  · exact ⟨qr, by rw [setProc_procs, update_of_ne hqp, hq], hj⟩

/-- What `port_destroy` writes outside threads and messages. -/
lemma portDestroy_fields (h : k.portDestroy p = some k') :
    k'.ports = update k.ports p none ∧
      k'.portTable = clearEntry k.portTable p (List.range k.portTableCount) ∧
      k'.portTableCount = k.portTableCount ∧ k'.procs = k.procs ∧ k'.brk = k.brk := by
  simp only [portDestroy, bind, bind_eq_some_iff, some.injEq] at h
  obtain ⟨port, -, k₁, h₁, k₂, h₂, rfl⟩ := h
  have ht := ThreadsOnly.wakeOwner h₁
  unfold ThreadsOnly at ht
  rw [freeMsgs_eq _ _ _ h₂, ht]
  exact ⟨rfl, rfl, rfl, rfl, rfl⟩

/-- Where the table has the port once, it is taken out. -/
lemma portDestroy_table (hinv : PortInv k) (h : k.portDestroy p = some k') :
    k'.portTable = fun i => if k.portTable i = some p then none else k.portTable i := by
  rw [(portDestroy_fields h).2.1]
  exact clearEntry_eq hinv.entry_inj _ fun i hi => List.mem_range.mpr (hinv.entry hi).1

end Kernel

/-- A port is destroyed and its slot emptied: all other ports stay where they are. -/
structure DestroysSlot (k k' : Kernel) (p : Ptr) : Prop where
  brk : k'.brk = k.brk
  count : k'.portTableCount = k.portTableCount
  port : ∀ {q port}, k'.ports q = some port → k.ports q = some port
  port_ne : ∀ {q port}, k.ports q = some port → q ≠ p → k'.ports q = some port
  entry : ∀ {j q}, k'.portTable j = some q → k.portTable j = some q ∧ q ≠ p
  slot : ∀ {q qr j r}, k'.procs q = some qr → qr.ports j = some r →
    ∃ qr₀, k.procs q = some qr₀ ∧ qr₀.ports j = some r ∧ r ≠ p ∧ qr₀.thread = qr.thread
  slot_ne : ∀ {q qr j r}, k.procs q = some qr → qr.ports j = some r → r ≠ p →
    ∃ qr', k'.procs q = some qr' ∧ qr'.ports j = some r

/-! ## What keeps the invariant -/

namespace PortInv

variable {k k' k₁ : Kernel} {p proc : Ptr} {i token : ℕ} {pr : Process}

lemma withPort (h : PortInv k) (token : ℕ) (owner : Ptr) : PortInv (k.withPort token owner) := by
  have hold : ∀ {q qo}, k.ports q = some qo → (k.withPort token owner).ports q = some qo := by
    intro q qo hq
    have hne : q ≠ k.brk := Nat.ne_of_lt (h.port_lt hq)
    rw [withPort_ports, update_of_ne hne, hq]
  have hentry : ∀ {i q}, (k.withPort token owner).portTable i = some q →
      i = k.portTableCount ∧ q = k.brk ∨ i ≠ k.portTableCount ∧ k.portTable i = some q := by
    exact fun hi => Store.update_eq_some hi
  have hfresh : ∀ {i q}, k.portTable i = some q → q ≠ k.brk := by
    rintro i q hi rfl
    obtain ⟨-, port, hport⟩ := h.entry hi
    exact absurd (h.port_lt hport) (lt_irrefl _)
  refine ⟨?_, ?_, h.slot_inj, ?_, ?_⟩
  · intro q qo hq
    rcases Store.update_eq_some hq with ⟨rfl, -⟩ | ⟨-, hq⟩
    · exact Nat.lt_succ_self _
    · exact Nat.lt_succ_of_lt (h.port_lt hq)
  · intro proc pr i q hpr hi
    obtain ⟨qo, hqo, ho⟩ := h.slot hpr hi
    exact ⟨qo, hold hqo, ho⟩
  · intro i q hi
    rcases hentry hi with ⟨rfl, rfl⟩ | ⟨-, hi⟩
    · exact ⟨Nat.lt_succ_self _, _, update_self _ _ _⟩
    · obtain ⟨hlt, qo, hqo⟩ := h.entry hi
      exact ⟨Nat.lt_succ_of_lt hlt, qo, hold hqo⟩
  · intro i j q hi hj
    rcases hentry hi with ⟨rfl, hq⟩ | ⟨-, hi⟩ <;> rcases hentry hj with ⟨rfl, hq'⟩ | ⟨-, hj⟩
    · rfl
    · exact absurd hq (hfresh hj)
    · exact absurd hq' (hfresh hi)
    · exact h.entry_inj hi hj

/-- The new port goes into a free slot of its owner. -/
lemma withSlot (h : PortInv k) (hpr : k.procs proc = some pr) :
    PortInv ((k.withPort token proc).setProc proc
      { pr with ports := update pr.ports i (some k.brk) }) := by
  have hw := h.withPort token proc
  have hne : ∀ {q qr j r}, k.procs q = some qr → qr.ports j = some r → r ≠ k.brk := by
    rintro q qr j r hq hj rfl
    obtain ⟨port, hport, -⟩ := h.slot hq hj
    exact absurd (h.port_lt hport) (lt_irrefl _)
  have hpr' : (k.withPort token proc).procs proc = some pr := hpr
  refine ⟨hw.port_lt, ?_, ?_, hw.entry, hw.entry_inj⟩
  · intro q qr j r hq hj
    rcases setSlot_cases hpr' hq hj with ⟨rfl, -, hr, -⟩ | ⟨-, qr₀, hqr₀, hj₀, -⟩
    · rw [some.injEq] at hr
      exact ⟨_, by rw [← hr]; exact update_self _ _ _, rfl⟩
    · exact hw.slot hqr₀ hj₀
  · intro q qr j j' r hq hj hj'
    rcases setSlot_cases hpr' hq hj with ⟨-, rfl, hr, -⟩ | ⟨-, qr₀, hqr₀, hj₀, -⟩ <;>
      rcases setSlot_cases hpr' hq hj' with ⟨-, rfl, hr', -⟩ | ⟨-, qr₁, hqr₁, hj₁, -⟩
    · rfl
    · exact absurd (some.inj hr).symm (hne hqr₁ hj₁)
    · exact absurd (some.inj hr').symm (hne hqr₀ hj₀)
    · obtain rfl := mem_unique hqr₀ hqr₁
      exact h.slot_inj hqr₀ hj₀ hj₁

lemma sysPortCreate (h : PortInv k) {tsc n : ℕ} (hc : k.sysPortCreate tsc = some (k', n)) :
    PortInv k' := by
  obtain ⟨proc, pr, -, hpr, ⟨-, rfl⟩ | ⟨i, -, -, rfl⟩⟩ := sysPortCreate_cases hc
  · exact h.withPort _ _
  · exact h.withSlot hpr

lemma destroysSlot (h : PortInv k)
    (hpr : k.procs proc = some pr) (hi : pr.ports i = some p) (hd : k.portDestroy p = some k₁)
    (hm : k₁.modProc proc (fun pr => { pr with ports := update pr.ports i none })
      = some k') : DestroysSlot k k' p := by
  obtain ⟨hports, -, hcount, hprocs, hbrk⟩ := portDestroy_fields hd
  have htable := portDestroy_table h hd
  have hpr₁ : k₁.procs proc = some pr := by rw [hprocs, hpr]
  rw [Kernel.modProc, hpr₁, map_some, some.injEq] at hm
  subst hm
  refine ⟨hbrk, hcount, fun hq => ?_, fun hq hqp => ?_, fun hj => ?_, fun hq hj => ?_,
    fun hq hj hne => ?_⟩
  · rw [setProc_ports, hports] at hq
    exact (Store.erase_eq_some hq).2
  · rw [setProc_ports, hports, update_of_ne hqp, hq]
  · simp only [setProc_portTable, htable] at hj
    split_ifs at hj with hjp
    exact ⟨hj, fun hqp => hjp (hqp ▸ hj)⟩
  · rcases setSlot_cases hpr₁ hq hj with ⟨-, -, hr, -⟩ | ⟨hji, qr₀, hqr₀, hj₀, hthr⟩
    · simp at hr
    rw [hprocs] at hqr₀
    refine ⟨qr₀, hqr₀, hj₀, ?_, hthr⟩
    -- a port stands in one slot only
    rintro rfl
    obtain ⟨o₁, ho₁, how₁⟩ := h.slot hqr₀ hj₀
    obtain ⟨o₂, ho₂, how₂⟩ := h.slot hpr hi
    obtain rfl := mem_unique ho₁ ho₂
    obtain rfl := how₁.symm.trans how₂
    obtain rfl := mem_unique hpr hqr₀
    exact hji rfl (h.slot_inj hpr hj₀ hi)
  · refine setSlot_keeps hpr₁ (by rw [hprocs, hq]) hj ?_
    rintro rfl rfl
    obtain rfl := mem_unique hpr hq
    exact hne (some.inj (hj.symm.trans hi))

lemma destroySlot (h : PortInv k) (hd : DestroysSlot k k' p) : PortInv k' where
  port_lt hq := hd.brk.symm ▸ h.port_lt (hd.port hq)
  slot hq hj := by
    obtain ⟨qr, hqr, hj₀, hne, -⟩ := hd.slot hq hj
    obtain ⟨port, hport, ho⟩ := h.slot hqr hj₀
    exact ⟨port, hd.port_ne hport hne, ho⟩
  slot_inj hq hj hj' := by
    obtain ⟨qr₀, hqr₀, hj₀, -⟩ := hd.slot hq hj
    obtain ⟨qr₁, hqr₁, hj₁, -⟩ := hd.slot hq hj'
    obtain rfl := mem_unique hqr₀ hqr₁
    exact h.slot_inj hqr₀ hj₀ hj₁
  entry hj := by
    obtain ⟨hj₀, hne⟩ := hd.entry hj
    obtain ⟨hlt, port, hport⟩ := h.entry hj₀
    exact ⟨hd.count.symm ▸ hlt, port, hd.port_ne hport hne⟩
  entry_inj hj hj' := h.entry_inj (hd.entry hj).1 (hd.entry hj').1

lemma closePort (h : PortInv k) (hc : k.closePort proc i = some k') :
    PortInv k' := by
  obtain ⟨pr, hpr, ⟨-, rfl⟩ | ⟨p, k₁, hp, h₁, h₂⟩⟩ := closePort_cases hc
  · exact h
  · exact h.destroySlot (h.destroysSlot hpr hp h₁ h₂)

/-- Closing the ports of a process wakes no thread but its own. -/
lemma closePorts (h : PortInv k) (hpr : k.procs proc = some pr) (hc : k.closePorts proc = some k') :
    Wakes (portWake fun t => t = pr.thread) k k' ∧ PortInv k' := by
  have hloop := wakes_foldlM (S := fun t => t = pr.thread)
    (P := fun k => PortInv k ∧ ∀ pr', k.procs proc = some pr' → pr'.thread = pr.thread)
    (f := fun k i => k.closePort proc i) ?_ (List.range maxPorts) k ⟨h, ?_⟩ hc
  · exact ⟨hloop.1, hloop.2.1⟩
  · rintro k i k' ⟨hinv, hthr⟩ hcl
    have hw : Wakes (portWake fun t => t = pr.thread) k k' := by
      refine wakes_closePort hcl ?_
      rintro pr₁ p t hpr₁ hp ⟨port, pr₂, hport, hpr₂, rfl⟩
      obtain ⟨port', hport', ho⟩ := hinv.slot hpr₁ hp
      rw [hport, some.injEq] at hport'
      rw [hport', ho, hpr₁, some.injEq] at hpr₂
      rw [← hpr₂]
      exact hthr pr₁ hpr₁
    refine ⟨hw, hinv.closePort hcl, ?_⟩
    intro pr' hpr'
    obtain ⟨pr₀, hpr₀, -, hthr₀⟩ := hw.proc_back hpr'
    rw [hthr₀]
    exact hthr pr₀ hpr₀
  · intro pr' hpr'
    rw [hpr, some.injEq] at hpr'
    rw [hpr']

lemma sysPortDestroy (h : PortInv k) (hd : k.sysPortDestroy token = some k') :
    PortInv k' := by
  obtain ⟨proc, pr, -, hpr, rfl | ⟨i, p, k₁, hslot, h₁, h₂⟩⟩ := sysPortDestroy_cases hd
  · exact h
  · exact h.destroySlot (h.destroysSlot hpr (portSlotIn_eq_some _ hslot).1 h₁ h₂)

lemma reaped (h : PortInv k) (hr : Reaped k k') : PortInv k' := by
  have hrest := hr.rest
  refine ⟨?_, fun hq hi => ?_, fun hq => h.slot_inj (hr.proc_sub hq), ?_, ?_⟩
  · rw [hrest]
    exact h.port_lt
  · rw [hrest]
    exact h.slot (hr.proc_sub hq) hi
  · rw [hrest]
    exact h.entry
  · rw [hrest]
    exact h.entry_inj

lemma closeAll (h : PortInv k) {k₂ : Kernel}
    (hpr : k.procs proc = some pr) (h₁ : k.closePorts proc = some k₁)
    (h₂ : k₁.closeFds proc = some k₂) :
    Wakes (portWake fun t => t = pr.thread) k k₂ ∧ PortInv k₂ := by
  obtain ⟨hw₁, hinv₁⟩ := h.closePorts hpr h₁
  exact ⟨hw₁.portTrans (wakes_closeFds h₂), hinv₁.keeps (D := fun _ => False) (.closeFds h₂)⟩

lemma dies (h : PortInv k) (hwf : Wf k.procList k) {op : Op} {t : Ptr} (hd : k.Dies op t k') :
    PortInv k' := by
  rcases hd.ports hwf with ⟨-, hk⟩ | ⟨proc, pr, k₁, hpr, -, h₁, hk⟩
  · exact h.keeps hk
  · exact (h.closePorts hpr h₁).2.keeps hk

lemma step (h : PortInv k) (hwf : Wf k.procList k) {op : Op} (hs : k.step op = some k') :
    PortInv k' :=
  (step_passes hwf hs).ports hwf h (fun h hk => h.keeps hk) (fun h hr => h.reaped hr)
    (fun _ hc => h.sysPortCreate hc) (fun hd => h.sysPortDestroy hd) fun hd => h.dies hwf hd

end PortInv

end CobjOs
