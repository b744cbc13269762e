import CobjOs.Properties.RunQueue

/-!
# One running thread

`schedule()` does not write the state of a thread it picks again, so that exactly one thread
is `THREAD_RUNNING`, and that it is `curr_thread`, rests on an order: while another thread is
current the idle thread is ready and stands on the ring before the current one, so that the
scan always finds somebody else first.  `Turn` is that invariant.  It is kept by everything a
kernel entry does before it calls `schedule()`, and `schedule()` turns it into "the current
thread runs".
-/

namespace CobjOs

open Kernel List Option

/-- At most the current thread runs, and the idle thread waits ahead of it. -/
structure Turn (k₀ k : Kernel) (l : List Ptr) : Prop where
  sched : Sched (fun _ => False) k₀ k l
  only : ∀ {t th}, k.threads t = some th → th.state = .running → t = k.currThread
  ahead : k.currThread ≠ k.idleThread →
    (∃ th, k.threads k.idleThread = some th ∧ th.state = .ready) ∧
      ∃ l₁ l₂, l = l₁ ++ k.idleThread :: l₂ ∧ k.currThread ∉ l₁
  idleRuns : k.currThread = k.idleThread →
    ∃ th, k.threads k.idleThread = some th ∧ th.state = .running

/-- The current thread is running. -/
def CurrRuns (k : Kernel) : Prop :=
  ∃ th, k.threads k.currThread = some th ∧ th.state = .running

namespace Turn

variable {k₀ k k' : Kernel} {l : List Ptr} {t : Ptr} {th : Thread}

/-! ## `schedule()` -/

lemma mem_idle (h : Turn k₀ k l) : k.idleThread ∈ l := by
  obtain ⟨th, ht, -, ha⟩ := h.sched.wf.idle
  exact (h.sched.member _).mpr ⟨id, th, ht, ha.ne_dead⟩

lemma runnable_ready (ht : k.threads t = some th) (hr : th.state = .ready) : k.Runnable t := by
  refine ⟨th, ht, ?_⟩
  unfold Thread.expire
  split_ifs
  · rfl
  · exact hr

lemma not_ready_of_running {ticks : ℕ} (hr : th.state = .running) :
    (th.expire ticks).state ≠ .ready := by
  unfold Thread.expire
  simp [hr]

/-- The scan stops before it comes to the current thread. -/
lemma picked_ne_curr (h : Turn k₀ k l) {pre post : List Ptr} {c : Ptr}
    (hl : l = pre ++ c :: post) (hpre : ∀ u ∈ pre, ¬k.Runnable u) (ht : k.threads c = some th)
    (hr : (th.expire k.lapicTimerTicks).state = .ready) : c ≠ k.currThread := by
  rintro rfl
  by_cases hci : k.currThread = k.idleThread
  · obtain ⟨thi, hthi, hrun⟩ := h.idleRuns hci
    rw [hci, hthi, some.injEq] at ht
    exact not_ready_of_running (ht ▸ hrun) hr
  · obtain ⟨⟨thi, hthi, hready⟩, l₁, l₂, hsplit, hnot⟩ := h.ahead hci
    have hidle : k.idleThread ∉ pre := fun hmem => hpre _ hmem (runnable_ready hthi hready)
    -- the current thread stands in both splits of `l`, before and after the idle thread
    rw [hl] at hsplit
    rcases append_eq_append_iff.mp hsplit with ⟨m, hm₁, hm₂⟩ | ⟨m, hm₁, hm₂⟩
    · cases m with
      | nil =>
        simp only [nil_append, List.cons.injEq] at hm₂
        exact hci hm₂.1
      | cons b m' =>
        simp only [cons_append, List.cons.injEq] at hm₂
        exact hnot (by rw [hm₁, ← hm₂.1]; simp)
    · cases m with
      | nil =>
        simp only [nil_append, List.cons.injEq] at hm₂
        exact hci hm₂.1.symm
      | cons b m' =>
        simp only [cons_append, List.cons.injEq] at hm₂
        exact hidle (by rw [hm₁, hm₂.1]; simp)

/-- The order behind a hand-over to a thread `c` that is not the idle thread. -/
lemma split_last {l : List Ptr} {i c : Ptr} (hnd : (l ++ [c]).Nodup) (hi : i ∈ l) :
    ∃ l₁ l₂, l ++ [c] = l₁ ++ i :: l₂ ∧ c ∉ l₁ := by
  obtain ⟨m₁, m₂, rfl⟩ := append_of_mem hi
  refine ⟨m₁, m₂ ++ [c], by simp, ?_⟩
  intro hc
  rw [nodup_append] at hnd
  exact hnd.2.2 c (by simp [hc]) c (by simp) rfl

/-- Handing over to `n`, picked from the state `k₁` that differs from `k` only in a thread that
was not running. -/
lemma switched {k₁ : Kernel} {n : Ptr} {prev thn : Thread} {l' : List Ptr}
    (h : Turn k₀ k l) (hcurr : k₁.currThread = k.currThread)
    (hidle : k₁.idleThread = k.idleThread) (hne : n ≠ k.currThread)
    (hprev : k₁.threads k.currThread = some prev)
    (hothers : ∀ u, u ≠ n → k₁.threads u = k.threads u)
    (hsched : Sched (fun _ => False) k₀ (k₁.switched n prev thn) l')
    (horder : n ≠ k.idleThread → ∃ m, l' = m ++ [n]) :
    Turn k₀ (k₁.switched n prev thn) l' ∧ CurrRuns (k₁.switched n prev thn) := by
  have hself : (k₁.switched n prev thn).threads n = some { thn with state := .running } :=
    switched_threads_self
  have hcurr' : (k₁.switched n prev thn).currThread = n := rfl
  have hidle' : (k₁.switched n prev thn).idleThread = k.idleThread := by
    rw [← hidle]
    unfold Kernel.switched Kernel.yielded
    split_ifs <;> rfl
  have hprevk : k.threads k.currThread = some prev := by
    rw [← hothers _ (Ne.symm hne)]
    exact hprev
  refine ⟨⟨hsched, ?_, ?_, ?_⟩, { thn with state := .running }, hself, rfl⟩
  · intro t th ht hrun
    rw [hcurr']
    by_contra htn
    rw [switched_threads_ne htn, hcurr] at ht
    split_ifs at ht with hc
    · rw [some.injEq] at ht
      rw [← ht] at hrun
      simp at hrun
    · rw [hothers t htn] at ht
      have htc := h.only ht hrun
      rw [htc, hprevk, some.injEq] at ht
      exact hc ⟨htc, by rw [ht]; exact hrun⟩
  · intro hni
    rw [hcurr', hidle'] at hni ⊢
    refine ⟨?_, ?_⟩
    · rw [switched_threads_ne (Ne.symm hni), hcurr, hothers _ (Ne.symm hni)]
      by_cases hci : k.currThread = k.idleThread
      · obtain ⟨thi, hthi, hruni⟩ := h.idleRuns hci
        rw [hci, hthi, some.injEq] at hprevk
        rw [if_pos ⟨hci.symm, hprevk ▸ hruni⟩]
        exact ⟨_, rfl, rfl⟩
      · rw [if_neg fun hc => hci hc.1.symm]
        exact (h.ahead hci).1
    · obtain ⟨m, rfl⟩ := horder hni
      have hmem : k.idleThread ∈ m ++ [n] := by
        obtain ⟨thi, hthi, -, hai⟩ := hsched.wf.idle
        rw [hidle'] at hthi
        exact (hsched.member _).mpr ⟨id, thi, hthi, hai.ne_dead⟩
      have hmem' : k.idleThread ∈ m := by
        rcases mem_append.mp hmem with hm | hm
        · exact hm
        · exact absurd (mem_singleton.mp hm).symm hni
      exact split_last hsched.queue.ring.nodup hmem'
  · intro hni
    rw [hcurr', hidle'] at hni
    rw [hidle', ← hni]
    exact ⟨_, hself, rfl⟩

/-- `schedule()` returns, the current thread runs, and it is the same as before only when the
idle thread was running. -/
lemma schedule (h : Turn k₀ k l) : ∃ k' l', k.schedule = some k' ∧ Turn k₀ k' l' ∧ CurrRuns k' ∧
    (k'.currThread = k.currThread → CurrRuns k) := by
  have hl : l ≠ [] := fun hl => by simpa [hl] using h.mem_idle
  obtain ⟨prev, hprev⟩ := h.sched.curr
  rcases runqueueNext_queue h.sched.queue hl with
    ⟨pre, c, post, th, hsplit, hpre, ht, hr, heq⟩ | ⟨hnone, heq⟩
  · have hne := h.picked_ne_curr hsplit hpre ht hr
    have hothers : ∀ u, u ≠ c → (k.picked c th).threads u = k.threads u := by
      intro u hu
      simp [Kernel.picked, hu]
    have hprev' : (k.picked c th).threads k.currThread = some prev := by
      rw [hothers _ (Ne.symm hne), hprev]
    have hself : (k.picked c th).threads c = some (th.expire k.lapicTimerTicks) := by
      simp [Kernel.picked]
    have hs : k.schedule = some ((k.picked c th).switched c prev (th.expire k.lapicTimerTicks)) := by
      rw [Kernel.schedule, heq]
      simp only [bind, bind_some]
      rw [if_neg (by exact hne), switchTo_eq hprev' hself hne]
    have hq : (k.picked c th).Queue (post ++ pre ++ [c]) := (hsplit ▸ h.sched.queue).picked ht
    have hsched := h.sched.schedule_to hs (hq.switched hprev' hself hne) (by
      intro u
      rw [hsplit]
      simp only [mem_append, mem_cons, not_mem_nil, or_false]
      tauto)
    have hcurr : (k.picked c th).currThread = k.currThread := rfl
    obtain ⟨hturn, hruns⟩ := h.switched hcurr rfl hne hprev' hothers hsched
      fun _ => ⟨post ++ pre, rfl⟩
    exact ⟨_, _, hs, hturn, hruns, fun hc => absurd hc hne⟩
  · by_cases hci : k.currThread = k.idleThread
    · have hs : k.schedule = some k := by
        rw [Kernel.schedule, heq]
        simp [hci]
      obtain ⟨th, ht, hr⟩ := h.idleRuns hci
      have hruns : CurrRuns k := ⟨th, by rw [hci]; exact ht, hr⟩
      exact ⟨k, l, hs, h, hruns, fun _ => hruns⟩
    · obtain ⟨⟨thi, hthi, hready⟩, -⟩ := h.ahead hci
      exact absurd (runnable_ready hthi hready) (hnone _ h.mem_idle)

/-! ## What comes before it -/

/-- A change that wakes, relinks or ends threads but starts none, with the idle thread left as
it was. -/
lemma frame {T : Ptr → Thread → Thread → Prop} {l' : List Ptr} (h : Turn k₀ k l)
    (hf : Frame T k k') (hsched : Sched (fun _ => False) k₀ k' l')
    (hrun : ∀ t a b, T t a b → b.state = .running → a.state = .running)
    (hidle : ∀ a b, k.threads k.idleThread = some a → T k.idleThread a b → a.Awake →
      b.state = a.state)
    (horder : ∀ l₁ l₂, l = l₁ ++ k.idleThread :: l₂ → k.currThread ∉ l₁ →
      ∃ m₁ m₂, l' = m₁ ++ k.idleThread :: m₂ ∧ k.currThread ∉ m₁) : Turn k₀ k' l' := by
  refine ⟨hsched, ?_, ?_, ?_⟩
  · intro t th' ht' hr
    obtain ⟨th, ht, hab⟩ := hf.thread_back ht'
    rw [hf.curr]
    exact h.only ht (hrun _ _ _ hab hr)
  · intro hci
    rw [hf.curr, hf.idle] at hci ⊢
    obtain ⟨⟨thi, hthi, hready⟩, l₁, l₂, hl, hnot⟩ := h.ahead hci
    obtain ⟨thi', hthi', hab⟩ := hf.thread hthi
    exact ⟨⟨thi', hthi', by rw [hidle _ _ hthi hab (.inl hready)]; exact hready⟩,
      horder l₁ l₂ hl hnot⟩
  · intro hci
    rw [hf.curr, hf.idle] at hci
    obtain ⟨thi, hthi, hruns⟩ := h.idleRuns hci
    obtain ⟨thi', hthi', hab⟩ := hf.thread hthi
    rw [hf.idle]
    exact ⟨thi', hthi', by rw [hidle _ _ hthi hab (.inr hruns)]; exact hruns⟩

lemma wakes (h : Turn k₀ k l) (hw : Wakes anyWake k k') : Turn k₀ k' l := by
  refine h.frame hw.toFrame (h.sched.wakes hw) ?_ ?_ ?_
  · intro t a b hab hr
    exact (Thread.Woken.running_iff hab).mp hr
  · rintro a b - hab (hr | hr)
    · rw [hr, Thread.Woken.ready hab hr]
    · rw [hr, (Thread.Woken.running_iff hab).mpr hr]
  · exact fun l₁ l₂ hl hnot => ⟨l₁, l₂, hl, hnot⟩

/-- The current thread, of some process, rewritten without becoming a running thread. -/
lemma setCurrent (h : Turn k₀ k l) {th' : Thread} (ht : k.threads k.currThread = some th)
    (hproc : th.process ≠ none) (hd : th.state ≠ .dead) (hnext : th'.next = th.next)
    (hp : th'.process = th.process) (hst : th'.kernelStack = th.kernelStack)
    (hd' : th'.state ≠ .dead) (hrun : th'.state = .running → th.state = .running) :
    Turn k₀ (k.setThread k.currThread th') l := by
  have hci := h.sched.wf.ne_idle ht hproc
  have hsched : Sched (fun _ => False) k₀ (k.setThread k.currThread th') l :=
    h.sched.setThread ht hnext hp hst (by simp [hd, hd']) fun hi => absurd hi hci
  have hf : Frame (fun u a b => b = a ∨ u = k.currThread ∧ a = th ∧ b = th') k
      (k.setThread k.currThread th') :=
    .setThread (fun _ _ => .inl rfl) ht (.inr ⟨rfl, rfl, rfl⟩)
  refine h.frame hf hsched ?_ ?_ fun l₁ l₂ hl hnot => ⟨l₁, l₂, hl, hnot⟩
  · rintro u a b (rfl | ⟨-, rfl, rfl⟩) hr
    · exact hr
    · exact hrun hr
  · rintro a b - (rfl | ⟨hi, -, -⟩) -
    · rfl
    · exact absurd hi.symm hci

lemma retire {k₁ : Kernel} (h : Turn k₀ k l) (hti : t ≠ k.idleThread)
    (hrem : k.runqueueRemove t = some k₁) (hdead : k₁.markDead t = some k') :
    Turn k₀ k' (l.erase t) := by
  refine h.frame (retire_frame hrem hdead) (h.sched.retire hti hrem hdead) ?_ ?_ ?_
  · rintro u a b (hab | ⟨-, hab⟩) hr
    · unfold relink at hab
      rw [hab] at hr
      exact hr
    · unfold relink at hab
      rw [hab] at hr
      simp at hr
  · rintro a b - (hab | ⟨hi, -⟩) -
    · unfold relink at hab
      rw [hab]
    · exact absurd hi.symm hti
  · intro l₁ l₂ hl hnot
    by_cases htl : t ∈ l₁
    · refine ⟨l₁.erase t, l₂, ?_, fun hc => hnot (mem_of_mem_erase hc)⟩
      rw [hl, erase_append_left _ htl]
    · refine ⟨l₁, l₂.erase t, ?_, hnot⟩
      rw [hl, erase_append_right _ htl, erase_cons_tail]
      simpa using Ne.symm hti

lemma procCreate (h : Turn k₀ k l) {entry pid : ℕ} (hc : k.procCreate entry = some (k', pid)) :
    ∃ l', Turn k₀ k' l' := by
  obtain ⟨l', hsched, hl'⟩ := h.sched.procCreate hc
  refine ⟨l', ?_⟩
  rcases procCreate_frame hc with rfl | ⟨v, brk, fds, hbrk, hf⟩
  · refine ⟨hsched, h.only, fun hci => ⟨(h.ahead hci).1, ?_⟩, h.idleRuns⟩
    obtain ⟨-, l₁, l₂, hl, hnot⟩ := h.ahead hci
    rcases hl' with rfl | rfl
    · exact ⟨l₁, l₂, hl, hnot⟩
    · exact ⟨l₁, l₂ ++ [k'.brk + 1], by simp [hl], hnot⟩
  · obtain ⟨hcurr, hidle, hold⟩ := procCreate_old h.sched.wf hc
    have hstate : ∀ {u th}, k.threads u = some th →
        ∃ th', k'.threads u = some th' ∧ th'.state = th.state := by
      intro u th hu
      obtain ⟨th', hu', hab⟩ := hold hu
      unfold relink at hab
      exact ⟨th', hu', by rw [hab]⟩
    refine ⟨hsched, ?_, ?_, ?_⟩
    · intro u th' hu' hr
      obtain ⟨th, hu, hab⟩ := hf.thread_back hu'
      unfold relink at hab
      rw [hab] at hr
      rw [created_threads] at hu
      by_cases hun : u = k.brk + 1
      · rw [hun, Function.update_self, some.injEq] at hu
        rw [← hu] at hr
        simp at hr
      · rw [Function.update_of_ne hun] at hu
        rw [hcurr]
        exact h.only hu hr
    · intro hci
      rw [hcurr, hidle] at hci ⊢
      obtain ⟨⟨thi, hthi, hready⟩, l₁, l₂, hl, hnot⟩ := h.ahead hci
      obtain ⟨thi', hthi', hst⟩ := hstate hthi
      refine ⟨⟨thi', hthi', hst.trans hready⟩, ?_⟩
      rcases hl' with rfl | rfl
      · exact ⟨l₁, l₂, hl, hnot⟩
      · exact ⟨l₁, l₂ ++ [k.brk + 1], by simp [hl], hnot⟩
    · intro hci
      rw [hcurr, hidle] at hci
      obtain ⟨thi, hthi, hruns⟩ := h.idleRuns hci
      obtain ⟨thi', hthi', hst⟩ := hstate hthi
      rw [hidle]
      exact ⟨thi', hthi', hst.trans hruns⟩

lemma reaped {k₁ : Kernel} {rest : List Ptr} (h : Turn k₀ k l) (ha : CurrAlive k)
    (hr : Reaped k k₁) (hwf : Wf rest k₁) : Turn k₀ (k₁.setProcList rest) l := by
  have hcurr : (k₁.setProcList rest).currThread = k.currThread := by
    rw [hr.rest]
    rfl
  have hidle : (k₁.setProcList rest).idleThread = k.idleThread := by
    rw [hr.rest]
    rfl
  refine ⟨h.sched.reaped ha hr hwf, ?_, ?_, ?_⟩
  · intro t th ht hrun
    rw [hcurr]
    exact h.only (hr.sub ht) hrun
  · intro hci
    rw [hcurr, hidle] at hci ⊢
    obtain ⟨⟨thi, hthi, hready⟩, hsplit⟩ := h.ahead hci
    exact ⟨⟨thi, hr.keep hthi (by simp [hready]), hready⟩, hsplit⟩
  · intro hci
    rw [hcurr, hidle] at hci
    obtain ⟨thi, hthi, hruns⟩ := h.idleRuns hci
    rw [hidle]
    exact ⟨thi, hr.keep hthi (by simp [hruns]), hruns⟩

end Turn

/-- What holds between the steps. -/
structure Turning (k₀ k : Kernel) : Prop where
  turn : ∃ l, Turn k₀ k l
  runs : CurrRuns k

namespace Turning

variable {k₀ k k' : Kernel} {th : Thread}

lemma alive (h : Turning k₀ k) : CurrAlive k := by
  obtain ⟨th, ht, hr⟩ := h.runs
  exact ⟨th, ht, by simp [hr]⟩

lemma of_schedule (h : ∃ l, Turn k₀ k l) (hs : k.schedule = some k') : Turning k₀ k' := by
  obtain ⟨l, ht⟩ := h
  obtain ⟨k₁, l₁, hs₁, ht₁, hr₁, -⟩ := ht.schedule
  obtain rfl := mem_unique hs hs₁
  exact ⟨⟨l₁, ht₁⟩, hr₁⟩

lemma wf (h : Turning k₀ k) : Wf k.procList k := by
  obtain ⟨l, ht⟩ := h.turn
  exact ht.sched.wf

lemma state (h : Turning k₀ k) (ht : k.threads k.currThread = some th) : th.state = .running := by
  obtain ⟨th', ht', hr⟩ := h.runs
  exact mem_unique ht' ht ▸ hr

/-- The current thread comes back from a blocking call. -/
lemma toUser (h : Turning k₀ k) (ht : k.threads k.currThread = some th)
    (hproc : th.process ≠ none) : Turning k₀ (k.setThread k.currThread th.toUser) := by
  obtain ⟨l, hturn⟩ := h.turn
  have hr := h.state ht
  exact ⟨⟨l, hturn.setCurrent ht hproc (by simp [hr]) rfl rfl rfl (by simp [hr]) id⟩,
    th.toUser, by simp, hr⟩

lemma wakes (h : Turning k₀ k) (hw : Wakes anyWake k k') : Turning k₀ k' := by
  obtain ⟨l, ht⟩ := h.turn
  obtain ⟨th, hth, hr⟩ := h.runs
  obtain ⟨th', hth', hab⟩ := hw.thread hth
  exact ⟨⟨l, ht.wakes hw⟩, th', by rw [hw.curr]; exact hth', (Thread.Woken.running_iff hab).mpr hr⟩

/-- All through an entry the order is kept, and the current thread runs while it goes on. -/
lemma passes (h : Turning k₀ k) {op : Op} {ph : Kernel.Phase}
    (hop : op ≠ .bareNext ∧ ∀ t, op ≠ .bareRemove t) (hp : k.Passes op ph k') :
    (∃ l, Turn k₀ k' l) ∧ (ph = .going → CurrRuns k') := by
  obtain ⟨l, ht⟩ := h.turn
  have hretire : ∀ {t k₁}, k.Dies op t k₁ → ∃ l, Turn k₀ k₁ l := by
    intro t k₁ hd
    obtain ⟨k₂, k₃, k₄, hw, hne, hrem, hdead, hw'⟩ := (hd.retires h.wf).parts
    exact ⟨_, ((ht.wakes hw).retire hne hrem hdead).wakes hw'⟩
  induction hp with
  | start => exact ⟨h.turn, fun _ => h.runs⟩
  | woke hw =>
    have h₁ := h.wakes hw.wakes
    exact ⟨h₁.turn, fun _ => h₁.runs⟩
  | ticked b =>
    have hs : Sched (fun _ => False) k₀ { k.ticked with procNeedsCleanup := b } l :=
      { ht.sched with
        wf := { ht.sched.wf with }
        queue := { ht.sched.queue with }
        since := ht.sched.since.congr rfl rfl }
    exact ⟨⟨l, hs, ht.only, ht.ahead, ht.idleRuns⟩, fun _ => h.runs⟩
  | reaped _ hr hwf _ ih =>
    obtain ⟨⟨l₁, ht₁⟩, hruns⟩ := ih
    obtain ⟨th, hth, hr₁⟩ := hruns rfl
    have hd : th.state ≠ .dead := by simp [hr₁]
    refine ⟨⟨l₁, ht₁.reaped ⟨th, hth, hd⟩ hr hwf⟩, fun _ => ⟨th, ?_, hr₁⟩⟩
    rw [hr.rest]
    exact hr.keep hth hd
  | created _ _ hc ih =>
    obtain ⟨⟨l₁, ht₁⟩, hruns⟩ := ih
    obtain ⟨th, hth, hr⟩ := hruns rfl
    obtain ⟨hcurr, -, hold⟩ := procCreate_old ht₁.sched.wf hc
    obtain ⟨th', hth', hab⟩ := hold hth
    unfold relink at hab
    exact ⟨ht₁.procCreate hc, fun _ => ⟨th', by rw [hcurr]; exact hth', by rw [hab]; exact hr⟩⟩
  | asked _ ih => exact ⟨ih.1, nofun⟩
  | blocked hth hproc hb =>
    obtain ⟨hnext, hp, hst, hstate⟩ := hb.keeps
    exact ⟨⟨l, ht.setCurrent hth hproc (by simp [h.state hth]) hnext hp hst (by simp [hstate])
      (by simp [hstate])⟩, nofun⟩
  | scheduled _ hs ih | left _ hs _ ih =>
    have h₁ := of_schedule ih.1 hs
    exact ⟨h₁.turn, fun _ => h₁.runs⟩
  | died hd => exact ⟨hretire hd, nofun⟩
  | spared hd hne =>
    have hf := (hd.retires h.wf).frame
    obtain ⟨th, hth, hr⟩ := h.runs
    obtain ⟨th', hth', hab⟩ := hf.thread hth
    refine ⟨hretire hd, fun _ => ⟨th', by rw [hf.curr]; exact hth', ?_⟩⟩
    rw [hab.awake (fun heq => hne (heq ▸ hf.curr.symm)) (.inr hr)]
    exact hr
  | @received _ _ _ _ k₁ _ th _ hdeq hth hproc hsame hcurr =>
    have hw := (wakes_dequeue hdeq).quiet
    have hth₁ : k₁.threads k₁.currThread = some th := by rw [hsame, hcurr, hth]
    have h₁ := (h.wakes hw).toUser hth₁ hproc
    rw [hcurr] at h₁
    exact ⟨h₁.turn, fun _ => h₁.runs⟩
  | returned _ hth hproc =>
    have h₁ := h.toUser hth hproc
    exact ⟨h₁.turn, fun _ => h₁.runs⟩
  | bareNext hop' => exact absurd hop' hop.1
  | bareRemove hop' => exact absurd hop' (hop.2 _)

lemma step (h : Turning k₀ k) {op : Op} (hok : schedulingStep k op) (hs : k.step op = some k') :
    Turning k₀ k' := by
  have hop : op ≠ .bareNext ∧ ∀ t, op ≠ .bareRemove t := by
    refine ⟨?_, ?_⟩
    · rintro rfl
      rcases hok with hok | ⟨pid, hok⟩ <;> simp [Op.bare] at hok
    · rintro t rfl
      rcases hok with hok | ⟨pid, hok⟩ <;> simp [Op.bare] at hok
  obtain ⟨hturn, hruns⟩ := h.passes hop (step_passes h.wf hs)
  exact ⟨hturn, hruns rfl⟩

end Turning

/-! ## Where `schedule()` is called -/

namespace Kernel

variable {k k' : Kernel}

lemma receiveBlocks_eq_some {p : Ptr} {len : ℕ} (h : k.receiveBlocks p len = some k') :
    ∃ th, k.threads k.currThread = some th ∧
      k' = k.setThread k.currThread (th.blockOnPort p len) := by
  simp only [receiveBlocks, bind, bind_eq_some_iff] at h
  obtain ⟨port, -, h⟩ := h
  split_ifs at h
  exact modThread_eq_some h

lemma atSchedule_passes (hwf : Wf k.procList k) {op : Op} (h : k.atSchedule op = some k') :
    ∃ ph, k.Passes op ph k' := by
  cases op with
  | timer =>
    simp only [atSchedule, bind, bind_eq_some_iff] at h
    obtain ⟨k₁, hk₁, h⟩ := h
    split_ifs at h
    obtain rfl := some.inj h
    exact ⟨_, .timerTick hwf hk₁⟩
  | schedule =>
    simp only [atSchedule, some.injEq] at h
    subst h
    exact ⟨_, .start⟩
  | waitPid pid =>
    obtain ⟨⟨th, proc, ht, hp, hcall⟩, h⟩ := asUser_eq_some h
    simp only [bind, bind_eq_some_iff] at h
    obtain ⟨found, hfound, h⟩ := h
    cases found with
    | none => simp at h
    | some target =>
      simp only [blockOnPid, bind, bind_eq_some_iff] at h
      obtain ⟨pr, hpr, h⟩ := h
      obtain ⟨th₁, ht₁, rfl⟩ := modThread_eq_some h
      obtain rfl := mem_unique ht ht₁
      obtain ⟨-, pr', hpr', hpid⟩ := procFind_eq_some hfound
      obtain rfl := mem_unique hpr hpr'
      rw [hpid]
      exact ⟨_, .blocked ht (by simp [hp]) (.waitPid hcall hfound hpr hpid)⟩
  | sleep ms =>
    obtain ⟨⟨th, proc, ht, hp, hcall⟩, h⟩ := asUser_eq_some h
    obtain ⟨th₁, ht₁, rfl⟩ := modThread_eq_some h
    obtain rfl := mem_unique ht ht₁
    exact ⟨_, .blocked ht (by simp [hp]) (.sleep hcall)⟩
  | exit =>
    obtain ⟨⟨th, proc, ht, hp, -⟩, h⟩ := asUser_eq_some h
    exact ⟨_, .died (.exit ht hp h)⟩
  | kill pid =>
    obtain ⟨-, h⟩ := asUser_eq_some h
    simp only [bind, bind_eq_some_iff] at h
    obtain ⟨found, hfound, h⟩ := h
    cases found with
    | none => simp at h
    | some proc =>
      simp only [bind_eq_some_iff] at h
      obtain ⟨⟨k₂, t⟩, hk₂, h⟩ := h
      split_ifs at h
      obtain rfl := some.inj h
      exact ⟨_, .died (.kill hfound hk₂)⟩
  | exception =>
    obtain ⟨⟨th, proc, ht, hp, -⟩, h⟩ := asUser_eq_some h
    simp only [faultBody, bind, bind_eq_some_iff] at h
    obtain ⟨k₁, h₁, h₂⟩ := h
    rw [(runqueueRemove_frame h₁).curr] at h₂
    exact ⟨_, .died (.exception ht hp h₁ h₂)⟩
  | portReceive token len =>
    obtain ⟨⟨th, proc, ht, hp, hcall⟩, h⟩ := asUser_eq_some h
    simp only [bind, bind_eq_some_iff, currProc, ht, bind_some] at h
    obtain ⟨proc', hproc, pr, hpr, slot, hslot, h⟩ := h
    obtain rfl := mem_unique hp hproc
    cases slot with
    | none => simp at h
    | some iq =>
      simp only [bind_eq_some_iff] at h
      obtain ⟨found, hfound, h⟩ := h
      cases found with
      | none => simp at h
      | some p =>
        obtain ⟨th₁, ht₁, rfl⟩ := receiveBlocks_eq_some h
        obtain rfl := mem_unique ht ht₁
        exact ⟨_, .blocked ht (by simp [hp])
          (.receive hp (.inl hcall) (.called hpr hslot hfound))⟩
  | resume =>
    simp only [atSchedule, bind, bind_eq_some_iff, currProc] at h
    obtain ⟨proc, ⟨th, ht, hp⟩, th', ht', h⟩ := h
    obtain rfl := mem_unique ht ht'
    cases hcall : th.call with
    | receive p len =>
      simp only [hcall] at h
      obtain ⟨th₁, ht₁, rfl⟩ := receiveBlocks_eq_some h
      obtain rfl := mem_unique ht ht₁
      exact ⟨_, .blocked ht (by simp [hp])
        (.receive hp (.inr ⟨_, _, hcall⟩) (.resumed ht hcall))⟩
    | user | waitPid _ | sleep _ _ => simp [hcall] at h
  | _ => simp [atSchedule] at h

end Kernel

/-! ## Whole runs -/

lemma turning_start {initEntry : Option ℕ} {k : Kernel} (h : start initEntry = some k) :
    Turning k k := by
  obtain ⟨l, hs⟩ := (good_start h).sched
  rw [start_eq, some.injEq] at h
  have hidle : k.threads 1 = some firstThread := by rw [← h]; simp [started]
  have hcurr : k.currThread = 1 := by rw [← h]; rfl
  have hidle' : k.idleThread = 1 := by rw [← h]; rfl
  refine ⟨⟨l, hs, ?_, fun hne => absurd (hcurr.trans hidle'.symm) hne, ?_⟩, ?_⟩
  · intro t th ht _
    rw [hcurr]
    by_contra htn
    rw [← h, started] at ht
    simp [htn] at ht
  · intro _
    rw [hidle']
    exact ⟨_, hidle, rfl⟩
  · rw [CurrRuns, hcurr]
    exact ⟨_, hidle, rfl⟩

/-- In every state reached from `thread_init` by entries into the kernel and by
`thread_wake_pid`, exactly one thread is running and it is the current one; and wherever an
entry calls `schedule()`, the call finds a thread to run, so that it comes back without a
switch only to a thread that was running. -/
theorem exactly_one_running {initEntry : Option ℕ} {k₀ k : Kernel} {ls : List Op}
    (h₀ : start initEntry = some k₀) (hrun : Run Kernel.step schedulingStep k₀ ls k) :
    (∀ t, k.stateOf t = some .running ↔ t = k.currThread) ∧
      ∀ op k₁, k.atSchedule op = some k₁ → ∃ k₂, k₁.schedule = some k₂ ∧
        k₂.stateOf k₂.currThread = some .running ∧
        (k₂.currThread = k₁.currThread → k₁.stateOf k₁.currThread = some .running) := by
  have hturning : Turning k₀ k := by
    refine hrun.invariant (turning_start h₀) ?_
    intro s op s' hs hok hstep
    exact hs.step hok hstep
  have hstate : ∀ k₁, CurrRuns k₁ → k₁.stateOf k₁.currThread = some .running := by
    rintro k₁ ⟨th, ht, hr⟩
    rw [Kernel.stateOf, ht, map_some, hr]
  refine ⟨?_, ?_⟩
  · intro t
    constructor
    · intro ht
      obtain ⟨l, hturn⟩ := hturning.turn
      obtain ⟨th, hth, hr⟩ := map_eq_some_iff.mp ht
      exact hturn.only hth hr
    · rintro rfl
      exact hstate k hturning.runs
  · intro op k₁ hk₁
    obtain ⟨ph, hp⟩ := atSchedule_passes hturning.wf hk₁
    have hop : op ≠ .bareNext ∧ ∀ t, op ≠ .bareRemove t := by
      constructor
      · rintro rfl
        simp [Kernel.atSchedule] at hk₁
      · rintro t rfl
        simp [Kernel.atSchedule] at hk₁
    obtain ⟨⟨l, hturn⟩, -⟩ := hturning.passes hop hp
    obtain ⟨k₂, l₂, hs, -, hruns, hsame⟩ := hturn.schedule
    exact ⟨k₂, hs, hstate k₂ hruns, fun hc => hstate k₁ (hsame hc)⟩

/-- A run in which `init` starts a process, waits for it and is woken by its exit. -/
theorem exactly_one_running_after_wait : ∃ k₀ k, start (some 7) = some k₀ ∧
    Run Kernel.step schedulingStep k₀
      [.kidle, .timer, .spawn 9, .waitPid 1, .timer, .exit, .timer] k ∧
    k.currThread ≠ k.idleThread ∧ ∀ t, k.stateOf t = some .running ↔ t = k.currThread := by
  obtain ⟨k, hrun, hP⟩ : ∃ k, Run Kernel.step schedulingStep (started (some 7))
      [.kidle, .timer, .spawn 9, .waitPid 1, .timer, .exit, .timer] k ∧
      decide (k.currThread ≠ k.idleThread) = true :=
    Run.exists_of_exec (fun _ op => !op.bare) (fun _ op h => .inl (by simpa using h)) _
      (by decide +kernel) (by decide +kernel)
  exact ⟨_, k, start_eq (some 7), hrun, by simpa using hP,
    (exactly_one_running (start_eq (some 7)) hrun).1⟩

end CobjOs
