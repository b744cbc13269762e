import CobjOs.Kernel.Steps

/-!
# The scheduler's invariant

`Sched R k₀ k l`: the process table is well formed, the run queue is the ring `l`, and the threads
on it are exactly those that are allocated and not dead, except the threads of `R`, which somebody
took out of the queue while they were alive.  In the kernel's own use of the queue `R` is empty.

There is one lemma for each thing an entry can do to threads, and that an entry keeps the invariant
is an induction over what it passes through.
-/

namespace CobjOs

variable {k k' : Kernel} {t u : Ptr}

open Function Kernel Option

/-- Between `k` and `k'` no dead thread came back to life and no thread block was reused. -/
structure DeadStays (k k' : Kernel) : Prop where
  brk : k.brk ≤ k'.brk
  gone : ∀ {t}, t < k.brk → k.threads t = none → k'.threads t = none
  dead : ∀ {t th}, k.threads t = some th → th.state = .dead →
    t < k'.brk ∧ k'.threads t = none ∨ ∃ th', k'.threads t = some th' ∧ th'.state = .dead

namespace DeadStays

variable {k k' k'' : Kernel} {T : Ptr → Thread → Thread → Prop}

lemma refl (k : Kernel) : DeadStays k k := ⟨le_refl _, fun _ h => h, fun h hd => .inr ⟨_, h, hd⟩⟩

lemma trans (h : DeadStays k k') (h' : DeadStays k' k'') : DeadStays k k'' where
  brk := h.brk.trans h'.brk
  gone ht hn := h'.gone (lt_of_lt_of_le ht h.brk) (h.gone ht hn)
  dead ht hd := by
    rcases h.dead ht hd with ⟨hlt, hn⟩ | ⟨th', ht', hd'⟩
    · exact .inl ⟨lt_of_lt_of_le hlt h'.brk, h'.gone hlt hn⟩
    · exact h'.dead ht' hd'

lemma frame (hf : Frame T k k') (hT : ∀ t a b, T t a b → a.state = .dead → b.state = .dead) :
    DeadStays k k' where
  brk := hf.brk
  gone _ hn := hf.absent hn
  dead ht hd := by
    obtain ⟨th', ht', hab⟩ := hf.thread ht
    exact .inr ⟨th', ht', hT _ _ _ hab hd⟩

/-- Only the thread blocks and the free pointer matter. -/
lemma congr (h : DeadStays k k') (hth : k''.threads = k'.threads) (hbrk : k''.brk = k'.brk) :
    DeadStays k k'' where
  brk := by rw [hbrk]; exact h.brk
  gone := by rw [hth]; exact h.gone
  dead := by rw [hth, hbrk]; exact h.dead

lemma created {v : Vfs} {brk : Ptr} {fds : ℕ → Option Ptr} (hbrk : k.brk ≤ brk) {L : List Ptr}
    (hwf : Wf L k) : DeadStays k (k.created v brk fds) where
  brk := hbrk
  gone {t} ht hn := by
    have hne : t ≠ k.brk + 1 := Nat.ne_of_lt (Nat.lt_succ_of_lt ht)
    simp [hne, hn]
  dead {t th} ht hd := by
    have hne : t ≠ k.brk + 1 := Nat.ne_of_lt (Nat.lt_succ_of_lt (hwf.thread_lt ht))
    exact .inr ⟨th, by simp [hne, ht], hd⟩

lemma reaped {L : List Ptr} (hwf : Wf L k) (hr : Reaped k k') : DeadStays k k' where
  brk := by rw [hr.rest]
  gone {t} _ hn := by
    cases ht : k'.threads t with
    | none => rfl
    | some th => rw [hr.sub ht] at hn; simp at hn
  dead {t th} ht hd := by
    cases ht' : k'.threads t with
    | none =>
      have hbrk : k'.brk = k.brk := by rw [hr.rest]
      exact .inl ⟨by rw [hbrk]; exact hwf.thread_lt ht, rfl⟩
    | some th' =>
      rw [hr.sub ht', some.injEq] at ht
      exact .inr ⟨th', rfl, by rw [ht]; exact hd⟩

end DeadStays

/-- The process table, the run queue and the thread states fit together. -/
structure Sched (R : Ptr → Prop) (k₀ k : Kernel) (l : List Ptr) : Prop where
  wf : Wf k.procList k
  queue : k.Queue l
  member : ∀ t, t ∈ l ↔ ¬R t ∧ ∃ th, k.threads t = some th ∧ th.state ≠ .dead
  removed_lt : ∀ t, R t → t < k.brk
  curr : ∃ th, k.threads k.currThread = some th
  since : DeadStays k₀ k

/-- The current thread is not dead. -/
def CurrAlive (k : Kernel) : Prop := ∃ th, k.threads k.currThread = some th ∧ th.state ≠ .dead

lemma Frame.alive_iff {T : Ptr → Thread → Thread → Prop} (hf : Frame T k k')
    (hT : ∀ t a b, T t a b → (b.state = .dead ↔ a.state = .dead)) :
    (∃ th, k'.threads t = some th ∧ th.state ≠ .dead) ↔
      ∃ th, k.threads t = some th ∧ th.state ≠ .dead := by
  constructor
  · rintro ⟨th', ht', hd⟩
    obtain ⟨th, ht, hab⟩ := hf.thread_back ht'
    exact ⟨th, ht, fun hd' => hd ((hT _ _ _ hab).mpr hd')⟩
  · rintro ⟨th, ht, hd⟩
    obtain ⟨th', ht', hab⟩ := hf.thread ht
    exact ⟨th', ht', fun hd' => hd ((hT _ _ _ hab).mp hd')⟩

lemma relink_dead (t : Ptr) (a b : Thread) (h : relink t a b) :
    b.state = .dead ↔ a.state = .dead := by
  unfold relink at h
  rw [h]

/-- The thread `t` died, the others were relinked at most. -/
def retired (t u : Ptr) (a b : Thread) : Prop :=
  relink u a b ∨ u = t ∧ relink u { a with state := .dead } b

lemma Kernel.retire_frame {k₁ : Kernel} (hrem : k.runqueueRemove t = some k₁)
    (hdead : k₁.markDead t = some k') : Frame (retired t) k k' := by
  obtain ⟨th₁, ht₁, rfl⟩ := modThread_eq_some hdead
  have hmark : Frame (fun u a b => b = a ∨ u = t ∧ b = { a with state := .dead }) k₁
      (k₁.setThread t { th₁ with state := .dead }) :=
    .setThread (fun _ _ => .inl rfl) ht₁ (.inr ⟨rfl, rfl⟩)
  refine (runqueueRemove_frame hrem).comp hmark ?_
  rintro u a b c hab (rfl | ⟨rfl, rfl⟩)
  · exact .inl hab
  · refine .inr ⟨rfl, ?_⟩
    unfold relink at hab ⊢
    rw [hab]

/-- What the end of the thread `t` leaves of the thread `u`. -/
structure Ended (t u : Ptr) (a b : Thread) : Prop where
  process : b.process = a.process
  kernelStack : b.kernelStack = a.kernelStack
  call : b.call = a.call
  dead : a.state = .dead → b.state = .dead
  alive : b.state = .dead → u = t ∨ a.state = .dead
  blocked : b.state = .blocked → a.state = .blocked
  awake : u ≠ t → a.Awake → b.state = a.state

lemma Ended.of_woken {a b : Thread} (h : a.Woken b) : Ended t u a b where
  process := h.process
  kernelStack := h.kernelStack
  call := h.call
  dead := h.dead_iff.mpr
  alive hd := .inr (h.dead_iff.mp hd)
  blocked hb := h.eq_of_blocked hb ▸ hb
  awake _ ha := by
    rcases ha with ha | ha
    · rw [ha, h.ready ha]
    · rw [ha, h.running_iff.mpr ha]

lemma Ended.of_retired {a b : Thread} (h : retired t u a b) : Ended t u a b := by
  rcases h with h | ⟨rfl, h⟩
  · rw [h]
    exact ⟨rfl, rfl, rfl, id, .inr, id, fun _ _ => rfl⟩
  · rw [h]
    exact ⟨rfl, rfl, rfl, fun _ => rfl, fun _ => .inl rfl, nofun, fun hne => absurd rfl hne⟩

lemma Ended.trans {a b c : Thread} (h : Ended t u a b) (h' : Ended t u b c) :
    Ended t u a c where
  process := h'.process.trans h.process
  kernelStack := h'.kernelStack.trans h.kernelStack
  call := h'.call.trans h.call
  dead hd := h'.dead (h.dead hd)
  alive hd := (h'.alive hd).elim .inl h.alive
  blocked hb := h.blocked (h'.blocked hb)
  awake hne ha := by
    have hab := h.awake hne ha
    have hb : b.Awake := by unfold Thread.Awake at ha ⊢; rwa [hab]
    exact (h'.awake hne hb).trans hab

lemma Kernel.Retires.frame (h : k.Retires t k') :
    Frame (Ended t) k k' := by
  obtain ⟨k₁, k₂, k₃, hw₁, -, hrem, hdead, hw₂⟩ := h.parts
  have hf₁ : Frame (Ended t) k k₃ := hw₁.toFrame.comp (retire_frame hrem hdead)
    fun _ _ _ _ hab hbc => (Ended.of_woken hab).trans (.of_retired hbc)
  exact hf₁.comp hw₂.toFrame fun _ _ _ _ hab hbc => hab.trans (.of_woken hbc)

lemma Wf.retires {L : List Ptr} (h : Wf L k) (hr : k.Retires t k') :
    Wf L k' := by
  refine h.frame hr.frame ?_
  intro u a b hu hab
  refine ⟨hab.process, hab.kernelStack, ?_⟩
  rintro rfl ha
  obtain ⟨k₁, -, -, hw, hne, -⟩ := hr.parts
  rw [hw.idle] at hne
  unfold Thread.Awake at ha ⊢
  rwa [hab.awake (Ne.symm hne) ha]

/-! ## Handing over the processor -/

/-- What `schedule()` can do to a thread: an awake thread starts or stops running, and a
sleeper whose time has come wakes up. -/
def moved (ticks : ℕ) (_ : Ptr) (th th' : Thread) : Prop :=
  th' = th ∨
    (th.Awake ∧ ∃ s, (s = .ready ∨ s = .running) ∧ th' = { th with state := s }) ∨
    (th.state = .blocked ∧ 0 < th.sleepUntil ∧ th.sleepUntil ≤ ticks ∧
      ∃ s, (s = .ready ∨ s = .running) ∧ th' = { th with state := s, sleepUntil := 0 })

namespace moved

variable {ticks : ℕ} {t : Ptr} {th th' : Thread}

lemma trans (t : Ptr) (a b c : Thread) (h : moved ticks t a b) (h' : moved ticks t b c) :
    moved ticks t a c := by
  rcases h with rfl | ⟨ha, s, hs, rfl⟩ | ⟨hb, h0, hle, s, hs, rfl⟩
  · exact h'
  · rcases h' with rfl | ⟨-, s', hs', rfl⟩ | ⟨hb', -⟩
    · exact .inr (.inl ⟨ha, s, hs, rfl⟩)
    · exact .inr (.inl ⟨ha, s', hs', rfl⟩)
    · rcases hs with rfl | rfl <;> simp at hb'
  · rcases h' with rfl | ⟨-, s', hs', rfl⟩ | ⟨hb', -⟩
    · exact .inr (.inr ⟨hb, h0, hle, s, hs, rfl⟩)
    · exact .inr (.inr ⟨hb, h0, hle, s', hs', rfl⟩)
    · rcases hs with rfl | rfl <;> simp at hb'

lemma process (h : moved ticks t th th') : th'.process = th.process := by
  rcases h with rfl | ⟨-, s, -, rfl⟩ | ⟨-, -, -, s, -, rfl⟩ <;> rfl

lemma kernelStack (h : moved ticks t th th') : th'.kernelStack = th.kernelStack := by
  rcases h with rfl | ⟨-, s, -, rfl⟩ | ⟨-, -, -, s, -, rfl⟩ <;> rfl

lemma call (h : moved ticks t th th') : th'.call = th.call := by
  rcases h with rfl | ⟨-, s, -, rfl⟩ | ⟨-, -, -, s, -, rfl⟩ <;> rfl

lemma dead_iff (h : moved ticks t th th') : th'.state = .dead ↔ th.state = .dead := by
  rcases h with rfl | ⟨ha, s, hs, rfl⟩ | ⟨hb, -, -, s, hs, rfl⟩
  · rfl
  · have hne := ha.ne_dead
    rcases hs with rfl | rfl <;> simp [hne]
  · rcases hs with rfl | rfl <;> simp [hb]

lemma awake (h : moved ticks t th th') (ha : th.Awake) : th'.Awake := by
  rcases h with rfl | ⟨-, s, hs, rfl⟩ | ⟨-, -, -, s, hs, rfl⟩
  · exact ha
  · exact hs
  · exact hs

/-- A thread still blocked was not touched. -/
lemma eq_of_blocked (h : moved ticks t th th') (hb : th'.state = .blocked) : th' = th := by
  rcases h with rfl | ⟨-, s, hs, rfl⟩ | ⟨-, -, -, s, hs, rfl⟩
  · rfl
  · rcases hs with rfl | rfl <;> simp at hb
  · rcases hs with rfl | rfl <;> simp at hb

end moved

namespace Kernel

variable {k k' : Kernel} {l : List Ptr} {t n : Ptr} {th prev : Thread}

lemma moved_refl (ticks : ℕ) (t : Ptr) (th : Thread) : moved ticks t th th := .inl rfl

lemma moved_expire {ticks : ℕ} (hr : (th.expire ticks).state = .ready) :
    moved ticks t th (th.expire ticks) := by
  rcases Thread.expire_ready hr with ⟨heq, -⟩ | ⟨hb, h0, hle, heq⟩
  · exact .inl heq
  · exact .inr (.inr ⟨hb, h0, hle, .ready, .inl rfl, heq⟩)

lemma picked_frame (ht : k.threads t = some th)
    (hr : (th.expire k.lapicTimerTicks).state = .ready) :
    Frame (moved k.lapicTimerTicks) k (k.picked t th) := by
  have hf : Frame (moved k.lapicTimerTicks) k (k.setThread t (th.expire k.lapicTimerTicks)) :=
    .setThread (moved_refl _) ht (moved_expire hr)
  exact { hf with }

/-- The state in which the current thread has stopped running. -/
def yielded (k : Kernel) (prev : Thread) : Kernel :=
  if prev.state = .running then k.setThread k.currThread { prev with state := .ready } else k

/-- The state in which the processor has been handed over to `n`. -/
def switched (k : Kernel) (n : Ptr) (prev th : Thread) : Kernel :=
  ((k.yielded prev).setThread n { th with state := .running }).setCurr n

lemma yielded_threads_ne (hne : n ≠ k.currThread) :
    (k.yielded prev).threads n = k.threads n := by
  unfold yielded
  split_ifs <;> simp [hne]

lemma switchTo_eq (hprev : k.threads k.currThread = some prev) (hn : k.threads n = some th)
    (hne : n ≠ k.currThread) : k.switchTo n = some (k.switched n prev th) := by
  have hn' : (k.yielded prev).threads n = some th := by rw [yielded_threads_ne hne, hn]
  simp only [switchTo, hprev, bind, bind_some]
  exact congrArg (fun o => Option.bind o _) (modThread_eq hn' _)

lemma switchTo_cases (h : k.switchTo n = some k') (hne : n ≠ k.currThread) : ∃ prev th,
    k.threads k.currThread = some prev ∧ k.threads n = some th ∧ k' = k.switched n prev th := by
  have h' := h
  simp only [switchTo, bind, bind_eq_some_iff] at h'
  obtain ⟨prev, hprev, k₁, hk₁, -⟩ := h'
  obtain ⟨th, ht, -⟩ := modThread_eq_some hk₁
  have hn : k.threads n = some th := (yielded_threads_ne hne).symm.trans ht
  rw [switchTo_eq hprev hn hne, some.injEq] at h
  exact ⟨prev, th, hprev, hn, h.symm⟩

lemma yielded_frame (ticks : ℕ) (hprev : k.threads k.currThread = some prev) :
    Frame (moved ticks) k (k.yielded prev) := by
  unfold yielded
  split_ifs with hr
  · exact .setThread (moved_refl _) hprev (.inr (.inl ⟨.inr hr, .ready, .inl rfl, rfl⟩))
  · exact .of_eq (moved_refl _) le_rfl (fun _ => rfl) rfl

lemma switched_threads_self : (k.switched n prev th).threads n =
    some { th with state := .running } := by
  simp [switched]

/-- What a switch leaves of the other threads: the one that gave up the processor is no longer
running. -/
lemma switched_threads_ne {u : Ptr} (hun : u ≠ n) : (k.switched n prev th).threads u =
    if u = k.currThread ∧ prev.state = .running then some { prev with state := .ready }
    else k.threads u := by
  show update (k.yielded prev).threads n _ u = _
  rw [update_of_ne hun]
  unfold yielded
  by_cases hr : prev.state = .running
  · by_cases huc : u = k.currThread
    · simp [hr, huc]
    · simp [hr, huc]
  · simp [hr]

lemma Queue.switched (hq : Queue k l) (hprev : k.threads k.currThread = some prev)
    (hn : k.threads n = some th) (hne : n ≠ k.currThread) : Queue (k.switched n prev th) l := by
  have hy : Queue (k.yielded prev) l := by
    unfold yielded
    split_ifs
    · exact hq.setThread hprev rfl
    · exact hq
  have hn' : (k.yielded prev).threads n = some th := by rw [yielded_threads_ne hne, hn]
  have hset : Queue ((k.yielded prev).setThread n { th with state := .running }) l :=
    hy.setThread hn' rfl
  exact { hset with }

/-- `schedule()` moves threads, and whoever it hands the processor to is running. -/
lemma schedule_frame (hidle : ∃ th, k.threads k.idleThread = some th ∧ th.Awake)
    (h : k.schedule = some k') :
    ∃ k₁, Frame (moved k.lapicTimerTicks) k k₁ ∧ k' = k₁.setCurr k'.currThread ∧
      (k'.currThread ≠ k.currThread →
        ∃ th, k'.threads k'.currThread = some th ∧ th.state = .running) := by
  simp only [schedule, bind, bind_eq_some_iff] at h
  obtain ⟨⟨k₁, n⟩, hnext, h⟩ := h
  have hk₁ : Frame (moved k.lapicTimerTicks) k k₁ ∧
      (n ≠ k.currThread → ∃ th, k₁.threads n = some th ∧ th.Awake) := by
    rcases runqueueNext_cases hnext with ⟨th, ht, hr, rfl⟩ | ⟨rfl, hn⟩
    · exact ⟨picked_frame ht hr, fun _ => ⟨th.expire k.lapicTimerTicks, by simp [picked],
        .inl hr⟩⟩
    · refine ⟨.of_eq (moved_refl _) le_rfl (fun _ => rfl) rfl, ?_⟩
      intro hne
      rcases hn with rfl | rfl
      · exact hidle
      · exact absurd rfl hne
  obtain ⟨hf, hawake⟩ := hk₁
  by_cases hn : n = k₁.currThread
  · rw [if_pos hn, some.injEq] at h
    subst h
    exact ⟨k₁, hf, rfl, fun hne => absurd hf.curr hne⟩
  · rw [if_neg hn] at h
    obtain ⟨prev, th, hprev, ht, rfl⟩ := switchTo_cases h hn
    obtain ⟨th₁, ht₁, ha⟩ := hawake (by rw [← hf.curr]; exact hn)
    obtain rfl := mem_unique ht ht₁
    have hy := yielded_frame k.lapicTimerTicks hprev
    have ht' : (k₁.yielded prev).threads n = some th := by rw [yielded_threads_ne hn, ht]
    refine ⟨(k₁.yielded prev).setThread n { th with state := .running }, ?_, rfl, ?_⟩
    · exact (hf.comp hy moved.trans).comp (.setThread (moved_refl _) ht'
        (.inr (.inl ⟨ha, .running, .inr rfl, rfl⟩))) moved.trans
    · exact fun _ => ⟨_, switched_threads_self, rfl⟩

lemma runqueueNext_frame (h : k.runqueueNext = some (k', n)) :
    Frame (moved k.lapicTimerTicks) k k' := by
  rcases runqueueNext_cases h with ⟨th, ht, hr, rfl⟩ | ⟨rfl, -⟩
  · exact picked_frame ht hr
  · exact .of_eq (moved_refl _) le_rfl (fun _ => rfl) rfl

end Kernel

namespace Wf

variable {L : List Ptr} {k k' : Kernel}

lemma moved {ticks : ℕ} (h : Wf L k) (hf : Frame (moved ticks) k k') : Wf L k' := by
  refine h.frame hf ?_
  intro t a b _ hab
  exact ⟨hab.process, hab.kernelStack, fun _ => hab.awake⟩

end Wf

/-! ## What an entry can do -/

/-- The tables stay well formed, and of the threads only those in `c` become blocked. -/
structure Move (c : Ptr → Prop) (k k' : Kernel) : Prop where
  wf : Wf k'.procList k'
  idle : k'.idleThread = k.idleThread
  brk : k.brk ≤ k'.brk
  blocked : ∀ {t th'}, k'.threads t = some th' → th'.state = .blocked →
    c t ∨ ∃ th, k.threads t = some th ∧ th.state = .blocked
  proc : ∀ {p pr'}, k'.procs p = some pr' →
    (∃ pr, k.procs p = some pr ∧ pr'.thread = pr.thread) ∨ k.brk ≤ p ∧ k.brk ≤ pr'.thread

namespace Move

variable {c : Ptr → Prop} {k k' k'' : Kernel} {t : Ptr} {th : Thread}

lemma refl (h : Wf k.procList k) : Move c k k :=
  ⟨h, rfl, le_refl _, fun ht hb => .inr ⟨_, ht, hb⟩, fun hp => .inl ⟨_, hp, rfl⟩⟩

lemma trans (h : Move c k k') (h' : Move c k' k'') : Move c k k'' where
  wf := h'.wf
  idle := h'.idle.trans h.idle
  brk := h.brk.trans h'.brk
  blocked ht hb := by
    rcases h'.blocked ht hb with hc | ⟨th, ht, hb⟩
    · exact .inl hc
    · exact h.blocked ht hb
  proc hp := by
    rcases h'.proc hp with ⟨pr, hp, hthr⟩ | ⟨hle, hle'⟩
    · rcases h.proc hp with ⟨pr₀, hp₀, hthr₀⟩ | hle
      · exact .inl ⟨pr₀, hp₀, hthr.trans hthr₀⟩
      · exact .inr (hthr ▸ hle)
    · exact .inr ⟨h.brk.trans hle, h.brk.trans hle'⟩

lemma frame {T : Ptr → Thread → Thread → Prop} (h : Wf k.procList k') (hf : Frame T k k')
    (hb : ∀ t a b, T t a b → b.state = .blocked → c t ∨ a.state = .blocked) : Move c k k' where
  wf := by
    rw [hf.procList]
    exact h
  idle := hf.idle
  brk := hf.brk
  blocked ht hblocked := by
    obtain ⟨th, hth, hab⟩ := hf.thread_back ht
    exact (hb _ _ _ hab hblocked).imp_right fun ha => ⟨th, hth, ha⟩
  proc hp := by
    obtain ⟨pr, hpr, -, hthr⟩ := hf.proc_back hp
    exact .inl ⟨pr, hpr, hthr⟩

lemma wakes (h : Wf k.procList k) (hw : Wakes anyWake k k') : Move c k k' :=
  frame (h.wakes hw) hw.toFrame fun _ _ _ hab hb =>
    .inr (by rwa [Thread.Woken.eq_of_blocked hab hb] at hb)

lemma relink (h : Wf k.procList k) (hf : Frame relink k k') : Move c k k' := by
  refine frame (h.relink hf) hf ?_
  intro t a b hab hb
  unfold CobjOs.relink at hab
  rw [hab] at hb
  exact .inr hb

lemma moved {ticks : ℕ} (h : Wf k.procList k) (hf : Frame (moved ticks) k k') : Move c k k' :=
  frame (h.moved hf) hf fun _ _ _ hab hb => .inr (by rwa [hab.eq_of_blocked hb] at hb)

lemma retires (h : Wf k.procList k) (hr : k.Retires t k') : Move c k k' :=
  frame (h.retires hr) hr.frame fun _ _ _ hab hb => .inr (hab.blocked hb)

lemma setThread (h : Wf k.procList k) {th' : Thread} (ht : k.threads t = some th)
    (hp : th'.process = th.process) (hs : th'.kernelStack = th.kernelStack)
    (hne : t ≠ k.idleThread) (hb : th'.state = .blocked → c t ∨ th.state = .blocked) :
    Move c k (k.setThread t th') := by
  have hf : Frame (fun u a b => b = a ∨ u = t ∧ a = th ∧ b = th') k (k.setThread t th') :=
    .setThread (fun _ _ => .inl rfl) ht (.inr ⟨rfl, rfl, rfl⟩)
  refine frame (h.setThread ht hp hs fun hi => absurd hi hne) hf ?_
  rintro u a b (rfl | ⟨rfl, rfl, rfl⟩) hblocked
  · exact .inr hblocked
  · exact hb hblocked

lemma markDead (h : Wf k.procList k) (hne : t ≠ k.idleThread) (hd : k.markDead t = some k') :
    Move c k k' := by
  obtain ⟨th, ht, rfl⟩ := modThread_eq_some hd
  exact setThread h ht rfl rfl hne (by simp)

lemma schedule (h : Wf k.procList k) (hs : k.schedule = some k') : Move c k k' := by
  obtain ⟨k₁, hf, hk', -⟩ := schedule_frame h.idle_awake hs
  have hmove : Move c k k₁ := moved h hf
  rw [hk']
  exact { hmove with wf := { hmove.wf with } }

lemma procCreate (h : Wf k.procList k) {entry pid : ℕ}
    (hc : k.procCreate entry = some (k', pid)) : Move c k k' := by
  rcases procCreate_frame hc with rfl | ⟨v, brk, fds, hbrk, hf⟩
  · exact refl h
  have hwf : Wf (k.created v brk fds).procList (k.created v brk fds) := h.created hbrk
  refine trans ?_ (relink hwf hf)
  refine ⟨hwf, rfl, Nat.le_of_add_right_le hbrk, ?_, ?_⟩
  · intro t th' ht hb
    rcases Store.update_eq_some ht with ⟨-, rfl⟩ | ⟨-, ht⟩
    · simp at hb
    · exact .inr ⟨th', ht, hb⟩
  · intro p pr' hp
    rcases Store.update_eq_some hp with ⟨rfl, rfl⟩ | ⟨-, hp⟩
    · exact .inr ⟨le_refl _, Nat.le_succ _⟩
    · exact .inl ⟨pr', hp, rfl⟩

lemma reaped {rest : List Ptr} (hr : Reaped k k') (hwf : Wf rest k') :
    Move c k (k'.setProcList rest) := by
  refine ⟨{ hwf with }, ?_, ?_, fun ht hb => .inr ⟨_, hr.sub ht, hb⟩,
    fun hp => .inl ⟨_, hr.proc_sub hp, rfl⟩⟩
  · show k'.idleThread = _
    rw [hr.rest]
  · show k.brk ≤ k'.brk
    rw [hr.rest]

/-- An entry moves, and blocks the current thread at most; the timer blocks nobody. -/
lemma passes (h : Wf k.procList k) {op : Op} {ph : Kernel.Phase} (hp : k.Passes op ph k') :
    Move (fun t => t = k.currThread ∧ op ≠ .timer) k k' := by
  induction hp with
  | start => exact refl h
  | woke hw => exact wakes h hw.wakes
  | ticked => exact { refl h with wf := { h with } }
  | reaped _ hr hwf _ ih => exact ih.trans (reaped hr hwf)
  | created _ _ hc ih => exact ih.trans (procCreate ih.wf hc)
  | asked _ ih => exact ih
  | blocked ht hp hb =>
    obtain ⟨-, hproc, hst, -⟩ := hb.keeps
    exact setThread h ht hproc hst (h.ne_idle ht hp) fun _ => .inl ⟨rfl, hb.ne_timer⟩
  | scheduled _ hs ih | left _ hs _ ih => exact ih.trans (schedule ih.wf hs)
  | died hd | spared hd => exact retires h (hd.retires h)
  | @received _ _ _ _ k₁ _ th _ hdeq ht hp hth =>
    have hw := (wakes_dequeue hdeq).quiet
    have hmove := wakes (c := fun t => t = k.currThread ∧ op ≠ .timer) h hw
    have ht₁ : k₁.threads k.currThread = some th := hth ▸ ht
    exact hmove.trans (setThread hmove.wf ht₁ rfl rfl
      (by rw [hw.idle]; exact h.ne_idle ht hp) .inr)
  | returned _ ht hp => exact setThread h ht rfl rfl (h.ne_idle ht hp) .inr
  | bareNext _ hn => exact moved h (runqueueNext_frame hn)
  | bareRemove _ _ hr => exact relink h (runqueueRemove_frame hr)

end Move

lemma Kernel.Passes.wf {op : Op} {ph : Phase} (hp : k.Passes op ph k')
    (h : Wf k.procList k) : Wf k'.procList k' := (Move.passes h hp).wf

namespace Kernel

variable {k k' : Kernel} {l : List Ptr} {t n : Ptr} {th prev : Thread}

/-- `runqueue_next` rotates the queue at most. -/
lemma runqueueNext_queue_perm (hq : Queue k l) (h : k.runqueueNext = some (k', n)) :
    ∃ l', Queue k' l' ∧ ∀ t, t ∈ l' ↔ t ∈ l := by
  by_cases hl : l = []
  · have hhead : k.runqueueHead = none := by rw [hq.head, hl]; rfl
    rw [runqueueNext, hhead, some.injEq, Prod.mk.injEq] at h
    exact ⟨l, h.1 ▸ hq, fun _ => Iff.rfl⟩
  · rcases runqueueNext_queue hq hl with ⟨pre, c, post, th, rfl, -, ht, -, heq⟩ | ⟨-, heq⟩
    · rw [heq, some.injEq, Prod.mk.injEq] at h
      refine ⟨post ++ pre ++ [c], h.1 ▸ hq.picked ht, ?_⟩
      intro u
      simp only [List.mem_append, List.mem_cons, List.not_mem_nil, or_false]
      tauto
    · rw [heq, some.injEq, Prod.mk.injEq] at h
      exact ⟨l, h.1 ▸ hq, fun _ => Iff.rfl⟩

lemma schedule_queue (hq : Queue k l) (h : k.schedule = some k') :
    ∃ l', Queue k' l' ∧ ∀ t, t ∈ l' ↔ t ∈ l := by
  simp only [schedule, bind, bind_eq_some_iff] at h
  obtain ⟨⟨k₁, n⟩, hnext, h⟩ := h
  obtain ⟨l₁, hq₁, hmem⟩ := runqueueNext_queue_perm hq hnext
  split_ifs at h with hn
  · rw [some.injEq] at h
    exact ⟨l₁, h ▸ hq₁, hmem⟩
  · obtain ⟨prev, th, hprev, ht, rfl⟩ := switchTo_cases h hn
    exact ⟨l₁, hq₁.switched hprev ht hn, hmem⟩

end Kernel

namespace Kernel

/-! ## The queue under creation and reaping -/

variable {k k' k₁ : Kernel} {l : List Ptr}

lemma Queue.procCreate (hq : k.Queue l) {entry pid : ℕ}
    (hc : k.procCreate entry = some (k', pid)) :
    k' = k ∨ k'.Queue (l ++ [k.brk + 1]) := by
  refine (procCreate_cases hc).imp_right ?_
  rintro ⟨v, brk, fds, hbrk, hpush⟩
  have hne : ∀ u ∈ l, u ≠ k.brk + 1 := fun u hu =>
    Nat.ne_of_lt (Nat.lt_succ_of_lt (hq.below u hu))
  have hq₁ : (k.created v brk fds).Queue l := by
    refine ⟨hq.ring.congr ?_, hq.head, ?_, ?_⟩
    · intro u hu
      simp [nextOf, hne u hu]
    · intro u hu
      obtain ⟨th, ht⟩ := hq.allocated u hu
      exact ⟨th, by simp [hne u hu, ht]⟩
    · exact fun u hu => lt_of_lt_of_le (hq.below u hu) (Nat.le_of_add_right_le hbrk)
  have hnew : (k.created v brk fds).threads (k.brk + 1) = some k.newThread := by simp
  obtain ⟨k₂, hk₂, hq₂⟩ := runqueuePush_queue hq₁ hnew (fun hl => hne _ hl rfl)
    (lt_of_lt_of_le (Nat.add_lt_add_left (by decide : 1 < 3) k.brk) hbrk)
  exact mem_unique hk₂ hpush ▸ hq₂

lemma Queue.reaped (hq : k.Queue l) (hr : Reaped k k₁) (rest : List Ptr)
    (hlive : ∀ t ∈ l, ∃ th, k.threads t = some th ∧ th.state ≠ .dead) :
    (k₁.setProcList rest).Queue l := by
  have hhead : k₁.runqueueHead = k.runqueueHead := by rw [hr.rest]
  have hbrk : k₁.brk = k.brk := by rw [hr.rest]
  refine ⟨hq.ring.congr ?_, ?_, ?_, ?_⟩
  · intro t ht
    obtain ⟨th, hth, hd⟩ := hlive t ht
    show k₁.nextOf t = k.nextOf t
    rw [nextOf_eq hth, nextOf_eq (hr.keep hth hd)]
  · show k₁.runqueueHead = l.head?
    rw [hhead]
    exact hq.head
  · intro t ht
    obtain ⟨th, hth, hd⟩ := hlive t ht
    exact ⟨th, hr.keep hth hd⟩
  · intro t ht
    show t < k₁.brk
    rw [hbrk]
    exact hq.below t ht

end Kernel

/-! ## What keeps the invariant -/

namespace Sched

variable {R : Ptr → Prop} {T : Ptr → Thread → Thread → Prop} {k₀ k k' k₁ : Kernel} {l l' : List Ptr}
  {t : Ptr} {th : Thread}

lemma curr_frame (h : Sched R k₀ k l) (hf : Frame T k k') :
    ∃ th, k'.threads k'.currThread = some th := by
  obtain ⟨th, ht⟩ := h.curr
  obtain ⟨th', ht', -⟩ := hf.thread ht
  exact ⟨th', by rw [hf.curr]; exact ht'⟩

/-- Membership is about the threads that are not dead, so a change that keeps the dead dead
and the living alive keeps it, and the queue may be reordered. -/
lemma frame (h : Sched R k₀ k l) (hf : Frame T k k') (hwf : Wf k.procList k')
    (hq : k'.Queue l') (hmem : ∀ t, t ∈ l' ↔ t ∈ l)
    (hT : ∀ t a b, T t a b → (b.state = .dead ↔ a.state = .dead)) : Sched R k₀ k' l' where
  wf := hf.procList ▸ hwf
  queue := hq
  member t := by rw [hmem, h.member, hf.alive_iff hT]
  removed_lt t ht := lt_of_lt_of_le (h.removed_lt t ht) hf.brk
  curr := h.curr_frame hf
  since := h.since.trans (.frame hf fun t a b hab => (hT t a b hab).mpr)

lemma wakes (h : Sched R k₀ k l) (hw : Wakes anyWake k k') : Sched R k₀ k' l :=
  h.frame hw.toFrame (h.wf.wakes hw) (h.queue.wakes hw) (fun _ => Iff.rfl)
    fun _ _ _ => Thread.Woken.dead_iff

lemma setThread (h : Sched R k₀ k l) {th' : Thread} (ht : k.threads t = some th)
    (hnext : th'.next = th.next) (hp : th'.process = th.process)
    (hs : th'.kernelStack = th.kernelStack) (hd : th'.state = .dead ↔ th.state = .dead)
    (ha : t = k.idleThread → th'.Awake) : Sched R k₀ (k.setThread t th') l := by
  have hf : Frame (fun _ a b => b.state = .dead ↔ a.state = .dead) k (k.setThread t th') :=
    .setThread (fun _ _ => Iff.rfl) ht hd
  exact h.frame hf (h.wf.setThread ht hp hs ha) (h.queue.setThread ht hnext)
    (fun _ => Iff.rfl) fun _ _ _ => id

lemma remove (h : Sched R k₀ k l) (ht : k.threads t = some th)
    (hrem : k.runqueueRemove t = some k') :
    Sched (fun u => R u ∨ u = t) k₀ k' (l.erase t) := by
  have hf := runqueueRemove_frame hrem
  obtain ⟨k₁, hk₁, hq⟩ := runqueueRemove_queue h.queue t
  obtain rfl := mem_unique hrem hk₁
  refine ⟨hf.procList ▸ h.wf.relink hf, hq, ?_, ?_, h.curr_frame hf,
    h.since.trans (.frame hf fun t a b hab => (relink_dead t a b hab).mpr)⟩
  · intro u
    by_cases hut : u = t
    · subst hut
      simp [List.Nodup.mem_erase_iff h.queue.ring.nodup]
    · rw [List.mem_erase_of_ne hut, h.member, ← hf.alive_iff relink_dead]
      simp [hut]
  · rintro u (hu | rfl)
    · exact lt_of_lt_of_le (h.removed_lt u hu) hf.brk
    · exact lt_of_lt_of_le (h.wf.thread_lt ht) hf.brk

lemma retire (h : Sched R k₀ k l) (hidle : t ≠ k.idleThread) (hrem : k.runqueueRemove t = some k₁)
    (hdead : k₁.markDead t = some k') : Sched R k₀ k' (l.erase t) := by
  have hf := runqueueRemove_frame hrem
  obtain ⟨th₁, ht₁, rfl⟩ := modThread_eq_some hdead
  obtain ⟨th, ht, -⟩ := hf.thread_back ht₁
  have hs := h.remove ht hrem
  have hmark : Frame (fun _ a b => a.state = .dead → b.state = .dead) k₁
      (k₁.setThread t { th₁ with state := .dead }) := .setThread (fun _ _ hd => hd) ht₁ fun _ => rfl
  refine ⟨hs.wf.setThread ht₁ rfl rfl fun hi => absurd (hf.idle ▸ hi) hidle,
    hs.queue.setThread ht₁ rfl, ?_, fun u hu => hs.removed_lt u (.inl hu), hs.curr_frame hmark,
    hs.since.trans (.frame hmark fun _ _ _ => id)⟩
  intro u
  rw [hs.member]
  by_cases hut : u = t
  · simp [hut]
  · simp [hut]

/-- Threads moved and the queue reordered. -/
lemma of_moved {ticks : ℕ} (h : Sched R k₀ k l) (hf : Frame (moved ticks) k k')
    (hq : k'.Queue l') (hmem : ∀ t, t ∈ l' ↔ t ∈ l) : Sched R k₀ k' l' :=
  h.frame hf (h.wf.moved hf) hq hmem fun _ _ _ => moved.dead_iff

lemma runqueueNext (h : Sched R k₀ k l) {n : Ptr} (hn : k.runqueueNext = some (k', n)) :
    ∃ l', Sched R k₀ k' l' := by
  obtain ⟨l', hq, hmem⟩ := runqueueNext_queue_perm h.queue hn
  exact ⟨l', h.of_moved (runqueueNext_frame hn) hq hmem⟩

lemma schedule_to (h : Sched R k₀ k l) (hs : k.schedule = some k')
    (hq : k'.Queue l') (hmem : ∀ t, t ∈ l' ↔ t ∈ l) : Sched R k₀ k' l' := by
  obtain ⟨k₁, hf, hk', hrun⟩ := schedule_frame h.wf.idle_awake hs
  have hq₁ : k₁.Queue l' := by
    rw [hk'] at hq
    exact { hq with }
  have hs₁ := h.of_moved hf hq₁ hmem
  rw [hk']
  refine { hs₁ with
    wf := { hs₁.wf with }
    queue := { hs₁.queue with }
    curr := ?_
    since := hs₁.since.congr rfl rfl }
  show ∃ th, k₁.threads k'.currThread = some th
  by_cases hc : k'.currThread = k.currThread
  · rw [hc, ← hf.curr]
    exact h.curr_frame hf
  · obtain ⟨th, ht, -⟩ := hrun hc
    rw [hk'] at ht
    exact ⟨th, ht⟩

lemma schedule (h : Sched R k₀ k l) (hs : k.schedule = some k') : ∃ l', Sched R k₀ k' l' := by
  obtain ⟨l', hq, hmem⟩ := schedule_queue h.queue hs
  exact ⟨l', h.schedule_to hs hq hmem⟩

lemma procCreate (h : Sched R k₀ k l) {entry pid : ℕ} (hc : k.procCreate entry = some (k', pid)) :
    ∃ l', Sched R k₀ k' l' ∧ (l' = l ∨ l' = l ++ [k.brk + 1]) := by
  rcases h.queue.procCreate hc with rfl | hq
  · exact ⟨l, h, .inl rfl⟩
  rcases procCreate_frame hc with rfl | ⟨v, brk, fds, hbrk, hf⟩
  · exact ⟨l, h, .inl rfl⟩
  have hfresh : ∀ u, u < k.brk → u ≠ k.brk + 1 := fun u hu =>
    Nat.ne_of_lt (Nat.lt_succ_of_lt hu)
  have hle : k.brk ≤ brk := Nat.le_of_add_right_le hbrk
  have hmem : ∀ t, t ∈ l ++ [k.brk + 1] ↔
      ¬R t ∧ ∃ th, (k.created v brk fds).threads t = some th ∧ th.state ≠ .dead := by
    intro t
    rw [List.mem_append, List.mem_singleton, h.member]
    by_cases ht : t = k.brk + 1
    · subst ht
      have hR : ¬R (k.brk + 1) := fun hR => hfresh _ (h.removed_lt _ hR) rfl
      simp [hR]
    · simp [ht]
  refine ⟨l ++ [k.brk + 1], ⟨hf.procList ▸ (h.wf.created hbrk).relink hf, hq,
    fun t => by rw [hmem, hf.alive_iff relink_dead], ?_, ?_, (h.since.trans (.created hle h.wf)).trans
    (.frame hf fun t a b hab => (relink_dead t a b hab).mpr)⟩, .inr rfl⟩
  · exact fun t ht => lt_of_lt_of_le (lt_of_lt_of_le (h.removed_lt t ht) hle) hf.brk
  · obtain ⟨th, ht⟩ := h.curr
    have hcn : k.currThread ≠ k.brk + 1 := hfresh _ (h.wf.thread_lt ht)
    have ht₁ : (k.created v brk fds).threads k.currThread = some th := by simp [hcn, ht]
    obtain ⟨th', ht', -⟩ := hf.thread ht₁
    exact ⟨th', by rw [hf.curr]; exact ht'⟩

lemma reaped {rest : List Ptr} (h : Sched R k₀ k l) (ha : CurrAlive k) (hr : Reaped k k₁)
    (hwf : Wf rest k₁) : Sched R k₀ (k₁.setProcList rest) l := by
  have hbrk : k₁.brk = k.brk := by rw [hr.rest]
  have hcurr : k₁.currThread = k.currThread := by rw [hr.rest]
  have hq : (k₁.setProcList rest).Queue l := by
    refine h.queue.reaped hr rest fun t ht => ?_
    obtain ⟨-, th, hth, hd⟩ := (h.member t).mp ht
    exact ⟨th, hth, hd⟩
  refine ⟨{ hwf with }, hq, ?_, ?_, ?_, (h.since.trans (.reaped h.wf hr)).congr rfl rfl⟩
  · intro t
    rw [h.member]
    refine and_congr_right fun _ => ?_
    constructor
    · rintro ⟨th, hth, hd⟩
      exact ⟨th, hr.keep hth hd, hd⟩
    · rintro ⟨th, hth, hd⟩
      exact ⟨th, hr.sub hth, hd⟩
  · intro t ht
    show t < k₁.brk
    rw [hbrk]
    exact h.removed_lt t ht
  · obtain ⟨th, hth, hd⟩ := ha
    refine ⟨th, ?_⟩
    show k₁.threads k₁.currThread = some th
    rw [hcurr]
    exact hr.keep hth hd

end Sched

/-! ## The current thread stays alive -/

namespace CurrAlive

variable {T : Ptr → Thread → Thread → Prop} {k k' : Kernel}

lemma frame (h : CurrAlive k) (hf : Frame T k k')
    (hT : ∀ t a b, T t a b → (b.state = .dead ↔ a.state = .dead)) : CurrAlive k' := by
  unfold CurrAlive
  rwa [hf.curr, hf.alive_iff hT]

lemma wakes (h : CurrAlive k) (hw : Wakes anyWake k k') : CurrAlive k' :=
  h.frame hw.toFrame fun _ _ _ hab => Thread.Woken.dead_iff hab

lemma procCreate {L : List Ptr} (h : CurrAlive k) (hwf : Wf L k) {entry pid : ℕ}
    (hc : k.procCreate entry = some (k', pid)) : CurrAlive k' := by
  obtain ⟨hcurr, -, hold⟩ := procCreate_old hwf hc
  obtain ⟨th, ht, hd⟩ := h
  obtain ⟨th', ht', hab⟩ := hold ht
  exact ⟨th', by rw [hcurr]; exact ht', fun hd' => hd ((relink_dead _ _ _ hab).mp hd')⟩

/-- Whoever the processor is handed to is running. -/
lemma of_switch {L : List Ptr} (hwf : Wf L k) (hs : k.schedule = some k')
    (hne : k'.currThread ≠ k.currThread) : CurrAlive k' := by
  obtain ⟨-, -, -, hrun⟩ := schedule_frame hwf.idle_awake hs
  obtain ⟨th, ht, hr⟩ := hrun hne
  exact ⟨th, ht, by simp [hr]⟩

lemma schedule {L : List Ptr} (h : CurrAlive k) (hwf : Wf L k) (hs : k.schedule = some k') :
    CurrAlive k' := by
  by_cases hc : k'.currThread = k.currThread
  · obtain ⟨k₁, hf, hk', -⟩ := schedule_frame hwf.idle_awake hs
    obtain ⟨th, ht, hd⟩ := h.frame hf fun _ _ _ hab => moved.dead_iff hab
    rw [hf.curr] at ht
    refine ⟨th, ?_, hd⟩
    rw [hc, hk']
    exact ht
  · exact of_switch hwf hs hc

lemma reaped {rest : List Ptr} (h : CurrAlive k) (hr : Reaped k k') :
    CurrAlive (k'.setProcList rest) := by
  obtain ⟨th, ht, hd⟩ := h
  have hcurr : k'.currThread = k.currThread := by rw [hr.rest]
  refine ⟨th, ?_, hd⟩
  show k'.threads k'.currThread = some th
  rw [hcurr]
  exact hr.keep ht hd

lemma setCurrent {t : Ptr} {th : Thread} (ht : k.currThread = t) (hd : th.state ≠ .dead) :
    CurrAlive (k.setThread t th) := by
  refine ⟨th, ?_, hd⟩
  show update k.threads t (some th) k.currThread = some th
  rw [ht, update_self]

lemma state (h : CurrAlive k) {th : Thread} (ht : k.threads k.currThread = some th) :
    th.state ≠ .dead := by
  obtain ⟨th', ht', hd⟩ := h
  exact mem_unique ht' ht ▸ hd

/-- All through an entry, except where a thread has just ended itself. -/
lemma passes {op : Op} {ph : Kernel.Phase} (h : CurrAlive k) (hwf : Wf k.procList k)
    (hp : k.Passes op ph k') (hph : ph ≠ .leaving) : CurrAlive k' := by
  induction hp with
  | start => exact h
  | woke hw => exact h.wakes hw.wakes
  | ticked => exact h
  | reaped _ hr _ _ ih => exact (ih nofun).reaped hr
  | created hp _ hc ih => exact (ih nofun).procCreate (hp.wf hwf) hc
  | asked _ ih => exact ih nofun
  | blocked _ _ hb => exact setCurrent rfl (by simp [hb.keeps])
  | scheduled hp hs ih => exact (ih nofun).schedule (hp.wf hwf) hs
  | died => exact absurd rfl hph
  | spared hd hne =>
    have hf := (hd.retires hwf).frame
    obtain ⟨th, ht, hlive⟩ := h
    obtain ⟨th', ht', hab⟩ := hf.thread ht
    refine ⟨th', by rw [hf.curr]; exact ht', fun hd' => ?_⟩
    rcases hab.alive hd' with heq | hdead
    · exact hne (heq ▸ hf.curr.symm)
    · exact hlive hdead
  | left hp hs hne => exact of_switch (hp.wf hwf) hs hne
  | received _ _ ht _ _ hcurr => exact setCurrent hcurr (h.state ht :)
  | returned _ ht => exact setCurrent rfl (h.state ht :)
  | bareNext _ hn => exact h.frame (runqueueNext_frame hn) fun _ _ _ => moved.dead_iff
  | bareRemove _ _ hr => exact h.frame (runqueueRemove_frame hr) relink_dead

end CurrAlive

/-- What holds between the steps of the kernel. -/
structure Good (R : Ptr → Prop) (k₀ k : Kernel) : Prop where
  sched : ∃ l, Sched R k₀ k l
  alive : CurrAlive k

namespace Good

variable {R : Ptr → Prop} {k₀ k k' : Kernel} {op : Op} {ph : Kernel.Phase}

lemma wf (h : Good R k₀ k) : Wf k.procList k := by
  obtain ⟨l, hs⟩ := h.sched
  exact hs.wf

/-- Only a bare `runqueue_remove` disturbs the queue. -/
lemma passes (h : Good R k₀ k) (hop : ∀ t, op ≠ .bareRemove t) (hp : k.Passes op ph k') :
    ∃ l, Sched R k₀ k' l := by
  have halive : ∀ {k₁}, k.Passes op .going k₁ → CurrAlive k₁ := fun hp =>
    h.alive.passes h.wf hp nofun
  obtain ⟨l, hs⟩ := h.sched
  -- the clock and the flag play no part
  have hclock : ∀ {k₁ : Kernel} {b : Bool}, Sched R k₀ k₁ l →
      Sched R k₀ { k₁.ticked with procNeedsCleanup := b } l := fun hs =>
    { hs with wf := { hs.wf with }, queue := { hs.queue with }, since := hs.since.congr rfl rfl }
  have hretire : ∀ {t k₁}, k.Dies op t k₁ → ∃ l, Sched R k₀ k₁ l := by
    intro t k₁ hd
    obtain ⟨k₂, k₃, k₄, hw, hne, hrem, hdead, hw'⟩ := (hd.retires hs.wf).parts
    exact ⟨_, ((hs.wakes hw).retire hne hrem hdead).wakes hw'⟩
  induction hp with
  | start => exact ⟨l, hs⟩
  | woke hw => exact ⟨l, hs.wakes hw.wakes⟩
  | ticked => exact ⟨l, hclock hs⟩
  | reaped hp hr hwf _ ih =>
    obtain ⟨l₁, hs₁⟩ := ih
    exact ⟨l₁, hs₁.reaped (halive hp) hr hwf⟩
  | created _ _ hc ih =>
    obtain ⟨l₁, hs₁⟩ := ih
    obtain ⟨l₂, hs₂, -⟩ := hs₁.procCreate hc
    exact ⟨l₂, hs₂⟩
  | asked _ ih => exact ih
  | blocked ht hp hb =>
    obtain ⟨hnext, hproc, hst, hstate⟩ := hb.keeps
    exact ⟨l, hs.setThread ht hnext hproc hst (by simp [hstate, h.alive.state ht])
      fun hi => absurd hi (hs.wf.ne_idle ht hp)⟩
  | scheduled _ hsch ih | left _ hsch _ ih =>
    obtain ⟨l₁, hs₁⟩ := ih
    exact hs₁.schedule hsch
  | died hd | spared hd => exact hretire hd
  | @received _ _ _ _ k₁ _ th _ hdeq ht hp hth =>
    have hw := (wakes_dequeue hdeq).quiet
    have ht₁ : k₁.threads k.currThread = some th := hth ▸ ht
    exact ⟨l, (hs.wakes hw).setThread ht₁ rfl rfl rfl Iff.rfl fun hi =>
      absurd (hi.trans hw.idle) (hs.wf.ne_idle ht hp)⟩
  | returned _ ht hp =>
    exact ⟨l, hs.setThread ht rfl rfl rfl Iff.rfl fun hi => absurd hi (hs.wf.ne_idle ht hp)⟩
  | bareNext _ hn => exact hs.runqueueNext hn
  | bareRemove hop' => exact absurd hop' (hop _)

end Good

end CobjOs
