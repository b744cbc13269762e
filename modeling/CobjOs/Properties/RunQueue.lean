import CobjOs.Kernel.Sched

/-!
# The run queue over whole runs

From `thread_init` on, whatever the order of kernel entries, the run queue is one cycle without
repetition and holds the idle thread and the living threads of the processes on `proc_list`.
The run-queue routines may also be called on their own.  A bare `runqueue_remove` of a living
thread is then the only way for a living thread to be off the queue, and the threads taken out
that way are the set `removedBy`.
-/

namespace CobjOs

variable {k k' k₀ : Kernel} {R : Ptr → Prop}

open Kernel List

/-- The threads taken out by a bare `runqueue_remove` among the labels. -/
def removedBy (ls : List Op) (t : Ptr) : Prop := Op.bareRemove t ∈ ls

/-- `thread_init` from the static state. -/
def start (initEntry : Option ℕ) : Option Kernel := (Kernel.boot initEntry).threadInit

/-- A thread that belongs on the run queue: the idle thread, or the living thread of a process
on `proc_list`. -/
def Kernel.Queueable (k : Kernel) (t : Ptr) : Prop :=
  t = k.idleThread ∨ ∃ p ∈ k.procList, ∃ pr th, k.procs p = some pr ∧ pr.thread = t ∧
    k.threads t = some th ∧ th.state ≠ .dead

/-! ## The start -/

/-- The idle thread as `thread_init` leaves it. -/
def firstThread : Thread where
  kernelStack := 2
  state := .running
  id := 0
  process := none
  waitingFor := 0
  sleepUntil := 0
  next := some 1
  call := .user

/-- The state `thread_init` leaves. -/
def started (initEntry : Option ℕ) : Kernel :=
  { Kernel.boot initEntry with
    threads := Function.update (fun _ => none) 1 (some firstThread)
    kstacks := Function.update (fun _ => false) 2 true
    brk := 3
    currThread := 1
    idleThread := 1
    runqueueHead := some 1
    nextThreadId := 1 }

lemma start_eq (initEntry : Option ℕ) : start initEntry = some (started initEntry) := by
  simp [start, started, Kernel.threadInit, Kernel.threadCreate, Kernel.allocThread, Kernel.boot,
    Kernel.runqueuePush, Kernel.modThread, Kernel.setThread, Kernel.setHead, Kernel.setCurr,
    firstThread, u64]

lemma good_start {initEntry : Option ℕ} (h : start initEntry = some k) :
    Good (fun _ => False) k k := by
  rw [start_eq, Option.some.injEq] at h
  have hidle : k.threads 1 = some firstThread := by rw [← h]; simp [started]
  have honly : ∀ {t th}, k.threads t = some th → t = 1 ∧ th = firstThread := by
    intro t th ht
    rw [← h, started] at ht
    by_cases ht1 : t = 1
    · simp only [ht1, Function.update_self, Option.some.injEq] at ht
      exact ⟨ht1, ht.symm⟩
    · simp [ht1] at ht
  have hprocs : ∀ p, k.procs p = none := by intro p; rw [← h]; rfl
  have hk : k.currThread = 1 ∧ k.idleThread = 1 ∧ k.runqueueHead = some 1 ∧ k.brk = 3 ∧
      k.procList = [] ∧ k.kstacks = Function.update (fun _ => false) 2 true := by
    rw [← h]
    exact ⟨rfl, rfl, rfl, rfl, rfl, rfl⟩
  obtain ⟨hcurr, hidle', hhead, hbrk, hlist, hst⟩ := hk
  refine ⟨⟨[1], ?_, ?_, ?_, ?_, ?_, .refl k⟩, ?_⟩
  · refine ⟨?_, ?_, ?_, ?_, ?_, ?_, ?_, ?_, ?_, ?_⟩
    · intro t th ht
      rw [(honly ht).1, hbrk]
      decide
    · intro p pr hp
      simp [hprocs] at hp
    · intro s hs
      rw [hst] at hs
      by_cases hs2 : s = 2
      · rw [hs2, hbrk]
        decide
      · simp [hs2] at hs
    · intro t th ht
      rw [(honly ht).2, hst]
      rfl
    · intro t u th thu ht hu _
      rw [(honly ht).1, (honly hu).1]
    · rw [hidle']
      exact ⟨_, hidle, rfl, .inr rfl⟩
    · intro t th ht
      exact .inl ((honly ht).1.trans hidle'.symm)
    · intro p
      simp [hlist, hprocs]
    · intro p pr hp
      simp [hprocs] at hp
    · rw [hlist]
      exact nodup_nil
  · refine ⟨IsRing.singleton ?_, hhead, ?_, ?_⟩
    · rw [nextOf_eq hidle]
      rfl
    · intro t ht
      rw [mem_singleton.mp ht]
      exact ⟨_, hidle⟩
    · intro t ht
      rw [mem_singleton.mp ht, hbrk]
      decide
  · intro t
    rw [mem_singleton]
    constructor
    · rintro rfl
      exact ⟨id, _, hidle, by simp [firstThread]⟩
    · rintro ⟨-, th, ht, -⟩
      exact (honly ht).1
  · exact fun _ ht => ht.elim
  · rw [hcurr]
    exact ⟨_, hidle⟩
  · refine ⟨firstThread, ?_, by simp [firstThread]⟩
    rw [hcurr]
    exact hidle

/-! ## One step -/

/-- The threads of `R`, and the one a bare `runqueue_remove` takes out. -/
def removedAlso (R : Ptr → Prop) (op : Op) (t : Ptr) : Prop := R t ∨ op = .bareRemove t

lemma removedAlso_of_ne {op : Op} (h : ∀ t, op ≠ .bareRemove t) :
    removedAlso R op = R := by
  funext t
  simp [removedAlso, h t]

/-- Every step keeps the invariant; a bare removal adds its thread to those taken out. -/
lemma Good.step (h : Good R k₀ k) {op : Op}
    (hs : k.step op = some k') : Good (removedAlso R op) k₀ k' := by
  have hp := step_passes h.wf hs
  refine ⟨?_, h.alive.passes h.wf hp nofun⟩
  by_cases hrem : ∃ t, op = .bareRemove t
  · obtain ⟨t, rfl⟩ := hrem
    obtain ⟨th, ht, hs⟩ := step_bareRemove hs
    obtain ⟨l, hsch⟩ := h.sched
    have heq : removedAlso R (.bareRemove t) = fun u => R u ∨ u = t := by
      funext u
      simp [removedAlso, eq_comm]
    rw [heq]
    exact ⟨l.erase t, hsch.remove ht hs⟩
  · rw [removedAlso_of_ne fun t ht => hrem ⟨t, ht⟩]
    exact h.passes (fun t ht => hrem ⟨t, ht⟩) hp

/-! ## Whole runs -/

lemma Good.run {ls : List Op} (h : Good R k₀ k)
    (hrun : Run Kernel.step anyStep k ls k') : Good (fun t => R t ∨ removedBy ls t) k₀ k' := by
  induction hrun with
  | nil =>
    have heq : (fun t => R t ∨ removedBy [] t) = R := by simp [removedBy]
    rwa [heq]
  | @snoc ls s s' op _ _ hs ih =>
    have heq : (fun t => R t ∨ removedBy (ls ++ [op]) t) =
        removedAlso (fun t => R t ∨ removedBy ls t) op := by
      funext t
      simp [removedBy, removedAlso, or_assoc, eq_comm]
    rw [heq]
    exact ih.step hs

lemma Good.rebase (h : Good R k₀ k) : Good R k k := by
  obtain ⟨l, hs⟩ := h.sched
  exact ⟨⟨l, { hs with since := .refl k }⟩, h.alive⟩

namespace Sched

variable {R : Ptr → Prop} {k₀ k k' : Kernel} {l : List Ptr}

/-- The members are the threads that belong there and were not taken out alive. -/
lemma mem_iff_queueable (h : Sched R k₀ k l) (t : Ptr) : t ∈ l ↔ k.Queueable t ∧ ¬R t := by
  rw [h.member, and_comm]
  refine and_congr_left fun _ => ?_
  constructor
  · rintro ⟨th, ht, hd⟩
    rcases h.wf.owned ht with hidle | ⟨p, pr, -, hpr, hpt⟩
    · exact .inl hidle
    · exact .inr ⟨p, (h.wf.listed p).mpr ⟨pr, hpr⟩, pr, th, hpr, hpt, ht, hd⟩
  · rintro (rfl | ⟨p, -, pr, th, -, -, ht, hd⟩)
    · obtain ⟨th, ht, -, ha⟩ := h.wf.idle
      exact ⟨th, ht, ha.ne_dead⟩
    · exact ⟨th, ht, hd⟩

lemma runqueueNext_isSome (h : Sched R k₀ k l) : k.runqueueNext.isSome := by
  by_cases hl : l = []
  · have hhead : k.runqueueHead = none := by rw [h.queue.head, hl]; rfl
    rw [Kernel.runqueueNext, hhead]
    rfl
  · rcases runqueueNext_queue h.queue hl with ⟨_, _, _, _, -, -, -, -, heq⟩ | ⟨-, heq⟩
    · rw [heq]
      rfl
    · rw [heq]
      rfl

lemma pushWalk_isSome (h : Sched R k₀ k l) {head : Ptr} (hh : k.runqueueHead = some head) :
    (walkTo k.nextOf head k.walkFuel head).isSome := by
  rcases eq_nil_or_concat l with rfl | ⟨m, b, rfl⟩
  · rw [h.queue.head] at hh
    simp at hh
  · have hq := h.queue
    rw [concat_eq_append] at hq
    have hlen := hq.length_lt
    rw [length_append, length_singleton] at hlen
    rw [walkTo_last hq.ring (hq.head ▸ hh) (by omega)]
    rfl

/-- `proc_cleanup` frees no thread that is linked in the ring. -/
lemma procCleanup_keeps (h : Sched R k₀ k l) (hc : k.procCleanup = some k') {t : Ptr}
    (ht : t ∈ l) : (k'.threads t).isSome := by
  obtain ⟨-, th, hth, hd⟩ := (h.member t).mp ht
  obtain ⟨k₁, rest, hwf, hr, -, hk'⟩ := procCleanup_cases h.wf hc
  have hth₁ : (k₁.setProcList rest).threads t = some th := hr.keep hth hd
  rcases hk' with rfl | ⟨entry, pid, hcr⟩
  · rw [hth₁]
    rfl
  · have hwf' : Wf rest (k₁.setProcList rest) := { hwf with }
    obtain ⟨-, -, hold⟩ := procCreate_old hwf' hcr
    obtain ⟨th', ht', -⟩ := hold hth₁
    rw [ht']
    rfl

end Sched

/-- In every state reached from `thread_init`, by the kernel's entries and by bare calls of the
run-queue routines: following `next` from `runqueue_head` is one cycle that lists each member
once; the members are the idle thread and the living threads of the listed processes, except
those a bare `runqueue_remove` took out; a dead thread stays dead until it is freed, and its
block is not used again; the loops that walk the ring come to an end; and `proc_cleanup` frees
no member of the ring. -/
theorem runqueue_is_ring {initEntry : Option ℕ} {k₀ k : Kernel} {ls : List Op}
    (h₀ : start initEntry = some k₀) (hrun : Run Kernel.step anyStep k₀ ls k) :
    ∃ l, IsRing k.nextOf l ∧ k.runqueueHead = l.head? ∧
      (∀ t, t ∈ l ↔ k.Queueable t ∧ Op.bareRemove t ∉ ls) ∧
      (∀ ls' k', Run Kernel.step anyStep k ls' k' → ∀ t th, k.threads t = some th →
        th.state = .dead →
          k'.threads t = none ∨ ∃ th', k'.threads t = some th' ∧ th'.state = .dead) ∧
      k.runqueueNext.isSome ∧ (∀ t, (k.runqueueRemove t).isSome) ∧
      (∀ pid, (k.threadWakePid pid).isSome) ∧
      (∀ head, k.runqueueHead = some head →
        (walkTo k.nextOf head k.walkFuel head).isSome) ∧
      ∀ k', k.procCleanup = some k' → ∀ t ∈ l, (k'.threads t).isSome := by
  have hgood : Good (fun t => False ∨ removedBy ls t) k₀ k := (good_start h₀).run hrun
  obtain ⟨l, hs⟩ := hgood.sched
  refine ⟨l, hs.queue.ring, hs.queue.head, ?_, ?_, hs.runqueueNext_isSome, ?_, ?_, ?_, ?_⟩
  · intro t
    rw [hs.mem_iff_queueable, false_or]
    rfl
  · intro ls' k' hrun' t th ht hd
    obtain ⟨l', hs'⟩ := (hgood.rebase.run hrun').sched
    rcases hs'.since.dead ht hd with ⟨-, hn⟩ | hdead
    · exact .inl hn
    · exact .inr hdead
  · intro t
    obtain ⟨k', hk', -⟩ := runqueueRemove_queue hs.queue t
    rw [hk']
    rfl
  · intro pid
    rw [threadWakePid_queue hs.queue]
    rfl
  · exact fun head hh => hs.pushWalk_isSome hh
  · exact fun k' hc t ht => hs.procCleanup_keeps hc ht

/-- A run through start, a time slice, an exit and the reaping that follows it. -/
theorem runqueue_is_ring_after_exit : ∃ k₀ k, start (some 7) = some k₀ ∧
    Run Kernel.step anyStep k₀ [.kidle, .timer, .exit, .timer] k ∧
    ∃ l, IsRing k.nextOf l ∧ k.runqueueHead = l.head? ∧ ∀ t, t ∈ l ↔ k.Queueable t := by
  obtain ⟨k, hrun, -⟩ : ∃ k, Run Kernel.step anyStep (started (some 7))
      [.kidle, .timer, .exit, .timer] k ∧ (fun _ => true) k = true :=
    Run.exists_of_exec (fun _ _ => true) (fun _ _ _ => trivial) _ (by decide +kernel)
      (by decide +kernel)
  obtain ⟨l, hring, hhead, hmem, -⟩ := runqueue_is_ring (start_eq (some 7)) hrun
  exact ⟨_, k, start_eq (some 7), hrun, l, hring, hhead, fun t => by simp [hmem]⟩

/-- A bare `runqueue_remove` of the thread of `init`, which is alive and whose process is on
the list, leaves a ring it is not on. -/
theorem live_thread_can_be_off_the_ring : ∃ k₀ k, start (some 7) = some k₀ ∧
    Run Kernel.step anyStep k₀ [.kidle, .bareRemove 5] k ∧ k.Queueable 5 ∧
    ∀ l, IsRing k.nextOf l → k.runqueueHead = l.head? → 5 ∉ l := by
  obtain ⟨k, hrun, hP⟩ : ∃ k, Run Kernel.step anyStep (started (some 7))
      [.kidle, .bareRemove 5] k ∧ (decide (k.procList = [4]) &&
        decide ((k.procs 4).map Process.core = some (0, 5)) &&
        decide (k.stateOf 5 = some .ready) && decide (k.runqueueHead = some 1) &&
        decide (k.nextOf 1 = some 1)) = true :=
    Run.exists_of_exec (fun _ _ => true) (fun _ _ _ => trivial) _ (by decide +kernel)
      (by decide +kernel)
  simp only [Bool.and_eq_true, decide_eq_true_eq] at hP
  obtain ⟨⟨⟨⟨hlist, hproc⟩, hstate⟩, hhead⟩, hnext⟩ := hP
  refine ⟨_, k, start_eq (some 7), hrun, .inr ?_, ?_⟩
  · obtain ⟨pr, hpr, hcore⟩ := Option.map_eq_some_iff.mp hproc
    obtain ⟨th, hth, hready⟩ := Option.map_eq_some_iff.mp hstate
    exact ⟨4, by simp [hlist], pr, th, hpr, congrArg Prod.snd hcore, hth, by simp [hready]⟩
  · -- the head is linked to itself, so the ring has no second member
    intro l hring hl h5
    rw [hhead] at hl
    obtain ⟨rest, rfl⟩ : ∃ rest, l = 1 :: rest := by
      cases l with
      | nil => simp at hl
      | cons a rest => exact ⟨rest, by simpa using hl.symm⟩
    have hr : IsRing k.nextOf ([] ++ 1 :: rest) := hring
    have heq := hr.next_eq
    have hnd := hring.nodup
    cases rest with
    | nil => simp at h5
    | cons b rest' =>
      rw [hnext] at heq
      simp only [append_nil, cons_append, head?_cons, Option.some.injEq] at heq
      simp [heq] at hnd

end CobjOs
