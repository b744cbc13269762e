import CobjOs.Framework.Transition
import CobjOs.Kernel.Queue

/-!
# The order of scheduling

A ready thread waits no longer than its distance from the head of the run queue.  The distance
goes down with every `runqueue_next` that picks another thread, because the head moves behind the
thread picked; `runqueue_push` appends at the tail, and `runqueue_remove` of another thread does not
raise it.

The run queue is seen on its own: between the calls of `runqueue_next` threads are created, pushed
and removed, and the records of other threads change in any way that keeps their links.
-/

namespace CobjOs

open Kernel List Option

/-- What happens to the run queue. -/
inductive RingOp
  | next
  | create
  | push (u : Ptr)
  | remove (u : Ptr)
  /-- The record of a thread changes: it blocks, is woken, starts or stops running. -/
  | change (u : Ptr) (th : Thread)
  /-- The clock, the current thread, the processes, the ports and so on change. -/
  | elsewhere (k : Kernel)

/-- The kernel, and the threads that `runqueue_next` has returned so far. -/
structure RingSys where
  kernel : Kernel
  picks : List Ptr

namespace RingSys

def step (s : RingSys) : RingOp → Option RingSys
  | .next => s.kernel.runqueueNext.map fun (k, n) => ⟨k, s.picks ++ [n]⟩
  | .create => some { s with kernel := s.kernel.threadCreateUser.1 }
  | .push u => (s.kernel.runqueuePush u).map fun k => { s with kernel := k }
  | .remove u => (s.kernel.runqueueRemove u).map fun k => { s with kernel := k }
  | .change u th => some { s with kernel := s.kernel.setThread u th }
  | .elsewhere k => some { s with kernel := k }

/-- Only threads that are not queued are pushed, the thread `t` is not removed or changed, and
links are changed by the run queue alone. -/
def Ok (t : Ptr) (s : RingSys) : RingOp → Prop
  | .next | .create => True
  | .push u => (∃ th, s.kernel.threads u = some th) ∧ u < s.kernel.brk ∧
      ∀ l, s.kernel.Queue l → u ∉ l
  | .remove u => u ≠ t
  | .change u th => u ≠ t ∧ ∃ old, s.kernel.threads u = some old ∧ th.next = old.next
  | .elsewhere k => k.threads = s.kernel.threads ∧ k.runqueueHead = s.kernel.runqueueHead ∧
      s.kernel.brk ≤ k.brk

/-- The thread is queued and ready, and it has been returned within the first `d + 1` calls or its
distance from the head leaves room for it to be. -/
structure Due (t : Ptr) (d : ℕ) (s : RingSys) (l : List Ptr) : Prop where
  queue : s.kernel.Queue l
  mem : t ∈ l
  ready : ∃ th, s.kernel.threads t = some th ∧ th.state = .ready
  bound : l.idxOf t + s.picks.length ≤ d ∨ t ∈ s.picks.take (d + 1)

variable {s s' : RingSys} {t u : Ptr} {d : ℕ} {l : List Ptr}

/-! ## One call -/

lemma runnable_of_ready {k : Kernel} (h : ∃ th, k.threads t = some th ∧ th.state = .ready) :
    k.Runnable t := by
  obtain ⟨th, hth, hready⟩ := h
  refine ⟨th, hth, ?_⟩
  rw [Thread.expire, if_neg fun hb => by simp [hready] at hb, hready]

/-- `runqueue_next` on a ring with a thread that can run. -/
lemma runqueueNext_first {k : Kernel} (hq : k.Queue l) (hrun : ∃ u ∈ l, k.Runnable u) :
    ∃ pre c post k', l = pre ++ c :: post ∧ (∀ u ∈ pre, ¬k.Runnable u) ∧ k.Runnable c ∧
      k.runqueueNext = some (k', c) ∧ k'.Queue (post ++ pre ++ [c]) ∧
      k'.runqueueHead = k.nextOf c ∧
      ∃ th, k.threads c = some th ∧ k' = k.picked c th := by
  obtain ⟨u, hu, hrunu⟩ := hrun
  rcases runqueueNext_queue hq (ne_nil_of_mem hu) with
    ⟨pre, c, post, th, rfl, hpre, hth, hready, hcall⟩ | ⟨hnone, -⟩
  · exact ⟨pre, c, post, _, rfl, hpre, ⟨th, hth, hready⟩, hcall, hq.picked hth,
      (nextOf_eq hth).symm, th, hth, rfl⟩
  · exact absurd hrunu (hnone u hu)

/-! ## The distance -/

/-- The distance of a member that is not the one picked goes down by the members skipped and the
one picked. -/
lemma idxOf_rotate {pre post : List Ptr} {c : Ptr} (hpre : t ∉ pre) (hc : t ≠ c)
    (hmem : t ∈ pre ++ c :: post) :
    (post ++ pre ++ [c]).idxOf t + (pre.length + 1) = (pre ++ c :: post).idxOf t := by
  have hpost : t ∈ post := by simpa [hpre, hc] using hmem
  rw [append_assoc, idxOf_append_of_mem hpost, idxOf_append_of_notMem hpre,
    idxOf_cons_ne _ hc.symm]
  omega

lemma idxOf_erase_le (hne : u ≠ t) (l : List Ptr) : (l.erase u).idxOf t ≤ l.idxOf t := by
  induction l with
  | nil => simp
  | cons a l ih =>
    by_cases hau : a = u
    · subst hau
      rw [erase_cons_head, idxOf_cons_ne _ hne]
      omega
    · rw [erase_cons_tail (by simpa using hau)]
      by_cases hat : a = t
      · simp [hat]
      · rw [idxOf_cons_ne _ hat, idxOf_cons_ne _ hat]
        omega

lemma mem_take_snoc {picks : List Ptr} {n : Ptr} {m : ℕ} (h : t ∈ picks.take m) :
    t ∈ (picks ++ [n]).take m := by
  rw [take_append]
  exact mem_append_left _ h

lemma queue_congr {k k' : Kernel} (h : k.Queue l) (hth : ∀ u ∈ l, k'.threads u = k.threads u)
    (hhead : k'.runqueueHead = k.runqueueHead) (hbrk : k.brk ≤ k'.brk) : k'.Queue l where
  ring := h.ring.congr fun u hu => by rw [Kernel.nextOf, Kernel.nextOf, hth u hu]
  head := hhead.trans h.head
  allocated u hu := by
    rw [hth u hu]
    exact h.allocated u hu
  below u hu := lt_of_lt_of_le (h.below u hu) hbrk

lemma runqueuePush_ready {k : Kernel} {th : Thread} (hth : k.threads u = some th) :
    k.runqueuePush u = (k.setThread u { th with state := .ready }).runqueuePush u := by
  have hth₁ : (k.setThread u { th with state := .ready }).threads u =
      some { th with state := .ready } := by simp
  rw [Kernel.runqueuePush, modThread_eq hth, Kernel.runqueuePush,
    modThread_eq hth₁, setThread_self hth₁]

namespace Due

/-- A step that picks nothing, keeps the thread ready and does not move it away from the head. -/
lemma of_le {k : Kernel} {l' : List Ptr} (h : s.Due t d l) (hq : k.Queue l') (hmem : t ∈ l')
    (hready : ∃ th, k.threads t = some th ∧ th.state = .ready)
    (hle : l'.idxOf t ≤ l.idxOf t) : Due t d { s with kernel := k } l' := by
  refine ⟨hq, hmem, hready, h.bound.imp (fun hb => ?_) id⟩
  dsimp only
  omega

lemma next (h : s.Due t d l) (hs : s.step .next = some s') : ∃ l', s'.Due t d l' := by
  have hrunnable := runnable_of_ready h.ready
  obtain ⟨pre, c, post, k', rfl, hpre, -, hcall, hq, -, th, hth, rfl⟩ :=
    runqueueNext_first h.queue ⟨t, h.mem, hrunnable⟩
  rw [step, hcall] at hs
  obtain rfl := some.inj hs
  obtain ⟨tht, htht, hready⟩ := h.ready
  refine ⟨post ++ pre ++ [c], hq, ?_, ?_, ?_⟩
  · have hmem := h.mem
    simp only [mem_append, mem_cons, not_mem_nil, or_false] at hmem ⊢
    tauto
  · by_cases htc : t = c
    · -- the sleep test leaves a ready thread alone
      subst htc
      obtain rfl : th = tht := some.inj (hth.symm.trans htht)
      refine ⟨th.expire s.kernel.lapicTimerTicks, by simp [Kernel.picked], ?_⟩
      obtain ⟨th', hth', hexp⟩ := hrunnable
      obtain rfl : th = th' := some.inj (hth.symm.trans hth')
      exact hexp
    · exact ⟨tht, by simp [Kernel.picked, htc, htht], hready⟩
  · rcases h.bound with hb | hb
    · by_cases htc : t = c
      · subst htc
        right
        rw [take_of_length_le (by simp; omega)]
        simp
      · have hrot := idxOf_rotate (fun hin => hpre t hin hrunnable) htc h.mem
        left
        simp only [length_append, length_singleton]
        omega
    · exact .inr (mem_take_snoc hb)

lemma push (h : s.Due t d l) (hok : s.Ok t (.push u)) (hs : s.step (.push u) = some s') :
    ∃ l', s'.Due t d l' := by
  obtain ⟨⟨th, hth⟩, hbrk, hnew⟩ := hok
  have hul : u ∉ l := hnew l h.queue
  have htu : t ≠ u := fun heq => hul (heq ▸ h.mem)
  obtain ⟨k', hcall, hq⟩ := runqueuePush_queue h.queue hth hul hbrk
  rw [step, hcall] at hs
  obtain rfl := some.inj hs
  refine ⟨l ++ [u], h.of_le hq (mem_append_left _ h.mem) ?_ ?_⟩
  · -- first the pushed thread is made ready, then links change
    obtain ⟨tht, htht, hready⟩ := h.ready
    rw [runqueuePush_ready hth] at hcall
    have hframe := runqueuePush_frame (fun th' hth' => by
      obtain rfl : _ = th' := by simpa using hth'
      rfl) hcall
    obtain ⟨th', hth', hrelink⟩ := hframe.thread (t := t)
      (show _ = some tht by simp [htu, htht])
    refine ⟨th', hth', ?_⟩
    rw [hrelink]
    exact hready
  · rw [idxOf_append_of_mem h.mem]

lemma remove (h : s.Due t d l) (hne : u ≠ t) (hs : s.step (.remove u) = some s') :
    ∃ l', s'.Due t d l' := by
  obtain ⟨k', hcall, hq⟩ := runqueueRemove_queue h.queue u
  rw [step, hcall] at hs
  obtain rfl := some.inj hs
  refine ⟨l.erase u, h.of_le hq ((mem_erase_of_ne hne.symm).2 h.mem) ?_
    (idxOf_erase_le hne l)⟩
  obtain ⟨th, hth, hready⟩ := h.ready
  obtain ⟨th', hth', hrelink⟩ := (runqueueRemove_frame hcall).thread hth
  refine ⟨th', hth', ?_⟩
  rw [hrelink]
  exact hready

lemma step {op : RingOp} (h : s.Due t d l) (hok : s.Ok t op) (hs : s.step op = some s') :
    ∃ l', s'.Due t d l' := by
  cases op with
  | next => exact h.next hs
  | create =>
    obtain rfl := some.inj hs
    have hold : ∀ u ∈ l, s.kernel.threadCreateUser.1.threads u = s.kernel.threads u := by
      intro u hu
      have hne : u ≠ s.kernel.brk := (h.queue.below u hu).ne
      simp [Kernel.threadCreateUser, Kernel.allocThread, hne]
    refine ⟨l, h.of_le (queue_congr h.queue hold rfl (Nat.le_add_right _ 2)) h.mem ?_ le_rfl⟩
    rw [hold t h.mem]
    exact h.ready
  | push u => exact h.push hok hs
  | remove u => exact h.remove hok hs
  | change u th =>
    obtain ⟨hne, old, hold, hnext⟩ := hok
    obtain rfl := some.inj hs
    obtain ⟨tht, htht, hready⟩ := h.ready
    exact ⟨l, h.of_le (h.queue.setThread hold hnext) h.mem
      ⟨tht, by simp [hne.symm, htht], hready⟩ le_rfl⟩
  | elsewhere k =>
    obtain ⟨hth, hhead, hbrk⟩ := hok
    obtain rfl := some.inj hs
    refine ⟨l, h.of_le (queue_congr h.queue (fun u _ => by rw [hth]) hhead hbrk) h.mem ?_ le_rfl⟩
    rw [hth]
    exact h.ready

end Due

end RingSys

/-! ## Whole runs -/

/-- A thread of the ring that stays ready is returned by one of the next `d + 1` calls of
`runqueue_next`, where `d` is its distance from the head, whatever happens to the other threads in
between.  Every call on a ring with a thread that can run returns the first such thread in the
order of the ring, and the head is then at the thread behind it. -/
theorem ready_thread_is_picked_in_turn {k : Kernel} {pre post : List Ptr} {t : Ptr} {th : Thread}
    (hq : k.Queue (pre ++ t :: post)) (hth : k.threads t = some th) (hready : th.state = .ready)
    {ops : List RingOp} {s : RingSys}
    (hrun : Run RingSys.step (RingSys.Ok t) ⟨k, []⟩ ops s) :
    (pre.length + 1 ≤ s.picks.length → t ∈ s.picks.take (pre.length + 1)) ∧
      s.kernel.runqueueNext.isSome ∧
      ∀ (k : Kernel) (l : List Ptr), k.Queue l → (∃ u ∈ l, k.Runnable u) →
        ∃ pre c post k', l = pre ++ c :: post ∧ (∀ u ∈ pre, ¬k.Runnable u) ∧ k.Runnable c ∧
          k.runqueueNext = some (k', c) ∧ k'.Queue (post ++ pre ++ [c]) ∧
          k'.runqueueHead = k.nextOf c := by
  have hdist : (pre ++ t :: post).idxOf t = pre.length := by
    rw [idxOf_append_of_notMem hq.not_mem_pre]
    simp
  obtain ⟨l, hdue⟩ : ∃ l, s.Due t pre.length l := by
    refine Run.invariant (I := fun s => ∃ l, RingSys.Due t pre.length s l)
      ⟨_, hq, by simp, ⟨th, hth, hready⟩, .inl (by simp [hdist])⟩ ?_ hrun
    exact fun _ _ _ ⟨_, h⟩ hok hs => h.step hok hs
  refine ⟨fun hlen => ?_, ?_, fun k l hq hrunnable => ?_⟩
  · exact hdue.bound.resolve_left (by omega)
  · obtain ⟨_, _, _, _, -, -, -, hcall, -⟩ := RingSys.runqueueNext_first hdue.queue
      ⟨t, hdue.mem, RingSys.runnable_of_ready hdue.ready⟩
    rw [hcall]
    rfl
  · obtain ⟨pre, c, post, k', hl, hpre, hc, hcall, hq', hhead, -⟩ :=
      RingSys.runqueueNext_first hq hrunnable
    exact ⟨pre, c, post, k', hl, hpre, hc, hcall, hq', hhead⟩

/-- Two threads that can run, the first one asleep until now. -/
def twoThreads : Kernel :=
  let th : Thread := ⟨0, .ready, 0, none, 0, 0, none, .user⟩
  { Kernel.boot none with
    threads := fun t =>
      if t = 1 then some { th with state := .blocked, sleepUntil := 5, next := some 2 }
      else if t = 2 then some { th with next := some 1 } else none
    runqueueHead := some 1
    brk := 3
    lapicTimerTicks := 7 }

/-- The second thread is at distance 1 and returned by the second call. -/
theorem ready_thread_is_picked_in_turn_second : ∃ s,
    Run RingSys.step (RingSys.Ok 2) ⟨twoThreads, []⟩ [.next, .remove 1, .next] s ∧
      s.picks.length = 2 ∧ 2 ∈ s.picks.take 2 := by
  obtain ⟨s, hrun, hlen⟩ : ∃ s,
      Run RingSys.step (RingSys.Ok 2) ⟨twoThreads, []⟩ [.next, .remove 1, .next] s ∧
        decide (s.picks.length = 2) = true :=
    Run.exists_of_exec
      (fun _ op => match op with
        | .next => true
        | .remove u => decide (u ≠ 2)
        | _ => false)
      (fun s op h => by cases op <;> simp_all [RingSys.Ok]) _ (by decide +kernel)
      (by decide +kernel)
  have hall : ∀ t ∈ [1] ++ [2], (twoThreads.threads t).isSome := by decide +kernel
  have hq : twoThreads.Queue ([1] ++ 2 :: []) :=
    ⟨⟨by decide, by decide +kernel⟩, rfl, fun t ht => isSome_iff_exists.1 (hall t ht),
      by decide⟩
  have hlen' : s.picks.length = 2 := of_decide_eq_true hlen
  exact ⟨s, hrun, hlen', (ready_thread_is_picked_in_turn hq rfl rfl hrun).1 hlen'.ge⟩

end CobjOs
