import CobjOs.Kernel.Frame
import Mathlib.Data.List.Perm.Subperm

/-!
# The run-queue routines on a ring

`Queue k l` says that the run queue of `k` is the ring `l`, listed from `runqueue_head` on.
On such a state each routine of the run queue returns: `runqueue_push` appends, `runqueue_remove`
erases, `runqueue_next` rotates the ring behind the first thread that can run, `thread_wake_pid`
wakes the members that wait.  What they do to threads is also stated where nothing is known about
the links.
-/

namespace CobjOs

open List Option

namespace Kernel

variable {k k' : Kernel} {l : List Ptr} {t b : Ptr} {th pv : Thread}

/-! ## Writes to threads -/

lemma modThread_eq (ht : k.threads t = some th) (f : Thread → Thread) :
    k.modThread t f = some (k.setThread t (f th)) := by
  rw [modThread, ht, map_some]

lemma setThread_self (ht : k.threads t = some th) : k.setThread t th = k := by
  unfold setThread
  rw [← ht, Function.update_eq_self]

@[simp]
lemma nextOf_setThread (k : Kernel) (t u : Ptr) (th : Thread) :
    (k.setThread t th).nextOf u = if u = t then th.next else k.nextOf u := by
  unfold nextOf
  by_cases hut : u = t
  · rw [if_pos hut, hut]
    simp
  · rw [if_neg hut]
    simp [hut]

lemma nextOf_eq (ht : k.threads t = some th) : k.nextOf t = th.next := by
  rw [nextOf, ht, bind_some]

lemma allocated_setThread {u : Ptr} (h : ∃ thu, k.threads u = some thu) :
    ∃ thu, (k.setThread t th).threads u = some thu := by
  by_cases hut : u = t
  · exact ⟨th, by simp [hut]⟩
  · simpa [hut] using h

/-! ## The ring -/

/-- The run queue is the ring `l`, listed from its head. -/
structure Queue (k : Kernel) (l : List Ptr) : Prop where
  ring : IsRing k.nextOf l
  head : k.runqueueHead = l.head?
  allocated : ∀ t ∈ l, ∃ th, k.threads t = some th
  below : ∀ t ∈ l, t < k.brk

namespace Queue

variable {post pre : List Ptr}

/-- A walk once around the queue never runs out of fuel. -/
lemma length_lt (h : Queue k l) : l.length < k.walkFuel := by
  have hsub : l ⊆ List.range k.brk := fun t ht => mem_range.mpr (h.below t ht)
  have hle := (List.Nodup.subperm h.ring.nodup hsub).length_le
  rw [length_range] at hle
  rw [walkFuel]
  omega

lemma wakes (h : Queue k l) (hw : Wakes anyWake k k') : Queue k' l where
  ring := h.ring.congr fun a _ => hw.nextOf a
  head := hw.head.trans h.head
  allocated t ht := by
    obtain ⟨th, hth⟩ := h.allocated t ht
    obtain ⟨th', hth', -⟩ := hw.thread hth
    exact ⟨th', hth'⟩
  below t ht := lt_of_lt_of_le (h.below t ht) hw.brk

lemma setThread (h : Queue k l) {th' : Thread} (ht : k.threads t = some th)
    (hnext : th'.next = th.next) : Queue (k.setThread t th') l where
  ring := h.ring.congr fun a _ => by
    rw [nextOf_setThread]
    by_cases hat : a = t
    · rw [if_pos hat, hnext, hat, nextOf_eq ht]
    · rw [if_neg hat]
  head := h.head
  allocated u hu := allocated_setThread (h.allocated u hu)
  below := h.below

lemma next_last (hq : Queue k (pre ++ [t])) (ht : k.threads t = some th) :
    ∃ n, th.next = some n ∧ k.runqueueHead = some n := by
  have hnext : th.next = (pre ++ [t]).head? := by
    rw [← nextOf_eq ht, hq.ring.next_eq]
    rfl
  obtain ⟨n, hn⟩ : ∃ n, (pre ++ [t]).head? = some n := by cases pre <;> simp
  exact ⟨n, hnext.trans hn, hq.head.trans hn⟩

lemma next_mid {q : Ptr} (hq : Queue k (pre ++ t :: q :: post))
    (ht : k.threads t = some th) : th.next = some q ∧ k.runqueueHead ≠ some q := by
  refine ⟨?_, ?_⟩
  · rw [← nextOf_eq ht, hq.ring.next_eq]
    simp
  · intro hh
    have hnd := hq.ring.nodup
    rw [hq.head] at hh
    cases pre with
    | nil =>
      simp only [nil_append, head?_cons, some.injEq] at hh
      simp [hh] at hnd
    | cons a pre' =>
      simp only [cons_append, head?_cons, some.injEq] at hh
      simp [hh] at hnd

lemma not_mem_pre (hq : Queue k (pre ++ t :: post)) : t ∉ pre := by
  intro ht
  have hnd := hq.ring.nodup
  rw [nodup_append] at hnd
  exact hnd.2.2 t ht t (by simp) rfl

end Queue

/-! ## `runqueue_push` -/

lemma relink_refl (t : Ptr) (th : Thread) : relink t th th := rfl

lemma relink_trans (t : Ptr) (a b c : Thread) (h : relink t a b) (h' : relink t b c) :
    relink t a c := by
  unfold relink at *
  rw [h', h]

/-- Pushing a thread that is ready already changes links only. -/
lemma runqueuePush_frame (hready : ∀ th, k.threads t = some th → th.state = .ready)
    (h : k.runqueuePush t = some k') : Frame relink k k' := by
  simp only [runqueuePush, bind, bind_eq_some_iff] at h
  obtain ⟨k₁, h₁, h⟩ := h
  have hk₁ : k₁ = k := by
    rw [modThread, map_eq_some_iff] at h₁
    obtain ⟨th, ht, rfl⟩ := h₁
    refine setThread_self ?_
    rw [ht, ← hready th ht]
  subst hk₁
  cases hhead : k₁.runqueueHead with
  | none =>
    simp only [hhead, bind_eq_some_iff, some.injEq] at h
    obtain ⟨k₂, h₂, rfl⟩ := h
    have hf : Frame relink k₁ k₂ := .modThread relink_refl (by intro _ _; rfl) h₂
    exact { hf with }
  | some head =>
    simp only [hhead, bind_eq_some_iff] at h
    obtain ⟨tail, -, k₂, h₂, h₃⟩ := h
    have hf : Frame relink k₁ k₂ := .modThread relink_refl (by intro _ _; rfl) h₂
    exact hf.comp (.modThread relink_refl (by intro _ _; rfl) h₃) relink_trans

lemma runqueuePush_queue (h : Queue k l) (ht : k.threads t = some th) (htl : t ∉ l)
    (hbrk : t < k.brk) : ∃ k', k.runqueuePush t = some k' ∧ Queue k' (l ++ [t]) := by
  have hk₁ : Queue (k.setThread t { th with state := .ready }) l := h.setThread ht rfl
  generalize hk₁' : k.setThread t { th with state := .ready } = k₁ at hk₁
  have ht₁ : ∃ th₁, k₁.threads t = some th₁ := ⟨_, by rw [← hk₁']; simp; rfl⟩
  have hbrk₁ : t < k₁.brk := by rw [← hk₁']; exact hbrk
  obtain ⟨th₁, ht₁⟩ := ht₁
  rw [runqueuePush, modThread_eq ht, hk₁']
  simp only [bind, bind_some]
  rcases eq_nil_or_concat l with rfl | ⟨m, b, rfl⟩
  · have hhead : k₁.runqueueHead = none := hk₁.head
    rw [hhead]
    simp only [modThread_eq ht₁, bind_some]
    refine ⟨_, rfl, ?_, rfl, ?_, ?_⟩
    · refine IsRing.singleton ?_
      show (k₁.setThread t _).nextOf t = some t
      rw [nextOf_setThread, if_pos rfl]
    · intro u hu
      rw [nil_append, mem_singleton] at hu
      exact ⟨_, by simp [hu]; rfl⟩
    · intro u hu
      rw [nil_append, mem_singleton] at hu
      exact hu ▸ hbrk₁
  · rw [concat_eq_append] at hk₁ htl ⊢
    obtain ⟨a, ha⟩ : ∃ a, (m ++ [b]).head? = some a := by cases m <;> simp
    have hhead : k₁.runqueueHead = some a := hk₁.head.trans ha
    have htail : walkTo k₁.nextOf a k₁.walkFuel a = some b := by
      refine walkTo_last hk₁.ring ha ?_
      have := hk₁.length_lt
      rw [length_append, length_singleton] at this
      omega
    obtain ⟨thb, hthb⟩ := hk₁.allocated b (by simp)
    have htb : t ≠ b := fun hb => htl (by simp [hb])
    have ht₂ : (k₁.setThread b { thb with next := some t }).threads t = some th₁ := by
      simp [htb, ht₁]
    rw [hhead]
    simp only [htail, modThread_eq hthb, modThread_eq ht₂, bind_some]
    refine ⟨_, rfl, ?_, ?_, ?_, ?_⟩
    · refine hk₁.ring.push htl ?_ ?_ ?_
      · simp [htb.symm]
      · simp [ha]
      · intro c hc
        have hcb : c ≠ b := by
          rintro rfl
          have hnd := hk₁.ring.nodup
          rw [nodup_append] at hnd
          exact hnd.2.2 c hc c (by simp) rfl
        have hct : c ≠ t := fun hct => htl (by simp [← hct, hc])
        simp [hcb, hct]
    · rw [head?_append, ha]
      exact hhead
    · intro u hu
      refine allocated_setThread (allocated_setThread ?_)
      rw [mem_append, mem_singleton] at hu
      rcases hu with hu | rfl
      · exact hk₁.allocated u hu
      · exact ⟨th₁, ht₁⟩
    · intro u hu
      rw [mem_append, mem_singleton] at hu
      rcases hu with hu | rfl
      · exact hk₁.below u hu
      · exact hbrk₁

/-! ## `runqueue_remove` -/

/-- The writes of `runqueue_remove` once the member before `t` is found. -/
def unlinkAfter (k : Kernel) (prev t : Ptr) (pv th : Thread) : Kernel :=
  ((k.setThread prev { pv with next := th.next }).setThread t { th with next := none }).setHead
    (if k.runqueueHead = some t then th.next else k.runqueueHead)

lemma unlinkAfter_nextOf (u : Ptr) :
    (k.unlinkAfter b t pv th).nextOf u =
      if u = t then none else if u = b then th.next else k.nextOf u := by
  show ((k.setThread b _).setThread t _).nextOf u = _
  rw [nextOf_setThread, nextOf_setThread]

lemma runqueueRemove_of_findPrev {a : Ptr} (hhead : k.runqueueHead = some a)
    (hne : ¬(a = t ∧ k.nextOf a = some a))
    (hfind : findPrev k.nextOf a t k.walkFuel a = some (some b))
    (ht : k.threads t = some th) (hb : k.threads b = some pv) (hbt : b ≠ t) :
    k.runqueueRemove t = some (k.unlinkAfter b t pv th) := by
  have ht' : (k.setThread b { pv with next := th.next }).threads t = some th := by
    simp [hbt.symm, ht]
  have ht'' : ((k.setThread b { pv with next := th.next }).setHead th.next).threads t
      = some th := ht'
  unfold runqueueRemove
  rw [hhead]
  simp only [hfind, ht, modThread_eq hb, bind, bind_some]
  rw [if_neg hne, unlinkAfter, setThread_runqueueHead]
  by_cases hh : k.runqueueHead = some t
  · rw [if_pos hh, if_pos hh, modThread_eq ht'']
    rfl
  · rw [if_neg hh, if_neg hh, modThread_eq ht']
    rfl

lemma Queue.unlinkAfter {l' : List Ptr} (h : Queue k l)
    (hring : IsRing (k.unlinkAfter b t pv th).nextOf l') (hsub : ∀ u ∈ l', u ∈ l)
    (hhead : (k.unlinkAfter b t pv th).runqueueHead = l'.head?) :
    Queue (k.unlinkAfter b t pv th) l' where
  ring := hring
  head := hhead
  allocated u hu := allocated_setThread (allocated_setThread (h.allocated u (hsub u hu)))
  below u hu := h.below u (hsub u hu)

lemma ring_unlinkAfter {m : List Ptr}
    (h : IsRing k.nextOf (t :: (m ++ [b]))) (hth : k.threads t = some th) :
    IsRing (k.unlinkAfter b t pv th).nextOf (m ++ [b]) := by
  obtain ⟨ht, hnd⟩ := nodup_cons.1 h.nodup
  refine h.unlink ?_ fun u hu => ?_
  · have hbt : b ≠ t := fun hbt => ht (by simp [hbt])
    rw [unlinkAfter_nextOf, if_neg hbt, if_pos rfl, nextOf_eq hth]
  · have hut : u ≠ t := fun hut => ht (by simp [← hut, hu])
    have hub : u ≠ b := fun hub => (nodup_append.1 hnd).2.2 u hu b (by simp) hub
    rw [unlinkAfter_nextOf, if_neg hut, if_neg hub]

/-- The head of several: the search goes once around, and the head moves on. -/
lemma runqueueRemove_first {m : List Ptr} (h : Queue k (t :: (m ++ [b]))) :
    ∃ k', k.runqueueRemove t = some k' ∧ Queue k' (m ++ [b]) := by
  have hhead : k.runqueueHead = some t := h.head
  have ht := (nodup_cons.1 h.ring.nodup).1
  obtain ⟨th, hth⟩ := h.allocated t (by simp)
  obtain ⟨pv, hpv⟩ := h.allocated b (by simp)
  have hnext : k.nextOf t = (m ++ [b]).head? := by
    have hfirst : IsRing k.nextOf ([] ++ t :: (m ++ [b])) := h.ring
    rw [hfirst.next_eq]
    cases m <;> simp
  have hne : k.nextOf t ≠ some t := by
    rw [hnext]
    exact fun hfirst => ht (mem_of_mem_head? hfirst)
  have hfind : findPrev k.nextOf t t k.walkFuel t = some (some b) := by
    refine findPrev_first h.ring ?_
    have hlen := h.length_lt
    simp only [length_cons, length_append, length_nil] at hlen
    omega
  refine ⟨_, runqueueRemove_of_findPrev hhead (fun hself => hne hself.2) hfind hth hpv
    fun hbt => ht (by simp [hbt]), ?_⟩
  refine h.unlinkAfter (ring_unlinkAfter h.ring hth) (fun u hu => mem_cons_of_mem t hu) ?_
  show (if k.runqueueHead = some t then th.next else _) = _
  rw [if_pos hhead, ← nextOf_eq hth, hnext]

lemma runqueueRemove_later {m r : List Ptr} (h : Queue k (m ++ b :: t :: r)) :
    ∃ k', k.runqueueRemove t = some k' ∧ Queue k' (m ++ b :: r) := by
  obtain ⟨a, ha⟩ : ∃ a, (m ++ [b]).head? = some a := by cases m <;> simp
  have hhead : k.runqueueHead = some a := by
    rw [h.head]
    cases m <;> simpa using ha
  have hrot : IsRing k.nextOf (t :: ((r ++ m) ++ [b])) := by
    have hsplit : IsRing k.nextOf ((m ++ [b]) ++ t :: r) := by simpa using h.ring
    simpa using hsplit.rotate
  have ht := (nodup_cons.1 hrot.nodup).1
  have hat : a ≠ t := by
    rintro rfl
    have hmem := mem_of_mem_head? ha
    exact ht (by rw [append_assoc]; exact mem_append_right _ hmem)
  obtain ⟨th, hth⟩ := h.allocated t (by simp)
  obtain ⟨pv, hpv⟩ := h.allocated b (by simp)
  have hfind : findPrev k.nextOf a t k.walkFuel a = some (some b) := by
    refine findPrev_later h.ring ha ?_
    have hlen := h.length_lt
    simp only [length_cons, length_append] at hlen
    omega
  refine ⟨_, runqueueRemove_of_findPrev hhead (fun hself => hat hself.1) hfind hth hpv
    fun hbt => ht (by simp [hbt]), ?_⟩
  refine h.unlinkAfter ?_ (fun u hu => ?_) ?_
  · have hring : IsRing (k.unlinkAfter b t pv th).nextOf (r ++ (m ++ [b])) := by
      simpa using ring_unlinkAfter hrot hth
    simpa using hring.rotate
  · simp only [mem_append, mem_cons] at hu ⊢
    tauto
  · show (if k.runqueueHead = some t then th.next else k.runqueueHead) = _
    rw [if_neg (by simpa [hhead] using hat), hhead, ← ha]
    cases m <;> simp

lemma runqueueRemove_queue (h : Queue k l) (t : Ptr) :
    ∃ k', k.runqueueRemove t = some k' ∧ Queue k' (l.erase t) := by
  by_cases hmem : t ∈ l
  · obtain ⟨pre, post, rfl, hpre⟩ := eq_append_cons_of_mem hmem
    rw [erase_append_right _ hpre, erase_cons_head]
    rcases eq_nil_or_concat pre with rfl | ⟨m, b, rfl⟩
    · rcases eq_nil_or_concat post with rfl | ⟨m, b, rfl⟩
      · -- the only member: the queue becomes empty
        have hhead : k.runqueueHead = some t := h.head
        have hself : k.nextOf t = some t := by simpa using h.ring.next_eq
        refine ⟨k.setHead none, ?_, .nil, rfl, by simp, by simp⟩
        rw [runqueueRemove, hhead]
        simp only [hself, and_self, if_true]
      · rw [concat_eq_append] at h ⊢
        exact runqueueRemove_first h
    · simpa using runqueueRemove_later (m := m) (b := b) (by simpa using h)
  · -- not queued: the search comes back to the head
    refine (erase_of_not_mem hmem).symm ▸ ⟨k, ?_, h⟩
    cases l with
    | nil =>
      have hhead : k.runqueueHead = none := h.head
      rw [runqueueRemove, hhead]
    | cons a rest =>
      have hhead : k.runqueueHead = some a := h.head
      have hfind : findPrev k.nextOf a t k.walkFuel a = some none := by
        refine findPrev_absent h.ring hmem ?_
        have hlen := h.length_lt
        rw [length_cons] at hlen
        omega
      have hat : a ≠ t := fun hat => hmem (by simp [hat])
      rw [runqueueRemove, hhead]
      simp [hfind, hat]

/-- What `runqueue_remove` writes, whatever the links are: the head and two links at most. -/
lemma runqueueRemove_cases (h : k.runqueueRemove t = some k') : (∃ hd, k' = k.setHead hd) ∨
    ∃ prev n hd k₁, k.modThread prev (fun pv => { pv with next := n }) = some k₁ ∧
      (k₁.setHead hd).modThread t (fun th => { th with next := none }) = some k' := by
  unfold runqueueRemove at h
  cases hhead : k.runqueueHead with
  | none =>
    rw [hhead, some.injEq] at h
    exact .inl ⟨k.runqueueHead, h.symm⟩
  | some head =>
    simp only [hhead] at h
    split_ifs at h
    · rw [some.injEq] at h
      exact .inl ⟨none, h.symm⟩
    · simp only [bind, bind_eq_some_iff] at h
      obtain ⟨found, -, h⟩ := h
      cases found with
      | none =>
        simp only [some.injEq] at h
        exact .inl ⟨k.runqueueHead, h.symm⟩
      | some prev =>
        simp only [bind_eq_some_iff] at h
        obtain ⟨th, -, k₁, h₁, h₂⟩ := h
        split_ifs at h₂
        · exact .inr ⟨prev, th.next, th.next, k₁, h₁, h₂⟩
        · exact .inr ⟨prev, th.next, k₁.runqueueHead, k₁, h₁, h₂⟩

lemma runqueueRemove_frame (h : k.runqueueRemove t = some k') : Frame relink k k' := by
  rcases runqueueRemove_cases h with ⟨hd, rfl⟩ | ⟨prev, n, hd, k₁, h₁, h₂⟩
  · exact .of_eq relink_refl le_rfl (fun _ => rfl) rfl
  · have hf₁ : Frame relink k k₁ := .modThread relink_refl (by intro _ _; rfl) h₁
    have hf₂ : Frame relink k (k₁.setHead hd) := { hf₁ with }
    exact hf₂.comp (.modThread relink_refl (by intro _ _; rfl) h₂) relink_trans

end Kernel

/-! ## `runqueue_next` -/

namespace Thread

variable {th : Thread} {ticks : ℕ}

lemma expire_of_not_ready (h : (th.expire ticks).state ≠ .ready) : th.expire ticks = th := by
  unfold expire at *
  split_ifs at h ⊢ with hc
  · simp at h
  · rfl

lemma expire_next : (th.expire ticks).next = th.next := by
  unfold expire
  split_ifs <;> rfl

/-- A thread that is ready after the sleep test was ready, or its time had come. -/
lemma expire_ready (h : (th.expire ticks).state = .ready) :
    th.expire ticks = th ∧ th.state = .ready ∨
      th.state = .blocked ∧ 0 < th.sleepUntil ∧ th.sleepUntil ≤ ticks ∧
        th.expire ticks = { th with state := .ready, sleepUntil := 0 } := by
  unfold expire at *
  split_ifs at h ⊢ with hc
  · exact .inr ⟨hc.1, hc.2.1, hc.2.2, rfl⟩
  · exact .inl ⟨rfl, h⟩

end Thread

namespace Kernel

variable {k k' : Kernel} {l : List Ptr} {t : Ptr} {th : Thread}

/-- `runqueue_next` would pick the thread when it comes to it. -/
def Runnable (k : Kernel) (t : Ptr) : Prop :=
  ∃ th, k.threads t = some th ∧ (th.expire k.lapicTimerTicks).state = .ready

/-- The state after `runqueue_next` has picked the thread `c`, found as `th`. -/
def picked (k : Kernel) (c : Ptr) (th : Thread) : Kernel :=
  (k.setThread c (th.expire k.lapicTimerTicks)).setHead th.next

lemma runqueueNextLoop_ready {fuel : ℕ} (ht : k.threads t = some th)
    (hr : (th.expire k.lapicTimerTicks).state = .ready) :
    runqueueNextLoop (fuel + 1) k t = some (k.picked t th, t) := by
  rw [runqueueNextLoop, ht]
  simp only [bind, bind_some, hr, if_true]
  rw [Thread.expire_next]
  rfl

lemma runqueueNextLoop_skip {fuel : ℕ} {n : Ptr} (ht : k.threads t = some th)
    (hr : (th.expire k.lapicTimerTicks).state ≠ .ready) (hn : th.next = some n) :
    runqueueNextLoop (fuel + 1) k t =
      if k.runqueueHead = some n then some (k, k.idleThread) else runqueueNextLoop fuel k n := by
  rw [runqueueNextLoop, ht]
  simp only [bind, bind_some, if_neg hr]
  rw [Thread.expire_of_not_ready hr, setThread_self ht, hn]
  rfl

/-- What `runqueue_next` returns, whatever the links are: a thread that can run, the idle
thread, or the current thread when the queue is empty. -/
lemma runqueueNext_cases {n : Ptr} (h : k.runqueueNext = some (k', n)) :
    (∃ th, k.threads n = some th ∧ (th.expire k.lapicTimerTicks).state = .ready ∧
        k' = k.picked n th) ∨
      k' = k ∧ (n = k.idleThread ∨ n = k.currThread) := by
  have hloop : ∀ fuel c, runqueueNextLoop fuel k c = some (k', n) →
      (∃ th, k.threads n = some th ∧ (th.expire k.lapicTimerTicks).state = .ready ∧
        k' = k.picked n th) ∨ k' = k ∧ n = k.idleThread := by
    intro fuel
    induction fuel with
    | zero => intro c hc; simp [runqueueNextLoop] at hc
    | succ fuel ih =>
      intro c hc
      cases hth : k.threads c with
      | none => simp [runqueueNextLoop, hth] at hc
      | some th =>
        by_cases hr : (th.expire k.lapicTimerTicks).state = .ready
        · rw [runqueueNextLoop_ready hth hr, some.injEq, Prod.mk.injEq] at hc
          obtain ⟨rfl, rfl⟩ := hc
          exact .inl ⟨th, hth, hr, rfl⟩
        · cases hn : th.next with
          | none =>
            rw [runqueueNextLoop, hth] at hc
            simp [if_neg hr, Thread.expire_next, hn] at hc
          | some m =>
            rw [runqueueNextLoop_skip hth hr hn] at hc
            split_ifs at hc
            · rw [some.injEq, Prod.mk.injEq] at hc
              exact .inr ⟨hc.1.symm, hc.2.symm⟩
            · exact ih m hc
  unfold runqueueNext at h
  cases hhead : k.runqueueHead with
  | none =>
    rw [hhead, some.injEq, Prod.mk.injEq] at h
    exact .inr ⟨h.1.symm, .inr h.2.symm⟩
  | some head =>
    rw [hhead] at h
    rcases hloop _ _ h with hp | ⟨hk, hn⟩
    · exact .inl hp
    · exact .inr ⟨hk, .inl hn⟩

/-- The scan of a ring: everything before the thread picked could not run. -/
lemma runqueueNextLoop_queue (hq : Queue k l) :
    ∀ (fuel : ℕ) (pre post : List Ptr) (p : Ptr), l = pre ++ p :: post →
      (∀ u ∈ pre, ¬k.Runnable u) → post.length < fuel →
      (∃ pre' c post' th, l = pre' ++ c :: post' ∧ (∀ u ∈ pre', ¬k.Runnable u) ∧
          k.threads c = some th ∧ (th.expire k.lapicTimerTicks).state = .ready ∧
          runqueueNextLoop fuel k p = some (k.picked c th, c)) ∨
        (∀ u ∈ l, ¬k.Runnable u) ∧ runqueueNextLoop fuel k p = some (k, k.idleThread)
  | 0, _, _, _, _, _, hfuel => absurd hfuel (Nat.not_lt_zero _)
  | fuel + 1, pre, post, p, hl, hpre, hfuel => by
      obtain ⟨th, hth⟩ := hq.allocated p (by simp [hl])
      by_cases hr : (th.expire k.lapicTimerTicks).state = .ready
      · exact .inl ⟨pre, p, post, th, hl, hpre, hth, hr, runqueueNextLoop_ready hth hr⟩
      have hpre' : ∀ u ∈ pre ++ [p], ¬k.Runnable u := by
        intro u hu
        rw [mem_append, mem_singleton] at hu
        rcases hu with hu | rfl
        · exact hpre u hu
        · rintro ⟨th', hth', hr'⟩
          exact hr (mem_unique hth hth' ▸ hr')
      cases post with
      | nil =>
        obtain ⟨n, hn, hhead⟩ := (hl ▸ hq).next_last hth
        exact .inr ⟨hl ▸ hpre', by rw [runqueueNextLoop_skip hth hr hn, if_pos hhead]⟩
      | cons q post =>
        obtain ⟨hn, hhead⟩ := (hl ▸ hq).next_mid hth
        rw [runqueueNextLoop_skip hth hr hn, if_neg hhead]
        exact runqueueNextLoop_queue hq fuel (pre ++ [p]) post q (by simpa using hl) hpre'
          (by simpa using hfuel)

/-- On a ring that is not empty `runqueue_next` picks the first thread that can run, and the
idle thread when there is none. -/
lemma runqueueNext_queue (hq : Queue k l) (hl : l ≠ []) :
    (∃ pre c post th, l = pre ++ c :: post ∧ (∀ u ∈ pre, ¬k.Runnable u) ∧
        k.threads c = some th ∧ (th.expire k.lapicTimerTicks).state = .ready ∧
        k.runqueueNext = some (k.picked c th, c)) ∨
      (∀ u ∈ l, ¬k.Runnable u) ∧ k.runqueueNext = some (k, k.idleThread) := by
  cases l with
  | nil => exact absurd rfl hl
  | cons a rest =>
    have hhead : k.runqueueHead = some a := hq.head
    have hfuel : rest.length < k.walkFuel := by
      have := hq.length_lt
      rw [length_cons] at this
      omega
    rw [runqueueNext, hhead]
    exact runqueueNextLoop_queue hq k.walkFuel [] rest a rfl (by simp) hfuel

lemma Queue.picked {pre post : List Ptr} {c : Ptr} (hq : Queue k (pre ++ c :: post))
    (hth : k.threads c = some th) : Queue (k.picked c th) (post ++ pre ++ [c]) := by
  have hset : Queue (k.setThread c (th.expire k.lapicTimerTicks)) (pre ++ c :: post) :=
    hq.setThread hth Thread.expire_next
  have hrot : IsRing (k.setThread c (th.expire k.lapicTimerTicks)).nextOf
      (post ++ pre ++ [c]) := by
    have hr : IsRing (k.setThread c (th.expire k.lapicTimerTicks)).nextOf
        ((pre ++ [c]) ++ post) := by simpa using hset.ring
    simpa using hr.rotate
  refine ⟨hrot, ?_, ?_, ?_⟩
  · show th.next = (post ++ pre ++ [c]).head?
    rw [← nextOf_eq hth, hq.ring.next_eq]
  · intro u hu
    refine hset.allocated u ?_
    simp only [mem_append, mem_cons, not_mem_nil, or_false] at hu ⊢
    tauto
  · intro u hu
    refine hset.below u ?_
    simp only [mem_append, mem_cons, not_mem_nil, or_false] at hu ⊢
    tauto

/-! ## `thread_wake_pid` -/

end Kernel

namespace Thread

variable {th : Thread} {pid : ℕ}

lemma wakePid_next : (th.wakePid pid).next = th.next := by
  unfold wakePid
  split_ifs <;> rfl

lemma wakePid_wakePid : (th.wakePid pid).wakePid pid = th.wakePid pid := by
  unfold wakePid
  by_cases h : th.state = .blocked ∧ th.waitingFor = pid
  · rw [if_pos h]
    simp
  · rw [if_neg h, if_neg h]

end Thread

namespace Kernel

variable {k k' : Kernel} {l : List Ptr} {t : Ptr} {th : Thread} {pid : ℕ}

lemma exitWake_refl (pid : ℕ) (t : Ptr) (th : Thread) : exitWake pid t th th := .inl rfl

lemma exitWake_trans (t : Ptr) (a b c : Thread) (h : exitWake pid t a b)
    (h' : exitWake pid t b c) : exitWake pid t a c := by
  rcases h with rfl | rfl
  · exact h'
  · rcases h' with rfl | rfl
    · exact .inr rfl
    · exact .inr Thread.wakePid_wakePid

lemma wakes_threadWakePidLoop : ∀ (fuel : ℕ) (k : Kernel) (t : Ptr),
    threadWakePidLoop pid fuel k t = some k' → Wakes (exitWake pid) k k'
  | 0, _, _, h => by simp [threadWakePidLoop] at h
  | fuel + 1, k, t, h => by
      simp only [threadWakePidLoop, bind, bind_eq_some_iff] at h
      obtain ⟨th, hth, n, -, h⟩ := h
      have hset : Wakes (exitWake pid) k (k.setThread t (th.wakePid pid)) :=
        ⟨.setThread (exitWake_refl pid) hth (.inr rfl), rfl⟩
      split_ifs at h
      · rw [some.injEq] at h
        exact h ▸ hset
      · exact hset.comp (wakes_threadWakePidLoop fuel _ n h) exitWake_trans

/-- Whatever the links are, `thread_wake_pid` wakes threads that wait for the process id. -/
lemma wakes_threadWakePid (h : k.threadWakePid pid = some k') : Wakes (exitWake pid) k k' := by
  unfold threadWakePid at h
  cases hhead : k.runqueueHead with
  | none =>
    rw [hhead, some.injEq] at h
    exact h ▸ .refl (exitWake_refl pid) k
  | some head =>
    rw [hhead] at h
    exact wakes_threadWakePidLoop _ _ _ h

/-- The members of `s` that wait for `pid` woken. -/
def wokenIn (k : Kernel) (pid : ℕ) (s : List Ptr) : Kernel :=
  { k with threads := fun t => if t ∈ s then (k.threads t).map (Thread.wakePid pid)
      else k.threads t }

lemma wokenIn_snoc {s : List Ptr} (ht : k.threads t = some th) :
    (k.wokenIn pid s).setThread t (th.wakePid pid) = k.wokenIn pid (s ++ [t]) := by
  unfold wokenIn setThread
  congr 1
  funext u
  by_cases hut : u = t
  · simp [hut, ht]
  · simp [hut]

lemma threadWakePidLoop_queue (hq : Queue k l) :
    ∀ (fuel : ℕ) (pre post : List Ptr) (p : Ptr), l = pre ++ p :: post → post.length < fuel →
      threadWakePidLoop pid fuel (k.wokenIn pid pre) p = some (k.wokenIn pid l)
  | 0, _, _, _, _, hfuel => absurd hfuel (Nat.not_lt_zero _)
  | fuel + 1, pre, post, p, hl, hfuel => by
      obtain ⟨th, hth⟩ := hq.allocated p (by simp [hl])
      have hp : p ∉ pre := (hl ▸ hq).not_mem_pre
      have hth' : (k.wokenIn pid pre).threads p = some th := by simp [wokenIn, hp, hth]
      rw [threadWakePidLoop, hth']
      simp only [bind, bind_some]
      rw [wokenIn_snoc hth, Thread.wakePid_next]
      cases post with
      | nil =>
        obtain ⟨n, hn, hhead⟩ := (hl ▸ hq).next_last hth
        rw [hn, ← hl]
        exact if_pos hhead
      | cons q post =>
        obtain ⟨hn, hhead⟩ := (hl ▸ hq).next_mid hth
        rw [hn]
        refine (if_neg hhead).trans ?_
        exact threadWakePidLoop_queue hq fuel (pre ++ [p]) post q (by simpa using hl)
          (by simpa using hfuel)

/-- On a ring `thread_wake_pid` wakes every member that waits for the process id. -/
lemma threadWakePid_queue (hq : Queue k l) (pid : ℕ) :
    k.threadWakePid pid = some (k.wokenIn pid l) := by
  have hnil : k.wokenIn pid [] = k := by simp [wokenIn]
  cases l with
  | nil =>
    have hhead : k.runqueueHead = none := hq.head
    rw [threadWakePid, hhead, hnil]
  | cons a rest =>
    have hhead : k.runqueueHead = some a := hq.head
    have hfuel : rest.length < k.walkFuel := by
      have := hq.length_lt
      rw [length_cons] at this
      omega
    rw [threadWakePid, hhead]
    show threadWakePidLoop pid k.walkFuel k a = _
    rw [← threadWakePidLoop_queue hq k.walkFuel [] rest a rfl hfuel, hnil]

end Kernel

end CobjOs
