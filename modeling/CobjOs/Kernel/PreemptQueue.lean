import CobjOs.Kernel.PreemptSpec

/-!
# The run queue under the timer

A thread that is being killed leaves the queue one statement before it is marked dead, so
between the statements the queue no longer holds every living thread.  What it keeps is the
other half: it is a ring that holds the idle thread and no dead one.  That is enough for
`schedule()` never to come back to a blocked thread.
-/

namespace CobjOs

open Function Kernel List Option

/-- The queue is a ring of living threads, the idle thread among them. -/
structure LiveQueue (k : Kernel) (l : List Ptr) : Prop where
  queue : k.Queue l
  idle : k.idleThread ∈ l
  live : ∀ t ∈ l, ∃ th, k.threads t = some th ∧ th.state ≠ .dead

/-- The current thread is not blocked. -/
def CurrFree (k : Kernel) : Prop :=
  ∀ th, k.threads k.currThread = some th → th.state ≠ .blocked

namespace LiveQueue

variable {k k' k₁ : Kernel} {l : List Ptr} {t : Ptr} {th : Thread}

lemma frame {T : Ptr → Thread → Thread → Prop} {l' : List Ptr} (h : LiveQueue k l)
    (hf : Frame T k k') (hq : k'.Queue l') (hidle : k.idleThread ∈ l')
    (hsub : ∀ t ∈ l', t ∈ l) (hT : ∀ t a b, T t a b → b.state = .dead → a.state = .dead) :
    LiveQueue k' l' := by
  refine ⟨hq, by rw [hf.idle]; exact hidle, ?_⟩
  intro t ht
  obtain ⟨th, hth, hd⟩ := h.live t (hsub t ht)
  obtain ⟨th', hth', hab⟩ := hf.thread hth
  exact ⟨th', hth', fun hd' => hd (hT _ _ _ hab hd')⟩

lemma wakes (h : LiveQueue k l) (hw : Wakes anyWake k k') : LiveQueue k' l :=
  h.frame hw.toFrame (h.queue.wakes hw) h.idle (fun _ ht => ht)
    fun _ _ _ hab => (Thread.Woken.dead_iff hab).mp

/-- Changes outside the threads, the queue and the idle thread. -/
lemma congr (h : LiveQueue k l) (hth : k'.threads = k.threads)
    (hhead : k'.runqueueHead = k.runqueueHead) (hidle : k'.idleThread = k.idleThread)
    (hbrk : k.brk ≤ k'.brk) : LiveQueue k' l := by
  refine ⟨⟨?_, hhead.trans h.queue.head, ?_, ?_⟩, hidle ▸ h.idle, ?_⟩
  · refine h.queue.ring.congr fun u _ => ?_
    rw [Kernel.nextOf, hth, Kernel.nextOf]
  · rw [hth]
    exact h.queue.allocated
  · exact fun u hu => lt_of_lt_of_le (h.queue.below u hu) hbrk
  · rw [hth]
    exact h.live

lemma setThread (h : LiveQueue k l) {th' : Thread} (ht : k.threads t = some th)
    (hnext : th'.next = th.next) (hd : t ∈ l → th'.state ≠ .dead) :
    LiveQueue (k.setThread t th') l := by
  refine ⟨h.queue.setThread ht hnext, h.idle, ?_⟩
  intro u hu
  by_cases hut : u = t
  · subst hut
    exact ⟨th', update_self _ _ _, hd hu⟩
  · obtain ⟨thu, hthu, hdu⟩ := h.live u hu
    exact ⟨thu, by rw [setThread_threads, update_of_ne hut]; exact hthu, hdu⟩

lemma remove (h : LiveQueue k l) (hne : t ≠ k.idleThread)
    (hr : k.runqueueRemove t = some k') : LiveQueue k' (l.erase t) := by
  obtain ⟨k₂, hk₂, hq⟩ := runqueueRemove_queue h.queue t
  obtain rfl := mem_unique hr hk₂
  refine h.frame (runqueueRemove_frame hr) hq ?_ (fun _ ht => mem_of_mem_erase ht)
    fun t a b hab => (relink_dead t a b hab).mp
  rw [mem_erase_of_ne (Ne.symm hne)]
  exact h.idle

lemma markDead (h : LiveQueue k l) (hnl : t ∉ l) (hd : k.markDead t = some k') :
    LiveQueue k' l := by
  obtain ⟨th, ht, rfl⟩ := modThread_eq_some hd
  exact h.setThread ht rfl fun hl => absurd hl hnl

/-- `schedule()` does not come back to a blocked thread. -/
lemma currFree_schedule (h : LiveQueue k l) (hwf : Wf k.procList k)
    (hs : k.schedule = some k') : CurrFree k' := by
  obtain ⟨thi, hthi, -, hai⟩ := hwf.idle
  obtain ⟨-, -, -, hrun⟩ := schedule_frame ⟨thi, hthi, hai⟩ hs
  intro th ht
  by_cases hc : k'.currThread = k.currThread
  swap
  · obtain ⟨th', ht', hr⟩ := hrun hc
    rw [ht, some.injEq] at ht'
    simp [ht', hr]
  have hl : l ≠ [] := fun hl => by simpa [hl] using h.idle
  simp only [Kernel.schedule, bind, bind_eq_some_iff] at hs
  obtain ⟨⟨k₁, n⟩, hn, hs⟩ := hs
  split_ifs at hs with hnc
  · obtain rfl := some.inj hs
    rcases runqueueNext_queue h.queue hl with
      ⟨pre, c, post, thc, -, -, hthc, hready, heq⟩ | ⟨-, heq⟩
    · obtain ⟨rfl, rfl⟩ := Prod.mk.inj (mem_unique hn heq)
      rw [← hnc] at ht
      simp only [Kernel.picked, setHead_threads, setThread_threads,
        update_self, some.injEq] at ht
      simp [← ht, hready]
    · obtain ⟨rfl, rfl⟩ := Prod.mk.inj (mem_unique hn heq)
      rw [← hnc, hthi, some.injEq] at ht
      rcases hai with hai | hai <;> simp [← ht, hai]
  · -- a switch was made, so the current thread did change
    simp only [Kernel.switchTo, bind, bind_eq_some_iff, some.injEq] at hs
    obtain ⟨prev, -, k₂, -, rfl⟩ := hs
    rcases runqueueNext_cases hn with ⟨thc, -, -, rfl⟩ | ⟨rfl, -⟩
    · exact absurd hc hnc
    · exact absurd hc hnc

lemma schedule (h : LiveQueue k l) (hwf : Wf k.procList k) (hs : k.schedule = some k') :
    ∃ l', LiveQueue k' l' ∧ ∀ t ∈ l', t ∈ l := by
  obtain ⟨thi, hthi, -, hai⟩ := hwf.idle
  obtain ⟨k₁, hf, hk', -⟩ := schedule_frame ⟨thi, hthi, hai⟩ hs
  obtain ⟨l', hq, hmem⟩ := schedule_queue h.queue hs
  have hidle : k'.idleThread = k.idleThread := by
    rw [hk']
    exact hf.idle
  refine ⟨l', ⟨hq, by rw [hidle, hmem]; exact h.idle, ?_⟩, fun t ht => (hmem t).mp ht⟩
  intro t ht
  obtain ⟨th, hth, hd⟩ := h.live t ((hmem t).mp ht)
  obtain ⟨th', hth', hab⟩ := hf.thread hth
  refine ⟨th', ?_, fun hd' => hd ((moved.dead_iff hab).mp hd')⟩
  rw [hk']
  exact hth'

lemma procCreate (h : LiveQueue k l) (hwf : Wf k.procList k) {entry pid : ℕ}
    (hc : k.procCreate entry = some (k', pid)) :
    ∃ l', LiveQueue k' l' ∧ ∀ t ∈ l', t ∈ l ∨ k.brk ≤ t := by
  rcases h.queue.procCreate hc with rfl | hq
  · exact ⟨l, h, fun _ ht => .inl ht⟩
  obtain ⟨-, hidle, hold⟩ := procCreate_old hwf hc
  refine ⟨l ++ [k.brk + 1], ⟨hq, by rw [hidle]; exact mem_append_left _ h.idle, ?_⟩, ?_⟩
  · intro t ht
    rcases mem_append.mp ht with ht | ht
    · obtain ⟨th, hth, hd⟩ := h.live t ht
      obtain ⟨th', hth', hab⟩ := hold hth
      exact ⟨th', hth', fun hd' => hd ((relink_dead _ _ _ hab).mp hd')⟩
    · rw [mem_singleton] at ht
      obtain ⟨th', hth'⟩ := hq.allocated t (by simp [ht])
      refine ⟨th', hth', ?_⟩
      -- the new thread is ready, and pushing it changes links only
      rcases procCreate_frame hc with rfl | ⟨v, brk, fds, -, hf⟩
      · have hlt := hwf.thread_lt hth'
        rw [ht] at hlt
        exact absurd hlt (Nat.not_lt.mpr (Nat.le_succ _))
      · obtain ⟨th, hth, hab⟩ := hf.thread_back hth'
        rw [ht, created_threads, update_self, some.injEq] at hth
        intro hd'
        have hd := (relink_dead _ _ _ hab).mp hd'
        rw [← hth] at hd
        simp at hd
  · intro t ht
    rcases mem_append.mp ht with ht | ht
    · exact .inl ht
    · rw [mem_singleton.mp ht]
      exact .inr (Nat.le_succ _)

lemma reaped (h : LiveQueue k l) (hr : Reaped k k') (rest : List Ptr) :
    LiveQueue (k'.setProcList rest) l := by
  refine ⟨h.queue.reaped hr rest h.live, ?_, ?_⟩
  · show k'.idleThread ∈ l
    rw [hr.rest]
    exact h.idle
  · intro t ht
    obtain ⟨th, hth, hd⟩ := h.live t ht
    exact ⟨th, hr.keep hth hd, hd⟩

lemma retires (h : LiveQueue k l) (hr : k.Retires t k') :
    ∃ l', LiveQueue k' l' ∧ ∀ u ∈ l', u ∈ l := by
  obtain ⟨k₁, k₂, k₃, hw₁, hne, hrem, hdead, hw₂⟩ := hr.parts
  have h₁ := h.wakes hw₁
  have h₃ := (h₁.remove hne hrem).markDead h₁.queue.ring.nodup.not_mem_erase hdead
  exact ⟨_, h₃.wakes hw₂, fun _ hu => mem_of_mem_erase hu⟩

lemma runqueueNext (h : LiveQueue k l) {n : Ptr} (hn : k.runqueueNext = some (k', n)) :
    ∃ l', LiveQueue k' l' ∧ ∀ t ∈ l', t ∈ l := by
  obtain ⟨l', hq, hperm⟩ := runqueueNext_queue_perm h.queue hn
  exact ⟨l', h.frame (runqueueNext_frame hn) hq ((hperm _).mpr h.idle)
    (fun t ht => (hperm t).mp ht) fun _ _ _ hab => hab.dead_iff.mp, fun t ht => (hperm t).mp ht⟩

/-- A living thread of the queue returns to user mode. -/
lemma toUser (h : LiveQueue k l) (ht : k.threads t = some th) :
    LiveQueue (k.setThread t th.toUser) l := by
  refine h.setThread ht rfl fun hl => ?_
  obtain ⟨th₁, ht₁, hd⟩ := h.live _ hl
  rw [ht, some.injEq] at ht₁
  exact ht₁ ▸ hd

end LiveQueue

/-! ## Whole entries -/

section Entries

variable {k k' : Kernel} {l : List Ptr}

lemma CurrFree.move {c : Ptr → Prop} (h : CurrFree k) (hm : Move c k k')
    (hcurr : k'.currThread = k.currThread) (hc : ¬ c k.currThread) : CurrFree k' := by
  intro th' ht' hb
  rw [hcurr] at ht'
  rcases hm.blocked ht' hb with hc' | ⟨th, ht, hb'⟩
  · exact hc hc'
  · exact h th ht hb'

/-- The queue stays a ring of living threads all through an entry, and gets new threads only. -/
lemma LiveQueue.passes {op : Op} {ph : Kernel.Phase} (h : LiveQueue k l)
    (hwf : Wf k.procList k) (hop : ∀ t, op ≠ .bareRemove t) (hp : k.Passes op ph k') :
    ∃ l', LiveQueue k' l' ∧ ∀ t ∈ l', t ∈ l ∨ k.brk ≤ t := by
  have hgrown : ∀ {k₁ : Kernel} {l₁ : List Ptr}, (∀ t ∈ l₁, t ∈ l ∨ k.brk ≤ t) →
      (∃ l', LiveQueue k₁ l' ∧ ∀ t ∈ l', t ∈ l₁) →
      ∃ l', LiveQueue k₁ l' ∧ ∀ t ∈ l', t ∈ l ∨ k.brk ≤ t := by
    rintro k₁ l₁ hsub ⟨l', h', hsub'⟩
    exact ⟨l', h', fun t ht => hsub t (hsub' t ht)⟩
  have hsame : ∀ t ∈ l, t ∈ l ∨ k.brk ≤ t := fun _ ht => .inl ht
  induction hp with
  | start => exact ⟨l, h, hsame⟩
  | woke hw => exact ⟨l, h.wakes hw.wakes, hsame⟩
  | ticked => exact ⟨l, h.congr rfl rfl rfl (le_refl _), hsame⟩
  | reaped _ hr _ _ ih =>
    obtain ⟨l₁, h₁, hsub⟩ := ih
    exact ⟨l₁, h₁.reaped hr _, hsub⟩
  | created hp _ hc ih =>
    obtain ⟨l₁, h₁, hsub⟩ := ih
    have hm := Move.passes hwf hp
    obtain ⟨l₂, h₂, hsub₂⟩ := h₁.procCreate hm.wf hc
    exact ⟨l₂, h₂, fun t ht => (hsub₂ t ht).elim (hsub t) fun hle => .inr (hm.brk.trans hle)⟩
  | asked _ ih => exact ih
  | blocked ht _ hb => exact ⟨l, h.setThread ht hb.keeps.1 fun _ => by simp [hb.keeps], hsame⟩
  | scheduled hp hs ih | left hp hs _ ih =>
    obtain ⟨l₁, h₁, hsub⟩ := ih
    exact hgrown hsub (h₁.schedule (hp.wf hwf) hs)
  | died hd | spared hd => exact hgrown hsame (h.retires (hd.retires hwf))
  | @received _ _ _ _ k₁ _ th _ hdeq ht _ hth =>
    have hw := (wakes_dequeue hdeq).quiet
    have ht₁ : k₁.threads k.currThread = some th := hth ▸ ht
    exact ⟨l, (h.wakes hw).toUser ht₁, hsame⟩
  | returned _ ht => exact ⟨l, h.toUser ht, hsame⟩
  | bareNext _ hn => exact hgrown hsame (h.runqueueNext hn)
  | bareRemove hop' => exact absurd hop' (hop _)

/-- An entry ends behind a `schedule()`, with a current thread that is not blocked, or with the
current thread it started with. -/
lemma CurrFree.passes {op : Op} {ph : Kernel.Phase} (hq : LiveQueue k l)
    (hwf : Wf k.procList k) (hop : ∀ t, op ≠ .bareRemove t) (hp : k.Passes op ph k')
    (hph : ph = .going) :
    CurrFree k' ∨ k'.currThread = k.currThread ∧ (CurrFree k → CurrFree k') := by
  have hlive : ∀ {ph k₁}, k.Passes op ph k₁ → ∃ l₁, LiveQueue k₁ l₁ := by
    intro ph k₁ hp
    obtain ⟨l₁, h₁, -⟩ := hq.passes hwf hop hp
    exact ⟨l₁, h₁⟩
  -- what keeps the current thread and blocks nobody keeps the alternative
  have hthen : ∀ {k₁ k₂}, CurrFree k₁ ∨ k₁.currThread = k.currThread ∧ (CurrFree k → CurrFree k₁) →
      Move (fun _ => False) k₁ k₂ → k₂.currThread = k₁.currThread →
      CurrFree k₂ ∨ k₂.currThread = k.currThread ∧ (CurrFree k → CurrFree k₂) :=
    fun h hm hcurr => h.imp (fun h => h.move hm hcurr not_false) fun h =>
      ⟨hcurr.trans h.1, fun hk => (h.2 hk).move hm hcurr not_false⟩
  have hstart : CurrFree k ∨ k.currThread = k.currThread ∧ (CurrFree k → CurrFree k) :=
    .inr ⟨rfl, id⟩
  induction hp with
  | start => exact hstart
  | woke hw => exact hthen hstart (.wakes hwf hw.wakes) hw.wakes.curr
  | ticked => exact hstart
  | reaped _ hr hwf₁ _ ih => exact hthen (ih rfl) (.reaped hr hwf₁) (by rw [hr.rest]; rfl)
  | created hp _ hc ih =>
    exact hthen (ih rfl) (.procCreate (hp.wf hwf) hc) (procCreate_old (hp.wf hwf) hc).1
  | asked | blocked | died => exact absurd hph nofun
  | scheduled hp hs | left hp hs =>
    obtain ⟨l₁, h₁⟩ := hlive hp
    exact .inl (h₁.currFree_schedule (hp.wf hwf) hs)
  | spared hd =>
    exact hthen hstart (.retires hwf (hd.retires hwf)) (hd.retires hwf).frame.curr
  | @received _ _ _ _ k₁ _ th _ _ ht _ _ hcurr =>
    refine .inr ⟨hcurr, fun hk th' ht' => ?_⟩
    rcases Store.update_eq_some ht' with ⟨-, rfl⟩ | ⟨hne, -⟩
    · exact hk th ht
    · exact absurd hcurr hne
  | @returned th _ ht =>
    refine .inr ⟨rfl, fun hk th' ht' => ?_⟩
    rcases Store.update_eq_some ht' with ⟨-, rfl⟩ | ⟨hne, -⟩
    · exact hk th ht
    · exact absurd rfl hne
  | bareNext _ hn =>
    have hf := runqueueNext_frame hn
    exact hthen hstart (.moved hwf hf) hf.curr
  | bareRemove hop' => exact absurd hop' (hop _)

end Entries

/-! ## The lists of statements -/

namespace Stmt

/-- The port a statement of `port_receive` is about. -/
def port? : Stmt → Option Ptr
  | .testHead p _ | .setBlocked p _ | .callSchedule p _ => some p
  | _ => none

/-- `d` may stand behind `c` in a death: the statement before the one that marks a thread dead
takes that thread out of the queue. -/
def Before (c d : Stmt) : Prop :=
  match d with
  | .killCurr => c = .removeCurr
  | .killThread proc => c = .removeThread proc
  | d => d.port? = none

/-- The lists a thread can be in the middle of. -/
inductive Shape : List Stmt → Prop
  | test (p : Ptr) (len : ℕ) : Shape [.testHead p len]
  | block (p : Ptr) (len : ℕ) :
      Shape [.setBlocked p len, .callSchedule p len, .testHead p len]
  | wait (p : Ptr) (len : ℕ) : Shape [.callSchedule p len, .testHead p len]
  | death {cs : List Stmt} : List.IsChain Before cs → (∀ c ∈ cs, c.port? = none) → Shape cs

namespace Shape

variable {c : Stmt} {cs more : List Stmt} {k k' : Kernel}

lemma nil : Shape [] := .death .nil (by simp)

lemma chain_closeAll (proc : Ptr) : List.IsChain Before (closeAll proc) := by
  rw [closeAll, isChain_append, isChain_map, isChain_map]
  refine ⟨?_, ?_, ?_⟩
  · exact (pairwise_of_forall fun _ _ => rfl).isChain
  · exact (pairwise_of_forall fun _ _ => rfl).isChain
  · intro x _ y hy
    obtain ⟨i, -, rfl⟩ := List.mem_map.mp (mem_of_mem_head? hy)
    rfl

lemma port_closeAll {proc : Ptr} (hc : c ∈ closeAll proc) : c.port? = none := by
  rw [closeAll, mem_append, List.mem_map, List.mem_map] at hc
  rcases hc with ⟨i, -, rfl⟩ | ⟨i, -, rfl⟩
  · rfl
  · rfl

/-- The loops over ports and descriptors, and then the end of a call that starts with a removal
from the queue. -/
lemma closeAll {proc : Ptr} (hc : ∀ b, Before b c)
    (hchain : List.IsChain Before (c :: cs)) (hport : ∀ d ∈ c :: cs, d.port? = none) :
    Shape (closeAll proc ++ c :: cs) := by
  refine .death ?_ ?_
  · rw [isChain_append]
    refine ⟨chain_closeAll proc, hchain, ?_⟩
    intro x _ y hy
    rw [head?_cons, mem_some_iff] at hy
    exact hy ▸ hc x
  · intro d hd
    rcases mem_append.mp hd with hd | hd
    · exact port_closeAll hd
    · exact hport d hd

lemma sysExit (proc : Ptr) (pid : ℕ) : Shape (Stmt.sysExit proc pid) :=
  closeAll (fun _ => rfl) (by simp [Before, port?]) (by simp [port?])

lemma sysKill (proc : Ptr) : Shape (Stmt.sysKill proc) :=
  closeAll (fun _ => rfl) (by simp [Before, port?]) (by simp [port?])

/-- A death asks for no statement of `port_receive`. -/
lemma port_ran (hport : ∀ d ∈ c :: cs, d.port? = none) (hc : Ran k k' c more) :
    ∀ d ∈ more ++ cs, d.port? = none := by
  have hself : c.port? = none := hport c mem_cons_self
  have hcs : ∀ d ∈ cs, d.port? = none := fun d hd => hport d (mem_cons_of_mem _ hd)
  cases hc with
  | destroyPort _ | closeFile _ =>
    intro d hd
    rcases mem_cons.mp hd with rfl | hd
    · rfl
    · exact hcs d hd
  | empty _ _ _ => simp [port?] at hself
  | _ => exact hcs

/-- A statement of a death leaves a death. -/
lemma ran_death (hchain : List.IsChain Before (c :: cs)) (hport : ∀ d ∈ c :: cs, d.port? = none)
    (hc : Ran k k' c more) : Shape (more ++ cs) := by
  refine .death ?_ (port_ran hport hc)
  have hself : c.port? = none := hport c mem_cons_self
  cases hc with
  | destroyPort _ | closeFile _ =>
    -- the statement asked for stands in the place of the one that asked
    refine hchain.imp_head ?_
    intro d hd
    cases d <;> simp_all [Before]
  | empty _ _ _ => simp [port?] at hself
  | _ => exact hchain.tail

lemma ran (h : Shape (c :: cs)) (hc : Ran k k' c more) : Shape (more ++ cs) := by
  cases h with
  | test p len =>
    cases hc with
    | empty _ _ _ => exact .block p len
    | taken _ _ _ => exact nil
  | block p len =>
    cases hc with
    | setBlocked _ _ => exact .wait p len
  | wait p len =>
    cases hc with
    | callSchedule _ => exact .test p len
  | death hchain hport => exact ran_death hchain hport hc

lemma receive_cases {p : Ptr} (h : Shape (c :: cs)) (hc : Ran k k' c more)
    (hrec : (more ++ cs).head?.bind port? = some p) :
    (∃ len port, c = .testHead p len ∧ k.ports p = some port ∧ port.head = none ∧ k' = k) ∨
      (∃ len, c = .setBlocked p len ∧ more ++ cs = [.callSchedule p len, .testHead p len]) ∨
      ∃ len, c = .callSchedule p len ∧ more ++ cs = [.testHead p len] ∧
        k.schedule = some k' := by
  cases h with
  | test q len =>
    cases hc with
    | empty hport hhead hk =>
      have hqp : q = p := by simpa [port?] using hrec
      subst hqp
      exact .inl ⟨len, _, rfl, hport, hhead, hk⟩
    | taken _ _ _ => simp at hrec
  | block q len =>
    cases hc with
    | setBlocked _ _ =>
      have hqp : q = p := by simpa [port?] using hrec
      subst hqp
      exact .inr (.inl ⟨len, rfl, rfl⟩)
  | wait q len =>
    cases hc with
    | callSchedule hs =>
      have hqp : q = p := by simpa [port?] using hrec
      subst hqp
      exact .inr (.inr ⟨len, rfl, rfl, hs⟩)
  | death _ hport =>
    rw [bind_eq_some_iff] at hrec
    obtain ⟨d, hd, hp⟩ := hrec
    rw [port_ran hport hc d (mem_of_mem_head? hd)] at hp
    simp at hp

/-- A statement that marks a thread dead comes to the front when the one that takes the thread
out of the queue has run. -/
lemma next {d : Stmt} {ds : List Stmt} (h : Shape (c :: cs))
    (hc : Ran k k' c more) (hd : more ++ cs = d :: ds) :
    (d = .killCurr → c = .removeCurr) ∧ ∀ proc, d = .killThread proc → c = .removeThread proc := by
  -- when nothing is asked for, the next statement stands behind this one
  have hnil : more = [] → Before c d → (d = .killCurr → c = .removeCurr) ∧
      ∀ proc, d = .killThread proc → c = .removeThread proc := by
    rintro - hb
    refine ⟨?_, ?_⟩
    · rintro rfl
      exact hb
    · rintro proc rfl
      exact hb
  cases h with
  | test p len =>
    cases hc with
    | empty _ _ _ =>
      rw [cons_append, List.cons.injEq] at hd
      rw [← hd.1]
      exact ⟨nofun, nofun⟩
    | taken _ _ _ => simp at hd
  | block p len | wait p len =>
    cases hc
    rw [nil_append, List.cons.injEq] at hd
    rw [← hd.1]
    exact ⟨nofun, nofun⟩
  | death hchain hport =>
    have hbefore : more = [] → Before c d := by
      rintro rfl
      rw [nil_append] at hd
      rw [hd, isChain_cons_cons] at hchain
      exact hchain.1
    cases hc with
    | destroyPort _ | closeFile _ | empty _ _ _ =>
      rw [cons_append, List.cons.injEq] at hd
      rw [← hd.1]
      exact ⟨nofun, nofun⟩
    | _ => exact hnil rfl (hbefore rfl)

end Shape

end Stmt

/-! ## One statement -/

section Statements

variable {k k' : Kernel} {l : List Ptr} {c : Stmt} {more : List Stmt}

lemma LiveQueue.ran (h : LiveQueue k l) (hwf : Wf k.procList k)
    (hne : k.currThread ≠ k.idleThread) (hcurr : c = .killCurr → k.currThread ∉ l)
    (hthread : ∀ proc pr, c = .killThread proc → k.procs proc = some pr → pr.thread ∉ l)
    (hc : Stmt.Ran k k' c more) :
    ∃ l', LiveQueue k' l' ∧ (∀ t ∈ l', t ∈ l) ∧ (c = .removeCurr → k.currThread ∉ l') ∧
      ∀ proc pr, c = .removeThread proc → k.procs proc = some pr → pr.thread ∉ l' := by
  have hdone : LiveQueue k' l → c ≠ .removeCurr → (∀ proc, c ≠ .removeThread proc) →
      ∃ l', LiveQueue k' l' ∧ (∀ t ∈ l', t ∈ l) ∧ (c = .removeCurr → k.currThread ∉ l') ∧
        ∀ proc pr, c = .removeThread proc → k.procs proc = some pr → pr.thread ∉ l' :=
    fun h' h₁ h₂ => ⟨l, h', fun _ ht => ht, fun heq => absurd heq h₁,
      fun proc _ heq => absurd heq (h₂ proc)⟩
  by_cases hplain : c.plain = true
  · refine hdone (h.wakes (hc.wakes hplain)) ?_ ?_
    · rintro rfl
      simp [Stmt.plain] at hplain
    · rintro proc rfl
      simp [Stmt.plain] at hplain
  cases hc with
  | removeCurr hr =>
    exact ⟨_, h.remove hne hr, fun _ ht => mem_of_mem_erase ht,
      fun _ => h.queue.ring.nodup.not_mem_erase, (by simp)⟩
  | @removeThread proc pr hpr hr =>
    refine ⟨_, h.remove (hwf.thread_ne_idle hpr) hr, fun _ ht => mem_of_mem_erase ht,
      (by simp), ?_⟩
    intro proc' pr' heq hpr'
    rw [Stmt.removeThread.injEq] at heq
    rw [← heq, hpr, some.injEq] at hpr'
    rw [← hpr']
    exact h.queue.ring.nodup.not_mem_erase
  | killCurr hd => exact hdone (h.markDead (hcurr rfl) hd) (by simp) (by simp)
  | killThread hpr hd => exact hdone (h.markDead (hthread _ _ rfl hpr) hd) (by simp) (by simp)
  | leave hl | leaveIfCurr _ _ hl =>
    obtain ⟨l', h', hsub⟩ := h.schedule hwf (leave_eq_some hl).1
    exact ⟨l', h', hsub, (by simp), (by simp)⟩
  | stay _ _ hk' => exact hdone (hk' ▸ h) (by simp) (by simp)
  | setBlocked ht hk' => exact hdone (hk' ▸ h.setThread ht rfl (by simp)) (by simp) (by simp)
  | callSchedule hs =>
    obtain ⟨l', h', hsub⟩ := h.schedule hwf hs
    exact ⟨l', h', hsub, (by simp), (by simp)⟩
  | _ => exact absurd rfl hplain

/-- The current thread becomes blocked by the write of `port_receive` only, and is not blocked
behind a `schedule()`. -/
lemma CurrFree.ran (h : CurrFree k ∨ ∃ p len, c = .callSchedule p len) (hq : LiveQueue k l)
    (hwf : Wf k.procList k) (hne : k.currThread ≠ k.idleThread)
    (hset : ∀ p len, c ≠ .setBlocked p len) (hc : Stmt.Ran k k' c more) : CurrFree k' := by
  -- a statement that does not hand over keeps the current thread
  have hstays : (∀ p len, c ≠ .callSchedule p len) → k'.currThread = k.currThread →
      CurrFree k' := by
    intro hcall hsame
    rcases h with h | ⟨p, len, rfl⟩
    · refine h.move (Move.ran hwf hne hc) hsame ?_
      rintro ⟨-, p, len, heq⟩
      exact hset p len heq
    · exact absurd rfl (hcall p len)
  by_cases hplain : c.plain = true
  · refine hstays ?_ (hc.wakes hplain).curr
    rintro p len rfl
    simp [Stmt.plain] at hplain
  cases hc with
  | removeCurr hr => exact hstays (by simp) (runqueueRemove_frame hr).curr
  | removeThread _ hr => exact hstays (by simp) (runqueueRemove_frame hr).curr
  | killCurr hd | killThread _ hd =>
    refine hstays (by simp) ?_
    obtain ⟨th, -, rfl⟩ := modThread_eq_some hd
    rfl
  | leave hl | leaveIfCurr _ _ hl =>
    exact hq.currFree_schedule hwf (leave_eq_some hl).1
  | stay _ _ hk' => exact hstays (by simp) (by rw [hk'])
  | setBlocked => exact absurd rfl (hset _ _)
  | callSchedule hs => exact hq.currFree_schedule hwf hs
  | _ => exact absurd rfl hplain

end Statements

/-! ## The invariant of all runs -/

/-- The queue is a ring of living threads in every state: a thread is off it before it is marked
dead.  The current thread is blocked only between the write of `port_receive` and its
`schedule()`. -/
structure Preempt.Queued (s : Preempt) (l : List Ptr) : Prop where
  inv : s.Inv
  shape : ∀ t, Stmt.Shape (s.rest t)
  queue : LiveQueue s.kernel l
  doomed : ∀ {u proc cs}, s.rest u = .killThread proc :: cs →
    proc < s.kernel.brk ∧ ∀ pr, s.kernel.procs proc = some pr → pr.thread ∉ l
  leaving : ∀ {u cs}, s.rest u = .killCurr :: cs → u ∉ l
  free : CurrFree s.kernel ∨
    ∃ p len, s.rest s.kernel.currThread = [.callSchedule p len, .testHead p len]

namespace Preempt.Queued

variable {s s' : Preempt} {l l' : List Ptr}

/-- The threads about to be marked dead stay off a queue that gets new threads only. -/
lemma stays_doomed {c : Ptr → Prop} (h : s.Queued l) (hm : Move c s.kernel s'.kernel)
    (hsub : ∀ t ∈ l', t ∈ l ∨ s.kernel.brk ≤ t) {u proc : Ptr} {cs : List Stmt}
    (hrest : s.rest u = .killThread proc :: cs) :
    proc < s'.kernel.brk ∧ ∀ pr, s'.kernel.procs proc = some pr → pr.thread ∉ l' := by
  obtain ⟨hlt, hout⟩ := h.doomed hrest
  refine ⟨lt_of_lt_of_le hlt hm.brk, fun pr' hpr' hl => ?_⟩
  rcases hm.proc hpr' with ⟨pr, hpr, hthr⟩ | ⟨hle, -⟩
  · obtain ⟨th, hth, -⟩ := h.inv.wf.thread_of hpr
    rw [hthr] at hl
    rcases hsub _ hl with hl | hle
    · exact hout pr hpr hl
    · exact absurd (h.inv.wf.thread_lt hth) (Nat.not_lt.mpr hle)
  · exact absurd hlt (Nat.not_lt.mpr hle)

lemma stays_leaving (h : s.Queued l) (hsub : ∀ t ∈ l', t ∈ l ∨ s.kernel.brk ≤ t) {u : Ptr}
    {cs : List Stmt} (hrest : s.rest u = .killCurr :: cs) : u ∉ l' := by
  intro hl
  rcases hsub _ hl with hl | hle
  · exact h.leaving hrest hl
  · have hbusy := h.inv.busy (t := u) (by simp [hrest])
    exact absurd hbusy.2 (Nat.not_lt.mpr hle)

lemma atomic (h : s.Queued l) {op : Op} {k : Kernel}
    (hop : op = .timer ∨ op.staysAtomic = true ∧ s.rest s.kernel.currThread = [])
    (hk : s.kernel.step op = some k) (hinv : ({ s with kernel := k } : Preempt).Inv) :
    ∃ l', ({ s with kernel := k } : Preempt).Queued l' := by
  have hp := step_passes h.inv.wf hk
  have hbare : ∀ t, op ≠ .bareRemove t := by
    rintro t rfl
    simp [Op.staysAtomic, Op.bare] at hop
  obtain ⟨l', h', hsub⟩ := h.queue.passes h.inv.wf hbare hp
  refine ⟨l', hinv, h.shape, h', h.stays_doomed (Move.passes h.inv.wf hp) hsub,
    h.stays_leaving hsub, ?_⟩
  rcases CurrFree.passes h.queue h.inv.wf hbare hp rfl with hnow | ⟨hcurr, hfree⟩
  · exact .inl hnow
  · refine h.free.imp hfree ?_
    rintro ⟨p, len, hwait⟩
    exact ⟨p, len, by rw [hcurr]; exact hwait⟩

lemma enter (h : s.Queued l) {stmts : List Stmt} (hempty : s.rest s.kernel.currThread = [])
    (hshape : Stmt.Shape stmts) (hkill : ∀ proc cs, stmts ≠ .killThread proc :: cs)
    (hleave : ∀ cs, stmts ≠ .killCurr :: cs) (hinv : (s.enter stmts).Inv) :
    (s.enter stmts).Queued l := by
  have hrest : ∀ u, (s.enter stmts).rest u = stmts ∨ (s.enter stmts).rest u = s.rest u := by
    intro u
    by_cases huc : u = s.kernel.currThread
    · exact .inl (by rw [huc]; exact update_self _ _ _)
    · exact .inr (update_of_ne huc _ _)
  refine ⟨hinv, ?_, h.queue, ?_, ?_, ?_⟩
  · intro u
    rcases hrest u with hu | hu
    · rw [hu]
      exact hshape
    · rw [hu]
      exact h.shape u
  · intro u proc cs hu
    rcases hrest u with hu' | hu'
    · exact absurd (hu'.symm.trans hu) (hkill proc cs)
    · exact h.doomed (hu'.symm.trans hu)
  · intro u cs hu
    rcases hrest u with hu' | hu'
    · exact absurd (hu'.symm.trans hu) (hleave cs)
    · exact h.leaving (hu'.symm.trans hu)
  · rcases h.free with hf | ⟨p, len, hwait⟩
    · exact .inl hf
    · simp [hempty] at hwait

lemma ran (h : s.Queued l) {c : Stmt} {cs more : List Stmt} {k : Kernel}
    (hrest : s.rest s.kernel.currThread = c :: cs) (hc : Stmt.Ran s.kernel k c more)
    (hs' : s' = { kernel := k, rest := update s.rest s.kernel.currThread (more ++ cs) })
    (hinv : s'.Inv) : ∃ l', s'.Queued l' := by
  have hshape : Stmt.Shape (c :: cs) := hrest ▸ h.shape _
  have hbusy := h.inv.busy (t := s.kernel.currThread) (by simp [hrest])
  have hkernel : s'.kernel = k := by rw [hs']
  have hself : s'.rest s.kernel.currThread = more ++ cs := by
    rw [hs']
    exact update_self _ _ _
  have hother : ∀ {u}, u ≠ s.kernel.currThread → s'.rest u = s.rest u := by
    intro u hu
    rw [hs']
    exact update_of_ne hu _ _
  have hm := Move.ran h.inv.wf hbusy.1 hc
  rw [← hkernel] at hm
  have hcurr : c = .killCurr → s.kernel.currThread ∉ l := fun heq => h.leaving (heq ▸ hrest)
  have hthread : ∀ proc pr, c = .killThread proc → s.kernel.procs proc = some pr →
      pr.thread ∉ l := fun proc pr heq hpr => (h.doomed (heq ▸ hrest)).2 pr hpr
  obtain ⟨l', h', hsub, hremCurr, hremThread⟩ :=
    h.queue.ran h.inv.wf hbusy.1 hcurr hthread hc
  have hsub' : ∀ t ∈ l', t ∈ l ∨ s.kernel.brk ≤ t := fun t ht => .inl (hsub t ht)
  refine ⟨l', hinv, ?_, hkernel ▸ h', ?_, ?_, ?_⟩
  · intro u
    by_cases hu : u = s.kernel.currThread
    · rw [hu, hself]
      exact hshape.ran hc
    · rw [hother hu]
      exact h.shape u
  · intro u proc ds hu
    by_cases huc : u = s.kernel.currThread
    · rw [huc, hself] at hu
      have heq := (hshape.next hc hu).2 proc rfl
      subst heq
      cases hc with
      | removeThread hpr hr =>
        refine ⟨lt_of_lt_of_le (h.inv.wf.proc_lt hpr) hm.brk, fun pr' hpr' => ?_⟩
        rcases hm.proc hpr' with ⟨pr, hpr, hthr⟩ | ⟨hle, -⟩
        · rw [hthr]
          exact hremThread proc pr rfl hpr
        · exact absurd (h.inv.wf.proc_lt hpr) (Nat.not_lt.mpr hle)
    · rw [hother huc] at hu
      exact h.stays_doomed hm hsub' hu
  · intro u ds hu
    by_cases huc : u = s.kernel.currThread
    · rw [huc, hself] at hu
      rw [huc]
      exact hremCurr ((hshape.next hc hu).1 rfl)
    · rw [hother huc] at hu
      exact h.stays_leaving hsub' hu
  · have hfree : CurrFree s.kernel ∨ ∃ p len, c = .callSchedule p len := by
      rcases h.free with hf | ⟨p, len, hwait⟩
      · exact .inl hf
      · rw [hrest, List.cons.injEq] at hwait
        exact .inr ⟨p, len, hwait.1⟩
    by_cases hset : ∃ p len, c = .setBlocked p len
    · obtain ⟨p, len, rfl⟩ := hset
      cases hshape with
      | block =>
        cases hc with
        | setBlocked _ hk =>
          refine .inr ⟨p, len, ?_⟩
          rw [hkernel, hk]
          exact hself
      | death _ hport => simp [Stmt.port?] at hport
    · rw [hkernel]
      exact .inl (CurrFree.ran hfree h.queue h.inv.wf hbusy.1
        (fun p len heq => hset ⟨p, len, heq⟩) hc)

lemma step (h : s.Queued l) {op : PreemptOp} (hs : s.step op = some s') :
    ∃ l', s'.Queued l' := by
  have hinv := h.inv.step hs
  cases Preempt.step_taken hs with
  | atomic hop hk hs' =>
    subst hs'
    exact h.atomic hop hk hinv
  | exit _ _ hempty _ hs' =>
    subst hs'
    exact ⟨l, h.enter hempty (.sysExit _ _) nofun nofun hinv⟩
  | kill _ _ hempty _ hs' =>
    subst hs'
    exact ⟨l, h.enter hempty (.sysKill _) nofun nofun hinv⟩
  | portReceive _ _ hempty _ hs' =>
    subst hs'
    exact ⟨l, h.enter hempty (.test _ _) nofun nofun hinv⟩
  | same hs' => exact ⟨l, hs' ▸ h⟩
  | advance hrest hran hs' => exact h.ran hrest hran hs' hinv

end Preempt.Queued

end CobjOs
