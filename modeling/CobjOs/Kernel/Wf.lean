import CobjOs.Kernel.Queue

/-!
# Well-formed process tables

`Wf L k` says that the processes allocated in `k` are those of the list `L`, that processes
and threads point at each other, that the idle thread is the only thread without a process,
and that no two threads share a kernel stack.  The list is a parameter because
`proc_cleanup` and `proc_create` change the objects and the list at different moments; between
steps it is `proc_list`.

Nothing here speaks about the run queue or about which thread is current.
-/

namespace CobjOs

variable {k k' : Kernel} {entry pid : ℕ}

open Function List Option

/-- Ready or running. -/
def Thread.Awake (th : Thread) : Prop := th.state = .ready ∨ th.state = .running

lemma Thread.Awake.ne_dead {th : Thread} (h : th.Awake) : th.state ≠ .dead := by
  rcases h with h | h <;> simp [h]

/-- The objects behind the process list `L` fit together. -/
structure Wf (L : List Ptr) (k : Kernel) : Prop where
  thread_lt : ∀ {t th}, k.threads t = some th → t < k.brk
  proc_lt : ∀ {p pr}, k.procs p = some pr → p < k.brk
  stack_lt : ∀ {s}, k.kstacks s = true → s < k.brk
  stack : ∀ {t th}, k.threads t = some th → k.kstacks th.kernelStack = true
  stack_inj : ∀ {t u th thu}, k.threads t = some th → k.threads u = some thu →
    th.kernelStack = thu.kernelStack → t = u
  idle : ∃ th, k.threads k.idleThread = some th ∧ th.process = none ∧ th.Awake
  owned : ∀ {t th}, k.threads t = some th → t = k.idleThread ∨
    ∃ p pr, th.process = some p ∧ k.procs p = some pr ∧ pr.thread = t
  listed : ∀ p, p ∈ L ↔ ∃ pr, k.procs p = some pr
  thread_of : ∀ {p pr}, k.procs p = some pr →
    ∃ th, k.threads pr.thread = some th ∧ th.process = some p
  nodup : L.Nodup

namespace Wf

variable {L : List Ptr} {k k' : Kernel} {T : Ptr → Thread → Thread → Prop} {th : Thread} {p t : Ptr}

lemma idle_process (h : Wf L k) (ht : k.threads k.idleThread = some th) :
    th.process = none := by
  obtain ⟨th', ht', hp, -⟩ := h.idle
  rw [ht, some.injEq] at ht'
  exact ht' ▸ hp

lemma idle_awake (h : Wf L k) : ∃ th, k.threads k.idleThread = some th ∧ th.Awake := by
  obtain ⟨th, ht, -, ha⟩ := h.idle
  exact ⟨th, ht, ha⟩

/-- A thread that has a process is not the idle thread. -/
lemma ne_idle (h : Wf L k) (ht : k.threads t = some th)
    (hp : th.process ≠ none) : t ≠ k.idleThread := by
  rintro rfl
  exact hp (h.idle_process ht)

lemma thread_ne_idle (h : Wf L k) {pr : Process} (hp : k.procs p = some pr) :
    pr.thread ≠ k.idleThread := by
  obtain ⟨th, hth, hproc⟩ := h.thread_of hp
  exact h.ne_idle hth (by simp [hproc])

lemma process_thread (h : Wf L k) (ht : k.threads t = some th)
    (hp : th.process = some p) : ∃ pr, k.procs p = some pr ∧ pr.thread = t := by
  rcases h.owned ht with rfl | ⟨q, pr, hq, hpr, rfl⟩
  · rw [h.idle_process ht] at hp
    simp at hp
  · rw [hp, some.injEq] at hq
    exact ⟨pr, hq ▸ hpr, rfl⟩

lemma thread_inj (h : Wf L k) {q : Ptr} {pr qr : Process} (hp : k.procs p = some pr)
    (hq : k.procs q = some qr) (ht : pr.thread = qr.thread) : p = q := by
  obtain ⟨th, hth, hproc⟩ := h.thread_of hp
  obtain ⟨th', hth', hproc'⟩ := h.thread_of hq
  rw [← ht, hth, some.injEq] at hth'
  rw [← hth', hproc] at hproc'
  simpa using hproc'

/-- Carried over every change that keeps each thread's process and kernel stack and keeps the
idle thread awake. -/
lemma frame (h : Wf L k) (hf : Frame T k k')
    (hT : ∀ t a b, k.threads t = some a → T t a b → b.process = a.process ∧
      b.kernelStack = a.kernelStack ∧ (t = k.idleThread → a.Awake → b.Awake)) :
    Wf L k' where
  thread_lt ht := by
    obtain ⟨th, hth, -⟩ := hf.thread_back ht
    exact lt_of_lt_of_le (h.thread_lt hth) hf.brk
  proc_lt hp := by
    obtain ⟨pr, hpr, -⟩ := hf.proc_back hp
    exact lt_of_lt_of_le (h.proc_lt hpr) hf.brk
  stack_lt hs := by
    rw [hf.kstacks] at hs
    exact lt_of_lt_of_le (h.stack_lt hs) hf.brk
  stack ht := by
    obtain ⟨th, hth, hw⟩ := hf.thread_back ht
    rw [hf.kstacks, (hT _ _ _ hth hw).2.1]
    exact h.stack hth
  stack_inj ht hu heq := by
    obtain ⟨th, hth, hw⟩ := hf.thread_back ht
    obtain ⟨thu, hthu, hwu⟩ := hf.thread_back hu
    rw [(hT _ _ _ hth hw).2.1, (hT _ _ _ hthu hwu).2.1] at heq
    exact h.stack_inj hth hthu heq
  idle := by
    obtain ⟨th, hth, hp, ha⟩ := h.idle
    obtain ⟨th', hth', hw⟩ := hf.thread hth
    obtain ⟨hp', -, ha'⟩ := hT _ _ _ hth hw
    exact ⟨th', by rw [hf.idle]; exact hth', by rw [hp', hp], ha' rfl ha⟩
  owned {t th'} ht := by
    obtain ⟨th, hth, hw⟩ := hf.thread_back ht
    rcases h.owned hth with hidle | ⟨p, pr, hp, hpr, hthr⟩
    · exact .inl (hf.idle ▸ hidle)
    · obtain ⟨pr', hpr', -, hthr'⟩ := hf.proc hpr
      exact .inr ⟨p, pr', by rw [(hT _ _ _ hth hw).1, hp], hpr', hthr'.trans hthr⟩
  listed p := by
    rw [h.listed]
    constructor
    · rintro ⟨pr, hpr⟩
      obtain ⟨pr', hpr', -⟩ := hf.proc hpr
      exact ⟨pr', hpr'⟩
    · rintro ⟨pr', hpr'⟩
      obtain ⟨pr, hpr, -⟩ := hf.proc_back hpr'
      exact ⟨pr, hpr⟩
  thread_of hp := by
    obtain ⟨pr, hpr, -, hthr⟩ := hf.proc_back hp
    obtain ⟨th, hth, hproc⟩ := h.thread_of hpr
    obtain ⟨th', hth', hw⟩ := hf.thread hth
    exact ⟨th', by rw [hthr]; exact hth', by rw [(hT _ _ _ hth hw).1, hproc]⟩
  nodup := h.nodup

lemma wakes (h : Wf L k) (hw : Wakes anyWake k k') : Wf L k' := by
  refine h.frame hw.toFrame ?_
  intro t a b _ hab
  refine ⟨Thread.Woken.process hab, Thread.Woken.kernelStack hab, ?_⟩
  rintro - (ha | ha)
  · exact .inl (Thread.Woken.ready hab ha)
  · exact .inr ((Thread.Woken.running_iff hab).mpr ha)

lemma relink (h : Wf L k) (hf : Frame relink k k') : Wf L k' := by
  refine h.frame hf ?_
  intro t a b _ hab
  unfold CobjOs.relink at hab
  rw [hab]
  exact ⟨rfl, rfl, fun _ ha => ha⟩

lemma setThread (h : Wf L k) {th' : Thread} (ht : k.threads t = some th)
    (hp : th'.process = th.process) (hs : th'.kernelStack = th.kernelStack)
    (ha : t = k.idleThread → th'.Awake) : Wf L (k.setThread t th') := by
  have hf : Frame (fun u a b => b = a ∨ u = t ∧ b = th') k (k.setThread t th') :=
    .setThread (fun _ _ => .inl rfl) ht (.inr ⟨rfl, rfl⟩)
  refine h.frame hf ?_
  rintro u a b hu (rfl | ⟨rfl, rfl⟩)
  · exact ⟨rfl, rfl, fun _ ha => ha⟩
  · obtain rfl := mem_unique ht hu
    exact ⟨hp, hs, fun hi _ => ha hi⟩

end Wf

/-! ## Creation and reaping -/

/-- Between `k` and `k'` some dead threads were freed with their processes and stacks. -/
structure Reaped (k k' : Kernel) : Prop where
  sub : ∀ {t th}, k'.threads t = some th → k.threads t = some th
  keep : ∀ {t th}, k.threads t = some th → th.state ≠ .dead → k'.threads t = some th
  proc_sub : ∀ {p pr}, k'.procs p = some pr → k.procs p = some pr
  proc_keep : ∀ {p pr th}, k.procs p = some pr → k.threads pr.thread = some th →
    th.state ≠ .dead → k'.procs p = some pr
  rest : k' = { k with threads := k'.threads, procs := k'.procs, kstacks := k'.kstacks }

namespace Reaped

variable {k k' k'' : Kernel}

lemma refl (k : Kernel) : Reaped k k := ⟨id, fun h _ => h, id, fun h _ _ => h, rfl⟩

lemma trans (h : Reaped k k') (h' : Reaped k' k'') : Reaped k k'' where
  sub ht := h.sub (h'.sub ht)
  keep ht hd := h'.keep (h.keep ht hd) hd
  proc_sub hp := h.proc_sub (h'.proc_sub hp)
  proc_keep hp ht hd := h'.proc_keep (h.proc_keep hp ht hd) (h.keep ht hd) hd
  rest := by
    rw [h'.rest, h.rest]

end Reaped

/-- What the first loop of `proc_cleanup` frees for one dead process. -/
def Kernel.freeProc (k : Kernel) (p : Ptr) (pr : Process) (th : Thread) : Kernel :=
  { k with
    kstacks := update k.kstacks th.kernelStack false
    threads := update k.threads pr.thread none
    procs := update k.procs p none }

namespace Wf

variable {L L₁ L₂ : List Ptr} {k k' : Kernel} {p : Ptr} {pr : Process} {th : Thread}

lemma reaped_freeProc (hp : k.procs p = some pr) (ht : k.threads pr.thread = some th)
    (hd : th.state = .dead) : Reaped k (k.freeProc p pr th) where
  sub hu := (Store.erase_eq_some hu).2
  keep {u thu} hu hnd := by
    have hut : u ≠ pr.thread := by
      rintro rfl
      rw [ht, some.injEq] at hu
      exact hnd (hu ▸ hd)
    simpa [Kernel.freeProc, hut] using hu
  proc_sub hq := (Store.erase_eq_some hq).2
  proc_keep {q qr thq} hq hthq hnd := by
    have hqp : q ≠ p := by
      rintro rfl
      rw [hp, some.injEq] at hq
      rw [← hq, ht, some.injEq] at hthq
      exact hnd (hthq ▸ hd)
    simpa [Kernel.freeProc, hqp] using hq
  rest := rfl

/-- Freeing a dead process and taking it from the list. -/
lemma freeProc (h : Wf (L₁ ++ p :: L₂) k) (hp : k.procs p = some pr)
    (ht : k.threads pr.thread = some th) (hd : th.state = .dead) :
    Wf (L₁ ++ L₂) (k.freeProc p pr th) := by
  have hr := reaped_freeProc hp ht hd
  have hne : ∀ u thu, (k.freeProc p pr th).threads u = some thu → u ≠ pr.thread :=
    fun _ _ hu => (Store.erase_eq_some hu).1
  have hpne : ∀ q qr, (k.freeProc p pr th).procs q = some qr → q ≠ p :=
    fun _ _ hq => (Store.erase_eq_some hq).1
  refine ⟨?_, ?_, ?_, ?_, ?_, ?_, ?_, ?_, ?_, ?_⟩
  · exact fun hu => h.thread_lt (hr.sub hu)
  · exact fun hq => h.proc_lt (hr.proc_sub hq)
  · intro s hs
    by_cases hss : s = th.kernelStack
    · simp [Kernel.freeProc, hss] at hs
    · exact h.stack_lt (by simpa [Kernel.freeProc, hss] using hs)
  · intro u thu hu
    have hss : thu.kernelStack ≠ th.kernelStack := by
      intro hss
      exact hne u thu hu (h.stack_inj (hr.sub hu) ht hss)
    simpa [Kernel.freeProc, hss] using h.stack (hr.sub hu)
  · exact fun hu hv heq => h.stack_inj (hr.sub hu) (hr.sub hv) heq
  · obtain ⟨thi, hthi, hpi, hai⟩ := h.idle
    exact ⟨thi, hr.keep hthi hai.ne_dead, hpi, hai⟩
  · intro u thu hu
    rcases h.owned (hr.sub hu) with hi | ⟨q, qr, hq, hqr, hqt⟩
    · exact .inl hi
    · have hqp : q ≠ p := by
        rintro rfl
        rw [hp, some.injEq] at hqr
        exact hne u thu hu (by rw [← hqt, hqr])
      exact .inr ⟨q, qr, hq, by simpa [Kernel.freeProc, hqp] using hqr, hqt⟩
  · intro q
    have hl := h.listed q
    have hnd := h.nodup
    by_cases hqp : q = p
    · subst hqp
      constructor
      · intro hq
        rw [nodup_middle, nodup_cons] at hnd
        exact absurd hq hnd.1
      · rintro ⟨qr, hqr⟩
        exact absurd rfl (hpne q qr hqr)
    · have hset : (k.freeProc p pr th).procs q = k.procs q := by simp [Kernel.freeProc, hqp]
      rw [hset, ← hl]
      simp [hqp]
  · intro q qr hq
    obtain ⟨thq, hthq, hprocq⟩ := h.thread_of (hr.proc_sub hq)
    have hqt : qr.thread ≠ pr.thread := by
      intro heq
      exact hpne q qr hq (h.thread_inj (hr.proc_sub hq) hp heq)
    exact ⟨thq, by simpa [Kernel.freeProc, hqt] using hthq, hprocq⟩
  · exact (nodup_middle.mp h.nodup).of_cons

end Wf

namespace Kernel

variable {k k' : Kernel} {p : Ptr} {pr : Process} {th : Thread}

lemma reap_dead {ps : List Ptr} (hp : k.procs p = some pr) (ht : k.threads pr.thread = some th)
    (hd : th.state = .dead) (hs : k.kstacks th.kernelStack = true) :
    reap k (p :: ps) = reap (k.freeProc p pr th) ps := by
  simp [reap, hp, ht, hd, hs, freeProc]

lemma reap_alive {ps : List Ptr} (hp : k.procs p = some pr) (ht : k.threads pr.thread = some th)
    (hd : th.state ≠ .dead) :
    reap k (p :: ps) = (reap k ps).map fun r => (r.1, p :: r.2) := by
  simp only [reap, hp, ht, bind, bind_some, if_neg hd]
  cases reap k ps <;> rfl

/-- The first loop of `proc_cleanup` runs to its end on a well-formed table and takes exactly
the dead processes from the list. -/
lemma reap_spec : ∀ (ps done : List Ptr) (k : Kernel), Wf (done ++ ps) k →
    ∃ k' rest, reap k ps = some (k', rest) ∧ Wf (done ++ rest) k' ∧ Reaped k k' ∧
      (∀ p ∈ rest, p ∈ ps) ∧
      ∀ p ∈ ps, ∀ pr th, k.procs p = some pr → k.threads pr.thread = some th →
        (p ∈ rest ↔ th.state ≠ .dead)
  | [], done, k, h => ⟨k, [], rfl, h, .refl k, by simp, by simp⟩
  | p :: ps, done, k, h => by
      obtain ⟨pr, hp⟩ := (h.listed p).mp (by simp)
      obtain ⟨th, ht, -⟩ := h.thread_of hp
      have hnd := h.nodup
      rw [nodup_append, nodup_cons] at hnd
      by_cases hd : th.state = .dead
      · have hr := Wf.reaped_freeProc hp ht hd
        obtain ⟨k', rest, hreap, hwf, hreaped, hsub, hiff⟩ :=
          reap_spec ps done _ (h.freeProc hp ht hd)
        refine ⟨k', rest, ?_, hwf, hr.trans hreaped, ?_, ?_⟩
        · rw [reap_dead hp ht hd (h.stack ht), hreap]
        · exact fun q hq => mem_cons_of_mem p (hsub q hq)
        · intro q hq qr thq hqr hthq
          rcases mem_cons.mp hq with rfl | hqs
          · rw [hp, some.injEq] at hqr
            rw [← hqr, ht, some.injEq] at hthq
            constructor
            · exact fun hmem => absurd (hsub q hmem) hnd.2.1.1
            · exact fun hne => absurd (hthq ▸ hd) hne
          · have hqp : q ≠ p := by
              rintro rfl
              exact hnd.2.1.1 hqs
            have hqt : qr.thread ≠ pr.thread := fun heq => hqp (h.thread_inj hqr hp heq)
            exact hiff q hqs qr thq (by simpa [freeProc, hqp] using hqr)
              (by simpa [freeProc, hqt] using hthq)
      · have h' : Wf ((done ++ [p]) ++ ps) k := by simpa using h
        obtain ⟨k', rest, hreap, hwf, hreaped, hsub, hiff⟩ := reap_spec ps (done ++ [p]) k h'
        refine ⟨k', p :: rest, ?_, by simpa using hwf, hreaped, ?_, ?_⟩
        · rw [reap_alive hp ht hd, hreap]
          rfl
        · intro q hq
          rcases mem_cons.mp hq with rfl | hq
          · simp
          · exact mem_cons_of_mem p (hsub q hq)
        · intro q hq qr thq hqr hthq
          rcases mem_cons.mp hq with rfl | hqs
          · rw [hp, some.injEq] at hqr
            rw [← hqr, ht, some.injEq] at hthq
            subst hthq
            simp [hd]
          · have hqp : q ≠ p := by
              rintro rfl
              exact hnd.2.1.1 hqs
            rw [mem_cons, ← hiff q hqs qr thq hqr hthq]
            simp [hqp]

/-! ## What `proc_create` builds before it queues the thread -/

/-- The thread of a new process. -/
@[simps]
def newThread (k : Kernel) : Thread where
  kernelStack := k.brk + 2
  state := .ready
  id := k.nextThreadId
  process := some k.brk
  waitingFor := u64Max
  sleepUntil := 0
  next := none
  call := .user

/-- The state in which `proc_create` queues the new thread; the descriptors and the file
system depend on whether the devices are there yet. -/
@[simps]
def created (k : Kernel) (v : Vfs) (brk : Ptr) (fds : ℕ → Option Ptr) : Kernel :=
  { k with
    threads := update k.threads (k.brk + 1) (some k.newThread)
    procs := update k.procs k.brk (some
      { pid := k.nextProcId, thread := k.brk + 1, fds := fds, ports := fun _ => none })
    kstacks := update k.kstacks (k.brk + 2) true
    vfs := v
    brk := brk
    nextThreadId := u64 (k.nextThreadId + 1)
    nextProcId := u64 (k.nextProcId + 1)
    procList := k.brk :: k.procList }

lemma stdFd_spec (hp : k.procs p = some pr) (i : ℕ) (name : String) (flags : ℕ) :
    ∃ v brk fds, k.brk ≤ brk ∧ k.stdFd p i name flags =
      some ((k.setVfs v brk).setProc p { pr with fds := fds }) := by
  have hself : (k.setVfs k.vfs k.brk).setProc p pr = k := by
    unfold setProc setVfs
    rw [← hp, update_eq_self]
  unfold stdFd
  by_cases hroot : k.vfs.devfsRoot.isNone
  · rw [if_pos hroot]
    exact ⟨k.vfs, k.brk, pr.fds, le_refl _, by rw [hself]⟩
  · rw [if_neg hroot]
    cases k.vfs.devfsLookup k.brk name with
    | none => exact ⟨k.vfs, k.brk, pr.fds, le_refl _, by rw [hself]⟩
    | some v =>
      refine ⟨{ v with files := update v.files (k.brk + 1) (some
        { node := k.brk, offset := 0, flags := flags }) }, k.brk + 2,
        update pr.fds i (some (k.brk + 1)), Nat.le_add_right _ _, ?_⟩
      dsimp only
      rw [modProc, setVfs_procs, hp, map_some]

/-- The process `proc_create` builds, with the given descriptors. -/
def newProc (k : Kernel) (fds : ℕ → Option Ptr) : Process :=
  { pid := k.nextProcId, thread := k.brk + 1, fds := fds, ports := fun _ => none }

/-- `proc_create` of an accepted image is the construction followed by `runqueue_push`. -/
lemma procCreate_eq {entry : ℕ} (he : entry ≠ 0) :
    ∃ v brk fds, k.brk + 3 ≤ brk ∧ k.procCreate entry =
      ((k.created v brk fds).runqueuePush (k.brk + 1)).map fun k' => (k', k.nextProcId) := by
  unfold procCreate
  rw [if_neg he]
  have hp₁ : k.allocProc.procs k.brk = some (k.newProc fun _ => none) :=
    update_self _ _ _
  obtain ⟨v₁, b₁, f₁, hb₁, h₁⟩ := stdFd_spec hp₁ 0 "stdin" 1
  have hp₂ : ((k.allocProc.setVfs v₁ b₁).setProc k.brk (k.newProc f₁)).procs k.brk =
      some (k.newProc f₁) := update_self _ _ _
  obtain ⟨v₂, b₂, f₂, hb₂, h₂⟩ := stdFd_spec hp₂ 1 "stdout" 2
  refine ⟨v₂, b₂, f₂, hb₁.trans hb₂, ?_⟩
  have hlink : (((((k.allocProc.setVfs v₁ b₁).setProc k.brk (k.newProc f₁)).setVfs
      v₂ b₂).setProc k.brk (k.newProc f₂)).setProcList (k.brk :: k.procList)).modThread
      (k.brk + 1) (fun th => { th with process := some k.brk }) =
      some (k.created v₂ b₂ f₂) := by
    rw [modThread]
    show ((update k.threads (k.brk + 1) _) (k.brk + 1)).map _ = _
    rw [update_self, map_some]
    unfold created
    simp [setThread, setProc, setVfs, setProcList, newProc, newThread, allocProc, threadCreateUser,
      allocThread]
  have h₁' : k.allocProc.stdFd k.brk 0 "stdin" 1 =
      some ((k.allocProc.setVfs v₁ b₁).setProc k.brk (k.newProc f₁)) := h₁
  simp only [h₁', h₂, bind, bind_some]
  refine (congrArg (fun o => Option.bind o _) hlink).trans ?_
  rw [bind_some]
  cases (k.created v₂ b₂ f₂).runqueuePush (k.brk + 1) <;> rfl

end Kernel

lemma Kernel.procCreate_cases
    (h : k.procCreate entry = some (k', pid)) : k' = k ∨ ∃ v brk fds, k.brk + 3 ≤ brk ∧
      (k.created v brk fds).runqueuePush (k.brk + 1) = some k' := by
  by_cases he : entry = 0
  · rw [procCreate, if_pos he, some.injEq, Prod.mk.injEq] at h
    exact .inl h.1.symm
  · obtain ⟨v, brk, fds, hbrk, heq⟩ := k.procCreate_eq he
    simp only [heq, map_eq_some_iff, Prod.mk.injEq] at h
    obtain ⟨k₁, hpush, rfl, -⟩ := h
    exact .inr ⟨v, brk, fds, hbrk, hpush⟩

/-- `proc_create` builds a process and its thread, and otherwise writes links only. -/
lemma Kernel.procCreate_frame (h : k.procCreate entry = some (k', pid)) :
    k' = k ∨ ∃ v brk fds, k.brk + 3 ≤ brk ∧ Frame relink (k.created v brk fds) k' := by
  refine (procCreate_cases h).imp_right ?_
  rintro ⟨v, brk, fds, hbrk, hpush⟩
  refine ⟨v, brk, fds, hbrk, runqueuePush_frame (fun th ht => ?_) hpush⟩
  rw [created_threads, update_self, some.injEq] at ht
  rw [← ht]
  rfl

lemma Kernel.procCreate_old {L : List Ptr} (hwf : Wf L k)
    (h : k.procCreate entry = some (k', pid)) : k'.currThread = k.currThread ∧
      k'.idleThread = k.idleThread ∧ ∀ {t th}, k.threads t = some th →
        ∃ th', k'.threads t = some th' ∧ relink t th th' := by
  rcases procCreate_frame h with rfl | ⟨v, brk, fds, -, hf⟩
  · exact ⟨rfl, rfl, fun ht => ⟨_, ht, rfl⟩⟩
  · refine ⟨hf.curr, hf.idle, ?_⟩
    intro t th ht
    have hne : t ≠ k.brk + 1 := Nat.ne_of_lt (Nat.lt_succ_of_lt (hwf.thread_lt ht))
    have hcreated : (k.created v brk fds).threads t = some th := by
      rw [created_threads, update_of_ne hne]
      exact ht
    exact hf.thread hcreated

lemma Wf.created {L : List Ptr} {v : Vfs} {brk : Ptr} {fds : ℕ → Option Ptr}
    (h : Wf L k) (hbrk : k.brk + 3 ≤ brk) : Wf (k.brk :: L) (k.created v brk fds) := by
  -- the three addresses handed out lie above what is allocated in `k`
  have hlt : ∀ i, i < 3 → k.brk + i < brk := fun i hi =>
    lt_of_lt_of_le (Nat.add_lt_add_left hi k.brk) hbrk
  have hup : ∀ {i : Ptr}, i < k.brk → i < brk := fun hi => hi.trans (hlt 0 (by decide))
  have hfresh : ∀ {i : Ptr} n, i < k.brk → i ≠ k.brk + n := fun n hi => (Nat.lt_add_right n hi).ne
  have hstack : ∀ {t th}, k.threads t = some th → th.kernelStack ≠ k.brk + 2 :=
    fun ht => hfresh 2 (h.stack_lt (h.stack ht))
  have hkeep : ∀ {t th}, k.threads t = some th → (k.created v brk fds).threads t = some th := by
    intro t th ht
    rw [Kernel.created_threads, update_of_ne (hfresh 1 (h.thread_lt ht)), ht]
  have hproc : ∀ {p pr}, k.procs p = some pr → (k.created v brk fds).procs p = some pr := by
    intro p pr hp
    rw [Kernel.created_procs, update_of_ne (h.proc_lt hp).ne, hp]
  have hself : (k.created v brk fds).procs k.brk = some (k.newProc fds) := update_self _ _ _
  refine ⟨?_, ?_, ?_, ?_, ?_, ?_, ?_, ?_, ?_, ?_⟩
  · intro t th ht
    rcases Store.update_eq_some ht with ⟨rfl, -⟩ | ⟨-, ht⟩
    · exact hlt 1 (by decide)
    · exact hup (h.thread_lt ht)
  · intro p pr hp
    rcases Store.update_eq_some hp with ⟨rfl, -⟩ | ⟨-, hp⟩
    · exact hlt 0 (by decide)
    · exact hup (h.proc_lt hp)
  · intro s hs
    by_cases hss : s = k.brk + 2
    · exact hss ▸ hlt 2 (by decide)
    · rw [Kernel.created_kstacks, update_of_ne hss] at hs
      exact hup (h.stack_lt hs)
  · intro t th ht
    rw [Kernel.created_kstacks]
    rcases Store.update_eq_some ht with ⟨-, rfl⟩ | ⟨-, ht⟩
    · rw [Kernel.newThread_kernelStack, update_self]
    · rw [update_of_ne (hstack ht), h.stack ht]
  · intro t u th thu ht hu heq
    rcases Store.update_eq_some ht with ⟨rfl, rfl⟩ | ⟨-, ht⟩ <;>
      rcases Store.update_eq_some hu with ⟨rfl, rfl⟩ | ⟨-, hu⟩
    · rfl
    · exact absurd heq.symm (hstack hu)
    · exact absurd heq (hstack ht)
    · exact h.stack_inj ht hu heq
  · obtain ⟨th, ht, hp, ha⟩ := h.idle
    exact ⟨th, hkeep ht, hp, ha⟩
  · intro t th ht
    rcases Store.update_eq_some ht with ⟨rfl, rfl⟩ | ⟨-, ht⟩
    · exact .inr ⟨k.brk, _, rfl, hself, rfl⟩
    · exact (h.owned ht).imp_right fun ⟨p, pr, hp, hpr, hthr⟩ => ⟨p, pr, hp, hproc hpr, hthr⟩
  · intro p
    rw [mem_cons, h.listed]
    constructor
    · rintro (rfl | ⟨pr, hpr⟩)
      · exact ⟨_, hself⟩
      · exact ⟨pr, hproc hpr⟩
    · rintro ⟨pr, hpr⟩
      exact (Store.update_eq_some hpr).imp And.left fun hpr => ⟨pr, hpr.2⟩
  · intro p pr hp
    rcases Store.update_eq_some hp with ⟨rfl, rfl⟩ | ⟨-, hp⟩
    · exact ⟨k.newThread, update_self _ _ _, rfl⟩
    · obtain ⟨th, ht, hpr⟩ := h.thread_of hp
      exact ⟨th, hkeep ht, hpr⟩
  · rw [nodup_cons, h.listed]
    exact ⟨fun ⟨pr, hpr⟩ => (h.proc_lt hpr).false, h.nodup⟩

end CobjOs
