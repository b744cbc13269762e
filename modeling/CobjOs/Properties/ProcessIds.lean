import CobjOs.Kernel.PreemptSpec
import CobjOs.Properties.RunQueue

/-!
# Process ids

`sys_wait_pid` and `sys_kill` name a process by its id, and `proc_find` takes the first process on
the list that has it.  Ids are counted upwards and never given back, so until the counter wraps an
id means one process for ever, wherever the timer comes.
-/

namespace CobjOs

open Kernel Option

/-- The ids of the processes are distinct and below the next one. -/
structure Ids (k : Kernel) : Prop where
  lt : ∀ {p pr}, k.procs p = some pr → pr.pid < k.nextProcId
  inj : ∀ {p q pr qr}, k.procs p = some pr → k.procs q = some qr → pr.pid = qr.pid → p = q

/-- The search finds a listed process by its id. -/
lemma Ids.procFindIn {k : Kernel} (h : Ids k) {p : Ptr} {pr : Process} (hp : k.procs p = some pr) :
    ∀ {ps : List Ptr}, (∀ q ∈ ps, ∃ qr, k.procs q = some qr) → p ∈ ps →
      k.procFindIn pr.pid ps = some (some p)
  | q :: ps, hall, hmem => by
      obtain ⟨qr, hq⟩ := hall q List.mem_cons_self
      simp only [Kernel.procFindIn, hq, bind, bind_some]
      split_ifs with hpid
      · rw [h.inj hq hp hpid]
      · have hne : p ≠ q := by
          rintro rfl
          rw [hp, some.injEq] at hq
          exact hpid (hq ▸ rfl)
        exact h.procFindIn hp (fun r hr => hall r (List.mem_cons_of_mem q hr))
          (List.mem_of_ne_of_mem hne hmem)

/-- New processes get new ids: one with an id of before was there before, with its thread. -/
structure Renews (k k' : Kernel) : Prop where
  ids : Ids k → Ids k'
  next : k.nextProcId ≤ k'.nextProcId
  old : ∀ {p pr'}, k'.procs p = some pr' → pr'.pid < k.nextProcId →
    ∃ pr, k.procs p = some pr ∧ pr'.pid = pr.pid ∧ pr'.thread = pr.thread

namespace Renews

variable {k k' k'' : Kernel}

lemma trans (h : Renews k k') (h' : Renews k' k'') : Renews k k'' where
  ids hk := h'.ids (h.ids hk)
  next := h.next.trans h'.next
  old hp hlt := by
    obtain ⟨pr₁, hp₁, hpid, hthr⟩ := h'.old hp (lt_of_lt_of_le hlt h.next)
    obtain ⟨pr, hpr, hpid₁, hthr₁⟩ := h.old hp₁ (hpid ▸ hlt)
    exact ⟨pr, hpr, hpid.trans hpid₁, hthr.trans hthr₁⟩

/-- No process came. -/
lemma of_back (hid : k'.nextProcId = k.nextProcId) (hback : ∀ {p pr'}, k'.procs p = some pr' →
    ∃ pr, k.procs p = some pr ∧ pr'.pid = pr.pid ∧ pr'.thread = pr.thread) : Renews k k' where
  ids h := by
    constructor
    · intro p pr' hp
      obtain ⟨pr, hpr, hpid, -⟩ := hback hp
      exact hpid ▸ hid ▸ h.lt hpr
    · intro p q pr' qr' hp hq heq
      obtain ⟨pr, hpr, hpid, -⟩ := hback hp
      obtain ⟨qr, hqr, hqid, -⟩ := hback hq
      exact h.inj hpr hqr (by rw [← hpid, ← hqid, heq])
  next := hid.ge
  old hp _ := hback hp

lemma of_eq (hid : k'.nextProcId = k.nextProcId) (hprocs : k'.procs = k.procs) : Renews k k' :=
  of_back hid fun hp => ⟨_, hprocs ▸ hp, rfl, rfl⟩

lemma frame {T : Ptr → Thread → Thread → Prop} (hf : Frame T k k') : Renews k k' :=
  of_back hf.nextProcId hf.proc_back

lemma schedule (h : Wf k.procList k) (hs : k.schedule = some k') : Renews k k' := by
  obtain ⟨k₁, hf, hk', -⟩ := schedule_frame h.idle_awake hs
  rw [hk']
  exact of_back hf.nextProcId hf.proc_back

lemma procCreate {entry pid : ℕ} (hid : k.nextProcId < u64Max)
    (hc : k.procCreate entry = some (k', pid)) : Renews k k' := by
  rcases procCreate_frame hc with rfl | ⟨v, brk, fds, -, hf⟩
  · exact of_eq rfl rfl
  refine trans ?_ (frame hf)
  have hnext : (k.created v brk fds).nextProcId = k.nextProcId + 1 :=
    Nat.mod_eq_of_lt (by unfold u64Max at hid; omega)
  have hcase : ∀ {p pr}, (k.created v brk fds).procs p = some pr →
      p = k.brk ∧ pr.pid = k.nextProcId ∨ k.procs p = some pr := by
    intro p pr hp
    rcases Store.update_eq_some hp with ⟨rfl, rfl⟩ | ⟨-, hp⟩
    · exact .inl ⟨rfl, rfl⟩
    · exact .inr hp
  refine ⟨fun h => ⟨?_, ?_⟩, hnext ▸ Nat.le_succ _, ?_⟩
  · intro p pr hp
    rw [hnext]
    rcases hcase hp with ⟨-, hpid⟩ | hp
    · omega
    · exact Nat.lt_succ_of_lt (h.lt hp)
  · intro p q pr qr hp hq heq
    rcases hcase hp with ⟨rfl, hpid⟩ | hp <;> rcases hcase hq with ⟨rfl, hqid⟩ | hq
    · rfl
    · have hlt := h.lt hq
      omega
    · have hlt := h.lt hp
      omega
    · exact h.inj hp hq heq
  · intro p pr hp hlt
    rcases hcase hp with ⟨-, hpid⟩ | hp
    · omega
    · exact ⟨pr, hp, rfl, rfl⟩

/-- An entry, before the ids run out. -/
lemma passes (h : Wf k.procList k) (hid : k.nextProcId < u64Max) {op : Op} {ph : Phase}
    (hp : k.Passes op ph k') : Renews k k' := by
  induction hp with
  | start | ticked => exact of_eq rfl rfl
  | woke hw => exact frame hw.wakes.toFrame
  | reaped _ hr _ _ ih =>
    refine ih.trans (of_back ?_ fun hp => ⟨_, hr.proc_sub hp, rfl, rfl⟩)
    rw [hr.rest]
    rfl
  | created _ hid' hc ih => exact ih.trans (procCreate (hid' ▸ hid) hc)
  | asked _ ih => exact ih
  | blocked | returned => exact of_eq rfl rfl
  | scheduled hp hs ih | left hp hs _ ih => exact ih.trans (schedule (hp.wf h) hs)
  | died hd | spared hd => exact frame (hd.retires h).frame
  | received _ hdeq => exact trans (frame (wakes_dequeue hdeq).quiet.toFrame) (of_eq rfl rfl)
  | bareNext _ hn => exact frame (runqueueNext_frame hn)
  | bareRemove _ _ hr => exact frame (runqueueRemove_frame hr)

lemma ran (h : Wf k.procList k) {c : Stmt} {more : List Stmt} (hc : Stmt.Ran k k' c more) :
    Renews k k' := by
  by_cases hplain : c.plain = true
  · exact frame (hc.wakes hplain).toFrame
  cases hc with
  | removeCurr hr | removeThread _ hr => exact frame (runqueueRemove_frame hr)
  | killCurr hd | killThread _ hd =>
    obtain ⟨th, -, rfl⟩ := modThread_eq_some hd
    exact of_eq rfl rfl
  | leave hl | leaveIfCurr _ _ hl => exact schedule h (leave_eq_some hl).1
  | stay _ _ hk' | setBlocked _ hk' => exact of_eq (hk' ▸ rfl) (hk' ▸ rfl)
  | callSchedule hs => exact schedule h hs
  | _ => exact absurd rfl hplain

lemma step {s s' : Preempt} {op : PreemptOp} (h : s.Inv) (hid : s.kernel.nextProcId < u64Max)
    (hs : s.step op = some s') : Renews s.kernel s'.kernel := by
  cases Preempt.step_taken hs with
  | atomic _ hk hs' => exact hs' ▸ passes h.wf hid (step_passes h.wf hk)
  | advance _ hran hs' => exact hs' ▸ ran h.wf hran
  | exit _ _ _ _ hs' | kill _ _ _ _ hs' | portReceive _ _ _ _ hs' | same hs' =>
    exact hs' ▸ of_eq rfl rfl

/-- What one step does not reuse, a whole run does not. -/
lemma run {s s' : Preempt} {ls : List PreemptOp} (h : s.Inv)
    (hrun : Run Preempt.step (fun s _ => s.kernel.nextProcId < u64Max) s ls s') :
    s'.Inv ∧ Renews s.kernel s'.kernel := by
  refine hrun.invariant (I := fun s' => s'.Inv ∧ Renews s.kernel s'.kernel)
    ⟨h, of_eq rfl rfl⟩ ?_
  rintro s₁ op s₂ ⟨hinv, hr⟩ hid hs
  exact ⟨hinv.step hs, hr.trans (step hinv hid hs)⟩

end Renews

end CobjOs
