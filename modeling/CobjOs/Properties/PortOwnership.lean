import CobjOs.Properties.Delivery

/-!
# Who owns a port

A port is registered twice: in the global `port_table`, through which `port_forward` finds it,
and in a slot of its owner's `ports[]`, through which `sys_exit` and `sys_kill` destroy it.  The
two stay in step as long as a new port finds a free slot and a process that dies by an
exception, which destroys nothing, holds no port; every entry of the table then is a live port
of a process on `proc_list`, in exactly one of its slots.

Without either condition the table keeps a port that no slot knows.  Its owner can be reaped while
the entry stays, and the next `port_forward` follows a pointer to a freed process.
-/

namespace CobjOs

open Function Kernel List Option

/-! ## The invariant -/

/-- Every registered port stands in a slot of its owner, and a process that holds a port has a
living thread. -/
structure Registered (k : Kernel) : Prop where
  slot_lt : ∀ {q qr i p}, k.procs q = some qr → qr.ports i = some p → i < maxPorts
  filed : ∀ {i p}, k.portTable i = some p → ∃ port pr j, k.ports p = some port ∧
    k.procs port.owner = some pr ∧ pr.ports j = some p
  holder : ∀ {q qr i p}, k.procs q = some qr → qr.ports i = some p →
    ∃ th, k.threads qr.thread = some th ∧ th.state ≠ .dead

namespace Registered

variable {k k' k₁ : Kernel} {proc p : Ptr} {pr : Process} {i : ℕ}

/-- What leaves the ports alone may kill threads of processes that hold none. -/
lemma keeps {D : Ptr → Prop} (h : Registered k) (hk : KeepsPorts D k k')
    (hfree : ∀ {q qr i p}, k.procs q = some qr → qr.ports i = some p → ¬D qr.thread) :
    Registered k' where
  slot_lt hq hi := by
    obtain ⟨qr, hqr, hports, -⟩ := hk.holder hq hi
    exact h.slot_lt hqr (hports ▸ hi)
  filed {i p} hi := by
    rw [hk.table] at hi
    obtain ⟨port, pr, j, hport, hpr, hj⟩ := h.filed hi
    obtain ⟨port', hport', ho⟩ := Store.exists_of_map_eq (hk.owner p) hport
    obtain ⟨pr', hpr', hs⟩ := hk.proc hpr
    exact ⟨port', pr', j, hport', by rw [ho, hpr'], by rw [hs, hj]⟩
  holder hq hi := by
    obtain ⟨qr, hqr, hports, hthr⟩ := hk.holder hq hi
    obtain ⟨th, ht, hd⟩ := h.holder hqr (hports ▸ hi)
    obtain ⟨th', ht', hd'⟩ := hk.alive (hfree hqr (hports ▸ hi)) ht hd
    exact ⟨th', hthr ▸ ht', hd'⟩

lemma destroySlot (h : Registered k) (hinv : PortInv k) (hpr : k.procs proc = some pr)
    (hi : pr.ports i = some p) (hd : k.portDestroy p = some k₁)
    (hm : k₁.modProc proc (fun pr => { pr with ports := update pr.ports i none })
      = some k') : Registered k' := by
  have hdestroys := hinv.destroysSlot hpr hi hd hm
  have hw := (wakes_portDestroy (S := fun _ => True) hd fun _ _ => trivial).any
  refine ⟨fun hq hj => ?_, fun hj => ?_, fun hq hj => ?_⟩
  · obtain ⟨qr₀, hqr₀, hj₀, -⟩ := hdestroys.slot hq hj
    exact h.slot_lt hqr₀ hj₀
  · obtain ⟨hj₀, hne⟩ := hdestroys.entry hj
    obtain ⟨port, qr, m, hport, hqr, hm⟩ := h.filed hj₀
    obtain ⟨qr', hqr', hm'⟩ := hdestroys.slot_ne hqr hm hne
    exact ⟨port, qr', m, hdestroys.port_ne hport hne, hqr', hm'⟩
  · obtain ⟨qr₀, hqr₀, hj₀, -, hthr⟩ := hdestroys.slot hq hj
    obtain ⟨th, ht, hdead⟩ := h.holder hqr₀ hj₀
    obtain ⟨th', ht', hab⟩ := hw.thread ht
    obtain ⟨-, -, rfl⟩ := modProc_eq_some hm
    exact ⟨th', hthr ▸ ht', fun hd' => hdead ((Thread.Woken.dead_iff hab).mp hd')⟩

lemma closePort (h : Registered k) (hinv : PortInv k) (hc : k.closePort proc i = some k') :
    Registered k' := by
  obtain ⟨pr, hpr, ⟨-, rfl⟩ | ⟨p, k₁, hp, h₁, h₂⟩⟩ := closePort_cases hc
  · exact h
  · exact h.destroySlot hinv hpr hp h₁ h₂

end Registered

/-- One turn of the port loop empties its slot. -/
lemma Kernel.closePort_slots {k k' : Kernel} {proc : Ptr} {i : ℕ} {pr' : Process}
    (hc : k.closePort proc i = some k') (hpr' : k'.procs proc = some pr') :
    ∃ pr, k.procs proc = some pr ∧ pr'.ports = update pr.ports i none := by
  obtain ⟨pr, hpr, hcase⟩ := closePort_cases hc
  refine ⟨pr, hpr, ?_⟩
  rcases hcase with ⟨hp, rfl⟩ | ⟨p, k₁, hp, h₁, h₂⟩
  · obtain rfl := mem_unique hpr hpr'
    rw [← hp, update_eq_self]
  · obtain ⟨pr₁, hpr₁, rfl⟩ := modProc_eq_some h₂
    rw [(portDestroy_fields h₁).2.2.2.1] at hpr₁
    obtain rfl := mem_unique hpr hpr₁
    rw [setProc_procs, update_self, some.injEq] at hpr'
    rw [← hpr']

lemma Kernel.closePorts_slots {k' : Kernel} {proc : Ptr} {pr' : Process}
    (hpr' : k'.procs proc = some pr') : ∀ (is : List ℕ) (k : Kernel),
    is.foldlM (fun k i => k.closePort proc i) k = some k' →
    ∃ pr, k.procs proc = some pr ∧ ∀ j, pr'.ports j = if j ∈ is then none else pr.ports j
  | [], k, h => by
      simp only [foldlM_nil, pure, some.injEq] at h
      exact ⟨pr', h ▸ hpr', by simp⟩
  | i :: is, k, h => by
      simp only [foldlM_cons, bind, bind_eq_some_iff] at h
      obtain ⟨k₁, h₁, h⟩ := h
      obtain ⟨pr₁, hpr₁, hrest⟩ := closePorts_slots hpr' is k₁ h
      obtain ⟨pr, hpr, hslots⟩ := closePort_slots h₁ hpr₁
      refine ⟨pr, hpr, fun j => ?_⟩
      rw [hrest j, hslots]
      by_cases hj : j = i
      · simp [hj]
      · simp [hj]

namespace Registered

variable {k k' : Kernel} {proc : Ptr} {pr : Process}

/-- After the port loop no process of that thread holds a port. -/
lemma closePorts (h : Registered k) (hinv : PortInv k) (hwf : Wf k.procList k)
    (hpr : k.procs proc = some pr) (hc : k.closePorts proc = some k') : Registered k' ∧
      ∀ {q qr i p}, k'.procs q = some qr → qr.ports i = some p → qr.thread ≠ pr.thread := by
  have hreg : Registered k' := by
    refine (foldlM_invariant (I := fun k => PortInv k ∧ Registered k) ?_ _ k ⟨hinv, h⟩ hc).2
    rintro k₁ i k₂ ⟨hinv₁, h₁⟩ hcl
    exact ⟨hinv₁.closePort hcl, h₁.closePort hinv₁ hcl⟩
  refine ⟨hreg, ?_⟩
  intro q qr i p hq hi hthr
  have hw := wakes_closePorts hc
  obtain ⟨qr₀, hqr₀, -, hthr₀⟩ := hw.toFrame.proc_back hq
  have hqp : q = proc := hwf.thread_inj hqr₀ hpr (hthr₀.symm.trans hthr)
  subst hqp
  have hlt := hreg.slot_lt hq hi
  obtain ⟨_, _, hslots⟩ := closePorts_slots hq _ k hc
  rw [hslots i, if_pos (mem_range.mpr hlt)] at hi
  simp at hi

lemma withSlot (h : Registered k) (hinv : PortInv k) {token i : ℕ} (hpr : k.procs proc = some pr)
    (hi : i < maxPorts) (hfree : pr.ports i = none)
    (halive : ∃ th, k.threads pr.thread = some th ∧ th.state ≠ .dead) :
    Registered ((k.withPort token proc).setProc proc
      { pr with ports := update pr.ports i (some k.brk) }) := by
  have hpr' : (k.withPort token proc).procs proc = some pr := hpr
  refine ⟨?_, ?_, ?_⟩
  · intro q qr j r hq hj
    rcases setSlot_cases hpr' hq hj with ⟨-, rfl, -⟩ | ⟨-, qr₀, hqr₀, hj₀, -⟩
    · exact hi
    · exact h.slot_lt hqr₀ hj₀
  · intro j r hj
    rcases Store.update_eq_some hj with ⟨-, rfl⟩ | ⟨-, hj⟩
    · exact ⟨_, { pr with ports := update pr.ports i (some k.brk) }, i,
        update_self _ _ _, update_self _ _ _, update_self _ _ _⟩
    · obtain ⟨port, qr, m, hport, hqr, hm⟩ := h.filed hj
      have hne : r ≠ k.brk := Nat.ne_of_lt (hinv.port_lt hport)
      have hport' : (k.withPort token proc).ports r = some port := by
        rw [withPort_ports, update_of_ne hne, hport]
      obtain ⟨qr', hqr', hm'⟩ := setSlot_keeps (i := i) (v := some k.brk) hpr' hqr hm (by
        rintro hop rfl
        rw [hop, hpr, some.injEq] at hqr
        rw [← hqr, hfree] at hm
        simp at hm)
      exact ⟨port, qr', m, hport', hqr', hm'⟩
  · intro q qr j r hq hj
    rcases setSlot_cases hpr' hq hj with ⟨-, -, -, hthr⟩ | ⟨-, qr₀, hqr₀, hj₀, hthr⟩
    · exact hthr ▸ halive
    · exact hthr ▸ h.holder hqr₀ hj₀

/-- Reaping the dead takes no process that holds a port. -/
lemma reaped (h : Registered k) (hr : Reaped k k') : Registered k' := by
  have hports : k'.ports = k.ports := by rw [hr.rest]
  have htable : k'.portTable = k.portTable := by rw [hr.rest]
  refine ⟨fun hq hi => h.slot_lt (hr.proc_sub hq) hi, ?_, ?_⟩
  · intro i p hi
    rw [htable] at hi
    obtain ⟨port, pr, j, hport, hpr, hj⟩ := h.filed hi
    obtain ⟨th, ht, hd⟩ := h.holder hpr hj
    exact ⟨port, pr, j, by rw [hports, hport], hr.proc_keep hpr ht hd, hj⟩
  · intro q qr i p hq hi
    obtain ⟨th, ht, hd⟩ := h.holder (hr.proc_sub hq) hi
    exact ⟨th, hr.keep ht hd, hd⟩

end Registered

/-- The new port gets a place in the table and in its owner, and a process that dies by an
exception holds no port. -/
def Kernel.ownerOk (k : Kernel) : Op → Bool
  | .portCreate _ => decide (k.portTableCount < portTableSize) &&
      (k.currProc.bind k.procs).any fun pr =>
        (List.range maxPorts).any fun i => (pr.ports i).isNone
  | .exception => (k.currProc.bind k.procs).all fun pr =>
      (List.range maxPorts).all fun i => (pr.ports i).isNone
  | _ => true

namespace Registered

variable {k k' k₀ : Kernel} {R : Ptr → Prop}

lemma sysPortCreate (h : Registered k) (hinv : PortInv k) (hg : Good R k₀ k) {tsc n : ℕ}
    (hok : k.ownerOk (.portCreate tsc) = true) (hc : k.sysPortCreate tsc = some (k', n)) :
    Registered k' := by
  obtain ⟨proc, pr, hproc, hpr, ⟨hfull, -⟩ | ⟨i, hi, hfree, rfl⟩⟩ := sysPortCreate_cases hc
  · simp only [Kernel.ownerOk, hproc, hpr, bind_some, any_some, Bool.and_eq_true,
      List.any_eq_true, mem_range, isNone_iff_eq_none] at hok
    obtain ⟨-, i, hi, hnone⟩ := hok
    exact absurd hnone (hfull i hi)
  · refine h.withSlot hinv hpr hi hfree ?_
    -- the caller is running, so its thread is alive
    obtain ⟨l, hsched⟩ := hg.sched
    obtain ⟨th, ht, hd⟩ := hg.alive
    rw [Kernel.currProc, ht, bind_some] at hproc
    obtain ⟨pr', hpr', hthr⟩ := hsched.wf.process_thread ht hproc
    rw [hpr, some.injEq] at hpr'
    exact ⟨th, by rw [hpr', hthr, ht], hd⟩

lemma sysPortDestroy (h : Registered k) (hinv : PortInv k) {token : ℕ}
    (hd : k.sysPortDestroy token = some k') : Registered k' := by
  obtain ⟨proc, pr, -, hpr, rfl | ⟨i, p, k₁, hslot, h₁, h₂⟩⟩ := sysPortDestroy_cases hd
  · exact h
  · exact h.destroySlot hinv hpr (portSlotIn_eq_some _ hslot).1 h₁ h₂

/-- The end of a thread; by an exception, of a thread whose process holds no port. -/
lemma dies (h : Registered k) (hinv : PortInv k) (hwf : Wf k.procList k) {op : Op} {t : Ptr}
    (hok : k.ownerOk op = true) (hd : k.Dies op t k') : Registered k' := by
  rcases hd.ports hwf with ⟨rfl, hk⟩ | ⟨proc, pr, k₁, hpr, rfl, h₁, hk⟩
  · cases hd with
    | @exception th proc k₁ _ ht hp h₁ h₂ =>
      obtain ⟨pr, hpr, hthr⟩ := hwf.process_thread ht hp
      refine h.keeps hk ?_
      intro q qr i p hq hi heq
      have hqp : q = proc := hwf.thread_inj hq hpr (heq.trans hthr.symm)
      rw [hqp, hpr, some.injEq] at hq
      have hproc : k.currProc = some proc := by rw [Kernel.currProc, ht, bind_some, hp]
      simp only [Kernel.ownerOk, hproc, hpr, bind_some, all_some, List.all_eq_true,
        mem_range, isNone_iff_eq_none] at hok
      have hnone := hok i (h.slot_lt hpr (hq ▸ hi))
      rw [hq, hi] at hnone
      simp at hnone
  · obtain ⟨hreg₁, hfree₁⟩ := h.closePorts hinv hwf hpr h₁
    exact hreg₁.keeps hk hfree₁

lemma step (h : Registered k) (hinv : PortInv k) (hg : Good R k₀ k) {op : Op}
    (hok : k.ownerOk op = true) (hs : k.step op = some k') : Registered k' := by
  refine (step_passes hg.wf hs).ports hg.wf h (fun h hk => h.keeps hk fun _ _ => not_false)
    (fun h hr => h.reaped hr) ?_ (fun hd => h.sysPortDestroy hinv hd)
    fun hd => h.dies hinv hg.wf hok hd
  rintro tsc n k₁ rfl hc
  exact h.sysPortCreate hinv hg hok hc

end Registered

/-! ## What `port_forward` meets -/

namespace Kernel

variable {k : Kernel}

lemma portLookupIn_spec (hentry : ∀ {i p}, k.portTable i = some p → ∃ port, k.ports p = some port)
    (token : ℕ) (is : List ℕ) : ∃ found, k.portLookupIn token is = some found ∧
      ∀ p, found = some p → ∃ i, k.portTable i = some p := by
  induction is with
  | nil => exact ⟨none, rfl, nofun⟩
  | cons i is ih =>
    rw [portLookupIn]
    cases hi : k.portTable i with
    | none => exact ih
    | some p =>
      obtain ⟨port, hport⟩ := hentry hi
      simp only [hport, bind, bind_some]
      split_ifs
      · refine ⟨some p, rfl, ?_⟩
        rintro q hq
        exact ⟨i, by rw [hi, hq]⟩
      · exact ih

lemma enqueue_isSome {Q : Ptr → List Message} (h : Mailed k Q) {p : Ptr} {port : Port}
    (hp : k.ports p = some port) (node : Ptr) (msg : List UInt8) :
    ((k.withMsg msg).enqueue p port node).isSome := by
  unfold enqueue
  cases htail : port.tail with
  | none => rfl
  | some tail =>
    obtain ⟨l, b, hl⟩ := (h.queue hp).eq_snoc_of_tail htail
    have hlast : k.cell tail = some (b, none) := by
      have hlinked := (h.queue hp).linked
      rw [hl] at hlinked
      exact hlinked.last_cell
    rw [cell, map_eq_some_iff] at hlast
    obtain ⟨last, hlast, -⟩ := hlast
    by_cases ht : tail = k.brk
    · simp [withMsg, ht]
    · simp [withMsg, update_of_ne ht, hlast]

/-- When the queues and the owners of the registered ports are in order, `port_forward` comes
to its end: every block it follows a pointer to is allocated. -/
lemma portForward_isSome {Q : Ptr → List Message} (h : Mailed k Q) (hreg : Registered k)
    (hwf : Wf k.procList k) (token : ℕ) (msg : List UInt8) :
    (k.portForward token msg).isSome := by
  have hentry : ∀ {i p}, k.portTable i = some p → ∃ port, k.ports p = some port := by
    intro i p hi
    obtain ⟨port, -, -, hport, -⟩ := hreg.filed hi
    exact ⟨port, hport⟩
  obtain ⟨found, hfound, hin⟩ :=
    portLookupIn_spec hentry token (List.range k.portTableCount)
  rw [← portLookup] at hfound
  cases found with
  | none =>
    simp [portForward, hfound]
  | some p =>
    obtain ⟨i, hi⟩ := hin p rfl
    obtain ⟨port, pr, j, hport, hpr, -⟩ := hreg.filed hi
    obtain ⟨th, ht, -⟩ := hwf.thread_of hpr
    obtain ⟨k₁, h₁⟩ := isSome_iff_exists.mp (enqueue_isSome h hport k.brk msg)
    have hwake : (k₁.wakeOwner port.owner).isSome := by
      obtain ⟨m, port', -, -, rfl⟩ := enqueue_requeued h₁
      simp [wakeOwner, hpr, ht]
    obtain ⟨k₂, h₂⟩ := isSome_iff_exists.mp hwake
    refine isSome_iff_exists.mpr ⟨(k₂, msg.length), ?_⟩
    simp only [portForward, hfound, hport, bind, bind_some]
    show Option.bind ((k.withMsg msg).enqueue p port k.brk) _ = _
    rw [h₁, bind_some, h₂]
    rfl

end Kernel

/-! ## Whole runs -/

lemma registered_start {initEntry : Option ℕ} {k : Kernel} (h : start initEntry = some k) :
    Registered k := by
  rw [start_eq, some.injEq] at h
  rw [← h]
  have hprocs : ∀ q, (started initEntry).procs q = none := fun _ => rfl
  refine ⟨?_, ?_, ?_⟩
  · intro q qr i p hq
    simp [hprocs] at hq
  · intro i p hi
    simp [started, Kernel.boot] at hi
  · intro q qr i p hq
    simp [hprocs] at hq

lemma run_mailed {initEntry : Option ℕ} {k₀ k : Kernel} {ls : List Op}
    (h₀ : start initEntry = some k₀) (hrun : Run Kernel.step anyStep k₀ ls k) :
    ∃ Q, Mailed k Q := by
  induction hrun with
  | nil => exact ⟨_, (logged_start h₀).mailed⟩
  | snoc hprev _ hs ih =>
    obtain ⟨Q, hQ⟩ := ih
    exact ⟨_, hQ.step (step_mail (run_portInv h₀ hprev).1 hs)⟩

/-- In a run in which a port is created only when the table and the caller's slots have room
for it, and no process that holds a port dies by an exception, every entry of `port_table` is a
live port whose owner is on `proc_list`, held by exactly one slot of the owner and by no other
process; and `port_forward` never meets a freed block. -/
theorem registered_ports_have_owners {initEntry : Option ℕ} {k₀ k : Kernel} {ls : List Op}
    (h₀ : start initEntry = some k₀)
    (hrun : Run Kernel.step (fun k op => k.ownerOk op = true) k₀ ls k) :
    (∀ i p, k.portTable i = some p → ∃ port pr j, k.ports p = some port ∧
        port.owner ∈ k.procList ∧ k.procs port.owner = some pr ∧
        j < maxPorts ∧ pr.ports j = some p ∧ (∀ j', pr.ports j' = some p → j' = j) ∧
        ∀ q qr j', k.procs q = some qr → qr.ports j' = some p → q = port.owner) ∧
      ∀ token msg, (k.portForward token msg).isSome := by
  have hany : Run Kernel.step anyStep k₀ ls k := hrun.mono fun _ _ _ => trivial
  obtain ⟨hwf, hinv⟩ := run_portInv h₀ hany
  have hreg : Registered k := by
    clear hwf hinv hany
    induction hrun with
    | nil => exact registered_start h₀
    | snoc hprev hok hs ih =>
      have hany : Run Kernel.step anyStep k₀ _ _ := hprev.mono fun _ _ _ => trivial
      exact ih.step (run_portInv h₀ hany).2 ((good_start h₀).run hany) hok hs
  refine ⟨?_, ?_⟩
  · intro i p hi
    obtain ⟨port, pr, j, hport, hpr, hj⟩ := hreg.filed hi
    refine ⟨port, pr, j, hport, (hwf.listed _).mpr ⟨pr, hpr⟩, hpr, hreg.slot_lt hpr hj, hj,
      fun j' hj' => hinv.slot_inj hpr hj' hj, ?_⟩
    intro q qr j' hq hj'
    obtain ⟨port', hport', ho⟩ := hinv.slot hq hj'
    rw [hport, some.injEq] at hport'
    rw [← ho, hport']
  · obtain ⟨Q, hQ⟩ := run_mailed h₀ hany
    exact portForward_isSome hQ hreg hwf

/-- `init` creates two ports and destroys the first; its child dies by an exception, with no
port of its own, and is reaped. -/
theorem registered_ports_have_owners_after_reaping : ∃ k₀ k p port, start (some 7) = some k₀ ∧
    Run Kernel.step (fun k op => k.ownerOk op = true) k₀
      [.kidle, .timer, .portCreate 0, .portCreate 1, .portDestroy 0, .spawn 9, .timer, .timer,
        .timer, .exception, .cleanup] k ∧
    k.portTable 1 = some p ∧ k.ports p = some port ∧ port.owner ∈ k.procList ∧
    ∀ token msg, (k.portForward token msg).isSome := by
  obtain ⟨k, hrun, hP⟩ : ∃ k, Run Kernel.step (fun k op => k.ownerOk op = true)
      (started (some 7))
      [.kidle, .timer, .portCreate 0, .portCreate 1, .portDestroy 0, .spawn 9, .timer, .timer,
        .timer, .exception, .cleanup] k ∧ (k.portTable 1).isSome = true :=
    Run.exists_of_exec Kernel.ownerOk (fun _ _ h => h) _ (by decide +kernel) (by decide +kernel)
  obtain ⟨p, hp⟩ := isSome_iff_exists.mp hP
  obtain ⟨howned, hforward⟩ := registered_ports_have_owners (start_eq (some 7)) hrun
  obtain ⟨port, pr, j, hport, hlist, -⟩ := howned 1 p hp
  exact ⟨_, k, p, port, start_eq (some 7), hrun, hp, hport, hlist, hforward⟩

/-- `init` creates a port, dies by an exception and is reaped: the entry of its port stays, and
a message sent to it follows the pointer to the freed process.  And a process with 64 ports
creates another one: it is in the table and in no slot. -/
theorem registered_port_loses_owner :
    (∃ k₀ k p port, start (some 7) = some k₀ ∧
      Run Kernel.step kernelStep k₀ [.kidle, .timer, .portCreate 0, .exception, .cleanup] k ∧
      k.portTable 0 = some p ∧ k.ports p = some port ∧ port.owner ∉ k.procList ∧
      k.procs port.owner = none ∧ k.portForward port.token [1] = none) ∧
    ∃ k₀ k p port pr, start (some 7) = some k₀ ∧
      Run Kernel.step kernelStep k₀ (.kidle :: .timer :: replicate 65 (.portCreate 0)) k ∧
      k.portTable 64 = some p ∧ k.ports p = some port ∧ k.procs port.owner = some pr ∧
      ∀ j, j < maxPorts → pr.ports j ≠ some p := by
  refine ⟨?_, ?_⟩
  · obtain ⟨k, hrun, hP⟩ : ∃ k, Run Kernel.step kernelStep (started (some 7))
        [.kidle, .timer, .portCreate 0, .exception, .cleanup] k ∧
        ((k.portTable 0).any fun p => (k.ports p).any fun port =>
          !k.procList.contains port.owner && (k.procs port.owner).isNone &&
            (k.portForward port.token [1]).isNone) = true :=
      Run.exists_of_exec (fun _ op => !op.bare) kernelStep_of_not_bare _ (by decide +kernel)
        (by decide +kernel)
    simp only [Option.any_eq_true, Bool.and_eq_true, Bool.not_eq_true', contains_eq_mem,
      decide_eq_false_iff_not, isNone_iff_eq_none] at hP
    obtain ⟨p, hp, port, hport, ⟨hlist, hproc⟩, hforward⟩ := hP
    exact ⟨_, k, p, port, start_eq (some 7), hrun, hp, hport, hlist, hproc, hforward⟩
  · obtain ⟨k, hrun, hP⟩ : ∃ k, Run Kernel.step kernelStep (started (some 7))
        (.kidle :: .timer :: replicate 65 (.portCreate 0)) k ∧
        ((k.portTable 64).any fun p => (k.ports p).any fun port =>
          (k.procs port.owner).any fun pr =>
            (List.range maxPorts).all fun j => pr.ports j != some p) = true :=
      Run.exists_of_exec (fun _ op => !op.bare) kernelStep_of_not_bare _ (by decide +kernel)
        (by decide +kernel)
    simp only [Option.any_eq_true, List.all_eq_true, mem_range, bne_iff_ne] at hP
    obtain ⟨p, hp, port, hport, pr, hpr, hslots⟩ := hP
    exact ⟨_, k, p, port, pr, start_eq (some 7), hrun, hp, hport, hpr, hslots⟩

end CobjOs
