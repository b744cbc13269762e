import CobjOs.Kernel.MailQueue
import CobjOs.Properties.Reasons

/-!
# Delivery of messages

The machine of the kernel, with a log of what `port_create`, `port_forward` and `port_receive` did.
When no two live ports have the same token, the log is a legal history of mailboxes and the queue of
every live port is the one the history gives it, so the messages a process receives from its port
are the first ones sent to it, in order, each cut to the buffer, and none of them twice.

Who receives is settled apart: `port_receive` works on the port the table gives for the token, which
is the caller's own because tokens differ, and a thread that blocks inside it keeps that port.
-/

namespace CobjOs

variable {initEntry : Option ℕ}

open Kernel Option

/-! ## Who is inside `port_receive` -/

/-- A thread inside `port_receive` was inside it before, in the same process, or is one of the
new ones `N` describes by process, port and buffer length. -/
def ReceivesFrom (N : Option Ptr → Ptr → ℕ → Prop) (k k' : Kernel) : Prop :=
  ∀ t th' p len, k'.threads t = some th' → th'.call = .receive p len →
    N th'.process p len ∨
      ∃ th, k.threads t = some th ∧ th.call = .receive p len ∧ th.process = th'.process

namespace ReceivesFrom

variable {N : Option Ptr → Ptr → ℕ → Prop} {k k' k'' : Kernel} {t : Ptr} {th : Thread}

lemma of_threads (h : k'.threads = k.threads) : ReceivesFrom N k k' := by
  intro t th' p len ht hc
  rw [h] at ht
  exact .inr ⟨th', ht, hc, rfl⟩

lemma trans (h : ReceivesFrom N k k') (h' : ReceivesFrom N k' k'') : ReceivesFrom N k k'' := by
  intro t th'' p len ht hc
  rcases h' t th'' p len ht hc with hN | ⟨th', ht', hc', hp'⟩
  · exact .inl hN
  · rcases h t th' p len ht' hc' with hN | ⟨th, ht₀, hc₀, hp₀⟩
    · exact .inl (hp' ▸ hN)
    · exact .inr ⟨th, ht₀, hc₀, hp₀.trans hp'⟩

lemma frame {T : Ptr → Thread → Thread → Prop} (hf : Frame T k k')
    (hT : ∀ t a b, T t a b → b.call = a.call ∧ b.process = a.process) : ReceivesFrom N k k' := by
  intro t th' p len ht hc
  obtain ⟨th, hth, hab⟩ := hf.thread_back ht
  obtain ⟨hcall, hproc⟩ := hT t th th' hab
  exact .inr ⟨th, hth, hcall ▸ hc, hproc.symm⟩

lemma wakes (hw : Wakes anyWake k k') : ReceivesFrom N k k' :=
  frame hw.toFrame fun _ _ _ hab => ⟨Thread.Woken.call hab, Thread.Woken.process hab⟩

lemma relink (hf : Frame relink k k') : ReceivesFrom N k k' := by
  refine frame hf fun t a b hab => ?_
  unfold CobjOs.relink at hab
  rw [hab]
  exact ⟨rfl, rfl⟩

/-- One thread rewritten in its process. -/
lemma setThread {th' : Thread} (ht : k.threads t = some th) (hp : th'.process = th.process)
    (hc : ∀ p len, th'.call = .receive p len →
      N th'.process p len ∨ th.call = .receive p len) : ReceivesFrom N k (k.setThread t th') := by
  intro u thu p len hu hcall
  rcases Store.update_eq_some hu with ⟨rfl, rfl⟩ | ⟨-, hu⟩
  · exact (hc p len hcall).imp_right fun hold => ⟨th, ht, hold, hp.symm⟩
  · exact .inr ⟨thu, hu, hcall, rfl⟩

lemma moved {ticks : ℕ} (hf : Frame (moved ticks) k k') : ReceivesFrom N k k' :=
  frame hf fun _ _ _ hab => ⟨hab.call, hab.process⟩

lemma schedule {L : List Ptr} (hwf : Wf L k) (h : k.schedule = some k') : ReceivesFrom N k k' := by
  obtain ⟨k₁, hf, hk', -⟩ := schedule_frame hwf.idle_awake h
  have hcurr : k'.threads = k₁.threads := by rw [hk']; rfl
  exact (moved hf).trans (of_threads hcurr)

lemma procCreate {entry pid : ℕ} (hc : k.procCreate entry = some (k', pid)) :
    ReceivesFrom N k k' := by
  rcases procCreate_frame hc with rfl | ⟨v, brk, fds, -, hf⟩
  · exact of_threads rfl
  have hnew : ReceivesFrom N k (k.created v brk fds) := by
    intro t th' p len ht hcall
    rcases Store.update_eq_some ht with ⟨-, rfl⟩ | ⟨-, ht⟩
    · simp at hcall
    · exact .inr ⟨th', ht, hcall, rfl⟩
  exact hnew.trans (relink hf)

/-- What the step put into `port_receive` is the running thread, by a call or coming back. -/
lemma passes (hwf : Wf k.procList k) {op : Op} {ph : Kernel.Phase} (hp : k.Passes op ph k') :
    ReceivesFrom (fun proc p len => proc = k.currProc ∧
      ∃ o, k.currProc = some o ∧ k.Receives o p len op) k k' := by
  induction hp with
  | start => exact of_threads rfl
  | woke hw => exact wakes hw.wakes
  | ticked => exact of_threads rfl
  | reaped _ hr _ _ ih =>
    refine ih.trans ?_
    intro t th' p len ht hcall
    exact .inr ⟨th', hr.sub ht, hcall, rfl⟩
  | created _ _ hc ih => exact ih.trans (procCreate hc)
  | asked _ ih => exact ih
  | @blocked th _ ht _ hb =>
    refine setThread ht hb.keeps.2.1 fun p len hcall => .inl ?_
    have hcurr : k.currProc = th.process := by rw [Kernel.currProc, ht, bind_some]
    cases hb with
    | waitPid | sleep => simp at hcall
    | receive hproc _ hrec =>
      rw [Thread.blockOnPort_call, Call.receive.injEq] at hcall
      obtain ⟨rfl, rfl⟩ := hcall
      exact ⟨hcurr.symm, _, hcurr.trans hproc, hrec⟩
  | scheduled hp hs ih | left hp hs _ ih => exact ih.trans (schedule (hp.wf hwf) hs)
  | died hd | spared hd =>
    exact frame (hd.retires hwf).frame fun _ _ _ hab => ⟨hab.call, hab.process⟩
  | @received _ _ _ _ k₁ _ th _ _ ht _ hth =>
    have ht₁ : k₁.threads k.currThread = some th := hth ▸ ht
    exact (of_threads hth).trans (setThread ht₁ rfl (by simp))
  | returned _ ht => exact setThread ht rfl (by simp)
  | bareNext _ hn => exact moved (runqueueNext_frame hn)
  | bareRemove _ _ hr => exact relink (runqueueRemove_frame hr)

end ReceivesFrom

/-! ## The kernel with its log -/

/-- A port is created only while the table has room, with a token no live port has. -/
def Kernel.sendOk (k : Kernel) : Op → Bool
  | .portCreate tsc => decide (k.portTableCount < portTableSize) &&
      (List.range k.brk).all fun p => (k.ports p).all fun port => port.token != portToken tsc
  | _ => true

/-- The kernel, and what has happened to its ports. -/
structure Logged where
  kernel : Kernel
  log : List PortEvent

namespace Logged

/-- A step of the kernel, logged. -/
def step (s : Logged) (op : Op) : Option Logged :=
  (s.kernel.step op).map fun k => { kernel := k, log := s.log ++ s.kernel.events op }

/-- Nothing has happened yet. -/
def init (k : Kernel) : Logged := { kernel := k, log := [] }

lemma step_eq_some {s s' : Logged} {op : Op} (h : s.step op = some s') :
    s.kernel.step op = some s'.kernel ∧ s'.log = s.log ++ s.kernel.events op := by
  obtain ⟨k, hk, rfl⟩ := map_eq_some_iff.mp h
  exact ⟨hk, rfl⟩

/-- Without the log, a run of the kernel. -/
lemma run_kernel {ok : Logged → Op → Prop} {s₀ s : Logged} {ls : List Op}
    (h : Run step ok s₀ ls s) : Run Kernel.step anyStep s₀.kernel ls s.kernel := by
  induction h with
  | nil => exact .nil
  | snoc _ _ hs ih => exact .snoc ih trivial (step_eq_some hs).1

/-- The log is a legal history, and the state of the ports is what the history says. -/
structure Inv (s : Logged) : Prop where
  legal : MailEvent.Legal Receipt.Cuts Prod.fst s.log
  mailed : Mailed s.kernel (MailEvent.queues s.log)
  opener : ∀ {p port}, s.kernel.ports p = some port → .opened port.owner p ∈ s.log
  tokens : ∀ {p q po qo}, s.kernel.ports p = some po → s.kernel.ports q = some qo →
    po.token = qo.token → p = q
  receivers : ∀ {t th p len}, s.kernel.threads t = some th → th.call = .receive p len →
    p < s.kernel.brk ∧ ∀ port, s.kernel.ports p = some port → th.process = some port.owner
  opened_lt : ∀ {o p}, .opened o p ∈ s.log → p < s.kernel.brk
  sent_lt : ∀ {p m}, .sent p m ∈ s.log → m.1 < s.kernel.brk

namespace Inv

variable {s s' : Logged} {op : Op}

lemma owner_of_receives (h : s.Inv) (hports : PortInv s.kernel) {proc p : Ptr} {len : ℕ}
    {port : Port} (hproc : s.kernel.currProc = some proc) (hr : s.kernel.Receives proc p len op)
    (hp : s.kernel.ports p = some port) : port.owner = proc := by
  cases hr with
  | called hpr hslot hfound =>
    -- the slot and the table agree on the port, because tokens differ
    obtain ⟨hi, qo, hqo, htok⟩ := portSlotIn_eq_some _ hslot
    obtain ⟨qo', hqo', howner⟩ := hports.slot hpr hi
    obtain rfl := mem_unique hqo hqo'
    obtain ⟨po, hpo, htok'⟩ := portLookup_eq_some hfound
    have hpq := h.tokens hpo hqo (htok'.trans htok.symm)
    subst hpq
    rw [hp, some.injEq] at hqo
    rw [hqo]
    exact howner
  | resumed ht hcall =>
    have howner := (h.receivers ht hcall).2 port hp
    rw [Kernel.currProc, ht, bind_some, howner, some.injEq] at hproc
    exact hproc

lemma legal_step {k' : Kernel} (h : s.Inv) (hports : PortInv s.kernel)
    (ht : s.kernel.MailTaken k' op) :
    MailEvent.Legal Receipt.Cuts Prod.fst (s.log ++ s.kernel.events op) := by
  cases ht with
  | same hev _ | destroyed _ _ hev _ _ | closed _ hev _ =>
    rw [hev, List.append_nil]
    exact h.legal
  | created _ _ hev _ =>
    rw [hev]
    refine .opened h.legal ?_
    intro o' ho'
    exact absurd (h.opened_lt ho') (lt_irrefl _)
  | sent _ _ hp hev _ _ =>
    rw [hev]
    refine .sent h.legal (h.opener hp) ?_
    intro d m' hm'
    exact Nat.ne_of_lt (h.sent_lt hm')
  | taken hproc hrec hp hhead hev hd _ =>
    rw [hev]
    obtain ⟨data, rest, hQ, hnode, hbytes, -⟩ := h.mailed.dequeue hp hhead hd
    have howner := h.owner_of_receives hports hproc hrec hp
    exact .taken h.legal (howner ▸ h.opener hp) hQ ⟨hnode, hbytes⟩

lemma tokens_step {k' : Kernel} (h : s.Inv) (hports : PortInv s.kernel)
    (hok : s.kernel.sendOk op = true) (ht : s.kernel.MailTaken k' op) {p q : Ptr} {po qo : Port}
    (hp : k'.ports p = some po) (hq : k'.ports q = some qo) (htok : po.token = qo.token) :
    p = q := by
  have hnew : ∀ {r ro tsc}, op = .portCreate tsc → s.kernel.ports r = some ro →
      ro.token ≠ portToken tsc := by
    rintro r ro tsc rfl hr
    simp only [Kernel.sendOk, Bool.and_eq_true, List.all_eq_true, List.mem_range] at hok
    have hall := hok.2 r (hports.port_lt hr)
    rw [hr] at hall
    simpa using hall
  rcases ht.port hp with ⟨po₀, hpo₀, hfrom⟩ | ⟨tsc, o, hop, -, rfl, rfl⟩ <;>
    rcases ht.port hq with ⟨qo₀, hqo₀, hfrom'⟩ | ⟨tsc', o', hop', -, rfl, rfl⟩
  · refine h.tokens hpo₀ hqo₀ ?_
    rw [← hfrom.token, ← hfrom'.token, htok]
  · exact absurd (hfrom.token.symm.trans htok) (hnew hop' hpo₀)
  · exact absurd (hfrom'.token.symm.trans htok.symm) (hnew hop hqo₀)
  · rfl

/-- A thread inside `port_receive` is a thread of the owner. -/
lemma receivers_step {k' : Kernel} (h : s.Inv) (hports : PortInv s.kernel)
    (hwf : Wf s.kernel.procList s.kernel) (hs : s.kernel.step op = some k') {t : Ptr}
    {th' : Thread} {p : Ptr} {len : ℕ} (ht : k'.threads t = some th')
    (hc : th'.call = .receive p len) :
    p < k'.brk ∧ ∀ port, k'.ports p = some port → th'.process = some port.owner := by
  have hmail := step_mail hwf hs
  -- before the step: the port is an old one, and its owner runs the thread
  have hold : p < s.kernel.brk ∧
      ∀ port, s.kernel.ports p = some port → th'.process = some port.owner := by
    rcases ReceivesFrom.passes hwf (step_passes hwf hs) t th' p len ht hc with
      ⟨hproc, o, ho, hrec⟩ | ⟨th, hth, hcall, hproc⟩
    · refine ⟨?_, fun port hp => ?_⟩
      · cases hrec with
        | called _ _ hfound =>
          obtain ⟨po, hpo, -⟩ := portLookup_eq_some hfound
          exact hports.port_lt hpo
        | resumed hth hcall => exact (h.receivers hth hcall).1
      · rw [hproc, ho, h.owner_of_receives hports ho hrec hp]
    · rw [← hproc]
      exact h.receivers hth hcall
  refine ⟨lt_of_lt_of_le hold.1 hmail.brk.1, fun port' hp' => ?_⟩
  rcases hmail.port hp' with ⟨port, hp, hfrom⟩ | ⟨-, -, -, -, rfl, -⟩
  · rw [hfrom.owner]
    exact hold.2 port hp
  · exact absurd hold.1 (lt_irrefl _)

lemma step (h : s.Inv) (hports : PortInv s.kernel) (hwf : Wf s.kernel.procList s.kernel)
    (hok : s.kernel.sendOk op = true) (hs : s.step op = some s') : s'.Inv := by
  obtain ⟨hk, hlog⟩ := step_eq_some hs
  have hmail := step_mail hwf hk
  have hbrk := hmail.brk
  refine ⟨?_, ?_, ?_, h.tokens_step hports hok hmail, h.receivers_step hports hwf hk, ?_, ?_⟩
  · rw [hlog]
    exact h.legal_step hports hmail
  · rw [hlog, MailEvent.queues_append]
    exact h.mailed.step hmail
  · intro p port' hp
    rw [hlog]
    rcases hmail.port hp with ⟨port, hport, hfrom⟩ | ⟨tsc, owner, rfl, howner, rfl, rfl⟩
    · rw [hfrom.owner]
      exact List.mem_append_left _ (h.opener hport)
    · exact List.mem_append_right _ (by simp [Kernel.events, Kernel.portOf, howner])
  · intro o p ho
    rw [hlog] at ho
    rcases List.mem_append.mp ho with ho | ho
    · exact lt_of_lt_of_le (h.opened_lt ho) hbrk.1
    · cases hmail with
      | created _ _ hev _ =>
        rw [hev, List.mem_singleton, MailEvent.opened.injEq] at ho
        rw [ho.2]
        exact hbrk.2 (.inl ⟨_, hev⟩)
      | same hev _ | sent _ _ _ hev _ _ | taken _ _ _ _ hev _ _ | destroyed _ _ hev _ _
      | closed _ hev _ => simp [hev] at ho
  · intro p m hm
    rw [hlog] at hm
    rcases List.mem_append.mp hm with hm | hm
    · exact lt_of_lt_of_le (h.sent_lt hm) hbrk.1
    · cases hmail with
      | sent _ _ _ hev _ _ =>
        rw [hev, List.mem_singleton, MailEvent.sent.injEq] at hm
        rw [hm.2]
        exact hbrk.2 (.inr ⟨_, _, hev⟩)
      | same hev _ | created _ _ hev _ | taken _ _ _ _ hev _ _ | destroyed _ _ hev _ _
      | closed _ hev _ => simp [hev] at hm

end Inv

end Logged

/-! ## Whole runs -/

lemma run_portInv {k₀ k : Kernel} {ls : List Op}
    (h₀ : start initEntry = some k₀) (hrun : Run Kernel.step anyStep k₀ ls k) :
    Wf k.procList k ∧ PortInv k := by
  have hwf : ∀ {ls k}, Run Kernel.step anyStep k₀ ls k → Wf k.procList k := by
    intro ls k hrun
    obtain ⟨l, hsched⟩ := ((good_start h₀).run hrun).sched
    exact hsched.wf
  refine ⟨hwf hrun, ?_⟩
  induction hrun with
  | nil => exact portInv_start h₀
  | snoc hprev _ hs ih => exact ih.step (hwf hprev) hs

lemma logged_start {k : Kernel} (h : start initEntry = some k) :
    (Logged.init k).Inv := by
  rw [start_eq, some.injEq] at h
  subst h
  have hports : ∀ p, (started initEntry).ports p = none := fun _ => rfl
  have hcall : ∀ {t th}, (started initEntry).threads t = some th → th.call = .user := by
    intro t th ht
    by_cases ht1 : t = 1
    · subst ht1
      have hfirst : some firstThread = some th := ht
      rw [some.injEq] at hfirst
      rw [← hfirst]
      rfl
    · simp [started, ht1] at ht
  have hmailed : Mailed (started initEntry) (MailEvent.queues ([] : List PortEvent)) := by
    refine ⟨?_, ?_, ?_, ?_⟩
    · exact fun hp => by simp [hports] at hp
    · exact fun hp => by simp [hports] at hp
    · exact fun hp => by simp [hports] at hp
    · exact fun hn => by simp [started, Kernel.boot] at hn
  refine ⟨.nil, hmailed, ?_, ?_, ?_, by simp [Logged.init], by simp [Logged.init]⟩
  · exact fun hp => by simp [Logged.init, hports] at hp
  · exact fun hp => by simp [Logged.init, hports] at hp
  · intro t th p len ht hc
    rw [hcall ht] at hc
    simp at hc

lemma Logged.run_inv {k₀ : Kernel} {s : Logged} {ls : List Op} (h₀ : start initEntry = some k₀)
    (hrun : Run Logged.step (fun s op => s.kernel.sendOk op = true) (Logged.init k₀) ls s) :
    s.Inv := by
  induction hrun with
  | nil => exact logged_start h₀
  | snoc hprev hok hs ih =>
    obtain ⟨hwf, hports⟩ := run_portInv h₀ (Logged.run_kernel hprev)
    exact ih.step hports hwf hok hs

/-- In a run in which ports are created with tokens that no live port has, at most 1024 of them:

* the messages received from a port are, one for one and in order, the first ones forwarded to
  it, each cut to the buffer, and the others are in its queue as long as it exists;
* no message is received twice;
* who receives from a port has created it;
* a step leaves the ports it does not work on, and their queues, as they are. -/
theorem messages_are_delivered {initEntry : Option ℕ} {k₀ : Kernel} {s : Logged} {ls : List Op}
    (h₀ : start initEntry = some k₀)
    (hrun : Run Logged.step (fun s op => s.kernel.sendOk op = true) (Logged.init k₀) ls s) :
    (∀ p, ∃ pre rest, s.log.filterMap (MailEvent.sentTo p) = pre ++ rest ∧
        List.Forall₂ Receipt.Cuts (s.log.filterMap (MailEvent.takenFrom p)) pre ∧
        ∀ port, s.kernel.ports p = some port → s.kernel.messages p = rest) ∧
      ((s.log.filterMap MailEvent.receipt).map Receipt.node).Nodup ∧
      (∀ o p r, .taken o p r ∈ s.log → .opened o p ∈ s.log ∧
        ∀ o', .opened o' p ∈ s.log → o' = o) ∧
      ∀ op s', s.step op = some s' → op ≠ .exit → (∀ pid, op ≠ .kill pid) →
        ∀ q port, s.kernel.ports q = some port → s.kernel.portOf op ≠ some q →
          s'.kernel.ports q = some port ∧ s'.kernel.messages q = s.kernel.messages q := by
  have hinv := Logged.run_inv h₀ hrun
  refine ⟨?_, hinv.legal.nodup_taken fun _ _ hcut => hcut.1, ?_, ?_⟩
  · intro p
    obtain ⟨pre, hsent, htaken⟩ := hinv.legal.split p
    exact ⟨pre, _, hsent, htaken, fun port hp => hinv.mailed.messages_eq hp⟩
  · intro o p r hr
    have hopen := hinv.legal.opened_of_taken hr
    exact ⟨hopen, fun o' ho' => hinv.legal.opened_unique ho' hopen⟩
  · intro op s' hs hexit hkill q port hq hne
    obtain ⟨hwf, -⟩ := run_portInv h₀ (Logged.run_kernel hrun)
    have hmail := step_mail hwf (Logged.step_eq_some hs).1
    have hq' := hmail.port_kept ⟨hexit, hkill⟩ hne hq
    refine ⟨hq', ?_⟩
    rw [(hinv.mailed.step hmail).messages_eq hq', hinv.mailed.messages_eq hq,
      hmail.queue_kept hne]

/-- `init` waits in `port_receive` with a buffer of two bytes; its child sends three messages;
`init` gets the first one cut, and then the second one. -/
theorem messages_are_delivered_cut : ∃ k₀ s pre rest, start (some 7) = some k₀ ∧
    Run Logged.step (fun s op => s.kernel.sendOk op = true) (Logged.init k₀)
      [.kidle, .timer, .portCreate 0, .spawn 9, .portReceive 0 2, .timer,
        .portForward 0 [1, 2, 3], .portForward 0 [4], .portForward 0 [5, 6], .timer, .timer,
        .resume, .portReceive 0 8] s ∧
    s.log.filterMap (MailEvent.takenFrom 11) = [⟨19, 2, [1, 2]⟩, ⟨20, 8, [4]⟩] ∧
    s.log.filterMap (MailEvent.sentTo 11) = pre ++ rest ∧
    List.Forall₂ Receipt.Cuts (s.log.filterMap (MailEvent.takenFrom 11)) pre := by
  obtain ⟨s, hrun, hP⟩ : ∃ s, Run Logged.step (fun s op => s.kernel.sendOk op = true)
      (Logged.init (started (some 7)))
      [.kidle, .timer, .portCreate 0, .spawn 9, .portReceive 0 2, .timer,
        .portForward 0 [1, 2, 3], .portForward 0 [4], .portForward 0 [5, 6], .timer, .timer,
        .resume, .portReceive 0 8] s ∧
      (s.log.filterMap (MailEvent.takenFrom 11) == [⟨19, 2, [1, 2]⟩, ⟨20, 8, [4]⟩]) = true :=
    Run.exists_of_exec (Kernel.sendOk ∘ Logged.kernel) (fun _ _ h => h) _ (by decide +kernel)
      (by decide +kernel)
  obtain ⟨pre, rest, hsent, htaken, -⟩ :=
    (messages_are_delivered (start_eq (some 7)) hrun).1 11
  exact ⟨_, s, pre, rest, start_eq (some 7), hrun, eq_of_beq hP, hsent, htaken⟩

end CobjOs
