import CobjOs.Framework.LinkedQueue
import CobjOs.Framework.Mailbox
import CobjOs.Kernel.PortSpec

/-!
# Ports and messages, step by step

`MailTaken` says once what a step can do to ports and messages: `port_create` adds a port,
`port_forward` adds a message, `port_receive` takes one, `port_destroy` frees a port, a dying
process destroys its ports one after the other, and everything else leaves ports and messages
alone (`SameMail`).  Each step is also an event of the mailboxes the ports implement
(`Kernel.events`).
-/

namespace CobjOs

open Function Option

/-- A message: the node it is kept in and its bytes. -/
abbrev Message := Ptr × List UInt8

/-- What a call of `port_receive` with a buffer of `len` bytes returned. -/
structure Receipt where
  node : Ptr
  len : ℕ
  bytes : List UInt8
  deriving DecidableEq, Repr

/-- The receipt is for the message, cut to the buffer. -/
def Receipt.Cuts (r : Receipt) (m : Message) : Prop :=
  r.node = m.1 ∧ r.bytes = m.2.take (min m.2.length r.len)

/-- Ports are opened by processes. -/
abbrev PortEvent := MailEvent Ptr Ptr Message Receipt

namespace Kernel

/-- The message nodes as a store of linked cells. -/
def cell (k : Kernel) (n : Ptr) : Option (List UInt8 × Option Ptr) :=
  (k.msgs n).map fun nd => (nd.data, nd.next)

/-- The queue of a port, read from its head. -/
def messages (k : Kernel) (p : Ptr) : List Message :=
  match k.ports p with
  | none => []
  | some port => collect k.cell k.walkFuel port.head

/-- The port in the slot that `sys_port_receive` and `sys_port_destroy` find. -/
def slotPort (k : Kernel) (token : ℕ) : Option Ptr := do
  let proc ← k.currProc
  let pr ← k.procs proc
  let found ← k.portSlotIn pr token (List.range maxPorts)
  found.map Prod.snd

/-- The port `port_lookup` finds. -/
def lookedUp (k : Kernel) (token : ℕ) : Option Ptr := (k.portLookup token).join

/-- The port an entry works on. -/
def portOf (k : Kernel) : Op → Option Ptr
  | .portCreate _ => some k.brk
  | .portForward token _ => k.lookedUp token
  | .portReceive token _ => (k.slotPort token).bind fun _ => k.lookedUp token
  | .portDestroy token => k.slotPort token
  | .resume =>
    match (k.threads k.currThread).map Thread.call with
    | some (.receive p _) => some p
    | _ => none
  | _ => none

/-- The receipt given by a turn of the loop of `port_receive`, if it takes a message. -/
def receiptEvents (k : Kernel) (p : Ptr) (len : ℕ) : List PortEvent :=
  match k.currProc, k.portReceiveLoop p len with
  | some proc, some (_, some r) => [.taken proc p ⟨r.node, len, r.bytes⟩]
  | _, _ => []

/-- What an entry does to the mailboxes. -/
def events (k : Kernel) (op : Op) : List PortEvent :=
  match op, k.portOf op with
  | .portCreate _, some p => k.currProc.toList.map fun proc => .opened proc p
  | .portForward _ msg, some p => [.sent p (k.brk, msg)]
  | .portReceive _ len, some p => k.receiptEvents p len
  | .resume, some p =>
    match (k.threads k.currThread).map Thread.call with
    | some (.receive _ len) => k.receiptEvents p len
    | _ => []
  | _, _ => []

end Kernel

/-! ## What leaves ports and messages alone -/

/-- The ports, their number and the messages are the same. -/
structure SameMail (k k' : Kernel) : Prop where
  ports : k'.ports = k.ports
  msgs : k'.msgs = k.msgs
  count : k'.portTableCount = k.portTableCount
  brk : k.brk ≤ k'.brk

namespace SameMail

variable {k k' k'' : Kernel}

lemma refl (k : Kernel) : SameMail k k := ⟨rfl, rfl, rfl, le_refl _⟩

lemma trans (h : SameMail k k') (h' : SameMail k' k'') : SameMail k k'' :=
  ⟨h'.ports.trans h.ports, h'.msgs.trans h.msgs, h'.count.trans h.count, h.brk.trans h'.brk⟩

lemma threadsOnly (h : ThreadsOnly k k') : SameMail k k' := by
  unfold ThreadsOnly at h
  rw [h]
  exact ⟨rfl, rfl, rfl, le_refl _⟩

lemma modProc {p : Ptr} {f : Process → Process} (h : k.modProc p f = some k') :
    SameMail k k' := by
  obtain ⟨pr, -, rfl⟩ := Kernel.modProc_eq_some h
  exact ⟨rfl, rfl, rfl, le_refl _⟩

lemma closeFd {proc : Ptr} {i : ℕ} (h : k.closeFd proc i = some k') : SameMail k k' := by
  rcases Kernel.closeFd_cases h with rfl | ⟨v, h⟩
  · exact refl k'
  · have h₀ : SameMail k { k with vfs := v } := ⟨rfl, rfl, rfl, le_refl _⟩
    exact h₀.trans (modProc h)

lemma closeFds {proc : Ptr} (h : k.closeFds proc = some k') : SameMail k k' :=
  foldlM_invariant (I := fun k₁ => SameMail k k₁) (fun _ _ _ h₁ hf => h₁.trans (closeFd hf)) _ _
    (refl k) h

lemma procCreate {entry pid : ℕ} (h : k.procCreate entry = some (k', pid)) :
    SameMail k k' := by
  rcases Kernel.procCreate_cases h with rfl | ⟨v, brk, fds, hbrk, hpush⟩
  · exact refl k'
  · have hnew : SameMail k (k.created v brk fds) := ⟨rfl, rfl, rfl, Nat.le_of_add_right_le hbrk⟩
    exact hnew.trans (threadsOnly (.runqueuePush hpush))

lemma reaped {rest : List Ptr} (hr : Reaped k k') : SameMail k (k'.setProcList rest) := by
  rw [hr.rest]
  exact ⟨rfl, rfl, rfl, le_refl _⟩

end SameMail

/-! ## What a step does to ports and messages -/

/-- Ports were destroyed, one after the other, and nothing else happened to the mail. -/
inductive Destroys (k : Kernel) : Kernel → Prop
  | same {k' : Kernel} : SameMail k k' → Destroys k k'
  | step {k₁ k₂ k' : Kernel} {p : Ptr} : Destroys k k₁ → k₁.portDestroy p = some k₂ →
      SameMail k₂ k' → Destroys k k'

namespace Destroys

variable {k k' k'' : Kernel}

lemma then_same (h : Destroys k k') (hs : SameMail k' k'') : Destroys k k'' := by
  cases h with
  | same h => exact .same (h.trans hs)
  | step h hd h' => exact .step h hd (h'.trans hs)

lemma closePort {proc : Ptr} {i : ℕ} (h : Destroys k k')
    (hc : k'.closePort proc i = some k'') : Destroys k k'' := by
  obtain ⟨pr, -, ⟨-, rfl⟩ | ⟨p, k₁, -, h₁, h₂⟩⟩ := Kernel.closePort_cases hc
  · exact h
  · exact .step h h₁ (.modProc h₂)

/-- What a process closes when it dies. -/
lemma closeAll {proc : Ptr} {k₁ : Kernel} (h₁ : k.closePorts proc = some k₁)
    (h₂ : k₁.closeFds proc = some k') : Destroys k k' := by
  have hports : Destroys k k₁ :=
    foldlM_invariant (I := fun k₁ => Destroys k k₁) (fun _ _ _ h hc => h.closePort hc) _ _
      (.same (.refl k)) h₁
  exact hports.then_same (.closeFds h₂)

lemma invariant {I : Kernel → Prop} (hsame : ∀ k k', I k → SameMail k k' → I k')
    (hdes : ∀ k p k', I k → k.portDestroy p = some k' → I k') (h : Destroys k k') (h₀ : I k) :
    I k' := by
  induction h with
  | same hs => exact hsame _ _ h₀ hs
  | step _ hd hs ih => exact hsame _ _ (hdes _ _ _ ih hd) hs

end Destroys

namespace Kernel

variable {op : Op}

lemma Receives.portOf_eq {k : Kernel} {proc p : Ptr} {len : ℕ}
    (h : k.Receives proc p len op) (hproc : k.currProc = some proc) : k.portOf op = some p := by
  cases h with
  | called hpr hslot hfound => simp [portOf, slotPort, lookedUp, hproc, hpr, hslot, hfound]
  | resumed ht hcall => simp [portOf, ht, hcall]

/-- What a step by `op` from `k` to `k'` did to ports and messages. -/
inductive MailTaken (k k' : Kernel) (op : Op) : Prop
  | same : k.events op = [] → SameMail k k' → MailTaken k k' op
  | created {tsc : ℕ} {owner : Ptr} : op = .portCreate tsc → k.currProc = some owner →
      k.events op = [.opened owner k.brk] → SameMail (k.withPort (portToken tsc) owner) k' →
      MailTaken k k' op
  | sent {token : ℕ} {msg : List UInt8} {p : Ptr} {port : Port} {k₁ : Kernel} :
      op = .portForward token msg → k.portLookup token = some (some p) →
      k.ports p = some port → k.events op = [.sent p (k.brk, msg)] →
      (k.withMsg msg).enqueue p port k.brk = some k₁ → SameMail k₁ k' → MailTaken k k' op
  | taken {proc p node : Ptr} {port : Port} {len : ℕ} {r : Received} {k₁ : Kernel} :
      k.currProc = some proc → k.Receives proc p len op → k.ports p = some port →
      port.head = some node → k.events op = [.taken proc p ⟨r.node, len, r.bytes⟩] →
      k.dequeue p port node len = some (k₁, r) → SameMail k₁ k' → MailTaken k k' op
  | destroyed {token : ℕ} {p : Ptr} {k₁ : Kernel} : op = .portDestroy token →
      k.slotPort token = some p → k.events op = [] → k.portDestroy p = some k₁ →
      SameMail k₁ k' → MailTaken k k' op
  | closed : op = .exit ∨ (∃ pid, op = .kill pid) → k.events op = [] → Destroys k k' →
      MailTaken k k' op

variable {k k' : Kernel}

/-- A turn of the loop of `port_receive` blocks on an empty queue or takes a message. -/
lemma mail_portReceiveLoop {proc p : Ptr} {len : ℕ} {r : Option Received}
    (hproc : k.currProc = some proc) (hrec : k.Receives proc p len op)
    (hev : k.events op = k.receiptEvents p len)
    (h : k.portReceiveLoop p len = some (k', r)) : MailTaken k k' op := by
  have hr : k.receiptEvents p len =
      (r.toList.map fun r => .taken proc p ⟨r.node, len, r.bytes⟩) := by
    simp only [receiptEvents, hproc, h]
    cases r <;> rfl
  rcases portReceiveLoop_cases h with
    ⟨port, th, -, -, rfl, -, hs⟩ | ⟨port, node, k₁, r', th, hport, hhead, rfl, hd, -, rfl⟩
  · exact .same (hev.trans hr)
      (.threadsOnly ((ThreadsOnly.setThread _ _).trans (.schedule hs)))
  · exact .taken hproc hrec hport hhead (hev.trans hr) hd
      (.threadsOnly (.setThread _ _))

/-- What the end of a thread does to the mail. -/
lemma Dies.mail (hwf : Wf k.procList k) {t : Ptr} (h : k.Dies op t k') :
    SameMail k k' ∨ (op = .exit ∨ ∃ pid, op = .kill pid) ∧ Destroys k k' := by
  rcases h.ends hwf with
    ⟨-, ht⟩ | ⟨hop, proc, pr, k₁, k₂, k₃, k₄, -, -, h₁, h₂, h₃, h₄, ht, -⟩
  · exact .inl (.threadsOnly ht)
  · have hdead : SameMail k₂ k₄.requestCleanup :=
      { SameMail.threadsOnly ((ThreadsOnly.runqueueRemove h₃).trans (.markDead h₄)) with }
    exact .inr ⟨hop, (Destroys.closeAll h₁ h₂).then_same (hdead.trans (.threadsOnly ht))⟩

/-- The entries other than the port calls and the return of `schedule()` inside one. -/
lemma mail_other (hwf : Wf k.procList k)
    (hop : (∀ tsc, op ≠ .portCreate tsc) ∧ (∀ token msg, op ≠ .portForward token msg) ∧
      (∀ token len, op ≠ .portReceive token len) ∧ (∀ token, op ≠ .portDestroy token) ∧
      op ≠ .resume) {ph : Phase} (hp : k.Passes op ph k') :
    SameMail k k' ∨ (op = .exit ∨ ∃ pid, op = .kill pid) ∧ Destroys k k' := by
  obtain ⟨hcreate, hforward, hreceive, hdestroy, hresume⟩ := hop
  have hthen : ∀ {c : Prop} {k₁ k₂}, SameMail k k₁ ∨ c ∧ Destroys k k₁ → SameMail k₁ k₂ →
      SameMail k k₂ ∨ c ∧ Destroys k k₂ := fun h hs =>
    h.imp (fun h => h.trans hs) fun h => ⟨h.1, h.2.then_same hs⟩
  induction hp with
  | start => exact .inl (.refl k)
  | woke hw =>
    cases hw with
    | enabled => exact .inl ⟨rfl, rfl, rfl, Nat.le_succ _⟩
    | portCreate => exact absurd rfl (hcreate _)
    | portForward => exact absurd rfl (hforward _ _)
    | portDestroy => exact absurd rfl (hdestroy _)
    | bareWake hw => exact .inl (.threadsOnly (.threadWakePid hw))
  | ticked => exact .inl ⟨rfl, rfl, rfl, le_refl _⟩
  | reaped _ hr _ _ ih => exact hthen ih (.reaped hr)
  | created _ _ hc ih => exact hthen ih (.procCreate hc)
  | asked _ ih => exact ih
  | blocked => exact .inl (.threadsOnly (.setThread _ _))
  | scheduled _ hs ih | left _ hs _ ih => exact hthen ih (.threadsOnly (.schedule hs))
  | died hd | spared hd => exact hd.mail hwf
  | received _ _ _ _ _ _ hrec =>
    obtain ⟨proc, hrec⟩ := hrec
    cases hrec with
    | called => exact absurd rfl (hreceive _ _)
    | resumed => exact absurd rfl hresume
  | returned hop => exact absurd hop hresume
  | bareNext _ hn => exact .inl (.threadsOnly (.runqueueNext hn))
  | bareRemove _ _ hr => exact .inl (.threadsOnly (.runqueueRemove hr))

lemma step_mail (hwf : Wf k.procList k) (hs : k.step op = some k') :
    MailTaken k k' op := by
  cases op with
  | portCreate tsc =>
    obtain ⟨-, n, hc⟩ := asUser_fst hs
    obtain ⟨proc, pr, hproc, -, hk'⟩ := sysPortCreate_cases hc
    have hev : k.events (.portCreate tsc) = [.opened proc k.brk] := by
      simp [events, portOf, hproc]
    rcases hk' with ⟨-, rfl⟩ | ⟨i, -, -, rfl⟩
    · exact .created rfl hproc hev (.refl _)
    · exact .created rfl hproc hev ⟨rfl, rfl, rfl, le_refl _⟩
  | portForward token msg =>
    obtain ⟨-, n, hc⟩ := asUser_fst hs
    rcases portForward_cases hc with
      ⟨hnone, rfl, -⟩ | ⟨p, port, k₂, hfound, hport, h₁, h₂, -⟩
    · exact .same (by simp [events, portOf, lookedUp, hnone]) (.refl _)
    · exact .sent rfl hfound hport (by simp [events, portOf, lookedUp, hfound]) h₁
        (.threadsOnly (.wakeOwner h₂))
  | portReceive token len =>
    obtain ⟨-, r, hc⟩ := asUser_fst hs
    simp only [sysPortReceive, bind, bind_eq_some_iff] at hc
    obtain ⟨proc, hproc, pr, hpr, slot, hslot, hc⟩ := hc
    cases slot with
    | none =>
      rw [some.injEq, Prod.mk.injEq] at hc
      refine .same ?_ (hc.1 ▸ .refl k)
      simp [events, portOf, slotPort, hproc, hpr, hslot]
    | some iq =>
      simp only [bind_eq_some_iff] at hc
      obtain ⟨found, hfound, hc⟩ := hc
      cases found with
      | none =>
        rw [some.injEq, Prod.mk.injEq] at hc
        refine .same ?_ (hc.1 ▸ .refl k)
        simp [events, portOf, lookedUp, hfound]
      | some p =>
        refine mail_portReceiveLoop hproc (.called hpr hslot hfound) ?_ hc
        simp [events, portOf, slotPort, lookedUp, hproc, hpr, hslot, hfound]
  | portDestroy token =>
    obtain ⟨-, hs⟩ := asUser_eq_some hs
    obtain ⟨proc, pr, hproc, hpr, rfl | ⟨i, p, k₁, hslot, h₁, h₂⟩⟩ := sysPortDestroy_cases hs
    · exact .same rfl (.refl _)
    · exact .destroyed rfl (by simp [slotPort, hproc, hpr, hslot]) rfl h₁ (.modProc h₂)
  | resume =>
    obtain ⟨th, proc, r, ht, hp, hr⟩ := step_resume hs
    have hproc : k.currProc = some proc := by rw [currProc, ht, bind_some, hp]
    obtain ⟨th₁, ht₁, hcase⟩ := resume_cases hr
    obtain rfl := mem_unique ht ht₁
    rcases hcase with ⟨hcall, -, hk'⟩ | ⟨p, len, hcall, hl⟩
    · refine .same ?_ (hk' ▸ .threadsOnly (.setThread _ _))
      rcases hcall with ⟨pid, hcall⟩ | ⟨t0, ms, hcall⟩ <;> simp [events, portOf, ht, hcall]
    · refine mail_portReceiveLoop hproc (.resumed ht hcall) ?_ hl
      simp [events, portOf, ht, hcall]
  | _ =>
    rcases mail_other hwf (by simp) (step_passes hwf hs) with hsame | ⟨hop, hdes⟩
    · exact .same rfl hsame
    · exact .closed hop rfl hdes

end Kernel

/-! ## The ports of before -/

/-- The port has kept its token and its owner, and a queue that is not empty was not empty
before unless a message was sent. -/
structure Port.From (sent : Prop) (port port' : Port) : Prop where
  token : port'.token = port.token
  owner : port'.owner = port.owner
  head : port'.head ≠ none → sent ∨ port.head ≠ none

lemma Port.From.refl {sent : Prop} (port : Port) : Port.From sent port port := ⟨rfl, rfl, .inr⟩

/-- Every port was there before, and only those in `F` were sent a message. -/
def PortsFrom (F : Ptr → Prop) (k k' : Kernel) : Prop :=
  ∀ p port', k'.ports p = some port' → ∃ port, k.ports p = some port ∧ Port.From (F p) port port'

namespace PortsFrom

variable {F : Ptr → Prop} {k k' k'' : Kernel}

lemma of_ports (h : k'.ports = k.ports) : PortsFrom F k k' := by
  intro p port' hp
  rw [h] at hp
  exact ⟨port', hp, .refl _⟩

lemma of_same (h : SameMail k k') : PortsFrom F k k' := of_ports h.ports

lemma trans_same (h : PortsFrom F k k') (h' : SameMail k' k'') : PortsFrom F k k'' := by
  intro p port' hp
  rw [h'.ports] at hp
  exact h p port' hp

lemma portDestroy {p : Ptr} (h : PortsFrom F k k') (hd : k'.portDestroy p = some k'') :
    PortsFrom F k k'' := by
  intro q port' hq
  rw [(Kernel.portDestroy_fields hd).1] at hq
  exact h q port' (Store.erase_eq_some hq).2

lemma destroys (h : Destroys k k') : PortsFrom F k k' :=
  h.invariant (I := fun k' => PortsFrom F k k') (fun _ _ h hs => h.trans_same hs)
    (fun _ _ _ h hd => h.portDestroy hd) (of_ports rfl)

lemma dequeue {p node : Ptr} {port : Port} {len : ℕ} {r : Received} (hp : k.ports p = some port)
    (hhead : port.head = some node) (h : k.dequeue p port node len = some (k', r)) :
    PortsFrom F k k' := by
  obtain ⟨m, port₁, htoken, howner, rfl⟩ := Kernel.dequeue_requeued h
  intro q port' hq
  rcases Store.update_eq_some hq with ⟨rfl, rfl⟩ | ⟨-, hq⟩
  · exact ⟨port, hp, htoken, howner, fun _ => .inr (by simp [hhead])⟩
  · exact ⟨port', hq, .refl _⟩

end PortsFrom

namespace Kernel

variable {k k' : Kernel} {op : Op}

/-- The port a step sends a message to. -/
def SendsTo (k : Kernel) (op : Op) (p : Ptr) : Prop :=
  ∃ token msg, op = .portForward token msg ∧ k.portLookup token = some (some p)

/-- After a step a port is an old one, or the one `port_create` has made. -/
lemma MailTaken.port {p : Ptr} {port' : Port} (h : k.MailTaken k' op)
    (hp : k'.ports p = some port') :
    (∃ port, k.ports p = some port ∧ Port.From (k.SendsTo op p) port port') ∨
      ∃ tsc owner, op = .portCreate tsc ∧ k.currProc = some owner ∧ p = k.brk ∧
        port' = { token := portToken tsc, head := none, tail := none, owner := owner } := by
  cases h with
  | same _ hs => exact .inl (PortsFrom.of_same hs p port' hp)
  | @created tsc owner hop howner _ hs =>
    rw [hs.ports] at hp
    rcases Store.update_eq_some hp with ⟨hpb, hport⟩ | ⟨-, hp⟩
    · exact .inr ⟨tsc, owner, hop, howner, hpb, hport⟩
    · exact .inl ⟨port', hp, .refl _⟩
  | @sent token msg q port k₁ hop hfound hport _ he hs =>
    obtain ⟨m, port₁, htoken, howner, rfl⟩ := enqueue_requeued he
    rw [hs.ports] at hp
    rcases Store.update_eq_some hp with ⟨rfl, rfl⟩ | ⟨-, hp⟩
    · exact .inl ⟨port, hport, htoken, howner, fun _ => .inl ⟨token, msg, hop, hfound⟩⟩
    · exact .inl ⟨port', hp, .refl _⟩
  | taken _ _ hport hhead _ hd hs =>
    have hfrom : PortsFrom (k.SendsTo op) k k' := (PortsFrom.dequeue hport hhead hd).trans_same hs
    exact .inl (hfrom p port' hp)
  | destroyed _ _ _ hd hs =>
    have hfrom : PortsFrom (k.SendsTo op) k k' :=
      ((PortsFrom.of_ports rfl).portDestroy hd).trans_same hs
    exact .inl (hfrom p port' hp)
  | closed _ _ hd => exact .inl (PortsFrom.destroys hd p port' hp)

/-- A port that a step does not work on stays as it is, unless a process dies. -/
lemma MailTaken.port_kept {q : Ptr} {port : Port} (h : k.MailTaken k' op)
    (hdeath : op ≠ .exit ∧ ∀ pid, op ≠ .kill pid) (hne : k.portOf op ≠ some q)
    (hq : k.ports q = some port) : k'.ports q = some port := by
  cases h with
  | same _ hs => rw [hs.ports, hq]
  | created hop _ _ hs =>
    subst hop
    have hqb : q ≠ k.brk := fun heq => hne (by simp [portOf, heq])
    rw [hs.ports, withPort_ports, update_of_ne hqb, hq]
  | @sent token msg p _ _ hop hfound _ _ he hs =>
    subst hop
    obtain ⟨m, port₁, -, -, rfl⟩ := enqueue_requeued he
    have hqp : q ≠ p := fun heq => hne (by simp [portOf, lookedUp, hfound, heq])
    rw [hs.ports, setPort_ports, update_of_ne hqp]
    exact hq
  | @taken proc p _ _ len _ _ hproc hrec _ _ _ hd hs =>
    have hqp : q ≠ p := fun heq => hne (heq ▸ hrec.portOf_eq hproc)
    obtain ⟨m, port₁, -, -, rfl⟩ := dequeue_requeued hd
    rw [hs.ports, setPort_ports, update_of_ne hqp]
    exact hq
  | @destroyed token p _ hop hslot _ hd hs =>
    subst hop
    have hqp : q ≠ p := fun heq => hne (heq ▸ hslot)
    rw [hs.ports, (portDestroy_fields hd).1, update_of_ne hqp, hq]
  | closed hop _ _ =>
    rcases hop with hop | ⟨pid, hop⟩
    · exact absurd hop hdeath.1
    · exact absurd hop (hdeath.2 pid)

/-- The events of a step are events of the port it works on. -/
lemma MailTaken.queue_kept {q : Ptr} (h : k.MailTaken k' op)
    (hne : k.portOf op ≠ some q) (Q : Ptr → List Message) :
    (k.events op).foldl MailEvent.apply Q q = Q q := by
  cases h with
  | same hev _ | destroyed _ _ hev _ _ | closed _ hev _ =>
    rw [hev]
    rfl
  | created hop _ hev _ =>
    have hqb : q ≠ k.brk := fun heq => hne (by simp [hop, portOf, heq])
    rw [hev]
    exact update_of_ne hqb _ _
  | @sent _ _ p _ _ hop hfound _ hev _ _ =>
    have hqp : q ≠ p := fun heq => hne (by simp [hop, portOf, lookedUp, hfound, heq])
    rw [hev]
    exact update_of_ne hqp _ _
  | @taken _ p _ _ _ _ _ hproc hrec _ _ hev _ _ =>
    have hqp : q ≠ p := fun heq => hne (heq ▸ hrec.portOf_eq hproc)
    rw [hev]
    exact update_of_ne hqp _ _

/-- Only `port_create` moves the counter of the port table. -/
lemma MailTaken.count (h : k.MailTaken k' op) :
    k'.portTableCount = k.portTableCount ∨
      (∃ tsc, op = .portCreate tsc) ∧ k'.portTableCount = k.portTableCount + 1 := by
  cases h with
  | same _ hs => exact .inl hs.count
  | created hop _ _ hs => exact .inr ⟨⟨_, hop⟩, hs.count⟩
  | sent _ _ _ _ he hs =>
    obtain ⟨m, port₁, -, -, rfl⟩ := enqueue_requeued he
    exact .inl hs.count
  | taken _ _ _ _ _ hd hs =>
    obtain ⟨m, port₁, -, -, rfl⟩ := dequeue_requeued hd
    exact .inl hs.count
  | destroyed _ _ _ hd hs => exact .inl (hs.count.trans (portDestroy_fields hd).2.2.1)
  | closed _ _ hd =>
    refine .inl (hd.invariant (I := fun k' => k'.portTableCount = k.portTableCount) ?_ ?_ rfl)
    · exact fun _ _ h hs => hs.count.trans h
    · exact fun _ _ _ h hd => (portDestroy_fields hd).2.2.1.trans h

/-- The identities handed out go upwards, and further where the log names a new one. -/
lemma MailTaken.brk (h : k.MailTaken k' op) : k.brk ≤ k'.brk ∧
    ((∃ owner, k.events op = [.opened owner k.brk]) ∨
      (∃ p msg, k.events op = [.sent p (k.brk, msg)]) → k.brk < k'.brk) := by
  cases h with
  | same hev hs => exact ⟨hs.brk, by simp [hev]⟩
  | created _ _ _ hs => exact ⟨Nat.le_of_succ_le hs.brk, fun _ => hs.brk⟩
  | sent _ _ _ _ he hs =>
    obtain ⟨m, port₁, -, -, rfl⟩ := enqueue_requeued he
    have hlt : k.brk < _ := lt_of_lt_of_le (Nat.lt_succ_self k.brk) hs.brk
    exact ⟨hlt.le, fun _ => hlt⟩
  | taken _ _ _ _ hev hd hs =>
    obtain ⟨m, port₁, -, -, rfl⟩ := dequeue_requeued hd
    exact ⟨hs.brk, by simp [hev]⟩
  | destroyed _ _ hev hd hs =>
    exact ⟨(portDestroy_fields hd).2.2.2.2 ▸ hs.brk, by simp [hev]⟩
  | closed _ hev hd =>
    refine ⟨hd.invariant (I := fun k' => k.brk ≤ k'.brk) ?_ ?_ (le_refl _), by simp [hev]⟩
    · exact fun _ _ h hs => h.trans hs.brk
    · exact fun _ _ _ h hd => (portDestroy_fields hd).2.2.2.2 ▸ h

end Kernel

end CobjOs
