import CobjOs.Kernel.Mail

/-!
# The queues of the ports

The message queue of a port is a linked list between the two pointers of its `port_t`.
`Mailed k Q` says that every live port `p` holds the list `Q p`: its cells are allocated, in
use by this port only, and `head` and `tail` are its ends.  The queues follow the events of the
mailboxes (`Mailed.step`), so the list a port holds is the one its history gives it.
-/

namespace CobjOs

open Function Kernel List Option

/-! ## The nodes `port_destroy` frees -/

/-- The loop of `port_destroy` frees the nodes it walks through and no other. -/
lemma Kernel.freeMsgs_keep {k' : Kernel} : ∀ (fuel : ℕ) (k : Kernel) (start : Option Ptr)
    (l : List Message), Linked k.cell start l → (l.map Prod.fst).Nodup →
    Kernel.freeMsgs fuel k start = some k' →
    (∀ n ∉ l.map Prod.fst, k'.msgs n = k.msgs n) ∧
      ∀ n nd, k'.msgs n = some nd → k.msgs n = some nd
  | _, k, none, _, _, _, h => by
      rw [Kernel.freeMsgs, some.injEq] at h
      subst h
      exact ⟨fun _ _ => rfl, fun _ _ hn => hn⟩
  | 0, _, some _, _, _, _, h => by simp [Kernel.freeMsgs] at h
  | fuel + 1, k, some node, l, hl, hnd, h => by
      simp only [Kernel.freeMsgs, bind, bind_eq_some_iff] at h
      obtain ⟨nd, hnode, h⟩ := h
      cases l with
      | nil => simp [Linked] at hl
      | cons x l =>
        obtain ⟨a, b⟩ := x
        obtain ⟨hstart, next, hcell, hrest⟩ := hl
        obtain rfl := some.inj hstart
        rw [Kernel.cell, hnode, map_some, some.injEq, Prod.mk.injEq] at hcell
        rw [map_cons, nodup_cons] at hnd
        have hfree : Linked ({ k with msgs := update k.msgs node none } : Kernel).cell
            nd.next l := by
          rw [hcell.2]
          refine hrest.congr fun n hn => ?_
          have hne : n ≠ node := fun heq => hnd.1 (heq ▸ hn)
          simp [Kernel.cell, update_of_ne hne]
        obtain ⟨hkeep, hsub⟩ := freeMsgs_keep fuel _ _ l hfree hnd.2 h
        refine ⟨?_, ?_⟩
        · intro n hn
          rw [map_cons, mem_cons, not_or] at hn
          rw [hkeep n hn.2]
          exact update_of_ne hn.1 _ _
        · intro n nd' hn
          exact (Store.erase_eq_some (hsub n nd' hn)).2

/-! ## The representation -/

/-- Every live port holds the queue `Q` gives it, and no node is in two queues. -/
structure Mailed (k : Kernel) (Q : Ptr → List Message) : Prop where
  queue : ∀ {p port}, k.ports p = some port → IsQueue k.cell port.head port.tail (Q p)
  node_lt : ∀ {p port n}, k.ports p = some port → n ∈ (Q p).map Prod.fst → n < k.brk
  disjoint : ∀ {p q po qo n}, k.ports p = some po → k.ports q = some qo →
    n ∈ (Q p).map Prod.fst → n ∈ (Q q).map Prod.fst → p = q
  sized : ∀ {n nd}, k.msgs n = some nd → nd.len = nd.data.length

namespace Mailed

variable {k k' k₁ : Kernel} {Q : Ptr → List Message} {p : Ptr} {port : Port}

/-- The list a port holds is the one read from its head. -/
lemma messages_eq (h : Mailed k Q) (hp : k.ports p = some port) : k.messages p = Q p := by
  rw [Kernel.messages, hp]
  refine (h.queue hp).linked.collect_eq ?_
  have hsub : (Q p).map Prod.fst ⊆ List.range k.brk :=
    fun n hn => mem_range.mpr (h.node_lt hp hn)
  have hle := (List.Nodup.subperm (h.queue hp).nodup hsub).length_le
  rw [length_map, length_range] at hle
  rw [Kernel.walkFuel]
  omega

lemma congr (h : Mailed k Q) (hs : SameMail k k') : Mailed k' Q := by
  have hcell : k'.cell = k.cell := by
    unfold Kernel.cell
    rw [hs.msgs]
  refine ⟨?_, ?_, ?_, ?_⟩
  · rw [hs.ports, hcell]
    exact h.queue
  · rw [hs.ports]
    exact fun hp hn => lt_of_lt_of_le (h.node_lt hp hn) hs.brk
  · rw [hs.ports]
    exact h.disjoint
  · rw [hs.msgs]
    exact h.sized

/-- One port gets another list: its nodes are old ones of this port or new ones, and no node
of another port is touched. -/
lemma edit {port' : Port} {l : List Message} (h : Mailed k Q) (hp : k.ports p = some port)
    (hports : k'.ports = update k.ports p (some port')) (hbrk : k.brk ≤ k'.brk)
    (hcell : ∀ n < k.brk, n ∉ (Q p).map Prod.fst → k'.cell n = k.cell n)
    (hq : IsQueue k'.cell port'.head port'.tail l)
    (hl : ∀ n ∈ l.map Prod.fst, n ∈ (Q p).map Prod.fst ∨ k.brk ≤ n ∧ n < k'.brk)
    (hsized : ∀ {n nd}, k'.msgs n = some nd → nd.len = nd.data.length) :
    Mailed k' (update Q p l) := by
  have hother : ∀ {q qo n}, q ≠ p → k.ports q = some qo → n ∈ (Q q).map Prod.fst →
      n ∉ (Q p).map Prod.fst := by
    intro q qo n hqp hq hn hn'
    exact hqp (h.disjoint hq hp hn hn')
  have hold : ∀ {q qo}, q ≠ p → k'.ports q = some qo → k.ports q = some qo := by
    intro q qo hqp hq
    rwa [hports, update_of_ne hqp] at hq
  refine ⟨?_, ?_, ?_, hsized⟩
  · intro q qo hqo
    by_cases hqp : q = p
    · rw [hqp, hports, update_self, some.injEq] at hqo
      rw [hqp, update_self, ← hqo]
      exact hq
    · rw [update_of_ne hqp]
      refine (h.queue (hold hqp hqo)).congr fun n hn => ?_
      exact hcell n (h.node_lt (hold hqp hqo) hn) (hother hqp (hold hqp hqo) hn)
  · intro q qo n hqo hn
    by_cases hqp : q = p
    · rw [hqp, update_self] at hn
      rcases hl n hn with hn | ⟨-, hlt⟩
      · exact lt_of_lt_of_le (h.node_lt hp hn) hbrk
      · exact hlt
    · rw [update_of_ne hqp] at hn
      exact lt_of_lt_of_le (h.node_lt (hold hqp hqo) hn) hbrk
  · -- a node of the new list is in no other queue
    have hnew : ∀ {q qo n}, q ≠ p → k'.ports q = some qo → n ∈ (Q q).map Prod.fst →
        n ∉ l.map Prod.fst := by
      intro q qo n hqp hqo hn hn'
      rcases hl n hn' with hn' | ⟨hle, -⟩
      · exact hother hqp (hold hqp hqo) hn hn'
      · exact absurd (h.node_lt (hold hqp hqo) hn) (Nat.not_lt.mpr hle)
    intro q r qo ro n hqo hro hn hn'
    by_cases hqp : q = p <;> by_cases hrp : r = p
    · rw [hqp, hrp]
    · rw [hqp, update_self] at hn
      rw [update_of_ne hrp] at hn'
      exact absurd hn (hnew hrp hro hn')
    · rw [hrp, update_self] at hn'
      rw [update_of_ne hqp] at hn
      exact absurd hn' (hnew hqp hqo hn)
    · rw [update_of_ne hqp] at hn
      rw [update_of_ne hrp] at hn'
      exact h.disjoint (hold hqp hqo) (hold hrp hro) hn hn'

lemma withPort (h : Mailed k Q) (token : ℕ) (owner : Ptr) :
    Mailed (k.withPort token owner) (update Q k.brk []) := by
  have hold : ∀ {q qo}, q ≠ k.brk → (k.withPort token owner).ports q = some qo →
      k.ports q = some qo := by
    intro q qo hqb hq
    rwa [withPort_ports, update_of_ne hqb] at hq
  have hne : ∀ {q n}, n ∈ (update Q k.brk [] q).map Prod.fst →
      q ≠ k.brk ∧ n ∈ (Q q).map Prod.fst := by
    intro q n hn
    by_cases hqb : q = k.brk
    · rw [hqb, update_self] at hn
      simp at hn
    · rw [update_of_ne hqb] at hn
      exact ⟨hqb, hn⟩
  refine ⟨?_, ?_, ?_, h.sized⟩
  · intro q qo hq
    by_cases hqb : q = k.brk
    · rw [hqb, withPort_ports, update_self, some.injEq] at hq
      rw [hqb, update_self, ← hq]
      exact .empty
    · rw [update_of_ne hqb]
      exact h.queue (hold hqb hq)
  · intro q qo n hq hn
    obtain ⟨hqb, hn⟩ := hne hn
    exact Nat.lt_succ_of_lt (h.node_lt (hold hqb hq) hn)
  · intro q r qo ro n hq hr hn hn'
    obtain ⟨hqb, hn⟩ := hne hn
    obtain ⟨hrb, hn'⟩ := hne hn'
    exact h.disjoint (hold hqb hq) (hold hrb hr) hn hn'

lemma enqueue {msg : List UInt8} (h : Mailed k Q) (hp : k.ports p = some port)
    (he : (k.withMsg msg).enqueue p port k.brk = some k') :
    Mailed k' (update Q p (Q p ++ [(k.brk, msg)])) := by
  have hq := h.queue hp
  have hnew : k.brk ∉ (Q p).map Prod.fst := fun hn => absurd (h.node_lt hp hn) (lt_irrefl _)
  have hnodes : ∀ n ∈ (Q p ++ [(k.brk, msg)]).map Prod.fst,
      n ∈ (Q p).map Prod.fst ∨ k.brk ≤ n ∧ n < k.brk + 1 := by
    intro n hn
    rw [map_append, mem_append, map_cons, map_nil, mem_singleton] at hn
    rcases hn with hn | hn
    · exact .inl hn
    · rw [hn]
      exact .inr ⟨le_refl _, Nat.lt_succ_self _⟩
  have hsize : ∀ {n nd}, (k.withMsg msg).msgs n = some nd → nd.len = nd.data.length := by
    intro n nd hn
    rcases Store.update_eq_some hn with ⟨-, rfl⟩ | ⟨-, hn⟩
    · rfl
    · exact h.sized hn
  unfold Kernel.enqueue at he
  cases htail : port.tail with
  | none =>
    -- the first message
    simp only [htail, some.injEq] at he
    subst he
    refine h.edit hp rfl (Nat.le_succ _) ?_ ?_ hnodes hsize
    · intro n hlt _
      simp [Kernel.cell, update_of_ne (Nat.ne_of_lt hlt)]
    · rw [hq.nil_of_tail htail]
      exact .push_first (by simp [Kernel.cell])
  | some tail =>
    simp only [htail, bind, bind_eq_some_iff, some.injEq] at he
    obtain ⟨last, hlast, rfl⟩ := he
    obtain ⟨l, b, hl⟩ := hq.eq_snoc_of_tail htail
    have hmem : tail ∈ (Q p).map Prod.fst := by simp [hl]
    have hne : tail ≠ k.brk := Nat.ne_of_lt (h.node_lt hp hmem)
    have hlast₀ : k.msgs tail = some last := by
      rwa [withMsg_msgs, update_of_ne hne] at hlast
    have hcell : k.cell tail = some (last.data, last.next) := by rw [Kernel.cell, hlast₀]; rfl
    have hnone : k.cell tail = some (last.data, none) := by
      have hend := hq.linked
      rw [hl] at hend
      rw [hend.last_cell, some.injEq, Prod.mk.injEq] at hcell
      rw [hend.last_cell, hcell.1]
    refine h.edit hp rfl (Nat.le_succ _) ?_ ?_ hnodes ?_
    · intro n hlt hn
      have hnt : n ≠ tail := fun heq => hn (heq ▸ hmem)
      simp [Kernel.cell, update_of_ne (Nat.ne_of_lt hlt), update_of_ne hnt]
    · refine hq.push htail hnone hnew ?_ ?_ ?_
      · simp [Kernel.cell, update_of_ne hne.symm]
      · simp [Kernel.cell]
      · intro n hn hnt
        have hnb : n ≠ k.brk := Nat.ne_of_lt (h.node_lt hp hn)
        simp [Kernel.cell, update_of_ne hnb, update_of_ne hnt]
    · intro n nd hn
      rcases Store.update_eq_some hn with ⟨-, rfl⟩ | ⟨-, hn⟩
      · exact (h.sized hlast₀ :)
      · exact hsize hn

lemma dequeue {node : Ptr} {len : ℕ} {r : Received} (h : Mailed k Q)
    (hp : k.ports p = some port) (hhead : port.head = some node)
    (hd : k.dequeue p port node len = some (k', r)) :
    ∃ data rest, Q p = (node, data) :: rest ∧ r.node = node ∧
      r.bytes = data.take (min data.length len) ∧ Mailed k' (update Q p rest) := by
  simp only [Kernel.dequeue, bind, bind_eq_some_iff, some.injEq,
    Prod.mk.injEq] at hd
  obtain ⟨nd, hnd, rfl, rfl⟩ := hd
  obtain ⟨data, next, rest, hQ, hcell, hout, hrest⟩ := (h.queue hp).pop hhead
  have hndcell : k.cell node = some (nd.data, nd.next) := by rw [Kernel.cell, hnd]; rfl
  obtain ⟨rfl, rfl⟩ := Prod.mk.inj (mem_unique hndcell hcell)
  refine ⟨nd.data, rest, hQ, rfl, ?_, ?_⟩
  · have hcopy : (if nd.data.length < len then nd.data.length else len) =
        min nd.data.length len := by
      split_ifs with hlt
      · exact (Nat.min_eq_left hlt.le).symm
      · exact (Nat.min_eq_right (Nat.not_lt.mp hlt)).symm
    rw [h.sized hnd, hcopy]
  · refine h.edit hp rfl (le_refl _) ?_ ?_ ?_ ?_
    · intro n _ hn
      have hne : n ≠ node := fun heq => hn (by simp [hQ, heq])
      simp [Kernel.cell, update_of_ne hne]
    · refine hrest.congr fun n hn => ?_
      have hne : n ≠ node := fun heq => hout (heq ▸ hn)
      simp [Kernel.cell, update_of_ne hne]
    · intro n hn
      exact .inl (by rw [hQ]; exact mem_cons_of_mem _ hn)
    · intro n nd' hn
      exact h.sized (Store.erase_eq_some hn).2

lemma portDestroy (h : Mailed k Q) (hd : k.portDestroy p = some k') : Mailed k' Q := by
  simp only [Kernel.portDestroy, bind, bind_eq_some_iff, some.injEq] at hd
  obtain ⟨port, hp, k₁, h₁, k₂, h₂, rfl⟩ := hd
  have hw : Mailed k₁ Q := h.congr (.threadsOnly (.wakeOwner h₁))
  have hp₁ : k₁.ports p = some port := by
    rw [(SameMail.threadsOnly (.wakeOwner h₁)).ports]
    exact hp
  have hq := hw.queue hp₁
  obtain ⟨hkeep, hsub⟩ := freeMsgs_keep _ _ _ (Q p) hq.linked hq.nodup h₂
  have heq := freeMsgs_eq _ _ _ h₂
  have hports : k₂.ports = k₁.ports := by rw [heq]
  have hbrk : k₂.brk = k₁.brk := by rw [heq]
  have hold : ∀ {q qo}, update k₂.ports p none q = some qo →
      q ≠ p ∧ k₁.ports q = some qo := by
    rw [hports]
    exact Store.erase_eq_some
  refine ⟨?_, ?_, ?_, fun hn => hw.sized (hsub _ _ hn)⟩
  · intro q qo hqo
    obtain ⟨hqp, hqo⟩ := hold hqo
    refine (hw.queue hqo).congr fun n hn => ?_
    have hout : n ∉ (Q p).map Prod.fst := fun hn' => hqp (hw.disjoint hqo hp₁ hn hn')
    show (k₂.msgs n).map _ = _
    rw [hkeep n hout]
    rfl
  · intro q qo n hqo hn
    show n < k₂.brk
    rw [hbrk]
    exact hw.node_lt (hold hqo).2 hn
  · intro q r qo ro n hqo hro
    exact hw.disjoint (hold hqo).2 (hold hro).2

/-- The queues follow the events. -/
theorem step {op : Op} (h : Mailed k Q) (ht : k.MailTaken k' op) :
    Mailed k' ((k.events op).foldl MailEvent.apply Q) := by
  cases ht with
  | same hev hs =>
    rw [hev]
    exact h.congr hs
  | created _ _ hev hs =>
    rw [hev]
    exact (h.withPort _ _).congr hs
  | sent _ _ hp hev he hs =>
    rw [hev]
    exact (h.enqueue hp he).congr hs
  | taken _ _ hp hhead hev hd hs =>
    obtain ⟨data, rest, hQ, -, -, h'⟩ := h.dequeue hp hhead hd
    rw [hev, foldl_cons, foldl_nil, MailEvent.apply, hQ]
    exact h'.congr hs
  | destroyed _ _ hev hd hs =>
    rw [hev]
    exact (h.portDestroy hd).congr hs
  | closed _ hev hd =>
    rw [hev]
    exact hd.invariant (I := fun k => Mailed k Q) (fun _ _ h hs => h.congr hs)
      (fun _ _ _ h hd => h.portDestroy hd) h

end Mailed

end CobjOs
