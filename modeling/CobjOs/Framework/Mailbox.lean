import Mathlib.Data.List.Forall2
import Mathlib.Data.List.Nodup
import Mathlib.Logic.Function.Basic
import Mathlib.Tactic.Common

/-!
# Mailboxes

Channels are opened by their owners, messages are sent to them and taken from them.  The queue of
every channel is computed from the history of events (`queues`).  `Legal` says which histories an
implementation may have: a channel is opened once, messages go to open channels and are all
different, and only the owner takes, the first message of the queue, or as much of it as the
relation `Cut` allows.

For every legal history the messages taken from a channel are, in order, the first messages sent to
it (`Legal.split`), no message is taken twice (`Legal.nodup_taken`) and who takes has opened
(`Legal.opened_of_taken`).
-/

namespace CobjOs

open Function List

/-- What can happen to channels `ι` with owners `ω`, messages `μ` and receipts `ρ`. -/
inductive MailEvent (ω ι μ ρ : Type*)
  | opened (o : ω) (c : ι)
  | sent (c : ι) (m : μ)
  | taken (o : ω) (c : ι) (r : ρ)
  deriving DecidableEq, Repr

namespace MailEvent

variable {ω ι μ ρ ν : Type*} [DecidableEq ι] {log : List (MailEvent ω ι μ ρ)}

/-- The message sent to the channel `c`. -/
def sentTo (c : ι) : MailEvent ω ι μ ρ → Option μ
  | .sent d m => if d = c then some m else none
  | _ => none

/-- The receipt given to the owner of the channel `c`. -/
def takenFrom (c : ι) : MailEvent ω ι μ ρ → Option ρ
  | .taken _ d r => if d = c then some r else none
  | _ => none

/-- The receipt, from whatever channel. -/
def receipt : MailEvent ω ι μ ρ → Option ρ
  | .taken _ _ r => some r
  | _ => none

/-- The queues after an event. -/
def apply (Q : ι → List μ) : MailEvent ω ι μ ρ → ι → List μ
  | .opened _ c => update Q c []
  | .sent c m => update Q c (Q c ++ [m])
  | .taken _ c _ => update Q c (Q c).tail

/-- The queues after a history. -/
def queues (log : List (MailEvent ω ι μ ρ)) : ι → List μ := log.foldl apply fun _ => []

lemma queues_append (log evs : List (MailEvent ω ι μ ρ)) :
    queues (log ++ evs) = evs.foldl apply (queues log) :=
  foldl_append

lemma queues_snoc (log : List (MailEvent ω ι μ ρ)) (e : MailEvent ω ι μ ρ) :
    queues (log ++ [e]) = apply (queues log) e :=
  foldl_append

lemma mem_filterMap_sentTo {c : ι} {m : μ} :
    m ∈ log.filterMap (sentTo c) ↔ .sent c m ∈ log := by
  rw [mem_filterMap]
  constructor
  · rintro ⟨e, he, hm⟩
    cases e with
    | sent d m' =>
      simp only [sentTo, Option.ite_none_right_eq_some, Option.some.injEq] at hm
      obtain ⟨rfl, rfl⟩ := hm
      exact he
    | opened _ _ => simp [sentTo] at hm
    | taken _ _ _ => simp [sentTo] at hm
  · intro h
    exact ⟨_, h, by simp [sentTo]⟩

lemma mem_filterMap_takenFrom {c : ι} {r : ρ} :
    r ∈ log.filterMap (takenFrom c) ↔ ∃ o, .taken o c r ∈ log := by
  rw [mem_filterMap]
  constructor
  · rintro ⟨e, he, hr⟩
    cases e with
    | taken o d r' =>
      simp only [takenFrom, Option.ite_none_right_eq_some, Option.some.injEq] at hr
      obtain ⟨rfl, rfl⟩ := hr
      exact ⟨o, he⟩
    | opened _ _ => simp [takenFrom] at hr
    | sent _ _ => simp [takenFrom] at hr
  · rintro ⟨o, h⟩
    exact ⟨_, h, by simp [takenFrom]⟩

omit [DecidableEq ι] in
lemma mem_filterMap_receipt {r : ρ} :
    r ∈ log.filterMap receipt ↔ ∃ o c, .taken o c r ∈ log := by
  rw [mem_filterMap]
  constructor
  · rintro ⟨e, he, hr⟩
    cases e with
    | taken o c r' =>
      simp only [receipt, Option.some.injEq] at hr
      exact ⟨o, c, hr ▸ he⟩
    | opened _ _ => simp [receipt] at hr
    | sent _ _ => simp [receipt] at hr
  · rintro ⟨o, c, h⟩
    exact ⟨_, h, rfl⟩

/-- The histories an implementation may have; `key` tells messages apart. -/
inductive Legal (Cut : ρ → μ → Prop) (key : μ → ν) : List (MailEvent ω ι μ ρ) → Prop
  | nil : Legal Cut key []
  | opened {log : List (MailEvent ω ι μ ρ)} {o : ω} {c : ι} : Legal Cut key log →
      (∀ o', .opened o' c ∉ log) → Legal Cut key (log ++ [.opened o c])
  | sent {log : List (MailEvent ω ι μ ρ)} {o : ω} {c : ι} {m : μ} : Legal Cut key log →
      .opened o c ∈ log → (∀ d m', .sent d m' ∈ log → key m' ≠ key m) →
      Legal Cut key (log ++ [.sent c m])
  | taken {log : List (MailEvent ω ι μ ρ)} {o : ω} {c : ι} {m : μ} {r : ρ} {rest : List μ} :
      Legal Cut key log → .opened o c ∈ log → queues log c = m :: rest → Cut r m →
      Legal Cut key (log ++ [.taken o c r])

namespace Legal

variable {Cut : ρ → μ → Prop} {key : μ → ν} {log : List (MailEvent ω ι μ ρ)} {c d : ι}

lemma opened_of_sent {m : μ} (h : Legal Cut key log) (hm : .sent c m ∈ log) :
    ∃ o, .opened o c ∈ log := by
  induction h with
  | nil => simp at hm
  | opened _ _ ih =>
    obtain ⟨o, ho⟩ := ih (by simpa using hm)
    exact ⟨o, mem_append_left _ ho⟩
  | @sent log o d m' _ hopen _ ih =>
    rcases mem_append.mp hm with hm | hm
    · obtain ⟨o', ho'⟩ := ih hm
      exact ⟨o', mem_append_left _ ho'⟩
    · simp only [mem_singleton, MailEvent.sent.injEq] at hm
      exact ⟨o, mem_append_left _ (hm.1 ▸ hopen)⟩
  | taken _ _ _ _ ih =>
    obtain ⟨o, ho⟩ := ih (by simpa using hm)
    exact ⟨o, mem_append_left _ ho⟩

/-- Who takes from a channel has opened it. -/
lemma opened_of_taken {o : ω} {r : ρ} (h : Legal Cut key log) (hr : .taken o c r ∈ log) :
    .opened o c ∈ log := by
  induction h with
  | nil => simp at hr
  | opened _ _ ih => exact mem_append_left _ (ih (by simpa using hr))
  | sent _ _ _ ih => exact mem_append_left _ (ih (by simpa using hr))
  | @taken log o' d m r' rest _ hopen _ _ ih =>
    rcases mem_append.mp hr with hr | hr
    · exact mem_append_left _ (ih hr)
    · simp only [mem_singleton, MailEvent.taken.injEq] at hr
      obtain ⟨rfl, rfl, -⟩ := hr
      exact mem_append_left _ hopen

lemma opened_unique {o o' : ω} (h : Legal Cut key log) (ho : .opened o c ∈ log)
    (ho' : .opened o' c ∈ log) : o = o' := by
  induction h with
  | nil => simp at ho
  | @opened log o₁ d _ hnew ih =>
    rw [mem_append, mem_singleton, MailEvent.opened.injEq] at ho ho'
    rcases ho with ho | ⟨rfl, rfl⟩ <;> rcases ho' with ho' | ⟨rfl, heq⟩
    · exact ih ho ho'
    · exact absurd ho (heq ▸ hnew o)
    · exact absurd ho' (hnew o')
    · rfl
  | sent _ _ _ ih => exact ih (by simpa using ho) (by simpa using ho')
  | taken _ _ _ _ ih => exact ih (by simpa using ho) (by simpa using ho')

/-- What was sent to a channel is what was taken from it, and then its queue. -/
theorem split (h : Legal Cut key log) (c : ι) :
    ∃ pre, log.filterMap (sentTo c) = pre ++ queues log c ∧
      List.Forall₂ Cut (log.filterMap (takenFrom c)) pre := by
  induction h with
  | nil => exact ⟨[], rfl, .nil⟩
  | @opened log o d hlog hnew ih =>
    obtain ⟨pre, hsent, htaken⟩ := ih
    rw [queues_snoc, filterMap_append, filterMap_append]
    simp only [apply, sentTo, takenFrom, filterMap_cons, filterMap_nil, append_nil]
    by_cases hcd : c = d
    · -- nothing was sent to a channel before it is opened
      subst hcd
      have hnone : log.filterMap (sentTo c) = [] := by
        rw [eq_nil_iff_forall_not_mem]
        intro m hm
        obtain ⟨o', ho'⟩ := hlog.opened_of_sent (mem_filterMap_sentTo.mp hm)
        exact hnew o' ho'
      rw [hnone, eq_comm, append_eq_nil_iff] at hsent
      exact ⟨pre, by rw [hnone, hsent.1, update_self, append_nil], htaken⟩
    · exact ⟨pre, by rw [update_of_ne hcd]; exact hsent, htaken⟩
  | @sent log o d m _ _ _ ih =>
    obtain ⟨pre, hsent, htaken⟩ := ih
    rw [queues_snoc, filterMap_append, filterMap_append]
    simp only [apply, sentTo, takenFrom, filterMap_cons, filterMap_nil, append_nil]
    refine ⟨pre, ?_, htaken⟩
    by_cases hcd : d = c
    · subst hcd
      simp [hsent]
    · simp [hcd, update_of_ne (Ne.symm hcd), hsent]
  | @taken log o d m r rest _ _ hqueue hcut ih =>
    obtain ⟨pre, hsent, htaken⟩ := ih
    rw [queues_snoc, filterMap_append, filterMap_append]
    simp only [apply, sentTo, takenFrom, filterMap_cons, filterMap_nil, append_nil]
    by_cases hcd : d = c
    · subst hcd
      refine ⟨pre ++ [m], ?_, ?_⟩
      · rw [hsent, hqueue, update_self]
        simp
      · simpa using rel_append htaken (.cons hcut .nil)
    · refine ⟨pre, ?_, ?_⟩
      · rw [update_of_ne (Ne.symm hcd), hsent]
      · simpa [hcd] using htaken

/-- The messages sent to a channel are all different. -/
lemma nodup_sent (h : Legal Cut key log) (c : ι) :
    ((log.filterMap (sentTo c)).map key).Nodup := by
  induction h with
  | nil => exact nodup_nil
  | opened _ _ ih => simpa [sentTo, filterMap_cons] using ih
  | @sent log o d m _ _ hnew ih =>
    by_cases hcd : d = c
    · subst hcd
      simp only [filterMap_append, filterMap_cons, filterMap_nil, sentTo,
        if_true, map_append, map_cons, map_nil]
      rw [← concat_eq_append, nodup_concat]
      refine ⟨?_, ih⟩
      rw [mem_map]
      rintro ⟨m', hm', hkey⟩
      exact hnew d m' (mem_filterMap_sentTo.mp hm') hkey
    · simpa [sentTo, hcd] using ih
  | taken _ _ _ _ ih => simpa [sentTo, filterMap_cons] using ih

lemma channel_unique {m m' : μ} (h : Legal Cut key log) (hm : .sent c m ∈ log)
    (hm' : .sent d m' ∈ log) (hkey : key m = key m') : c = d := by
  induction h with
  | nil => simp at hm
  | opened _ _ ih => exact ih (by simpa using hm) (by simpa using hm')
  | @sent log o e m₁ _ _ hnew ih =>
    rw [mem_append, mem_singleton, MailEvent.sent.injEq] at hm hm'
    rcases hm with hm | ⟨rfl, rfl⟩ <;> rcases hm' with hm' | ⟨rfl, rfl⟩
    · exact ih hm hm'
    · exact absurd hkey (hnew _ _ hm)
    · exact absurd hkey.symm (hnew _ _ hm')
    · rfl
  | taken _ _ _ _ ih => exact ih (by simpa using hm) (by simpa using hm')

/-- A receipt is for a message that was sent, and that is no longer in the queue. -/
lemma sent_of_taken {o : ω} {r : ρ} (h : Legal Cut key log) (hr : .taken o c r ∈ log) :
    ∃ m, Cut r m ∧ .sent c m ∈ log ∧ ∀ m' ∈ queues log c, key m' ≠ key m := by
  obtain ⟨pre, hsent, htaken⟩ := h.split c
  have hmem : r ∈ log.filterMap (takenFrom c) := mem_filterMap_takenFrom.mpr ⟨o, hr⟩
  obtain ⟨m, hm, hcut⟩ : ∃ m ∈ pre, Cut r m := by
    obtain ⟨i, hi, rfl⟩ := mem_iff_getElem.mp hmem
    have hlen := htaken.length_eq
    exact ⟨pre[i], getElem_mem _, (forall₂_iff_get.mp htaken).2 i hi (hlen ▸ hi)⟩
  refine ⟨m, hcut, ?_, ?_⟩
  · refine mem_filterMap_sentTo.mp ?_
    rw [hsent]
    exact mem_append_left _ hm
  · intro m' hm' hkey
    have hnd := h.nodup_sent c
    rw [hsent, map_append, nodup_append] at hnd
    exact hnd.2.2 (key m) (mem_map_of_mem hm) (key m') (mem_map_of_mem hm') hkey.symm

/-- No message is taken twice. -/
theorem nodup_taken {rkey : ρ → ν} (hkey : ∀ r m, Cut r m → rkey r = key m)
    (h : Legal Cut key log) : ((log.filterMap receipt).map rkey).Nodup := by
  induction h with
  | nil => exact nodup_nil
  | opened _ _ ih => simpa [receipt, filterMap_cons] using ih
  | sent _ _ _ ih => simpa [receipt, filterMap_cons] using ih
  | @taken log o c m r rest hlog _ hqueue hcut ih =>
    simp only [filterMap_append, filterMap_cons, filterMap_nil, receipt,
      map_append, map_cons, map_nil]
    rw [← concat_eq_append, nodup_concat]
    refine ⟨?_, ih⟩
    rw [mem_map]
    rintro ⟨r', hr', hrr⟩
    obtain ⟨o', d, hr'⟩ := mem_filterMap_receipt.mp hr'
    obtain ⟨m', hcut', hsent', hout⟩ := hlog.sent_of_taken hr'
    rw [hkey r m hcut, hkey r' m' hcut'] at hrr
    -- the message at the head of the queue was sent to the same channel
    have hsent : .sent c m ∈ log := by
      obtain ⟨pre, hall, -⟩ := hlog.split c
      refine mem_filterMap_sentTo.mp ?_
      rw [hall, hqueue]
      exact mem_append_right _ mem_cons_self
    have hdc : d = c := hlog.channel_unique hsent' hsent hrr
    subst hdc
    exact hout m (by rw [hqueue]; exact mem_cons_self) hrr.symm

end Legal

end MailEvent

end CobjOs
