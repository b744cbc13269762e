import Mathlib.Data.List.GetD
import Mathlib.Data.List.Induction
import CobjOs.Devices.Keyboard

/-!
# The keyboard queue and the shift keys

The circular buffer of `kb.c` is a queue of capacity 255 that drops what comes while it is full, for
every interleaving of interrupts with the accesses of the readers in which the calls of
`kbd_getevent` do not overlap.  Two overlapping calls return one event twice and lose the next,
since a reader copies the event at the tail before it moves the tail.

The flag `mods.shift` says whether a shift key is held as long as no shift key is released
while the other one is held.
-/

namespace CobjOs

open List Option

/-! ## The queue -/

namespace Kbd

/-- The events in the buffer. -/
def queue (k : Kbd) : List KbdEvent :=
  CircularBuffer.contents kbdBufSize k.buf k.head k.tail

/-- The indices are inside the buffer. -/
structure InRange (k : Kbd) : Prop where
  head : k.head < kbdBufSize
  tail : k.tail < kbdBufSize

variable {k : Kbd}

lemma hasevent_iff (h : k.InRange) : k.hasevent = true ↔ k.queue ≠ [] := by
  rw [queue, ne_eq, CircularBuffer.contents_eq_nil h.head h.tail]
  simp [hasevent]

/-- The two outcomes of `kbd_push`. -/
lemma push_cases (ev : KbdEvent) :
    ((k.head + 1) % kbdBufSize ≠ k.tail ∧ k.push ev =
        { k with buf := Function.update k.buf k.head ev, head := (k.head + 1) % kbdBufSize }) ∨
      ((k.head + 1) % kbdBufSize = k.tail ∧ k.push ev = k) := by
  by_cases hnext : (k.head + 1) % kbdBufSize = k.tail
  · exact .inr ⟨hnext, by simp [push, hnext]⟩
  · exact .inl ⟨hnext, by simp [push, hnext]⟩

lemma push_tail (ev : KbdEvent) : (k.push ev).tail = k.tail := by
  obtain ⟨_, h⟩ | ⟨_, h⟩ := k.push_cases ev <;> rw [h]

lemma push_inRange (h : k.InRange) (ev : KbdEvent) : (k.push ev).InRange := by
  obtain ⟨_, hp⟩ | ⟨_, hp⟩ := k.push_cases ev
  · rw [hp]
    exact ⟨Nat.mod_lt _ (by decide), h.tail⟩
  · rwa [hp]

/-- `kbd_push` offers the event to a queue of 255 places. -/
lemma queue_push (h : k.InRange) (ev : KbdEvent) :
    (k.push ev).queue = if k.queue.length < 255 then k.queue ++ [ev] else k.queue := by
  have hroom : k.queue.length < 255 ↔ (k.head + 1) % kbdBufSize ≠ k.tail :=
    CircularBuffer.length_contents_lt h.head h.tail
  obtain ⟨hnext, hp⟩ | ⟨hfull, hp⟩ := k.push_cases ev
  · rw [if_pos (hroom.2 hnext), hp]
    exact CircularBuffer.contents_push h.head h.tail hnext ev
  · rw [if_neg fun hlt => hroom.1 hlt hfull, hp]

lemma push_ne (h : k.InRange) (ev : KbdEvent) : (k.push ev).head ≠ (k.push ev).tail := by
  obtain ⟨hnext, hp⟩ | ⟨hfull, hp⟩ := k.push_cases ev
  · rwa [hp]
  · rw [hp]
    have hcases := CircularBuffer.next_cases h.head
    have hsize : kbdBufSize = 256 := rfl
    omega

lemma push_buf_tail (hne : k.head ≠ k.tail) (ev : KbdEvent) :
    (k.push ev).buf k.tail = k.buf k.tail := by
  obtain ⟨_, hp⟩ | ⟨_, hp⟩ := k.push_cases ev
  · rw [hp]
    exact Function.update_of_ne hne.symm _ _
  · rw [hp]

end Kbd

/-- What a reader has in its registers is right for the driver it reads from. -/
def Reader.Good (k : Kbd) : Reader → Prop
  | .outside | .waiting => True
  | .comparing head => head ≠ k.tail → k.head ≠ k.tail
  | .found => k.head ≠ k.tail
  | .indexed tail => k.head ≠ k.tail ∧ tail = k.tail
  | .copied ev => k.head ≠ k.tail ∧ ev = k.buf k.tail
  | .advancing ev tail => k.head ≠ k.tail ∧ ev = k.buf k.tail ∧ tail = k.tail

lemma Reader.Good.push {k : Kbd} {r : Reader} (h : r.Good k) (hk : k.InRange) (ev : KbdEvent) :
    r.Good (k.push ev) := by
  have hne := Kbd.push_ne hk ev
  cases r with
  | outside => trivial
  | waiting => trivial
  | comparing head => exact fun _ => hne
  | found => exact hne
  | indexed tail => exact ⟨hne, h.2.trans (Kbd.push_tail ev).symm⟩
  | copied ev' =>
    refine ⟨hne, ?_⟩
    rw [Kbd.push_tail, Kbd.push_buf_tail h.1]
    exact h.2
  | advancing ev' tail =>
    refine ⟨hne, ?_⟩
    rw [Kbd.push_tail, Kbd.push_buf_tail h.1]
    exact h.2

namespace KbdSys

/-- The log is a history of the queue in the buffer, and at most one thread is in a call. -/
structure Inv (s : KbdSys) : Prop where
  range : s.kbd.InRange
  replay : Fifo.replay 255 [] s.log = some s.kbd.queue
  good : ∀ r ∈ s.readers, r.Good s.kbd
  solo : ∀ (i j : ℕ) (r r' : Reader), s.readers[i]? = some r → s.readers[j]? = some r' →
    r ≠ .outside → r' ≠ .outside → i = j

variable {s s' : KbdSys} {i : ℕ} {r : Reader}

lemma inv_start (n : ℕ) : (start n).Inv where
  range := ⟨Nat.succ_pos 255, Nat.succ_pos 255⟩
  replay := by
    have hnil : (start n).kbd.queue = [] :=
      (CircularBuffer.contents_eq_nil (Nat.succ_pos 255) (Nat.succ_pos 255)).2 rfl
    rw [hnil]
    rfl
  good := fun r hr => by rw [eq_of_mem_replicate hr]; trivial
  solo := fun i j r r' hi _ hr _ =>
    absurd (eq_of_mem_replicate (mem_of_getElem? hi)) hr

lemma Inv.interrupt (h : s.Inv) (sc : UInt8) : (s.interrupt sc).Inv := by
  -- the modifiers are not part of what the invariant is about
  have hrange : Kbd.InRange { s.kbd with mods := modsAfter s.kbd.mods sc } := ⟨h.1.1, h.1.2⟩
  have hgood : ∀ r ∈ s.readers, r.Good { s.kbd with mods := modsAfter s.kbd.mods sc } :=
    fun r hr => by cases r <;> exact h.good _ hr
  unfold KbdSys.interrupt Kbd.handleScancode
  cases hev : eventOf (modsAfter s.kbd.mods sc) sc with
  | none =>
    simp only [hev, map_none, toList_none, append_nil]
    exact ⟨hrange, h.replay, hgood, h.solo⟩
  | some ev =>
    simp only [hev, map_some, toList_some]
    refine ⟨Kbd.push_inRange hrange ev, ?_, fun r hr => (hgood r hr).push hrange ev, h.solo⟩
    rw [Fifo.replay_snoc h.replay, Kbd.queue_push hrange]
    rfl

lemma Inv.alone (h : s.Inv) (hok : s.Solo (.reader i)) (hi : s.readers[i]? = some r) :
    ∀ j r', j ≠ i → s.readers[j]? = some r' → r' = .outside := by
  intro j r' hji hj
  by_contra hr'
  by_cases hr : r = .outside
  · exact hr' (hok (hr ▸ hi) r' (mem_of_getElem? hj))
  · exact hji (h.solo j i r' r hj hi hr' hr)

lemma Inv.of_set {k : Kbd} {log : List (FifoEvent KbdEvent)}
    (halone : ∀ j r', j ≠ i → s.readers[j]? = some r' → r' = .outside) (hrange : k.InRange)
    (hreplay : Fifo.replay 255 [] log = some k.queue) (hr : r.Good k) :
    KbdSys.Inv ⟨k, s.readers.set i r, log⟩ := by
  have hout : ∀ j r', j ≠ i → (s.readers.set i r)[j]? = some r' → r' = .outside := by
    intro j r' hji hj
    rw [getElem?_set_ne hji.symm] at hj
    exact halone j r' hji hj
  refine ⟨hrange, hreplay, ?_, ?_⟩
  · intro r' hr'
    obtain ⟨j, hj⟩ := mem_iff_getElem?.1 hr'
    by_cases hji : j = i
    · subst hji
      rw [getElem?_set_self'] at hj
      obtain ⟨_, _, rfl⟩ := map_eq_some_iff.1 hj
      exact hr
    · rw [hout j r' hji hj]
      trivial
  · intro j j' r₁ r₂ hj hj' hr₁ hr₂
    have hji : j = i := by
      by_contra hne
      exact hr₁ (hout j r₁ hne hj)
    have hji' : j' = i := by
      by_contra hne
      exact hr₂ (hout j' r₂ hne hj')
    rw [hji, hji']

/-- One access of the only thread in a call. -/
lemma Inv.access (h : s.Inv) (hok : s.Solo (.reader i)) (hi : s.readers[i]? = some r) :
    (s.access i r).Inv := by
  have halone := h.alone hok hi
  have hr : r.Good s.kbd := h.good r (mem_of_getElem? hi)
  cases r with
  | outside => exact Inv.of_set halone h.range h.replay trivial
  | waiting => exact Inv.of_set halone h.range h.replay id
  | comparing head =>
    by_cases heq : head = s.kbd.tail
    · simp only [KbdSys.access, if_pos heq]
      exact Inv.of_set halone h.range h.replay trivial
    · simp only [KbdSys.access, if_neg heq]
      exact Inv.of_set halone h.range h.replay (hr heq)
  | found => exact Inv.of_set halone h.range h.replay ⟨hr, rfl⟩
  | indexed tail => exact Inv.of_set halone h.range h.replay ⟨hr.1, congrArg s.kbd.buf hr.2⟩
  | copied ev => exact Inv.of_set halone h.range h.replay ⟨hr.1, hr.2, rfl⟩
  | advancing ev tail =>
    obtain ⟨hne, rfl, rfl⟩ := hr
    refine Inv.of_set halone ⟨h.range.head, Nat.mod_lt _ (by decide)⟩ ?_ trivial
    have hpop : s.kbd.queue = _ := CircularBuffer.contents_pop h.range.head h.range.tail hne
    rw [Fifo.replay_snoc h.replay, hpop]
    simp [Fifo.step, Kbd.queue]

lemma Inv.step {op : KbdOp} (h : s.Inv) (hok : s.Solo op) (hs : s.step op = some s') :
    s'.Inv := by
  cases op with
  | scancode sc =>
    obtain rfl := some.inj hs
    exact h.interrupt sc
  | reader i =>
    obtain ⟨r, hr, rfl⟩ := map_eq_some_iff.1 hs
    exact h.access hok hr

end KbdSys

/-- **The keyboard queue.**  With calls of `kbd_getevent` that do not overlap, and interrupts
anywhere, the buffer is a queue of capacity 255 that drops what is offered while it is full:
the log is a history of that queue, `kbd_hasevent` says whether it is empty, and the events
accepted are those returned followed by those still in the queue. -/
theorem keyboard_buffer_refines_bounded_queue {n : ℕ} {ops : List KbdOp} {s : KbdSys}
    (h : Run KbdSys.step KbdSys.Solo (.start n) ops s) :
    s.kbd.head < 256 ∧ s.kbd.tail < 256 ∧
      ∃ q, Fifo.replay 255 [] s.log = some q ∧ (s.kbd.hasevent = true ↔ q ≠ []) ∧
        Fifo.accepted 255 [] s.log = Fifo.takenOf s.log ++ q := by
  have hinv : s.Inv := h.invariant (KbdSys.inv_start n) fun _ _ _ hi hok hs => hi.step hok hs
  refine ⟨hinv.range.head, hinv.range.tail, s.kbd.queue, hinv.replay,
    Kbd.hasevent_iff hinv.range, ?_⟩
  simpa using Fifo.accepted_eq s.log [] hinv.replay

/-- The keys `a` and `s` are pressed and a reader takes the first event. -/
theorem keyboard_buffer_refines_bounded_queue_two_keys :
    ∃ s, Run KbdSys.step KbdSys.Solo (.start 1)
        ([.scancode 0x1e, .scancode 0x1f] ++ KbdOp.getevent 0) s ∧
      (Fifo.takenOf s.log).map KbdEvent.ch = cstr "a" ∧
      ∃ q, Fifo.replay 255 [] s.log = some q ∧ (s.kbd.hasevent = true ↔ q ≠ []) := by
  have hev : ∃ s, Run KbdSys.step KbdSys.Solo (.start 1)
      ([.scancode 0x1e, .scancode 0x1f] ++ KbdOp.getevent 0) s ∧
      decide ((Fifo.takenOf s.log).map KbdEvent.ch = cstr "a") = true :=
    Run.exists_of_exec (fun (s : KbdSys) op => decide (s.Solo op)) (fun _ _ => of_decide_eq_true)
      (fun s : KbdSys => decide ((Fifo.takenOf s.log).map KbdEvent.ch = cstr "a"))
      (by decide +kernel) (by decide +kernel)
  obtain ⟨s, hrun, hs⟩ := hev
  obtain ⟨_, _, q, hq, hne, _⟩ := keyboard_buffer_refines_bounded_queue hrun
  exact ⟨s, hrun, of_decide_eq_true hs, q, hq, hne⟩

/-- Two readers that overlap.  The first has copied the event of `a` when the timer switches to
the second, which makes a whole call; the first then moves the tail once more.  Both return the
event of `a`, and that of `s`, which was accepted, is gone. -/
theorem overlapping_reads_repeat_and_lose_events :
    ∃ s, Run KbdSys.step (fun _ _ => True) (.start 2)
        ([.scancode 0x1e, .scancode 0x1f] ++ replicate 5 (.reader 0) ++
          KbdOp.getevent 1 ++ replicate 2 (.reader 0)) s ∧
      (Fifo.accepted 255 [] s.log).map KbdEvent.ch = cstr "as" ∧
      (Fifo.takenOf s.log).map KbdEvent.ch = cstr "aa" ∧ s.kbd.hasevent = false ∧
      Fifo.replay 255 [] s.log = none := by
  have hev : ∃ s, Run KbdSys.step (fun _ _ => True) (.start 2)
        ([.scancode 0x1e, .scancode 0x1f] ++ replicate 5 (.reader 0) ++
          KbdOp.getevent 1 ++ replicate 2 (.reader 0)) s ∧
      decide ((Fifo.accepted 255 [] s.log).map KbdEvent.ch = cstr "as" ∧
        (Fifo.takenOf s.log).map KbdEvent.ch = cstr "aa" ∧ s.kbd.hasevent = false ∧
        Fifo.replay 255 [] s.log = none) = true :=
    Run.exists_of_exec (fun _ _ => true) (fun _ _ _ => trivial)
      (fun s : KbdSys => decide ((Fifo.accepted 255 [] s.log).map KbdEvent.ch = cstr "as" ∧
        (Fifo.takenOf s.log).map KbdEvent.ch = cstr "aa" ∧ s.kbd.hasevent = false ∧
        Fifo.replay 255 [] s.log = none))
      (by decide +kernel) (by decide +kernel)
  obtain ⟨s, hrun, hs⟩ := hev
  exact ⟨s, hrun, of_decide_eq_true hs⟩

/-! ## The shift keys -/

/-- The scancodes given to the driver one after the other. -/
def Kbd.feed (k : Kbd) (scs : List UInt8) : Kbd := scs.foldl Kbd.handleScancode k

/-- The key was last seen pressed. -/
def lastPressed (key : UInt8) (scs : List UInt8) : Bool :=
  (scs.reverse.find? fun sc => keyOf sc = key).any fun sc => !released sc

/-- Some shift key was last seen pressed. -/
def shiftHeld (scs : List UInt8) : Bool := lastPressed 0x2a scs || lastPressed 0x36 scs

/-- No shift key is released while the other one is held. -/
def ShiftsApart (scs : List UInt8) : Prop :=
  ∀ i < scs.length, released (scs.getD i 0) = true →
    (keyOf (scs.getD i 0) = 0x2a → lastPressed 0x36 (scs.take i) = false) ∧
      (keyOf (scs.getD i 0) = 0x36 → lastPressed 0x2a (scs.take i) = false)

instance (scs : List UInt8) : Decidable (ShiftsApart scs) :=
  inferInstanceAs (Decidable (∀ i < scs.length, _))

section Shift

variable {scs : List UInt8} {sc key : UInt8}

lemma lastPressed_snoc :
    lastPressed key (scs ++ [sc]) =
      if keyOf sc = key then !released sc else lastPressed key scs := by
  rw [lastPressed, reverse_append, reverse_singleton, singleton_append,
    find?_cons]
  by_cases hkey : keyOf sc = key
  · simp [hkey]
  · simp [hkey, lastPressed]

lemma ShiftsApart.snoc (h : ShiftsApart (scs ++ [sc])) :
    ShiftsApart scs ∧ (released sc = true →
      (keyOf sc = 0x2a → lastPressed 0x36 scs = false) ∧
        (keyOf sc = 0x36 → lastPressed 0x2a scs = false)) := by
  constructor
  · intro i hi
    have hi' := h i (by simp; omega)
    rw [getD_append _ _ _ _ hi, take_append_of_le_length (Nat.le_of_lt hi)] at hi'
    exact hi'
  · have hlast := h scs.length (by simp)
    rwa [getD_append_right _ _ _ _ (Nat.le_refl _), Nat.sub_self, take_left' rfl] at hlast

lemma Kbd.push_mods (k : Kbd) (ev : KbdEvent) : (k.push ev).mods = k.mods := by
  obtain ⟨_, h⟩ | ⟨_, h⟩ := k.push_cases ev <;> rw [h]

lemma Kbd.handleScancode_mods (k : Kbd) : (k.handleScancode sc).mods = modsAfter k.mods sc := by
  unfold Kbd.handleScancode
  dsimp only
  split
  · rw [Kbd.push_mods]
  · rfl

lemma scancodeKeycode_shift (code : UInt8) :
    (scancodeKeycode code = .lshift ∨ scancodeKeycode code = .rshift) ↔
      (code = 0x2a ∨ code = 0x36) := by
  have hl : code = 0x2a ↔ code.toNat = 0x2a := UInt8.toNat_inj.symm
  have hr : code = 0x36 ↔ code.toNat = 0x36 := UInt8.toNat_inj.symm
  rw [hl, hr]
  unfold scancodeKeycode
  split <;> simp_all

lemma updateMods_shift (mods : KbdMods) (code : Keycode) (pressed : Bool) :
    (updateMods mods code pressed).shift =
      if code = .lshift ∨ code = .rshift then pressed else mods.shift := by
  cases code with
  | capslock => cases pressed <;> rfl
  | _ => rfl

/-- Only the shift keys change the flag. -/
lemma modsAfter_shift (mods : KbdMods) :
    (modsAfter mods sc).shift =
      if keyOf sc = 0x2a ∨ keyOf sc = 0x36 then !released sc else mods.shift := by
  have hshift := scancodeKeycode_shift (keyOf sc)
  by_cases hnone : scancodeKeycode (keyOf sc) = .none
  · have hno : ¬(keyOf sc = 0x2a ∨ keyOf sc = 0x36) := by
      rw [← hshift, hnone]
      decide
    simp only [modsAfter, hnone, if_neg hno, ne_eq, not_true_eq_false, if_false]
  · simp only [modsAfter, ne_eq, hnone, not_false_eq_true, if_true, updateMods_shift, hshift]

/-- The flag and the keys agree after every sequence that keeps the shift keys apart. -/
lemma feed_shift (scs : List UInt8) (h : ShiftsApart scs) :
    (Kbd.init.feed scs).mods.shift = shiftHeld scs := by
  induction scs using List.reverseRecOn with
  | nil => rfl
  | append_singleton scs sc ih =>
    obtain ⟨hscs, hsc⟩ := h.snoc
    have hfeed : Kbd.init.feed (scs ++ [sc]) = (Kbd.init.feed scs).handleScancode sc := by
      simp [Kbd.feed]
    rw [hfeed, Kbd.handleScancode_mods, modsAfter_shift, ih hscs, shiftHeld, shiftHeld,
      lastPressed_snoc, lastPressed_snoc]
    by_cases hl : keyOf sc = 0x2a
    · -- a press sets the flag; a release comes with the other key up
      have hother : (0x2a : UInt8) ≠ 0x36 := by decide
      cases hrel : released sc with
      | false => simp [hl]
      | true => simp [hl, hother, (hsc hrel).1 hl]
    · by_cases hr : keyOf sc = 0x36
      · have hother : (0x36 : UInt8) ≠ 0x2a := by decide
        cases hrel : released sc with
        | false => simp [hr]
        | true => simp [hr, hother, (hsc hrel).2 hr]
      · simp [hl, hr]

lemma ch_of_eventOf {mods : KbdMods} {ev : KbdEvent} (h : eventOf (modsAfter mods sc) sc = some ev)
    (hchar : ev.code = .char) : ev.ch = charOf mods (keyOf sc) ∧ ev.mods = mods := by
  unfold eventOf modsAfter at h
  dsimp only at h
  split at h
  · -- a special key has its own code
    obtain rfl := some.inj h
    rename_i hne
    exfalso
    dsimp only at hchar
    unfold scancodeKeycode at hchar
    split at hchar <;> cases hchar
  · split at h
    · obtain rfl := some.inj h
      exact ⟨rfl, rfl⟩
    · cases h

end Shift

/-- The symbol of a key on its own and with shift. -/
def plainSymbol (sc : UInt8) : UInt8 := scancodeAscii.getD (keyOf sc).toNat 0

def shiftedSymbol (sc : UInt8) : UInt8 := scancodeAsciiShifted.getD (keyOf sc).toNat 0

/-- The key of a letter. -/
def isLetterKey (sc : UInt8) : Bool :=
  'a'.toNat ≤ (plainSymbol sc).toNat && (plainSymbol sc).toNat ≤ 'z'.toNat

/-- **The shift keys.**  After every sequence of scancodes in which no shift key is released
while the other one is held, `mods.shift` says whether one is held, and the character of the
next event is the shifted symbol exactly when one is held, or when none is and the key is a
letter under caps lock. -/
theorem shift_flag_tracks_held_keys (scs : List UInt8) (h : ShiftsApart scs) :
    (Kbd.init.feed scs).mods.shift = shiftHeld scs ∧
      ∀ sc ev, eventOf (modsAfter (Kbd.init.feed scs).mods sc) sc = some ev → ev.code = .char →
        ev.ch = if shiftHeld scs != (isLetterKey sc && (Kbd.init.feed scs).mods.caps)
          then shiftedSymbol sc else plainSymbol sc := by
  have hshift := feed_shift scs h
  refine ⟨hshift, fun sc ev hev hchar => ?_⟩
  rw [(ch_of_eventOf hev hchar).1, ← hshift]
  simp only [charOf, isLetterKey, shiftedSymbol, plainSymbol]
  cases (Kbd.init.feed scs).mods.shift <;> cases (Kbd.init.feed scs).mods.caps <;> simp

/-- Left shift pressed, `a` pressed: the event says `A`. -/
theorem shift_flag_tracks_held_keys_left :
    ShiftsApart [0x2a] ∧ shiftHeld [0x2a] = true ∧
      (Kbd.init.feed [0x2a]).mods.shift = shiftHeld [0x2a] ∧
      (eventOf (modsAfter (Kbd.init.feed [0x2a]).mods 0x1e) 0x1e).map KbdEvent.ch =
        some (shiftedSymbol 0x1e) := by
  have h : ShiftsApart [0x2a] := by decide +kernel
  exact ⟨h, by decide +kernel, (shift_flag_tracks_held_keys _ h).1, by decide +kernel⟩

/-- Both shift keys pressed and the right one released: the left one is still held, but the flag
is clear and `a` gives an event that says `a`. -/
theorem shift_flag_cleared_while_left_held :
    lastPressed 0x2a [0x2a, 0x36, 0xb6] = true ∧
      (Kbd.init.feed [0x2a, 0x36, 0xb6]).mods.shift = false ∧
      (eventOf (modsAfter (Kbd.init.feed [0x2a, 0x36, 0xb6]).mods 0x1e) 0x1e).map KbdEvent.ch =
        some (plainSymbol 0x1e) := by
  decide +kernel

end CobjOs
