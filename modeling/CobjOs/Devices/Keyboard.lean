import CobjOs.Framework.CircularBuffer
import CobjOs.Framework.Transition
import CobjOs.Fs.Tar

/-!
# The keyboard driver

`kb.c`: the interrupt handler calls `kbd_handle_scancode`, which keeps the modifiers and puts the
event into a circular buffer of 256 cells; readers take events out with `kbd_getevent`.

The handler runs with interrupts off, as one step.  A reader is in a system call with interrupts on:
the handler can come, and the timer can switch to another reader, between any two accesses to the
shared variables.  `Reader` is therefore the position of a thread inside `kbd_getevent`, and
`KbdSys.step` makes one access at a time.

`kbd_getmods` returns the modifiers of the state; `kbd_getchar` and `kbd_haschar` are not here.
-/

namespace CobjOs

/-! ## Events -/

/-- `keycode_t`. -/
inductive Keycode
  | none | char | enter | backspace | tab | esc | up | down | left | right
  | lshift | rshift | lctrl | rctrl | lalt | ralt | capslock
  deriving DecidableEq, Repr

/-- `kbd_mods_t`. -/
structure KbdMods where
  shift : Bool
  ctrl : Bool
  alt : Bool
  caps : Bool
  deriving DecidableEq, Repr

/-- `kbd_event_t`. -/
structure KbdEvent where
  code : Keycode
  ch : UInt8
  pressed : Bool
  mods : KbdMods
  deriving DecidableEq, Repr

/-- `scancode_ascii`, row by row of the source. -/
def scancodeAscii : List UInt8 :=
  cstr "\x00\x1b1234567890-=\x08" ++
  cstr "\tqwertyuiop[]\n" ++
  cstr "\x00asdfghjkl;'`" ++
  cstr "\x00\\zxcvbnm,./" ++
  cstr "\x00*\x00 \x00"

/-- `scancode_ascii_shifted`. -/
def scancodeAsciiShifted : List UInt8 :=
  cstr "\x00\x1b!@#$%^&*()_+\x08" ++
  cstr "\tQWERTYUIOP\x7b\x7d\n" ++
  cstr "\x00ASDFGHJKL:\"~" ++
  cstr "\x00|ZXCVBNM<>?" ++
  cstr "\x00*\x00 \x00"

/-- `scancode_keycode`. -/
def scancodeKeycode (code : UInt8) : Keycode :=
  match code.toNat with
  | 0x1c => .enter
  | 0x0e => .backspace
  | 0x0f => .tab
  | 0x01 => .esc
  | 0x2a => .lshift
  | 0x36 => .rshift
  | 0x1d => .lctrl
  | 0x38 => .lalt
  | 0x3a => .capslock
  | _ => .none

/-- `update_mods`. -/
def updateMods (mods : KbdMods) (code : Keycode) (pressed : Bool) : KbdMods :=
  match code with
  | .lshift | .rshift => { mods with shift := pressed }
  | .lctrl => { mods with ctrl := pressed }
  | .lalt => { mods with alt := pressed }
  | .capslock => if pressed then { mods with caps := !mods.caps } else mods
  | _ => mods

/-- `sc & 0x80`: the scancode is of a release. -/
def released (sc : UInt8) : Bool := sc &&& 0x80 != 0

/-- `sc & 0x7f`: the key. -/
def keyOf (sc : UInt8) : UInt8 := sc &&& 0x7f

/-- The modifiers after the first half of `kbd_handle_scancode`. -/
def modsAfter (mods : KbdMods) (sc : UInt8) : KbdMods :=
  let special := scancodeKeycode (keyOf sc)
  if special ≠ .none then updateMods mods special (!released sc) else mods

/-- The character of a key that has one. -/
def charOf (mods : KbdMods) (code : UInt8) : UInt8 :=
  let base := scancodeAscii.getD code.toNat 0
  let isLetter := 'a'.toNat ≤ base.toNat ∧ base.toNat ≤ 'z'.toNat
  let useShifted := if isLetter ∧ mods.caps then !mods.shift else mods.shift
  if useShifted then scancodeAsciiShifted.getD code.toNat 0 else base

/-- The event of `kbd_handle_scancode`, with the modifiers already updated; some scancodes have
none. -/
def eventOf (mods : KbdMods) (sc : UInt8) : Option KbdEvent :=
  let code := keyOf sc
  let special := scancodeKeycode code
  if special ≠ .none then some ⟨special, 0, !released sc, mods⟩
  else if code.toNat < scancodeAscii.length ∧ scancodeAscii.getD code.toNat 0 ≠ 0 then
    some ⟨.char, charOf mods code, !released sc, mods⟩
  else none

/-! ## The driver -/

/-- `KBD_BUF_SIZE`. -/
def kbdBufSize : ℕ := 256

/-- The static variables of `kb.c`. -/
structure Kbd where
  buf : ℕ → KbdEvent
  head : ℕ
  tail : ℕ
  mods : KbdMods

/-- The zeroed static data. -/
def Kbd.init : Kbd :=
  let mods := ⟨false, false, false, false⟩
  ⟨fun _ => ⟨.none, 0, false, mods⟩, 0, 0, mods⟩

namespace Kbd

/-- `kbd_push`. -/
def push (k : Kbd) (ev : KbdEvent) : Kbd :=
  let next := (k.head + 1) % kbdBufSize
  if next ≠ k.tail then { k with buf := Function.update k.buf k.head ev, head := next } else k

/-- `kbd_handle_scancode`. -/
def handleScancode (k : Kbd) (sc : UInt8) : Kbd :=
  let k := { k with mods := modsAfter k.mods sc }
  match eventOf k.mods sc with
  | some ev => k.push ev
  | none => k

/-- `kbd_hasevent`. -/
def hasevent (k : Kbd) : Bool := k.head != k.tail

end Kbd

/-! ## Readers -/

/-- Where a thread stands in `kbd_getevent`, with the values it has read. -/
inductive Reader
  /-- Not in a call. -/
  | outside
  /-- At the condition of the loop, after the call or after `hlt`. -/
  | waiting
  /-- `kbd_head` is read. -/
  | comparing (head : ℕ)
  /-- The loop is left. -/
  | found
  /-- `kbd_tail` is read, for the index. -/
  | indexed (tail : ℕ)
  /-- The event is copied. -/
  | copied (ev : KbdEvent)
  /-- `kbd_tail` is read once more, to be advanced. -/
  | advancing (ev : KbdEvent) (tail : ℕ)
  deriving DecidableEq, Repr

/-- The driver with the threads that read from it.  The log keeps the events given to
`kbd_push` and the events returned by `kbd_getevent`. -/
structure KbdSys where
  kbd : Kbd
  readers : List Reader
  log : List (FifoEvent KbdEvent)

/-- What can happen next: a keyboard interrupt, or one access by a reader. -/
inductive KbdOp
  | scancode (sc : UInt8)
  | reader (i : ℕ)
  deriving DecidableEq, Repr

namespace KbdSys

/-- The driver before the first interrupt, and `n` threads that may read. -/
def start (n : ℕ) : KbdSys := ⟨.init, List.replicate n .outside, []⟩

/-- The keyboard interrupt. -/
def interrupt (s : KbdSys) (sc : UInt8) : KbdSys :=
  { s with
    kbd := s.kbd.handleScancode sc
    log := s.log ++ ((eventOf (modsAfter s.kbd.mods sc) sc).map .offered).toList }

/-- The next access of the reader `i`, which stands at `r`. -/
def access (s : KbdSys) (i : ℕ) (r : Reader) : KbdSys :=
  let goto (r' : Reader) : KbdSys := { s with readers := s.readers.set i r' }
  match r with
  | .outside => goto .waiting
  | .waiting => goto (.comparing s.kbd.head)
  | .comparing head => if head = s.kbd.tail then goto .waiting else goto .found
  | .found => goto (.indexed s.kbd.tail)
  | .indexed tail => goto (.copied (s.kbd.buf tail))
  | .copied ev => goto (.advancing ev s.kbd.tail)
  | .advancing ev tail =>
    { kbd := { s.kbd with tail := (tail + 1) % kbdBufSize }
      readers := s.readers.set i .outside
      log := s.log ++ [.taken ev] }

/-- One step of the driver and its readers. -/
def step (s : KbdSys) : KbdOp → Option KbdSys
  | .scancode sc => some (s.interrupt sc)
  | .reader i => (s.readers[i]?).map (s.access i)

/-- The calls of `kbd_getevent` do not overlap: one begins when no thread is in one. -/
def Solo (s : KbdSys) : KbdOp → Prop
  | .scancode _ => True
  | .reader i => s.readers[i]? = some .outside → ∀ r ∈ s.readers, r = .outside

instance (s : KbdSys) : (op : KbdOp) → Decidable (s.Solo op)
  | .scancode _ => inferInstanceAs (Decidable True)
  | .reader i => inferInstanceAs
      (Decidable (s.readers[i]? = some .outside → ∀ r ∈ s.readers, r = .outside))

end KbdSys

/-- The accesses of the reader `i` in a call that does not have to wait. -/
def KbdOp.getevent (i : ℕ) : List KbdOp := List.replicate 7 (.reader i)

end CobjOs
