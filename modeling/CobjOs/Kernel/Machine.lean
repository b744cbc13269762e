import CobjOs.Framework.Transition
import CobjOs.Kernel.Syscall

/-!
# The kernel as a transition system

One label per entry into the kernel, taken as one atomic step of the thread that is running.
System calls are entered from user mode, by a thread that has a process and has come back
from its last blocking call; only such a thread is ever inside one.  `kidle` is run once, by
the idle thread.  The three *bare*
labels call a run-queue routine on its own, outside the calls that use it, on a thread that
exists.
-/

namespace CobjOs

/-- The entries into the kernel. -/
inductive Op
  | kidle
  | timer
  | schedule
  | cleanup
  /-- `sys_spawn` of an image whose `elf_load` returns the given entry point. -/
  | spawn (entry : ℕ)
  | waitPid (pid : ℕ)
  | sleep (ms : ℕ)
  | exit
  | kill (pid : ℕ)
  | exception
  | portCreate (tsc : ℕ)
  | portForward (token : ℕ) (msg : List UInt8)
  | portReceive (token len : ℕ)
  | portDestroy (token : ℕ)
  /-- The return of `schedule()` inside a blocking call. -/
  | resume
  | bareNext
  | bareRemove (t : Ptr)
  | bareWake (pid : ℕ)
  deriving DecidableEq, Repr

/-- The labels that call a run-queue routine outside the kernel's own use of it. -/
def Op.bare : Op → Bool
  | .bareNext | .bareRemove _ | .bareWake _ => true
  | _ => false

namespace Kernel

/-- The running thread executes user code of its process. -/
def inUserMode (k : Kernel) : Bool :=
  match k.threads k.currThread with
  | none => false
  | some th => th.process.isSome && th.call == .user

/-- A system call or an exception: the running thread is in user mode. -/
def asUser (k : Kernel) (call : Option Kernel) : Option Kernel :=
  if k.inUserMode then call else none

/-- One atomic step. -/
def step (k : Kernel) : Op → Option Kernel
  | .kidle => if k.currThread = k.idleThread ∧ k.threadsEnabled = false then k.kidle else none
  | .timer => k.irqTimer
  | .schedule => k.schedule
  | .cleanup => k.procCleanup
  | .spawn entry => k.asUser ((k.procCreate entry).map Prod.fst)
  | .waitPid pid => k.asUser (k.sysWaitPid pid)
  | .sleep ms => k.asUser (k.sysSleep ms)
  | .exit => k.asUser k.sysExit
  | .kill pid => k.asUser (k.sysKill pid)
  | .exception => k.asUser k.isrHandler
  | .portCreate tsc => k.asUser ((k.sysPortCreate tsc).map Prod.fst)
  | .portForward token msg => k.asUser ((k.portForward token msg).map Prod.fst)
  | .portReceive token len => k.asUser ((k.sysPortReceive token len).map Prod.fst)
  | .portDestroy token => k.asUser (k.sysPortDestroy token)
  | .resume => if k.currProc.isSome then k.resume.map Prod.fst else none
  | .bareNext => k.runqueueNext.map Prod.fst
  | .bareRemove t => if (k.threads t).isSome then k.runqueueRemove t else none
  | .bareWake pid => k.threadWakePid pid

/-- The turn of the loop of `port_receive` that blocks. -/
def receiveBlocks (k : Kernel) (p : Ptr) (len : ℕ) : Option Kernel := do
  let port ← k.ports p
  if port.head.isNone then k.blockOnPort p len else none

/-- The state in which an entry calls `schedule()`, if it comes to a call. -/
def atSchedule (k : Kernel) : Op → Option Kernel
  | .timer => do
    let k ← k.timerTick
    if k.threadsEnabled then some k else none
  | .schedule => some k
  | .waitPid pid => k.asUser do
    match ← k.procFind pid with
    | none => none
    | some target => k.blockOnPid pid target
  | .sleep ms => k.asUser (k.blockAsleep ms)
  | .exit => k.asUser k.exitBody
  | .kill pid => k.asUser do
    match ← k.procFind pid with
    | none => none
    | some proc =>
      let (k, thread) ← k.killBody proc
      if thread = k.currThread then some k else none
  | .exception => k.asUser k.faultBody
  | .portReceive token len => k.asUser do
    let proc ← k.currProc
    let pr ← k.procs proc
    match ← k.portSlotIn pr token (List.range maxPorts) with
    | none => none
    | some _ =>
      match ← k.portLookup token with
      | none => none
      | some p => k.receiveBlocks p len
  | .resume => do
    let _ ← k.currProc
    let th ← k.threads k.currThread
    match th.call with
    | .receive p len => k.receiveBlocks p len
    | _ => none
  | _ => none

end Kernel

/-- Every step is allowed. -/
def anyStep : Kernel → Op → Prop := fun _ _ => True

/-- Only the kernel's own entries. -/
def kernelStep : Kernel → Op → Prop := fun _ op => op.bare = false

lemma kernelStep_of_not_bare (k : Kernel) (op : Op) (h : (!op.bare) = true) :
    kernelStep k op := by
  unfold kernelStep
  simpa using h

/-- The kernel's own entries, and `thread_wake_pid` also on its own. -/
def schedulingStep : Kernel → Op → Prop :=
  fun _ op => op.bare = false ∨ ∃ pid, op = .bareWake pid

end CobjOs
