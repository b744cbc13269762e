import CobjOs.Framework.Ring
import CobjOs.Kernel.State

/-!
# The run queue and the scheduler

`src/multi/thread.c`: the circular list of threads behind `runqueue_head`, the choice of the
next thread, the wake-up by process id and `schedule()` itself.  The processor state that
`schedule()` also sets (`cpu_local.kernel_rsp`, the task state segment, the address space and
the stack pointer) belongs to the thread switched to and is read by no function here.
-/

namespace CobjOs

namespace Kernel

/-- `runqueue_push`. -/
def runqueuePush (k : Kernel) (thread : Ptr) : Option Kernel := do
  let k ← k.modThread thread fun th => { th with state := .ready }
  match k.runqueueHead with
  | none =>
    let k ← k.modThread thread fun th => { th with next := some thread }
    some (k.setHead (some thread))
  | some head =>
    let tail ← walkTo k.nextOf head k.walkFuel head
    let k ← k.modThread tail fun th => { th with next := some thread }
    k.modThread thread fun th => { th with next := some head }

end Kernel

/-- The sleep test of `runqueue_next`: a sleeping thread whose time has come is ready. -/
def Thread.expire (ticks : ℕ) (th : Thread) : Thread :=
  if th.state = .blocked ∧ 0 < th.sleepUntil ∧ th.sleepUntil ≤ ticks then
    { th with state := .ready, sleepUntil := 0 }
  else th

namespace Kernel

/-- The `do`-`while` loop of `runqueue_next`, standing at `candidate`. -/
def runqueueNextLoop : ℕ → Kernel → Ptr → Option (Kernel × Ptr)
  | 0, _, _ => none
  | fuel + 1, k, candidate => do
    let th ← k.threads candidate
    let th := th.expire k.lapicTimerTicks
    let k := k.setThread candidate th
    if th.state = .ready then
      some (k.setHead th.next, candidate)
    else
      let n ← th.next
      if k.runqueueHead = some n then some (k, k.idleThread)
      else runqueueNextLoop fuel k n

/-- `runqueue_next`. -/
def runqueueNext (k : Kernel) : Option (Kernel × Ptr) :=
  match k.runqueueHead with
  | none => some (k, k.currThread)
  | some head => runqueueNextLoop k.walkFuel k head

/-- `runqueue_remove`. -/
def runqueueRemove (k : Kernel) (thread : Ptr) : Option Kernel :=
  match k.runqueueHead with
  | none => some k
  | some head =>
    if head = thread ∧ k.nextOf head = some head then some (k.setHead none)
    else do
      match ← findPrev k.nextOf head thread k.walkFuel head with
      | none => some k
      | some prev =>
        let th ← k.threads thread
        let k ← k.modThread prev fun pv => { pv with next := th.next }
        let k := if k.runqueueHead = some thread then k.setHead th.next else k
        k.modThread thread fun th => { th with next := none }

/-- `schedule()` behind the choice: the current thread hands over to `next`. -/
def switchTo (k : Kernel) (next : Ptr) : Option Kernel := do
  let prev ← k.threads k.currThread
  let k := if prev.state = .running then
      k.setThread k.currThread { prev with state := .ready } else k
  let k ← k.modThread next fun th => { th with state := .running }
  some (k.setCurr next)

/-- `schedule()`. -/
def schedule (k : Kernel) : Option Kernel := do
  let (k, next) ← k.runqueueNext
  if next = k.currThread then some k else k.switchTo next

end Kernel

/-- The test of `thread_wake_pid` on one thread. -/
def Thread.wakePid (pid : ℕ) (th : Thread) : Thread :=
  if th.state = .blocked ∧ th.waitingFor = pid then
    { th with state := .ready, waitingFor := u64Max }
  else th

namespace Kernel

/-- The `do`-`while` loop of `thread_wake_pid`, standing at `t`. -/
def threadWakePidLoop (pid : ℕ) : ℕ → Kernel → Ptr → Option Kernel
  | 0, _, _ => none
  | fuel + 1, k, t => do
    let th ← k.threads t
    let th := th.wakePid pid
    let k := k.setThread t th
    let n ← th.next
    if k.runqueueHead = some n then some k else threadWakePidLoop pid fuel k n

/-- `thread_wake_pid`. -/
def threadWakePid (k : Kernel) (pid : ℕ) : Option Kernel :=
  match k.runqueueHead with
  | none => some k
  | some head => threadWakePidLoop pid k.walkFuel k head

/-- What `thread_create` and `thread_create_user` share: a thread block and a kernel stack,
and a ready thread without process or link. -/
def allocThread (k : Kernel) (waitingFor : ℕ) : Kernel × Ptr :=
  let thread := k.brk
  let stack := k.brk + 1
  ({ k with
      threads := Function.update k.threads thread (some
        { kernelStack := stack, state := .ready, id := k.nextThreadId, process := none,
          waitingFor := waitingFor, sleepUntil := 0, next := none, call := .user })
      kstacks := Function.update k.kstacks stack true
      brk := k.brk + 2
      nextThreadId := u64 (k.nextThreadId + 1) }, thread)

/-- `thread_create`: the thread waits for process id 0, a value `thread_wake_pid` compares
with only when the thread is blocked. -/
def threadCreate (k : Kernel) : Kernel × Ptr := k.allocThread 0

/-- `thread_create_user`. -/
def threadCreateUser (k : Kernel) : Kernel × Ptr := k.allocThread u64Max

/-- The static kernel state before `thread_init`: no object, no process, no port. -/
def boot (initEntry : Option ℕ) : Kernel where
  threads := fun _ => none
  procs := fun _ => none
  kstacks := fun _ => false
  ports := fun _ => none
  msgs := fun _ => none
  vfs := { nodes := fun _ => none, files := fun _ => none, devfsRoot := none, devfsEntries := [] }
  brk := 1
  currThread := 0
  idleThread := 0
  runqueueHead := none
  nextThreadId := 0
  nextProcId := 0
  procList := []
  procNeedsCleanup := false
  threadsEnabled := false
  lapicTimerTicks := 0
  portTable := fun _ => none
  portTableCount := 0
  initEntry := initEntry

/-- `thread_init` up to the jump into the idle thread. -/
def threadInit (k : Kernel) : Option Kernel := do
  let (k, idle) := k.threadCreate
  let k ← { k with idleThread := idle }.runqueuePush idle
  (k.setCurr idle).modThread idle fun th => { th with state := .running }

end Kernel

end CobjOs
