import CobjOs.Kernel.Process

/-!
# System calls and interrupts

The system calls of `src/userspace/syscall.c` that create, block, wake and end threads, the
user-mode exception of `isr_handler` and the timer interrupt of `irq_handler`
(`src/arch/idt.c`).  `sys_exit` and `sys_kill` are sequences of named statements, which also serve
the machine that lets the timer in between.

A call that must not come back (`sys_exit`, `sys_kill` on oneself, the exception) ends in
`schedule()` followed by an undefined instruction; `leave` has no result when it comes back.
-/

namespace CobjOs

namespace Kernel

/-! ## Death -/

/-- One turn of the port loop of `sys_exit` and `sys_kill`. -/
def closePort (k : Kernel) (proc : Ptr) (i : ℕ) : Option Kernel := do
  let pr ← k.procs proc
  match pr.ports i with
  | none => some k
  | some p =>
    let k ← k.portDestroy p
    k.modProc proc fun pr => { pr with ports := Function.update pr.ports i none }

/-- One turn of the descriptor loop of `sys_exit` and `sys_kill`. -/
def closeFd (k : Kernel) (proc : Ptr) (i : ℕ) : Option Kernel := do
  let pr ← k.procs proc
  match pr.fds i with
  | none => some k
  | some f =>
    let v ← k.vfs.closeFile f
    { k with vfs := v }.modProc proc fun pr => { pr with fds := Function.update pr.fds i none }

/-- The port loop. -/
def closePorts (k : Kernel) (proc : Ptr) : Option Kernel :=
  (List.range maxPorts).foldlM (fun k i => k.closePort proc i) k

/-- The descriptor loop, from `FD_RESERVED` on. -/
def closeFds (k : Kernel) (proc : Ptr) : Option Kernel :=
  (List.range' fdReserved (maxFds - fdReserved)).foldlM (fun k i => k.closeFd proc i) k

/-- `thread->state = THREAD_DEAD`. -/
def markDead (k : Kernel) (t : Ptr) : Option Kernel :=
  k.modThread t fun th => { th with state := .dead }

/-- `proc_needs_cleanup = true`. -/
@[simps]
def requestCleanup (k : Kernel) : Kernel := { k with procNeedsCleanup := true }

/-- `schedule()` followed by an undefined instruction. -/
def leave (k : Kernel) : Option Kernel := do
  let k' ← k.schedule
  if k'.currThread = k.currThread then none else some k'

/-- The process of the current thread, as every system call starts by reading it. -/
def currProc (k : Kernel) : Option Ptr := (k.threads k.currThread).bind Thread.process

/-- `sys_exit` up to its `schedule()`. -/
def exitBody (k : Kernel) : Option Kernel := do
  let proc ← k.currProc
  let pr ← k.procs proc
  let k ← k.closePorts proc
  let k ← k.closeFds proc
  let k ← k.runqueueRemove k.currThread
  let k ← k.markDead k.currThread
  let k := k.requestCleanup
  k.threadWakePid pr.pid

/-- `sys_exit`. -/
def sysExit (k : Kernel) : Option Kernel := do
  let k ← k.exitBody
  k.leave

/-- `sys_kill` on the process found, up to the test for the current thread. -/
def killBody (k : Kernel) (proc : Ptr) : Option (Kernel × Ptr) := do
  let k ← k.closePorts proc
  let k ← k.closeFds proc
  let pr ← k.procs proc
  let k ← k.runqueueRemove pr.thread
  let k ← k.markDead pr.thread
  some (k.requestCleanup, pr.thread)

/-- `sys_kill`. -/
def sysKill (k : Kernel) (pid : ℕ) : Option Kernel := do
  match ← k.procFind pid with
  | none => some k
  | some proc =>
    let (k, thread) ← k.killBody proc
    if thread = k.currThread then k.leave else some k

/-- `isr_handler` for an exception in user mode, up to its `schedule()`. -/
def faultBody (k : Kernel) : Option Kernel := do
  let k ← k.runqueueRemove k.currThread
  k.markDead k.currThread

/-- `isr_handler` for an exception in user mode. -/
def isrHandler (k : Kernel) : Option Kernel := do
  let k ← k.faultBody
  k.leave

/-! ## Blocking -/

end Kernel

/-- The thread blocked in `sys_wait_pid(pid)` on a process with the id `target`. -/
@[simps]
def Thread.blockOnPid (th : Thread) (pid target : ℕ) : Thread :=
  { th with state := .blocked, waitingFor := target, call := .waitPid pid }

/-- The thread blocked in `sys_sleep(ms)`, entered at tick `t0`. -/
@[simps]
def Thread.blockAsleep (th : Thread) (t0 ms : ℕ) : Thread :=
  { th with sleepUntil := u64 (t0 + ms), state := .blocked, call := .sleep t0 ms }

namespace Kernel

/-- The current thread blocks in `sys_wait_pid(pid)` on the process found. -/
def blockOnPid (k : Kernel) (pid : ℕ) (target : Ptr) : Option Kernel := do
  let pr ← k.procs target
  k.modThread k.currThread fun th => th.blockOnPid pid pr.pid

/-- `sys_wait_pid`. -/
def sysWaitPid (k : Kernel) (pid : ℕ) : Option Kernel := do
  match ← k.procFind pid with
  | none => some k
  | some target =>
    let k ← k.blockOnPid pid target
    k.schedule

/-- The current thread blocks in `sys_sleep(ms)`. -/
def blockAsleep (k : Kernel) (ms : ℕ) : Option Kernel :=
  k.modThread k.currThread fun th => th.blockAsleep k.lapicTimerTicks ms

/-- `sys_sleep`. -/
def sysSleep (k : Kernel) (ms : ℕ) : Option Kernel := do
  let k ← k.blockAsleep ms
  k.schedule

/-! ## Ports -/

/-- The first of the given slots of a process that holds a port with the token. -/
def portSlotIn (k : Kernel) (pr : Process) (token : ℕ) : List ℕ → Option (Option (ℕ × Ptr))
  | [] => some none
  | i :: is =>
    match pr.ports i with
    | none => portSlotIn k pr token is
    | some p => do
      let port ← k.ports p
      if port.token = token then some (some (i, p)) else portSlotIn k pr token is

/-- `sys_port_create`: the new port goes into the first free slot; with no slot free it stays
in the table and `0` is returned. -/
def sysPortCreate (k : Kernel) (tsc : ℕ) : Option (Kernel × ℕ) := do
  let proc ← k.currProc
  let (k, port) ← k.portCreate tsc
  let pr ← k.procs proc
  match (List.range maxPorts).find? fun i => (pr.ports i).isNone with
  | none => some (k, 0)
  | some i =>
    let k ← k.modProc proc fun pr => { pr with ports := Function.update pr.ports i (some port) }
    some (k, portToken tsc)

/-- `sys_port_receive` up to the first turn of the loop of `port_receive`. -/
def sysPortReceive (k : Kernel) (token len : ℕ) : Option (Kernel × Option Received) := do
  let proc ← k.currProc
  let pr ← k.procs proc
  match ← k.portSlotIn pr token (List.range maxPorts) with
  | none => some (k, none)
  | some _ =>
    match ← k.portLookup token with
    | none => some (k, none)
    | some p => k.portReceiveLoop p len

/-- `sys_port_destroy`. -/
def sysPortDestroy (k : Kernel) (token : ℕ) : Option Kernel := do
  let proc ← k.currProc
  let pr ← k.procs proc
  match ← k.portSlotIn pr token (List.range maxPorts) with
  | none => some k
  | some (i, p) =>
    let k ← k.portDestroy p
    k.modProc proc fun pr => { pr with ports := Function.update pr.ports i none }

/-- What a thread does when `schedule()` returns to it: `sys_wait_pid` and `sys_sleep` return
to user mode, `port_receive` tests its queue again. -/
def resume (k : Kernel) : Option (Kernel × Option Received) := do
  let th ← k.threads k.currThread
  match th.call with
  | .user => none
  | .waitPid _ | .sleep _ _ =>
    let k ← k.modThread k.currThread Thread.toUser
    some (k, none)
  | .receive p len => k.portReceiveLoop p len

/-! ## The timer and the idle thread -/

/-- `lapic_timer_ticks++`. -/
@[simps]
def ticked (k : Kernel) : Kernel := { k with lapicTimerTicks := u64 (k.lapicTimerTicks + 1) }

/-- `proc_needs_cleanup = false`. -/
@[simps]
def cleanupTaken (k : Kernel) : Kernel := { k with procNeedsCleanup := false }

/-- `irq_handler` on the timer vector, up to the call of `schedule()`. -/
def timerTick (k : Kernel) : Option Kernel :=
  let k := k.ticked
  if k.procNeedsCleanup then k.cleanupTaken.procCleanup else some k

/-- `irq_handler` on the timer vector. -/
def irqTimer (k : Kernel) : Option Kernel := do
  let k ← k.timerTick
  if k.threadsEnabled then k.schedule else some k

/-- The devices `devfs_init`, `console_dev_init` and `fb_dev_init` register. -/
def devices : List (String × FsOps) :=
  [("stdin", .stdin), ("stdout", .stdout), ("null", .null), ("zero", .zero), ("fb", .fb)]

/-- `kidle` up to its endless loop: scheduling is enabled, the devices are registered and
`init` is started. -/
def kidle (k : Kernel) : Option Kernel := do
  let root := k.brk
  let k := { k with
    threadsEnabled := true
    brk := k.brk + 1
    vfs := { k.vfs with
      nodes := Function.update k.vfs.nodes root (some
        { type := .dir, ops := .devfsRoot, data := none, size := 0, refcount := 1 })
      devfsRoot := some root
      devfsEntries := devices } }
  let entry ← k.initEntry
  let (k, _) ← k.procCreate entry
  some k

end Kernel

end CobjOs
