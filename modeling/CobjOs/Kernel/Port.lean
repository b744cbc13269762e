import CobjOs.Kernel.RunQueue

/-!
# Ports

`src/userspace/port.c`: message queues kept as singly linked lists between a head and a tail
pointer, found by token through a global table of 1024 places.  The table is modelled by all
natural indices; where the code writes is the index the model writes, and that it stays below
`portTableSize` is a statement about runs, not part of the definitions.

`port_receive` is split where it can give up the processor: `portReceiveLoop` is one turn of
its `while` loop together with what follows the loop.
-/

namespace CobjOs

open Function

/-- The declared length of `port_table`. -/
def portTableSize : ℕ := 1024

/-- The token computed by `port_create` from the time stamp counter. -/
def portToken (tsc : ℕ) : ℕ :=
  let val := tsc ^^^ (tsc >>> 33)
  let val := u64 (val * 0xff51afd7ed558ccd)
  let val := val ^^^ (val >>> 33)
  let val := u64 (val * 0xc4ceb9fe1a85ec53)
  val ^^^ (val >>> 33)

namespace Kernel

/-- `port_create`, for the process of the current thread. -/
def portCreate (k : Kernel) (tsc : ℕ) : Option (Kernel × Ptr) := do
  let curr ← k.threads k.currThread
  let owner ← curr.process
  let port := k.brk
  some ({ k with
      ports := update k.ports port (some
        { token := portToken tsc, head := none, tail := none, owner := owner })
      brk := k.brk + 1
      portTable := update k.portTable k.portTableCount (some port)
      portTableCount := k.portTableCount + 1 }, port)

/-- The scan of `port_lookup` over the given indices; the inner `none` is its `NULL`. -/
def portLookupIn (k : Kernel) (token : ℕ) : List ℕ → Option (Option Ptr)
  | [] => some none
  | i :: is =>
    match k.portTable i with
    | none => portLookupIn k token is
    | some p => do
      let port ← k.ports p
      if port.token = token then some (some p) else portLookupIn k token is

/-- `port_lookup`. -/
def portLookup (k : Kernel) (token : ℕ) : Option (Option Ptr) :=
  k.portLookupIn token (List.range k.portTableCount)

/-- The wake-up in `port_forward` and `port_destroy`: whatever the owner is blocked on. -/
def wakeOwner (k : Kernel) (owner : Ptr) : Option Kernel := do
  let pr ← k.procs owner
  let th ← k.threads pr.thread
  some (if th.state = .blocked then k.setThread pr.thread { th with state := .ready } else k)

/-- The queue insertion of `port_forward`. -/
def enqueue (k : Kernel) (p : Ptr) (port : Port) (node : Ptr) : Option Kernel :=
  match port.tail with
  | none => some (k.setPort p { port with head := some node, tail := some node })
  | some tail => do
    let last ← k.msgs tail
    some ((k.setMsg tail { last with next := some node }).setPort p
      { port with tail := some node })

/-- `port_forward`; the bytes of `msg` are the `len` bytes read from the sender. -/
def portForward (k : Kernel) (dst : ℕ) (msg : List UInt8) : Option (Kernel × ℕ) := do
  match ← k.portLookup dst with
  | none => some (k, u64Max)
  | some p =>
    let port ← k.ports p
    let node := k.brk
    let k := { k.setMsg node { len := msg.length, data := msg, next := none } with
      brk := k.brk + 1 }
    let k ← k.enqueue p port node
    let k ← k.wakeOwner port.owner
    some (k, msg.length)

end Kernel

/-- What `port_receive` gives its caller. -/
structure Received where
  node : Ptr
  bytes : List UInt8
  deriving DecidableEq, Repr

namespace Kernel

/-- `port_receive` behind its loop: the head message leaves the queue. -/
def dequeue (k : Kernel) (p : Ptr) (port : Port) (node : Ptr) (len : ℕ) :
    Option (Kernel × Received) := do
  let nd ← k.msgs node
  let port := { port with head := nd.next, tail := if nd.next.isNone then none else port.tail }
  let toCopy := if nd.len < len then nd.len else len
  let k := k.setPort p port
  some ({ k with msgs := update k.msgs node none },
    { node := node, bytes := nd.data.take toCopy })

end Kernel

/-- The thread blocked in the loop of `port_receive`. -/
@[simps]
def Thread.blockOnPort (th : Thread) (p : Ptr) (len : ℕ) : Thread :=
  { th with state := .blocked, call := .receive p len }

/-- The thread back in user mode. -/
@[simps]
def Thread.toUser (th : Thread) : Thread := { th with call := .user }

namespace Kernel

/-- The current thread blocks in the loop of `port_receive`. -/
def blockOnPort (k : Kernel) (p : Ptr) (len : ℕ) : Option Kernel :=
  k.modThread k.currThread fun th => th.blockOnPort p len

/-- One turn of the loop of `port_receive` on the port `p`: block on an empty queue, take the
first message of a non-empty one. -/
def portReceiveLoop (k : Kernel) (p : Ptr) (len : ℕ) : Option (Kernel × Option Received) := do
  let port ← k.ports p
  match port.head with
  | none =>
    let k ← k.blockOnPort p len
    let k ← k.schedule
    some (k, none)
  | some node =>
    let (k, r) ← k.dequeue p port node len
    let k ← k.modThread k.currThread Thread.toUser
    some (k, some r)

/-- The loop of `port_destroy` that frees the queued messages. -/
def freeMsgs : ℕ → Kernel → Option Ptr → Option Kernel
  | _, k, none => some k
  | 0, _, some _ => none
  | fuel + 1, k, some node => do
    let nd ← k.msgs node
    freeMsgs fuel { k with msgs := update k.msgs node none } nd.next

/-- The loop of `port_destroy` that clears the table entry. -/
def clearEntry (table : ℕ → Option Ptr) (p : Ptr) : List ℕ → (ℕ → Option Ptr)
  | [] => table
  | i :: is => if table i = some p then update table i none else clearEntry table p is

/-- `port_destroy`. -/
def portDestroy (k : Kernel) (p : Ptr) : Option Kernel := do
  let port ← k.ports p
  let k ← k.wakeOwner port.owner
  let k ← freeMsgs k.walkFuel k port.head
  some { k with
    portTable := clearEntry k.portTable p (List.range k.portTableCount)
    ports := update k.ports p none }

end Kernel

end CobjOs
