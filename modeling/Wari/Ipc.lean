import Wari.Sched
import Wari.Lib.Rendezvous

/-!
# Host functions that block

`ipc_send`, `ipc_call`, `ipc_recv` and `ipc_reply`, which meet at the queues of an
endpoint, and `event_read`, which waits for the next audit record. A host function
answers with the value it returns to the tenant and the kernel it leaves; where it
suspends the tenant there is no value.
-/

namespace Wari

open Lib (readAt writeAt toLe)

/-! ## Checks and memory

Arguments are checked first: the slot, the capability in it, and the caller's buffer. -/

/-- Does the cap at `a` have the kind, and all the rights required? -/
def CapState.checkCap (st : CapState) (a : Place) (expectedKind : ObjectKind)
    (requiredRights : BitVec 8) : Except ℤ Unit :=
  let cap := st.capAt a
  if cap.isEmpty then .error ePerm
  else if cap.kind ≠ expectedKind then .error ePerm
  else if cap.rights &&& requiredRights ≠ requiredRights then .error ePerm
  else .ok ()

namespace Kernel

/-- The endpoint index behind the caller's Endpoint cap at `slot`. -/
def resolveEndpoint (k : Kernel) (p : Proc) (slot : BitVec 32) (requiredRights : BitVec 8) :
    Except ℤ ℕ :=
  match slotArg? slot with
  | none => .error eInval
  | some s =>
    match k.caps.checkCap (p, s) .endpoint requiredRights with
    | .error rc => .error rc
    | .ok () => .ok (k.caps.capAt (p, s)).poolIndex

/-- The linear memory that the caller exports, if it has an instance that exports one. -/
def memoryOf (k : Kernel) (p : Proc) : Option (List (BitVec 8)) :=
  (k.tier1Pool p).bind Tier1Slot.memory

/-- Write into the caller's own linear memory. Without a memory the error is `E_NOMEM`, and
outside it `E_INVAL`. -/
def writeMemory (k : Kernel) (p : Proc) (ptr : BitVec 32) (bytes : List (BitVec 8)) :
    Except ℤ Kernel :=
  match k.tier1Pool p with
  | none => .error eNomem
  | some slot =>
    match slot.memory with
    | none => .error eNomem
    | some memory =>
      match writeAt memory ptr.toNat bytes with
      | none => .error eInval
      | some memory => .ok (k.setInstance p { slot with memory := some memory })

/-- Read the caller's message of 40 bytes, with the errors of `writeMemory`. -/
def readMsg (k : Kernel) (p : Proc) (msgPtr : BitVec 32) : Except ℤ MsgRegs :=
  match k.memoryOf p with
  | none => .error eNomem
  | some memory =>
    match readAt memory msgPtr.toNat msgBytes with
    | none => .error eInval
    | some buf => .ok (decodeMsg buf)

/-- Write a message into the caller's own linear memory. -/
def writeMsg (k : Kernel) (p : Proc) (msgPtr : BitVec 32) (regs : MsgRegs) : Except ℤ Kernel :=
  k.writeMemory p msgPtr (encodeMsg regs)

end Kernel

/-! ## Endpoint queues

Two queues an endpoint, of at most eight processes each. At most one of the two is in use at a
time, though nothing in the types says so. -/

/-- The two queues of an endpoint, of those who wait to send and of those who wait to receive. -/
inductive Side where
  | senders
  | receivers
  deriving DecidableEq, Repr

/-- One queue of an endpoint, by the side it is on. -/
def Endpoint.queue (ep : Endpoint) : Side → BoundedQueue TcbRef 8
  | .senders => ep.senders
  | .receivers => ep.receivers

/-- The endpoint with another queue on one side. -/
def Endpoint.setQueue (ep : Endpoint) (side : Side) (q : BoundedQueue TcbRef 8) : Endpoint :=
  match side with
  | .senders => { ep with senders := q }
  | .receivers => { ep with receivers := q }

namespace Kernel

/-- `pools.endpoints.get(e)`: `none` where the pool has no such entry. -/
def endpoint? (k : Kernel) (e : ℕ) : Option Endpoint := k.caps.objectPools.endpoints.get e

/-- Replace one queue of the endpoint at `e`. -/
def setQueue (k : Kernel) (side : Side) (e : ℕ) (q : BoundedQueue TcbRef 8) : Kernel :=
  { k with caps := k.caps.modifyEndpoint e fun ep => ep.setQueue side q }

/-- `endpoints.get_mut(e).and_then(|ep| ep.side.pop())`. Nothing comes from an endpoint that is
not there. -/
def pop (k : Kernel) (side : Side) (e : ℕ) : Option Proc × Kernel :=
  match k.endpoint? e with
  | none => (none, k)
  | some ep => ((ep.queue side).pop.1, k.setQueue side e (ep.queue side).pop.2)

/-- `endpoints.get_mut(e).map(|ep| ep.side.push(p).is_ok())`: the kernel after the
push, or `none` where the endpoint is missing or its queue full. -/
def push (k : Kernel) (side : Side) (e : ℕ) (p : Proc) : Option Kernel :=
  match k.endpoint? e with
  | none => none
  | some ep =>
    match (ep.queue side).push p with
    | .error _ => none
    | .ok q => some (k.setQueue side e q)

/-! ## Blocking and waking

Who blocks leaves its buffer's address behind; who wakes a peer sets the value that its host
function will return. -/

/-- `table[p].msg_regs = regs`. The registers are where a message waits while its sender does. -/
def setMsgRegs (k : Kernel) (p : Proc) (regs : MsgRegs) : Kernel :=
  k.modifyProcess p fun proc => { proc with msgRegs := regs }

/-- Block the caller, recording where an incoming message goes at resume. -/
def blockAndYield (k : Kernel) (p : Proc) (reason : BlockReason) (e : ℕ) (msgPtr : BitVec 32) :
    Kernel :=
  k.modifyProcess p fun proc =>
    { proc with msgBuf := msgPtr }.block reason (BitVec.ofNat 8 e)

/-- Wake a blocked peer with result `rc`, a message copied into its registers
first. -/
def deliverAndWake (k : Kernel) (peer : Proc) (msg : Option MsgRegs) (rc : ℤ) : Kernel :=
  let k :=
    match msg with
    | some regs => k.setMsgRegs peer regs
    | none => k
  (k.setResumeValue peer rc).wake peer

/-- The lowest process that awaits a reply on endpoint `e`. -/
def replyWaiterOn (k : Kernel) (e : ℕ) : Option Proc :=
  (List.finRange maxProcs).find? fun p =>
    match k.stateAt p with
    | some (.blocked .replyWait epIdx) => epIdx.toNat == e
    | _ => false

/-! ## IPC

The decision what happens is `resolve`, a table; the rest carries it out. -/

/-- Send and call: they differ in what the caller does once the message is
taken. -/
def doSendLike (k : Kernel) (p : Proc) (slot msgPtr : BitVec 32) (op : Op) :
    Option ℤ × Kernel :=
  match k.resolveEndpoint p slot capRightWrite with
  | .error rc => (some rc, k)
  | .ok e =>
    match k.readMsg p msgPtr with
    | .error rc => (some rc, k)
    | .ok msg =>
      -- the copy the receiver reads from, whether it is waiting already or not
      let k := k.setMsgRegs p msg
      let (peer, k) := k.pop .receivers e
      match resolve op peer.isSome with
      | .rendezvous next =>
        match peer with
        | none => (some eAgain, k)
        | some rx =>
          let k := k.deliverAndWake rx (some msg) 0
          match next with
          | .continue => (some 0, k)
          | .block reason => (none, k.blockAndYield p reason e msgPtr)
      | .enqueue reason =>
        match k.push .senders e p with
        | none => (some eAgain, k)
        | some k => (none, k.blockAndYield p reason e msgPtr)
      | .invalid => (some eInval, k)

/-- Deliver a message to the first receiver, or wait in the queue until one comes. -/
def ipcSendImpl (k : Kernel) (p : Proc) (slot msgPtr : BitVec 32) : Option ℤ × Kernel :=
  k.doSendLike p slot msgPtr .send

/-- Deliver a message as a send does, and await the reply. -/
def ipcCallImpl (k : Kernel) (p : Proc) (slot msgPtr : BitVec 32) : Option ℤ × Kernel :=
  k.doSendLike p slot msgPtr .call

/-- Receive a message from the first sender, or wait in the queue until one comes. A caller that
was received from goes on to wait for its reply. -/
def ipcRecvImpl (k : Kernel) (p : Proc) (slot msgPtr : BitVec 32) : Option ℤ × Kernel :=
  match k.resolveEndpoint p slot capRightRead with
  | .error rc => (some rc, k)
  | .ok e =>
    let (peer, k) := k.pop .senders e
    match resolve .recv peer.isSome with
    | .rendezvous _ =>
      match peer with
      | none => (some eAgain, k)
      | some tx =>
        match k.processes tx with
        | none => (some ePerm, k)
        | some sender =>
          -- the sender is off the queue by now, also where the write fails
          match k.writeMsg p msgPtr sender.msgRegs with
          | .error rc => (some rc, k)
          | .ok k =>
            match k.stateAt tx with
            | some (.blocked .callWait epIdx) =>
              (some 0, k.modifyProcess tx fun proc => proc.block .replyWait epIdx)
            | _ => (some 0, k.deliverAndWake tx none 0)
    | .enqueue reason =>
      match k.push .receivers e p with
      | none => (some eAgain, k)
      | some k => (none, k.blockAndYield p reason e msgPtr)
    | .invalid => (some eInval, k)

/-- Reply to the caller that awaits one on this endpoint. -/
def ipcReplyImpl (k : Kernel) (p : Proc) (slot msgPtr : BitVec 32) : Option ℤ × Kernel :=
  match k.resolveEndpoint p slot capRightWrite with
  | .error rc => (some rc, k)
  | .ok e =>
    let waiter := k.replyWaiterOn e
    match resolve .reply waiter.isSome with
    | .rendezvous _ =>
      match k.readMsg p msgPtr with
      | .error rc => (some rc, k)
      | .ok msg =>
        match waiter with
        | none => (some eInval, k)
        | some rx => (some 0, k.deliverAndWake rx (some msg) 0)
    | .invalid => (some eInval, k)
    | .enqueue _ => (some eInval, k)

/-- One IPC operation, by which of the four it is. A result of `none` means that the caller is
suspended. -/
def ipcImpl (k : Kernel) (p : Proc) (op : Op) (slot msgPtr : BitVec 32) : Option ℤ × Kernel :=
  match op with
  | .send => k.ipcSendImpl p slot msgPtr
  | .call => k.ipcCallImpl p slot msgPtr
  | .recv => k.ipcRecvImpl p slot msgPtr
  | .reply => k.ipcReplyImpl p slot msgPtr

end Kernel

/-! ## Reading the audit stream

A read returns a record, or the oldest one left, or makes the caller wait. -/

/-- What a reader should do next, decided from its cursor and the next number to be written. -/
inductive ReadPlan where
  /-- no record yet -/
  | upToDate
  /-- read the record asked for -/
  | read (slot : Fin ringCapacity) (seq : BitVec 64)
  /-- resume at the oldest surviving record, `lost` records later -/
  | lagged (lost resumeSeq : BitVec 64)
  deriving DecidableEq, Repr

/-- The next read of a reader that wants `readerSeq`. -/
def readPlan (readerSeq nextSeq : BitVec 64) : ReadPlan :=
  if nextSeq ≤ readerSeq then .upToDate
  else
    let oldest := saturatingSub nextSeq (BitVec.ofNat 64 ringCapacity)
    if readerSeq < oldest then .lagged (oldest - readerSeq) oldest
    else .read (ringSlot readerSeq) readerSeq

/-- What a reader gets, which is the plan carried out on the ring. -/
inductive ReadResult where
  /-- nothing -/
  | upToDate
  /-- the record asked for -/
  | record (e : Event)
  /-- the oldest surviving record -/
  | lagged (e : Event)

/-- Read the record that a cursor points at, or the oldest that is left if that one is gone. -/
def Events.readAt (events : Events) (cursor : BitVec 64) : ReadResult :=
  match readPlan cursor events.nextSeq with
  | .upToDate => .upToDate
  | .read slot _ => .record (events.ring slot)
  | .lagged _ resumeSeq => .lagged (events.ring (ringSlot resumeSeq))

/-- The wire form of a record, 16 bytes: number, kind and the two scalars, least significant byte
first. -/
def encodeEvent (e : Event) : List (BitVec 8) :=
  toLe 8 e.seq.toNat ++ (toLe 2 e.kind.toNat ++ (toLe 2 e.a.toNat ++ toLe 4 e.b.toNat))

/-- Endpoint index of a process that waits for a record: no endpoint has it. -/
def eventWaitSentinel : BitVec 8 := 0xFF#8

namespace Kernel

/-- Write a record, and return `rc` if that went well. -/
def returnEvent (k : Kernel) (p : Proc) (outPtr : BitVec 32) (e : Event) (rc : ℤ) :
    Option ℤ × Kernel :=
  match k.writeMemory p outPtr (encodeEvent e) with
  | .error _ => (some eNomem, k)
  | .ok k => (some rc, k)

/-- Read the record at the cursor, or wait for it. -/
def eventReadImpl (k : Kernel) (p : Proc) (cursorLo cursorHi outPtr : BitVec 32) :
    Option ℤ × Kernel :=
  match k.caps.checkCap (p, slotEventlog) .eventLog capRightRead with
  | .error _ => (some ePerm, k)
  | .ok () =>
    match k.events.readAt (cursorHi ++ cursorLo) with
    | .upToDate =>
      match k.registerWaiter p with
      | none => (some 1, k)
      | some k => (none, k.modifyProcess p fun proc => proc.block .eventWait eventWaitSentinel)
    | .record e => k.returnEvent p outPtr e 0
    | .lagged e => k.returnEvent p outPtr e 2

end Kernel

end Wari
