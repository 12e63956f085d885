import Wari.Coherence
import Wari.Lib.Exchange

/-!
# The history of a run

What an observer writes down next to the kernel: every send and call with the message
its sender's memory held, who is suspended in which, and every delivery and answer,
with what the receiver has after it. The log is told from the states before and
after a step and from the value returned, not from how the kernel got there.
-/

namespace Wari

open Lib (Machine Rendezvous Exchange Wait)

/-! ## The log

The log is proof-only. It is written from what can be seen: the state before a step, the state
after it, and the value the step returned. A wrong step of the kernel would therefore show in it.
-/

/-- One send or call, as it is entered in the log when it is made. -/
structure Call where
  /-- who called -/
  sender : Proc
  /-- `send` or `call` -/
  op : Op
  /-- the message in the sender's memory, if there was one -/
  msg : Option MsgRegs

/-- One message copied into the receiver's registers or its buffer. -/
structure Delivery where
  /-- the send or call its sender is in -/
  call : Option ℕ
  /-- who received -/
  receiver : Proc
  /-- what the receiver has -/
  msg : Option MsgRegs

/-- One reply copied into the caller's registers, with the call that it answers. -/
structure Answer where
  /-- the call its caller is in -/
  call : Option ℕ
  /-- who replied -/
  replier : Proc
  /-- who is replied to -/
  caller : Proc
  /-- what the caller has -/
  msg : Option MsgRegs

/-- The log of a run. A call is known by its place among all calls, so two equal messages are told
apart. -/
structure Log where
  /-- sends and calls -/
  calls : List Call
  /-- the send or call a process is suspended in -/
  pending : Proc → Option ℕ
  /-- the calls that were queued at an endpoint -/
  queued : ℕ → List ℕ
  /-- deliveries -/
  deliveries : List Delivery
  /-- replies -/
  answers : List Answer
  /-- what sends and calls returned -/
  returns : List (ℕ × ℤ)

/-- The log before anything happened. -/
def Log.empty : Log := ⟨[], fun _ => none, fun _ => [], [], [], []⟩

/-- Who was taken off the front of a queue. -/
def taken : List Proc → List Proc → Option Proc
  | [], _ => none
  | q :: rest, after => if after = rest then some q else none

namespace Log

/-- A send or call of `p`, which returned `rc` or is suspended. -/
def call (l : Log) (k : Kernel) (p : Proc) (op : Op) (msgPtr : BitVec 32) (rc : Option ℤ) : Log :=
  let id := l.calls.length
  let l : Log := { l with calls := l.calls ++ [⟨p, op, (k.readMsg p msgPtr).toOption⟩] }
  match rc with
  | some rc => { l with returns := l.returns ++ [(id, rc)] }
  | none => { l with pending := Function.update l.pending p (some id) }

/-- A message is delivered to `q`, which then has `msg`. -/
def deliver (l : Log) (call : Option ℕ) (q : Proc) (msg : Option MsgRegs) : Log :=
  { l with deliveries := l.deliveries ++ [⟨call, q, msg⟩] }

/-- `q` is replied to by `r`, and then has `msg`. -/
def answer (l : Log) (call : Option ℕ) (r q : Proc) (msg : Option MsgRegs) : Log :=
  { l with answers := l.answers ++ [⟨call, r, q, msg⟩] }

/-- `p`, suspended in `call`, gets `rc`: the call has returned, and `p` is in none. -/
def resume (l : Log) (p : Proc) (call : ℕ) (rc : ℤ) : Log :=
  { l with
    returns := l.returns ++ [(call, rc)]
    pending := Function.update l.pending p none }

/-- The send or call `call` is queued at `e`. -/
def enqueue (l : Log) (call : ℕ) (e : ℕ) : Log :=
  { l with queued := Function.update l.queued e (l.queued e ++ [call]) }

/-- After a send or call: a receiver taken off its queue got the message, and a sender at
the end of its queue is queued. -/
def observeSend (l : Log) (k : Kernel) (p : Proc) (op : Op) (slot msgPtr : BitVec 32)
    (rc : Option ℤ) (k' : Kernel) : Log :=
  let id := l.calls.length
  let l := l.call k p op msgPtr rc
  match k.resolveEndpoint p slot capRightWrite with
  | .error _ => l
  | .ok e =>
    let l :=
      match taken (k.queue .receivers e) (k'.queue .receivers e) with
      | some q => l.deliver (some id) q (k'.msgRegsAt q)
      | none => l
    if k'.queue .senders e = k.queue .senders e ++ [p] then l.enqueue id e else l

/-- After a receive that returned success: a sender taken off its queue was received
from, into the receiver's buffer. -/
def observeRecv (l : Log) (k : Kernel) (p : Proc) (slot msgPtr : BitVec 32) (rc : Option ℤ)
    (k' : Kernel) : Log :=
  match k.resolveEndpoint p slot capRightRead with
  | .error _ => l
  | .ok e =>
    if rc = some 0 then
      match taken (k.queue .senders e) (k'.queue .senders e) with
      | some q => l.deliver (l.pending q) p (k'.readMsg p msgPtr).toOption
      | none => l
    else l

/-- After a reply that returned success: whoever else changed state was replied to. -/
def observeReply (l : Log) (k : Kernel) (p : Proc) (rc : Option ℤ) (k' : Kernel) : Log :=
  if rc = some 0 then
    match (List.finRange maxProcs).find? fun q => q ≠ p ∧ k'.stateAt q ≠ k.stateAt q with
    | some q => l.answer (l.pending q) p q (k'.msgRegsAt q)
    | none => l
  else l

/-- After a dispatch: a process resumed in a send or call gets its value. -/
def observeDispatch (l : Log) (p : Proc) (k' : Kernel) : Log :=
  match l.pending p, k'.stateAt p, k'.tier1Pool p with
  | some id, some .running, some slot => l.resume p id slot.pendingResume
  | _, _, _ => l

/-- After an IPC operation that returned `rc`, or suspended its caller. -/
def observeIpc (l : Log) (k : Kernel) (p : Proc) (op : Op) (slot msgPtr : BitVec 32)
    (rc : Option ℤ) (k' : Kernel) : Log :=
  match op with
  | .send => l.observeSend k p .send slot msgPtr rc k'
  | .call => l.observeSend k p .call slot msgPtr rc k'
  | .recv => l.observeRecv k p slot msgPtr rc k'
  | .reply => l.observeReply k p rc k'

/-- What is written down of one step. The log is a history variable, and no step looks at it. -/
def observe (l : Log) (k : Kernel) (t : Turn) (k' : Kernel) : Log :=
  match t with
  | .dispatch p _ => l.observeDispatch p k'
  | .ipc p op slot msgPtr => l.observeIpc k p op slot msgPtr (k.ipcImpl p op slot msgPtr).1 k'
  | .compute _ _ => l
  | .eventRead _ _ _ _ => l
  | .finish _ _ => l

/-- The calls delivered, in the order in which their messages arrived. -/
def delivered (l : Log) : List ℕ := l.deliveries.filterMap Delivery.call

/-- The calls answered, in the order in which they were replied to. -/
def answered (l : Log) : List ℕ := l.answers.filterMap Answer.call

@[simp] theorem delivered_deliver (l : Log) (i : ℕ) (q : Proc) (msg : Option MsgRegs) :
    (l.deliver (some i) q msg).delivered = l.delivered ++ [i] :=
  List.filterMap_append

@[simp] theorem answered_answer (l : Log) (i : ℕ) (r q : Proc) (msg : Option MsgRegs) :
    (l.answer (some i) r q msg).answered = l.answered ++ [i] :=
  List.filterMap_append

end Log

/-- The kernel together with the log of what happened so far. -/
structure Traced where
  /-- the kernel -/
  kernel : Kernel
  /-- what happened so far -/
  log : Log

namespace Traced

/-- An idle kernel, with an empty log beside it. -/
def start (k : IdleKernel) : Traced := ⟨k.1, .empty⟩

/-- One step of the kernel, with what happened in it written down. -/
def turn (s : Traced) (t : Turn) : Option Traced :=
  (s.kernel.turn t).map fun k' => ⟨k', s.log.observe s.kernel t k'⟩

/-- The kernel and its log as an exchange. -/
def exchange (s : Traced) : Exchange Proc ℕ where
  toRendezvous := s.kernel.rendezvous
  offered := s.log.calls.length
  pending := s.log.pending
  queued := s.log.queued
  delivered := s.log.delivered
  answered := s.log.answered

end Traced

/-- The system of tenants with its log, from any idle kernel. -/
def tracedMachine : Machine Traced Turn where
  init s := s.kernel.Idle ∧ s.log = .empty
  step := Traced.turn

theorem tracedMachine_records : tracedMachine.Records turnMachine Traced.kernel := by
  intro s t
  simp [tracedMachine, turnMachine, Traced.turn, Function.comp_def]

/-- The log follows the system and does not steer it. -/
theorem turnMachine_reachable_iff {k : Kernel} :
    turnMachine.Reachable k ↔ ∃ s, tracedMachine.Reachable s ∧ s.kernel = k := by
  refine tracedMachine_records.reachable_iff fun k => ⟨fun h => ?_, ?_⟩
  · exact ⟨⟨k, .empty⟩, ⟨h, rfl⟩, rfl⟩
  · rintro ⟨s, ⟨hidle, -⟩, rfl⟩
    exact hidle

end Wari
