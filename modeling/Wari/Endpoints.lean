import Wari.Ipc

/-!
# What the host functions do

The queues and the process table, read as a rendezvous: who is queued at which
endpoint, and who waits for what. Each write of the host functions is one
operation on it, and `IpcEffect` lists what an IPC operation can do, guards
included, so that nothing after it needs their bodies.
-/

namespace Wari

open Lib (Wait Rendezvous writeAt)

/-- What a blocked process waits for, and on which endpoint. -/
def ProcessState.wait : ProcessState → Option (Wait × ℕ)
  | .blocked .sendWait epIdx => some (.send, epIdx.toNat)
  | .blocked .callWait epIdx => some (.call, epIdx.toNat)
  | .blocked .recvWait epIdx => some (.recv, epIdx.toNat)
  | .blocked .replyWait epIdx => some (.reply, epIdx.toNat)
  | _ => none

namespace Kernel

/-- What is queued on one side of endpoint `e`, oldest first; nothing where there is
no such endpoint. -/
def queue (k : Kernel) (side : Side) (e : ℕ) : List Proc :=
  match k.endpoint? e with
  | none => []
  | some ep => (ep.queue side).toList

/-- The kernel as a rendezvous: what each process waits for, and who is queued on each side of
each endpoint. -/
def rendezvous (k : Kernel) : Rendezvous Proc ℕ where
  senders := k.queue .senders
  receivers := k.queue .receivers
  wait p := (k.stateAt p).bind ProcessState.wait

/-- The message registers of a process, if there is one. -/
def msgRegsAt (k : Kernel) (p : Proc) : Option MsgRegs := (k.processes p).map Process.msgRegs

/-! ## Writes to one process

Most writes are to one entry of the process table, and concern its state or its registers but not
both. -/

section Process

variable (k : Kernel) (p q : Proc)

@[simp] theorem endpoint?_modifyProcess (f : Process → Process) :
    (k.modifyProcess p f).endpoint? = k.endpoint? := rfl

@[simp] theorem endpoint?_setResumeValue (rc : ℤ) :
    (k.setResumeValue p rc).endpoint? = k.endpoint? := rfl

@[simp] theorem queue_modifyProcess (f : Process → Process) :
    (k.modifyProcess p f).queue = k.queue := rfl

@[simp] theorem queue_setResumeValue (rc : ℤ) : (k.setResumeValue p rc).queue = k.queue := rfl

@[simp] theorem queue_setInstance (slot : Tier1Slot) :
    (k.setInstance p slot).queue = k.queue := rfl

@[simp] theorem tier1Pool_setInstance (slot : Tier1Slot) :
    (k.setInstance p slot).tier1Pool q = if q = p then some slot else k.tier1Pool q :=
  Function.update_apply _ _ _ _

@[simp] theorem processes_setMsgRegs (regs : MsgRegs) :
    (k.setMsgRegs p regs).processes q =
      if q = p then (k.processes q).map fun proc => { proc with msgRegs := regs }
      else k.processes q :=
  k.processes_modifyProcess p q _

@[simp] theorem tier1Pool_setMsgRegs (regs : MsgRegs) :
    (k.setMsgRegs p regs).tier1Pool = k.tier1Pool := rfl

@[simp] theorem events_setMsgRegs (regs : MsgRegs) : (k.setMsgRegs p regs).events = k.events := rfl

@[simp] theorem caps_setMsgRegs (regs : MsgRegs) : (k.setMsgRegs p regs).caps = k.caps := rfl

/-- A write to one process, where it is a write to its state. -/
theorem stateAt_modifyProcess {f : Process → Process} {g : ProcessState → ProcessState}
    (hf : ∀ proc, (f proc).state = g proc.state) :
    (k.modifyProcess p f).stateAt q = if q = p then (k.stateAt p).map g else k.stateAt q := by
  rw [stateAt, processes_modifyProcess]
  split
  · rename_i hq
    rw [hq, stateAt, Option.map_map, Option.map_map]
    exact congrArg (fun g => (k.processes p).map g) (funext hf)
  · rfl

/-- A write to one process, where it is a write to its registers. -/
theorem msgRegsAt_modifyProcess {f : Process → Process} {g : MsgRegs → MsgRegs}
    (hf : ∀ proc, (f proc).msgRegs = g proc.msgRegs) :
    (k.modifyProcess p f).msgRegsAt q = if q = p then (k.msgRegsAt p).map g else k.msgRegsAt q := by
  rw [msgRegsAt, processes_modifyProcess]
  split
  · rename_i hq
    rw [hq, msgRegsAt, Option.map_map, Option.map_map]
    exact congrArg (fun g => (k.processes p).map g) (funext hf)
  · rfl

/-- A write to a process that leaves its state alone leaves the states of all alone. -/
theorem stateAt_modifyProcess_eq {f : Process → Process}
    (hf : ∀ proc, (f proc).state = proc.state) : (k.modifyProcess p f).stateAt = k.stateAt := by
  funext q
  rw [k.stateAt_modifyProcess p q (g := id) hf, Option.map_id]
  split
  · rename_i hq
    rw [hq]
    rfl
  · rfl

/-- A write to a process that leaves its message registers alone leaves those of all alone. -/
theorem msgRegsAt_modifyProcess_eq {f : Process → Process}
    (hf : ∀ proc, (f proc).msgRegs = proc.msgRegs) :
    (k.modifyProcess p f).msgRegsAt = k.msgRegsAt := by
  funext q
  rw [k.msgRegsAt_modifyProcess p q (g := id) hf, Option.map_id]
  split
  · rename_i hq
    rw [hq]
    rfl
  · rfl

@[simp] theorem stateAt_setMsgRegs (regs : MsgRegs) :
    (k.setMsgRegs p regs).stateAt = k.stateAt :=
  k.stateAt_modifyProcess_eq p fun _ => rfl

@[simp] theorem msgRegsAt_setMsgRegs (regs : MsgRegs) :
    (k.setMsgRegs p regs).msgRegsAt q =
      if q = p then (k.msgRegsAt p).map fun _ => regs else k.msgRegsAt q :=
  k.msgRegsAt_modifyProcess p q fun _ => rfl

@[simp] theorem stateAt_wake :
    (k.wake p).stateAt q = if q = p then (k.stateAt p).map ProcessState.woken else k.stateAt q :=
  k.stateAt_modifyProcess p q Process.state_wake

@[simp] theorem msgRegsAt_wake : (k.wake p).msgRegsAt = k.msgRegsAt :=
  k.msgRegsAt_modifyProcess_eq p Process.msgRegs_wake

@[simp] theorem stateAt_setState (s : ProcessState) :
    (k.setState p s).stateAt q = if q = p then (k.stateAt p).map fun _ => s else k.stateAt q :=
  k.stateAt_modifyProcess p q fun _ => rfl

@[simp] theorem msgRegsAt_setState (s : ProcessState) :
    (k.setState p s).msgRegsAt = k.msgRegsAt :=
  k.msgRegsAt_modifyProcess_eq p fun _ => rfl

@[simp] theorem stateAt_setInstance (slot : Tier1Slot) :
    (k.setInstance p slot).stateAt = k.stateAt := rfl

@[simp] theorem msgRegsAt_setInstance (slot : Tier1Slot) :
    (k.setInstance p slot).msgRegsAt = k.msgRegsAt := rfl

@[simp] theorem events_setInstance (slot : Tier1Slot) :
    (k.setInstance p slot).events = k.events := rfl

@[simp] theorem stateAt_setResumeValue (rc : ℤ) :
    (k.setResumeValue p rc).stateAt = k.stateAt := rfl

@[simp] theorem msgRegsAt_setResumeValue (rc : ℤ) :
    (k.setResumeValue p rc).msgRegsAt = k.msgRegsAt := rfl

/-- A write to one process, where it is a write to its state, as a rendezvous. -/
theorem rendezvous_modifyProcess {f : Process → Process} {g : ProcessState → ProcessState}
    (hf : ∀ proc, (f proc).state = g proc.state) :
    (k.modifyProcess p f).rendezvous =
      k.rendezvous.setWait p ((k.stateAt p).bind fun s => (g s).wait) := by
  refine Rendezvous.ext rfl rfl (funext fun q => ?_)
  rw [Rendezvous.wait_setWait]
  change ((k.modifyProcess p f).stateAt q).bind ProcessState.wait = _
  rw [k.stateAt_modifyProcess p q hf]
  split
  · cases k.stateAt p <;> rfl
  · rfl

@[simp] theorem rendezvous_setInstance (slot : Tier1Slot) :
    (k.setInstance p slot).rendezvous = k.rendezvous := rfl

@[simp] theorem rendezvous_setResumeValue (rc : ℤ) :
    (k.setResumeValue p rc).rendezvous = k.rendezvous := rfl

@[simp] theorem rendezvous_setMsgRegs (regs : MsgRegs) :
    (k.setMsgRegs p regs).rendezvous = k.rendezvous := by
  refine Rendezvous.ext rfl rfl (funext fun q => ?_)
  exact congrArg (fun f => (f q).bind ProcessState.wait) (k.stateAt_setMsgRegs p regs)

/-- Whoever is woken waits for nothing, and this is all that changes in the rendezvous. -/
@[simp] theorem rendezvous_wake : (k.wake p).rendezvous = k.rendezvous.setWait p none := by
  rw [wake, k.rendezvous_modifyProcess p Process.state_wake]
  congr 1
  rcases k.stateAt p with _ | s
  · rfl
  · cases s <;> rfl

end Process

/-! ## Waking and blocking

The two writes to a state that IPC makes. Waking goes through the pool of instances as well, for
the value to return. -/

section Wake

variable (k : Kernel) (p q : Proc) (msg : Option MsgRegs) (rc : ℤ)

@[simp] theorem events_deliverAndWake : (k.deliverAndWake p msg rc).events = k.events := by
  cases msg <;> rfl

@[simp] theorem stateAt_deliverAndWake : (k.deliverAndWake p msg rc).stateAt q =
    if q = p then (k.stateAt p).map ProcessState.woken else k.stateAt q := by
  cases msg <;> simp [deliverAndWake]

/-- What a woken peer finds in its registers. -/
@[simp] theorem msgRegsAt_deliverAndWake : (k.deliverAndWake p msg rc).msgRegsAt q =
    if q = p then (k.msgRegsAt p).map fun regs => msg.getD regs else k.msgRegsAt q := by
  cases msg with
  | none =>
    have hid : (fun regs : MsgRegs => (none : Option MsgRegs).getD regs) = id := rfl
    rw [hid, Option.map_id]
    simp only [deliverAndWake, msgRegsAt_wake, msgRegsAt_setResumeValue]
    split
    · rename_i hq
      rw [hq]
      rfl
    · rfl
  | some regs => simp [deliverAndWake]

@[simp] theorem tier1Pool_deliverAndWake : (k.deliverAndWake p msg rc).tier1Pool q =
    if q = p then (k.tier1Pool q).map fun slot => { slot with pendingResume := rc }
    else k.tier1Pool q := by
  cases msg <;> simp [deliverAndWake]

@[simp] theorem rendezvous_deliverAndWake :
    (k.deliverAndWake p msg rc).rendezvous = k.rendezvous.setWait p none := by
  cases msg <;> simp [deliverAndWake]

end Wake

section Block

variable (k : Kernel) (p q : Proc) (reason : BlockReason) (e : ℕ) (msgPtr : BitVec 32)

@[simp] theorem events_blockAndYield :
    (k.blockAndYield p reason e msgPtr).events = k.events := rfl

@[simp] theorem stateAt_blockAndYield : (k.blockAndYield p reason e msgPtr).stateAt q =
    if q = p then (k.stateAt p).map fun _ => .blocked reason (BitVec.ofNat 8 e)
    else k.stateAt q :=
  k.stateAt_modifyProcess p q fun _ => rfl

@[simp] theorem msgRegsAt_blockAndYield :
    (k.blockAndYield p reason e msgPtr).msgRegsAt = k.msgRegsAt :=
  k.msgRegsAt_modifyProcess_eq p fun _ => rfl

@[simp] theorem tier1Pool_blockAndYield :
    (k.blockAndYield p reason e msgPtr).tier1Pool = k.tier1Pool := rfl

/-- Whoever blocks waits for what it blocks for. -/
theorem rendezvous_blockAndYield {s : ProcessState} (h : k.stateAt p = some s) :
    (k.blockAndYield p reason e msgPtr).rendezvous =
      k.rendezvous.setWait p (ProcessState.blocked reason (BitVec.ofNat 8 e)).wait := by
  rw [blockAndYield, k.rendezvous_modifyProcess p
    (g := fun _ => .blocked reason (BitVec.ofNat 8 e)) fun _ => rfl, h]
  rfl

end Block

/-! ## Writes to one queue

A pop and a push, as relations between the queues before and after. The rest of the endpoint, and
the other endpoints, stay as they are. -/

/-- The side of endpoint `e` is `q :: que` before a pop, and `que` after. -/
def Popped (k : Kernel) (side : Side) (e : ℕ) (q : Proc) (que : BoundedQueue TcbRef 8) : Prop :=
  ∃ ep, k.endpoint? e = some ep ∧ (ep.queue side).pop = (some q, que)

/-- The side of endpoint `e` is `que` after `p` is pushed. -/
def Pushed (k : Kernel) (side : Side) (e : ℕ) (p : Proc) (que : BoundedQueue TcbRef 8) : Prop :=
  ∃ ep, k.endpoint? e = some ep ∧ (ep.queue side).push p = .ok que

theorem queue_eq {k : Kernel} {e : ℕ} {ep : Endpoint} (h : k.endpoint? e = some ep)
    (side : Side) : k.queue side e = (ep.queue side).toList := by
  rw [queue, h]

/-- Endpoints are indexed by a byte, so that an index survives being cut down to one. -/
theorem endpoint?_lt {k : Kernel} {e : ℕ} {ep : Endpoint} (h : k.endpoint? e = some ep) :
    (BitVec.ofNat 8 e).toNat = e := by
  have hlt := Pool.lt_of_get h
  rw [BitVec.toNat_ofNat]
  omega

theorem Popped.queue_eq {k : Kernel} {side : Side} {e : ℕ} {q : Proc}
    {que : BoundedQueue TcbRef 8} (h : k.Popped side e q que) :
    k.queue side e = q :: que.toList := by
  obtain ⟨ep, hep, hpop⟩ := h
  rw [Kernel.queue_eq hep]
  rcases (ep.queue side).pop_eq with ⟨-, hnone⟩ | ⟨a, q', hsome, hlist⟩
  · rw [hnone] at hpop
    cases hpop
  · rw [hsome] at hpop
    cases hpop
    exact hlist

theorem Pushed.toList_eq {k : Kernel} {side : Side} {e : ℕ} {p : Proc}
    {que : BoundedQueue TcbRef 8} (h : k.Pushed side e p que) :
    que.toList = k.queue side e ++ [p] := by
  obtain ⟨ep, hep, hpush⟩ := h
  rw [Kernel.queue_eq hep]
  exact BoundedQueue.push_ok hpush

/-- Writing a queue back as it was changes nothing. -/
theorem setQueue_eq_self {k : Kernel} {side : Side} {e : ℕ} {ep : Endpoint}
    (h : k.endpoint? e = some ep) : k.setQueue side e (ep.queue side) = k := by
  have hpool : k.caps.objectPools.endpoints.modify e
      (fun ep' => ep'.setQueue side (ep.queue side)) = k.caps.objectPools.endpoints := by
    refine Pool.modify_eq_self fun ep' hep' => ?_
    obtain rfl : ep = ep' := Option.some.inj (h.symm.trans hep')
    cases side <;> rfl
  rw [setQueue, CapState.modifyEndpoint, hpool]

/-- What a pop does: from an empty queue nothing, and otherwise it takes the first. -/
theorem pop_cases (k : Kernel) (side : Side) (e : ℕ) :
    (k.queue side e = [] ∧ k.pop side e = (none, k)) ∨
      ∃ q que, k.Popped side e q que ∧ k.pop side e = (some q, k.setQueue side e que) := by
  rcases hep : k.endpoint? e with _ | ep
  · left
    rw [queue, pop, hep]
    exact ⟨rfl, rfl⟩
  · rw [Kernel.queue_eq hep]
    simp only [pop, hep]
    rcases (ep.queue side).pop_eq with ⟨hlist, hnone⟩ | ⟨a, q', hsome, -⟩
    · -- nothing popped, and the queue is written back as it was
      left
      exact ⟨hlist, by rw [hnone, setQueue_eq_self hep]⟩
    · right
      exact ⟨a, q', ⟨ep, hep, hsome⟩, by rw [hsome]⟩

/-- What a push does: it puts the process at the end, unless there is no such endpoint or its
queue is full. -/
theorem push_cases (k : Kernel) (side : Side) (e : ℕ) (p : Proc) :
    k.push side e p = none ∨
      ∃ que, k.Pushed side e p que ∧ k.push side e p = some (k.setQueue side e que) := by
  rcases hep : k.endpoint? e with _ | ep
  · left
    rw [push, hep]
  · simp only [push, hep]
    rcases hpush : (ep.queue side).push p with v | que
    · exact .inl rfl
    · exact .inr ⟨que, ⟨ep, hep, hpush⟩, rfl⟩

section Queue

variable (k : Kernel) (side : Side) (e : ℕ) (que : BoundedQueue TcbRef 8)

@[simp] theorem processes_setQueue : (k.setQueue side e que).processes = k.processes := rfl

@[simp] theorem tier1Pool_setQueue : (k.setQueue side e que).tier1Pool = k.tier1Pool := rfl

@[simp] theorem events_setQueue : (k.setQueue side e que).events = k.events := rfl

@[simp] theorem stateAt_setQueue : (k.setQueue side e que).stateAt = k.stateAt := rfl

@[simp] theorem msgRegsAt_setQueue : (k.setQueue side e que).msgRegsAt = k.msgRegsAt := rfl

/-- A write to one queue of an endpoint there is. -/
theorem queue_setQueue {ep : Endpoint} (h : k.endpoint? e = some ep) (side' : Side) (e' : ℕ) :
    (k.setQueue side e que).queue side' e' =
      if side' = side ∧ e' = e then que.toList else k.queue side' e' := by
  have hget : (k.setQueue side e que).endpoint? e' =
      if e' = e then (k.endpoint? e).map fun ep => ep.setQueue side que else k.endpoint? e' :=
    Pool.get_modify _ _ _ _
  simp only [queue, hget]
  by_cases he : e' = e
  · subst he
    rw [if_pos rfl, h]
    cases side <;> cases side' <;> simp [Endpoint.queue, Endpoint.setQueue]
  · rw [if_neg he, if_neg fun hand => he hand.2]

theorem rendezvous_setSenders {ep : Endpoint} (h : k.endpoint? e = some ep) :
    (k.setQueue .senders e que).rendezvous = k.rendezvous.setSenders e que.toList := by
  refine Rendezvous.ext (funext fun d => ?_) (funext fun d => ?_) rfl
  · rw [Rendezvous.senders_setSenders]
    exact (k.queue_setQueue .senders e que h .senders d).trans (by simp; rfl)
  · exact (k.queue_setQueue .senders e que h .receivers d).trans (by simp; rfl)

theorem rendezvous_setReceivers {ep : Endpoint} (h : k.endpoint? e = some ep) :
    (k.setQueue .receivers e que).rendezvous = k.rendezvous.setReceivers e que.toList := by
  refine Rendezvous.ext (funext fun d => ?_) (funext fun d => ?_) rfl
  · exact (k.queue_setQueue .receivers e que h .senders d).trans (by simp; rfl)
  · rw [Rendezvous.receivers_setReceivers]
    exact (k.queue_setQueue .receivers e que h .receivers d).trans (by simp; rfl)

end Queue

/-! ## Refusals

Where reading or writing a message fails, for want of room in the caller's memory. -/

/-- The caller's memory has room for a message at `msgPtr`. -/
def Writable (k : Kernel) (p : Proc) (msgPtr : BitVec 32) : Prop :=
  ∃ memory, k.memoryOf p = some memory ∧ msgPtr.toNat + msgBytes ≤ memory.length

theorem checkCap_error {st : CapState} {a : Place} {kind : ObjectKind} {rights : BitVec 8} {rc : ℤ}
    (h : st.checkCap a kind rights = .error rc) : rc < 0 := by
  simp only [CapState.checkCap] at h
  have hrc : ePerm = rc := by
    split at h
    · exact Except.error.inj h
    · split at h
      · exact Except.error.inj h
      · split at h
        · exact Except.error.inj h
        · cases h
  rw [← hrc]
  decide

theorem resolveEndpoint_error {k : Kernel} {p : Proc} {slot : BitVec 32} {rights : BitVec 8}
    {rc : ℤ} (h : k.resolveEndpoint p slot rights = .error rc) : rc < 0 := by
  simp only [resolveEndpoint] at h
  split at h
  · obtain rfl := Except.error.inj h
    decide
  · split at h
    · rename_i hcap
      obtain rfl := Except.error.inj h
      exact checkCap_error hcap
    · cases h

theorem readMsg_error {k : Kernel} {p : Proc} {msgPtr : BitVec 32} {rc : ℤ}
    (h : k.readMsg p msgPtr = .error rc) : rc < 0 := by
  simp only [readMsg] at h
  split at h
  · obtain rfl := Except.error.inj h
    decide
  · split at h
    · obtain rfl := Except.error.inj h
      decide
    · cases h

/-- A message within the caller's memory is read. -/
theorem readMsg_of_room {k : Kernel} {p : Proc} {msgPtr : BitVec 32} {memory : List (BitVec 8)}
    (hmem : k.memoryOf p = some memory) (hroom : msgPtr.toNat + msgBytes ≤ memory.length) :
    k.readMsg p msgPtr = .ok (decodeMsg ((memory.drop msgPtr.toNat).take msgBytes)) := by
  have hread : Lib.readAt memory msgPtr.toNat msgBytes =
      some ((memory.drop msgPtr.toNat).take msgBytes) := if_pos hroom
  simp only [readMsg, hmem, hread]

/-- A message that cannot be written has no room. -/
theorem writeMsg_error {k : Kernel} {p : Proc} {msgPtr : BitVec 32} {regs : MsgRegs} {rc : ℤ}
    (h : k.writeMsg p msgPtr regs = .error rc) : rc < 0 ∧ ¬ k.Writable p msgPtr := by
  simp only [writeMsg, writeMemory] at h
  simp only [Writable, memoryOf]
  rcases hslot : k.tier1Pool p with _ | slot
  · rw [hslot] at h
    obtain rfl := Except.error.inj h
    exact ⟨by decide, by simp⟩
  · rw [hslot] at h
    simp only [Option.bind_some] at h ⊢
    rcases hmem : slot.memory with _ | memory
    · rw [hmem] at h
      obtain rfl := Except.error.inj h
      exact ⟨by decide, by simp⟩
    · rw [hmem] at h
      simp only at h
      rcases hwrite : writeAt memory msgPtr.toNat (encodeMsg regs) with _ | memory'
      · rw [hwrite] at h
        obtain rfl := Except.error.inj h
        refine ⟨by decide, ?_⟩
        rintro ⟨memory', hmem', hroom⟩
        obtain rfl := Option.some.inj hmem'
        have hsome := Lib.writeAt_isSome.mpr
          (show msgPtr.toNat + (encodeMsg regs).length ≤ memory.length by
            rw [length_encodeMsg]
            exact hroom)
        rw [hwrite] at hsome
        cases hsome
      · rw [hwrite] at h
        cases h

/-- A message that can be written is written into the caller's memory. -/
theorem writeMsg_ok {k k' : Kernel} {p : Proc} {msgPtr : BitVec 32} {regs : MsgRegs}
    (h : k.writeMsg p msgPtr regs = .ok k') :
    ∃ slot memory memory', k.tier1Pool p = some slot ∧ slot.memory = some memory ∧
      writeAt memory msgPtr.toNat (encodeMsg regs) = some memory' ∧
      k' = k.setInstance p { slot with memory := some memory' } := by
  simp only [writeMsg, writeMemory] at h
  split at h
  · cases h
  · rename_i slot hslot
    split at h
    · cases h
    · rename_i memory hmem
      split at h
      · cases h
      · rename_i memory' hwrite
        exact ⟨slot, memory, memory', hslot, hmem, hwrite, (Except.ok.inj h).symm⟩

/-! ## What an IPC operation can do

The inversion of the four syscalls. Everything later that speaks of IPC goes through the cases of
`IpcEffect`, each with its guards and the kernel it leaves. -/

/-- What an IPC operation of `p` can answer, and the kernel it then leaves. There is one
constructor for each way through the source: refusals, a full queue, a hand-over to a receiver, a
sender that is queued, a receive that finds a send or a call, a receive that waits, a receive that
drops a sender, and a reply. -/
inductive IpcEffect (k : Kernel) (p : Proc) (slot msgPtr : BitVec 32) :
    Op → Option ℤ × Kernel → Prop where
  /-- a bad slot, cap or pointer, a full queue, or nobody to reply to; no sender is passed
  over -/
  | refused {op : Op} {rc : ℤ} (hrc : rc < 0)
      (hempty : op = .recv → ∀ e, k.resolveEndpoint p slot capRightRead = .ok e →
        k.queue .senders e = []) : IpcEffect k p slot msgPtr op (some rc, k)
  /-- nobody receives, and there is no room to queue -/
  | full {op : Op} {msg : MsgRegs} (hop : op = .send ∨ op = .call) :
      IpcEffect k p slot msgPtr op (some eAgain, k.setMsgRegs p msg)
  /-- handed to the first receiver -/
  | sent {e : ℕ} {q : Proc} {que : BoundedQueue TcbRef 8} {msg : MsgRegs}
      (he : k.resolveEndpoint p slot capRightWrite = .ok e) (hmsg : k.readMsg p msgPtr = .ok msg)
      (hq : k.Popped .receivers e q que) :
      IpcEffect k p slot msgPtr .send
        (some 0, ((k.setMsgRegs p msg).setQueue .receivers e que).deliverAndWake q (some msg) 0)
  /-- handed to the first receiver, and a reply awaited -/
  | called {e : ℕ} {q : Proc} {que : BoundedQueue TcbRef 8} {msg : MsgRegs}
      (he : k.resolveEndpoint p slot capRightWrite = .ok e) (hmsg : k.readMsg p msgPtr = .ok msg)
      (hq : k.Popped .receivers e q que) :
      IpcEffect k p slot msgPtr .call
        (none, (((k.setMsgRegs p msg).setQueue .receivers e que).deliverAndWake q
          (some msg) 0).blockAndYield p .replyWait e msgPtr)
  /-- queued to send -/
  | queued {op : Op} {reason : BlockReason} {e : ℕ} {que : BoundedQueue TcbRef 8} {msg : MsgRegs}
      (hop : op = .send ∧ reason = .sendWait ∨ op = .call ∧ reason = .callWait)
      (he : k.resolveEndpoint p slot capRightWrite = .ok e) (hmsg : k.readMsg p msgPtr = .ok msg)
      (hempty : k.queue .receivers e = []) (hq : k.Pushed .senders e p que) :
      IpcEffect k p slot msgPtr op
        (none, ((k.setMsgRegs p msg).setQueue .senders e que).blockAndYield p reason e msgPtr)
  /-- received from a sender, which goes on -/
  | received {e : ℕ} {q : Proc} {que : BoundedQueue TcbRef 8} {sender : Process}
      {inst : Tier1Slot} {memory memory' : List (BitVec 8)}
      (he : k.resolveEndpoint p slot capRightRead = .ok e) (hq : k.Popped .senders e q que)
      (hsender : k.processes q = some sender)
      (hwait : ∀ epIdx, sender.state ≠ .blocked .callWait epIdx)
      (hinst : k.tier1Pool p = some inst) (hmem : inst.memory = some memory)
      (hwrite : writeAt memory msgPtr.toNat (encodeMsg sender.msgRegs) = some memory') :
      IpcEffect k p slot msgPtr .recv
        (some 0, ((k.setQueue .senders e que).setInstance p
          { inst with memory := some memory' }).deliverAndWake q none 0)
  /-- received from a caller, which now awaits the reply -/
  | receivedCall {e : ℕ} {q : Proc} {que : BoundedQueue TcbRef 8} {sender : Process}
      {inst : Tier1Slot} {memory memory' : List (BitVec 8)} {epIdx : BitVec 8}
      (he : k.resolveEndpoint p slot capRightRead = .ok e) (hq : k.Popped .senders e q que)
      (hsender : k.processes q = some sender) (hwait : sender.state = .blocked .callWait epIdx)
      (hinst : k.tier1Pool p = some inst) (hmem : inst.memory = some memory)
      (hwrite : writeAt memory msgPtr.toNat (encodeMsg sender.msgRegs) = some memory') :
      IpcEffect k p slot msgPtr .recv
        (some 0, ((k.setQueue .senders e que).setInstance p
          { inst with memory := some memory' }).modifyProcess q fun proc =>
            proc.block .replyWait epIdx)
  /-- a sender is taken off the queue, and its message not received -/
  | dropped {e : ℕ} {q : Proc} {que : BoundedQueue TcbRef 8} {rc : ℤ} (hrc : rc < 0)
      (he : k.resolveEndpoint p slot capRightRead = .ok e) (hq : k.Popped .senders e q que)
      (hlost : k.processes q = none ∨ ¬ k.Writable p msgPtr) :
      IpcEffect k p slot msgPtr .recv (some rc, k.setQueue .senders e que)
  /-- queued to receive -/
  | awaited {e : ℕ} {que : BoundedQueue TcbRef 8}
      (he : k.resolveEndpoint p slot capRightRead = .ok e)
      (hempty : k.queue .senders e = []) (hq : k.Pushed .receivers e p que) :
      IpcEffect k p slot msgPtr .recv
        (none, (k.setQueue .receivers e que).blockAndYield p .recvWait e msgPtr)
  /-- a caller gets its reply -/
  | replied {e : ℕ} {q : Proc} {msg : MsgRegs}
      (he : k.resolveEndpoint p slot capRightWrite = .ok e) (hmsg : k.readMsg p msgPtr = .ok msg)
      (hq : k.replyWaiterOn e = some q) :
      IpcEffect k p slot msgPtr .reply (some 0, k.deliverAndWake q (some msg) 0)

/-- **Send and call** have one of the effects listed: the two differ in what the caller waits for.
-/
theorem doSendLike_effect (k : Kernel) (p : Proc) (slot msgPtr : BitVec 32) {op : Op}
    (hop : op = .send ∨ op = .call) :
    IpcEffect k p slot msgPtr op (k.doSendLike p slot msgPtr op) := by
  have hrecv : op ≠ .recv := by
    rcases hop with rfl | rfl <;> exact nofun
  simp only [doSendLike]
  rcases he : k.resolveEndpoint p slot capRightWrite with rc | e
  · exact .refused (resolveEndpoint_error he) fun h => (hrecv h).elim
  · simp only
    rcases hmsg : k.readMsg p msgPtr with rc | msg
    · exact .refused (readMsg_error hmsg) fun h => (hrecv h).elim
    · simp only
      rcases (k.setMsgRegs p msg).pop_cases .receivers e with ⟨hempty, hpop⟩ | ⟨q, que, hq, hpop⟩
      · -- nobody receives
        simp only [hpop, Option.isSome_none]
        rcases (k.setMsgRegs p msg).push_cases .senders e p with hpush | ⟨que, hq, hpush⟩
        · rcases hop with rfl | rfl <;> simp only [resolve, hpush]
          · exact .full (.inl rfl)
          · exact .full (.inr rfl)
        · rcases hop with rfl | rfl <;> simp only [resolve, hpush]
          · exact .queued (.inl ⟨rfl, rfl⟩) he hmsg hempty hq
          · exact .queued (.inr ⟨rfl, rfl⟩) he hmsg hempty hq
      · simp only [hpop, Option.isSome_some]
        rcases hop with rfl | rfl <;> simp only [resolve]
        · exact .sent he hmsg hq
        · exact .called he hmsg hq

/-- **Receive** has one of the effects listed: it fails, takes a message, or blocks. -/
theorem ipcRecvImpl_effect (k : Kernel) (p : Proc) (slot msgPtr : BitVec 32) :
    IpcEffect k p slot msgPtr .recv (k.ipcRecvImpl p slot msgPtr) := by
  simp only [ipcRecvImpl]
  rcases he : k.resolveEndpoint p slot capRightRead with rc | e
  · refine .refused (resolveEndpoint_error he) fun _ e h => ?_
    rw [he] at h
    cases h
  · simp only
    rcases k.pop_cases .senders e with ⟨hempty, hpop⟩ | ⟨q, que, hq, hpop⟩
    · -- nobody sends
      simp only [hpop, Option.isSome_none, resolve]
      rcases k.push_cases .receivers e p with hpush | ⟨que, hq, hpush⟩
      · simp only [hpush]
        refine .refused (by decide) fun _ e' h => ?_
        rw [he] at h
        cases h
        exact hempty
      · simp only [hpush]
        exact .awaited he hempty hq
    · simp only [hpop, Option.isSome_some, resolve, processes_setQueue]
      rcases hsender : k.processes q with _ | sender
      · exact .dropped (by decide) he hq (.inl hsender)
      · simp only
        rcases hwrite : (k.setQueue .senders e que).writeMsg p msgPtr sender.msgRegs with rc | k'
        · obtain ⟨hrc, hroom⟩ := writeMsg_error hwrite
          exact .dropped hrc he hq (.inr hroom)
        · obtain ⟨inst, memory, memory', hinst, hmem, hwritten, rfl⟩ := writeMsg_ok hwrite
          have hstate : k.stateAt q = some sender.state := by
            rw [stateAt, hsender]
            rfl
          simp only [stateAt_setInstance, stateAt_setQueue, hstate]
          -- a caller goes on waiting, anyone else is woken
          by_cases hwait : ∃ epIdx, sender.state = .blocked .callWait epIdx
          · obtain ⟨epIdx, hwait⟩ := hwait
            rw [hwait]
            exact .receivedCall he hq hsender hwait hinst hmem hwritten
          · have hwait' : ∀ epIdx, sender.state ≠ .blocked .callWait epIdx :=
              fun epIdx h => hwait ⟨epIdx, h⟩
            split
            · rename_i epIdx h
              exact (hwait' epIdx (Option.some.inj h)).elim
            · exact .received he hq hsender hwait' hinst hmem hwritten

/-- **Reply** has one of the effects listed, and never blocks. -/
theorem ipcReplyImpl_effect (k : Kernel) (p : Proc) (slot msgPtr : BitVec 32) :
    IpcEffect k p slot msgPtr .reply (k.ipcReplyImpl p slot msgPtr) := by
  simp only [ipcReplyImpl]
  rcases he : k.resolveEndpoint p slot capRightWrite with rc | e
  · exact .refused (resolveEndpoint_error he) nofun
  · simp only
    rcases hq : k.replyWaiterOn e with _ | q
    · exact .refused (by decide) nofun
    · simp only [Option.isSome_some, resolve]
      rcases hmsg : k.readMsg p msgPtr with rc | msg
      · exact .refused (readMsg_error hmsg) nofun
      · exact .replied he hmsg hq

/-- **What an IPC operation does**: all that later proofs need to know of the four, so that none
of them unfolds an operation again. -/
theorem ipcImpl_effect (k : Kernel) (p : Proc) (op : Op) (slot msgPtr : BitVec 32) :
    IpcEffect k p slot msgPtr op (k.ipcImpl p op slot msgPtr) := by
  cases op with
  | send => exact k.doSendLike_effect p slot msgPtr (.inl rfl)
  | call => exact k.doSendLike_effect p slot msgPtr (.inr rfl)
  | recv => exact k.ipcRecvImpl_effect p slot msgPtr
  | reply => exact k.ipcReplyImpl_effect p slot msgPtr

/-! ## Operations that go well

The other direction: where the guards of a case hold, the operation takes that case. Concrete runs
use these. -/

section Fine

variable {k k₁ : Kernel} {p q : Proc} {slot msgPtr : BitVec 32} {e : ℕ} {msg : MsgRegs}

/-- A send or call with nobody to receive it is queued. -/
theorem doSendLike_of_push {op : Op} {reason : BlockReason}
    (hop : op = .send ∧ reason = .sendWait ∨ op = .call ∧ reason = .callWait)
    (he : k.resolveEndpoint p slot capRightWrite = .ok e) (hmsg : k.readMsg p msgPtr = .ok msg)
    (hpop : ((k.setMsgRegs p msg).pop .receivers e).1 = none)
    (hpush : ((k.setMsgRegs p msg).pop .receivers e).2.push .senders e p = some k₁) :
    k.doSendLike p slot msgPtr op = (none, k₁.blockAndYield p reason e msgPtr) := by
  rcases hop with ⟨rfl, rfl⟩ | ⟨rfl, rfl⟩ <;>
    simp only [doSendLike, he, hmsg, hpop, hpush, Option.isSome_none, resolve]

/-- A send with somebody to receive it is handed over. -/
theorem doSendLike_of_receiver (he : k.resolveEndpoint p slot capRightWrite = .ok e)
    (hmsg : k.readMsg p msgPtr = .ok msg)
    (hpop : (k.setMsgRegs p msg).pop .receivers e = (some q, k₁)) :
    k.doSendLike p slot msgPtr .send = (some 0, k₁.deliverAndWake q (some msg) 0) := by
  simp only [doSendLike, he, hmsg, hpop, Option.isSome_some, resolve]

end Fine

end Kernel

end Wari
