import Wari.Messages

/-!
# Traffic along a run

Every step of the system, with what is written down of it, is a step of the exchange,
or, where a receiver has no room, the loss of a message. So along a run messages are
delivered once, as they were sent and in order, and none is lost as long as every
receive that finds a sender has room.
-/

namespace Wari

open Lib (Machine Rendezvous Exchange Wait readAt writeAt)

/-- What was written is the message that is read. -/
theorem Kernel.readMsg_of_written {k : Kernel} {p : Proc} {msgPtr : BitVec 32} {inst : Tier1Slot}
    {memory memory' : List (BitVec 8)} {regs : MsgRegs} (hpool : k.tier1Pool p = some inst)
    (hmem : inst.memory = some memory')
    (hwrite : writeAt memory msgPtr.toNat (encodeMsg regs) = some memory') :
    k.readMsg p msgPtr = .ok regs := by
  have hread := Lib.readAt_writeAt hwrite
  rw [length_encodeMsg] at hread
  have hmemory : k.memoryOf p = some memory' := by
    rw [memoryOf, hpool]
    exact hmem
  simp only [readMsg, hmemory, hread, decodeMsg_encodeMsg]

/-- Whoever is in the table has message registers. -/
theorem Kernel.msgRegsAt_of_stateAt {k : Kernel} {p : Proc} {s : ProcessState}
    (h : k.stateAt p = some s) : ∃ regs, k.msgRegsAt p = some regs := by
  obtain ⟨proc, hproc, -⟩ := Option.map_eq_some_iff.mp h
  exact ⟨proc.msgRegs, by rw [msgRegsAt, hproc]; rfl⟩

namespace Traced

/-! ## Seats

What the log says of a process is about its seat, so a process whose seat stays keeps what the log
says. -/

theorem SameSeat.refl (k : Kernel) (q : Proc) : SameSeat k k q := ⟨rfl, rfl, rfl⟩

/-- A process left alone keeps its seat: state, registers and instance. -/
theorem SameSeat.of_processes {k k' : Kernel} {q : Proc} (hproc : k'.processes q = k.processes q)
    (hpool : k'.tier1Pool q = k.tier1Pool q) : SameSeat k k' q :=
  ⟨Kernel.stateAt_congr hproc, congrArg (Option.map Process.msgRegs) hproc, hpool⟩

variable {s : Traced} {p q : Proc} {k' : Kernel}

/-- Whoever is suspended is neither new nor waits for a record, so the end of a turn leaves
it alone. -/
theorem Suspends.moved {i : ℕ} (h : s.Suspends q i) (hseat : s.kernel.Seated)
    (hmoved : s.kernel.Moved k' q) : SameSeat s.kernel k' q := by
  obtain ⟨c, -, -, hprogress⟩ := h
  cases hmoved with
  | still hproc hpool => exact .of_processes hproc hpool
  | woken hring =>
    obtain ⟨epIdx, hevent⟩ := hseat.ring q hring
    rcases hprogress.ready_or_wait with hready | ⟨o, hwait⟩
    · cases hevent.symm.trans hready
    · cases (Kernel.wait_of_stateAt hevent).symm.trans hwait
  | spawned hfree =>
    have hnone : s.kernel.stateAt q = none := by
      rw [Kernel.stateAt, hfree]
      rfl
    rcases hprogress.ready_or_wait with hready | ⟨o, hwait⟩
    · cases hnone.symm.trans hready
    · obtain ⟨_, _, hblocked, -⟩ := Kernel.stateAt_of_wait hwait
      cases hnone.symm.trans hblocked

theorem SameSeat.of_local {k : Kernel} (h : k.Local k' p) (hq : q ≠ p) : SameSeat k k' q :=
  .of_processes (h.others q hq).1 (h.others q hq).2

theorem Settled.refl (k : Kernel) (p : Proc) : Settled k k p :=
  ⟨rfl, rfl, rfl, rfl, fun _ _ => rfl⟩

/-- What becomes of a host function's caller is its own matter. -/
theorem afterHostFn_settled {k : Kernel} {rc : Option ℤ} {slot : Tier1Slot}
    (hslot : k.tier1Pool p = some slot)
    (hself : rc.isSome = true ∧ k.stateAt p = some .running ∨
      rc = none ∧ ∃ reason epIdx, k.stateAt p = some (.blocked reason epIdx)) :
    Settled k (Kernel.afterHostFn p (rc, k)) p := by
  rcases hself with ⟨hrc, -⟩ | ⟨rfl, reason, epIdx, hblocked⟩
  · obtain ⟨rc, rfl⟩ := Option.isSome_iff_exists.mp hrc
    exact .refl k p
  · have hsettle : Kernel.afterHostFn p (none, k) = k.setInstance p { slot with parked := true } :=
      Kernel.settleBlocked_of_blocked hblocked hslot
    rw [hsettle]
    refine ⟨rfl, rfl, rfl, rfl, fun q hq => ?_⟩
    rw [Kernel.tier1Pool_setInstance, if_neg hq]

/-! ## IPC

Each case of an IPC operation with what the observer writes down of it. -/

section Ipc

variable {slot msgPtr : BitVec 32} {op : Op} {rc : Option ℤ} {k₁ : Kernel}

/-- The queues of an endpoint, told from the rendezvous. -/
theorem queue_of_rendezvous {k : Kernel} {r : Rendezvous Proc ℕ} (h : k.rendezvous = r) (e : ℕ) :
    k.queue .senders e = r.senders e ∧ k.queue .receivers e = r.receivers e := by
  subst h
  exact ⟨rfl, rfl⟩

/-- A reply, written down: the caller has the message. -/
theorem observeReply_replied {e : ℕ} (hp : s.kernel.stateAt p = some .running)
    (hw : s.kernel.rendezvous.wait q = some (.reply, e)) (msg : MsgRegs) :
    s.log.observeReply s.kernel p (some 0) (s.kernel.deliverAndWake q (some msg) 0) =
        s.log.answer (s.log.pending q) p q
          ((s.kernel.deliverAndWake q (some msg) 0).msgRegsAt q) ∧
      (s.kernel.deliverAndWake q (some msg) 0).msgRegsAt q = some msg := by
  have hpq := Kernel.ne_of_wait hp hw
  obtain ⟨reason, epIdx, hblocked, -⟩ := Kernel.stateAt_of_wait hw
  obtain ⟨regs, hregs⟩ := Kernel.msgRegsAt_of_stateAt hblocked
  refine ⟨Log.observeReply_one hpq.symm ?_ fun r hrq => by simp [hrq], by simp [hregs]⟩
  simp [hblocked, ProcessState.woken]

variable {e : ℕ} {que : BoundedQueue TcbRef 8} {msg : MsgRegs}

/-- A refusal, written down: the call is in the log, and has returned. -/
theorem Kept.ipc_refused (h : s.Kept) (hp : s.kernel.stateAt p = some .running) {rc : ℤ}
    (hrc : rc < 0) :
    s.Follows ⟨s.kernel, s.log.observeIpc s.kernel p op slot msgPtr (some rc) s.kernel⟩ := by
  have hne : rc ≠ 0 := Int.ne_of_lt hrc
  have hsome : some rc ≠ some 0 := fun h => hne (Option.some.inj h)
  cases op with
  | send =>
    rw [Log.observeIpc, Log.observeSend_same rfl]
    exact h.follows_refused hp hne rfl fun q _ => .refl _ q
  | call =>
    rw [Log.observeIpc, Log.observeSend_same rfl]
    exact h.follows_refused hp hne rfl fun q _ => .refl _ q
  | recv =>
    rw [Log.observeIpc, Log.observeRecv_of_ne hsome]
    exact h.follows_same rfl fun q _ _ => .refl _ q
  | reply =>
    rw [Log.observeIpc, Log.observeReply_of_ne hsome]
    exact h.follows_same rfl fun q _ _ => .refl _ q

/-- A full queue, written down: the caller's registers have the message, and nobody
else's. -/
theorem Kept.ipc_full (h : s.Kept) (hp : s.kernel.stateAt p = some .running)
    (hop : op = .send ∨ op = .call) (msg : MsgRegs) :
    s.Follows ⟨s.kernel.setMsgRegs p msg, s.log.observeIpc s.kernel p op slot msgPtr (some eAgain)
      (s.kernel.setMsgRegs p msg)⟩ := by
  have hqueue : (s.kernel.setMsgRegs p msg).queue = s.kernel.queue := rfl
  have hrend := s.kernel.rendezvous_setMsgRegs p msg
  have hsame : ∀ q, q ≠ p → SameSeat s.kernel (s.kernel.setMsgRegs p msg) q := fun q hq => by
    simp [SameSeat, hq]
  rcases hop with rfl | rfl
  · rw [Log.observeIpc, Log.observeSend_same hqueue]
    exact h.follows_refused hp (by decide) hrend hsame
  · rw [Log.observeIpc, Log.observeSend_same hqueue]
    exact h.follows_refused hp (by decide) hrend hsame

/-- A send to the first receiver, written down. -/
theorem Kept.ipc_sent (h : s.Kept) (hp : s.kernel.stateAt p = some .running)
    (he : s.kernel.resolveEndpoint p slot capRightWrite = .ok e)
    (hmsg : s.kernel.readMsg p msgPtr = .ok msg) (hq : s.kernel.Popped .receivers e q que)
    (hk : k' = ((s.kernel.setMsgRegs p msg).setQueue .receivers e que).deliverAndWake q
      (some msg) 0) :
    s.Follows ⟨k', s.log.observeIpc s.kernel p .send slot msgPtr (some 0) k'⟩ := by
  have hw := hq.receiving h.orderly.sound
  have hpq := Kernel.ne_of_wait hp hw
  obtain ⟨_, _, hblocked, -⟩ := Kernel.stateAt_of_wait hw
  obtain ⟨regs, hregs⟩ := Kernel.msgRegsAt_of_stateAt hblocked
  have hrend := Kernel.rendezvous_sent (p := p) msg hq
  rw [← hk] at hrend
  obtain ⟨hsenders, hreceivers⟩ := queue_of_rendezvous hrend e
  rw [Log.observeIpc, Log.observeSend_taken he hq.queue_eq (hreceivers.trans (by simp)) hsenders]
  refine h.follows_sent hp hmsg hq.queue_eq hrend ?_ fun r hrp hrq => ?_
  · simp [hk, hpq.symm, hregs]
  · simp [SameSeat, hk, hrp, hrq]

/-- A call to the first receiver, written down. -/
theorem Kept.ipc_called (h : s.Kept) (hp : s.kernel.stateAt p = some .running)
    (he : s.kernel.resolveEndpoint p slot capRightWrite = .ok e)
    (hmsg : s.kernel.readMsg p msgPtr = .ok msg) (hq : s.kernel.Popped .receivers e q que)
    (hsettled : Settled ((((s.kernel.setMsgRegs p msg).setQueue .receivers e que).deliverAndWake q
      (some msg) 0).blockAndYield p .replyWait e msgPtr) k' p) :
    s.Follows ⟨k', s.log.observeIpc s.kernel p .call slot msgPtr none k'⟩ := by
  have hw := hq.receiving h.orderly.sound
  have hpq := Kernel.ne_of_wait hp hw
  obtain ⟨_, _, hblocked, -⟩ := Kernel.stateAt_of_wait hw
  obtain ⟨regs, hregs⟩ := Kernel.msgRegsAt_of_stateAt hblocked
  have hrend := hsettled.rendezvous.trans (Kernel.rendezvous_called msg hq hp hpq)
  obtain ⟨hsenders, hreceivers⟩ := queue_of_rendezvous hrend e
  rw [Log.observeIpc, Log.observeSend_taken he hq.queue_eq (hreceivers.trans (by simp)) hsenders]
  refine h.follows_called hp hmsg hq.queue_eq hrend ?_ fun r hrp hrq => ?_
  · rw [hsettled.msgRegsAt]
    simp [hpq.symm, hregs]
  · exact hsettled.sameSeat hrp (by simp [SameSeat, hrp, hrq])

/-- A send or call that is queued, written down. -/
theorem Kept.ipc_queued (h : s.Kept) (hp : s.kernel.stateAt p = some .running)
    {reason : BlockReason}
    (hop : op = .send ∧ reason = .sendWait ∨ op = .call ∧ reason = .callWait)
    (he : s.kernel.resolveEndpoint p slot capRightWrite = .ok e)
    (hmsg : s.kernel.readMsg p msgPtr = .ok msg) (hempty : s.kernel.queue .receivers e = [])
    (hq : s.kernel.Pushed .senders e p que)
    (hsettled : Settled (((s.kernel.setMsgRegs p msg).setQueue .senders e que).blockAndYield p
      reason e msgPtr) k' p) :
    s.Follows ⟨k', s.log.observeIpc s.kernel p op slot msgPtr none k'⟩ := by
  obtain ⟨regs, hregs⟩ := Kernel.msgRegsAt_of_stateAt hp
  have hsame : ∀ r, r ≠ p → SameSeat s.kernel k' r := fun r hrp =>
    hsettled.sameSeat hrp (by simp [SameSeat, hrp])
  have hregs' : k'.msgRegsAt p = some msg := by
    rw [hsettled.msgRegsAt]
    simp [hregs]
  -- what the caller waits for goes with what it called
  obtain ⟨w, hw, hop'⟩ : ∃ w : Wait,
      (reason = .sendWait ∧ w = .send ∨ reason = .callWait ∧ w = .call) ∧
      (w = .send ∧ op = .send ∨ w = .call ∧ op = .call) := by
    rcases hop with ⟨rfl, rfl⟩ | ⟨rfl, rfl⟩
    · exact ⟨.send, .inl ⟨rfl, rfl⟩, .inl ⟨rfl, rfl⟩⟩
    · exact ⟨.call, .inr ⟨rfl, rfl⟩, .inr ⟨rfl, rfl⟩⟩
  have hrend := hsettled.rendezvous.trans (Kernel.rendezvous_queued msg hq hp hw)
  have hsenders : k'.queue .senders e = s.kernel.queue .senders e ++ [p] :=
    (queue_of_rendezvous hrend e).1.trans (by simp; rfl)
  have hlog : s.log.observeIpc s.kernel p op slot msgPtr none k' =
      s.log.observeSend s.kernel p op slot msgPtr none k' := by
    rcases hop with ⟨rfl, -⟩ | ⟨rfl, -⟩ <;> rfl
  rw [hlog, Log.observeSend_queued he hempty hsenders]
  exact h.follows_queued hp hmsg hop' hrend hregs' hsame

/-- A receive from a sender, written down: the sender is woken. -/
theorem Kept.ipc_received (h : s.Kept) (hp : s.kernel.stateAt p = some .running)
    {sender : Process} {inst : Tier1Slot} {memory memory' : List (BitVec 8)}
    (he : s.kernel.resolveEndpoint p slot capRightRead = .ok e)
    (hq : s.kernel.Popped .senders e q que) (hsender : s.kernel.processes q = some sender)
    (hcall : ∀ epIdx, sender.state ≠ .blocked .callWait epIdx)
    (hwrite : writeAt memory msgPtr.toNat (encodeMsg sender.msgRegs) = some memory')
    (hk : k' = ((s.kernel.setQueue .senders e que).setInstance p
      { inst with memory := some memory' }).deliverAndWake q none 0) :
    s.Follows ⟨k', s.log.observeIpc s.kernel p .recv slot msgPtr (some 0) k'⟩ := by
  obtain ⟨o, hw⟩ := h.orderly.sound.wait_of_mem_senders hq.mem_senders
  have hpq := Kernel.ne_of_wait hp hw
  obtain ⟨reason, epIdx, hblocked, -⟩ := Kernel.stateAt_of_wait hw
  obtain ⟨seat, hseat, hparked⟩ := h.seated.parked q reason epIdx hblocked
  have hrend := Kernel.rendezvous_received (p := p) { inst with memory := some memory' } hq
    hsender hcall
  rw [← hk] at hrend
  have hsenders := (queue_of_rendezvous hrend e).1
  have hregs : s.kernel.msgRegsAt q = some sender.msgRegs := by
    rw [Kernel.msgRegsAt, hsender]
    rfl
  have hpool : k'.tier1Pool p = some { inst with memory := some memory' } := by
    simp [hk, hpq]
  rw [Log.observeIpc, Log.observeRecv_taken he hq.queue_eq (hsenders.trans (by simp))]
  refine h.follows_received hp hq.queue_eq hregs (Kernel.readMsg_of_written hpool rfl hwrite) hrend
    (fun _ => ⟨?_, { seat with pendingResume := 0 }, ?_, hparked, rfl⟩) fun r hrp hrq => ?_
  · simp [hk, hblocked, ProcessState.woken]
  · simp [hk, hpq.symm, hseat]
  · simp [SameSeat, hk, hrp, hrq]

/-- A receive from a caller, written down: the caller goes on waiting, for the reply. -/
theorem Kept.ipc_receivedCall (h : s.Kept) (hp : s.kernel.stateAt p = some .running)
    {sender : Process} {inst : Tier1Slot} {memory memory' : List (BitVec 8)} {epIdx : BitVec 8}
    (he : s.kernel.resolveEndpoint p slot capRightRead = .ok e)
    (hq : s.kernel.Popped .senders e q que) (hsender : s.kernel.processes q = some sender)
    (hcall : sender.state = .blocked .callWait epIdx)
    (hwrite : writeAt memory msgPtr.toNat (encodeMsg sender.msgRegs) = some memory')
    (hk : k' = ((s.kernel.setQueue .senders e que).setInstance p
      { inst with memory := some memory' }).modifyProcess q fun proc =>
        proc.block .replyWait epIdx) :
    s.Follows ⟨k', s.log.observeIpc s.kernel p .recv slot msgPtr (some 0) k'⟩ := by
  obtain ⟨hw, hrend⟩ := Kernel.rendezvous_receivedCall (p := p)
    { inst with memory := some memory' } h.orderly.sound hq hsender hcall
  rw [← hk] at hrend
  have hsenders := (queue_of_rendezvous hrend e).1
  have hregs : s.kernel.msgRegsAt q = some sender.msgRegs := by
    rw [Kernel.msgRegsAt, hsender]
    rfl
  have hpool : k'.tier1Pool p = some { inst with memory := some memory' } := by
    simp [hk]
  rw [Log.observeIpc, Log.observeRecv_taken he hq.queue_eq (hsenders.trans (by simp))]
  refine h.follows_received hp hq.queue_eq hregs (Kernel.readMsg_of_written hpool rfl hwrite) hrend
    (fun hne => (hne hw).elim) fun r hrp hrq => ⟨?_, ?_, ?_⟩
  · rw [hk, Kernel.stateAt_modifyProcess (g := fun _ => .blocked .replyWait epIdx) _ _ _
      fun _ => rfl, if_neg hrq]
    rfl
  · rw [hk]
    refine (congrFun (Kernel.msgRegsAt_modifyProcess_eq _ q fun proc => ?_) r).trans rfl
    rfl
  · simp [hk, hrp]

/-- A receiver queued, written down: no call changes. -/
theorem Kept.ipc_awaited (h : s.Kept) (hp : s.kernel.stateAt p = some .running)
    (hq : s.kernel.Pushed .receivers e p que)
    (hsettled : Settled ((s.kernel.setQueue .receivers e que).blockAndYield p .recvWait e msgPtr)
      k' p) :
    s.Follows ⟨k', s.log.observeIpc s.kernel p .recv slot msgPtr none k'⟩ := by
  have hnone : (none : Option ℤ) ≠ some 0 := (Option.some_ne_none 0).symm
  rw [Log.observeIpc, Log.observeRecv_of_ne hnone]
  refine h.follows_awaited hp (hsettled.rendezvous.trans (Kernel.rendezvous_awaited hq hp))
    fun r hrp => ?_
  exact hsettled.sameSeat hrp (by simp [SameSeat, hrp])

/-- A reply, written down: the call of the process replied to is answered. -/
theorem Kept.ipc_replied (h : s.Kept) (hp : s.kernel.stateAt p = some .running) (msg : MsgRegs)
    (hq : s.kernel.replyWaiterOn e = some q) :
    s.Follows ⟨s.kernel.deliverAndWake q (some msg) 0,
      s.log.observeIpc s.kernel p .reply slot msgPtr (some 0)
        (s.kernel.deliverAndWake q (some msg) 0)⟩ := by
  have hw := (Kernel.replyWaiterOn_some hq).1
  obtain ⟨reason, epIdx, hblocked, -⟩ := Kernel.stateAt_of_wait hw
  obtain ⟨seat, hseat, hparked⟩ := h.seated.parked q reason epIdx hblocked
  obtain ⟨hlog, -⟩ := observeReply_replied hp hw msg
  rw [Log.observeIpc, hlog]
  have hslot : (s.kernel.deliverAndWake q (some msg) 0).tier1Pool q =
      some { seat with pendingResume := 0 } := by
    simp [hseat]
  refine h.follows_replied hp hw (Kernel.rendezvous_deliverAndWake _ _ _ _) ?_ hslot hparked rfl
    fun r hrp hrq => ?_
  · simp [hblocked, ProcessState.woken]
  · simp [SameSeat, hrq]

/-- **An IPC operation, written down**, is a step of the exchange, or the loss of a
message where there is no room for it. -/
theorem Kept.ipc (h : s.Kept) (hp : s.kernel.stateAt p = some .running)
    (heffect : Kernel.IpcEffect s.kernel p slot msgPtr op (rc, k₁)) (hsettled : Settled k₁ k' p)
    (hreturned : rc.isSome = true → k' = k₁) :
    (s.kernel.HasRoom p op slot msgPtr ∧
        s.Follows ⟨k', s.log.observeIpc s.kernel p op slot msgPtr rc k'⟩) ∨
      (¬ s.kernel.HasRoom p op slot msgPtr ∧
        s.Loses ⟨k', s.log.observeIpc s.kernel p op slot msgPtr rc k'⟩) := by
  have hs := h.orderly.sound
  cases heffect with
  | refused hrc hempty =>
    obtain rfl := hreturned rfl
    exact .inl ⟨fun hop e he hq => (hq (hempty hop e he)).elim, h.ipc_refused hp hrc⟩
  | full hop =>
    obtain rfl := hreturned rfl
    refine .inl ⟨fun hrecv => ?_, h.ipc_full hp hop _⟩
    rcases hop with rfl | rfl <;> cases hrecv
  | sent he hmsg hq =>
    exact .inl ⟨fun h => (by cases h), h.ipc_sent hp he hmsg hq (hreturned rfl)⟩
  | called he hmsg hq => exact .inl ⟨fun h => (by cases h), h.ipc_called hp he hmsg hq hsettled⟩
  | queued hop he hmsg hempty hq =>
    refine .inl ⟨fun hrecv => ?_, h.ipc_queued hp hop he hmsg hempty hq hsettled⟩
    rcases hop with ⟨rfl, -⟩ | ⟨rfl, -⟩ <;> cases hrecv
  | received he hq hsender hcall hinst hmem hwrite =>
    exact .inl ⟨fun _ _ _ _ => Kernel.writable_of_writeAt hinst hmem hwrite,
      h.ipc_received hp he hq hsender hcall hwrite (hreturned rfl)⟩
  | receivedCall he hq hsender hcall hinst hmem hwrite =>
    exact .inl ⟨fun _ _ _ _ => Kernel.writable_of_writeAt hinst hmem hwrite,
      h.ipc_receivedCall hp he hq hsender hcall hwrite (hreturned rfl)⟩
  | dropped hrc he hq hlost =>
    obtain rfl := hreturned rfl
    have hroom := Kernel.not_hasRoom hs he hq hlost
    rw [Log.observeIpc, Log.observeRecv_of_ne fun h => Int.ne_of_lt hrc (Option.some.inj h)]
    have hqueue := hq.queue_eq
    obtain ⟨ep, hep, -⟩ := hq
    -- the sender is off the queue, and its seat is as it was
    exact .inr ⟨hroom, h.loses_dropped hqueue (Kernel.rendezvous_setSenders _ _ _ hep)
      fun r => ⟨rfl, rfl, rfl⟩⟩
  | awaited he hempty hq =>
    refine .inl ⟨fun _ e' he' hne => ?_, h.ipc_awaited hp hq hsettled⟩
    rw [he] at he'
    cases he'
    exact (hne hempty).elim
  | replied he hmsg hq =>
    obtain rfl := hreturned rfl
    exact .inl ⟨fun h => (by cases h), h.ipc_replied hp _ hq⟩

end Ipc

/-! ## Every step

Dispatches, ends and reads of the stream write down nothing but a resumption. -/

/-- **A dispatch, written down**: whoever goes on from a send or call had it delivered. -/
theorem Kept.dispatch (h : s.Kept) (hp : s.kernel.stateAt p = some .ready)
    (image : Option (Option (List (BitVec 8)))) :
    s.Follows ⟨s.kernel.dispatch p image,
      s.log.observeDispatch p (s.kernel.dispatch p image)⟩ := by
  have hrend := (Kernel.dispatch_seated h.seated hp image).2
  have hwait : s.kernel.rendezvous.wait p = none := Kernel.wait_of_stateAt hp
  rcases hi : s.log.pending p with _ | i
  · simp only [Log.observeDispatch, hi]
    refine h.follows_same hrend fun q j hj => ?_
    have hqp : q ≠ p := by
      rintro rfl
      cases hi.symm.trans hj
    rcases Kernel.dispatch_effect hp image with hentered | ⟨hended, -⟩
    · exact .of_local hentered.seat hqp
    · exact (h.suspends q j hj).moved h.seated (hended.moved hqp)
  · obtain ⟨c, -, -, hprogress⟩ := h.suspends p i hi
    cases hprogress with
    | queued hqueued => cases hwait.symm.trans hqueued
    | awaiting hawaiting => cases hwait.symm.trans hawaiting
    | woken hstate hslot hparked hresume hdelivered =>
      rcases Kernel.dispatch_effect hp image with hentered | ⟨-, hnot⟩
      · obtain ⟨slot', hslot', -, hkept⟩ := hentered.live
        have hzero : slot'.pendingResume = 0 := (hkept _ hslot).2.trans hresume
        have hlog : s.log.observeDispatch p (s.kernel.dispatch p image) = s.log.resume p i 0 := by
          simp only [Log.observeDispatch, hi, hentered.state, hslot', hzero]
        rw [hlog]
        exact h.follows_resumed hp hi hdelivered hrend fun r hr => .of_local hentered.seat hr
      · cases (hnot _ hslot).symm.trans hparked

theorem Follows.kept {s' : Traced} (h : s.Kept) (hf : s.Follows s') (hseat : s'.kernel.Seated) :
    s'.Kept := by
  refine ⟨hseat, ?_, hf.suspends, hf.log⟩
  rcases hf.step with hsame | hstep
  · rw [hsame]
    exact h.orderly
  · exact hstep.orderly h.orderly

theorem Loses.kept {s' : Traced} (h : s.Kept) (hl : s.Loses s') (hseat : s'.kernel.Seated) :
    s'.Kept :=
  ⟨hseat, h.orderly.drop hl.drop, hl.suspends, hl.log⟩

/-- **Every step, written down**, keeps the log in step with the kernel, unless a message is lost
for want of room. -/
theorem Kept.turn {s' : Traced} {t : Turn} (h : s.Kept) (hstep : s.turn t = some s') :
    s'.Kept ∧
      (s.kernel.Roomy t ∧ s.Follows s' ∨ ¬ s.kernel.Roomy t ∧ s.Loses s') := by
  obtain ⟨k', hturn, rfl⟩ := Option.map_eq_some_iff.mp hstep
  have hseat : k'.Seated := (Kernel.turn_step h.orderly.sound h.seated hturn).1
  have hmain : s.kernel.Roomy t ∧ s.Follows ⟨k', s.log.observe s.kernel t k'⟩ ∨
      ¬ s.kernel.Roomy t ∧ s.Loses ⟨k', s.log.observe s.kernel t k'⟩ := by
    rcases Kernel.turn_cases hturn with ⟨p, image, rfl, hready, rfl⟩ |
      ⟨p, memory, slot, rfl, hrun, hslot, rfl⟩ | ⟨p, op, slot, msgPtr, rfl, hrun, rfl⟩ |
      ⟨p, lo, hi, ptr, rfl, hrun, rfl⟩ | ⟨p, ending, rfl, hrun, rfl⟩
    · exact .inl ⟨trivial, h.dispatch hready image⟩
    · refine .inl ⟨trivial, h.follows_same rfl fun q i hi => ?_⟩
      exact .of_local (s.kernel.local_setInstance p _) (h.ne_of_pending hrun hi)
    · have heffect := s.kernel.ipcImpl_effect p op slot msgPtr
      simp only [Log.observe]
      generalize s.kernel.ipcImpl p op slot msgPtr = out at heffect ⊢
      obtain ⟨rc, k₁⟩ := out
      obtain ⟨hmet, hself⟩ := heffect.met h.orderly.sound hrun
      obtain ⟨slot₀, hslot₀⟩ := h.seated.running p hrun
      obtain ⟨slot₁, hslot₁, -⟩ := hmet.pool p slot₀ hslot₀
      refine h.ipc hrun heffect (afterHostFn_settled hslot₁ hself) fun hrc => ?_
      obtain ⟨rc, rfl⟩ := Option.isSome_iff_exists.mp hrc
      rfl
    · refine .inl ⟨trivial, h.follows_same
        (Kernel.eventRead_seated h.seated hrun lo hi ptr).2 fun q i hq => ?_⟩
      have hqp := h.ne_of_pending hrun hq
      have hlisten := s.kernel.eventReadImpl_listened p lo hi ptr
      generalize s.kernel.eventReadImpl p lo hi ptr = out at hlisten ⊢
      obtain ⟨rc, k₁⟩ := out
      obtain ⟨slot₀, hslot₀⟩ := h.seated.running p hrun
      obtain ⟨slot₁, hslot₁, -⟩ := hlisten.pool p slot₀ hslot₀
      have hsettled : Settled k₁ (Kernel.afterHostFn p (rc, k₁)) p :=
        afterHostFn_settled hslot₁
          ((hlisten.caller hrun).imp_right fun ⟨hrc, hstate⟩ => ⟨hrc, _, _, hstate⟩)
      exact hsettled.sameSeat hqp
        (.of_processes (hlisten.others q hqp).1 (hlisten.others q hqp).2)
    · have hended := Kernel.finish_ended hrun ending
      refine .inl ⟨trivial, h.follows_same
        (hended.seated h.seated (Kernel.wait_of_stateAt hrun)).2 fun q i hi => ?_⟩
      exact (h.suspends q i hi).moved h.seated (hended.moved (h.ne_of_pending hrun hi))
  rcases hmain with ⟨hroom, hf⟩ | ⟨hroom, hl⟩
  · exact ⟨hf.kept h hseat, .inl ⟨hroom, hf⟩⟩
  · exact ⟨hl.kept h hseat, .inr ⟨hroom, hl⟩⟩

/-- Before anything happened, the log fits an idle kernel. -/
theorem kept_start (k : IdleKernel) : (start k).Kept ∧ (start k).exchange.InOrder := by
  have hwait := k.2.wait
  have hqueue := k.2.queue_nil
  refine ⟨⟨k.2.seated, ?_, fun _ _ hi => (by cases hi), ?_⟩, fun e => ?_⟩
  · refine
      { sound := (Kernel.coherent_iff.mp k.2.coherent).1
        pending_lt := fun _ _ hi => by cases hi
        pending_inj := fun _ _ _ hi => by cases hi
        receiving := fun _ _ _ => rfl
        sending := fun p e hp => ?_
        replying := fun p e hp => ?_
        queued_lt := fun _ _ hi => by cases hi
        queued_inj := fun _ _ _ hi => by cases hi
        queued_of_mem := fun _ _ _ _ hi => by cases hi
        delivered_lt := fun _ hi => by cases hi
        delivered_nodup := List.nodup_nil
        answered_delivered := fun _ hi => by cases hi
        answered_nodup := List.nodup_nil }
    · rcases hp with hp | hp <;> cases (hwait p).symm.trans hp
    · cases (hwait p).symm.trans hp
  · exact ⟨fun _ hd => (by cases hd), fun _ hr => (by cases hr), fun _ hr => (by cases hr),
      fun _ ha => (by cases ha)⟩
  · change [] = [] ++ (k.1.queue .senders e).filterMap _
    rw [hqueue]
    rfl

/-! ## Delivery

The promise, and the one step that breaks it outside of start sections. -/

/-- Messages are delivered at most once, as they were sent, and in order, and none is
lost. -/
structure Faithful (s : Traced) : Prop where
  /-- no message is delivered twice -/
  once : (s.log.deliveries.map Delivery.call).Nodup
  /-- what is delivered is what the sender's memory held when it called -/
  intact : ∀ d ∈ s.log.deliveries, ∃ i c msg, d.call = some i ∧ s.log.calls[i]? = some c ∧
    c.msg = some msg ∧ d.msg = some msg
  /-- the messages queued at an endpoint are those delivered, in the order they were
  queued, and then those of the senders still queued -/
  inOrder : ∀ e, s.log.queued e = s.log.delivered.filter (· ∈ s.log.queued e) ++
    (s.kernel.queue .senders e).filterMap s.log.pending
  /-- a send that returned did so with success exactly where its message was delivered -/
  success : ∀ r ∈ s.log.returns, ∀ c, s.log.calls[r.1]? = some c → c.op = .send →
    (r.2 = 0 ↔ r.1 ∈ s.log.delivered)
  /-- whoever is queued is there to hand its message over, or to take one -/
  attended : ∀ side e, ∀ p ∈ s.kernel.queue side e,
    ∃ reason epIdx, s.kernel.stateAt p = some (.blocked reason epIdx)

/-- Where every entry names a call, the calls named are those collected. -/
theorem map_eq_map_some {α : Type} {as : List α} {f : α → Option ℕ}
    (h : ∀ a ∈ as, ∃ i, f a = some i) : as.map f = (as.filterMap f).map some := by
  rw [List.map_filterMap_some_eq_filter_map_isSome, eq_comm, List.filter_eq_self]
  intro o ho
  obtain ⟨a, ha, rfl⟩ := List.mem_map.mp ho
  obtain ⟨i, hi⟩ := h a ha
  rw [hi]
  rfl

theorem Kept.faithful (h : s.Kept) (ho : s.exchange.InOrder) : s.Faithful where
  once := by
    rw [map_eq_map_some fun d hd => (h.log.intact d hd).imp fun _ ⟨_, _, hi, _⟩ => hi]
    exact h.orderly.delivered_nodup.map (Option.some_injective ℕ)
  intact := h.log.intact
  inOrder := ho
  success := h.log.success
  attended := fun _ _ _ hp => Kernel.blocked_of_mem_queue h.orderly.sound hp

/-- A send or call that is queued, written down. -/
theorem turn_queued {k : Kernel} {l : Log} {k₁ : Kernel} {op : Op} {slot msgPtr : BitVec 32} {e : ℕ}
    (hop : op = .send ∨ op = .call) (hturn : k.turn (.ipc p op slot msgPtr) = some k')
    (himpl : k.ipcImpl p op slot msgPtr = (none, k₁))
    (he : k.resolveEndpoint p slot capRightWrite = .ok e) (hempty : k.queue .receivers e = [])
    (hqueue : k'.queue .senders e = k.queue .senders e ++ [p]) :
    Traced.turn ⟨k, l⟩ (.ipc p op slot msgPtr) =
      some ⟨k', (l.call k p op msgPtr none).enqueue l.calls.length e⟩ := by
  rw [Traced.turn, hturn, Option.map_some, Log.observe, himpl]
  rcases hop with rfl | rfl <;> rw [Log.observeIpc, Log.observeSend_queued he hempty hqueue]

/-- **A turn with room is faithful**, and only one with room is: without room a sender falls off
the queue, and its message is lost. -/
theorem Kept.faithful_turn {s' : Traced} {t : Turn} (h : s.Kept) (ho : s.exchange.InOrder)
    (hstep : s.turn t = some s') :
    s'.Kept ∧ (s.kernel.Roomy t → s'.exchange.InOrder) ∧ (s'.Faithful → s.kernel.Roomy t) := by
  obtain ⟨h', hcase⟩ := h.turn hstep
  rcases hcase with ⟨hroom, hf⟩ | ⟨hnot, hl⟩
  · refine ⟨h', fun _ => ?_, fun _ => hroom⟩
    rcases hf.step with hsame | hstep
    · rw [hsame]
      exact ho
    · exact hstep.inOrder h.orderly ho
  · exact ⟨h', fun hroom => (hnot hroom).elim,
      fun hfaithful => (hl.drop.not_inOrder h.orderly ho hfaithful.inOrder).elim⟩

end Traced

/-! ## Start sections

In a start section the observer writes down what it would write down of any turn. Where
that turn suspends the tenant, the tenant is gone with it, and suspended in nothing.
-/

namespace Log

/-- `p` is gone, and is suspended in no call any more. What it sent stays in the log. -/
def forget (l : Log) (p : Proc) : Log :=
  { l with pending := Function.update l.pending p none }

/-- After a host function of a start section: a tenant it suspended is gone. -/
def afterStartFn (l : Log) (p : Proc) : Option ℤ → Log
  | some _ => l
  | none => l.forget p

/-- What is written down of a turn of a start section. -/
def observeStart (l : Log) (k : Kernel) : Turn → Log
  | .ipc p op slot msgPtr =>
    let out := k.ipcImpl p op slot msgPtr
    (l.observeIpc k p op slot msgPtr out.1 out.2).afterStartFn p out.1
  | .eventRead p cursorLo cursorHi outPtr =>
    l.afterStartFn p (k.eventReadImpl p cursorLo cursorHi outPtr).1
  | _ => l

theorem Kept.forget {l : Log} (h : l.Kept) (p : Proc) : (l.forget p).Kept := by
  refine ⟨h.intact, fun r hr => ⟨(h.returned r hr).1, fun q hq => ?_⟩, h.success, h.answered⟩
  change Function.update l.pending p none q = some r.1 at hq
  rw [Function.update_apply] at hq
  split at hq
  · cases hq
  · exact (h.returned r hr).2 q hq

/-- To park the caller of an operation that suspended it is nothing to write down. -/
theorem observeIpc_setInstance (l : Log) (k k₀ : Kernel) (p : Proc) (op : Op)
    (slot msgPtr : BitVec 32) (inst : Tier1Slot) :
    l.observeIpc k p op slot msgPtr none (k₀.setInstance p inst) =
      l.observeIpc k p op slot msgPtr none k₀ := by
  have hnone : (none : Option ℤ) ≠ some 0 := (Option.some_ne_none 0).symm
  cases op with
  | send | call => rfl
  | recv => rw [observeIpc, observeIpc, observeRecv_of_ne hnone, observeRecv_of_ne hnone]
  | reply => rw [observeIpc, observeIpc, observeReply_of_ne hnone, observeReply_of_ne hnone]

theorem observeStart_suspended {k k₁ : Kernel} {t : Turn} {p : Proc} (h : k.Suspended t p k₁)
    (l : Log) : l.observeStart k t = (l.observe k t k₁).forget p := by
  rcases h.call with ⟨op, slot, msgPtr, k₀, inst, rfl, himpl, rfl⟩ | ⟨lo, hi, ptr, rfl, hrc⟩
  · rw [observeStart, observe, himpl, observeIpc_setInstance]
    rfl
  · rw [observeStart, observe, hrc]
    rfl

end Log

/-- A system whose modules may have start sections, with its log. -/
structure TracedLoading where
  /-- the kernel and its log -/
  traced : Traced
  /-- whose start section runs, if any -/
  starting : Option Proc

namespace TracedLoading

/-- An idle kernel, with nothing being loaded, before anything happened. -/
def start (k : IdleKernel) : TracedLoading := ⟨.start k, none⟩

/-- The system without its log, which is what the steps are taken on. -/
def loading (s : TracedLoading) : Loading := ⟨s.traced.kernel, s.starting⟩

/-- What is written down of one step, by whether a module is being loaded. -/
def observe (s : TracedLoading) (i : LoadStep) (k' : Kernel) : Log :=
  match i with
  | .turn t =>
    match s.starting with
    | none => s.traced.log.observe s.traced.kernel t k'
    | some _ => s.traced.log.observeStart s.traced.kernel t
  | .instantiate _ _ => s.traced.log
  | .started _ => s.traced.log

/-- One step, with what happened in it written down. -/
def step (s : TracedLoading) (i : LoadStep) : Option TracedLoading :=
  (s.loading.step i).map fun l => ⟨⟨l.kernel, s.observe i l.kernel⟩, l.starting⟩

end TracedLoading

/-- The system with start sections and its log. -/
def tracedLoadMachine : Machine TracedLoading LoadStep where
  init s := s.loading.kernel.Idle ∧ s.traced.log = .empty ∧ s.starting = none
  step := TracedLoading.step

/-- The log follows the system and does not steer it. -/
theorem tracedLoadMachine_records :
    tracedLoadMachine.Records loadMachine TracedLoading.loading := by
  intro s i
  change ((s.loading.step i).map _).map TracedLoading.loading = s.loading.step i
  rw [Option.map_map]
  exact congrFun Option.map_id _

namespace Traced

variable {s : Traced} {p : Proc}

/-- **Whoever is in no queue may leave**: the log still fits, and in order. -/
theorem Kept.leave (h : s.Kept) {st : ProcessState} (hp : s.kernel.stateAt p = some st)
    (hwait : s.kernel.rendezvous.wait p = none ∨
      ∃ e, s.kernel.rendezvous.wait p = some (.reply, e)) :
    Traced.Kept ⟨s.kernel.finish p .faulted, s.log.forget p⟩ ∧
      (s.exchange.InOrder →
        (Traced.exchange ⟨s.kernel.finish p .faulted, s.log.forget p⟩).InOrder) := by
  have hended := Kernel.finish_ended hp .faulted
  obtain ⟨hseat, hrend⟩ := hended.left h.seated
  have hexchange : Traced.exchange ⟨s.kernel.finish p .faulted, s.log.forget p⟩ =
      s.exchange.leave p := exchange_eq hrend rfl rfl rfl rfl rfl
  refine ⟨⟨hseat, ?_, fun q i hi => ?_, h.log.forget p⟩, fun ho => ?_⟩
  · rw [hexchange]
    exact h.orderly.leave hwait
  · change Function.update s.log.pending p none q = some i at hi
    rw [Function.update_apply] at hi
    split at hi
    · cases hi
    · rename_i hqp
      have hsuspends := h.suspends q i hi
      exact hsuspends.same (hsuspends.moved h.seated (hended.moved hqp)) (fun _ _ hj => hj)
        fun _ hj => hj
  · rw [hexchange]
    exact h.orderly.inOrder_leave ho hwait

/-- **A turn of a start section is faithful** exactly where it has room and queues nobody. -/
theorem Kept.faithful_start {k' : Kernel} {t : Turn} (h : s.Kept) (ho : s.exchange.InOrder)
    (hstep : s.kernel.startTurn t = some k') :
    (s.kernel.Roomy t ∧ s.kernel.Unqueued t →
        Traced.Kept ⟨k', s.log.observeStart s.kernel t⟩ ∧
          (Traced.exchange ⟨k', s.log.observeStart s.kernel t⟩).InOrder) ∧
      (Traced.Faithful ⟨k', s.log.observeStart s.kernel t⟩ →
        s.kernel.Roomy t ∧ s.kernel.Unqueued t) := by
  have hturn : ∀ {t k₁}, s.kernel.turn t = some k₁ →
      s.turn t = some ⟨k₁, s.log.observe s.kernel t k₁⟩ := fun h => congrArg (Option.map _) h
  rcases Kernel.startTurn_cases h.orderly.sound h.seated hstep with
    ⟨hreturned, hunqueued, hipc, hread⟩ | ⟨p, ending, rfl, hended⟩ | ⟨p, k₁, hsuspended, rfl⟩
  · have hlog : s.log.observeStart s.kernel t = s.log.observe s.kernel t k' := by
      cases t with
      | ipc p op slot msgPtr =>
        obtain ⟨rc, himpl⟩ := hipc p op slot msgPtr rfl
        rw [Log.observeStart, Log.observe, himpl]
        rfl
      | eventRead p lo hi ptr =>
        obtain ⟨rc, hrc⟩ := hread p lo hi ptr rfl
        rw [Log.observeStart, Log.observe, hrc]
        rfl
      | dispatch p image => cases hstep
      | compute | finish => rfl
    obtain ⟨h', hin, hroom⟩ := h.faithful_turn ho (hturn hreturned)
    rw [hlog]
    exact ⟨fun hq => ⟨h', hin hq.1⟩, fun hf => ⟨hroom hf, hunqueued⟩⟩
  · obtain ⟨h', hin, -⟩ := h.faithful_turn ho (hturn hended)
    exact ⟨fun _ => ⟨h', hin trivial⟩, fun _ => ⟨trivial, trivial⟩⟩
  · obtain ⟨h₁, hin, -⟩ := h.faithful_turn ho (hturn hsuspended.turn)
    rw [Log.observeStart_suspended hsuspended]
    rcases hsuspended.stranded with ⟨hunqueued, hwait⟩ | ⟨hqueued, side, e, hmem⟩
    · obtain ⟨reason, epIdx, hblocked⟩ := hsuspended.blocked
      obtain ⟨h', hin'⟩ := h₁.leave hblocked hwait
      exact ⟨fun _ => ⟨h', hin' (hin hsuspended.roomy)⟩,
        fun _ => ⟨hsuspended.roomy, hunqueued⟩⟩
    · -- the tenant is faulted and in a queue
      obtain ⟨-, -, hqueue, hstate⟩ := hsuspended.finish h₁.seated
      refine ⟨fun hq => (hqueued hq.2).elim, fun hf => ?_⟩
      obtain ⟨reason, epIdx, hblocked⟩ := hf.attended side e p (hqueue ▸ hmem)
      cases hstate.symm.trans hblocked

/-- Whoever has no instance is suspended in nothing, so that instantiating its module leaves
the log as it was. -/
theorem Kept.instantiate (h : s.Kept) (hp : s.kernel.stateAt p = some .ready)
    (hpool : s.kernel.tier1Pool p = none) (memory : Option (List (BitVec 8))) :
    s.Follows ⟨s.kernel.instantiate p memory, s.log⟩ := by
  obtain ⟨-, hrend, hlocal⟩ := Kernel.instantiate_seated h.seated hp memory
  refine h.follows_same hrend fun q i hi => .of_local hlocal ?_
  rintro rfl
  obtain ⟨c, -, -, hprogress⟩ := h.suspends q i hi
  cases hprogress with
  | queued hwait | awaiting hwait => cases (Kernel.wait_of_stateAt hp).symm.trans hwait
  | woken hstate hslot => cases hpool.symm.trans hslot

end Traced

namespace TracedLoading

/-- **Every step**, written down: a harmless one keeps all in order, and a faithful one is
harmless. -/
theorem faithful_step {s s' : TracedLoading} {i : LoadStep} (h : s.traced.Kept)
    (ho : s.traced.exchange.InOrder) (hstep : s.step i = some s') :
    (s.loading.Harmless i → s'.traced.Kept ∧ s'.traced.exchange.InOrder) ∧
      (s'.traced.Faithful → s.loading.Harmless i) := by
  obtain ⟨traced, starting⟩ := s
  obtain ⟨l, hl, rfl⟩ := Option.map_eq_some_iff.mp hstep
  cases i with
  | turn t =>
    rcases starting with _ | q
    · obtain ⟨k', hturn, rfl⟩ := Option.map_eq_some_iff.mp hl
      obtain ⟨h', hin, hroom⟩ := h.faithful_turn ho (congrArg (Option.map _) hturn)
      exact ⟨fun hq => ⟨h', hin hq.1⟩, fun hf => ⟨hroom hf, fun hne => (hne rfl).elim⟩⟩
    · obtain ⟨k', hturn, rfl⟩ := Option.map_eq_some_iff.mp hl
      obtain ⟨hgood, hbad⟩ := h.faithful_start ho hturn
      exact ⟨fun hq => hgood ⟨hq.1, hq.2 (Option.some_ne_none q)⟩,
        fun hf => ⟨(hbad hf).1, fun _ => (hbad hf).2⟩⟩
  | instantiate p memory =>
    obtain ⟨hready, hpool, rfl⟩ := Loading.step_instantiate hl
    obtain ⟨hseat, hrend, -⟩ := Kernel.instantiate_seated h.seated hready memory
    have hf := h.instantiate hready hpool memory
    refine ⟨fun _ => ⟨hf.kept h hseat, ?_⟩, fun _ => trivial⟩
    change (Traced.exchange ⟨traced.kernel.instantiate p memory, traced.log⟩).InOrder
    rw [Traced.exchange_eq hrend rfl rfl rfl rfl rfl]
    exact ho
  | started p =>
    obtain rfl := Loading.step_started hl
    exact ⟨fun _ => ⟨h, ho⟩, fun _ => trivial⟩

/-- Outside of start sections the steps are turns, written down. -/
theorem step_turn {s s' : Traced} {t : Turn} (h : s.turn t = some s') :
    tracedLoadMachine.step ⟨s, none⟩ (.turn t) = some ⟨s', none⟩ := by
  obtain ⟨k', hturn, rfl⟩ := Option.map_eq_some_iff.mp h
  have hstep : Loading.step ⟨s.kernel, none⟩ (.turn t) = some ⟨k', none⟩ := loadMachine_turn hturn
  exact congrArg (Option.map _) hstep

end TracedLoading

/-- **Messages are delivered faithfully along a run** exactly where every receive that
finds a sender has room for its message, and no start section queues. -/
theorem faithful_along_iff (k : IdleKernel) (is : List LoadStep) :
    tracedLoadMachine.Along (fun s _ s' => s.traced.Faithful ∧ s'.traced.Faithful) (.start k) is ↔
      tracedLoadMachine.Meets (fun s i => s.loading.Harmless i) (.start k) is := by
  refine Machine.along_iff_meets (I := fun s => s.traced.Kept ∧ s.traced.exchange.InOrder) ?_ ?_ is
    _ (Traced.kept_start k)
  · rintro s i s' ⟨h, ho⟩ hstep hsafe
    obtain ⟨h', ho'⟩ := (TracedLoading.faithful_step h ho hstep).1 hsafe
    exact ⟨⟨h.faithful ho, h'.faithful ho'⟩, h', ho'⟩
  · rintro s i s' ⟨h, ho⟩ hstep ⟨-, hfaithful⟩
    exact (TracedLoading.faithful_step h ho hstep).2 hfaithful

/-- The message of process 2 is queued at endpoint 2. -/
theorem turn_senderRuns : Traced.turn ⟨Kernel.senderRuns, .empty⟩ (.ipc 2 .send 3#32 0#32) =
    some ⟨Kernel.senderWaits, (Log.empty.call Kernel.senderRuns 2 .send 0#32 none).enqueue 0 2⟩ :=
  Traced.turn_queued (.inl rfl) Kernel.turn_senderRuns Kernel.ipcImpl_senderRuns rfl rfl rfl

/-- **A message is lost**: that of process 2 is neither delivered nor queued. -/
theorem lost_message :
    ¬ tracedLoadMachine.Along (fun s _ s' => s.traced.Faithful ∧ s'.traced.Faithful)
      (.start ⟨Kernel.booted .qemu, Kernel.booted_idle .qemu⟩) lostSender := by
  intro h
  have hfirst : tracedLoadMachine.step (.start ⟨Kernel.booted .qemu, Kernel.booted_idle .qemu⟩)
      (.turn (.dispatch 2 (some (some page)))) = some ⟨⟨Kernel.senderRuns, .empty⟩, none⟩ :=
    TracedLoading.step_turn rfl
  have h₁ := ((Machine.along_cons hfirst).mp h).2
  have h₂ := ((Machine.along_cons (TracedLoading.step_turn turn_senderRuns)).mp h₁).2
  have h₃ := ((Machine.along_cons (TracedLoading.step_turn rfl)).mp h₂).2
  obtain ⟨-, hfaithful⟩ := ((Machine.along_cons (TracedLoading.step_turn rfl)).mp h₃).1
  exact absurd (hfaithful.inOrder 2) (by decide)

end Wari
