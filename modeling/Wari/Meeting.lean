import Wari.Turns

/-!
# Every step is a step of the rendezvous

What an IPC operation does to the queues and the process table is a step of the
rendezvous, or nothing, or, where a receiver's buffer has no room, the loss of the
first sender. Nothing else the system does touches it. Beside it run the seats: a
process that runs or is blocked has an instance, and a blocked one's invocation is
parked.
-/

namespace Wari

open Lib (Wait Rendezvous)

/-- The first index a search from the bottom finds. -/
theorem find?_finRange {n : ℕ} {f : Fin n → Bool} {i : Fin n}
    (h : (List.finRange n).find? f = some i) : f i = true ∧ ∀ j < i, f j = false := by
  obtain ⟨hi, a, ha, hget, hbelow⟩ := List.find?_eq_some_iff_getElem.mp h
  refine ⟨hi, fun j hj => ?_⟩
  have hai : a = i.val := by
    rw [← hget]
    simp
  have hja := hbelow j.val (by rw [hai]; exact hj)
  simpa using hja

/-- Whoever waits at an endpoint is blocked, for the reason that it waits for. -/
theorem ProcessState.blocked_of_wait {s : ProcessState} {o : Wait × ℕ} (h : s.wait = some o) :
    ∃ reason epIdx, s = .blocked reason epIdx := by
  cases s with
  | blocked reason epIdx => exact ⟨reason, epIdx, rfl⟩
  | _ => cases h

namespace Kernel

/-- Whoever waits is in the table, and blocked. -/
theorem stateAt_of_wait {k : Kernel} {p : Proc} {o : Wait × ℕ}
    (h : k.rendezvous.wait p = some o) :
    ∃ reason epIdx, k.stateAt p = some (.blocked reason epIdx) ∧
      (ProcessState.blocked reason epIdx).wait = some o := by
  obtain ⟨s, hs, hwait⟩ := Option.bind_eq_some_iff.mp h
  obtain ⟨reason, epIdx, rfl⟩ := s.blocked_of_wait hwait
  exact ⟨reason, epIdx, hs, hwait⟩

theorem wait_of_stateAt {k : Kernel} {p : Proc} {s : ProcessState} (h : k.stateAt p = some s) :
    k.rendezvous.wait p = s.wait := by
  change (k.stateAt p).bind ProcessState.wait = s.wait
  rw [h]
  rfl

/-- Waiting for a reply, told by the reason and the endpoint in the state. -/
theorem wait_eq_reply {s : ProcessState} {e : ℕ} :
    s.wait = some (.reply, e) ↔ ∃ epIdx, s = .blocked .replyWait epIdx ∧ epIdx.toNat = e := by
  cases s with
  | blocked reason epIdx => cases reason <;> simp [ProcessState.wait]
  | _ => simp [ProcessState.wait]

/-- **Who is replied to**: the lowest process that awaits a reply on the
endpoint. -/
theorem replyWaiterOn_some {k : Kernel} {e : ℕ} {q : Proc} (h : k.replyWaiterOn e = some q) :
    k.rendezvous.wait q = some (.reply, e) ∧
      ∀ r < q, k.rendezvous.wait r ≠ some (.reply, e) := by
  obtain ⟨hq, hbelow⟩ := find?_finRange h
  refine ⟨?_, fun r hr hwait => ?_⟩
  · split at hq
    · rename_i epIdx hs
      rw [wait_of_stateAt hs]
      exact wait_eq_reply.mpr ⟨epIdx, rfl, beq_iff_eq.mp hq⟩
    · cases hq
  · have hnot := hbelow r hr
    obtain ⟨reason, epIdx, hblocked, hw⟩ := stateAt_of_wait hwait
    obtain ⟨epIdx', hs, he⟩ := wait_eq_reply.mp hw
    simp [hblocked, hs, he] at hnot

/-! ## IPC

Each case of an IPC operation, as a step of the rendezvous: a message handed over, a party queued,
or one taken off a queue. -/

/-- The caller of an IPC operation has room for the message it receives, if there is one. Without
room a sender has already been taken off its queue when the write fails. -/
def HasRoom (k : Kernel) (p : Proc) (op : Op) (slot msgPtr : BitVec 32) : Prop :=
  op = .recv → ∀ e, k.resolveEndpoint p slot capRightRead = .ok e → k.queue .senders e ≠ [] →
    k.Writable p msgPtr

section Ipc

variable {k k' : Kernel} {p : Proc} {slot msgPtr : BitVec 32} {op : Op} {rc : Option ℤ}

/-- Where a message was written into an instance's memory there is room for it. -/
theorem writable_of_writeAt {inst : Tier1Slot} {memory memory' : List (BitVec 8)}
    {regs : MsgRegs} (hinst : k.tier1Pool p = some inst) (hmem : inst.memory = some memory)
    (hwrite : Lib.writeAt memory msgPtr.toNat (encodeMsg regs) = some memory') :
    k.Writable p msgPtr := by
  refine ⟨memory, by rw [memoryOf, hinst]; exact hmem, ?_⟩
  have hsome : (Lib.writeAt memory msgPtr.toNat (encodeMsg regs)).isSome = true := by
    rw [hwrite]
    rfl
  have hroom := Lib.writeAt_isSome.mp hsome
  rwa [length_encodeMsg] at hroom

/-- The first in a queue of receivers waits there to receive. -/
theorem Popped.receiving {e : ℕ} {q : Proc} {que : BoundedQueue TcbRef 8}
    (h : k.Popped .receivers e q que) (hs : k.rendezvous.Sound) :
    k.rendezvous.wait q = some (.recv, e) := by
  refine (hs.receiving e q).mp ?_
  rw [show k.rendezvous.receivers e = _ from h.queue_eq]
  exact List.mem_cons_self

theorem Popped.mem_senders {e : ℕ} {q : Proc} {que : BoundedQueue TcbRef 8}
    (h : k.Popped .senders e q que) : q ∈ k.rendezvous.senders e := by
  rw [show k.rendezvous.senders e = _ from h.queue_eq]
  exact List.mem_cons_self

/-- Whoever waits does not run, so that it is another than whoever does. -/
theorem ne_of_wait {q : Proc} {o : Wait × ℕ} (hp : k.stateAt p = some .running)
    (hq : k.rendezvous.wait q = some o) : p ≠ q := by
  rintro rfl
  rw [wait_of_stateAt hp] at hq
  cases hq

/-- A message handed to the first receiver, as a step of the rendezvous. -/
theorem rendezvous_sent {e : ℕ} {q : Proc} {que : BoundedQueue TcbRef 8} (msg : MsgRegs)
    (h : k.Popped .receivers e q que) :
    (((k.setMsgRegs p msg).setQueue .receivers e que).deliverAndWake q (some msg) 0).rendezvous =
      (k.rendezvous.setReceivers e que.toList).setWait q none := by
  obtain ⟨ep, hep, -⟩ := h
  rw [rendezvous_deliverAndWake, (k.setMsgRegs p msg).rendezvous_setReceivers e que hep,
    rendezvous_setMsgRegs]

/-- A message handed to the first receiver by a caller, which awaits the reply. -/
theorem rendezvous_called {e : ℕ} {q : Proc} {que : BoundedQueue TcbRef 8} (msg : MsgRegs)
    (h : k.Popped .receivers e q que) (hp : k.stateAt p = some .running) (hpq : p ≠ q) :
    ((((k.setMsgRegs p msg).setQueue .receivers e que).deliverAndWake q (some msg)
        0).blockAndYield p .replyWait e msgPtr).rendezvous =
      ((k.rendezvous.setReceivers e que.toList).setWait q none).setWait p (some (.reply, e)) := by
  rw [rendezvous_blockAndYield (s := .running) _ _ _ _ _ (by simp [hpq, hp]),
    rendezvous_sent msg h]
  obtain ⟨ep, hep, -⟩ := h
  rw [ProcessState.wait, endpoint?_lt hep]

/-- A sender or caller queued, as a step of the rendezvous. -/
theorem rendezvous_queued {e : ℕ} {que : BoundedQueue TcbRef 8} {reason : BlockReason} {w : Wait}
    (msg : MsgRegs) (h : k.Pushed .senders e p que) (hp : k.stateAt p = some .running)
    (hw : reason = .sendWait ∧ w = .send ∨ reason = .callWait ∧ w = .call) :
    (((k.setMsgRegs p msg).setQueue .senders e que).blockAndYield p reason e msgPtr).rendezvous =
      (k.rendezvous.setSenders e (k.rendezvous.senders e ++ [p])).setWait p (some (w, e)) := by
  have htail : que.toList = k.rendezvous.senders e ++ [p] := h.toList_eq
  obtain ⟨ep, hep, -⟩ := h
  rw [rendezvous_blockAndYield (s := .running) _ _ _ _ _ (by simp [hp]),
    (k.setMsgRegs p msg).rendezvous_setSenders e que hep, rendezvous_setMsgRegs, htail]
  rcases hw with ⟨rfl, rfl⟩ | ⟨rfl, rfl⟩ <;> rw [ProcessState.wait, endpoint?_lt hep]

/-- A receiver queued, as a step of the rendezvous. -/
theorem rendezvous_awaited {e : ℕ} {que : BoundedQueue TcbRef 8}
    (h : k.Pushed .receivers e p que) (hp : k.stateAt p = some .running) :
    ((k.setQueue .receivers e que).blockAndYield p .recvWait e msgPtr).rendezvous =
      (k.rendezvous.setReceivers e (k.rendezvous.receivers e ++ [p])).setWait p
        (some (.recv, e)) := by
  have htail : que.toList = k.rendezvous.receivers e ++ [p] := h.toList_eq
  obtain ⟨ep, hep, -⟩ := h
  rw [rendezvous_blockAndYield (s := .running) _ _ _ _ _ (by simp [hp]),
    rendezvous_setReceivers _ _ _ hep, htail, ProcessState.wait, endpoint?_lt hep]

/-- The first sender received from, and on its way. -/
theorem rendezvous_received {e : ℕ} {q : Proc} {que : BoundedQueue TcbRef 8} {sender : Process}
    (inst : Tier1Slot) (h : k.Popped .senders e q que) (hsender : k.processes q = some sender)
    (hwait : ∀ epIdx, sender.state ≠ .blocked .callWait epIdx) :
    (((k.setQueue .senders e que).setInstance p inst).deliverAndWake q none 0).rendezvous =
      (k.rendezvous.setSenders e que.toList).setWait q
        (if k.rendezvous.wait q = some (.call, e) then some (.reply, e) else none) := by
  have hnot : k.rendezvous.wait q ≠ some (.call, e) := by
    intro hcall
    obtain ⟨reason, epIdx, hstate, hw⟩ := stateAt_of_wait hcall
    rw [stateAt, hsender] at hstate
    have hsome := Option.some.inj hstate
    cases reason <;> cases hw
    exact hwait epIdx hsome
  obtain ⟨ep, hep, -⟩ := h
  rw [rendezvous_deliverAndWake, rendezvous_setInstance, rendezvous_setSenders _ _ _ hep,
    if_neg hnot]

/-- The first caller received from, and awaiting the reply. -/
theorem rendezvous_receivedCall {e : ℕ} {q : Proc} {que : BoundedQueue TcbRef 8} {sender : Process}
    {epIdx : BitVec 8} (inst : Tier1Slot) (hs : k.rendezvous.Sound)
    (h : k.Popped .senders e q que) (hsender : k.processes q = some sender)
    (hwait : sender.state = .blocked .callWait epIdx) :
    k.rendezvous.wait q = some (.call, e) ∧
      (((k.setQueue .senders e que).setInstance p inst).modifyProcess q fun proc =>
          proc.block .replyWait epIdx).rendezvous =
        (k.rendezvous.setSenders e que.toList).setWait q
          (if k.rendezvous.wait q = some (.call, e) then some (.reply, e) else none) := by
  have hstate : k.stateAt q = some (.blocked .callWait epIdx) := by
    rw [stateAt, hsender, ← hwait]
    rfl
  have hcall : k.rendezvous.wait q = some (.call, e) := by
    rcases hs.sending e q h.mem_senders with hw | hw
    · rw [wait_of_stateAt hstate] at hw
      cases hw
    · exact hw
  refine ⟨hcall, ?_⟩
  obtain ⟨ep, hep, -⟩ := h
  rw [rendezvous_modifyProcess (g := fun _ => .blocked .replyWait epIdx) _ _ fun _ => rfl,
    rendezvous_setInstance, rendezvous_setSenders _ _ _ hep, stateAt_setInstance,
    stateAt_setQueue, hstate, if_pos hcall]
  rw [wait_of_stateAt hstate] at hcall
  cases hcall
  rfl

/-- A dropped sender had no room made for it. -/
theorem not_hasRoom {e : ℕ} {q : Proc} {que : BoundedQueue TcbRef 8} (hs : k.rendezvous.Sound)
    (he : k.resolveEndpoint p slot capRightRead = .ok e) (h : k.Popped .senders e q que)
    (hlost : k.processes q = none ∨ ¬ k.Writable p msgPtr) : ¬ k.HasRoom p .recv slot msgPtr := by
  intro hroom
  rcases hlost with hnone | hfull
  · have hstate : k.stateAt q = none := by
      rw [stateAt, hnone]
      rfl
    rcases hs.sending e q h.mem_senders with hw | hw <;>
      obtain ⟨_, _, hblocked, -⟩ := stateAt_of_wait hw <;> rw [hstate] at hblocked <;>
      cases hblocked
  · exact hfull (hroom rfl e he (by rw [h.queue_eq]; exact List.cons_ne_nil _ _))

/-- **An IPC operation is a step of the rendezvous**, or changes nothing, or, without
room for the message, loses its sender. -/
theorem IpcEffect.step (h : IpcEffect k p slot msgPtr op (rc, k')) (hs : k.rendezvous.Sound)
    (hp : k.stateAt p = some .running) :
    (k.HasRoom p op slot msgPtr ∧
        (k'.rendezvous = k.rendezvous ∨ k.rendezvous.Step k'.rendezvous)) ∨
      (¬ k.HasRoom p op slot msgPtr ∧ k.rendezvous.Drop k'.rendezvous) := by
  have hwait : k.rendezvous.wait p = none := wait_of_stateAt hp
  have hsend : ∀ {op}, op ≠ .recv → k.HasRoom p op slot msgPtr := fun hop h => (hop h).elim
  cases h with
  | refused hrc hempty =>
    exact .inl ⟨fun hop e he hne => (hne (hempty hop e he)).elim, .inl rfl⟩
  | full hop =>
    refine .inl ⟨hsend ?_, .inl (k.rendezvous_setMsgRegs p _)⟩
    rcases hop with rfl | rfl <;> exact nofun
  | @sent e q que msg he hmsg hq =>
    refine .inl ⟨hsend nofun, .inr ?_⟩
    have hstep : k.rendezvous.Step _ := .hand hq.queue_eq hwait (.inl rfl)
    rw [rendezvous_sent msg hq]
    rwa [Rendezvous.setWait_eq_self (by simp [hwait])] at hstep
  | @called e q que msg he hmsg hq =>
    refine .inl ⟨hsend nofun, .inr ?_⟩
    rw [rendezvous_called msg hq hp (ne_of_wait hp (hq.receiving hs))]
    exact .hand hq.queue_eq hwait (.inr rfl)
  | @queued op reason e que msg hop he hmsg hempty hq =>
    rcases hop with ⟨rfl, rfl⟩ | ⟨rfl, rfl⟩
    · refine .inl ⟨hsend nofun, .inr ?_⟩
      rw [rendezvous_queued msg hq hp (.inl ⟨rfl, rfl⟩)]
      exact .queue hwait (.inl rfl)
    · refine .inl ⟨hsend nofun, .inr ?_⟩
      rw [rendezvous_queued msg hq hp (.inr ⟨rfl, rfl⟩)]
      exact .queue hwait (.inr rfl)
  | received he hq hsender hcall hinst hmem hwrite =>
    refine .inl ⟨fun _ _ _ _ => writable_of_writeAt hinst hmem hwrite, .inr ?_⟩
    rw [rendezvous_received _ hq hsender hcall]
    exact .take hq.queue_eq
  | receivedCall he hq hsender hcall hinst hmem hwrite =>
    refine .inl ⟨fun _ _ _ _ => writable_of_writeAt hinst hmem hwrite, .inr ?_⟩
    rw [(rendezvous_receivedCall _ hs hq hsender hcall).2]
    exact .take hq.queue_eq
  | dropped hrc he hq hlost =>
    refine .inr ⟨not_hasRoom hs he hq hlost, ?_⟩
    have hqueue := hq.queue_eq
    obtain ⟨ep, hep, -⟩ := hq
    rw [rendezvous_setSenders _ _ _ hep]
    exact .mk hqueue
  | awaited he hempty hq =>
    refine .inl ⟨fun _ e' he' hne => ?_, .inr ?_⟩
    · rw [he] at he'
      cases he'
      exact (hne hempty).elim
    · rw [rendezvous_awaited hq hp]
      exact .await hwait
  | replied he hmsg hq =>
    refine .inl ⟨hsend nofun, .inr ?_⟩
    rw [rendezvous_deliverAndWake]
    exact .answer (replyWaiterOn_some hq).1

end Ipc

/-! ## Seats

Besides the queues there are the instances. A process that is blocked has one, and its invocation
is parked in it. -/

/-- Whoever runs or is blocked has an instance, with its invocation parked where it is blocked,
and whoever waits for a record is blocked for that. It is what lets a woken process be resumed. -/
structure Seated (k : Kernel) : Prop where
  running : ∀ p, k.stateAt p = some .running → ∃ slot, k.tier1Pool p = some slot
  parked : ∀ p reason epIdx, k.stateAt p = some (.blocked reason epIdx) →
    ∃ slot, k.tier1Pool p = some slot ∧ slot.parked = true
  ring : ∀ p ∈ k.ringWaiterList, ∃ epIdx, k.stateAt p = some (.blocked .eventWait epIdx)

/-- The instances are where they were, and as parked. -/
def SamePool (k k' : Kernel) : Prop :=
  ∀ q slot, k.tier1Pool q = some slot →
    ∃ slot', k'.tier1Pool q = some slot' ∧ slot'.parked = slot.parked

/-- A host function of `p` touches the seats of `p` and of one process that waits. Everybody else
may be left out of the argument. -/
structure Met (k k' : Kernel) (p : Proc) : Prop where
  events : k'.events = k.events
  pool : k.SamePool k'
  others : ∀ q, q ≠ p → k'.stateAt q = k.stateAt q ∨
    ∃ o s, k.rendezvous.wait q = some o ∧ k'.stateAt q = some s ∧ s ≠ .running

theorem SamePool.refl (k : Kernel) : k.SamePool k := fun _ slot h => ⟨slot, h, rfl⟩

theorem SamePool.setInstance {k k' : Kernel} (h : k.SamePool k') {p : Proc} {slot slot' : Tier1Slot}
    (hslot : k.tier1Pool p = some slot) (hparked : slot'.parked = slot.parked) :
    k.SamePool (k'.setInstance p slot') := by
  intro q old hq
  rw [tier1Pool_setInstance]
  split
  · rename_i hqp
    subst hqp
    obtain rfl : slot = old := Option.some.inj (hslot.symm.trans hq)
    exact ⟨slot', rfl, hparked⟩
  · exact h q old hq

theorem SamePool.deliverAndWake {k k' : Kernel} (h : k.SamePool k') (p : Proc)
    (msg : Option MsgRegs) (rc : ℤ) : k.SamePool (k'.deliverAndWake p msg rc) := by
  intro q slot hq
  obtain ⟨slot', hslot', hparked⟩ := h q slot hq
  rw [tier1Pool_deliverAndWake, hslot']
  split
  · exact ⟨_, rfl, hparked⟩
  · exact ⟨slot', rfl, hparked⟩

section Ipc

variable {k k' : Kernel} {p : Proc} {slot msgPtr : BitVec 32} {op : Op}

/-- Where nothing changed state, nobody was met. -/
theorem Met.of_stateAt (hevents : k'.events = k.events) (hpool : k.SamePool k')
    (hstate : k'.stateAt = k.stateAt) : k.Met k' p :=
  ⟨hevents, hpool, fun q _ => .inl (congrFun hstate q)⟩

theorem Met.wake (h : k.Met k' p) {q : Proc} {o : Wait × ℕ} (hq : k.rendezvous.wait q = some o)
    (hstate : k'.stateAt = k.stateAt) (msg : Option MsgRegs) (rc : ℤ) :
    k.Met (k'.deliverAndWake q msg rc) p := by
  refine ⟨(k'.events_deliverAndWake q msg rc).trans h.events, h.pool.deliverAndWake q msg rc,
    fun r hr => ?_⟩
  rw [stateAt_deliverAndWake, hstate]
  split
  · rename_i hrq
    subst hrq
    obtain ⟨reason, epIdx, hblocked, -⟩ := stateAt_of_wait hq
    rw [hblocked]
    exact .inr ⟨o, .ready, hq, rfl, nofun⟩
  · exact .inl rfl

theorem Met.block (h : k.Met k' p) (reason : BlockReason) (e : ℕ) :
    k.Met (k'.blockAndYield p reason e msgPtr) p :=
  ⟨h.events, h.pool, fun q hq => by
    rw [stateAt_blockAndYield, if_neg hq]
    exact h.others q hq⟩

/-- **Whom an IPC operation touches**, and how it leaves its caller: one other process at most,
which waited for it. -/
theorem IpcEffect.met {rc : Option ℤ} (h : IpcEffect k p slot msgPtr op (rc, k'))
    (hs : k.rendezvous.Sound) (hp : k.stateAt p = some .running) :
    k.Met k' p ∧
      (rc.isSome = true ∧ k'.stateAt p = some .running ∨
        rc = none ∧ ∃ reason epIdx, k'.stateAt p = some (.blocked reason epIdx)) := by
  have hself : k.Met k p := .of_stateAt rfl (.refl k) rfl
  have hregs : ∀ msg, k.Met (k.setMsgRegs p msg) p := fun msg =>
    .of_stateAt rfl (.refl k) (k.stateAt_setMsgRegs p msg)
  have hqueue : ∀ {k₁ : Kernel}, k.Met k₁ p → ∀ side e que, k.Met (k₁.setQueue side e que) p :=
    fun h side e que => ⟨h.events, h.pool, h.others⟩
  have hnot : ∀ {q : Proc} {o : Wait × ℕ}, k.rendezvous.wait q = some o → p ≠ q :=
    fun hq => ne_of_wait hp hq
  cases h with
  | refused hrc hempty => exact ⟨hself, .inl ⟨rfl, hp⟩⟩
  | full hop => exact ⟨hregs _, .inl ⟨rfl, by rw [stateAt_setMsgRegs, hp]⟩⟩
  | @sent e q que msg he hmsg hq =>
    have hw := hq.receiving hs
    refine ⟨(hqueue (hregs msg) _ _ _).wake hw (k.stateAt_setMsgRegs p msg) _ _, .inl ⟨rfl, ?_⟩⟩
    simp [hnot hw, hp]
  | @called e q que msg he hmsg hq =>
    have hw := hq.receiving hs
    refine ⟨((hqueue (hregs msg) _ _ _).wake hw (k.stateAt_setMsgRegs p msg) _ _).block _ _,
      .inr ⟨rfl, .replyWait, BitVec.ofNat 8 e, ?_⟩⟩
    simp [hnot hw, hp]
  | @queued op reason e que msg hop he hmsg hempty hq =>
    refine ⟨(hqueue (hregs msg) _ _ _).block _ _, .inr ⟨rfl, reason, BitVec.ofNat 8 e, ?_⟩⟩
    simp [hp]
  | @received e q que sender inst memory memory' he hq hsender hcall hinst hmem hwrite =>
    obtain ⟨o, hw⟩ := hs.wait_of_mem_senders hq.mem_senders
    have hmet : k.Met ((k.setQueue .senders e que).setInstance p
        { inst with memory := some memory' }) p :=
      .of_stateAt rfl ((SamePool.refl k).setInstance hinst rfl) rfl
    refine ⟨hmet.wake hw rfl _ _, .inl ⟨rfl, ?_⟩⟩
    simp [hnot hw, hp]
  | @receivedCall e q que sender inst memory memory' epIdx he hq hsender hcall hinst hmem hwrite =>
    obtain ⟨o, hw⟩ := hs.wait_of_mem_senders hq.mem_senders
    have hstate : k.stateAt q = some (.blocked .callWait epIdx) := by
      rw [stateAt, hsender, ← hcall]
      rfl
    have hpool : k.SamePool ((k.setQueue .senders e que).setInstance p
        { inst with memory := some memory' }) := (SamePool.refl k).setInstance hinst rfl
    refine ⟨⟨rfl, hpool, fun r hr => ?_⟩, .inl ⟨rfl, ?_⟩⟩
    · rw [stateAt_modifyProcess (g := fun _ => .blocked .replyWait epIdx) _ _ _ fun _ => rfl]
      split
      · rename_i hrq
        subst hrq
        rw [stateAt_setInstance, stateAt_setQueue, hstate]
        exact .inr ⟨o, _, hw, rfl, by simp⟩
      · exact .inl rfl
    · rw [stateAt_modifyProcess (g := fun _ => .blocked .replyWait epIdx) _ _ _ fun _ => rfl,
        if_neg (hnot hw)]
      exact hp
  | dropped hrc he hq hlost => exact ⟨hqueue hself _ _ _, .inl ⟨rfl, hp⟩⟩
  | @awaited e que he hempty hq =>
    refine ⟨(hqueue hself _ _ _).block _ _, .inr ⟨rfl, .recvWait, BitVec.ofNat 8 e, ?_⟩⟩
    simp [hp]
  | @replied e q msg he hmsg hq =>
    have hw := (replyWaiterOn_some hq).1
    refine ⟨hself.wake hw rfl _ _, .inl ⟨rfl, ?_⟩⟩
    simp [hnot hw, hp]

end Ipc

/-! ## Reading the audit stream

It waits as well, but at no endpoint, so the rendezvous does not see it. -/

/-- A read of the audit stream by `p` touches the seat of `p` only. -/
structure Listened (k k' : Kernel) (p : Proc) (rc : Option ℤ) : Prop where
  endpoints : k'.endpoint? = k.endpoint?
  others : ∀ q, q ≠ p → k'.processes q = k.processes q ∧ k'.tier1Pool q = k.tier1Pool q
  pool : k.SamePool k'
  regs : k'.msgRegsAt = k.msgRegsAt
  ring : ∀ q ∈ k'.ringWaiterList, q ∈ k.ringWaiterList ∨ q = p ∧ rc = none
  self : rc.isSome = true ∧ k'.stateAt p = k.stateAt p ∨
    rc = none ∧ k'.stateAt p = (k.stateAt p).map fun _ => .blocked .eventWait eventWaitSentinel

/-- The reader runs on, or waits for a record. -/
theorem Listened.caller {k k' : Kernel} {p : Proc} {rc : Option ℤ} (h : k.Listened k' p rc)
    (hp : k.stateAt p = some .running) :
    rc.isSome = true ∧ k'.stateAt p = some .running ∨
      rc = none ∧ k'.stateAt p = some (.blocked .eventWait eventWaitSentinel) := by
  rcases h.self with ⟨hrc, hstate⟩ | ⟨hrc, hstate⟩
  · exact .inl ⟨hrc, hstate.trans hp⟩
  · exact .inr ⟨hrc, by rw [hstate, hp]; rfl⟩

/-- A registration adds at most one waiter to the set, and leaves all but the events alone. -/
theorem registerWaiter_ok {k k' : Kernel} {p : Proc} (h : k.registerWaiter p = some k') :
    (∃ events, k' = { k with events := events }) ∧
      ∀ q ∈ k'.ringWaiterList, q ∈ k.ringWaiterList ∨ q = p := by
  simp only [registerWaiter] at h
  split at h
  · obtain rfl := Option.some.inj h
    exact ⟨⟨k.events, rfl⟩, fun q hq => .inl hq⟩
  · split at h
    · cases h
    · rename_i i _
      obtain rfl := Option.some.inj h
      refine ⟨⟨_, rfl⟩, fun q hq => ?_⟩
      obtain ⟨j, hj⟩ := mem_ringWaiterList.mp hq
      by_cases hji : j = i
      · right
        subst hji
        simpa [eq_comm] using hj
      · left
        exact mem_ringWaiterList.mpr ⟨j, by simpa [hji] using hj⟩

theorem writeMemory_ok {k k' : Kernel} {p : Proc} {ptr : BitVec 32} {bytes : List (BitVec 8)}
    (h : k.writeMemory p ptr bytes = .ok k') :
    ∃ slot memory, k.tier1Pool p = some slot ∧
      k' = k.setInstance p { slot with memory := memory } := by
  simp only [writeMemory] at h
  split at h
  · cases h
  · rename_i slot hslot
    split at h
    · cases h
    · split at h
      · cases h
      · exact ⟨slot, _, hslot, (Except.ok.inj h).symm⟩

theorem returnEvent_listened (k : Kernel) (p : Proc) (outPtr : BitVec 32) (e : Event) (rc : ℤ) :
    k.Listened (k.returnEvent p outPtr e rc).2 p (k.returnEvent p outPtr e rc).1 := by
  simp only [returnEvent]
  rcases hwrite : k.writeMemory p outPtr (encodeEvent e) with rc' | k'
  · exact ⟨rfl, fun _ _ => ⟨rfl, rfl⟩, .refl k, rfl, fun _ h => .inl h, .inl ⟨rfl, rfl⟩⟩
  · obtain ⟨slot, memory, hslot, rfl⟩ := writeMemory_ok hwrite
    exact ⟨rfl, (k.local_setInstance p _).others, (SamePool.refl k).setInstance hslot rfl, rfl,
      fun _ h => .inl h, .inl ⟨rfl, rfl⟩⟩

/-- **What reading the audit stream does**: it answers, or it lets the reader wait for a record.
-/
theorem eventReadImpl_listened (k : Kernel) (p : Proc) (cursorLo cursorHi outPtr : BitVec 32) :
    k.Listened (k.eventReadImpl p cursorLo cursorHi outPtr).2 p
      (k.eventReadImpl p cursorLo cursorHi outPtr).1 := by
  have hsame : ∀ rc : ℤ, k.Listened k p (some rc) := fun rc =>
    ⟨rfl, fun _ _ => ⟨rfl, rfl⟩, .refl k, rfl, fun _ h => .inl h, .inl ⟨rfl, rfl⟩⟩
  simp only [eventReadImpl]
  split
  · exact hsame _
  · split
    · -- caught up: wait for the next record
      rcases hreg : k.registerWaiter p with _ | k'
      · exact hsame _
      · obtain ⟨⟨events, rfl⟩, hring⟩ := registerWaiter_ok hreg
        refine ⟨rfl, fun q hq => ⟨?_, rfl⟩, .refl k, ?_, fun q hq => ?_, .inr ⟨rfl, ?_⟩⟩
        · rw [processes_modifyProcess, if_neg hq]
        · exact msgRegsAt_modifyProcess_eq _ p fun _ => rfl
        · exact (hring q hq).imp_right fun h => ⟨h, rfl⟩
        · rw [stateAt_modifyProcess (g := fun _ => .blocked .eventWait eventWaitSentinel) _ _ _
            fun _ => rfl, if_pos rfl]
          rfl
    · exact k.returnEvent_listened p outPtr _ 0
    · exact k.returnEvent_listened p outPtr _ 2

/-! ## One step of the system

All that a step does is one of these, or the work of the scheduler, which touches no queue. -/

/-- An IPC operation that receives has room for the message. -/
def Roomy (k : Kernel) : Turn → Prop
  | .ipc p op slot msgPtr => k.HasRoom p op slot msgPtr
  | _ => True

/-- Where endpoints and waits are as they were, so is the rendezvous. -/
theorem rendezvous_congr {k k' : Kernel} (hendpoints : k'.endpoint? = k.endpoint?)
    (hwait : ∀ q, k'.rendezvous.wait q = k.rendezvous.wait q) : k'.rendezvous = k.rendezvous := by
  have hqueue : k'.queue = k.queue := by
    funext side e
    rw [queue, queue, hendpoints]
  refine Rendezvous.ext ?_ ?_ (funext hwait)
  · exact congrFun hqueue .senders
  · exact congrFun hqueue .receivers

theorem wait_congr {k k' : Kernel} {q : Proc} (h : k'.stateAt q = k.stateAt q) :
    k'.rendezvous.wait q = k.rendezvous.wait q :=
  congrArg (fun o => o.bind ProcessState.wait) h

/-- A host function of another process leaves a running process in its seat. -/
theorem Seated.still_running {k k' : Kernel} {q : Proc} (h : k.Seated) (hpool : k.SamePool k')
    (hq : k'.stateAt q = k.stateAt q ∨
      ∃ o s, k.rendezvous.wait q = some o ∧ k'.stateAt q = some s ∧ s ≠ .running)
    (hrun : k'.stateAt q = some .running) : ∃ slot, k'.tier1Pool q = some slot := by
  rcases hq with hsame | ⟨o, s, -, hs, hne⟩
  · obtain ⟨old, hold⟩ := h.running q (hsame ▸ hrun)
    obtain ⟨new, hnew, -⟩ := hpool q old hold
    exact ⟨new, hnew⟩
  · rw [hs] at hrun
    exact (hne (Option.some.inj hrun)).elim

/-- What leaves a process blocked leaves its invocation parked. -/
theorem Seated.still_parked {k k' : Kernel} {q : Proc} {reason : BlockReason} {epIdx : BitVec 8}
    (h : k.Seated) (hpool : k.SamePool k')
    (hq : k'.stateAt q = k.stateAt q ∨
      ∃ o s, k.rendezvous.wait q = some o ∧ k'.stateAt q = some s ∧ s ≠ .running)
    (hblocked : k'.stateAt q = some (.blocked reason epIdx)) :
    ∃ slot, k'.tier1Pool q = some slot ∧ slot.parked = true := by
  have hbefore : ∃ reason epIdx, k.stateAt q = some (.blocked reason epIdx) := by
    rcases hq with hsame | ⟨o, s, hwait, -, -⟩
    · exact ⟨reason, epIdx, hsame ▸ hblocked⟩
    · obtain ⟨reason, epIdx, hs, -⟩ := stateAt_of_wait hwait
      exact ⟨reason, epIdx, hs⟩
  obtain ⟨reason, epIdx, hbefore⟩ := hbefore
  obtain ⟨old, hold, hpark⟩ := h.parked q reason epIdx hbefore
  obtain ⟨new, hnew, hsame⟩ := hpool q old hold
  exact ⟨new, hnew, hsame.trans hpark⟩

/-- It lets nobody go who waits for a record. -/
theorem Seated.still_waiting {k k' : Kernel} {q : Proc} {epIdx : BitVec 8}
    (hevent : k.stateAt q = some (.blocked .eventWait epIdx))
    (hq : k'.stateAt q = k.stateAt q ∨
      ∃ o s, k.rendezvous.wait q = some o ∧ k'.stateAt q = some s ∧ s ≠ .running) :
    k'.stateAt q = some (.blocked .eventWait epIdx) := by
  rcases hq with hsame | ⟨o, s, hwait, -, -⟩
  · exact hsame.trans hevent
  · rw [wait_of_stateAt hevent] at hwait
    cases hwait

/-- A host function leaves everyone seated: the caller runs on, or is parked. -/
theorem Seated.afterHostFn {k k' : Kernel} {p : Proc} {rc : Option ℤ} (h : k.Seated)
    (hp : k.stateAt p = some .running) (hpool : k.SamePool k')
    (hothers : ∀ q, q ≠ p → k'.stateAt q = k.stateAt q ∨
      ∃ o s, k.rendezvous.wait q = some o ∧ k'.stateAt q = some s ∧ s ≠ .running)
    (hring : ∀ q ∈ k'.ringWaiterList, q ∈ k.ringWaiterList ∨
      q = p ∧ ∃ epIdx, k'.stateAt p = some (.blocked .eventWait epIdx))
    (hself : rc.isSome = true ∧ k'.stateAt p = some .running ∨
      rc = none ∧ ∃ reason epIdx, k'.stateAt p = some (.blocked reason epIdx)) :
    (afterHostFn p (rc, k')).Seated ∧ (afterHostFn p (rc, k')).stateAt = k'.stateAt ∧
      (afterHostFn p (rc, k')).rendezvous = k'.rendezvous := by
  obtain ⟨slot, hslot⟩ := h.running p hp
  obtain ⟨slot', hslot', -⟩ := hpool p slot hslot
  have hwaits : ∀ q ∈ k'.ringWaiterList,
      ∃ epIdx, k'.stateAt q = some (.blocked .eventWait epIdx) := by
    intro q hq
    rcases hring q hq with hmem | ⟨rfl, hblocked⟩
    · obtain ⟨epIdx, hevent⟩ := h.ring q hmem
      have hqp : q ≠ p := by
        rintro rfl
        cases hp.symm.trans hevent
      exact ⟨epIdx, still_waiting hevent (hothers q hqp)⟩
    · exact hblocked
  rcases hself with ⟨hrc, hrun⟩ | ⟨rfl, reason, epIdx, hblocked⟩
  · obtain ⟨rc, rfl⟩ := Option.isSome_iff_exists.mp hrc
    refine ⟨⟨fun q hq => ?_, fun q r e hq => ?_, hwaits⟩, rfl, rfl⟩
    · by_cases hqp : q = p
      · exact ⟨slot', hqp ▸ hslot'⟩
      · exact h.still_running hpool (hothers q hqp) hq
    · have hqp : q ≠ p := by
        rintro rfl
        cases hrun.symm.trans hq
      exact h.still_parked hpool (hothers q hqp) hq
  · have hsettle : Kernel.afterHostFn p (none, k') =
        k'.setInstance p { slot' with parked := true } :=
      settleBlocked_of_blocked hblocked hslot'
    rw [hsettle]
    refine ⟨⟨fun q hq => ?_, fun q r e hq => ?_, hwaits⟩, rfl, rfl⟩
    · rw [tier1Pool_setInstance]
      split
      · exact ⟨_, rfl⟩
      · rename_i hqp
        exact h.still_running hpool (hothers q hqp) hq
    · rw [tier1Pool_setInstance]
      split
      · exact ⟨_, rfl, rfl⟩
      · rename_i hqp
        exact h.still_parked hpool (hothers q hqp) hq

/-- Whoever waits for a record waits at no endpoint, and to wake it changes that for
nobody. -/
theorem Stirred.wait {k k' : Kernel} {q : Proc} (h : k.Stirred k' q) (hseat : k.Seated) :
    k'.rendezvous.wait q = k.rendezvous.wait q := by
  rcases h.process with hproc | ⟨hfree, proc, hproc, hready⟩
  · by_cases hgo : k.LetGo k' q
    · rw [if_pos hgo] at hproc
      obtain ⟨epIdx, hevent⟩ := hseat.ring q hgo.1
      have hready : k'.stateAt q = some .ready := by
        rw [stateAt, Option.map_eq_some_iff] at hevent
        obtain ⟨proc, hq, hstate⟩ := hevent
        rw [stateAt, hproc, hq]
        change some proc.wake.state = _
        rw [Process.state_wake, hstate]
        rfl
      rw [wait_of_stateAt hready, wait_of_stateAt hevent]
      rfl
    · rw [if_neg hgo] at hproc
      exact wait_congr (stateAt_congr hproc)
  · have hnew : k'.stateAt q = some .ready := by
      rw [stateAt, hproc, ← hready]
      rfl
    rw [wait_of_stateAt hnew]
    change none = (k.stateAt q).bind ProcessState.wait
    rw [stateAt, hfree]
    rfl

/-- A process that is not ready after it was stirred is as it was. -/
theorem Stirred.same {k k' : Kernel} {q : Proc} {s : ProcessState} (h : k.Stirred k' q)
    (hseat : k.Seated) (hs : k'.stateAt q = some s) (hne : s ≠ .ready) :
    k.stateAt q = some s ∧ k'.tier1Pool q = k.tier1Pool q := by
  have hpool := h.pool
  rcases h.process with hproc | ⟨-, proc, hproc, hready⟩
  · by_cases hgo : k.LetGo k' q
    · rw [if_pos hgo] at hproc
      obtain ⟨epIdx, hevent⟩ := hseat.ring q hgo.1
      rw [stateAt, Option.map_eq_some_iff] at hevent
      obtain ⟨proc, hq, hevent⟩ := hevent
      rw [stateAt, hproc, hq] at hs
      obtain rfl := Option.some.inj hs
      rw [Process.state_wake, hevent] at hne
      exact (hne rfl).elim
    · rw [if_neg hgo] at hproc hpool
      exact ⟨(stateAt_congr hproc).symm.trans hs, hpool⟩
  · rw [stateAt, hproc] at hs
    obtain rfl := Option.some.inj hs
    exact (hne hready).elim

/-- Whoever still waits for a record is still blocked. -/
theorem Stirred.eventWait {k k' : Kernel} {q : Proc} (h : k.Stirred k' q) (hseat : k.Seated)
    (hq : q ∈ k'.ringWaiterList) : ∃ epIdx, k'.stateAt q = some (.blocked .eventWait epIdx) := by
  obtain ⟨epIdx, hevent⟩ := hseat.ring q (h.ring hq)
  refine ⟨epIdx, ?_⟩
  rcases h.process with hproc | ⟨hfree, -⟩
  · rw [if_neg fun hgo => hgo.2 hq] at hproc
    exact (stateAt_congr hproc).trans hevent
  · rw [stateAt, hfree] at hevent
    cases hevent

theorem Ending.wait_state (ending : Ending) : ending.state.wait = none := by
  cases ending <;> rfl

/-- Whoever ends, blocked or not, leaves everyone else seated, and waits for nothing any
more. What it left in a queue is not touched. -/
theorem Ended.left {k k' : Kernel} {p : Proc} {ending : Ending} (h : k.Ended k' p ending)
    (hseat : k.Seated) : k'.Seated ∧ k'.rendezvous = k.rendezvous.setWait p none := by
  have hother : ∀ {q s}, k'.stateAt q = some s → s ≠ ending.state → q ≠ p := by
    rintro q s hs hne rfl
    exact hne (Option.some.inj (hs.symm.trans h.state))
  have hqueue : k'.queue = k.queue := by
    funext side e
    rw [queue, queue, h.endpoints]
  refine ⟨⟨fun q hq => ?_, fun q reason epIdx hq => ?_, fun q hq => ?_⟩,
    Rendezvous.ext (congrFun hqueue .senders) (congrFun hqueue .receivers) (funext fun q => ?_)⟩
  · have hqp := hother hq (by cases ending <;> simp [Ending.state])
    obtain ⟨hrun, hpool⟩ := (h.others q hqp).same hseat hq (by decide)
    rw [hpool]
    exact hseat.running q hrun
  · have hqp := hother hq (by cases ending <;> simp [Ending.state])
    obtain ⟨hblocked, hpool⟩ := (h.others q hqp).same hseat hq (by simp)
    rw [hpool]
    exact hseat.parked q reason epIdx hblocked
  · rw [h.ring] at hq
    cases hq
  · rw [Rendezvous.wait_setWait]
    split
    · rename_i hqp
      rw [hqp, wait_of_stateAt h.state, Ending.wait_state]
    · rename_i hqp
      exact (h.others q hqp).wait hseat

/-- The end of a turn leaves everyone else seated, and touches no rendezvous. -/
theorem Ended.seated {k k' : Kernel} {p : Proc} {ending : Ending} (h : k.Ended k' p ending)
    (hseat : k.Seated) (hp : k.rendezvous.wait p = none) :
    k'.Seated ∧ k'.rendezvous = k.rendezvous := by
  obtain ⟨hseat', hrend⟩ := h.left hseat
  exact ⟨hseat', hrend.trans (Rendezvous.setWait_eq_self hp)⟩

/-- What touches the seat of `p` only, and leaves `p` running, leaves everyone seated and
the rendezvous alone. -/
theorem Local.seated {k k' : Kernel} {p : Proc} {slot : Tier1Slot} (h : k.Local k' p)
    (hseat : k.Seated) (hp : k.rendezvous.wait p = none)
    (hring : ∀ epIdx, k.stateAt p ≠ some (.blocked .eventWait epIdx))
    (hrun : k'.stateAt p = some .running) (hslot : k'.tier1Pool p = some slot) :
    k'.Seated ∧ k'.rendezvous = k.rendezvous := by
  refine ⟨⟨fun q hq => ?_, fun q reason epIdx hq => ?_, fun q hq => ?_⟩,
    rendezvous_congr h.endpoints fun q => ?_⟩
  · by_cases hqp : q = p
    · exact ⟨slot, hqp ▸ hslot⟩
    · obtain ⟨hproc, hpool⟩ := h.others q hqp
      rw [hpool]
      exact hseat.running q (stateAt_congr hproc ▸ hq)
  · have hqp : q ≠ p := by
      rintro rfl
      cases hrun.symm.trans hq
    obtain ⟨hproc, hpool⟩ := h.others q hqp
    rw [hpool]
    exact hseat.parked q reason epIdx (stateAt_congr hproc ▸ hq)
  · rw [ringWaiterList, h.events] at hq
    obtain ⟨epIdx, hevent⟩ := hseat.ring q hq
    have hqp : q ≠ p := by
      rintro rfl
      exact hring epIdx hevent
    exact ⟨epIdx, (stateAt_congr (h.others q hqp).1).trans hevent⟩
  · by_cases hqp : q = p
    · rw [hqp, wait_of_stateAt hrun, hp]
      rfl
    · exact wait_congr (stateAt_congr (h.others q hqp).1)

/-- A dispatch leaves everyone seated and the rendezvous alone. -/
theorem dispatch_seated {k : Kernel} {p : Proc} (hseat : k.Seated) (hp : k.stateAt p = some .ready)
    (image : Option (Option (List (BitVec 8)))) :
    (k.dispatch p image).Seated ∧ (k.dispatch p image).rendezvous = k.rendezvous := by
  have hwait : k.rendezvous.wait p = none := wait_of_stateAt hp
  rcases dispatch_effect hp image with hentered | ⟨hended, -⟩
  · obtain ⟨slot, hslot, -⟩ := hentered.live
    refine hentered.seat.seated hseat hwait (fun epIdx h => ?_) hentered.state hslot
    cases hp.symm.trans h
  · exact hended.seated hseat hwait

/-- So does a read of the audit stream. -/
theorem eventRead_seated {k : Kernel} {p : Proc} (hseat : k.Seated)
    (hp : k.stateAt p = some .running) (cursorLo cursorHi outPtr : BitVec 32) :
    (afterHostFn p (k.eventReadImpl p cursorLo cursorHi outPtr)).Seated ∧
      (afterHostFn p (k.eventReadImpl p cursorLo cursorHi outPtr)).rendezvous =
        k.rendezvous := by
  have hlisten := k.eventReadImpl_listened p cursorLo cursorHi outPtr
  generalize k.eventReadImpl p cursorLo cursorHi outPtr = out at hlisten ⊢
  obtain ⟨rc, k₁⟩ := out
  simp only at hlisten
  have hself := hlisten.caller hp
  obtain ⟨hseat', -, hrend⟩ := hseat.afterHostFn hp hlisten.pool
    (fun q hq => .inl (stateAt_congr (hlisten.others q hq).1))
    (fun q hq => (hlisten.ring q hq).imp_right fun ⟨hqp, hrc⟩ => ⟨hqp, by
      rcases hself with ⟨hsome, -⟩ | ⟨-, hstate⟩
      · rw [hrc] at hsome
        cases hsome
      · exact ⟨_, hstate⟩⟩)
    (hself.imp_right fun ⟨hrc, hstate⟩ => ⟨hrc, _, _, hstate⟩)
  rw [hrend]
  refine ⟨hseat', rendezvous_congr hlisten.endpoints fun q => ?_⟩
  by_cases hqp : q = p
  · subst hqp
    rw [wait_of_stateAt hp]
    rcases hself with ⟨-, hstate⟩ | ⟨-, hstate⟩
    · rw [wait_of_stateAt hstate]
    · rw [wait_of_stateAt hstate]
      rfl
  · exact wait_congr (stateAt_congr (hlisten.others q hqp).1)

/-- **What a step is**, case by case: every invariant of turns is proved from these, and none
unfolds the step itself. -/
theorem turn_cases {k k' : Kernel} {t : Turn} (h : k.turn t = some k') :
    (∃ p image, t = .dispatch p image ∧ k.stateAt p = some .ready ∧ k' = k.dispatch p image) ∨
      (∃ p memory slot, t = .compute p memory ∧ k.stateAt p = some .running ∧
        k.tier1Pool p = some slot ∧ k' = k.setInstance p { slot with memory := some memory }) ∨
      (∃ p op slot msgPtr, t = .ipc p op slot msgPtr ∧ k.stateAt p = some .running ∧
        k' = afterHostFn p (k.ipcImpl p op slot msgPtr)) ∨
      (∃ p cursorLo cursorHi outPtr, t = .eventRead p cursorLo cursorHi outPtr ∧
        k.stateAt p = some .running ∧
        k' = afterHostFn p (k.eventReadImpl p cursorLo cursorHi outPtr)) ∨
      ∃ p ending, t = .finish p ending ∧ k.stateAt p = some .running ∧
        k' = k.finish p ending := by
  cases t with
  | dispatch p image =>
    simp only [turn] at h
    split at h
    · rename_i hready
      exact .inl ⟨p, image, rfl, hready.1, (Option.some.inj h).symm⟩
    · cases h
  | compute p memory =>
    simp only [turn] at h
    split at h
    · rename_i slot hslot
      split at h
      · split at h
        · rename_i hrun
          exact .inr (.inl ⟨p, memory, slot, rfl, hrun.1, hslot, (Option.some.inj h).symm⟩)
        · cases h
      · cases h
    · cases h
  | ipc p op slot msgPtr =>
    simp only [turn] at h
    split at h
    · rename_i hrun
      exact .inr (.inr (.inl ⟨p, op, slot, msgPtr, rfl, hrun, (Option.some.inj h).symm⟩))
    · cases h
  | eventRead p cursorLo cursorHi outPtr =>
    simp only [turn] at h
    split at h
    · rename_i hrun
      exact .inr (.inr (.inr (.inl
        ⟨p, cursorLo, cursorHi, outPtr, rfl, hrun, (Option.some.inj h).symm⟩)))
    · cases h
  | finish p ending =>
    simp only [turn] at h
    split at h
    · rename_i hrun
      exact .inr (.inr (.inr (.inr ⟨p, ending, rfl, hrun, (Option.some.inj h).symm⟩)))
    · cases h

/-- **Every step** leaves everyone seated, and is a step of the rendezvous, or nothing,
or loses a sender where the receiver has no room. -/
theorem turn_step {k k' : Kernel} {t : Turn} (hs : k.rendezvous.Sound) (hseat : k.Seated)
    (h : k.turn t = some k') :
    k'.Seated ∧
      ((k.Roomy t ∧ (k'.rendezvous = k.rendezvous ∨ k.rendezvous.Step k'.rendezvous)) ∨
        (¬ k.Roomy t ∧ k.rendezvous.Drop k'.rendezvous)) := by
  rcases turn_cases h with ⟨p, image, rfl, hready, rfl⟩ | ⟨p, memory, slot, rfl, hrun, hslot, rfl⟩ |
    ⟨p, op, slot, msgPtr, rfl, hrun, rfl⟩ | ⟨p, lo, hi, ptr, rfl, hrun, rfl⟩ |
    ⟨p, ending, rfl, hrun, rfl⟩
  · obtain ⟨hseat', hrend⟩ := dispatch_seated hseat hready image
    exact ⟨hseat', .inl ⟨trivial, .inl hrend⟩⟩
  · obtain ⟨hseat', hrend⟩ := (k.local_setInstance p { slot with memory := some memory }).seated
      hseat (wait_of_stateAt hrun) (fun epIdx h => by cases hrun.symm.trans h) hrun
      ((tier1Pool_setInstance _ _ _ _).trans (if_pos rfl))
    exact ⟨hseat', .inl ⟨trivial, .inl hrend⟩⟩
  · have heffect := k.ipcImpl_effect p op slot msgPtr
    generalize k.ipcImpl p op slot msgPtr = out at heffect ⊢
    obtain ⟨rc, k₁⟩ := out
    obtain ⟨hmet, hself⟩ := heffect.met hs hrun
    obtain ⟨hseat', -, hrend⟩ := hseat.afterHostFn hrun hmet.pool hmet.others
      (fun q hq => .inl (by rwa [ringWaiterList, hmet.events] at hq)) hself
    rw [hrend]
    exact ⟨hseat', heffect.step hs hrun⟩
  · obtain ⟨hseat', hrend⟩ := eventRead_seated hseat hrun lo hi ptr
    exact ⟨hseat', .inl ⟨trivial, .inl hrend⟩⟩
  · obtain ⟨hseat', hrend⟩ := (finish_ended hrun ending).seated hseat (wait_of_stateAt hrun)
    exact ⟨hseat', .inl ⟨trivial, .inl hrend⟩⟩

end Kernel

end Wari
