import Wari.Meeting

/-!
# Start sections

`load_tier1` runs the start section of a module, where it has one, before the instance is
in the pool and before `_start` is entered, and with all host functions linked. A start
section can therefore do what a tenant can do, with one difference: it cannot be resumed.
A host function that suspends its caller ends the loading, the tenant with it, and
whatever the tenant has put into a queue stays there.

The system with start sections is a machine over the one without: outside of a start
section it takes the turns of `turnMachine`, and inside of one each turn is such a turn
again, followed by the end of the tenant where the turn suspended it.
-/

namespace Wari

open Lib (Machine Rendezvous)

/-! ## The machine

A start section makes host calls before its process has an instance. What suspends it there cannot
be resumed, and ends it. -/

/-- What can happen next, in a system whose modules may have a start section. -/
inductive LoadStep where
  /-- a turn. While a start section runs it is the section that computes, calls and ends;
  a tenant that is dispatched has no start section, or is resumed -/
  | turn (t : Turn)
  /-- a ready tenant without an instance is picked, and the start section of its module is
  entered; `memory` is the memory the module exports -/
  | instantiate (p : Proc) (memory : Option (List (BitVec 8)))
  /-- the start section has returned, and `_start` is entered -/
  | started (p : Proc)

/-- The kernel, and the process whose start section is running. -/
structure Loading where
  /-- the kernel; the instance that is being loaded stands where the pool will have it, and
  nothing looks it up there before `_start` is entered -/
  kernel : Kernel
  /-- whose start section runs, if any -/
  starting : Option Proc

namespace Kernel

/-- After a host function of a start section. Where it suspended the tenant the call
comes back to `load_tier1` as an error, and the tenant is faulted. -/
def afterStartFn (p : Proc) : Option ℤ × Kernel → Kernel
  | (some _, k) => k
  | (none, k) => k.finish p .faulted

/-- A turn of a start section. To exit is an error there as any other. -/
def startTurn (k : Kernel) : Turn → Option Kernel
  | .dispatch _ _ => none
  | .compute p memory => k.turn (.compute p memory)
  | .ipc p op slot msgPtr =>
    if k.stateAt p = some .running then some (afterStartFn p (k.ipcImpl p op slot msgPtr))
    else none
  | .eventRead p cursorLo cursorHi outPtr =>
    if k.stateAt p = some .running then
      some (afterStartFn p (k.eventReadImpl p cursorLo cursorHi outPtr))
    else none
  | .finish p _ => if k.stateAt p = some .running then some (k.finish p .faulted) else none

/-- A module with a start section is instantiated for `p`. -/
def instantiate (k : Kernel) (p : Proc) (memory : Option (List (BitVec 8))) : Kernel :=
  (k.setState p .running).setInstance p ⟨memory, false, 0⟩

end Kernel

namespace Loading

/-- An idle kernel, with nothing being loaded. -/
def idle (k : IdleKernel) : Loading := ⟨k.1, none⟩

/-- One step: a turn as usual, or a turn of a start section while its module is being loaded. -/
def step (l : Loading) : LoadStep → Option Loading
  | .turn t =>
    match l.starting with
    | none => (l.kernel.turn t).map fun k => ⟨k, none⟩
    | some p =>
      (l.kernel.startTurn t).map fun k =>
        ⟨k, if k.stateAt p = some .running then some p else none⟩
  | .instantiate p memory =>
    if l.kernel.stateAt p = some .ready ∧ (∀ q, l.kernel.stateAt q ≠ some .running) ∧
        l.kernel.tier1Pool p = none then
      some ⟨l.kernel.instantiate p memory, some p⟩
    else none
  | .started p => if l.starting = some p then some ⟨l.kernel, none⟩ else none

end Loading

/-- The system of tenants whose modules may have start sections, from any idle kernel. -/
def loadMachine : Machine Loading LoadStep where
  init l := l.kernel.Idle ∧ l.starting = none
  step := Loading.step

/-- Outside of start sections the steps are turns. -/
theorem loadMachine_turn {k k' : Kernel} {t : Turn} (h : k.turn t = some k') :
    loadMachine.step ⟨k, none⟩ (.turn t) = some ⟨k', none⟩ :=
  congrArg (Option.map _) h

/-! ## Who queues

An operation of a start section does harm only where it leaves its caller in a queue. -/

namespace Kernel

/-- The IPC operation finds no peer, and room in the queue: it puts its caller there. -/
def Queues (k : Kernel) (p : Proc) (op : Op) (slot msgPtr : BitVec 32) : Prop :=
  match op with
  | .send | .call =>
    ∃ e msg que, k.resolveEndpoint p slot capRightWrite = .ok e ∧ k.readMsg p msgPtr = .ok msg ∧
      k.queue .receivers e = [] ∧ k.Pushed .senders e p que
  | .recv =>
    ∃ e que, k.resolveEndpoint p slot capRightRead = .ok e ∧ k.queue .senders e = [] ∧
      k.Pushed .receivers e p que
  | .reply => False

/-- A turn that is no IPC operation, or one that puts nobody into a queue. -/
def Unqueued (k : Kernel) : Turn → Prop
  | .ipc p op slot msgPtr => ¬ k.Queues p op slot msgPtr
  | _ => True

section Queues

variable {k k₁ : Kernel} {p : Proc} {op : Op} {slot msgPtr : BitVec 32}

/-- Nobody is popped off an empty queue, and nothing changes. -/
theorem pop_of_empty {side : Side} {e : ℕ} (h : k.queue side e = []) :
    k.pop side e = (none, k) := by
  rcases k.pop_cases side e with ⟨-, hpop⟩ | ⟨q, que, hq, -⟩
  · exact hpop
  · rw [hq.queue_eq] at h
    cases h

theorem push_of_pushed {side : Side} {e : ℕ} {que : BoundedQueue TcbRef 8}
    (h : k.Pushed side e p que) : k.push side e p = some (k.setQueue side e que) := by
  obtain ⟨ep, hep, hpush⟩ := h
  simp only [push, hep, hpush]

/-- Whoever queues is suspended, and has no result. -/
theorem ipcImpl_of_queues (h : k.Queues p op slot msgPtr) :
    (k.ipcImpl p op slot msgPtr).1 = none := by
  -- a send and a call queue alike
  have hsend : ∀ {op : Op} {reason : BlockReason},
      (op = .send ∧ reason = .sendWait ∨ op = .call ∧ reason = .callWait) →
      (∃ e msg que, k.resolveEndpoint p slot capRightWrite = .ok e ∧
        k.readMsg p msgPtr = .ok msg ∧ k.queue .receivers e = [] ∧ k.Pushed .senders e p que) →
      (k.doSendLike p slot msgPtr op).1 = none := by
    rintro op reason hop ⟨e, msg, que, he, hmsg, hempty, hq⟩
    have hpop : (k.setMsgRegs p msg).pop .receivers e = (none, k.setMsgRegs p msg) :=
      pop_of_empty hempty
    have hpush : ((k.setMsgRegs p msg).pop .receivers e).2.push .senders e p =
        some ((k.setMsgRegs p msg).setQueue .senders e que) := by
      rw [hpop]
      exact push_of_pushed hq
    rw [doSendLike_of_push hop he hmsg (by rw [hpop]) hpush]
  cases op with
  | send => exact hsend (.inl ⟨rfl, rfl⟩) h
  | call => exact hsend (.inr ⟨rfl, rfl⟩) h
  | recv =>
    obtain ⟨e, que, he, hempty, hq⟩ := h
    simp only [ipcImpl, ipcRecvImpl, he, pop_of_empty hempty, Option.isSome_none, resolve,
      push_of_pushed hq]
  | reply => exact h.elim

/-- An IPC operation that suspends its caller has put it into a queue, or has handed its
message over and leaves it awaiting the reply. -/
theorem IpcEffect.suspended (h : IpcEffect k p slot msgPtr op (none, k₁))
    (hp : k.stateAt p = some .running) (hs : k.rendezvous.Sound) :
    k.HasRoom p op slot msgPtr ∧
      (k.Queues p op slot msgPtr ∧ (∃ side e, p ∈ k₁.queue side e) ∨
        ¬ k.Queues p op slot msgPtr ∧ ∃ e, k₁.rendezvous.wait p = some (.reply, e)) := by
  cases h with
  | @called e q que msg he hmsg hq =>
    refine ⟨fun h => (by cases h), .inr ⟨?_, e, ?_⟩⟩
    · rintro ⟨e', -, -, he', -, hempty, -⟩
      obtain rfl : e = e' := Except.ok.inj (he.symm.trans he')
      rw [hq.queue_eq] at hempty
      cases hempty
    · rw [rendezvous_called msg hq hp (ne_of_wait hp (hq.receiving hs)), Rendezvous.wait_setWait,
        if_pos rfl]
  | @queued op reason e que msg hop he hmsg hempty hq =>
    have hmem : p ∈ (((k.setMsgRegs p msg).setQueue .senders e que).blockAndYield p reason e
        msgPtr).queue .senders e := by
      have hlist := hq.toList_eq
      obtain ⟨ep, hep, -⟩ := hq
      change p ∈ ((k.setMsgRegs p msg).setQueue .senders e que).queue .senders e
      rw [queue_setQueue _ _ _ _ (show (k.setMsgRegs p msg).endpoint? e = some ep from hep),
        if_pos ⟨rfl, rfl⟩, hlist]
      exact List.mem_append_right _ (List.mem_singleton_self p)
    rcases hop with ⟨rfl, -⟩ | ⟨rfl, -⟩
    · exact ⟨fun h => (by cases h), .inl ⟨⟨e, msg, que, he, hmsg, hempty, hq⟩, .senders, e, hmem⟩⟩
    · exact ⟨fun h => (by cases h), .inl ⟨⟨e, msg, que, he, hmsg, hempty, hq⟩, .senders, e, hmem⟩⟩
  | @awaited e que he hempty hq =>
    refine ⟨fun _ e' he' hne => ?_, .inl ⟨⟨e, que, he, hempty, hq⟩, .receivers, e, ?_⟩⟩
    · obtain rfl : e = e' := Except.ok.inj (he.symm.trans he')
      exact (hne hempty).elim
    · have hlist := hq.toList_eq
      obtain ⟨ep, hep, -⟩ := hq
      change p ∈ (k.setQueue .receivers e que).queue .receivers e
      rw [queue_setQueue _ _ _ _ hep, if_pos ⟨rfl, rfl⟩, hlist]
      exact List.mem_append_right _ (List.mem_singleton_self p)

end Queues

/-- Whoever is in a queue of a sound rendezvous is blocked. -/
theorem blocked_of_mem_queue {k : Kernel} {p : Proc} {side : Side} {e : ℕ}
    (hs : k.rendezvous.Sound) (hp : p ∈ k.queue side e) :
    ∃ reason epIdx, k.stateAt p = some (.blocked reason epIdx) := by
  have hwait : ∃ o, k.rendezvous.wait p = some o := by
    cases side with
    | senders => exact hs.wait_of_mem_senders hp
    | receivers => exact ⟨_, (hs.receiving e p).mp hp⟩
  obtain ⟨o, hw⟩ := hwait
  obtain ⟨reason, epIdx, hblocked, -⟩ := stateAt_of_wait hw
  exact ⟨reason, epIdx, hblocked⟩

/-! ## What a start section does

A turn of a start section is a turn of a tenant, and where that suspends the tenant, its end comes
right after. -/

/-- The end of a process drops its instance, whatever that is. -/
theorem finish_setInstance (k : Kernel) (p : Proc) (slot : Tier1Slot) (ending : Ending) :
    (k.setInstance p slot).finish p ending = k.finish p ending := by
  have hrelease : (k.setInstance p slot).release p = k.release p := by
    rw [release, release, setInstance]
    simp only [Function.update_idem]
  rw [finish, finish, hrelease]

/-- A turn that leaves `p` suspended, and the end of `p` after it. It is `stranded` where it is in
a queue by then, since nothing takes it out again. -/
structure Suspended (k : Kernel) (t : Turn) (p : Proc) (k₁ : Kernel) : Prop where
  turn : k.turn t = some k₁
  call : (∃ op slot msgPtr k₀ inst, t = .ipc p op slot msgPtr ∧
      k.ipcImpl p op slot msgPtr = (none, k₀) ∧ k₁ = k₀.setInstance p inst) ∨
    ∃ lo hi ptr, t = .eventRead p lo hi ptr ∧ (k.eventReadImpl p lo hi ptr).1 = none
  roomy : k.Roomy t
  blocked : ∃ reason epIdx, k₁.stateAt p = some (.blocked reason epIdx)
  stranded : k.Unqueued t ∧
      (k₁.rendezvous.wait p = none ∨ ∃ e, k₁.rendezvous.wait p = some (.reply, e)) ∨
    ¬ k.Unqueued t ∧ ∃ side e, p ∈ k₁.queue side e

/-- After a host function that suspended its caller, the caller's instance aside. -/
theorem afterHostFn_none {k₁ : Kernel} {p : Proc} {slot : Tier1Slot}
    (hslot : k₁.tier1Pool p = some slot)
    (hblocked : ∃ reason epIdx, k₁.stateAt p = some (.blocked reason epIdx)) :
    afterHostFn p (none, k₁) = k₁.setInstance p { slot with parked := true } := by
  obtain ⟨reason, epIdx, hblocked⟩ := hblocked
  exact settleBlocked_of_blocked hblocked hslot

/-- **A turn of a start section** is a turn, and the end of the tenant where that suspends
it. -/
theorem startTurn_cases {k k' : Kernel} {t : Turn} (hs : k.rendezvous.Sound) (hseat : k.Seated)
    (h : k.startTurn t = some k') :
    (k.turn t = some k' ∧ k.Unqueued t ∧
        (∀ p op slot msgPtr, t = .ipc p op slot msgPtr →
          ∃ rc, k.ipcImpl p op slot msgPtr = (some rc, k')) ∧
        ∀ p lo hi ptr, t = .eventRead p lo hi ptr →
          ∃ rc, (k.eventReadImpl p lo hi ptr).1 = some rc) ∨
      (∃ p ending, t = .finish p ending ∧ k.turn (.finish p .faulted) = some k') ∨
      ∃ p k₁, k.Suspended t p k₁ ∧ k' = k₁.finish p .faulted := by
  cases t with
  | dispatch p image => cases h
  | compute p memory =>
    exact .inl ⟨h, trivial, fun _ _ _ _ h => (by cases h), fun _ _ _ _ h => (by cases h)⟩
  | ipc p op slot msgPtr =>
    simp only [startTurn] at h
    split at h
    · rename_i hrun
      obtain rfl := Option.some.inj h
      have heffect := k.ipcImpl_effect p op slot msgPtr
      have hqueues : k.Queues p op slot msgPtr → (k.ipcImpl p op slot msgPtr).1 = none :=
        k.ipcImpl_of_queues
      have hturn : k.turn (.ipc p op slot msgPtr) =
          some (afterHostFn p (k.ipcImpl p op slot msgPtr)) := if_pos hrun
      rcases himpl : k.ipcImpl p op slot msgPtr with ⟨rc | rc, k₁⟩ <;>
        rw [himpl] at heffect hqueues hturn
      · obtain ⟨hmet, hself⟩ := heffect.met hs hrun
        have hblocked := (hself.resolve_left fun h => (by cases h.1)).2
        obtain ⟨slot₀, hslot₀⟩ := hseat.running p hrun
        obtain ⟨slot₁, hslot₁, -⟩ := hmet.pool p slot₀ hslot₀
        have hafter := afterHostFn_none hslot₁ hblocked
        obtain ⟨hroom, hcase⟩ := heffect.suspended hrun hs
        refine .inr (.inr ⟨p, _, ⟨hturn, ?_, hroom, ?_, ?_⟩, ?_⟩)
        · exact .inl ⟨op, slot, msgPtr, k₁, _, rfl, himpl, hafter⟩
        · rw [hafter]
          exact hblocked
        · rw [hafter]
          rcases hcase with ⟨hq, hmem⟩ | ⟨hq, hwait⟩
          · exact .inr ⟨fun h => h hq, hmem⟩
          · exact .inl ⟨hq, .inr hwait⟩
        · rw [hafter, finish_setInstance]
          rfl
      · refine .inl ⟨hturn, fun hq => (by cases hqueues hq), fun q op' slot' msgPtr' hq => ?_,
          fun _ _ _ _ h => (by cases h)⟩
        cases hq
        exact ⟨rc, himpl⟩
    · cases h
  | eventRead p lo hi ptr =>
    simp only [startTurn] at h
    split at h
    · rename_i hrun
      obtain rfl := Option.some.inj h
      have hlisten := k.eventReadImpl_listened p lo hi ptr
      have hturn : k.turn (.eventRead p lo hi ptr) =
          some (afterHostFn p (k.eventReadImpl p lo hi ptr)) := if_pos hrun
      rcases himpl : k.eventReadImpl p lo hi ptr with ⟨rc | rc, k₁⟩ <;>
        rw [himpl] at hlisten hturn
      · have hblocked := ((hlisten.caller hrun).resolve_left fun h => (by cases h.1)).2
        obtain ⟨slot₀, hslot₀⟩ := hseat.running p hrun
        obtain ⟨slot₁, hslot₁, -⟩ := hlisten.pool p slot₀ hslot₀
        have hafter := afterHostFn_none hslot₁ ⟨_, _, hblocked⟩
        refine .inr (.inr ⟨p, _, ⟨hturn, .inr ⟨lo, hi, ptr, rfl, congrArg Prod.fst himpl⟩,
          trivial, ?_, .inl ⟨trivial, .inl ?_⟩⟩, ?_⟩)
        · rw [hafter]
          exact ⟨_, _, hblocked⟩
        · rw [hafter]
          exact wait_of_stateAt hblocked
        · rw [hafter, finish_setInstance]
          rfl
      · refine .inl ⟨hturn, trivial, fun _ _ _ _ h => (by cases h), fun q lo' hi' ptr' hq => ?_⟩
        cases hq
        exact ⟨rc, congrArg Prod.fst himpl⟩
    · cases h
  | finish p ending =>
    simp only [startTurn] at h
    split at h
    · rename_i hrun
      exact .inr (.inl ⟨p, ending, rfl, (if_pos hrun).trans h⟩)
    · cases h

/-- A suspended operation has returned nothing. -/
theorem Suspended.not_returned {k k₁ : Kernel} {p q : Proc} {op : Op} {slot msgPtr : BitVec 32}
    (h : k.Suspended (.ipc q op slot msgPtr) p k₁) : (k.ipcImpl q op slot msgPtr).1 = none := by
  rcases h.call with ⟨_, _, _, k₀, _, hipc, himpl, -⟩ | ⟨_, _, _, hread, -⟩
  · cases hipc
    exact congrArg Prod.fst himpl
  · cases hread

/-- The end of a suspended tenant leaves everyone else seated; the tenant is faulted, and
the queues are as they were. -/
theorem Suspended.finish {k k₁ : Kernel} {t : Turn} {p : Proc} (h : k.Suspended t p k₁)
    (hseat : k₁.Seated) :
    (k₁.finish p .faulted).Seated ∧
      (k₁.finish p .faulted).rendezvous = k₁.rendezvous.setWait p none ∧
      (k₁.finish p .faulted).queue = k₁.queue ∧
      (k₁.finish p .faulted).stateAt p = some .faulted := by
  obtain ⟨reason, epIdx, hblocked⟩ := h.blocked
  have hended := finish_ended hblocked .faulted
  obtain ⟨hseat', hrend⟩ := hended.left hseat
  refine ⟨hseat', hrend, ?_, hended.state⟩
  funext side e
  rw [queue, queue, hended.endpoints]

/-- Instantiating a module leaves everyone else seated, and touches no rendezvous. -/
theorem instantiate_seated {k : Kernel} {p : Proc} (hseat : k.Seated)
    (hp : k.stateAt p = some .ready) (memory : Option (List (BitVec 8))) :
    (k.instantiate p memory).Seated ∧ (k.instantiate p memory).rendezvous = k.rendezvous ∧
      k.Local (k.instantiate p memory) p := by
  have hlocal : k.Local (k.instantiate p memory) p :=
    (k.local_modifyProcess p _).trans (local_setInstance _ _ _)
  have hrun : (k.instantiate p memory).stateAt p = some .running := by
    rw [instantiate, stateAt_setInstance, stateAt_setState, if_pos rfl, hp]
    rfl
  obtain ⟨hseat', hrend⟩ := hlocal.seated hseat (wait_of_stateAt hp)
    (fun epIdx h => (by cases hp.symm.trans h)) hrun
    ((tier1Pool_setInstance _ _ _ _).trans (if_pos rfl))
  exact ⟨hseat', hrend, hlocal⟩

end Kernel

namespace Loading

theorem step_instantiate {l l' : Loading} {p : Proc} {memory : Option (List (BitVec 8))}
    (h : l.step (.instantiate p memory) = some l') :
    l.kernel.stateAt p = some .ready ∧ l.kernel.tier1Pool p = none ∧
      l' = ⟨l.kernel.instantiate p memory, some p⟩ := by
  simp only [step] at h
  split at h
  · rename_i hready
    exact ⟨hready.1, hready.2.2, (Option.some.inj h).symm⟩
  · cases h

theorem step_started {l l' : Loading} {p : Proc} (h : l.step (.started p) = some l') :
    l' = ⟨l.kernel, none⟩ := by
  simp only [step] at h
  split at h
  · exact (Option.some.inj h).symm
  · cases h

/-- No receive that finds a sender lacks room for the message, and no IPC operation of a start
section puts its caller into a queue. Both can be told before the step. -/
def Harmless (l : Loading) : LoadStep → Prop
  | .turn t => l.kernel.Roomy t ∧ (l.starting ≠ none → l.kernel.Unqueued t)
  | _ => True

end Loading

end Wari
