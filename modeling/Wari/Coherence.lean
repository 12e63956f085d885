import Wari.StartSection

/-!
# Queues and process states agree

A process is in a queue of an endpoint, once, exactly when it is blocked to send or to
receive there. Two things break this. A receive that finds a sender takes it off its queue
before it writes the message, so that a receiver without room leaves a sender that is
blocked and in no queue. And a module's start section that queues is faulted, so that its
process stays in a queue and is blocked no more. A run that avoids both keeps queues and
states in step, and no other run does.
-/

namespace Wari

open Lib (Machine Rendezvous)

namespace Kernel

/-- `p` is blocked for `reason` on endpoint `e`. -/
def BlockedOn (k : Kernel) (p : Proc) (reason : BlockReason) (e : ℕ) : Prop :=
  ∃ epIdx, k.stateAt p = some (.blocked reason epIdx) ∧ epIdx.toNat = e

/-- `p` is blocked to send on endpoint `e`. -/
def BlockedToSend (k : Kernel) (p : Proc) (e : ℕ) : Prop :=
  k.BlockedOn p .sendWait e ∨ k.BlockedOn p .callWait e

/-- The queues hold, once each, the processes that are blocked on them, and no others. A blocked
process in no queue would never be found again; a queued one that is not blocked would be resumed
out of its turn. -/
structure Coherent (k : Kernel) : Prop where
  senders : ∀ p e, ((k.queue .senders e).count p = 1 ↔ k.BlockedToSend p e) ∧
    (¬ k.BlockedToSend p e → p ∉ k.queue .senders e)
  receivers : ∀ p e, ((k.queue .receivers e).count p = 1 ↔ k.BlockedOn p .recvWait e) ∧
    (¬ k.BlockedOn p .recvWait e → p ∉ k.queue .receivers e)

/-- Every queue, and every other process's state and registers, are as they were. -/
def Undisturbed (k k' : Kernel) (p : Proc) : Prop :=
  k'.queue = k.queue ∧ ∀ q, q ≠ p → k'.stateAt q = k.stateAt q ∧ k'.msgRegsAt q = k.msgRegsAt q

/-- The step keeps the queues coherent, and an IPC operation that returns a negative code
disturbs nobody. -/
def CoherentStep (k : Kernel) (t : Turn) (k' : Kernel) : Prop :=
  k.Coherent ∧ k'.Coherent ∧
    ∀ p op slot msgPtr rc, t = .ipc p op slot msgPtr → (k.ipcImpl p op slot msgPtr).1 = some rc →
      rc < 0 → k.Undisturbed k' p

/-! ## Coherence is that of the rendezvous

The kernel's queues and states, seen as a rendezvous of waits and queues, are coherent in two
directions: who is queued waits, and who waits to send is queued. -/

theorem sending_iff {k : Kernel} {p : Proc} {e : ℕ} :
    k.rendezvous.Sending p e ↔ k.BlockedToSend p e := by
  have hwait : ∀ {s : ProcessState},
      (s.wait = some (.send, e) ∨ s.wait = some (.call, e)) ↔
        (∃ epIdx, s = .blocked .sendWait epIdx ∧ epIdx.toNat = e) ∨
          ∃ epIdx, s = .blocked .callWait epIdx ∧ epIdx.toNat = e := by
    intro s
    cases s with
    | blocked reason epIdx => cases reason <;> simp [ProcessState.wait]
    | _ => simp [ProcessState.wait]
  simp only [Rendezvous.Sending, BlockedToSend, BlockedOn, rendezvous]
  rcases k.stateAt p with _ | s
  · simp
  · simp only [Option.bind_some, Option.some.injEq]
    exact hwait

theorem receiving_iff {k : Kernel} {p : Proc} {e : ℕ} :
    k.rendezvous.wait p = some (.recv, e) ↔ k.BlockedOn p .recvWait e := by
  simp only [BlockedOn, rendezvous]
  rcases k.stateAt p with _ | s
  · simp
  · simp only [Option.bind_some, Option.some.injEq]
    cases s with
    | blocked reason epIdx => cases reason <;> simp [ProcessState.wait]
    | _ => simp [ProcessState.wait]

/-- **Coherence** is soundness of the rendezvous, and that no sender is lost: the two halves are
proved apart. -/
theorem coherent_iff {k : Kernel} : k.Coherent ↔ k.rendezvous.Sound ∧ k.rendezvous.Lossless := by
  have hcount : ∀ {l : List Proc} {p : Proc} {P : Prop} [Decidable P],
      l.count p = (if P then 1 else 0) ↔ (l.count p = 1 ↔ P) ∧ (¬ P → p ∉ l) := by
    intro l p P _
    by_cases hP : P
    · simp [hP]
    · rw [if_neg hP, List.count_eq_zero]
      refine ⟨fun h => ⟨iff_of_false (fun h₁ => ?_) hP, fun _ => h⟩, fun h => h.2 hP⟩
      exact h (List.count_pos_iff.mp (by omega))
  rw [Rendezvous.sound_and_lossless_iff]
  constructor
  · intro h e p
    refine ⟨hcount.mpr ?_, hcount.mpr ?_⟩
    · rw [sending_iff]
      exact h.senders p e
    · rw [receiving_iff]
      exact h.receivers p e
  · intro h
    refine ⟨fun p e => ?_, fun p e => ?_⟩
    · rw [← sending_iff]
      exact hcount.mp (h e p).1
    · rw [← receiving_iff]
      exact hcount.mp (h e p).2

/-! ## A refused operation

An operation that returns an error is expected to have changed nothing for the others. It did
where it had already taken a sender off its queue. -/

/-- An IPC operation that returns a negative code disturbs nobody, unless it lost a
sender. -/
theorem IpcEffect.undisturbed {k k' : Kernel} {p : Proc} {slot msgPtr : BitVec 32} {op : Op}
    {rc : ℤ} (h : IpcEffect k p slot msgPtr op (some rc, k')) (hrc : rc < 0)
    (hs : k.rendezvous.Sound) (hroom : k.HasRoom p op slot msgPtr) : k.Undisturbed k' p := by
  cases h with
  | refused => exact ⟨rfl, fun q _ => ⟨rfl, rfl⟩⟩
  | full hop =>
    refine ⟨rfl, fun q hq => ⟨?_, ?_⟩⟩
    · rw [stateAt_setMsgRegs]
    · rw [msgRegsAt_setMsgRegs, if_neg hq]
  | sent => omega
  | received => omega
  | receivedCall => omega
  | dropped _ he hq hlost => exact (not_hasRoom hs he hq hlost hroom).elim
  | replied => omega

/-! ## Runs

A receive without room and a start section that queues are the two ways out of coherence, and each
breaks it in that very step. -/

theorem Idle.seated {k : Kernel} (h : k.Idle) : k.Seated := by
  refine ⟨fun p hp => (h.not_running p hp).elim,
    fun p reason epIdx hp => (h.not_blocked p reason epIdx hp).elim, fun p hp => ?_⟩
  rw [h.ring_nil] at hp
  cases hp

theorem Idle.wait {k : Kernel} (h : k.Idle) (p : Proc) : k.rendezvous.wait p = none := by
  rcases hw : k.rendezvous.wait p with _ | o
  · rfl
  · obtain ⟨reason, epIdx, hs, -⟩ := stateAt_of_wait hw
    exact (h.not_blocked p reason epIdx hs).elim

/-- With nobody blocked and the queues empty, all is coherent. -/
theorem Idle.coherent {k : Kernel} (h : k.Idle) : k.Coherent := by
  refine coherent_iff.mpr ⟨⟨fun e => ?_, fun e p hp => ?_, fun e => ?_, fun e p => ?_⟩,
    fun p e hp => ?_⟩
  · rw [show k.rendezvous.senders e = [] from h.queue_nil _ e]
    exact List.nodup_nil
  · rw [show k.rendezvous.senders e = [] from h.queue_nil _ e] at hp
    cases hp
  · rw [show k.rendezvous.receivers e = [] from h.queue_nil _ e]
    exact List.nodup_nil
  · rw [show k.rendezvous.receivers e = [] from h.queue_nil _ e, h.wait]
    simp
  · rcases hp with hp | hp <;> rw [h.wait] at hp <;> cases hp

/-- **A step with room is coherent, and only a step with room is.** -/
theorem coherentStep_iff {k k' : Kernel} {t : Turn} (hk : k.Coherent) (hseat : k.Seated)
    (h : k.turn t = some k') : k'.Seated ∧ (k.CoherentStep t k' ↔ k.Roomy t) := by
  obtain ⟨hs, hl⟩ := coherent_iff.mp hk
  obtain ⟨hseat', hstep⟩ := turn_step hs hseat h
  refine ⟨hseat', ?_⟩
  rcases hstep with ⟨hroom, hstep⟩ | ⟨hroom, hdrop⟩
  · have hk' : k'.Coherent := by
      rcases hstep with hsame | hstep
      · rw [coherent_iff, hsame]
        exact ⟨hs, hl⟩
      · exact coherent_iff.mpr ⟨hstep.sound hs, hstep.lossless hl⟩
    refine iff_of_true ⟨hk, hk', ?_⟩ hroom
    rintro p op slot msgPtr rc rfl hrc hneg
    simp only [turn] at h
    split at h
    · obtain rfl := Option.some.inj h
      have heffect := k.ipcImpl_effect p op slot msgPtr
      generalize k.ipcImpl p op slot msgPtr = out at heffect hrc ⊢
      obtain ⟨rc', k₁⟩ := out
      obtain rfl : rc' = some rc := hrc
      exact heffect.undisturbed hneg hs hroom
    · cases h
  · exact iff_of_false (fun hq => hdrop.not_lossless hs (coherent_iff.mp hq.2.1).2) hroom

/-- **A turn of a start section with room is coherent** exactly where it queues nobody. What
it suspends besides is the caller that awaits a reply and the reader that awaits a record,
and neither is in a queue when its end takes it out of the table. -/
theorem startTurn_coherent_iff {k k' : Kernel} {t : Turn} (hk : k.Coherent) (hseat : k.Seated)
    (h : k.startTurn t = some k') :
    k'.Seated ∧ (k.CoherentStep t k' ↔ k.Roomy t ∧ k.Unqueued t) := by
  obtain ⟨hs, hl⟩ := coherent_iff.mp hk
  rcases startTurn_cases hs hseat h with ⟨hturn, hunqueued, -⟩ | ⟨p, ending, rfl, hturn⟩ |
    ⟨p, k₁, hsuspended, rfl⟩
  · obtain ⟨hseat', hiff⟩ := coherentStep_iff hk hseat hturn
    exact ⟨hseat', hiff.trans ⟨fun h => ⟨h, hunqueued⟩, fun h => h.1⟩⟩
  · obtain ⟨hseat', hiff⟩ := coherentStep_iff hk hseat hturn
    obtain ⟨hbefore, hafter, -⟩ := hiff.mpr trivial
    exact ⟨hseat', iff_of_true ⟨hbefore, hafter, fun _ _ _ _ _ h => (by cases h)⟩
      ⟨trivial, trivial⟩⟩
  · obtain ⟨hseat₁, hiff⟩ := coherentStep_iff hk hseat hsuspended.turn
    obtain ⟨hseat', hrend, hqueue, hstate⟩ := hsuspended.finish hseat₁
    obtain ⟨-, hk₁, -⟩ := hiff.mpr hsuspended.roomy
    refine ⟨hseat', ?_⟩
    rcases hsuspended.stranded with ⟨hunqueued, hwait⟩ | ⟨hqueued, side, e, hmem⟩
    · obtain ⟨hs₁, hl₁⟩ := coherent_iff.mp hk₁
      have hk' : (k₁.finish p .faulted).Coherent := by
        rw [coherent_iff, hrend]
        exact ⟨hs₁.setWait hwait (.inl rfl), hl₁.setWait_none p⟩
      refine iff_of_true ⟨hk, hk', ?_⟩ ⟨hsuspended.roomy, hunqueued⟩
      rintro q op slot msgPtr rc rfl hrc -
      cases hrc.symm.trans hsuspended.not_returned
    · refine iff_of_false (fun hq => ?_) fun hq => hqueued hq.2
      obtain ⟨reason, epIdx, hblocked⟩ :=
        blocked_of_mem_queue (coherent_iff.mp hq.2.1).1 (hqueue ▸ hmem)
      cases hstate.symm.trans hblocked

end Kernel

namespace Loading

/-- The step keeps the queues coherent, and an IPC operation that returns a negative code
disturbs nobody. -/
def CoherentStep (l : Loading) (i : LoadStep) (l' : Loading) : Prop :=
  l.kernel.Coherent ∧ l'.kernel.Coherent ∧
    ∀ p op slot msgPtr rc, i = .turn (.ipc p op slot msgPtr) →
      (l.kernel.ipcImpl p op slot msgPtr).1 = some rc → rc < 0 →
      l.kernel.Undisturbed l'.kernel p

/-- **A harmless step is coherent, and only a harmless step is.** -/
theorem coherentStep_iff {l l' : Loading} {i : LoadStep} (hk : l.kernel.Coherent)
    (hseat : l.kernel.Seated) (h : l.step i = some l') :
    l'.kernel.Seated ∧ (l.CoherentStep i l' ↔ l.Harmless i) := by
  cases i with
  | turn t =>
    have hsame : ∀ {l' : Loading}, l.kernel.CoherentStep t l'.kernel ↔
        l.CoherentStep (.turn t) l' := by
      simp [Kernel.CoherentStep, CoherentStep]
    simp only [step] at h
    split at h
    · rename_i hstarting
      obtain ⟨k', hturn, rfl⟩ := Option.map_eq_some_iff.mp h
      obtain ⟨hseat', hiff⟩ := Kernel.coherentStep_iff hk hseat hturn
      refine ⟨hseat', hsame.symm.trans (hiff.trans ?_)⟩
      exact ⟨fun hroom => ⟨hroom, fun hne => (hne hstarting).elim⟩, fun h => h.1⟩
    · rename_i p hstarting
      obtain ⟨k', hturn, rfl⟩ := Option.map_eq_some_iff.mp h
      obtain ⟨hseat', hiff⟩ := Kernel.startTurn_coherent_iff hk hseat hturn
      refine ⟨hseat', hsame.symm.trans (hiff.trans ?_)⟩
      refine ⟨fun h => ⟨h.1, fun _ => h.2⟩, fun h => ⟨h.1, h.2 ?_⟩⟩
      rw [hstarting]
      exact Option.some_ne_none p
  | instantiate p memory =>
    obtain ⟨hready, -, rfl⟩ := step_instantiate h
    obtain ⟨hseat', hrend, -⟩ := Kernel.instantiate_seated hseat hready memory
    refine ⟨hseat', iff_of_true ⟨hk, ?_, fun _ _ _ _ _ h => (by cases h)⟩ trivial⟩
    rw [Kernel.coherent_iff, hrend]
    exact Kernel.coherent_iff.mp hk
  | started p =>
    obtain rfl := step_started h
    exact ⟨hseat, iff_of_true ⟨hk, hk, fun _ _ _ _ _ h => (by cases h)⟩ trivial⟩

end Loading

/-- **Queues and states agree along a run** exactly where every receive that finds a
sender has room for its message, and no start section queues. -/
theorem coherent_along_iff (k : IdleKernel) (is : List LoadStep) :
    loadMachine.Along Loading.CoherentStep (.idle k) is ↔
      loadMachine.Meets Loading.Harmless (.idle k) is := by
  refine Machine.along_iff_meets (I := fun l => l.kernel.Coherent ∧ l.kernel.Seated) ?_ ?_ is _
    ⟨k.2.coherent, k.2.seated⟩
  · rintro l i l' ⟨hk, hseat⟩ h hsafe
    obtain ⟨hseat', hiff⟩ := Loading.coherentStep_iff hk hseat h
    have hq := hiff.mpr hsafe
    exact ⟨hq, hq.2.1, hseat'⟩
  · rintro l i l' ⟨hk, hseat⟩ h hq
    exact (Loading.coherentStep_iff hk hseat h).2.mp hq

/-! ## A lost sender

Two tenants are enough. The receiver's module has a memory without pages, which is a valid module.
-/

namespace Kernel

/-- Boot leaves every queue of every endpoint empty. -/
theorem queue_booted (board : Board) (side : Side) (e : ℕ) : (booted board).queue side e = [] := by
  match e with
  | 0 => cases side <;> rfl
  | 1 => cases side <;> rfl
  | 2 => cases side <;> rfl
  | j + 3 =>
    have hnone : (booted board).endpoint? (j + 3) = none := Pool.get_mk_of fun _ => rfl
    rw [queue, hnone]

/-- Boot leaves the kernel idle: nobody runs, nobody is blocked, and nobody stands in a queue. -/
theorem booted_idle (board : Board) : (booted board).Idle := by
  have hstate : ∀ p s, (booted board).stateAt p = some s → s = .ready ∨ s = .library := by
    intro p s hs
    change (bootProcesses p).map Process.state = some s at hs
    simp only [bootProcesses] at hs
    split_ifs at hs <;> cases hs
    · exact .inl rfl
    · exact .inl rfl
    · exact .inr rfl
    · exact .inr rfl
  refine ⟨fun p hp => ?_, fun p reason epIdx hp => ?_, queue_booted board, rfl⟩
  · rcases hstate p _ hp with h | h <;> cases h
  · rcases hstate p _ hp with h | h <;> cases h

end Kernel

/-- One page of linear memory, all zero. -/
def page : List (BitVec 8) := List.replicate 65536 0#8

/-- The message at the beginning of a page. -/
def pageMsg : MsgRegs := decodeMsg ((page.drop (0#32).toNat).take msgBytes)

namespace Kernel

/-- `p` is dispatched first, with a page of memory. -/
def entered (k : Kernel) (p : Proc) : Kernel :=
  (k.setState p .running).setInstance p ⟨some page, false, 0⟩

/-- `p` found nobody on endpoint `e` to take the message on its page, and queues. -/
def enqueued (k : Kernel) (p : Proc) (reason : BlockReason) (e : ℕ) : Kernel :=
  let k := ((k.setMsgRegs p pageMsg).pop .receivers e).2
  ((k.push .senders e p).getD k).blockAndYield p reason e 0#32

section Page

variable {k : Kernel} {p : Proc} {slot : BitVec 32} {e : ℕ}

theorem page_room : (0#32).toNat + msgBytes ≤ page.length := by
  rw [page, List.length_replicate]
  decide

theorem readMsg_page (h : k.memoryOf p = some page) : k.readMsg p 0#32 = .ok pageMsg :=
  readMsg_of_room h page_room

/-- Sending or calling from a page, with nobody to receive it. -/
theorem doSendLike_page {op : Op} {reason : BlockReason}
    (hop : op = .send ∧ reason = .sendWait ∨ op = .call ∧ reason = .callWait)
    (hmemory : k.memoryOf p = some page) (he : k.resolveEndpoint p slot capRightWrite = .ok e)
    (hpop : ((k.setMsgRegs p pageMsg).pop .receivers e).1 = none)
    (hpush : (((k.setMsgRegs p pageMsg).pop .receivers e).2.push .senders e p).isSome = true) :
    k.doSendLike p slot 0#32 op = (none, k.enqueued p reason e) := by
  obtain ⟨k₁, hk₁⟩ := Option.isSome_iff_exists.mp hpush
  rw [doSendLike_of_push hop he (readMsg_page hmemory) hpop hk₁, enqueued, hk₁, Option.getD_some]

/-- An IPC operation that blocks its caller, as a turn: it succeeds as a step, and its effect is
that of the operation. -/
theorem turn_of_blocked {k' : Kernel} {op : Op} {msgPtr : BitVec 32} {inst : Tier1Slot}
    {reason : BlockReason} {epIdx : BitVec 8} (hrun : k.stateAt p = some .running)
    (himpl : k.ipcImpl p op slot msgPtr = (none, k'))
    (hblocked : k'.stateAt p = some (.blocked reason epIdx)) (hinst : k'.tier1Pool p = some inst) :
    k.turn (.ipc p op slot msgPtr) = some (k'.setInstance p { inst with parked := true }) := by
  rw [turn, if_pos hrun, himpl, afterHostFn, settleBlocked_of_blocked hblocked hinst]

end Page

end Kernel

/-- Process 2 queues to send on the demo endpoint, and process 3, whose memory has no pages,
receives there with a buffer at address 0. -/
def lostSender : List LoadStep :=
  [.turn (.dispatch 2 (some (some page))), .turn (.ipc 2 .send 3#32 0#32),
    .turn (.dispatch 3 (some (some []))), .turn (.ipc 3 .recv 3#32 0#32)]

namespace Kernel

/-- Process 2 has been dispatched after boot, and runs. -/
def senderRuns : Kernel := (booted .qemu).entered 2

/-- Process 2 is queued to send, and its invocation parked. -/
def senderWaits : Kernel :=
  (senderRuns.enqueued 2 .sendWait 2).setInstance 2 ⟨some page, true, 0⟩

theorem ipcImpl_senderRuns :
    senderRuns.ipcImpl 2 .send 3#32 0#32 = (none, senderRuns.enqueued 2 .sendWait 2) := by
  rw [ipcImpl, ipcSendImpl]
  exact doSendLike_page (.inl ⟨rfl, rfl⟩) rfl rfl rfl rfl

theorem turn_senderRuns : senderRuns.turn (.ipc 2 .send 3#32 0#32) = some senderWaits :=
  turn_of_blocked rfl ipcImpl_senderRuns rfl rfl

end Kernel

/-- **A sender is lost**: process 2 stays blocked, and is in no queue. -/
theorem lost_sender : ¬ loadMachine.Along Loading.CoherentStep
    (.idle ⟨Kernel.booted .qemu, Kernel.booted_idle .qemu⟩) lostSender := by
  intro h
  have hfirst : loadMachine.step (.idle ⟨Kernel.booted .qemu, Kernel.booted_idle .qemu⟩)
      (.turn (.dispatch 2 (some (some page)))) = some ⟨Kernel.senderRuns, none⟩ :=
    loadMachine_turn rfl
  have h₁ := ((Machine.along_cons hfirst).mp h).2
  have h₂ := ((Machine.along_cons (loadMachine_turn Kernel.turn_senderRuns)).mp h₁).2
  have h₃ := ((Machine.along_cons (loadMachine_turn rfl)).mp h₂).2
  obtain ⟨-, hcoherent, -⟩ := ((Machine.along_cons (loadMachine_turn rfl)).mp h₃).1
  have hmem := (hcoherent.senders 2 2).1.mpr (.inl ⟨2#8, rfl, rfl⟩)
  exact absurd hmem (by decide)

end Wari
