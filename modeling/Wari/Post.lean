import Wari.Agent
import Wari.Bystander

/-!
# Where the guard is

The guard's loop and its seat in the kernel agree: the guard runs, or sleeps in a read
and is registered for the next record, or was woken from there with `1` to return. What the
others do moves it from sleep to ready at most (`Post.beside`), and its own steps move it as
the loop says.
-/

namespace Wari

open Lib (Bytes readAt writeAt)

/-- The agent is in its read: it has nothing to print, and is not about to leave. -/
def GuardAgent.Idle (a : GuardAgent) : Prop := a.todo = [] ∧ a.leaves = false

/-- The agent is at its end: it has printed why, and leaves. -/
def GuardAgent.Done (a : GuardAgent) : Prop := a.todo = [] ∧ a.leaves = true

namespace Kernel

/-- The seat of `p` where the agent stands so. The five cases are the only ones there are: a guard
that is entered has an instance until it is over, it is parked only inside its read, and it is on
the list of waiters exactly while it sleeps there. -/
inductive Post (k : Kernel) (p : Proc) : Option GuardAgent → Prop where
  /-- it was not entered yet -/
  | out (hpool : k.tier1Pool p = none) (hring : p ∉ k.ringWaiterList)
      (hrun : k.stateAt p ≠ some .running)
      (hblocked : ∀ reason epIdx, k.stateAt p ≠ some (.blocked reason epIdx)) : Post k p none
  | runs {a : GuardAgent} {slot : Tier1Slot} {memory : Bytes}
      (hstate : k.stateAt p = some .running) (hslot : k.tier1Pool p = some slot)
      (hmem : slot.memory = some memory) (hring : p ∉ k.ringWaiterList) : Post k p (some a)
  /-- it waits for a record -/
  | waits {a : GuardAgent} {slot : Tier1Slot} {memory : Bytes} (hstate : k.awaitsRecord p)
      (hslot : k.tier1Pool p = some slot) (hmem : slot.memory = some memory)
      (hparked : slot.parked = true) (hring : p ∈ k.ringWaiterList) (hidle : a.Idle) :
      Post k p (some a)
  /-- there is one -/
  | woken {a : GuardAgent} {slot : Tier1Slot} {memory : Bytes}
      (hstate : k.stateAt p = some .ready) (hslot : k.tier1Pool p = some slot)
      (hmem : slot.memory = some memory) (hparked : slot.parked = true)
      (hresume : slot.pendingResume = 1) (hring : p ∉ k.ringWaiterList) (hidle : a.Idle) :
      Post k p (some a)
  /-- it has exited -/
  | left {a : GuardAgent} (hpool : k.tier1Pool p = none) (hring : p ∉ k.ringWaiterList)
      (hover : k.overAt p) (hdone : a.Done) : Post k p (some a)

section Post

variable {k k' : Kernel} {p : Proc} {o : Option GuardAgent} {a : GuardAgent}

theorem wait_of_overAt (h : k.overAt p) : k.rendezvous.wait p = none := by
  obtain ⟨s, hs, hover⟩ := h
  rw [wait_of_stateAt hs]
  cases s <;> first | rfl | exact hover.elim

/-- The guard waits at no endpoint: it calls no IPC operation. -/
theorem Post.wait (h : k.Post p o) : k.rendezvous.wait p = none := by
  cases h with
  | out _ _ _ hblocked =>
    by_contra hwait
    obtain ⟨w, hw⟩ := Option.ne_none_iff_exists'.mp hwait
    obtain ⟨reason, epIdx, hstate, -⟩ := stateAt_of_wait hw
    exact hblocked reason epIdx hstate
  | runs hstate => exact wait_of_stateAt hstate
  | waits hstate =>
    obtain ⟨epIdx, hstate⟩ := hstate
    exact wait_of_stateAt hstate
  | woken hstate => exact wait_of_stateAt hstate
  | left _ _ hover => exact wait_of_overAt hover

/-- Once it was entered, it is in the table of processes. -/
theorem Post.inTable (h : k.Post p (some a)) : k.processes p ≠ none := by
  have hstate : ∀ {s}, k.stateAt p = some s → k.processes p ≠ none := by
    intro s hs hnone
    rw [stateAt, hnone] at hs
    cases hs
  cases h with
  | runs hs => exact hstate hs
  | waits hs =>
    obtain ⟨epIdx, hs⟩ := hs
    exact hstate hs
  | woken hs => exact hstate hs
  | left _ _ hover =>
    obtain ⟨s, hs, -⟩ := hover
    exact hstate hs

/-- Only a guard that sleeps awaits a record, and then it stands in the set. -/
theorem Post.awaits (h : k.Post p o) (hwait : k.awaitsRecord p) :
    p ∈ k.ringWaiterList ∧ ∃ a, o = some a ∧ a.Idle := by
  obtain ⟨epIdx, hwait⟩ := hwait
  cases h with
  | out _ _ _ hblocked => exact (hblocked _ _ hwait).elim
  | runs hstate => cases hstate.symm.trans hwait
  | waits _ _ _ _ hring hidle => exact ⟨hring, _, rfl, hidle⟩
  | woken hstate => cases hstate.symm.trans hwait
  | left _ _ hover =>
    obtain ⟨s, hs, hover⟩ := hover
    obtain rfl := Option.some.inj (hs.symm.trans hwait)
    exact hover.elim

/-- Only one that is at its end is over. -/
theorem Post.overs (h : k.Post p (some a)) (hover : k.overAt p) : a.Done := by
  obtain ⟨s, hs, hover⟩ := hover
  cases h with
  | runs hstate =>
    obtain rfl := Option.some.inj (hs.symm.trans hstate)
    exact hover.elim
  | waits hstate =>
    obtain ⟨epIdx, hstate⟩ := hstate
    obtain rfl := Option.some.inj (hs.symm.trans hstate)
    exact hover.elim
  | woken hstate =>
    obtain rfl := Option.some.inj (hs.symm.trans hstate)
    exact hover.elim
  | left _ _ _ hdone => exact hdone

/-- **The others** wake the guard where it sleeps, and do nothing else to it. The two inductive
types are taken apart together: what the others can do, and where the guard may be when they do
it. -/
theorem Post.beside (h : k.Post p o) (hbeside : k.Beside k' p) : k'.Post p o := by
  cases hbeside with
  | still hproc hpool hring =>
    have hstate := stateAt_congr hproc
    cases h with
    | out hpool' hring' hrun hblocked =>
      exact .out (hpool.trans hpool') (fun h => hring' (hring.mp h)) (hstate ▸ hrun)
        fun reason epIdx => hstate ▸ hblocked reason epIdx
    | runs hstate' hslot hmem hring' =>
      exact .runs (hstate.trans hstate') (hpool.trans hslot) hmem fun h => hring' (hring.mp h)
    | waits hstate' hslot hmem hparked hring' hidle =>
      exact .waits ((awaitsRecord_congr hstate).mpr hstate') (hpool.trans hslot) hmem hparked
        (hring.mpr hring') hidle
    | woken hstate' hslot hmem hparked hresume hring' hidle =>
      exact .woken (hstate.trans hstate') (hpool.trans hslot) hmem hparked hresume
        (fun h => hring' (hring.mp h)) hidle
    | left hpool' hring' hover hdone =>
      exact .left (hpool.trans hpool') (fun h => hring' (hring.mp h))
        ((overAt_congr hproc).mpr hover) hdone
  | woken hmem hgone hproc hpool =>
    cases h with
    | out _ hring => exact (hring hmem).elim
    | runs _ _ _ hring => exact (hring hmem).elim
    | @waits a slot memory hstate hslot hmemory hparked _ hidle =>
      rw [hslot] at hpool
      refine @Post.woken k' p a { slot with pendingResume := 1 } memory ?_ hpool hmemory hparked
        rfl hgone hidle
      obtain ⟨epIdx, hstate⟩ := hstate
      obtain ⟨proc, hbefore, hblocked⟩ := Option.map_eq_some_iff.mp hstate
      rw [stateAt, hproc, hbefore]
      change some proc.wake.state = _
      rw [Process.state_wake, hblocked]
      rfl
    | woken _ _ _ _ _ hring => exact (hring hmem).elim
    | left _ hring => exact (hring hmem).elim
  | @spawned proc hfree hproc hready hpool hring =>
    cases o with
    | none =>
      cases h with
      | out hpool' hring' =>
        have hstate : k'.stateAt p = some .ready := by
          rw [stateAt, hproc, ← hready]
          rfl
        refine .out (hpool hpool') (fun h => hring' (hring h)) ?_ fun reason epIdx => ?_
        · rw [hstate]
          simp
        · rw [hstate]
          simp
    | some a => exact (h.inTable hfree).elim

/-- Whoever runs waits for nothing, and does not stand in the set. -/
theorem Post.not_waiting (h : k.Post p o) (hrun : k.stateAt p = some .running) :
    p ∉ k.ringWaiterList := by
  cases h with
  | out _ hring => exact hring
  | runs _ _ _ hring => exact hring
  | waits hstate => exact (not_awaits_of_running hrun hstate).elim
  | woken _ _ _ _ _ hring => exact hring
  | left _ hring => exact hring

/-! ## The guard's own steps

Only the guard itself changes which of the five cases it is in, apart from being woken. Each lemma
takes a turn of the guard and says where it is afterwards, and that the endpoints are as they
were. -/

/-- The running guard has another memory after it computed, and is otherwise where it was. -/
theorem post_compute {memory : Bytes} (h : k.Post p (some a))
    (hturn : k.turn (.compute p memory) = some k') (a' : GuardAgent) :
    k'.Post p (some a') ∧ k'.endpoint? = k.endpoint? ∧ k'.memoryOf p = some memory ∧
      k'.stateAt p = some .running ∧ k'.events = k.events := by
  rcases turn_cases hturn with ⟨q, image, heq, -⟩ | ⟨q, m, slot, heq, hrun, hslot, rfl⟩ |
    ⟨q, op, slot, ptr, heq, -⟩ | ⟨q, lo, hi, ptr, heq, -⟩ | ⟨q, ending, heq, -⟩
  · cases heq
  · obtain ⟨rfl, rfl⟩ := Turn.compute.inj heq
    have hself : (k.setInstance p { slot with memory := some memory }).tier1Pool p =
        some { slot with memory := some memory } := by
      rw [tier1Pool_setInstance, if_pos rfl]
    refine ⟨.runs hrun hself rfl (h.not_waiting hrun), rfl, ?_, hrun, rfl⟩
    rw [memoryOf, hself]
    rfl
  · cases heq
  · cases heq
  · cases heq

/-- A flush leaves an instance with a memory, if it had one. -/
theorem flush_hasMemory {slot slot' : Tier1Slot} {memory : Bytes}
    (hslot : k.tier1Pool p = some slot) (hmem : slot.memory = some memory)
    (h : (k.flushMsgToLinmem p).tier1Pool p = some slot') :
    ∃ memory', slot'.memory = some memory' := by
  have hsame : k.tier1Pool p = some slot' → ∃ memory', slot'.memory = some memory' := by
    intro h'
    obtain rfl := Option.some.inj (hslot.symm.trans h')
    exact ⟨memory, hmem⟩
  simp only [flushMsgToLinmem, tier1Pool_modifyProcess, hslot, hmem] at h
  split at h
  · exact hsame h
  · split at h
    · exact hsame h
    · split at h
      · exact hsame h
      · rw [tier1Pool_setInstance, if_pos rfl] at h
        obtain rfl := Option.some.inj h
        exact ⟨_, rfl⟩

/-- Whoever is entered has a memory: the one that it had, or that of the image. -/
theorem dispatch_hasMemory {image : Option Bytes} {slot' : Tier1Slot}
    (hready : k.stateAt p = some .ready)
    (hmem : ∀ slot, k.tier1Pool p = some slot → ∃ memory, slot.memory = some memory)
    (hslot' : (k.dispatch p (image.map some)).tier1Pool p = some slot') :
    ∃ memory, slot'.memory = some memory := by
  have hrun : (k.setState p .running).stateAt p = some .running := by
    rw [stateAt_setState, if_pos rfl, hready]
    rfl
  have hfinish : ∀ {k₁ : Kernel}, k₁.stateAt p = some .running →
      (k₁.finish p .faulted).tier1Pool p ≠ some slot' := by
    intro k₁ hrun₁ hsome
    rw [(finish_ended hrun₁ .faulted).instance_gone] at hsome
    cases hsome
  simp only [dispatch] at hslot'
  rcases hpool : k.tier1Pool p with _ | slot
  · have hnone : (k.setState p .running).tier1Pool p = none := hpool
    rw [if_neg (by simp [isLive, hnone])] at hslot'
    cases image with
    | none => exact (hfinish hrun hslot').elim
    | some memory =>
      rw [Option.map_some, start, tier1Pool_setInstance, if_pos rfl] at hslot'
      obtain rfl := Option.some.inj hslot'
      exact ⟨memory, rfl⟩
  · obtain ⟨memory, hmemory⟩ := hmem slot hpool
    have hsome : (k.setState p .running).tier1Pool p = some slot := hpool
    obtain ⟨-, hstate, -, hflush⟩ := (k.setState p .running).flushMsgToLinmem_local p
    obtain ⟨slot₁, hslot₁, -, -⟩ := hflush slot hsome
    obtain ⟨memory₁, hmemory₁⟩ := flush_hasMemory hsome hmemory hslot₁
    rw [if_pos (by simp [isLive, hsome]), resume, hslot₁] at hslot'
    simp only at hslot'
    split at hslot'
    · rw [tier1Pool_setInstance, if_pos rfl] at hslot'
      obtain rfl := Option.some.inj hslot'
      exact ⟨memory₁, hmemory₁⟩
    · exact (hfinish (by rw [hstate, hrun]) hslot').elim

/-- **The guard is dispatched**: it starts, if its module loads, or returns from its read with
`1`. A module that does not load ends the tenant, which has then printed nothing. -/
theorem post_dispatch {image : Option Bytes} (h : k.Post p o)
    (hturn : k.turn (.dispatch p (image.map some)) = some k') :
    k'.endpoint? = k.endpoint? ∧
      ((o = none ∧ k'.tier1Pool p = none ∧ k'.Post p none) ∨
        ∃ slot', k'.tier1Pool p = some slot' ∧ (∀ a', k'.Post p (some a')) ∧
          (o = none ∨ slot'.pendingResume = 1 ∧ ∃ a, o = some a ∧ a.Idle)) := by
  have hdispatch : k.stateAt p = some .ready ∧ k' = k.dispatch p (image.map some) := by
    simp only [turn] at hturn
    split at hturn
    · rename_i hready
      exact ⟨hready.1, (Option.some.inj hturn).symm⟩
    · cases hturn
  obtain ⟨hready, rfl⟩ := hdispatch
  have hentered : k.Entered (k.dispatch p (image.map some)) p → p ∉ k.ringWaiterList →
      (∀ slot, k.tier1Pool p = some slot → ∃ memory, slot.memory = some memory) →
      ∃ slot', (k.dispatch p (image.map some)).tier1Pool p = some slot' ∧
        (∀ a', (k.dispatch p (image.map some)).Post p (some a')) ∧
          ∀ slot, k.tier1Pool p = some slot → slot'.pendingResume = slot.pendingResume := by
    intro hentered hring hmem
    obtain ⟨slot', hslot', -, hsame⟩ := hentered.live
    obtain ⟨memory, hmemory⟩ := dispatch_hasMemory hready hmem hslot'
    refine ⟨slot', hslot', fun a' => .runs hentered.state hslot' hmemory ?_, fun slot hslot =>
      (hsame slot hslot).2⟩
    rw [ringWaiterList, hentered.seat.events]
    exact hring
  cases h with
  | out hpool hring =>
    have hnone : ∀ slot, k.tier1Pool p = some slot → ∃ memory, slot.memory = some memory := by
      intro slot hslot
      rw [hpool] at hslot
      cases hslot
    rcases dispatch_effect hready (image.map some) with hin | ⟨hended, -⟩
    · obtain ⟨slot', hslot', hpost, -⟩ := hentered hin hring hnone
      exact ⟨hin.seat.endpoints, .inr ⟨slot', hslot', hpost, .inl rfl⟩⟩
    · refine ⟨hended.endpoints,
        .inl ⟨rfl, hended.instance_gone, .out hended.instance_gone ?_ ?_ ?_⟩⟩
      · rw [hended.ring]
        exact List.not_mem_nil
      · rw [hended.state]
        simp [Ending.state]
      · intro reason epIdx
        rw [hended.state]
        simp [Ending.state]
  | runs hstate => cases hready.symm.trans hstate
  | waits hstate =>
    obtain ⟨epIdx, hstate⟩ := hstate
    cases hready.symm.trans hstate
  | @woken a slot memory hstate hslot hmem hparked hresume hring hidle =>
    have hmemory : ∀ slot₁, k.tier1Pool p = some slot₁ → ∃ m, slot₁.memory = some m := by
      intro slot₁ hslot₁
      obtain rfl := Option.some.inj (hslot.symm.trans hslot₁)
      exact ⟨memory, hmem⟩
    rcases dispatch_effect hready (image.map some) with hin | ⟨-, hnot⟩
    · obtain ⟨slot', hslot', hpost, hsame⟩ := hentered hin hring hmemory
      exact ⟨hin.seat.endpoints, .inr ⟨slot', hslot', hpost,
        .inr ⟨(hsame slot hslot).trans hresume, a, rfl, hidle⟩⟩⟩
    · cases (hnot slot hslot).symm.trans hparked
  | left _ _ hover =>
    obtain ⟨s, hs, hover⟩ := hover
    obtain rfl := Option.some.inj (hs.symm.trans hready)
    exact hover.elim

/-- **The guard exits**, which it does only when it is done. -/
theorem post_finish {ending : Ending} (hdone : a.Done)
    (hturn : k.turn (.finish p ending) = some k') :
    k'.endpoint? = k.endpoint? ∧ k'.Post p (some a) := by
  simp only [turn] at hturn
  split at hturn
  · rename_i hrun
    obtain rfl := Option.some.inj hturn
    have hended := finish_ended hrun ending
    refine ⟨hended.endpoints, .left hended.instance_gone ?_ ⟨_, hended.state, ending.over⟩ hdone⟩
    rw [hended.ring]
    exact List.not_mem_nil
  · cases hturn

/-- What is in the 16 bytes at `ptr`. -/
def bufferAt (k : Kernel) (p : Proc) (ptr : BitVec 32) : Bytes :=
  ((k.memoryOf p).bind fun memory => readAt memory ptr.toNat 16).getD []

/-- What a read of the guard comes to: a refusal, where the capability is gone; sleep, on the list
of waiters; or a record in the guard's own memory, with the kernel otherwise unchanged. -/
inductive Readings (k : Kernel) (p : Proc) (cursor : BitVec 64) (outPtr : BitVec 32) :
    Option ℤ → Kernel → Prop where
  /-- it has no right to -/
  | denied {rc : ℤ} (hrc : rc < 0) (hdenied : k.caps.checkCap (p, slotEventlog) .eventLog
      capRightRead ≠ .ok ()) : Readings k p cursor outPtr (some rc) k
  /-- there is nothing, and no room to wait -/
  | full (hfull : k.registerWaiter p = none) : Readings k p cursor outPtr (some 1) k
  /-- there is a record, and it is in the buffer -/
  | got {rc : ℤ} {e : Event} {k' : Kernel}
      (hread : rc = 0 ∧ k.events.readAt cursor = .record e ∨
        rc = 2 ∧ k.events.readAt cursor = .lagged e)
      (hevents : k'.events = k.events) (hendpoints : k'.endpoint? = k.endpoint?)
      (hpost : ∀ a, k'.Post p (some a)) (hbuf : k'.bufferAt p outPtr = encodeEvent e) :
      Readings k p cursor outPtr (some rc) k'
  /-- there is nothing, and the guard sleeps -/
  | slept {k' : Kernel} (hread : k.events.readAt cursor = .upToDate)
      (hnext : k'.events.nextSeq = k.events.nextSeq) (hendpoints : k'.endpoint? = k.endpoint?)
      (hwaits : k'.awaitsRecord p) (hpost : ∀ a : GuardAgent, a.Idle → k'.Post p (some a)) :
      Readings k p cursor outPtr none k'

/-- A registered process is among those who wait. -/
theorem registerWaiter_mem {k₁ : Kernel} (h : k.registerWaiter p = some k₁) :
    p ∈ k₁.ringWaiterList ∧ k₁.events.nextSeq = k.events.nextSeq := by
  simp only [registerWaiter] at h
  split at h
  · rename_i hthere
    obtain rfl := Option.some.inj h
    exact ⟨mem_ringWaiterList.mpr hthere, rfl⟩
  · split at h
    · cases h
    · rename_i i _
      obtain rfl := Option.some.inj h
      exact ⟨mem_ringWaiterList.mpr ⟨i, Function.update_self _ _ _⟩, rfl⟩

/-- A record is handed over where there is room. -/
theorem returnEvent_got (h : k.Post p (some a)) (hrun : k.stateAt p = some .running)
    {memory : Bytes} {outPtr : BitVec 32} (hmem : k.memoryOf p = some memory)
    (hfits : outPtr.toNat + 16 ≤ memory.length) (e : Event) (rc : ℤ) :
    ∃ k₁, k.returnEvent p outPtr e rc = (some rc, k₁) ∧ k₁.events = k.events ∧
      k₁.endpoint? = k.endpoint? ∧ (∀ a', k₁.Post p (some a')) ∧
        k₁.bufferAt p outPtr = encodeEvent e := by
  have hring := h.not_waiting hrun
  obtain ⟨slot, hslot, hmemory⟩ := Option.bind_eq_some_iff.mp hmem
  have hlen : (encodeEvent e).length = 16 := by simp [encodeEvent]
  have hroom : (writeAt memory outPtr.toNat (encodeEvent e)).isSome = true :=
    Lib.writeAt_isSome.mpr (by rw [hlen]; exact hfits)
  obtain ⟨memory', hwrite⟩ := Option.isSome_iff_exists.mp hroom
  have hok : k.writeMemory p outPtr (encodeEvent e) =
      .ok (k.setInstance p { slot with memory := some memory' }) := by
    simp only [writeMemory, hslot, hmemory, hwrite]
  have hself : (k.setInstance p { slot with memory := some memory' }).tier1Pool p =
      some { slot with memory := some memory' } := by
    rw [tier1Pool_setInstance, if_pos rfl]
  refine ⟨k.setInstance p { slot with memory := some memory' }, by simp only [returnEvent, hok],
    rfl, rfl, fun a' => .runs hrun hself rfl hring, ?_⟩
  have hread := Lib.readAt_writeAt hwrite
  rw [hlen] at hread
  rw [bufferAt, memoryOf, hself]
  simp [hread]

/-- **The guard reads.** What `event_read` did is one of the `Readings`, and the seat afterwards
is the one the answer says: asleep without an answer, running with one. -/
theorem post_read (h : k.Post p (some a)) (hrun : k.stateAt p = some .running) {memory : Bytes}
    {cursor : BitVec 64} {lo hi outPtr : BitVec 32} (hmem : k.memoryOf p = some memory)
    (hfits : outPtr.toNat + 16 ≤ memory.length) (hcursor : hi ++ lo = cursor)
    (hturn : k.turn (.eventRead p lo hi outPtr) = some k') :
    k.Readings p cursor outPtr (k.eventReadImpl p lo hi outPtr).1 k' := by
  have hk' : k' = afterHostFn p (k.eventReadImpl p lo hi outPtr) := by
    simp only [turn, hrun, if_true] at hturn
    exact (Option.some.inj hturn).symm
  subst hk'
  rcases hcap : k.caps.checkCap (p, slotEventlog) .eventLog capRightRead with rc | ⟨⟩
  · have hout : k.eventReadImpl p lo hi outPtr = (some ePerm, k) := by rw [eventReadImpl, hcap]
    rw [hout]
    exact .denied (by decide) (by simp [hcap])
  rcases hread : k.events.readAt cursor with _ | e | e
  · rcases hreg : k.registerWaiter p with _ | k₁
    · have hout : k.eventReadImpl p lo hi outPtr = (some 1, k) := by
        simp only [eventReadImpl, hcap, hcursor, hread, hreg]
      rw [hout]
      exact .full hreg
    · have hout : k.eventReadImpl p lo hi outPtr =
          (none, k₁.modifyProcess p fun proc => proc.block .eventWait eventWaitSentinel) := by
        simp only [eventReadImpl, hcap, hcursor, hread, hreg]
      rw [hout]
      obtain ⟨slot, hslot, hmemory⟩ := Option.bind_eq_some_iff.mp hmem
      obtain ⟨hin, hnext⟩ := registerWaiter_mem hreg
      obtain ⟨⟨events, rfl⟩, -⟩ := registerWaiter_ok hreg
      generalize hk₂ : Kernel.modifyProcess _ p
        (fun proc => proc.block .eventWait eventWaitSentinel) = k₂
      have hstate : k₂.stateAt p = some (.blocked .eventWait eventWaitSentinel) := by
        rw [← hk₂, stateAt_modifyProcess (g := fun _ => .blocked .eventWait eventWaitSentinel)
          _ _ _ fun _ => rfl, if_pos rfl]
        change (k.stateAt p).map _ = _
        rw [hrun]
        rfl
      have hslot₂ : k₂.tier1Pool p = some slot := by
        rw [← hk₂]
        exact hslot
      have hsettle : afterHostFn p (none, k₂) = k₂.setInstance p { slot with parked := true } :=
        settleBlocked_of_blocked hstate hslot₂
      have hin₂ : p ∈ k₂.ringWaiterList := by
        rw [← hk₂]
        exact hin
      rw [hsettle]
      refine .slept hread ?_ ?_ ⟨_, hstate⟩ fun a ha => ?_
      · rw [← hk₂]
        exact hnext
      · rw [← hk₂]
        rfl
      · exact .waits ⟨_, hstate⟩ ((tier1Pool_setInstance _ _ _ _).trans (if_pos rfl)) hmemory rfl
          hin₂ ha
  · obtain ⟨k₁, hout, hevents, hendpoints, hpost, hbuf⟩ := returnEvent_got h hrun hmem hfits e 0
    have hout' : k.eventReadImpl p lo hi outPtr = (some 0, k₁) := by
      simp only [eventReadImpl, hcap, hcursor, hread, hout]
    rw [hout']
    exact .got (.inl ⟨rfl, hread⟩) hevents hendpoints hpost hbuf
  · obtain ⟨k₁, hout, hevents, hendpoints, hpost, hbuf⟩ := returnEvent_got h hrun hmem hfits e 2
    have hout' : k.eventReadImpl p lo hi outPtr = (some 2, k₁) := by
      simp only [eventReadImpl, hcap, hcursor, hread, hout]
    rw [hout']
    exact .got (.inr ⟨rfl, hread⟩) hevents hendpoints hpost hbuf

end Post

end Kernel

end Wari
