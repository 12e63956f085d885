import Wari.System
import Wari.Stream

/-!
# Guards

A guard reads the audit stream until it has caught up, and is then blocked until there is
one more record. Three things have to agree for it to wake: the process table, the set of
waiters, and the stream. `Guards.Attended` says how, and holds in every state the system
reaches, whoever reads, emits and is scheduled in whatever order. Only what it says of the
next read needs the sequence numbers not to have wrapped.
-/

namespace Wari

open Lib (Machine)

/-! ## The machine

Any process may be a guard. What is kept of it is the cursor of a read that blocked, since the
promise is about what it finds there when it runs again. -/

/-- What can happen next: a record is emitted from outside, a tenant takes a turn, or the registry
is called. -/
inductive GuardCall where
  /-- a record is emitted -/
  | emit (kind : EventKind) (a : BitVec 16) (b : BitVec 32)
  /-- the scheduler and the tenants it runs -/
  | turn (t : Turn)
  /-- an envelope arrives -/
  | stage (bytes : List (BitVec 8))
  /-- a staged slot is spawned -/
  | spawn (slot : BitVec 8) (requested : GrantSpec) (restartBudget : BitVec 8)

/-- Waiting for a record: blocked on the stream, for whatever number. -/
def Kernel.awaitsRecord (k : Kernel) (p : Proc) : Prop :=
  ∃ epIdx, k.stateAt p = some (.blocked .eventWait epIdx)

/-- The kernel, and what its stream and its guards went through. -/
structure Guards where
  kernel : Kernel
  /-- how many records were emitted since the stream began -/
  emitted : ℕ
  /-- the cursor of the read at which a process last blocked, if it was not above the next
  number -/
  asked : Proc → Option (BitVec 64)

namespace Guards

/-- A step to `k`: a step emits fewer records than there are numbers, so they are told from
the next one. -/
def move (s : Guards) (k : Kernel) : Guards :=
  { s with
    kernel := k
    emitted := s.emitted + (k.events.nextSeq - s.kernel.events.nextSeq).toNat }

/-- What a read of `p` at `cursor`, with the result `rc`, leaves of the cursors. -/
def askedAfter (s : Guards) (p : Proc) (cursor : BitVec 64) (rc : Option ℤ) :
    Proc → Option (BitVec 64) :=
  Function.update s.asked p
    (if rc = none ∧ cursor ≤ s.kernel.events.nextSeq then some cursor else none)

/-- What a turn leaves of the cursors: a read that blocks its process notes the one it was made
with. -/
def askedBy (s : Guards) : Turn → Proc → Option (BitVec 64)
  | .eventRead p cursorLo cursorHi outPtr =>
    s.askedAfter p (cursorHi ++ cursorLo) (s.kernel.eventReadImpl p cursorLo cursorHi outPtr).1
  | _ => s.asked

/-- One step of the kernel, with a count of the records and a note of the cursors. -/
def step (ed25519 : Ed25519) (s : Guards) : GuardCall → Option Guards
  | .emit kind a b => some (s.move (s.kernel.emit kind a b))
  | .turn t => (s.kernel.turn t).map fun k => { s.move k with asked := s.askedBy t }
  | .stage bytes => some (s.move (s.kernel.stage bytes).2)
  | .spawn slot requested restartBudget =>
    some (s.move (s.kernel.spawnInner ed25519 slot requested restartBudget).2)

end Guards

/-- Any processes, between turns and with nobody blocked, and a stream with any past. -/
def guardMachine (ed25519 : Ed25519) : Machine Guards GuardCall where
  init s := s.kernel.Idle ∧ s.kernel.events.nextSeq = BitVec.ofNat 64 s.emitted ∧
    ∀ p, s.asked p = none
  step := Guards.step ed25519

/-! ## What is promised

In every state, and of every step that makes a record. -/

/-- Whoever waited is ready, with `1` to return, and nobody waits any more. -/
structure Kernel.AllWoken (k k' : Kernel) : Prop where
  empty : ∀ i, k'.events.ringWaiters i = none
  ready : ∀ p, k.awaitsRecord p → k'.stateAt p = some .ready ∧
    ∃ slot, k'.tier1Pool p = some slot ∧ slot.parked = true ∧ slot.pendingResume = 1

/-- A read returns a record, unless `p` has no right to it, or no room for it. -/
def Kernel.FindsRecord (k : Kernel) (p : Proc) (cursorLo cursorHi outPtr : BitVec 32) : Prop :=
  ∃ e rc, (rc = 0 ∨ rc = 2) ∧ k.eventReadImpl p cursorLo cursorHi outPtr =
    match k.caps.checkCap (p, slotEventlog) .eventLog capRightRead with
    | .error _ => (some ePerm, k)
    | .ok () => k.returnEvent p outPtr e rc

namespace Guards

/-- Process table and set of waiters agree, there is room in the set for whoever runs, and one
more record wakes everybody. If the set were too small, a guard would spin; if it lost an entry,
one would sleep for good. -/
structure Attended (s : Guards) : Prop where
  waiting : ∀ p, s.kernel.awaitsRecord p → ∃! i, s.kernel.events.ringWaiters i = some p
  waiter : ∀ i p, s.kernel.events.ringWaiters i = some p → s.kernel.awaitsRecord p
  room : ∀ p, s.kernel.stateAt p = some .running → ∃ k, s.kernel.registerWaiter p = some k
  wakes : ∀ kind a b, s.kernel.AllWoken (s.kernel.emit kind a b)

/-- A process that was blocked, and runs again, finds a record at its cursor. -/
def Answered (s : Guards) : Prop :=
  ∀ p cursor, s.asked p = some cursor → s.kernel.stateAt p = some .running →
    ∀ cursorLo cursorHi outPtr, cursorHi ++ cursorLo = cursor →
      s.kernel.FindsRecord p cursorLo cursorHi outPtr

/-- A step that emits a record wakes everybody who waited for one. -/
def EmitWakes (s s' : Guards) : Prop :=
  s'.emitted ≠ s.emitted → s.kernel.AllWoken s'.kernel

end Guards

/-! ## A read

A cursor that is behind always finds a record, be it the oldest one left. -/

/-- A cursor below the next number has a record: its own, or the oldest one left. -/
theorem Events.readAt_of_lt {events : Events} {cursor : BitVec 64}
    (h : cursor < events.nextSeq) :
    ∃ e, events.readAt cursor = .record e ∨ events.readAt cursor = .lagged e := by
  rw [readAt, readPlan, if_neg (BitVec.not_le.mpr h)]
  simp only
  by_cases hlagged : cursor < saturatingSub events.nextSeq (BitVec.ofNat 64 ringCapacity)
  · rw [if_pos hlagged]
    exact ⟨_, .inr rfl⟩
  · rw [if_neg hlagged]
    exact ⟨_, .inl rfl⟩

theorem Events.readAt_upToDate {events : Events} {cursor : BitVec 64} :
    events.readAt cursor = .upToDate ↔ events.nextSeq ≤ cursor := by
  refine ⟨fun h => ?_, fun h => ?_⟩
  · by_contra hlt
    obtain ⟨e, he | he⟩ := readAt_of_lt (BitVec.not_le.mp hlt) <;>
    · rw [h] at he
      cases he
  · rw [readAt, readPlan, if_pos h]

/-- So a read there finds it, and does not block. -/
theorem Kernel.findsRecord {k : Kernel} {cursorLo cursorHi : BitVec 32}
    (h : cursorHi ++ cursorLo < k.events.nextSeq) (p : Proc) (outPtr : BitVec 32) :
    k.FindsRecord p cursorLo cursorHi outPtr := by
  obtain ⟨e, he⟩ := Events.readAt_of_lt h
  rcases he with he | he
  · refine ⟨e, 0, .inl rfl, ?_⟩
    rcases hcap : k.caps.checkCap (p, slotEventlog) .eventLog capRightRead with _ | _ <;>
    · simp only [eventReadImpl, hcap, he]
  · refine ⟨e, 2, .inr rfl, ?_⟩
    rcases hcap : k.caps.checkCap (p, slotEventlog) .eventLog capRightRead with _ | _ <;>
    · simp only [eventReadImpl, hcap, he]

/-! ## Records a step emits

A step may make several records. Waking is part of each, so what counts is whether there was any.
-/

namespace Kernel

/-- From `k` to `k'` there are `n` records. With none the waiters are who they were, and with any
there are none left. It composes, by adding the records up. -/
structure Told (k k' : Kernel) (n : ℕ) : Prop where
  next : k'.events.nextSeq = k.events.nextSeq + BitVec.ofNat 64 n
  silent : n = 0 → k'.events.ringWaiters = k.events.ringWaiters
  heard : 0 < n → ∀ i, k'.events.ringWaiters i = none

section Told

variable {k k₁ k₂ : Kernel} {m n : ℕ}

theorem Told.of_events (h : k₁.events = k.events) : k.Told k₁ 0 :=
  ⟨by rw [h]; exact (BitVec.add_zero _).symm, fun _ => by rw [h], fun h => by omega⟩

theorem Told.trans (h₁ : k.Told k₁ m) (h₂ : k₁.Told k₂ n) : k.Told k₂ (m + n) := by
  refine ⟨?_, fun h => ?_, fun h i => ?_⟩
  · rw [h₂.next, h₁.next, BitVec.ofNat_add, BitVec.add_assoc]
  · rw [h₂.silent (by omega), h₁.silent (by omega)]
  · rcases Nat.eq_zero_or_pos n with hn | hn
    · rw [h₂.silent hn]
      exact h₁.heard (by omega) i
    · exact h₂.heard hn i

theorem told_emit (k : Kernel) (kind : EventKind) (a : BitVec 16) (b : BitVec 32) :
    k.Told (k.emit kind a b) 1 := by
  refine ⟨?_, nofun, fun _ i => ?_⟩
  · rw [events_emit]
    rfl
  · rw [ringWaiters_emit]

theorem told_emitEnding (k : Kernel) (p : Proc) (ending : Ending) :
    k.Told (k.emitEnding p ending) 1 := by
  cases ending <;> exact told_emit _ _ _ _

/-- A record after something that emits nothing is one record in all. -/
theorem Told.emit (h : k₁.events = k.events) (kind : EventKind) (a : BitVec 16) (b : BitVec 32) :
    k.Told (k₁.emit kind a b) 1 := by
  simpa using (Told.of_events h).trans (told_emit k₁ kind a b)

theorem registerTenant_events {b : BitVec 8} {tier : Tier} {moduleId : ModuleId}
    (h : k.registerTenant b tier moduleId = .ok k₁) : k₁.events = k.events := by
  obtain ⟨r, -, -, rfl⟩ := register_ok h
  rfl

theorem restart_events (k : Kernel) (idx : Fin dynSlots) (grants : GrantSpec) :
    (k.restart idx grants).2.events = k.events := by
  simp only [restart]
  rcases k.allocProcId with rc | r
  · rfl
  · simp only
    rcases installTier1Grants k.caps (procByte r) grants with rc | caps
    · rfl
    · simp only
      rcases hreg : Kernel.registerTenant { k with caps := caps } (procByte r) .one
        (.dynamic (BitVec.ofNat 8 idx.val)) with rc | k₁
      · rfl
      · exact (registerTenant_events hreg :)

theorem told_onTenantTerminated (k : Kernel) (p : Proc) :
    ∃ n ≤ 1, k.Told (k.onTenantTerminated p) n := by
  simp only [onTenantTerminated]
  rcases k.daemonOf p with _ | ⟨idx, restartsLeft, grants, off, len⟩
  · exact ⟨0, by omega, .of_events rfl⟩
  · refine ⟨1, le_refl 1, ?_⟩
    simp only
    split
    · apply Told.emit
      rfl
    · have hevents := k.restart_events idx grants
      generalize k.restart idx grants = out at hevents
      obtain ⟨rc | newPid, k₁⟩ := out
      · apply Told.emit
        exact hevents
      · apply Told.emit
        exact hevents

/-- The end of a tenant is a record, and so may be what comes of it. -/
theorem told_finish (k : Kernel) (p : Proc) (ending : Ending) :
    ∃ n ≤ 2, 0 < n ∧ k.Told (k.finish p ending) n := by
  have hending : k.Told (((k.release p).emitEnding p ending).setState p ending.state) 1 := by
    have h := (k.release p).told_emitEnding p ending
    exact ⟨h.next, h.silent, h.heard⟩
  obtain ⟨n, hn, htold⟩ := told_onTenantTerminated
    (((k.release p).emitEnding p ending).setState p ending.state) p
  exact ⟨1 + n, by omega, by omega, hending.trans htold⟩

/-- A tenant that cannot be entered is at its end. -/
theorem told_dispatch (k : Kernel) (p : Proc) (image : Option (Option (List (BitVec 8)))) :
    ∃ n ≤ 2, k.Told (k.dispatch p image) n := by
  have hfinish : ∀ {k₁ : Kernel}, k₁.events = k.events →
      ∃ n ≤ 2, k.Told (k₁.finish p .faulted) n := by
    intro k₁ hk₁
    obtain ⟨n, hn, -, h⟩ := k₁.told_finish p .faulted
    exact ⟨n, hn, by simpa using (Told.of_events hk₁).trans h⟩
  have hquiet : ∀ {k₁ : Kernel}, k₁.events = k.events → ∃ n ≤ 2, k.Told k₁ n :=
    fun hk₁ => ⟨0, by omega, .of_events hk₁⟩
  simp only [dispatch]
  split
  · have hflush := ((k.setState p .running).flushMsgToLinmem_local p).1.events
    simp only [resume]
    split
    · exact hfinish hflush
    · split
      · exact hquiet hflush
      · exact hfinish hflush
  · simp only [start]
    split
    · exact hfinish rfl
    · exact hquiet rfl

theorem told_stage (k : Kernel) (bytes : List (BitVec 8)) :
    ∃ n ≤ 1, k.Told (k.stage bytes).2 n := by
  rw [stage]
  split
  · exact ⟨0, by omega, .of_events rfl⟩
  · split
    · exact ⟨0, by omega, .of_events rfl⟩
    · refine ⟨1, le_refl 1, ?_⟩
      apply Told.emit
      rfl

theorem told_spawnInner (ed25519 : Ed25519) (k : Kernel) (slot : BitVec 8)
    (requested : GrantSpec) (restartBudget : BitVec 8) :
    ∃ n ≤ 2, k.Told (k.spawnInner ed25519 slot requested restartBudget).2 n := by
  have hquiet : ∃ n ≤ 2, k.Told k n := ⟨0, by omega, .of_events rfl⟩
  rw [spawnInner]
  split
  · rename_i hidx
    simp only
    rcases k.modreg.slots ⟨slot.toNat, hidx⟩ with _ | envLen | _
    · exact hquiet
    · simp only
      rcases verify ed25519 (k.envelope ⟨slot.toNat, hidx⟩ envLen) with e | payload
      · have h := k.told_emit .spawnRejected (slot.setWidth 16) 0#32
        exact ⟨1, by omega, h.next, h.silent, h.heard⟩
      · rcases k.allocProcId with e | r
        · exact hquiet
        · simp only
          rcases installTier1Grants k.caps (procByte r) (requested.attenuate dynamicCeiling) with
            e | caps
          · exact hquiet
          · simp only
            generalize hk₁ : (if (requested.denied (requested.attenuate dynamicCeiling)).isEmpty
              then ({ k with caps := caps } : Kernel) else _) = k₁
            have hrecord : ∃ n ≤ 1, k.Told k₁ n := by
              rw [← hk₁]
              split
              · exact ⟨0, by omega, .of_events rfl⟩
              · refine ⟨1, le_refl 1, ?_⟩
                apply Told.emit
                rfl
            obtain ⟨n, hn, htold⟩ := hrecord
            rcases hreg : k₁.registerTenant (procByte r) .one (.dynamic slot) with e | k₂
            · exact ⟨n, by omega, htold⟩
            · have hlast := registerTenant_events hreg
              refine ⟨n + 1, by omega, htold.trans ?_⟩
              apply Told.emit
              exact hlast
    · exact hquiet
  · exact hquiet

end Told

/-! ## What a step does to those who wait

Each process is either left waiting or let go and woken. A step that does this to all of them is
heard. -/

/-- `q` is ready, with `1` for its call to return when it is dispatched. -/
def Woken (k : Kernel) (q : Proc) : Prop :=
  k.stateAt q = some .ready ∧
    ∃ slot, k.tier1Pool q = some slot ∧ slot.parked = true ∧ slot.pendingResume = 1

/-- There are `n` records, and each process waits as before, or is let go and woken. This is what
the steps of everybody else come to, for those who wait. -/
structure Hears (k k' : Kernel) (n : ℕ) : Prop where
  told : k.Told k' n
  each : ∀ q, ¬ k.LetGo k' q ∧ (k'.awaitsRecord q ↔ k.awaitsRecord q) ∨
    k.LetGo k' q ∧ k'.Woken q

section Hears

variable {k k' : Kernel} {n : ℕ} {q : Proc}

theorem awaitsRecord_congr (h : k'.stateAt q = k.stateAt q) :
    k'.awaitsRecord q ↔ k.awaitsRecord q := by
  rw [awaitsRecord, awaitsRecord, h]

theorem not_awaitsRecord {s : ProcessState} (h : k.stateAt q = some s)
    (hs : ∀ epIdx, s ≠ .blocked .eventWait epIdx) : ¬ k.awaitsRecord q := by
  rintro ⟨epIdx, hq⟩
  exact hs epIdx (Option.some.inj (h.symm.trans hq))

theorem mem_ring_of_silent (h : k'.events.ringWaiters = k.events.ringWaiters) :
    k'.ringWaiterList = k.ringWaiterList := by
  rw [ringWaiterList, ringWaiterList, h]

/-- Whoever is stirred waits as before, or is woken. -/
theorem Stirred.hears (h : k.Stirred k' q) (hseat : k.Seated) :
    ¬ k.LetGo k' q ∧ (k'.awaitsRecord q ↔ k.awaitsRecord q) ∨ k.LetGo k' q ∧ k'.Woken q := by
  have hpool := h.pool
  by_cases hgo : k.LetGo k' q
  · refine .inr ⟨hgo, ?_⟩
    obtain ⟨epIdx, hevent⟩ := hseat.ring q hgo.1
    obtain ⟨slot, hslot, hparked⟩ := hseat.parked q _ _ hevent
    rw [if_pos hgo, hslot] at hpool
    refine ⟨?_, _, hpool, hparked, rfl⟩
    rw [stateAt, Option.map_eq_some_iff] at hevent
    obtain ⟨proc, hproc, hstate⟩ := hevent
    rcases h.process with hproc' | ⟨hfree, -⟩
    · rw [if_pos hgo, hproc] at hproc'
      rw [stateAt, hproc']
      change some proc.wake.state = _
      rw [Process.state_wake, hstate]
      rfl
    · rw [hproc] at hfree
      cases hfree
  · refine .inl ⟨hgo, ?_⟩
    rcases h.process with hproc | ⟨hfree, proc, hproc, hready⟩
    · rw [if_neg hgo] at hproc
      exact awaitsRecord_congr (stateAt_congr hproc)
    · -- a new process is ready, and was nobody before
      have hnew : k'.stateAt q = some .ready := by
        rw [stateAt, hproc, ← hready]
        rfl
      refine iff_of_false (not_awaitsRecord hnew (by simp)) ?_
      rintro ⟨epIdx, hq⟩
      rw [stateAt, hfree] at hq
      cases hq

/-- Whoever does not wait before is not let go. -/
theorem not_letGo_of_not_awaits (hseat : k.Seated) (hq : ¬ k.awaitsRecord q) : ¬ k.LetGo k' q :=
  fun hgo => hq (hseat.ring q hgo.1)

/-- What stirs all but one process, which does not wait, is heard. -/
theorem Told.hears {p : Proc} (h : k.Told k' n) (hseat : k.Seated)
    (hothers : ∀ q, q ≠ p → k.Stirred k' q) (hp : ¬ k.awaitsRecord p)
    (hp' : ¬ k'.awaitsRecord p) : k.Hears k' n := by
  refine ⟨h, fun q => ?_⟩
  by_cases hq : q = p
  · subst hq
    exact .inl ⟨not_letGo_of_not_awaits hseat hp, iff_of_false hp' hp⟩
  · exact (hothers q hq).hears hseat

/-- What stirs everyone at most, and tells so many records, is heard by everyone who waits. -/
theorem Told.hears_all (h : k.Told k' n) (hseat : k.Seated) (hall : ∀ q, k.Stirred k' q) :
    k.Hears k' n :=
  ⟨h, fun q => (hall q).hears hseat⟩

/-- With no record, what leaves everyone waiting as before is heard. -/
theorem Hears.of_awaits (hevents : k'.events = k.events)
    (h : ∀ q, k'.awaitsRecord q ↔ k.awaitsRecord q) : k.Hears k' 0 := by
  refine ⟨.of_events hevents, fun q => .inl ⟨fun hgo => hgo.2 ?_, h q⟩⟩
  rw [mem_ring_of_silent (congrArg Events.ringWaiters hevents)]
  exact hgo.1

theorem hears_emit (hseat : k.Seated) (kind : EventKind) (a : BitVec 16) (b : BitVec 32) :
    k.Hears (k.emit kind a b) 1 :=
  (k.told_emit kind a b).hears_all hseat fun q => emit_stirred k kind a b q

/-- A record wakes everybody, as whoever waits stands in the set. -/
theorem Hears.allWoken (h : k.Hears k' n) (hn : 0 < n)
    (hheard : ∀ p, k.awaitsRecord p → p ∈ k.ringWaiterList) : k.AllWoken k' := by
  refine ⟨h.told.heard hn, fun p hp => ?_⟩
  rcases h.each p with ⟨hstay, -⟩ | ⟨-, hwoken⟩
  · refine (hstay ⟨hheard p hp, fun hmem => ?_⟩).elim
    obtain ⟨i, hi⟩ := mem_ringWaiterList.mp hmem
    rw [h.told.heard hn i] at hi
    cases hi
  · exact hwoken

end Hears

/-! ## Turns

Of all turns only a read that has caught up makes anybody wait, and that one is the reader itself.
-/

section Turns

variable {k k' : Kernel} {p : Proc}

/-- An IPC operation leaves nobody waiting for a record who did not before. -/
theorem IpcEffect.not_eventWait {slot msgPtr : BitVec 32} {op : Op} {rc : Option ℤ}
    (h : IpcEffect k p slot msgPtr op (rc, k')) {q : Proc} (hq : k'.awaitsRecord q) :
    k.awaitsRecord q := by
  obtain ⟨epIdx, hq⟩ := hq
  have hwoken : ∀ {o : Option ProcessState},
      o.map ProcessState.woken ≠ some (.blocked .eventWait epIdx) := by
    intro o ho
    obtain ⟨s, -, hs⟩ := Option.map_eq_some_iff.mp ho
    cases s <;> cases hs
  have hblock : ∀ {o : Option ProcessState} {reason : BlockReason} {e : BitVec 8},
      reason ≠ .eventWait →
        o.map (fun _ => ProcessState.blocked reason e) ≠ some (.blocked .eventWait epIdx) := by
    intro o reason e hne ho
    obtain ⟨s, -, hs⟩ := Option.map_eq_some_iff.mp ho
    exact hne (ProcessState.blocked.inj hs).1
  refine ⟨epIdx, ?_⟩
  cases h with
  | refused => exact hq
  | full =>
    rw [stateAt_setMsgRegs] at hq
    exact hq
  | sent =>
    simp only [stateAt_deliverAndWake, stateAt_setQueue, stateAt_setMsgRegs] at hq
    split at hq
    · exact (hwoken hq).elim
    · exact hq
  | called =>
    simp only [stateAt_blockAndYield, stateAt_deliverAndWake, stateAt_setQueue,
      stateAt_setMsgRegs] at hq
    split at hq
    · exact (hblock (by decide) hq).elim
    · split at hq
      · exact (hwoken hq).elim
      · exact hq
  | queued hop =>
    simp only [stateAt_blockAndYield, stateAt_setQueue, stateAt_setMsgRegs] at hq
    split at hq
    · refine (hblock ?_ hq).elim
      rcases hop with ⟨-, rfl⟩ | ⟨-, rfl⟩ <;> decide
    · exact hq
  | received =>
    simp only [stateAt_deliverAndWake, stateAt_setInstance, stateAt_setQueue] at hq
    split at hq
    · exact (hwoken hq).elim
    · exact hq
  | receivedCall =>
    rw [stateAt_modifyProcess (g := fun _ => .blocked .replyWait _) _ _ _ fun _ => rfl] at hq
    split at hq
    · exact (hblock (by decide) hq).elim
    · exact hq
  | dropped => exact hq
  | awaited =>
    simp only [stateAt_blockAndYield, stateAt_setQueue] at hq
    split at hq
    · exact (hblock (by decide) hq).elim
    · exact hq
  | replied =>
    simp only [stateAt_deliverAndWake] at hq
    split at hq
    · exact (hwoken hq).elim
    · exact hq

/-- Once a host function is done the stream is as it left it. -/
theorem afterHostFn_events {rc : Option ℤ} {slot : Tier1Slot} (hslot : k.tier1Pool p = some slot)
    (hself : rc.isSome = true ∨ ∃ reason epIdx, k.stateAt p = some (.blocked reason epIdx)) :
    (afterHostFn p (rc, k)).events = k.events := by
  rcases rc with _ | rc
  · rcases hself with hrc | ⟨reason, epIdx, hblocked⟩
    · cases hrc
    · change (k.settleBlocked p).events = _
      rw [settleBlocked_of_blocked hblocked hslot]
      rfl
  · rfl

/-- A tenant that runs waits for nothing. -/
theorem not_awaits_of_running (hp : k.stateAt p = some .running) : ¬ k.awaitsRecord p :=
  not_awaitsRecord hp nofun

/-- Handing a record over never blocks, also where the caller's pointer is bad. -/
theorem returnEvent_ne_none (k : Kernel) (p : Proc) (outPtr : BitVec 32) (e : Event) (rc : ℤ) :
    (k.returnEvent p outPtr e rc).1 ≠ none := by
  simp only [returnEvent]
  split <;> exact Option.some_ne_none _

/-- What a read comes to: the stream and the states stay, or the reader joins the set and is
blocked. -/
theorem eventReadImpl_cases (k : Kernel) (p : Proc) (cursorLo cursorHi outPtr : BitVec 32) :
    ((k.eventReadImpl p cursorLo cursorHi outPtr).1 ≠ none ∧
        (k.eventReadImpl p cursorLo cursorHi outPtr).2.events = k.events ∧
        (k.eventReadImpl p cursorLo cursorHi outPtr).2.stateAt = k.stateAt) ∨
      k.events.nextSeq ≤ cursorHi ++ cursorLo ∧ ∃ k₁, k.registerWaiter p = some k₁ ∧
        k.eventReadImpl p cursorLo cursorHi outPtr =
          (none, k₁.modifyProcess p fun proc => proc.block .eventWait eventWaitSentinel) := by
  have hreturn : ∀ e rc, (k.returnEvent p outPtr e rc).1 ≠ none ∧
      (k.returnEvent p outPtr e rc).2.events = k.events ∧
      (k.returnEvent p outPtr e rc).2.stateAt = k.stateAt := by
    intro e rc
    refine ⟨k.returnEvent_ne_none p outPtr e rc, ?_⟩
    simp only [returnEvent]
    rcases hwrite : k.writeMemory p outPtr (encodeEvent e) with rc' | k'
    · exact ⟨rfl, rfl⟩
    · obtain ⟨slot, memory, -, rfl⟩ := writeMemory_ok hwrite
      exact ⟨rfl, rfl⟩
  simp only [eventReadImpl]
  split
  · exact .inl ⟨Option.some_ne_none _, rfl, rfl⟩
  · split
    · rename_i hread
      rcases hreg : k.registerWaiter p with _ | k₁
      · exact .inl ⟨Option.some_ne_none _, rfl, rfl⟩
      · exact .inr ⟨Events.readAt_upToDate.mp hread, k₁, rfl, rfl⟩
    · exact .inl (hreturn _ 0)
    · exact .inl (hreturn _ 2)

/-- Joining the set takes a free place, for somebody who was not in it. -/
theorem registerWaiter_cases {k₁ : Kernel} (h : k.registerWaiter p = some k₁)
    (hnew : ∀ i, k.events.ringWaiters i ≠ some p) :
    ∃ i, k.events.ringWaiters i = none ∧ k₁ = { k with
      events := { k.events with
        ringWaiters := Function.update k.events.ringWaiters i (some p) } } := by
  rw [registerWaiter, if_neg (not_exists.mpr hnew)] at h
  split at h
  · cases h
  · rename_i i hfind
    have hfree : (k.events.ringWaiters i).isNone = true := (find?_finRange hfind).1
    exact ⟨i, Option.isNone_iff_eq_none.mp hfree, (Option.some.inj h).symm⟩

/-- A set without `p`, in which nobody is twice, has room for `p`. -/
theorem registerWaiter_isSome (hnew : ∀ i, k.events.ringWaiters i ≠ some p)
    (honce : ∀ i j q, k.events.ringWaiters i = some q → k.events.ringWaiters j = some q → i = j) :
    ∃ k₁, k.registerWaiter p = some k₁ := by
  rw [registerWaiter, if_neg (not_exists.mpr hnew)]
  split
  · rename_i hfind
    -- a full set has as many members as there are processes
    have hfull : ∀ i, ∃ q, k.events.ringWaiters i = some q := by
      intro i
      have hi := List.find?_eq_none.mp hfind i (List.mem_finRange i)
      exact Option.ne_none_iff_exists'.mp fun hnone => hi (by rw [hnone]; rfl)
    choose who hwho using hfull
    have hinj : Function.Injective who := fun i j hij =>
      honce i j (who i) (hwho i) (hij ▸ hwho j)
    obtain ⟨i, hi⟩ := Finite.surjective_of_injective hinj p
    exact (hnew i (hi ▸ hwho i)).elim
  · exact ⟨_, rfl⟩

end Turns

end Kernel

namespace Kernel

/-- **What a turn does to those who wait**: it is heard, or the tenant that runs has caught
up and joins them. -/
theorem turn_hears {k k' : Kernel} {t : Turn} (hs : k.rendezvous.Sound) (hseat : k.Seated)
    (h : k.turn t = some k') :
    (∃ n ≤ 2, k.Hears k' n) ∧ (∀ p cursorLo cursorHi outPtr,
        t = .eventRead p cursorLo cursorHi outPtr →
          (k.eventReadImpl p cursorLo cursorHi outPtr).1 ≠ none) ∨
      ∃ p cursorLo cursorHi outPtr k₁, t = .eventRead p cursorLo cursorHi outPtr ∧
        k.stateAt p = some .running ∧ k.registerWaiter p = some k₁ ∧
        (k.eventReadImpl p cursorLo cursorHi outPtr).1 = none ∧
        k' = afterHostFn p
          (none, k₁.modifyProcess p fun proc => proc.block .eventWait eventWaitSentinel) := by
  rcases turn_cases h with ⟨p, image, rfl, hready, rfl⟩ | ⟨p, memory, slot, rfl, hrun, hslot, rfl⟩ |
    ⟨p, op, slot, msgPtr, rfl, hrun, rfl⟩ | ⟨p, lo, hi, ptr, rfl, hrun, rfl⟩ |
    ⟨p, ending, rfl, hrun, rfl⟩
  · refine .inl ⟨?_, by simp⟩
    have hp : ¬ k.awaitsRecord p := not_awaitsRecord hready (by simp)
    rcases dispatch_effect hready image with hentered | ⟨hended, -⟩
    · refine ⟨0, by omega, .of_awaits hentered.seat.events fun q => ?_⟩
      by_cases hq : q = p
      · subst hq
        exact iff_of_false (not_awaits_of_running hentered.state) hp
      · exact awaitsRecord_congr (stateAt_congr (hentered.seat.others q hq).1)
    · obtain ⟨n, hn, htold⟩ := told_dispatch k p image
      exact ⟨n, hn, htold.hears hseat hended.others hp
        (not_awaitsRecord hended.state (by simp [Ending.state]))⟩
  · exact .inl ⟨⟨0, by omega, .of_awaits rfl fun q => Iff.rfl⟩, by simp⟩
  · refine .inl ⟨⟨0, by omega, ?_⟩, by simp⟩
    have heffect := k.ipcImpl_effect p op slot msgPtr
    generalize k.ipcImpl p op slot msgPtr = out at heffect ⊢
    obtain ⟨rc, k₁⟩ := out
    obtain ⟨hmet, hself⟩ := heffect.met hs hrun
    obtain ⟨inst, hinst⟩ := hseat.running p hrun
    obtain ⟨inst', hinst', -⟩ := hmet.pool p inst hinst
    obtain ⟨-, hstate, -⟩ := hseat.afterHostFn hrun hmet.pool hmet.others
      (fun q hq => .inl (by rwa [ringWaiterList, hmet.events] at hq)) hself
    refine .of_awaits ?_ fun q => ?_
    · exact (afterHostFn_events hinst' (hself.imp And.left And.right)).trans hmet.events
    · rw [awaitsRecord_congr (congrFun hstate q)]
      refine ⟨heffect.not_eventWait, ?_⟩
      rintro ⟨epIdx, hq⟩
      refine ⟨epIdx, ?_⟩
      by_cases hqp : q = p
      · subst hqp
        cases hrun.symm.trans hq
      · exact Seated.still_waiting hq (hmet.others q hqp)
  · rcases k.eventReadImpl_cases p lo hi ptr with ⟨hrc, hevents, hstate⟩ | ⟨-, k₁, hreg, hout⟩
    · refine .inl ⟨⟨0, by omega, ?_⟩, fun p' lo' hi' ptr' ht => ?_⟩
      · generalize k.eventReadImpl p lo hi ptr = out at hrc hevents hstate ⊢
        obtain ⟨_ | rc, k₁⟩ := out
        · exact (hrc rfl).elim
        · exact .of_awaits hevents fun q => awaitsRecord_congr (congrFun hstate q)
      · obtain ⟨rfl, rfl, rfl, rfl⟩ := Turn.eventRead.inj ht
        exact hrc
    · refine .inr ⟨p, lo, hi, ptr, k₁, rfl, hrun, hreg, by rw [hout], by rw [hout]⟩
  · refine .inl ⟨?_, by simp⟩
    obtain ⟨n, hn, -, htold⟩ := k.told_finish p ending
    have hended := finish_ended hrun ending
    exact ⟨n, hn, htold.hears hseat hended.others (not_awaits_of_running hrun)
      (not_awaitsRecord hended.state (by cases ending <;> simp [Ending.state]))⟩

end Kernel

/-! ## What every step keeps

The table, the set and the stream agree. The invariant says so process by process. -/

namespace Guards

/-- What carries the guards along a run: who waits in the table is in the set, once, and blocked
at the end of the stream as it was then. -/
structure Inv (s : Guards) : Prop where
  sound : s.kernel.rendezvous.Sound
  seated : s.kernel.Seated
  heard : ∀ p, s.kernel.awaitsRecord p → p ∈ s.kernel.ringWaiterList
  once : ∀ i j p, s.kernel.events.ringWaiters i = some p →
    s.kernel.events.ringWaiters j = some p → i = j
  next : s.kernel.events.nextSeq = BitVec.ofNat 64 s.emitted
  asked : s.emitted < 2 ^ 64 → ∀ p cursor, s.asked p = some cursor →
    cursor.toNat ≤ s.emitted ∧ (¬ s.kernel.awaitsRecord p → cursor.toNat < s.emitted)

variable {s : Guards} {k : Kernel} {n : ℕ}

/-- How far the next number moves is how many records there were. -/
theorem emitted_move (h : s.kernel.Told k n) (hn : n < 2 ^ 64) :
    (s.move k).emitted = s.emitted + n := by
  change s.emitted + (k.events.nextSeq - s.kernel.events.nextSeq).toNat = _
  rw [h.next, BitVec.add_comm, BitVec.add_sub_cancel, BitVec.toNat_ofNat, Nat.mod_eq_of_lt hn]

theorem Inv.next_toNat (h : s.Inv) (hfew : s.emitted < 2 ^ 64) :
    s.kernel.events.nextSeq.toNat = s.emitted := by
  rw [h.next, BitVec.toNat_ofNat, Nat.mod_eq_of_lt hfew]

/-- **What is heard** keeps the invariant, as long as the count of the records does not come
round. -/
theorem Inv.move (h : s.Inv) (hh : s.kernel.Hears k n) (hn : n < 2 ^ 64)
    (hsound : k.rendezvous.Sound) (hseat : k.Seated) : (s.move k).Inv := by
  have hemitted := emitted_move hh.told hn
  have hstays : ∀ p, k.awaitsRecord p → s.kernel.awaitsRecord p ∧ ¬ s.kernel.LetGo k p := by
    intro p hp
    rcases hh.each p with ⟨hstay, hiff⟩ | ⟨-, hready, -⟩
    · exact ⟨hiff.mp hp, hstay⟩
    · exact (Kernel.not_awaitsRecord hready nofun hp).elim
  refine ⟨hsound, hseat, fun p hp => ?_, fun i j p hi hj => ?_, ?_, fun hfew p cursor hp => ?_⟩
  · obtain ⟨hbefore, hstay⟩ := hstays p hp
    by_contra hnot
    exact hstay ⟨h.heard p hbefore, hnot⟩
  · rcases Nat.eq_zero_or_pos n with hn₀ | hpos
    · change k.events.ringWaiters i = some p at hi
      change k.events.ringWaiters j = some p at hj
      rw [hh.told.silent hn₀] at hi hj
      exact h.once i j p hi hj
    · change k.events.ringWaiters i = some p at hi
      rw [hh.told.heard hpos] at hi
      cases hi
  · rw [hemitted, BitVec.ofNat_add, ← h.next]
    exact hh.told.next
  · obtain ⟨hle, hlt⟩ := h.asked (by omega) p cursor hp
    refine ⟨by omega, fun hnot => ?_⟩
    by_cases hbefore : s.kernel.awaitsRecord p
    · -- it was let go, so there was a record
      rcases hh.each p with ⟨-, hiff⟩ | ⟨hgo, -⟩
      · exact (hnot (hiff.mpr hbefore)).elim
      · have hpos : 0 < n := by
          by_contra hzero
          apply hgo.2
          rw [Kernel.mem_ring_of_silent (hh.told.silent (by omega))]
          exact hgo.1
        omega
    · have := hlt hbefore
      omega

/-- The invariant does not depend on the cursors of processes that have not blocked. -/
theorem Inv.forget {asked : Proc → Option (BitVec 64)} (h : s.Inv)
    (hasked : ∀ p, asked p = s.asked p ∨ asked p = none) :
    ({ s with asked := asked } : Guards).Inv := by
  refine ⟨h.sound, h.seated, h.heard, h.once, h.next, fun hfew p cursor hp => ?_⟩
  rcases hasked p with hsame | hnone
  · exact h.asked hfew p cursor (hsame ▸ hp)
  · change asked p = _ at hp
    rw [hnone] at hp
    cases hp

/-- A reader that has caught up joins the set, is blocked, and its invocation is parked. -/
theorem Inv.block (h : s.Inv) {p : Proc} (hp : s.kernel.stateAt p = some .running)
    {k₁ : Kernel} (hreg : s.kernel.registerWaiter p = some k₁) (cursor : BitVec 64)
    (hk : k = Kernel.afterHostFn p
      (none, k₁.modifyProcess p fun proc => proc.block .eventWait eventWaitSentinel))
    (hseat : k.Seated) (hsound : k.rendezvous.Sound) :
    ({ s.move k with asked := s.askedAfter p cursor none } : Guards).Inv ∧
      (s.move k).emitted = s.emitted := by
  have hnew : ∀ i, s.kernel.events.ringWaiters i ≠ some p := fun i hi =>
    Kernel.not_awaits_of_running hp (h.seated.ring p (Kernel.mem_ringWaiterList.mpr ⟨i, hi⟩))
  obtain ⟨i, hfree, rfl⟩ := Kernel.registerWaiter_cases hreg hnew
  obtain ⟨slot, hslot⟩ := h.seated.running p hp
  generalize hk₂ : Kernel.modifyProcess _ p (fun proc => proc.block .eventWait eventWaitSentinel) =
    k₂ at hk
  have hstate : ∀ q, k₂.stateAt q =
      if q = p then some (.blocked .eventWait eventWaitSentinel) else s.kernel.stateAt q := by
    intro q
    rw [← hk₂, Kernel.stateAt_modifyProcess (g := fun _ => .blocked .eventWait eventWaitSentinel)
      _ _ _ fun _ => rfl]
    change (if q = p then (s.kernel.stateAt p).map _ else s.kernel.stateAt q) = _
    rw [hp]
    rfl
  have hself : k₂.stateAt p = some (.blocked .eventWait eventWaitSentinel) := by
    rw [hstate, if_pos rfl]
  have hslot₂ : k₂.tier1Pool p = some slot := by
    rw [← hk₂]
    exact hslot
  have hsettle : k = k₂.setInstance p { slot with parked := true } := by
    rw [hk]
    exact Kernel.settleBlocked_of_blocked hself hslot₂
  have hstate' : ∀ q, k.stateAt q = k₂.stateAt q := by
    rw [hsettle]
    exact fun q => rfl
  have hring : k.events.ringWaiters =
      Function.update s.kernel.events.ringWaiters i (some p) := by
    rw [hsettle, ← hk₂]
    rfl
  have hnext : k.events.nextSeq = s.kernel.events.nextSeq := by
    rw [hsettle, ← hk₂]
    rfl
  have hwaits : ∀ q, q ≠ p → (k.awaitsRecord q ↔ s.kernel.awaitsRecord q) := by
    intro q hq
    apply Kernel.awaitsRecord_congr
    rw [hstate', hstate, if_neg hq]
  have hemitted : (s.move k).emitted = s.emitted := by
    change s.emitted + (k.events.nextSeq - s.kernel.events.nextSeq).toNat = _
    rw [hnext, BitVec.sub_self]
    rfl
  refine ⟨⟨hsound, hseat, fun q hq => ?_, fun j j' q hj hj' => ?_, ?_, fun hfew q c hq => ?_⟩,
    hemitted⟩
  · apply Kernel.mem_ringWaiterList.mpr
    change ∃ j, k.events.ringWaiters j = some q
    rw [hring]
    by_cases hqp : q = p
    · exact ⟨i, by rw [hqp, Function.update_self]⟩
    · obtain ⟨j, hj⟩ := Kernel.mem_ringWaiterList.mp (h.heard q ((hwaits q hqp).mp hq))
      refine ⟨j, ?_⟩
      rw [Function.update_of_ne, hj]
      rintro rfl
      rw [hfree] at hj
      cases hj
  · change k.events.ringWaiters j = some q at hj
    change k.events.ringWaiters j' = some q at hj'
    rw [hring, Function.update_apply] at hj hj'
    split at hj <;> split at hj'
    · rename_i hji hji'
      rw [hji, hji']
    · rw [Option.some.inj hj] at hnew
      exact (hnew j' hj').elim
    · rw [Option.some.inj hj'] at hnew
      exact (hnew j hj).elim
    · exact h.once j j' q hj hj'
  · change k.events.nextSeq = BitVec.ofNat 64 (s.move k).emitted
    rw [hnext, hemitted]
    exact h.next
  · change (s.move k).emitted < 2 ^ 64 at hfew
    change c.toNat ≤ (s.move k).emitted ∧ (¬ k.awaitsRecord q → c.toNat < (s.move k).emitted)
    rw [hemitted] at hfew ⊢
    change s.askedAfter p cursor none q = some c at hq
    rw [askedAfter, Function.update_apply] at hq
    split at hq
    · rename_i hqp
      split at hq
      · rename_i hle
        obtain rfl := Option.some.inj hq
        have hup : cursor.toNat ≤ s.kernel.events.nextSeq.toNat := hle.2
        rw [h.next_toNat hfew] at hup
        refine ⟨hup, fun hnot => (hnot ⟨eventWaitSentinel, ?_⟩).elim⟩
        rw [hqp, hstate', hself]
      · cases hq
    · rename_i hqp
      obtain ⟨hle, hlt⟩ := h.asked hfew q c hq
      exact ⟨hle, fun hnot => hlt fun hbefore => hnot ((hwaits q hqp).mpr hbefore)⟩

/-- **What a step keeps**, and a step that emits wakes everybody. Each kind of step comes to a few
records and a stirring of everybody. -/
theorem Inv.step {ed25519 : Ed25519} {s' : Guards} {c : GuardCall} (h : s.Inv)
    (hstep : s.step ed25519 c = some s') : s'.Inv ∧ s.EmitWakes s' := by
  -- a move that everybody hears
  have hmove : ∀ {k : Kernel} {n : ℕ}, s.kernel.Hears k n → n ≤ 2 → k.rendezvous.Sound → k.Seated →
      (s.move k).Inv ∧ s.EmitWakes (s.move k) := by
    intro k n hh hn hsound hseat
    refine ⟨h.move hh (by omega) hsound hseat, fun hne => hh.allWoken ?_ h.heard⟩
    rw [emitted_move hh.told (by omega)] at hne
    omega
  have hstirred : ∀ {k : Kernel} {n : ℕ}, s.kernel.Told k n → n ≤ 2 →
      (∀ q, s.kernel.Stirred k q) → (s.move k).Inv ∧ s.EmitWakes (s.move k) := by
    intro k n htold hn hall
    obtain ⟨hseat, hrend⟩ := Kernel.Stirred.seated hall h.seated
    exact hmove (htold.hears_all h.seated hall) hn (hrend ▸ h.sound) hseat
  cases c with
  | emit kind a b =>
    obtain rfl := Option.some.inj hstep
    exact hstirred (s.kernel.told_emit kind a b) (by omega) fun q => Kernel.emit_stirred _ _ _ _ q
  | stage bytes =>
    obtain rfl := Option.some.inj hstep
    obtain ⟨n, hn, htold⟩ := s.kernel.told_stage bytes
    exact hstirred htold (by omega) fun q => s.kernel.stage_stirred bytes q
  | spawn slot requested restartBudget =>
    obtain rfl := Option.some.inj hstep
    obtain ⟨n, hn, htold⟩ := s.kernel.told_spawnInner ed25519 slot requested restartBudget
    exact hstirred htold hn fun q => s.kernel.spawnInner_stirred ed25519 slot requested _ q
  | turn t =>
    obtain ⟨k, hk, rfl⟩ := Option.map_eq_some_iff.mp hstep
    obtain ⟨hseat, hrend⟩ := Kernel.turn_step h.sound h.seated hk
    have hsound : k.rendezvous.Sound := by
      rcases hrend with ⟨-, hsame | hrend⟩ | ⟨-, hdrop⟩
      · exact hsame ▸ h.sound
      · exact hrend.sound h.sound
      · exact hdrop.sound h.sound
    rcases Kernel.turn_hears h.sound h.seated hk with
      ⟨⟨n, hn, hh⟩, hread⟩ | ⟨p, lo, hi, ptr, k₁, rfl, hrun, hreg, hrc, hk'⟩
    · obtain ⟨hinv, hwakes⟩ := hmove hh hn hsound hseat
      refine ⟨hinv.forget fun p => ?_, hwakes⟩
      cases t with
      | eventRead q lo hi ptr =>
        change Function.update s.asked q _ p = s.asked p ∨ Function.update s.asked q _ p = none
        rw [if_neg fun hnone => hread q lo hi ptr rfl hnone.1, Function.update_apply]
        split
        · exact .inr rfl
        · exact .inl rfl
      | _ => exact .inl rfl
    · have hasked : s.askedBy (.eventRead p lo hi ptr) = s.askedAfter p (hi ++ lo) none := by
        rw [askedBy, hrc]
      rw [hasked]
      obtain ⟨hinv, hemitted⟩ := h.block hrun hreg (hi ++ lo) hk' hseat hsound
      exact ⟨hinv, fun hne => (hne hemitted).elim⟩

/-- What the invariant says of a state: everybody who waits stands in the set once, and nobody
else does. -/
theorem Inv.attended (h : s.Inv) : s.Attended := by
  refine ⟨fun p hp => ?_, fun i p hi => ?_, fun p hp => ?_, fun kind a b => ?_⟩
  · obtain ⟨i, hi⟩ := Kernel.mem_ringWaiterList.mp (h.heard p hp)
    exact ⟨i, hi, fun j hj => h.once j i p hj hi⟩
  · exact h.seated.ring p (Kernel.mem_ringWaiterList.mpr ⟨i, hi⟩)
  · refine Kernel.registerWaiter_isSome (fun i hi => ?_) h.once
    exact Kernel.not_awaits_of_running hp
      (h.seated.ring p (Kernel.mem_ringWaiterList.mpr ⟨i, hi⟩))
  · exact (Kernel.hears_emit h.seated kind a b).allWoken Nat.one_pos h.heard

/-- And of the reads of those that ran into the end of the stream. -/
theorem Inv.answered (h : s.Inv) (hfew : s.emitted < 2 ^ 64) : s.Answered := by
  intro p cursor hasked hrun cursorLo cursorHi outPtr hcursor
  apply Kernel.findsRecord
  rw [hcursor, BitVec.lt_def, h.next_toNat hfew]
  exact (h.asked hfew p cursor hasked).2 (Kernel.not_awaits_of_running hrun)

end Guards

/-- The kernel after boot, with a guard staged and spawned in the registry. -/
def guardSpawned : Kernel :=
  (((Kernel.booted .qemu).stage (acceptedPubkey ++ emptySignature)).2.spawnInner emptyVerifier
    0#8 .eventlog 0#8).2

/-- The stream is at its last number, and the next record will be the one at which the counter
wraps. -/
def lastNumber (ring : Fin ringCapacity → Event) : Guards :=
  ⟨{ guardSpawned with events := ⟨ring, 0xFFFFFFFFFFFFFFFF#64, fun _ => none⟩ },
    2 ^ 64 - 1, fun _ => none⟩

/-- The guard has read everything there is, and runs. -/
def caughtUp (ring : Fin ringCapacity → Event) : Kernel :=
  (lastNumber ring).kernel.dispatch 5 (some (some page))

/-- A turn is a step of the machine, with the cursors noted. -/
theorem Guards.step_turn {ed25519 : Ed25519} {s : Guards} {t : Turn} {k : Kernel}
    (h : s.kernel.turn t = some k) :
    (guardMachine ed25519).step s (.turn t) = some { s.move k with asked := s.askedBy t } := by
  change (s.kernel.turn t).map _ = _
  rw [h]
  rfl

end Wari
