import Wari.Process
import Mathlib.Tactic.FinCases

/-!
# The kernel state

Everything the kernel's statics hold that scheduling, IPC and the module registry
read or write, with the primitives they share: the process table, the pool of
live instances, and the audit stream, which wakes those blocked on it at every
record.
-/

namespace Wari

/-! ## The statics

One record for all of them. What a field is in the source is in its name. -/

/-- One live Tier-1 instance, with the part of its store that the host functions look at. -/
structure Tier1Slot where
  /-- the linear memory the module exports, if it does -/
  memory : Option (List (BitVec 8))
  /-- a suspended invocation is parked here -/
  parked : Bool
  /-- what the blocked host function returns when resumed -/
  pendingResume : ℤ

/-- What happened, as the audit stream tells it. -/
inductive EventKind where
  | moduleStaged
  | spawnVerified
  | spawnRejected
  | tenantExited
  | tenantFaulted
  | grantAttenuated
  | daemonRestarted
  | daemonGaveUp
  deriving DecidableEq, Repr

/-- The discriminant of a kind, which is never zero. -/
def EventKind.raw : EventKind → BitVec 16
  | .moduleStaged => 1#16
  | .spawnVerified => 2#16
  | .spawnRejected => 3#16
  | .tenantExited => 4#16
  | .tenantFaulted => 5#16
  | .grantAttenuated => 6#16
  | .daemonRestarted => 7#16
  | .daemonGaveUp => 8#16

/-- One audit record, with a kind that need not be one that is known. -/
structure Event where
  /-- sequence number -/
  seq : BitVec 64
  /-- discriminant -/
  kind : BitVec 16
  /-- first payload scalar -/
  a : BitVec 16
  /-- second payload scalar -/
  b : BitVec 32

/-- The number of records that the ring holds. -/
abbrev ringCapacity : ℕ := 128

/-- The audit stream, and the processes blocked on it. -/
structure Events where
  /-- the records -/
  ring : Fin ringCapacity → Event
  /-- next sequence number to assign -/
  nextSeq : BitVec 64
  /-- processes blocked in `event_read` -/
  ringWaiters : Fin maxProcs → Option Proc

/-- The stream with nothing recorded, and with nobody waiting. -/
def Events.new : Events := ⟨fun _ => ⟨0#64, 0#16, 0#16, 0#32⟩, 0#64, fun _ => none⟩

/-- `(seq as usize) & (RING_CAPACITY - 1)`. The capacity is a power of two, so that this is the
remainder. -/
def ringSlot (seq : BitVec 64) : Fin ringCapacity :=
  ⟨seq.toNat % ringCapacity, Nat.mod_lt _ (by decide)⟩

/-- Claim the slot for the next record, and the number it gets. -/
def Events.claim (events : Events) : Fin ringCapacity × BitVec 64 × Events :=
  (ringSlot events.nextSeq, events.nextSeq,
    { events with nextSeq := wrappingSucc events.nextSeq })

/-- Write the next record over the oldest, and count it. -/
def Events.append (events : Events) (kind : EventKind) (a : BitVec 16) (b : BitVec 32) : Events :=
  let (slot, seq, events) := events.claim
  { events with ring := Function.update events.ring slot ⟨seq, kind.raw, a, b⟩ }

/-- The number of modules that the registry has room for. -/
abbrev dynSlots : ℕ := 4

/-- The byte budget of a staged envelope. -/
def maxModuleBytes : ℕ := 256 * 1024

/-- The lifecycle of a registry slot: free, staged, live. -/
inductive SlotState where
  | free
  /-- envelope staged, not yet verified -/
  | staged (len : ℕ)
  /-- verified and registered -/
  | live (off len : ℕ) (procId : Proc) (grants : GrantSpec) (daemon : Bool)
      (restartsLeft : BitVec 8)

/-- The module registry: the envelopes that were staged, and what became of each. -/
structure Registry where
  /-- staged envelopes -/
  store : Fin dynSlots → List (BitVec 8)
  /-- slot states -/
  slots : Fin dynSlots → SlotState

/-- The registry with every slot free, and the store zeroed. -/
def Registry.new : Registry := ⟨fun _ => List.replicate maxModuleBytes 0#8, fun _ => .free⟩

/-- The kernel's statics, as far as scheduling, IPC, capabilities and the registry go: the state
of the development. -/
structure Kernel where
  /-- CSpaces and object pools -/
  caps : CapState
  /-- process table -/
  processes : Proc → Option Process
  /-- live instances -/
  tier1Pool : Proc → Option Tier1Slot
  /-- audit stream -/
  events : Events
  /-- module registry -/
  modreg : Registry

namespace Kernel

/-! ## Process table and instance pool

Writes to an entry that is not there do nothing, as the source's `if let Some` has it. -/

/-- `if let Some(p) = table[proc_id].as_mut()`: where there is no such process, nothing happens.
-/
def modifyProcess (k : Kernel) (p : Proc) (f : Process → Process) : Kernel :=
  { k with processes := Function.update k.processes p ((k.processes p).map f) }

/-- Wake the process at `p`. A process that is not blocked, or not there, is an
error in the source, and every caller ignores it. -/
def wake (k : Kernel) (p : Proc) : Kernel := k.modifyProcess p Process.wake

/-- Record the value the suspended host function returns on resume. -/
def setResumeValue (k : Kernel) (p : Proc) (rc : ℤ) : Kernel :=
  { k with
    tier1Pool := Function.update k.tier1Pool p
      ((k.tier1Pool p).map fun slot => { slot with pendingResume := rc }) }

/-- Drop a tenant's instance, with the memory and the invocation parked in it. -/
def release (k : Kernel) (p : Proc) : Kernel :=
  { k with tier1Pool := Function.update k.tier1Pool p none }

/-- Is there a live instance at `p`? A process may well be in the table without one. -/
def isLive (k : Kernel) (p : Proc) : Bool := (k.tier1Pool p).isSome

/-- A process table entry is written, if it is free. -/
def register (k : Kernel) (procId : BitVec 8) (proc : Process) : Except KernelError Kernel :=
  match procIndex? procId with
  | none => .error .invalidArgument
  | some p =>
    if (k.processes p).isSome then .error .invalidArgument
    else .ok { k with processes := Function.update k.processes p (some proc) }

/-- Register a Tier-2 driver, loaded but never scheduled. -/
def registerLibrary (k : Kernel) (procId : BitVec 8) (tier : Tier) (moduleId : ModuleId) :
    Except KernelError Kernel :=
  k.register procId (.newLibrary procId tier moduleId)

/-- Register a Tier-1 tenant, ready to run. Its instance comes when it is first dispatched. -/
def registerTenant (k : Kernel) (procId : BitVec 8) (tier : Tier) (moduleId : ModuleId) :
    Except KernelError Kernel :=
  k.register procId (.new procId tier moduleId)

section Process

variable (k : Kernel) (p q : Proc) (f : Process → Process)

@[simp] theorem caps_modifyProcess : (k.modifyProcess p f).caps = k.caps := rfl

@[simp] theorem modreg_modifyProcess : (k.modifyProcess p f).modreg = k.modreg := rfl

@[simp] theorem events_modifyProcess : (k.modifyProcess p f).events = k.events := rfl

@[simp] theorem tier1Pool_modifyProcess : (k.modifyProcess p f).tier1Pool = k.tier1Pool := rfl

@[simp] theorem processes_modifyProcess :
    (k.modifyProcess p f).processes q = if q = p then (k.processes q).map f else k.processes q := by
  by_cases h : q = p
  · subst h
    simp [modifyProcess]
  · simp [modifyProcess, h]

theorem modifyProcess_modifyProcess (g : Process → Process) :
    (k.modifyProcess p f).modifyProcess p g = k.modifyProcess p (g ∘ f) := by
  simp [modifyProcess, Option.map_map]

@[simp] theorem caps_wake : (k.wake p).caps = k.caps := rfl

@[simp] theorem modreg_wake : (k.wake p).modreg = k.modreg := rfl

@[simp] theorem events_wake : (k.wake p).events = k.events := rfl

@[simp] theorem tier1Pool_wake : (k.wake p).tier1Pool = k.tier1Pool := rfl

@[simp] theorem processes_wake :
    (k.wake p).processes q =
      if q = p then (k.processes q).map Process.wake else k.processes q :=
  k.processes_modifyProcess p q Process.wake

@[simp] theorem caps_setResumeValue (rc : ℤ) : (k.setResumeValue p rc).caps = k.caps := rfl

@[simp] theorem modreg_setResumeValue (rc : ℤ) : (k.setResumeValue p rc).modreg = k.modreg := rfl

@[simp] theorem events_setResumeValue (rc : ℤ) : (k.setResumeValue p rc).events = k.events := rfl

@[simp] theorem processes_setResumeValue (rc : ℤ) :
    (k.setResumeValue p rc).processes = k.processes := rfl

@[simp] theorem tier1Pool_setResumeValue (rc : ℤ) : (k.setResumeValue p rc).tier1Pool q =
    if q = p then (k.tier1Pool q).map fun slot => { slot with pendingResume := rc }
    else k.tier1Pool q := by
  by_cases h : q = p
  · subst h
    simp [setResumeValue]
  · simp [setResumeValue, h]

@[simp] theorem tier1Pool_release :
    (k.release p).tier1Pool q = if q = p then none else k.tier1Pool q :=
  Function.update_apply _ _ _ _

@[simp] theorem caps_release : (k.release p).caps = k.caps := rfl

@[simp] theorem modreg_release : (k.release p).modreg = k.modreg := rfl

@[simp] theorem events_release : (k.release p).events = k.events := rfl

@[simp] theorem processes_release : (k.release p).processes = k.processes := rfl

end Process

/-! ## The audit stream

A ring of 128 records and a number that only goes up. Each record wakes everybody who waits for
one, as part of making it. -/

/-- Register `procId` as blocked on the audit stream; `none` if the set is full. -/
def registerWaiter (k : Kernel) (p : Proc) : Option Kernel :=
  if ∃ i, k.events.ringWaiters i = some p then some k
  else
    match (List.finRange maxProcs).find? fun i => (k.events.ringWaiters i).isNone with
    | none => none
    | some i =>
      some { k with
        events := { k.events with
          ringWaiters := Function.update k.events.ringWaiters i (some p) } }

/-- The processes blocked on the stream, in the order they are woken. -/
def ringWaiterList (k : Kernel) : List Proc :=
  (List.finRange maxProcs).filterMap k.events.ringWaiters

/-- Hand one waiter its result and mark it ready. -/
def wakeRingWaiter (k : Kernel) (p : Proc) : Kernel := (k.setResumeValue p 1).wake p

/-- Wake every process that is blocked on the stream. The set is emptied first. -/
def wakeRingWaiters (k : Kernel) : Kernel :=
  k.ringWaiterList.foldl wakeRingWaiter
    { k with events := { k.events with ringWaiters := fun _ => none } }

/-- Append one record to the audit stream, and wake whoever waits for one. -/
def emit (k : Kernel) (kind : EventKind) (a : BitVec 16) (b : BitVec 32) : Kernel :=
  wakeRingWaiters { k with events := k.events.append kind a b }

theorem mem_ringWaiterList {k : Kernel} {p : Proc} :
    p ∈ k.ringWaiterList ↔ ∃ i, k.events.ringWaiters i = some p := by
  simp [ringWaiterList]

theorem foldl_wakeRingWaiter_frame (ps : List Proc) (k : Kernel) :
    (ps.foldl wakeRingWaiter k).caps = k.caps ∧ (ps.foldl wakeRingWaiter k).modreg = k.modreg ∧
      (ps.foldl wakeRingWaiter k).events = k.events := by
  induction ps generalizing k with
  | nil => exact ⟨rfl, rfl, rfl⟩
  | cons p ps ih => exact ih (k.wakeRingWaiter p)

theorem foldl_wakeRingWaiter_processes (ps : List Proc) (k : Kernel) (p : Proc) :
    (ps.foldl wakeRingWaiter k).processes p =
      if p ∈ ps then (k.processes p).map Process.wake else k.processes p := by
  induction ps generalizing k with
  | nil => rfl
  | cons q ps ih =>
    rw [List.foldl_cons, ih]
    have hq : (k.wakeRingWaiter q).processes p =
        if p = q then (k.processes p).map Process.wake else k.processes p := by
      rw [wakeRingWaiter, processes_wake, processes_setResumeValue]
    have hwake : ∀ o : Option Process,
        (o.map Process.wake).map Process.wake = o.map Process.wake := by
      intro o
      rw [Option.map_map]
      congr 1
      funext proc
      exact Process.wake_wake proc
    by_cases hpq : p = q
    · subst hpq
      rw [hq, if_pos rfl, hwake, ite_self, if_pos List.mem_cons_self]
    · rw [hq, if_neg hpq]
      simp [hpq]

theorem foldl_wakeRingWaiter_tier1Pool (ps : List Proc) (k : Kernel) (p : Proc) :
    (ps.foldl wakeRingWaiter k).tier1Pool p =
      if p ∈ ps then (k.tier1Pool p).map fun slot => { slot with pendingResume := 1 }
      else k.tier1Pool p := by
  induction ps generalizing k with
  | nil => rfl
  | cons q ps ih =>
    rw [List.foldl_cons, ih]
    have hq : (k.wakeRingWaiter q).tier1Pool p =
        if p = q then (k.tier1Pool p).map fun slot => { slot with pendingResume := 1 }
        else k.tier1Pool p := by
      rw [wakeRingWaiter, tier1Pool_wake, tier1Pool_setResumeValue]
    by_cases hpq : p = q
    · subst hpq
      rw [hq, if_pos rfl, Option.map_map, if_pos List.mem_cons_self]
      exact ite_self _
    · rw [hq, if_neg hpq]
      simp [hpq]

@[simp] theorem caps_emit (k : Kernel) (kind : EventKind) (a : BitVec 16) (b : BitVec 32) :
    (k.emit kind a b).caps = k.caps :=
  (foldl_wakeRingWaiter_frame _ _).1

@[simp] theorem modreg_emit (k : Kernel) (kind : EventKind) (a : BitVec 16) (b : BitVec 32) :
    (k.emit kind a b).modreg = k.modreg :=
  (foldl_wakeRingWaiter_frame _ _).2.1

/-- **A record wakes** those blocked on the stream, and touches no other
process. -/
theorem processes_emit (k : Kernel) (kind : EventKind) (a : BitVec 16) (b : BitVec 32) (p : Proc) :
    (k.emit kind a b).processes p =
      if p ∈ k.ringWaiterList then (k.processes p).map Process.wake else k.processes p :=
  foldl_wakeRingWaiter_processes _ _ p

/-- A record has those it wakes return `1`. -/
theorem tier1Pool_emit (k : Kernel) (kind : EventKind) (a : BitVec 16) (b : BitVec 32) (p : Proc) :
    (k.emit kind a b).tier1Pool p =
      if p ∈ k.ringWaiterList then (k.tier1Pool p).map fun slot => { slot with pendingResume := 1 }
      else k.tier1Pool p :=
  foldl_wakeRingWaiter_tier1Pool _ _ p

/-- A record leaves nobody waiting, whether there was anybody to wake or not. -/
@[simp] theorem ringWaiters_emit (k : Kernel) (kind : EventKind) (a : BitVec 16) (b : BitVec 32) :
    (k.emit kind a b).events.ringWaiters = fun _ => none :=
  congrArg Events.ringWaiters (foldl_wakeRingWaiter_frame _ _).2.2

/-! ## The modules the processes run

Which process runs which module does not change while it is in the table. -/

/-- The module of each process in the table. -/
def moduleAt (k : Kernel) (p : Proc) : Option ModuleId := (k.processes p).map Process.moduleId

@[simp] theorem moduleAt_emit (k : Kernel) (kind : EventKind) (a : BitVec 16) (b : BitVec 32)
    (p : Proc) : (k.emit kind a b).moduleAt p = k.moduleAt p := by
  rw [moduleAt]
  rw [processes_emit]
  split
  · rw [Option.map_map]
    congr 1
    funext proc
    exact Process.moduleId_wake proc
  · rfl

theorem moduleAt_modifyProcess (k : Kernel) (p q : Proc) {f : Process → Process}
    (hf : ∀ proc, (f proc).moduleId = proc.moduleId) :
    (k.modifyProcess p f).moduleAt q = k.moduleAt q := by
  rw [moduleAt]
  rw [processes_modifyProcess]
  split
  · rw [Option.map_map]
    congr 1
    funext proc
    exact hf proc
  · rfl

theorem moduleAt_eq_none {k : Kernel} {p : Proc} : k.moduleAt p = none ↔ k.processes p = none :=
  Option.map_eq_none_iff

/-- What registration does: the process is new in the table, and nothing else changes. -/
theorem register_ok {k k' : Kernel} {b : BitVec 8} {proc : Process}
    (h : k.register b proc = .ok k') :
    ∃ p, b = procByte p ∧ k.processes p = none ∧
      k' = { k with processes := Function.update k.processes p (some proc) } := by
  rw [register] at h
  split at h
  · cases h
  · rename_i p hp
    split at h
    · cases h
    · rename_i hfree
      refine ⟨p, procByte_of_procIndex? hp, by simpa using hfree, (Except.ok.inj h).symm⟩

/-! ## Boot

The kernel from zeroed statics, up to the scheduler. -/

/-- Capability boot and the registration of the modules in the image. -/
def boot (board : Board) : Except KernelError Kernel := do
  let caps ← initRootCaps board .zeroed
  let k : Kernel := ⟨caps, fun _ => none, fun _ => none, .new, .new⟩
  let k ← k.registerLibrary (procByte procIdTier2Uart) .two .tier2Uart
  let k ← k.registerLibrary (procByte procIdTier2Net) .two .tier2Net
  let k ← k.registerTenant (procByte procIdTier1Hello) .one .tier1Hello
  k.registerTenant (procByte procIdTier1HelloB) .one .tier1Hello

/-- The processes that boot registers: the two demonstration tenants, and the two drivers. -/
def bootProcesses (p : Proc) : Option Process :=
  if p = procIdTier1HelloB then some (.new (procByte p) .one .tier1Hello)
  else if p = procIdTier1Hello then some (.new (procByte p) .one .tier1Hello)
  else if p = procIdTier2Net then some (.newLibrary (procByte p) .two .tier2Net)
  else if p = procIdTier2Uart then some (.newLibrary (procByte p) .two .tier2Uart)
  else none

/-- The kernel that boot leaves, with no instance, and with nothing recorded. -/
def booted (board : Board) : Kernel :=
  ⟨bootState board, bootProcesses, fun _ => none, .new, .new⟩

/-- Boot succeeds on every board, and leaves this kernel. -/
theorem boot_ok (board : Board) : boot board = .ok (booted board) := by
  rw [boot]
  rw [initRootCaps_zeroed]
  refine congrArg Except.ok ?_
  rw [booted, Kernel.mk.injEq]
  refine ⟨rfl, ?_, rfl, rfl, rfl⟩
  funext p
  fin_cases p <;> rfl

end Kernel

end Wari
