import Wari.Boot
import Wari.Process
import Wari.Lib.Batch

/-!
# Registered handles and the submission ring

A tenant registers a capability once and then names it by a handle, an index into a
table of its process. It puts operations on a ring in its own linear memory, has the
kernel take a batch of them with one call, and finds the results on a second ring.
The operations are the two on notifications that can also be called directly.
-/

namespace Wari

open Lib (readAt writeAt toLe ofLe)

/-! ## Notifications

Wait is a poll and acknowledging clears the bits; neither blocks. -/

namespace CapState

/-- The notification behind the Notification cap of the caller at `slot`, if the cap may
be read. -/
def resolveNotification (st : CapState) (procId : BitVec 8) (slot : BitVec 32) : Except ℤ ℕ :=
  match procIndex? procId with
  | none => .error eInval
  | some p =>
    match slotArg? slot with
    | none => .error eInval
    | some slot =>
      let cap := st.capAt (p, slot)
      if cap.isEmpty then .error ePerm
      else if cap.kind ≠ .notification then .error ePerm
      else if cap.rights &&& capRightRead = 0#8 then .error ePerm
      else .ok cap.poolIndex

end CapState

/-- `wari::notification_wait(slot) -> i32`: a poll, which never blocks. With no signal pending it
answers `E_AGAIN`. -/
def notificationWaitImpl (st : CapState) (procId : BitVec 8) (slot : BitVec 32) : ℤ :=
  match st.resolveNotification procId slot with
  | .error rc => rc
  | .ok i =>
    match st.objectPools.notifications.get i with
    | some notif => if notif.signals ≠ 0#32 then 0 else eAgain
    | none => eInval

/-- `notif.signals = 0`, which drops all pending signals at once. -/
def Notification.clear (notif : Notification) : Notification := { notif with signals := 0#32 }

/-- `wari::notification_ack(slot) -> i32`: the signals are cleared, whether any was pending or
not. -/
def notificationAckImpl (st : CapState) (procId : BitVec 8) (slot : BitVec 32) : ℤ × CapState :=
  match st.resolveNotification procId slot with
  | .error rc => (rc, st)
  | .ok i =>
    match st.objectPools.notifications.get i with
    | some _ => (0, st.modifyNotification i Notification.clear)
    | none => (eInval, st)

/-! ## Registered handles

A registration stores what the capability resolved to and the generation of its slot. Using a
handle compares that generation with the slot's own, and nothing else. -/

/-- The number of registered-resource slots per process. -/
abbrev regSlots : ℕ := 64

/-- One registered-resource slot: the resolution of a capability proven at
registration. -/
structure RegEntry where
  /-- kind of the registered object; empty where the slot is free -/
  kind : ObjectKind
  /-- rights of the originating cap -/
  rights : BitVec 8
  /-- originating CSpace slot -/
  cspaceSlot : BitVec 8
  /-- generation of that slot at registration -/
  regGeneration : BitVec 16
  /-- object pool index -/
  poolIndex : ℕ

/-- A free entry, of the kind that no live one has. -/
def RegEntry.empty : RegEntry := ⟨.empty, 0#8, 0#8, 0#16, 0⟩

/-- Is this slot free? Only the kind is looked at. -/
def RegEntry.isEmpty (e : RegEntry) : Bool := e.kind == .empty

/-- The registered-resource table of a process, with a handle for each slot. -/
structure RegTable where
  /-- the registered-resource slots -/
  slots : Fin regSlots → RegEntry

namespace RegTable

/-- The table with every slot free. -/
def new : RegTable := ⟨fun _ => RegEntry.empty⟩

/-- The index of the first free slot, which is what the next registration gets. -/
def findEmpty (table : RegTable) : Option (Fin regSlots) :=
  (List.finRange regSlots).find? fun i => (table.slots i).isEmpty

/-- `slots[i] = entry`, whatever was there. -/
def set (table : RegTable) (i : Fin regSlots) (entry : RegEntry) : RegTable :=
  ⟨Function.update table.slots i entry⟩

end RegTable

/-- A handle argument, checked against `REG_SLOTS`; `none` is the path on which the caller is
refused. -/
def regArg? (i : BitVec 32) : Option (Fin regSlots) :=
  if h : i.toNat < regSlots then some ⟨i.toNat, h⟩ else none

/-- The outcome of validating one registered-handle submission, from the first check that fails.
-/
inductive RegCheck where
  /-- the operation may proceed -/
  | ok
  /-- outside the registered-table range -/
  | outOfRange
  /-- the slot is not live -/
  | empty
  /-- the cached generation is not the live one -/
  | stale
  /-- not permitted for the cached kind and rights -/
  | notPermitted
  deriving DecidableEq, Repr

/-- Validate a registered-handle submission: in range, live, of the current generation, and with
the right to the operation, in this order. -/
def validateHandle (regIdx : BitVec 32) (live : Bool) (regGeneration curGeneration : BitVec 16)
    (opPermitted : Bool) : RegCheck :=
  if BitVec.ofNat 32 regSlots ≤ regIdx then .outOfRange
  else if !live then .empty
  else if regGeneration ≠ curGeneration then .stale
  else if !opPermitted then .notPermitted
  else .ok

/-! ## The wire format

Entries are bytes in the tenant's memory, least significant first. An entry that cannot be read
whole ends the drain. -/

/-- The size of a submission-queue entry on the wire. -/
def sqeSize : ℕ := 40
/-- The size of a completion-queue entry on the wire. -/
def cqeSize : ℕ := 16

/-- The operation that waits on a registered notification. -/
def ringOpNotifyWait : BitVec 32 := 1#32
/-- The operation that acknowledges a registered notification. -/
def ringOpNotifyAck : BitVec 32 := 2#32
/-- The highest operation code that is defined. -/
def ringOpMax : BitVec 32 := ringOpNotifyAck

/-- Is `op` a defined ring operation? Zero is none, so that zeroed memory asks for nothing. -/
def isKnownOp (op : BitVec 32) : Bool := ringOpNotifyWait ≤ op && op ≤ ringOpMax

/-- A decoded submission-queue entry, 40 bytes on the wire. -/
structure Sqe where
  /-- operation code -/
  op : BitVec 32
  /-- registered-handle index -/
  regIdx : BitVec 32
  /-- reserved -/
  flags : BitVec 32
  /-- correlation token, echoed in the completion -/
  userData : BitVec 64
  /-- first argument -/
  arg0 : BitVec 64
  /-- second argument -/
  arg1 : BitVec 64

/-- `u32::from_le_bytes(b[at..at + 4])`, least significant byte first. -/
def rdU32 (b : List (BitVec 8)) (at' : ℕ) : BitVec 32 :=
  BitVec.ofNat 32 (ofLe ((b.drop at').take 4))

/-- Decode the `idx`-th entry of a submission-queue byte buffer. -/
def decodeSqe (bytes : List (BitVec 8)) (idx : ℕ) : Option Sqe :=
  let base := idx * sqeSize
  if bytes.length < base + sqeSize then none
  else some {
    op := rdU32 bytes base
    regIdx := rdU32 bytes (base + 4)
    flags := rdU32 bytes (base + 8)
    userData := leWord bytes (base + 16)
    arg0 := leWord bytes (base + 24)
    arg1 := leWord bytes (base + 32) }

/-- Encode a completion-queue entry: the submitter's token, then the result. -/
def encodeCqe (userData result : BitVec 64) : List (BitVec 8) :=
  leBytes userData ++ leBytes result

@[simp] theorem length_encodeCqe (userData result : BitVec 64) :
    (encodeCqe userData result).length = cqeSize := by
  simp [encodeCqe, cqeSize]

/-! ## The ring

A batch is drained in order. Errors in reading an entry or in posting its completion stop it
there, and what was done until then stays. -/

/-- The upper bound on the entries of a ring. -/
def maxRingEntries : BitVec 32 := 1024#32

/-- The ring descriptor of a process, as `ring_setup` records it. -/
structure RingDesc where
  /-- submission-queue base -/
  sqPtr : BitVec 32
  /-- completion-queue base -/
  cqPtr : BitVec 32
  /-- number of entries -/
  entries : BitVec 32
  /-- whether the process configured a ring -/
  active : Bool

/-- The descriptor of a process that has no ring configured. -/
def RingDesc.empty : RingDesc := ⟨0#32, 0#32, 0#32, false⟩

/-- The capability state with the tables of the fast path. -/
structure Fastpath where
  /-- CSpaces and objects -/
  caps : CapState
  /-- one registered-resource table for each process -/
  regTables : Proc → RegTable
  /-- one ring for each process -/
  ringDescriptors : Proc → RingDesc

namespace Fastpath

/-- `reg_tables()[p].slots[i] = entry`. The tables of other processes stay as they are. -/
def setReg (f : Fastpath) (p : Proc) (i : Fin regSlots) (entry : RegEntry) : Fastpath :=
  { f with regTables := Function.update f.regTables p ((f.regTables p).set i entry) }

@[simp] theorem slots_setReg (f : Fastpath) (p q : Proc) (i j : Fin regSlots) (entry : RegEntry) :
    ((f.setReg p i entry).regTables q).slots j =
      if q = p ∧ j = i then entry else (f.regTables q).slots j := by
  rw [setReg]
  by_cases hq : q = p
  · subst hq
    by_cases hj : j = i
    · subst hj
      simp [RegTable.set]
    · simp [RegTable.set, hj]
  · simp [hq]

/-- `wari::cap_register(cspace_slot) -> i32`: the handle caches the capability with its
generation, and later submissions compare that. -/
def capRegisterImpl (f : Fastpath) (procId : BitVec 8) (cspaceSlot : BitVec 32) : ℤ × Fastpath :=
  match procIndex? procId with
  | none => (eInval, f)
  | some p =>
    match slotArg? cspaceSlot with
    | none => (eInval, f)
    | some s =>
      let cap := f.caps.capAt (p, s)
      if cap.isEmpty then (eInval, f)
      else
        match (f.regTables p).findEmpty with
        | none => (eNomem, f)
        | some idx =>
          (idx.val, f.setReg p idx {
            kind := cap.kind
            rights := cap.rights
            cspaceSlot := slotByte s
            regGeneration := f.caps.genAt (p, s)
            poolIndex := cap.poolIndex })

/-- `wari::cap_unregister(reg_idx) -> i32`: the entry is freed, whether it was live or not. -/
def capUnregisterImpl (f : Fastpath) (procId : BitVec 8) (regIdx : BitVec 32) : ℤ × Fastpath :=
  match procIndex? procId with
  | none => (eInval, f)
  | some p =>
    match regArg? regIdx with
    | none => (eInval, f)
    | some i => (0, f.setReg p i .empty)

/-- `wari::ring_setup(sq_ptr, cq_ptr, entries) -> i32`: the pointers are recorded as given, and
looked at only when something is submitted. -/
def ringSetupImpl (f : Fastpath) (procId : BitVec 8) (sqPtr cqPtr entries : BitVec 32) :
    ℤ × Fastpath :=
  match procIndex? procId with
  | none => (eInval, f)
  | some p =>
    if entries = 0#32 ∨ maxRingEntries < entries then (eInval, f)
    else
      (0, { f with
        ringDescriptors := Function.update f.ringDescriptors p ⟨sqPtr, cqPtr, entries, true⟩ })

/-- Is `op` permitted for a registered capability of `kind`? -/
def opPermittedFor (kind : ObjectKind) (op : BitVec 32) : Bool :=
  if op = ringOpNotifyWait ∨ op = ringOpNotifyAck then kind == .notification else false

/-- Validate one entry against the registered-handle table and delegate to the underlying
op. -/
def dispatch (f : Fastpath) (p : Proc) (sqe : Sqe) : ℤ × Fastpath :=
  if !isKnownOp sqe.op then (eInval, f)
  else
    match regArg? sqe.regIdx with
    | none => (eInval, f)
    | some i =>
      let entry := (f.regTables p).slots i
      let live := !entry.isEmpty
      let curGen := if live then f.caps.genAt (p, slotIndex entry.cspaceSlot) else 0#16
      match validateHandle sqe.regIdx live entry.regGeneration curGen
        (opPermittedFor entry.kind sqe.op) with
      | .ok =>
        let slot := entry.cspaceSlot.setWidth 32
        if sqe.op = ringOpNotifyWait then (notificationWaitImpl f.caps (procByte p) slot, f)
        else if sqe.op = ringOpNotifyAck then
          let (rc, caps) := notificationAckImpl f.caps (procByte p) slot
          (rc, { f with caps := caps })
        else (eInval, f)
      | .notPermitted => (ePerm, f)
      | _ => (eInval, f)

/-- The linear memory of the caller, and the kernel's tables. -/
abbrev Drained : Type := List (BitVec 8) × Fastpath

/-- One round of the drain: take entry `i`, dispatch it, post its completion. An error is
a `break`, with what it leaves. -/
def drainEntry (p : Proc) (desc : RingDesc) (i : ℕ) (s : Drained) : Except Drained Drained :=
  match readAt s.1 (desc.sqPtr.toNat + i * sqeSize) sqeSize with
  | none => .error s
  | some sqeBuf =>
    match decodeSqe sqeBuf 0 with
    | none => .error s
    | some sqe =>
      let (result, f) := s.2.dispatch p sqe
      let cqe := encodeCqe sqe.userData (BitVec.ofInt 64 result)
      match writeAt s.1 (desc.cqPtr.toNat + i * cqeSize) cqe with
      | none => .error (s.1, f)
      | some memory => .ok (memory, f)

/-- `wari::ring_submit(n) -> i32`, called with the linear memory the caller exports. -/
def ringSubmitImpl (f : Fastpath) (procId : BitVec 8) (n : BitVec 32)
    (memory : Option (List (BitVec 8))) : ℤ × Option (List (BitVec 8)) × Fastpath :=
  match procIndex? procId with
  | none => (eInval, memory, f)
  | some p =>
    let desc := f.ringDescriptors p
    if !desc.active then (eInval, memory, f)
    else
      match memory with
      | none => (eNomem, memory, f)
      | some bytes =>
        let count := if n < desc.entries then n else desc.entries
        -- `processed` and `i` go up together
        let (processed, bytes, f) := Lib.batch (drainEntry p desc) count.toNat (bytes, f)
        (processed, some bytes, f)

end Fastpath

end Wari
