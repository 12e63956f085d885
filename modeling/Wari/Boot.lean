import Wari.Syscall

/-!
# Root capabilities

The static capability table, boot's `init_root_caps`, and `install_tier1_grants`,
through which every module spawned or restarted at run time gets its CSpace.

Boot runs once from zeroed storage, so its result is a fixed table: `boot_ok`
gives it in closed form, and the rest of the development reads boot through that
theorem only.
-/

namespace Wari

/-! ## The static capability table

Which capabilities a built-in module has is decided by its name and tier, before anything runs. -/

/-- The privilege tier of a WASM instance: 1 for tenants, 2 for drivers. -/
inductive Tier where
  | one
  | two
  deriving DecidableEq, Repr

/-- The modules that the kernel recognizes by name, and those that are loaded at run time. -/
inductive ModuleId where
  | tier2Uart
  | tier1Hello
  | tier2Net
  /-- a runtime-loaded module, by its registry slot -/
  | dynamic (slot : BitVec 8)
  deriving DecidableEq, Repr

/-- The per-instance capability set: what the host functions of the base interface ask for before
they do anything. -/
structure Caps where
  /-- may call `fd_write` -/
  stdout : Bool
  /-- may write the UART registers -/
  mmioUart : Bool
  /-- may call `proc_exit` -/
  exit : Bool
  deriving DecidableEq, Repr

/-- The set with which everything is denied. -/
def Caps.empty : Caps := ⟨false, false, false⟩

/-- Default Tier-1 capability set: stdout and exit, no MMIO. -/
def tier1DefaultCaps : Caps := ⟨true, false, true⟩

/-- The capability set of the Tier-2 UART driver: it may write the registers of the UART, and
nothing else. -/
def tier2UartDriverCaps : Caps := ⟨false, true, false⟩

/-- The lookup of a module's capability set. The last line refuses by default: a pair that is not
listed gets the empty set. -/
def capsFor : Tier → ModuleId → Caps
  | .two, .tier2Uart => tier2UartDriverCaps
  | .one, .tier1Hello => tier1DefaultCaps
  | .one, .dynamic _ => tier1DefaultCaps
  | .two, .tier2Net => .empty
  | _, _ => .empty

/-! ## Grants

What a module that is loaded at run time may have besides stdout and exit. It asks, the registry
has a ceiling, and it gets what is in both. -/

/-- The optional authorities of a Tier-1 module, as the bits of a flag word. -/
structure GrantSpec where
  /-- the bits -/
  bits : BitVec 32
  deriving DecidableEq, Repr

namespace GrantSpec

/-- The specification that grants no optional authority. -/
def empty : GrantSpec := ⟨0#32⟩
/-- Read access to the audit stream, which is bit 0 of the word. -/
def eventlog : GrantSpec := ⟨1#32 <<< 0⟩
/-- A capability for the NIC, which is bit 1 of the word. -/
def net : GrantSpec := ⟨1#32 <<< 1⟩

/-- The authorities granted: requested and under the ceiling. -/
def attenuate (requested ceiling : GrantSpec) : GrantSpec := ⟨requested.bits &&& ceiling.bits⟩

/-- The authorities that were requested but withheld by the policy, which is what a spawn puts on
record. -/
def denied (requested granted : GrantSpec) : GrantSpec := ⟨requested.bits &&& ~~~granted.bits⟩

/-- Does this set include every bit of `flag`? So the empty flag is included in every set. -/
def contains (spec flag : GrantSpec) : Bool := spec.bits &&& flag.bits == flag.bits

/-- Is there no optional authority in the set at all? -/
def isEmpty (spec : GrantSpec) : Bool := spec.bits == 0#32

end GrantSpec

/-! ## Boot

Boot writes each slot once and reads none. It can fail only where a pool is full, and the pools
are empty. -/

/-- The board that the kernel is built for. It decides which NIC the boot code allocates. -/
inductive Board where
  | qemu
  | vf2
  | r2s
  deriving DecidableEq, Repr

/-- The `nic_kind` of the board's NIC: 0 for VirtIO, 1 for the GMAC of the VisionFive 2. The third
board has 0 as a placeholder. -/
def Board.nicKind : Board → BitVec 8
  | .qemu => 0#8
  | .vf2 => 1#8
  | .r2s => 0#8

/-- Process id of the Tier-2 UART driver. -/
def procIdTier2Uart : Proc := 1
/-- Process id of the first hello instance. -/
def procIdTier1Hello : Proc := 2
/-- Process id of the second hello instance. -/
def procIdTier1HelloB : Proc := 3
/-- Process id of the Tier-2 net driver. -/
def procIdTier2Net : Proc := 4

/-- A root cap: no parent, generation zero, no badge. -/
def rootCap (kind : ObjectKind) (poolIndex : ℕ) (rights : BitVec 8) : Cap where
  badge := 0#32
  parent := CapId.root
  generation := 0#32
  poolIndex := poolIndex
  kind := kind
  rights := rights

/-- The rights to read and to write, which the roots have that boot installs. -/
def rightsRw : BitVec 8 := capRightRead ||| capRightWrite

namespace CapState

/-- Install a root cap into a CSpace slot. -/
def installRootCap (st : CapState) (p : Proc) (slot : Slot) (kind : ObjectKind) (poolIndex : ℕ)
    (rights : BitVec 8) : CapState :=
  st.put (p, slot) (rootCap kind poolIndex rights)

/-- Install the Tier-1 stdout and exit root caps. -/
def installTier1Caps (st : CapState) (p : Proc) (tier1Caps : Caps) (uartIpcEp kernelExitEp : ℕ) :
    CapState :=
  let st :=
    if tier1Caps.stdout then st.installRootCap p slotPrimary .endpoint uartIpcEp capRightWrite
    else st
  if tier1Caps.exit then st.installRootCap p slotExit .endpoint kernelExitEp capRightWrite else st

/-- Install the Tier-1 Net capability in a process: a root at the slot that is kept for it. -/
def installTier1NetCap (st : CapState) (p : Proc) (netPoolIdx : ℕ) : CapState :=
  st.put (p, slotNet) (rootCap .net netPoolIdx rightsRw)

/-- `pools.endpoints.alloc(obj)?`: the index of the new endpoint, or the error of a full pool,
which boot passes on. -/
def allocEndpoint (st : CapState) (obj : Endpoint) : Except KernelError (ℕ × CapState) :=
  match st.objectPools.endpoints.alloc obj with
  | .ok (i, pool) => .ok (i, { st with objectPools := { st.objectPools with endpoints := pool } })
  | .error e => .error e

/-- `pools.nets.alloc(obj)?`: the index of the new NIC object, or the error of a full pool. -/
def allocNet (st : CapState) (obj : Net) : Except KernelError (ℕ × CapState) :=
  match st.objectPools.nets.alloc obj with
  | .ok (i, pool) => .ok (i, { st with objectPools := { st.objectPools with nets := pool } })
  | .error e => .error e

/-- `pools.notifications.alloc(obj)?`: the index of the new notification, or the error of a full
pool. -/
def allocNotification (st : CapState) (obj : Notification) : Except KernelError (ℕ × CapState) :=
  match st.objectPools.notifications.alloc obj with
  | .ok (i, pool) =>
    .ok (i, { st with objectPools := { st.objectPools with notifications := pool } })
  | .error e => .error e

/-- `if let Some(ep) = pools.endpoints.get_mut(i)`: where there is no such endpoint, nothing
happens. -/
def modifyEndpoint (st : CapState) (i : ℕ) (f : Endpoint → Endpoint) : CapState :=
  { st with
    objectPools := { st.objectPools with endpoints := st.objectPools.endpoints.modify i f } }

/-- `if let Some(net) = pools.nets.get_mut(i)`: where there is no such object, nothing happens. -/
def modifyNet (st : CapState) (i : ℕ) (f : Net → Net) : CapState :=
  { st with objectPools := { st.objectPools with nets := st.objectPools.nets.modify i f } }

/-- `if let Some(notif) = pools.notifications.get_mut(i)`: where there is no such object, nothing
happens. -/
def modifyNotification (st : CapState) (i : ℕ) (f : Notification → Notification) : CapState :=
  { st with
    objectPools :=
      { st.objectPools with notifications := st.objectPools.notifications.modify i f } }

end CapState

/-- Allocate kernel-resident endpoints and populate per-module CSpaces with root
caps. The IRQ line bound to the notification is outside this state. -/
def initRootCaps (board : Board) (st : CapState) : Except KernelError CapState := do
  let (uartIpcEp, st) ← st.allocEndpoint .new
  let (kernelExitEp, st) ← st.allocEndpoint .new
  let st := { st with bootTier1Eps := some (uartIpcEp, kernelExitEp) }
  let tier2Caps := capsFor .two .tier2Uart
  let st :=
    if tier2Caps.mmioUart then
      st.installRootCap procIdTier2Uart slotPrimary .endpoint uartIpcEp capRightRead
    else st
  let tier1Caps := capsFor .one .tier1Hello
  let st := st.installTier1Caps procIdTier1Hello tier1Caps uartIpcEp kernelExitEp
  let st := st.installTier1Caps procIdTier1HelloB tier1Caps uartIpcEp kernelExitEp
  let (netPoolIdx, st) ← st.allocNet (.new board.nicKind)
  let st := st.modifyNet netPoolIdx fun net => { net with refcount := 3 }
  let st := st.put (procIdTier2Net, slotPrimary) (rootCap .net netPoolIdx rightsRw)
  let st := st.installTier1NetCap procIdTier1Hello netPoolIdx
  let st := st.installTier1NetCap procIdTier1HelloB netPoolIdx
  let (demoEpIdx, st) ← st.allocEndpoint .new
  let st := st.modifyEndpoint demoEpIdx fun ep => { ep with refcount := 2 }
  let st := st.put (procIdTier1Hello, slotIpc) (rootCap .endpoint demoEpIdx rightsRw)
  let st := st.put (procIdTier1HelloB, slotIpc) (rootCap .endpoint demoEpIdx rightsRw)
  let (nicNotifIdx, st) ← st.allocNotification .new
  let st := st.modifyNotification nicNotifIdx fun notif => { notif with refcount := 1 }
  let st := st.put (procIdTier2Net, 1) (rootCap .notification nicNotifIdx rightsRw)
  let uartRefs := tier2Caps.mmioUart.toNat + 2 * tier1Caps.stdout.toNat
  let exitRefs := 2 * tier1Caps.exit.toNat
  let st := st.modifyEndpoint uartIpcEp fun ep =>
    { ep with refcount := min (ep.refcount + uartRefs) u16Max }
  let st := st.modifyEndpoint kernelExitEp fun ep =>
    { ep with refcount := min (ep.refcount + exitRefs) u16Max }
  pure st

/-- Install a runtime-loaded module's cap set: stdout and exit, and the granted
authorities. -/
def installTier1Grants (st : CapState) (procId : BitVec 8) (granted : GrantSpec) :
    Except KernelError CapState :=
  match procIndex? procId with
  | none => .error .invalidArgument
  | some p =>
    match st.bootTier1Eps with
    | none => .error .invalidArgument
    | some (uartIpcEp, kernelExitEp) =>
      -- the whole CSpace is cleared first
      let st := { st with cspaces := Function.update st.cspaces p CSpace.new }
      let tier1Caps := capsFor .one (.dynamic 0)
      let st := st.installTier1Caps p tier1Caps uartIpcEp kernelExitEp
      if granted.contains .eventlog then
        .ok (st.installRootCap p slotEventlog .eventLog 0 capRightRead)
      else .ok st

/-! ## What boot leaves

The result in closed form, so that no proof has to execute boot again. -/

/-- The capabilities that boot installs, place by place. It is the table that running the boot
code comes to. -/
def bootTable (a : Place) : Cap :=
  if a = (procIdTier2Net, 1) then rootCap .notification 0 rightsRw
  else if a = (procIdTier1HelloB, slotIpc) then rootCap .endpoint 2 rightsRw
  else if a = (procIdTier1Hello, slotIpc) then rootCap .endpoint 2 rightsRw
  else if a = (procIdTier1HelloB, slotNet) then rootCap .net 0 rightsRw
  else if a = (procIdTier1Hello, slotNet) then rootCap .net 0 rightsRw
  else if a = (procIdTier2Net, slotPrimary) then rootCap .net 0 rightsRw
  else if a = (procIdTier1HelloB, slotExit) then rootCap .endpoint 1 capRightWrite
  else if a = (procIdTier1HelloB, slotPrimary) then rootCap .endpoint 0 capRightWrite
  else if a = (procIdTier1Hello, slotExit) then rootCap .endpoint 1 capRightWrite
  else if a = (procIdTier1Hello, slotPrimary) then rootCap .endpoint 0 capRightWrite
  else if a = (procIdTier2Uart, slotPrimary) then rootCap .endpoint 0 capRightRead
  else Cap.empty

/-- The objects that boot allocates, with the counts they have once all of its capabilities are
installed. -/
def bootObject (board : Board) : ObjectKind → ℕ → Option KernelObject
  | .endpoint, 0 => some (.endpoint { Endpoint.new with refcount := 3 })
  | .endpoint, 1 => some (.endpoint { Endpoint.new with refcount := 2 })
  | .endpoint, 2 => some (.endpoint { Endpoint.new with refcount := 2 })
  | .net, 0 => some (.net { Net.new board.nicKind with refcount := 3 })
  | .notification, 0 => some (.notification { Notification.new with refcount := 1 })
  | _, _ => none

/-- The state boot leaves: its caps, its objects with the references counted in, and everything
else empty. -/
def bootState (board : Board) : CapState :=
  match initRootCaps board .zeroed with
  | .ok st => st
  | .error _ => .zeroed

/-- The CSpaces boot writes, in the order it writes them. -/
def bootPuts : CapState :=
  ((((((((((CapState.zeroed.put
    (procIdTier2Uart, slotPrimary) (rootCap .endpoint 0 capRightRead)).put
    (procIdTier1Hello, slotPrimary) (rootCap .endpoint 0 capRightWrite)).put
    (procIdTier1Hello, slotExit) (rootCap .endpoint 1 capRightWrite)).put
    (procIdTier1HelloB, slotPrimary) (rootCap .endpoint 0 capRightWrite)).put
    (procIdTier1HelloB, slotExit) (rootCap .endpoint 1 capRightWrite)).put
    (procIdTier2Net, slotPrimary) (rootCap .net 0 rightsRw)).put
    (procIdTier1Hello, slotNet) (rootCap .net 0 rightsRw)).put
    (procIdTier1HelloB, slotNet) (rootCap .net 0 rightsRw)).put
    (procIdTier1Hello, slotIpc) (rootCap .endpoint 2 rightsRw)).put
    (procIdTier1HelloB, slotIpc) (rootCap .endpoint 2 rightsRw)).put
    (procIdTier2Net, 1) (rootCap .notification 0 rightsRw)

/-- Boot succeeds on every board: no pool is full, and what it leaves is the table and the objects
above. -/
theorem initRootCaps_zeroed (board : Board) :
    initRootCaps board .zeroed = .ok (bootState board) := rfl

@[simp] theorem capAt_bootState (board : Board) (a : Place) :
    (bootState board).capAt a = bootTable a := by
  have h : (bootState board).capAt a = bootPuts.capAt a := rfl
  rw [h]
  simp only [bootPuts, CapState.capAt_put]
  rfl

@[simp] theorem genAt_bootState (board : Board) (a : Place) : (bootState board).genAt a = 0#16 := by
  have h : (bootState board).genAt a = bootPuts.genAt a := rfl
  rw [h]
  simp only [bootPuts, CapState.genAt_put]
  rfl

/-- The index after those boot allocated is free. -/
theorem Pool.get_mk_of {α : Type} {N j : ℕ} {f : Fin N → Option α}
    (h : ∀ hj : j < N, f ⟨j, hj⟩ = none) : (Pool.mk f).get j = none := by
  by_cases hj : j < N
  · exact (dif_pos hj).trans (h hj)
  · exact dif_neg hj

@[simp] theorem object?_bootState (board : Board) (k : ObjectKind) (i : ℕ) :
    (bootState board).objectPools.object? k i = bootObject board k i := by
  cases k with
  | endpoint =>
    match i with
    | 0 => rfl
    | 1 => rfl
    | 2 => rfl
    | j + 3 => exact congrArg (Option.map _) (Pool.get_mk_of fun _ => rfl)
  | net =>
    match i with
    | 0 => rfl
    | j + 1 => exact congrArg (Option.map _) (Pool.get_mk_of fun _ => rfl)
  | notification =>
    match i with
    | 0 => rfl
    | j + 1 => exact congrArg (Option.map _) (Pool.get_mk_of fun _ => rfl)
  | empty => rfl
  | eventLog => rfl
  | untyped => exact congrArg (Option.map _) (Pool.get_new i)
  | frame => exact congrArg (Option.map _) (Pool.get_new i)
  | socket => exact congrArg (Option.map _) (Pool.get_new i)

@[simp] theorem bootTier1Eps_bootState (board : Board) :
    (bootState board).bootTier1Eps = some (0, 1) := rfl

/-- The slots that boot fills. Every other slot of every process is empty after it. -/
def bootPlaces : List Place :=
  [(1, 0), (2, 0), (2, 1), (2, 2), (2, 3), (3, 0), (3, 1), (3, 2), (3, 3), (4, 0), (4, 1)]

theorem bootTable_empty {a : Place} (h : a ∉ bootPlaces) : bootTable a = Cap.empty := by
  simp only [bootPlaces, List.mem_cons, List.not_mem_nil, or_false, not_or] at h
  rw [bootTable]
  simp only [procIdTier2Uart, procIdTier1Hello, procIdTier1HelloB, procIdTier2Net, slotPrimary,
    slotExit, slotNet, slotIpc]
  simp [h]

/-- Every cap boot installs is a root cap. -/
theorem bootTable_parent (a : Place) : (bootTable a).parent = CapId.root := by
  by_cases h : a ∈ bootPlaces
  · simp only [bootPlaces, List.mem_cons, List.not_mem_nil, or_false] at h
    rcases h with rfl | rfl | rfl | rfl | rfl | rfl | rfl | rfl | rfl | rfl | rfl <;> rfl
  · rw [bootTable_empty h]
    rfl

theorem parentsInTable_bootState (board : Board) : (bootState board).ParentsInTable := by
  intro a _ hroot
  rw [capAt_bootState, bootTable_parent] at hroot
  cases hroot

/-- Boot's names, counted over the slots it fills. -/
theorem names_bootState (board : Board) {k : ObjectKind} (hk : k ≠ .empty) (i : ℕ) :
    (bootState board).names k i =
      bootPlaces.countP fun a => decide ((bootTable a).kind = k ∧ (bootTable a).poolIndex = i) := by
  rw [CapState.names_eq_countP (l := bootPlaces) (by decide) (fun a ha => by
    rw [capAt_bootState, bootTable_empty ha]; rfl) hk i]
  simp only [capAt_bootState]

/-! ## What an installation leaves

The other writer of whole CSpaces. It counts no reference, which is what the claims on reference
counts turn on. -/

/-- The capabilities that a runtime-loaded module starts with. That for the audit stream is there
only if it was granted. -/
def grantTable (uartIpcEp kernelExitEp : ℕ) (granted : GrantSpec) (s : Slot) : Cap :=
  if s = slotEventlog ∧ granted.contains .eventlog = true then rootCap .eventLog 0 capRightRead
  else if s = slotExit then rootCap .endpoint kernelExitEp capRightWrite
  else if s = slotPrimary then rootCap .endpoint uartIpcEp capRightWrite
  else Cap.empty

/-- **What an installation does**: one CSpace is rewritten, everything else stays, and no
reference is counted. The old caps of that CSpace go without being counted down as well. -/
theorem installTier1Grants_ok {st st' : CapState} {b : BitVec 8} {granted : GrantSpec}
    (h : installTier1Grants st b granted = .ok st') :
    ∃ p u x, b = procByte p ∧ st.bootTier1Eps = some (u, x) ∧
      (∀ a, st'.capAt a = if a.1 = p then grantTable u x granted a.2 else st.capAt a) ∧
      (∀ a, st'.genAt a = if a.1 = p then 0#16 else st.genAt a) ∧
      st'.objectPools = st.objectPools ∧ st'.bootTier1Eps = st.bootTier1Eps := by
  rw [installTier1Grants] at h
  split at h
  · cases h
  · rename_i p hp
    split at h
    · cases h
    · rename_i u x heps
      refine ⟨p, u, x, procByte_of_procIndex? hp, heps, ?_⟩
      -- the CSpace cleared, and then two or three caps put into it
      have hclear : ∀ a, CapState.capAt { st with cspaces := Function.update st.cspaces p .new } a =
          if a.1 = p then Cap.empty else st.capAt a := by
        intro a
        simp only [CapState.capAt]
        by_cases ha : a.1 = p
        · simp [ha, CSpace.new]
        · simp [ha]
      have hgen : ∀ a, CapState.genAt { st with cspaces := Function.update st.cspaces p .new } a =
          if a.1 = p then 0#16 else st.genAt a := by
        intro a
        simp only [CapState.genAt]
        by_cases ha : a.1 = p
        · simp [ha, CSpace.new]
        · simp [ha]
      simp only [capsFor, tier1DefaultCaps, CapState.installTier1Caps, CapState.installRootCap,
        if_true] at h
      split at h
      · rename_i hlog
        obtain rfl := Except.ok.inj h
        refine ⟨fun a => ?_, fun a => ?_, rfl, rfl⟩
        · obtain ⟨q, s⟩ := a
          simp only [CapState.capAt_put, hclear, grantTable, Prod.mk.injEq]
          by_cases hq : q = p <;> simp [hq, hlog]
        · simp only [CapState.genAt_put, hgen]
      · rename_i hlog
        obtain rfl := Except.ok.inj h
        refine ⟨fun a => ?_, fun a => ?_, rfl, rfl⟩
        · obtain ⟨q, s⟩ := a
          simp only [CapState.capAt_put, hclear, grantTable, Prod.mk.injEq]
          by_cases hq : q = p <;> simp [hq, hlog]
        · simp only [CapState.genAt_put, hgen]

end Wari
