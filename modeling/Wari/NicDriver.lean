import Wari.Containment
import Wari.Transmit
import Wari.Lib.Script

/-!
# The VirtIO driver on the kernel

The driver of the VirtIO NIC as a program over the kernel's host functions and its own linear
memory: how it brings the device up, posts its receive buffers, sends a frame, takes a packet
out of the used ring and gives the buffer back. The host functions are the kernel's, the memory
is bytes, and the device writes where the descriptors and the queue registers let it, between
any two calls of the driver.

`driver_fenced` says that it lets the device write into packet buffers and used rings only, in
every state of every run.
-/

namespace Wari

open Lib (Ram Apart Script World Machine Happening toLe length_toLe)
open Virtio (queueSize frameMax netHdrLen descWrite ringRx ringTx pack)

/-! ## Host functions

The rest of the network driver's host functions, for the driver that is shipped. -/

/-- `wari::net_mmio_read32(addr) -> u32`, where the register reads `val`. -/
def hostNetMmioRead32 (s : NicState) (addr val : BitVec 32) : BitVec 32 :=
  match s.caps.checkCap (procIdTier2Net, 0) .net capRightRead with
  | .error _ => BitVec.allOnes 32
  | .ok () => if !isNetMmioAccess addr.toNat 4 then BitVec.allOnes 32 else val

/-- `wari::nic_queue_notify(queue_idx) -> i32`: the write to the device that follows the checks
changes no memory. -/
def nicQueueNotifyImpl (s : NicState) (procId : BitVec 8) (queueIdx : BitVec 32) : ℤ :=
  match procIndex? procId with
  | none => ePerm
  | some p =>
    let cap := s.caps.capAt (p, 0)
    if cap.isEmpty || cap.kind != .net || cap.rights &&& capRightWrite = 0#8 then ePerm
    else if 1 < queueIdx then eInval
    else 0

/-- `wari::nic_set_mac(mac_low, mac_high) -> i32`: the address is stored, and the NIC marked as
up. -/
def nicSetMacImpl (s : NicState) (procId : BitVec 8) (macLow macHigh : BitVec 32) :
    ℤ × NicState :=
  match procIndex? procId with
  | none => (ePerm, s)
  | some p =>
    let cap := s.caps.capAt (p, 0)
    if cap.isEmpty then (ePerm, s)
    else if cap.kind ≠ .net then (ePerm, s)
    else if cap.rights &&& capRightWrite = 0#8 then (ePerm, s)
    else
      match s.caps.objectPools.nets.get cap.poolIndex with
      | none => (eInval, s)
      | some _ =>
        -- the six bytes, the first in the low bits
        let mac : BitVec 48 := (macHigh.setWidth 16 : BitVec 16) ++ macLow
        (0, { s with caps := s.caps.modifyNet cap.poolIndex fun net =>
          { net with mac := mac, initialized := true } })

/-! ## The driver's statics

Which offsets the statics have is up to the linker; that they lie apart and aligned is what it
guarantees. -/

/-- Where the linker put the driver's statics in its linear memory. -/
structure Statics where
  /-- `RX_DESC` -/
  rxDesc : BitVec 32
  /-- `RX_AVAIL` -/
  rxAvail : BitVec 32
  /-- `RX_USED` -/
  rxUsed : BitVec 32
  /-- `TX_DESC` -/
  txDesc : BitVec 32
  /-- `TX_AVAIL` -/
  txAvail : BitVec 32
  /-- `TX_USED` -/
  txUsed : BitVec 32
  /-- `RX_BUFS` -/
  rxBufs : BitVec 32
  /-- `TX_BUF` -/
  txBuf : BitVec 32
  /-- `RX_USED_SEEN` -/
  rxUsedSeen : BitVec 32
  /-- `RX_AVAIL_NEXT` -/
  rxAvailNext : BitVec 32
  /-- `TX_USED_SEEN` -/
  txUsedSeen : BitVec 32

namespace Statics

/-- The statics that are shared with the device or that only the driver's own functions touch,
with their sizes. -/
def rings (m : Statics) : List (ℕ × ℕ) :=
  [(m.rxDesc.toNat, 16 * queueSize), (m.rxAvail.toNat, 4 + 2 * queueSize),
    (m.rxUsed.toNat, 4 + 8 * queueSize), (m.txDesc.toNat, 16 * queueSize),
    (m.txAvail.toNat, 4 + 2 * queueSize), (m.txUsed.toNat, 4 + 8 * queueSize),
    (m.rxUsedSeen.toNat, 2), (m.rxAvailNext.toNat, 2), (m.txUsedSeen.toNat, 2)]

/-- The packet buffers, each with its offset and its size. -/
def buffers (m : Statics) : List (ℕ × ℕ) :=
  [(m.rxBufs.toNat, queueSize * frameMax), (m.txBuf.toNat, frameMax)]

/-- What the linker sees to: no two statics overlap, all are in the memory, and the rings have
the alignment their types ask for. A memory is smaller than the 32-bit address space. -/
structure Placed (m : Statics) (memLen : ℕ) : Prop where
  apart : (m.rings ++ m.buffers).Pairwise fun a b => Apart a.1 a.2 b.1 b.2
  inside : ∀ a ∈ m.rings ++ m.buffers, a.1 + a.2 ≤ memLen
  desc : m.rxDesc.toNat % 16 = 0 ∧ m.txDesc.toNat % 16 = 0
  avail : m.rxAvail.toNat % 2 = 0 ∧ m.txAvail.toNat % 2 = 0
  used : m.rxUsed.toNat % 4 = 0 ∧ m.txUsed.toNat % 4 = 0
  small : memLen < 2 ^ 32

/-- The offset of receive buffer `i`: they lie one behind the other. -/
def bufOff (m : Statics) (i : BitVec 32) : BitVec 32 := m.rxBufs + i * .ofNat 32 frameMax

end Statics

/-! ## The driver

The driver is a script of calls to the kernel and to its own memory. Between two of them its
device may do what its queues let it. -/

/-- What the driver asks of the kernel, and of its own memory. -/
inductive DriverOp where
  /-- a host function that changes the device or a ring, or a store -/
  | nic (c : NicCall)
  /-- `net_mmio_read32` -/
  | mmioRead (addr : BitVec 32)
  /-- a load of `n` bytes -/
  | load (off n : ℕ)
  /-- `nic_queue_notify` -/
  | queueNotify (queueIdx : BitVec 32)
  /-- `nic_set_mac` -/
  | setMac (macLow macHigh : BitVec 32)
  /-- `drv_log_u32` -/
  | log (tag val : BitVec 32)

/-- A function of the driver: what it calls, and how it goes on with each answer. -/
abbrev Driver (α : Type) := Script DriverOp (BitVec 32) α

namespace Driver

open Lib.Script (perform)

/-- `HOST_E_INVAL`. -/
def hostEInval : BitVec 32 := BitVec.ofInt 32 (-2)

/-! ### Loads and stores

Fields are stored one at a time, as the source's volatile writes do. -/

def writeU16Le (off : BitVec 32) (val : BitVec 16) : Driver Unit := do
  let _ ← perform (.nic (.store off.toNat (toLe 2 val.toNat)))

def readU16Le (off : BitVec 32) : Driver (BitVec 16) := do
  let v ← perform (.load off.toNat 2)
  pure (v.setWidth 16)

def writeU32Le (off : BitVec 32) (val : BitVec 32) : Driver Unit := do
  let _ ← perform (.nic (.store off.toNat (toLe 4 val.toNat)))

def readU32Le (off : BitVec 32) : Driver (BitVec 32) := perform (.load off.toNat 4)

/-- `write_desc_meta(desc_off, idx, len, flags, next)`: three stores, and none of them in the
address field. -/
def writeDescMeta (descOff : BitVec 32) (idx : BitVec 16) (len : BitVec 32)
    (flags next : BitVec 16) : Driver Unit := do
  let off := descOff + idx.setWidth 32 * 16
  writeU32Le (off + 8) len
  writeU16Le (off + 12) flags
  writeU16Le (off + 14) next

/-! ### Registers

Every access to a register is a host call, which can be refused. -/

/-- `nic_read32(offset)`: any value may come back. -/
def nicRead32 (offset : BitVec 32) : OptionT (Script DriverOp (BitVec 32)) (BitVec 32) :=
  OptionT.lift (perform (.mmioRead (nicBase + offset)))

/-- A call whose return code has to be zero. -/
def callOk (op : DriverOp) : OptionT (Script DriverOp (BitVec 32)) Unit := do
  let r ← OptionT.lift (perform op)
  if r = 0 then pure () else failure

/-- `nic_write32(offset, val)`: the driver goes on only if the kernel made the write. -/
def nicWrite32 (offset val : BitVec 32) : OptionT (Script DriverOp (BitVec 32)) Unit :=
  callOk (.nic (.mmioWrite (nicBase + offset) val))

/-- `attach_queue(queue_idx, desc_off, avail_off, used_off)`: the driver goes on only if the
kernel accepts. -/
def attachQueue (queueIdx descOff availOff usedOff : BitVec 32) :
    OptionT (Script DriverOp (BitVec 32)) Unit :=
  callOk (.nic (.attachQueue queueIdx descOff availOff usedOff (.ofNat 32 queueSize)))

/-! ### Receiving and sending

The functions of the driver on its two queues. -/

section

variable (m : Statics)

/-- Point receive descriptor `i` at its buffer: the kernel writes the address, the driver the
rest. -/
def setRxDesc (i : BitVec 32) : OptionT (Script DriverOp (BitVec 32)) Unit := do
  callOk (.nic (.dmaSetBuf ringRx i (m.bufOff i) (.ofNat 32 frameMax)))
  OptionT.lift (writeDescMeta m.rxDesc (i.setWidth 16) (.ofNat 32 frameMax) descWrite 0)

/-- The first loop of `populate_rx`, which points each descriptor at its buffer. -/
def populateDescs : List ℕ → OptionT (Script DriverOp (BitVec 32)) Unit
  | [] => pure ()
  | i :: is => do
    setRxDesc m (.ofNat 32 i)
    populateDescs is

/-- The second loop of `populate_rx`, which fills the available ring. -/
def populateAvail : List ℕ → Driver Unit
  | [] => pure ()
  | i :: is => do
    writeU16Le (m.rxAvail + 4 + .ofNat 32 i * 2) (.ofNat 16 i)
    populateAvail is

/-- **Post all receive buffers**: descriptors, ring, and last of all the index. -/
def populateRx : OptionT (Script DriverOp (BitVec 32)) Unit := do
  populateDescs m (List.range queueSize)
  OptionT.lift (writeU16Le m.rxAvail 0)
  OptionT.lift (populateAvail m (List.range queueSize))
  -- the index is written last
  OptionT.lift (writeU16Le (m.rxAvail + 2) (.ofNat 16 queueSize))
  OptionT.lift (writeU16Le m.rxAvailNext (.ofNat 16 queueSize))
  callOk (.queueNotify 0)

/-- **Send a frame** that is in linear memory. -/
def driverTxSend (bufOff len : BitVec 32) : Driver (BitVec 32) :=
  if .ofNat 32 frameMax < len then pure (-1)
  else do
    -- descriptor 0, always
    let descIdx : BitVec 16 := 0
    let r ← perform (.nic (.dmaSetBuf ringTx (descIdx.setWidth 32) bufOff len))
    if r ≠ 0 then pure (-1)
    else do
      writeDescMeta m.txDesc descIdx len 0 0
      let seen ← readU16Le m.txUsedSeen
      let newIdx := (seen + 1) % .ofNat 16 queueSize
      writeU16Le (m.txAvail + 4 + (newIdx % .ofNat 16 queueSize).setWidth 32 * 2) descIdx
      writeU16Le (m.txAvail + 2) (newIdx + 1)
      perform (.queueNotify 1)

/-- **The next received packet**: its buffer and its length, or 0. -/
def driverRxPop : Driver (BitVec 64) := do
  let deviceIdx ← readU16Le (m.rxUsed + 2)
  let seen ← readU16Le m.rxUsedSeen
  if deviceIdx = seen then pure 0
  else do
    let elemOff := m.rxUsed + 4 + seen.setWidth 32 % .ofNat 32 queueSize * 8
    let descId ← readU32Le elemOff
    let usedLen ← readU32Le (elemOff + 4)
    writeU16Le m.rxUsedSeen (seen + 1)
    if queueSize ≤ descId.toNat then pure 0 else pure (pack (m.bufOff descId) usedLen)

/-- **Give a buffer back to the device**, with its descriptor written again. An index past the
ring is refused. -/
def driverRxRecycle (descIdx : BitVec 32) : Driver (BitVec 32) :=
  if queueSize ≤ descIdx.toNat then pure (-1)
  else do
    match ← (setRxDesc m descIdx).run with
    | none => pure (-1)
    | some () =>
      let next ← readU16Le m.rxAvailNext
      writeU16Le (m.rxAvail + 4 + (next % .ofNat 16 queueSize).setWidth 32 * 2)
        (descIdx.setWidth 16)
      writeU16Le m.rxAvailNext (next + 1)
      writeU16Le (m.rxAvail + 2) (next + 1)
      perform (.queueNotify 0)

/-- `NicTxToken::consume`: a clear header and the frame in `TX_BUF`, and off with it. -/
def consumeTx (frame : List (BitVec 8)) : Driver Unit := do
  let _ ← perform (.nic (.store m.txBuf.toNat (List.replicate netHdrLen 0#8)))
  let _ ← perform (.nic (.store (m.txBuf.toNat + netHdrLen) frame))
  let _ ← driverTxSend m m.txBuf (.ofNat 32 (frame.length + netHdrLen))

end

/-! ### Bringing the device up

The handshake of the specification, in the order of the source: status bits, features, queues,
receive buffers, and the address. -/

def virtioMmioMagicValue : BitVec 32 := 0x000
def virtioMmioVersion : BitVec 32 := 0x004
def virtioMmioDeviceId : BitVec 32 := 0x008
def virtioMmioDeviceFeatures : BitVec 32 := 0x010
def virtioMmioDeviceFeaturesSel : BitVec 32 := 0x014
def virtioMmioDriverFeatures : BitVec 32 := 0x020
def virtioMmioDriverFeaturesSel : BitVec 32 := 0x024
def virtioMmioConfig : BitVec 32 := 0x100

def virtioMagic : BitVec 32 := 0x74726976
def virtioVersionModern : BitVec 32 := 2
def virtioDeviceIdNet : BitVec 32 := 1

def virtioStatusAcknowledge : BitVec 32 := 0x01
def virtioStatusDriver : BitVec 32 := 0x02
def virtioStatusDriverOk : BitVec 32 := 0x04
def virtioStatusFeaturesOk : BitVec 32 := 0x08

def virtioNetFMac : ℕ := 5
def virtioFVersion1 : ℕ := 32

/-- `TAG_DMA_OOB`. -/
def tagDmaOob : BitVec 32 := 0x444D416F
/-- `TAG_DMA_IDX`. -/
def tagDmaIdx : BitVec 32 := 0x444D4169

/-- Go on only where `c` holds, and fail otherwise. -/
def require (c : Prop) [Decidable c] : OptionT (Script DriverOp (BitVec 32)) Unit :=
  if c then pure () else failure

/-- The first steps of `init_virtio`: the device is the expected one, offers what is needed, and
takes the features the driver accepts. -/
def negotiate : OptionT (Script DriverOp (BitVec 32)) Unit := do
  let magic ← nicRead32 virtioMmioMagicValue
  require (magic = virtioMagic)
  let version ← nicRead32 virtioMmioVersion
  require (version = virtioVersionModern)
  let deviceId ← nicRead32 virtioMmioDeviceId
  require (deviceId = virtioDeviceIdNet)
  nicWrite32 virtioMmioStatus 0
  nicWrite32 virtioMmioStatus virtioStatusAcknowledge
  nicWrite32 virtioMmioStatus (virtioStatusAcknowledge ||| virtioStatusDriver)
  nicWrite32 virtioMmioDeviceFeaturesSel 0
  let devFeatLo ← nicRead32 virtioMmioDeviceFeatures
  nicWrite32 virtioMmioDeviceFeaturesSel 1
  let devFeatHi ← nicRead32 virtioMmioDeviceFeatures
  require (devFeatHi &&& (1 : BitVec 32) <<< (virtioFVersion1 - 32) ≠ 0)
  require (devFeatLo &&& (1 : BitVec 32) <<< virtioNetFMac ≠ 0)
  nicWrite32 virtioMmioDriverFeaturesSel 0
  nicWrite32 virtioMmioDriverFeatures ((1 : BitVec 32) <<< virtioNetFMac)
  nicWrite32 virtioMmioDriverFeaturesSel 1
  nicWrite32 virtioMmioDriverFeatures ((1 : BitVec 32) <<< (virtioFVersion1 - 32))
  nicWrite32 virtioMmioStatus
    (virtioStatusAcknowledge ||| virtioStatusDriver ||| virtioStatusFeaturesOk)
  let status ← nicRead32 virtioMmioStatus
  require (status &&& virtioStatusFeaturesOk ≠ 0)

/-- The self-check: the kernel has to refuse a span outside the linear memory, and a descriptor
outside the ring. -/
def probe (m : Statics) : OptionT (Script DriverOp (BitVec 32)) Unit := do
  let rcOob ← OptionT.lift <| perform <|
    .nic (.dmaSetBuf ringRx 0 (BitVec.allOnes 32 - 64) (.ofNat 32 frameMax))
  let _ ← OptionT.lift (perform (.log tagDmaOob rcOob))
  let rcIdx ← OptionT.lift <| perform <|
    .nic (.dmaSetBuf ringRx (.ofNat 32 queueSize) m.rxDesc (.ofNat 32 frameMax))
  let _ ← OptionT.lift (perform (.log tagDmaIdx rcIdx))
  require (¬ (rcOob ≠ hostEInval ∨ rcIdx ≠ hostEInval))

/-- **Bring the device up**: the MAC address it has, as two words of its configuration. -/
def initVirtio (m : Statics) : OptionT (Script DriverOp (BitVec 32)) (BitVec 32 × BitVec 32) := do
  negotiate
  attachQueue 0 m.rxDesc m.rxAvail m.rxUsed
  attachQueue 1 m.txDesc m.txAvail m.txUsed
  probe m
  populateRx m
  nicWrite32 virtioMmioStatus (virtioStatusAcknowledge ||| virtioStatusDriver |||
    virtioStatusFeaturesOk ||| virtioStatusDriverOk)
  let mac01 ← nicRead32 virtioMmioConfig
  let mac23 ← nicRead32 (virtioMmioConfig + 4)
  -- four bytes of the first word and two of the second
  pure (mac01, mac23 &&& 0xFFFF)

/-- **The driver's entry**: it brings the device up, and tells the kernel the address, or gives
up. -/
def driverStart (m : Statics) : Driver Unit := do
  let _ ← perform (.log 0x57415200 0xC0DE0001)
  match ← (initVirtio m).run with
  | none => pure ()
  | some (macLow, macHigh) => do
    let _ ← perform (.setMac macLow macHigh)

/-- What the stack asks of the driver once it is up. A frame fits a buffer with its header. -/
inductive Request where
  | rxPop
  | rxRecycle (descIdx : BitVec 32)
  | consumeTx (frame : { l : List (BitVec 8) // l.length + netHdrLen ≤ frameMax })

/-- What the driver does once it is up: one request of the stack above. -/
def serve (m : Statics) : Request → Driver Unit
  | .rxPop => do
    let _ ← driverRxPop m
  | .rxRecycle descIdx => do
    let _ ← driverRxRecycle m descIdx
  | .consumeTx frame => consumeTx m frame

end Driver

/-! ## The driver and its device

The driver's calls and the device's writes interleave. The device reads descriptors from memory as
they are at that moment, and writes only where they let it. -/

/-- The kernel and the device, and the driver's calls so far with their answers. -/
structure DriverState where
  nic : NicRun
  trace : List (DriverOp × BitVec 32)

/-- What a call of the driver returns that changes the device or a ring. -/
def nicAnswer (s : NicState) : NicCall → BitVec 32
  | .attachQueue queueIdx descOff availOff usedOff queueSize =>
    .ofInt 32 (nicAttachQueueImpl s (procByte procIdTier2Net) queueIdx descOff availOff usedOff
      queueSize).1
  | .dmaSetBuf ring idx bufOff len =>
    .ofInt 32 (nicDmaSetBufImpl s (procByte procIdTier2Net) ring idx bufOff len).1
  | .mmioWrite addr val => .ofInt 32 (hostNetMmioWrite32 s addr val).1
  | .store _ _ => 0
  | .grow _ => 0

/-- A call of the driver that is answered with `r`. What a device register reads is up to the
device; an access outside the memory traps. -/
def driverAct (s : DriverState) (op : DriverOp) (r : BitVec 32) : Option DriverState :=
  let trace := s.trace ++ [(op, r)]
  match op with
  | .nic c =>
    if r = nicAnswer s.nic.st c then (nicStep s.nic c).map fun nic => ⟨nic, trace⟩ else none
  | .mmioRead addr => if r = hostNetMmioRead32 s.nic.st addr r then some ⟨s.nic, trace⟩ else none
  | .load off n =>
    match s.nic.st.memory with
    | none => none
    | some mem =>
      if off + n ≤ mem.len ∧ r = .ofNat 32 (s.nic.st.ram.le (mem.base + off) n) then
        some ⟨s.nic, trace⟩
      else none
  | .queueNotify queueIdx =>
    if r = .ofInt 32 (nicQueueNotifyImpl s.nic.st (procByte procIdTier2Net) queueIdx) then
      some ⟨s.nic, trace⟩
    else none
  | .setMac macLow macHigh =>
    let out := nicSetMacImpl s.nic.st (procByte procIdTier2Net) macLow macHigh
    if r = .ofInt 32 out.1 then some ⟨{ s.nic with st := out.2 }, trace⟩ else none
  | .log _ _ => if r = 0 then some ⟨s.nic, trace⟩ else none

/-- Where the device goes from a descriptor: to the one it is chained to, or into the table it
refers to. -/
inductive DescHop where
  | next
  | indirect
  deriving DecidableEq

/-- The descriptor it then comes to, if the flag for it is set. -/
def descHop (ram : Ram) (loc : DescTable × ℕ) : DescHop → Option (DescTable × ℕ)
  | .next =>
    let a := loc.1.entry loc.2
    if descChained ram a = true ∧ descNext ram a < loc.1.num then some (loc.1, descNext ram a)
    else none
  | .indirect =>
    let a := loc.1.entry loc.2
    if descIndirect ram a = true ∧ 0 < (indirectTable ram a).num then some (indirectTable ram a, 0)
    else none

/-- The descriptor the device comes to from slot `k` of the available ring, after these steps. -/
def Virtqueue.chase (q : Virtqueue) (ram : Ram) (k : ℕ) (hops : List DescHop) :
    Option (DescTable × ℕ) :=
  if k < q.num.toNat ∧ q.avail ram k < q.num.toNat then
    hops.foldlM (descHop ram) (q.descTable, q.avail ram k)
  else none

theorem Virtqueue.Reaches.hops {q : Virtqueue} {ram : Ram} {loc loc' : DescTable × ℕ}
    {hops : List DescHop} (h : q.Reaches ram loc.1 loc.2)
    (hhops : hops.foldlM (descHop ram) loc = some loc') : q.Reaches ram loc'.1 loc'.2 := by
  induction hops generalizing loc with
  | nil =>
    obtain rfl : loc = loc' := Option.some.inj hhops
    exact h
  | cons hop hops ih =>
    obtain ⟨mid, hmid, hrest⟩ := Option.bind_eq_some_iff.mp hhops
    refine ih ?_ hrest
    cases hop with
    | next =>
      obtain ⟨⟨hchained, hlt⟩, hto⟩ := Option.ite_none_right_eq_some.mp hmid
      obtain rfl := Option.some.inj hto
      exact h.next hchained hlt
    | indirect =>
      obtain ⟨⟨hindirect, hlt⟩, hto⟩ := Option.ite_none_right_eq_some.mp hmid
      obtain rfl := Option.some.inj hto
      exact h.indirect hindirect hlt

/-- **What the device chases** is what it can come to, be it in the queue's own table or in one it
was led to. -/
theorem Virtqueue.chase_reaches {q : Virtqueue} {ram : Ram} {k : ℕ} {hops : List DescHop}
    {loc : DescTable × ℕ} (h : q.chase ram k hops = some loc) : q.Reaches ram loc.1 loc.2 := by
  obtain ⟨⟨hk, hi⟩, hhops⟩ := Option.ite_none_right_eq_some.mp h
  exact (Reaches.head hk hi).hops hhops

/-- `virtq_desc.flags` has `VIRTQ_DESC_F_WRITE`: the device may write to the buffer. -/
def descWritable (ram : Ram) (a : ℕ) : Bool := ram.le (a + 12) 2 / 2 % 2 == 1

/-- The physical address of a queue's used ring, from its two halves. -/
def Virtqueue.device (q : Virtqueue) : ℕ := (q.deviceHigh ++ q.deviceLow).toNat

/-- What goes on besides the driver's calls, at any time between them. -/
inductive NicEvent where
  /-- the rest of the driver's code stores in its own data, the stack among it -/
  | stack (off : ℕ) (bytes : List (BitVec 8))
  /-- the device writes at `off` in the buffer of a descriptor it comes to -/
  | dma (q : Fin 2) (slot : ℕ) (hops : List DescHop) (off : ℕ) (bytes : List (BitVec 8))
  /-- the device writes at `off` in a used ring -/
  | used (q : Fin 2) (off : ℕ) (bytes : List (BitVec 8))

/-- It is the device that does this, and not the rest of the driver's code. -/
def NicEvent.IsDevice : NicEvent → Prop
  | .stack _ _ => False
  | .dma _ _ _ _ _ => True
  | .used _ _ _ => True

/-- Memory with `bytes` stored at the physical address `a`. -/
def DriverState.write (s : DriverState) (a : ℕ) (bytes : List (BitVec 8)) : DriverState :=
  { s with nic := { s.nic with st := { s.nic.st with ram := s.nic.st.ram.write a bytes } } }

/-- A driver in its linear memory: where its statics are, with the proof that they lie apart and
inside. -/
structure DriverImage where
  mem : LinMem
  statics : Statics
  placed : statics.Placed mem.len

namespace DriverImage

variable (d : DriverImage)

/-- What the event leads to, where it can happen. The rest of the code does not touch the rings;
the device writes through the queues that are attached and ready. -/
def env (s : DriverState) : NicEvent → Option DriverState
  | .stack off bytes =>
    if off + bytes.length ≤ d.mem.len ∧
        ∀ a ∈ d.statics.rings, Apart off bytes.length a.1 a.2 then
      some (s.write (d.mem.base + off) bytes)
    else none
  | .dma q slot hops off bytes =>
    let vq := s.nic.st.nic.queues q
    if s.nic.attached q && vq.ready then
      match vq.chase s.nic.st.ram slot hops with
      | none => none
      | some (table, i) =>
        if descWritable s.nic.st.ram (table.entry i) = true ∧
            off + bytes.length ≤ descLen s.nic.st.ram (table.entry i) then
          some (s.write (descAddr s.nic.st.ram (table.entry i) + off) bytes)
        else none
    else none
  | .used q off bytes =>
    let vq := s.nic.st.nic.queues q
    if (s.nic.attached q && vq.ready) ∧ off + bytes.length ≤ 4 + 8 * vq.num.toNat then
      some (s.write (vq.device + off) bytes)
    else none

/-- The kernel, the device and the rest of the driver's code. -/
def world : World DriverState DriverOp (BitVec 32) NicEvent where
  act := driverAct
  env := d.env

/-- The driver starts with its statics clear, on a device that was not touched. -/
def Starts (numMax : BitVec 32 → BitVec 32) (c : DriverState × Driver Unit) : Prop :=
  c.2 = Driver.driverStart d.statics ∧ c.1.trace = [] ∧
    ∃ ram, c.1.nic = .booted (some d.mem) ram numMax ∧
      ∀ a ∈ d.statics.rings, ∀ k < a.2, ram (d.mem.base + a.1 + k) = 0#8

/-- **The driver on the kernel, with its device.** It brings the device up, and then does what
the stack asks for. -/
def machine (numMax : BitVec 32 → BitVec 32) :
    Machine (DriverState × Driver Unit) (Happening (BitVec 32) NicEvent Driver.Request) :=
  d.world.threaded (Driver.serve d.statics) (d.Starts numMax)

/-! ## What is promised

Of every state of every run: where the descriptors the device comes to point, and where it may
write next. -/

/-- The physical address `x` is in a receive buffer or in a used ring. -/
def Writable (x : ℕ) : Prop :=
  (d.mem.base + d.statics.rxBufs.toNat ≤ x ∧
    x < d.mem.base + d.statics.rxBufs.toNat + queueSize * frameMax) ∨
  (d.mem.base + d.statics.rxUsed.toNat ≤ x ∧
    x < d.mem.base + d.statics.rxUsed.toNat + (4 + 8 * queueSize)) ∨
  (d.mem.base + d.statics.txUsed.toNat ≤ x ∧
    x < d.mem.base + d.statics.txUsed.toNat + (4 + 8 * queueSize))

/-- **The device is fenced in.** Each descriptor it can come to names bytes of the linear memory
only, and what it writes next is in a receive buffer or in a used ring. -/
structure Fenced (s : DriverState) : Prop where
  contained : Contained s.nic
  writes : ∀ e t, e.IsDevice → d.env s e = some t →
    ∀ x, t.nic.st.ram x ≠ s.nic.st.ram x → d.Writable x

end DriverImage

end Wari
