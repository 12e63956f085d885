import Wari.Ipc
import Wari.Lib.Ram

/-!
# Kernel-owned DMA addressing

What a Tier-2 driver of a VirtIO NIC can do to the device: three host functions, of which one
configures a virtqueue, one points a descriptor of it at a buffer and one writes a register,
and loads and stores in its own linear memory, where the descriptor tables lie. Linear memory
is a window of physical memory, mapped at its physical address.

The device is the register file of the VirtIO MMIO transport, as far as it concerns
virtqueues. The build is the one for QEMU; the others have no VirtIO NIC.
-/

namespace Wari

open Lib (Ram toLe and_low_eq_zero)

/-! ## Argument checks

All sums are taken in 32 bits with overflow checked, before anything is compared with the size of
the memory. -/

/-- `DESC_SIZE`. -/
def descSize : BitVec 32 := 16

/-- A descriptor ring that the kernel knows about, in the memory of some module. -/
structure DmaRing where
  /-- offset of descriptor 0 in the module's linear memory -/
  descOff : BitVec 32
  /-- number of descriptors; zero while not configured -/
  entries : BitVec 32

/-- `MAX_RING_ENTRIES`. -/
def DmaRing.maxRingEntries : BitVec 32 := 1024

/-- The ring that no module has configured, which has no descriptors. -/
def DmaRing.empty : DmaRing := ⟨0, 0⟩

/-- Has a driver configured this ring? A recorded ring has at least one descriptor. -/
def DmaRing.isActive (ring : DmaRing) : Bool := ring.entries != 0

/-- `a.checked_add(b)` on `u32`: `none` where the sum overflows. -/
def checkedAdd (a b : BitVec 32) : Option (BitVec 32) :=
  if a.toNat + b.toNat < 2 ^ 32 then some (a + b) else none

/-- Does `[off, off + len)` lie inside a linear memory of `memLen` bytes? -/
def spanInLinmem (off len : BitVec 32) (memLen : ℕ) : Bool :=
  if len = 0 then false
  else
    match checkedAdd off len with
    | some e => e.toNat ≤ memLen
    | none => false

/-- Offset of the address field of descriptor `idx`. -/
def descAddrOffset (ring : DmaRing) (idx : BitVec 32) : Option (BitVec 32) :=
  if !ring.isActive ∨ ring.entries ≤ idx ∨ DmaRing.maxRingEntries < ring.entries then none
  else checkedAdd ring.descOff (idx * descSize)

/-- Is a ring description acceptable to record? It has entries, not too many, is aligned to 16
bytes, and lies in the memory. -/
def ringFits (descOff entries : BitVec 32) (memLen : ℕ) : Bool :=
  if entries = 0 ∨ DmaRing.maxRingEntries < entries ∨ descOff &&& 0xF ≠ 0 then false
  else spanInLinmem descOff (entries * descSize) memLen

/-! ## NIC registers

Registers are at fixed addresses. A driver may write those inside of the windows, except for the
ones that take a DMA address. -/

/-- A window of device registers that a driver may access. -/
structure MmioWindow where
  /-- first address -/
  base : ℕ
  /-- number of bytes -/
  len : ℕ

/-- Is `addr` in the window? Only the first byte of an access is looked at. -/
def MmioWindow.contains (w : MmioWindow) (addr : ℕ) : Bool :=
  w.base ≤ addr && addr < w.base + w.len

/-- Does the window permit an access of `width` bytes at `addr`? -/
def MmioWindow.allows (w : MmioWindow) (addr width : ℕ) : Bool :=
  if width = 0 ∨ addr % width ≠ 0 then false
  else if 2 ^ 64 ≤ addr + width then false
  else w.base ≤ addr && addr + width ≤ w.base + w.len

/-- Is `addr` in one of the windows of the list? -/
def addrInWindows (addr : ℕ) (windows : List MmioWindow) : Bool :=
  windows.any fun w => w.contains addr

/-- Does one of the windows permit the access? -/
def accessInWindows (addr width : ℕ) (windows : List MmioWindow) : Bool :=
  windows.any fun w => w.allows addr width

/-- `NET_MMIO_WINDOWS`. -/
def netMmioWindows : List MmioWindow := [⟨0x10008000, 0x200⟩]

/-- `DMA_ADDR_REGS`. -/
def dmaAddrRegs : List MmioWindow := [⟨0x10008080, 0x8⟩, ⟨0x10008090, 0x8⟩, ⟨0x100080a0, 0x8⟩]

def isNetMmioAddr (addr : ℕ) : Bool := addrInWindows addr netMmioWindows

def isNetMmioAccess (addr width : ℕ) : Bool := accessInWindows addr width netMmioWindows

def isDmaAddrRegister (addr width : ℕ) : Bool := accessInWindows addr width dmaAddrRegs

/-- `NIC_BASE_FOR_QUEUE_ATTACH`. -/
def nicBase : BitVec 32 := 0x10008000

def virtioMmioQueueSel : BitVec 32 := 0x030
def virtioMmioQueueNum : BitVec 32 := 0x038
def virtioMmioQueueReady : BitVec 32 := 0x044
def virtioMmioStatus : BitVec 32 := 0x070
def virtioMmioQueueDescLow : BitVec 32 := 0x080
def virtioMmioQueueDescHigh : BitVec 32 := 0x084
def virtioMmioQueueDriverLow : BitVec 32 := 0x090
def virtioMmioQueueDriverHigh : BitVec 32 := 0x094
def virtioMmioQueueDeviceLow : BitVec 32 := 0x0a0
def virtioMmioQueueDeviceHigh : BitVec 32 := 0x0a4

/-- The registers of one virtqueue, as the device has them for each queue. -/
structure Virtqueue where
  /-- `QueueNum` -/
  num : BitVec 32
  /-- `QueueReady` -/
  ready : Bool
  /-- `QueueDescLow` -/
  descLow : BitVec 32
  /-- `QueueDescHigh` -/
  descHigh : BitVec 32
  /-- `QueueDriverLow` -/
  driverLow : BitVec 32
  /-- `QueueDriverHigh` -/
  driverHigh : BitVec 32
  /-- `QueueDeviceLow` -/
  deviceLow : BitVec 32
  /-- `QueueDeviceHigh` -/
  deviceHigh : BitVec 32

/-- A virtqueue after reset: not ready, and with no address set. -/
def Virtqueue.reset : Virtqueue := ⟨0, false, 0, 0, 0, 0, 0, 0⟩

/-- A VirtIO network device: a receive and a transmit queue. -/
structure VirtioNic where
  /-- `QueueSel` -/
  sel : BitVec 32
  /-- the queues -/
  queues : Fin 2 → Virtqueue
  /-- `QueueNumMax`, by `QueueSel` -/
  numMax : BitVec 32 → BitVec 32

/-- Change the registers of the selected queue. Where no queue with that number exists, the write
is lost. -/
def VirtioNic.onQueue (d : VirtioNic) (f : Virtqueue → Virtqueue) : VirtioNic :=
  if hsel : d.sel.toNat < 2 then
    let q : Fin 2 := ⟨d.sel.toNat, hsel⟩
    { d with queues := Function.update d.queues q (f (d.queues q)) }
  else d

/-- A write of `val` to the register at offset `off`. -/
def VirtioNic.write32 (d : VirtioNic) (off val : BitVec 32) : VirtioNic :=
  if off = virtioMmioQueueSel then { d with sel := val }
  else if off = virtioMmioQueueNum then d.onQueue fun q => { q with num := val }
  else if off = virtioMmioQueueReady then d.onQueue fun q => { q with ready := val != 0 }
  -- writing zero to the status register resets the device
  else if off = virtioMmioStatus then
    if val = 0 then { d with sel := 0, queues := fun _ => Virtqueue.reset } else d
  else if off = virtioMmioQueueDescLow then d.onQueue fun q => { q with descLow := val }
  else if off = virtioMmioQueueDescHigh then d.onQueue fun q => { q with descHigh := val }
  else if off = virtioMmioQueueDriverLow then d.onQueue fun q => { q with driverLow := val }
  else if off = virtioMmioQueueDriverHigh then d.onQueue fun q => { q with driverHigh := val }
  else if off = virtioMmioQueueDeviceLow then d.onQueue fun q => { q with deviceLow := val }
  else if off = virtioMmioQueueDeviceHigh then d.onQueue fun q => { q with deviceHigh := val }
  else d

/-- The writes of `nic_attach_queue` to the device, from the selection of the queue to its being
ready. -/
def VirtioNic.configureQueue (nic : VirtioNic) (queueIdx queueSize : BitVec 32)
    (descPa availPa usedPa : BitVec 64) : ℤ × VirtioNic :=
  if !isNetMmioAddr (nicBase + virtioMmioQueueSel).toNat then (eInval, nic)
  else
    let nic := nic.write32 virtioMmioQueueSel queueIdx
    if nic.numMax nic.sel < queueSize then (eInval, nic)
    else
      let nic := nic.write32 virtioMmioQueueNum queueSize
      let nic := nic.write32 virtioMmioQueueDescLow (descPa.setWidth 32)
      let nic := nic.write32 virtioMmioQueueDescHigh ((descPa >>> 32).setWidth 32)
      let nic := nic.write32 virtioMmioQueueDriverLow (availPa.setWidth 32)
      let nic := nic.write32 virtioMmioQueueDriverHigh ((availPa >>> 32).setWidth 32)
      let nic := nic.write32 virtioMmioQueueDeviceLow (usedPa.setWidth 32)
      let nic := nic.write32 virtioMmioQueueDeviceHigh ((usedPa >>> 32).setWidth 32)
      let nic := nic.write32 virtioMmioQueueReady 1
      (0, nic)

/-! ## The host functions

Each first looks for the driver's capability. An error leaves the state as it was, except where it
is said otherwise. -/

/-- A linear memory, and where it lies in physical memory. -/
structure LinMem where
  /-- its first physical address -/
  base : ℕ
  /-- its length in bytes -/
  len : ℕ
  /-- it lies in the address space -/
  fits : base + len ≤ 2 ^ 64

/-- What the host functions of the NIC work on, within the kernel and outside. -/
structure NicState where
  /-- capabilities -/
  caps : CapState
  /-- the memory the driver exports -/
  memory : Option LinMem
  /-- physical memory -/
  ram : Ram
  /-- `dma_rings()`: receive and transmit ring of each process -/
  dmaRings : Proc → Fin 2 → DmaRing
  /-- the device -/
  nic : VirtioNic

/-- The ring that an argument names: 0 to receive, 1 to transmit, and no other. -/
def ringIndex? (ring : BitVec 32) : Option (Fin 2) :=
  if h : ring.toNat < 2 then some ⟨ring.toNat, h⟩ else none

/-- `record_ring(proc_id, ring, desc_off, entries, mem_len)`; `none` is `false`. -/
def recordRing (s : NicState) (procId : BitVec 8) (ring descOff entries : BitVec 32)
    (memLen : ℕ) : Option NicState :=
  match procIndex? procId, ringIndex? ring with
  | some p, some r =>
    if !ringFits descOff entries memLen then none
    else
      some { s with
        dmaRings := Function.update s.dmaRings p
          (Function.update (s.dmaRings p) r ⟨descOff, entries⟩) }
  | _, _ => none

/-- `wari::nic_dma_set_buf(ring, idx, buf_off, len) -> i32`: the kernel writes the physical
address of a buffer into a descriptor, for the driver does not know it. -/
def nicDmaSetBufImpl (s : NicState) (procId : BitVec 8) (ring idx bufOff len : BitVec 32) :
    ℤ × NicState :=
  match procIndex? procId with
  | none => (ePerm, s)
  | some p =>
    let cap := s.caps.capAt (p, 0)
    if cap.isEmpty || cap.kind != .net || cap.rights &&& capRightWrite = 0#8 then (ePerm, s)
    else
      match ringIndex? ring with
      | none => (eInval, s)
      | some r =>
        match descAddrOffset (s.dmaRings p r) idx with
        | none => (eInval, s)
        | some addrOff =>
          match s.memory with
          | none => (eNomem, s)
          | some mem =>
            if !spanInLinmem bufOff len mem.len || !spanInLinmem addrOff 8 mem.len then (eInval, s)
            else
              let pa := BitVec.ofNat 64 (mem.base + bufOff.toNat)
              if addrOff.toNat + 8 ≤ mem.len then
                (0, { s with ram := s.ram.write (mem.base + addrOff.toNat) (toLe 8 pa.toNat) })
              else (eInval, s)

/-- `wari::nic_attach_queue(queue_idx, desc_off, avail_off, used_off, queue_size) -> i32`: the
arguments are checked first, then the ring is recorded, then the device is told. -/
def nicAttachQueueImpl (s : NicState) (procId : BitVec 8)
    (queueIdx descOff availOff usedOff queueSize : BitVec 32) : ℤ × NicState :=
  match procIndex? procId with
  | none => (ePerm, s)
  | some p =>
    let cap := s.caps.capAt (p, 0)
    if cap.isEmpty || cap.kind != .net || cap.rights &&& capRightWrite = 0#8 then (ePerm, s)
    else if 1 < queueIdx then (eInval, s)
    else if queueSize = 0 ∨ 256 < queueSize ∨ queueSize &&& (queueSize - 1) ≠ 0 then (eInval, s)
    else if descOff &&& 0xF ≠ 0 then (eInval, s)
    else if availOff &&& 0x1 ≠ 0 then (eInval, s)
    else if usedOff &&& 0x3 ≠ 0 then (eInval, s)
    else
      match s.memory with
      | none => (eNomem, s)
      | some mem =>
        if mem.len < descOff.toNat + 16 * queueSize.toNat then (eInval, s)
        else if mem.len < availOff.toNat + (4 + 2 * queueSize.toNat) then (eInval, s)
        else if mem.len < usedOff.toNat + (4 + 8 * queueSize.toNat) then (eInval, s)
        else
          match recordRing s procId queueIdx descOff queueSize mem.len with
          | none => (eInval, s)
          | some s =>
            let out := s.nic.configureQueue queueIdx queueSize
              (BitVec.ofNat 64 (mem.base + descOff.toNat))
              (BitVec.ofNat 64 (mem.base + availOff.toNat))
              (BitVec.ofNat 64 (mem.base + usedOff.toNat))
            (out.1, { s with nic := out.2 })

/-- `wari::net_mmio_write32(addr, val) -> i32`: a driver may write any register in its window but
those with addresses in them. -/
def hostNetMmioWrite32 (s : NicState) (addr val : BitVec 32) : ℤ × NicState :=
  match s.caps.checkCap (procIdTier2Net, 0) .net capRightWrite with
  | .error _ => (ePerm, s)
  | .ok () =>
    if !isNetMmioAccess addr.toNat 4 then (eInval, s)
    else if isDmaAddrRegister addr.toNat 4 then (eInval, s)
    else (0, { s with nic := s.nic.write32 (addr - nicBase) val })

/-! ## What the checks say

The checks, as inequalities over numbers instead of words. -/

theorem spanInLinmem_iff {off len : BitVec 32} {memLen : ℕ} :
    spanInLinmem off len memLen = true ↔
      len ≠ 0 ∧ off.toNat + len.toNat < 2 ^ 32 ∧ off.toNat + len.toNat ≤ memLen := by
  rw [spanInLinmem, checkedAdd]
  split
  · rename_i hzero
    simp [hzero]
  · rename_i hpos
    by_cases hlt : off.toNat + len.toNat < 2 ^ 32
    · rw [if_pos hlt]
      simp only [decide_eq_true_eq, BitVec.toNat_add_of_lt hlt]
      exact ⟨fun hle => ⟨hpos, hlt, hle⟩, fun h => h.2.2⟩
    · rw [if_neg hlt]
      exact ⟨fun h => (Bool.false_ne_true h).elim, fun h => (hlt h.2.1).elim⟩

/-- A number of descriptors in bytes: no ring that is small enough to record overflows. -/
theorem toNat_mul_descSize {n : BitVec 32} (h : n ≤ DmaRing.maxRingEntries) :
    (n * descSize).toNat = 16 * n.toNat := by
  have hle : n.toNat ≤ 1024 := h
  rw [BitVec.toNat_mul, show descSize.toNat = 16 from rfl]
  omega

theorem ringFits_iff {descOff entries : BitVec 32} {memLen : ℕ} :
    ringFits descOff entries memLen = true ↔
      0 < entries.toNat ∧ entries.toNat ≤ 1024 ∧ descOff.toNat % 16 = 0 ∧
      descOff.toNat + 16 * entries.toNat < 2 ^ 32 ∧
      descOff.toNat + 16 * entries.toNat ≤ memLen := by
  have hzero : entries = 0 ↔ entries.toNat = 0 :=
    ⟨fun h => by rw [h]; rfl, fun h => BitVec.eq_of_toNat_eq h⟩
  have hmax : DmaRing.maxRingEntries < entries ↔ 1024 < entries.toNat := Iff.rfl
  have halign : descOff &&& 0xF = 0 ↔ descOff.toNat % 16 = 0 :=
    and_low_eq_zero descOff (k := 4) (by decide)
  rw [ringFits]
  split
  · rename_i hargs
    rw [hzero, hmax, ne_eq, halign] at hargs
    exact ⟨fun h => (Bool.false_ne_true h).elim, fun h => by omega⟩
  · rename_i hargs
    rw [hzero, hmax, ne_eq, halign] at hargs
    have hmul : (entries * descSize).toNat = 16 * entries.toNat :=
      toNat_mul_descSize (BitVec.not_lt.mp fun hlt => hargs (.inr (.inl hlt)))
    have hpos : entries * descSize ≠ 0 := by
      intro he
      rw [he, show (0 : BitVec 32).toNat = 0 from rfl] at hmul
      omega
    rw [spanInLinmem_iff, hmul]
    refine ⟨fun h => ⟨?_, ?_, ?_, h.2⟩, fun h => ⟨hpos, h.2.2.2⟩⟩ <;> omega

theorem ringFits_aligned {descOff entries : BitVec 32} {memLen : ℕ}
    (h : ringFits descOff entries memLen = true) : descOff.toNat % 16 = 0 :=
  (ringFits_iff.mp h).2.2.1

theorem descAddrOffset_some {ring : DmaRing} {idx addrOff : BitVec 32}
    (h : descAddrOffset ring idx = some addrOff) :
    idx.toNat < ring.entries.toNat ∧ addrOff.toNat = ring.descOff.toNat + 16 * idx.toNat := by
  rw [descAddrOffset] at h
  split at h
  · cases h
  · rename_i hargs
    have hlt : idx < ring.entries := by
      by_contra hle
      exact hargs (.inr (.inl (BitVec.not_lt.mp hle)))
    have hmax : ring.entries ≤ DmaRing.maxRingEntries := by
      by_contra hgt
      exact hargs (.inr (.inr (BitVec.not_le.mp hgt)))
    have hmul : (idx * descSize).toNat = 16 * idx.toNat :=
      toNat_mul_descSize (BitVec.le_trans (BitVec.le_of_lt hlt) hmax)
    rw [checkedAdd] at h
    split at h
    · rename_i hfits
      rw [← Option.some.inj h, BitVec.toNat_add_of_lt hfits, hmul]
      exact ⟨hlt, rfl⟩
    · cases h

/-- A descriptor's address field is at a multiple of the descriptor's size. -/
theorem descAddrOffset_aligned {ring : DmaRing} {idx addrOff : BitVec 32}
    (halign : ring.descOff.toNat % 16 = 0) (h : descAddrOffset ring idx = some addrOff) :
    addrOff.toNat % 16 = 0 := by
  obtain ⟨-, hoff⟩ := descAddrOffset_some h
  omega

/-! ## The device

What a write to a register does to a queue of the device, told without the register numbers. -/

namespace VirtioNic

variable {d : VirtioNic}

theorem onQueue_eq {q : Fin 2} (h : d.sel.toNat = q.val) (f : Virtqueue → Virtqueue) :
    d.onQueue f = { d with queues := Function.update d.queues q (f (d.queues q)) } := by
  have hlt : d.sel.toNat < 2 := by omega
  obtain rfl : (⟨d.sel.toNat, hlt⟩ : Fin 2) = q := Fin.ext h
  rw [onQueue, dif_pos hlt]

theorem queues_onQueue (f : Virtqueue → Virtqueue) (q : Fin 2) :
    (d.onQueue f).queues q = if d.sel.toNat = q.val then f (d.queues q) else d.queues q := by
  split
  · rename_i h
    rw [onQueue_eq h]
    exact Function.update_self _ _ _
  · rename_i h
    rw [onQueue]
    split
    · have hne : q ≠ ⟨d.sel.toNat, by assumption⟩ := by
        rintro rfl
        exact h rfl
      exact Function.update_of_ne hne _ _
    · rfl

@[simp] theorem sel_onQueue (f : Virtqueue → Virtqueue) : (d.onQueue f).sel = d.sel := by
  rw [onQueue]
  split <;> rfl

theorem onQueue_onQueue (f g : Virtqueue → Virtqueue) :
    (d.onQueue f).onQueue g = d.onQueue fun q => g (f q) := by
  by_cases hsel : d.sel.toNat < 2
  · have hq : d.sel.toNat = (⟨d.sel.toNat, hsel⟩ : Fin 2).val := rfl
    rw [onQueue_eq (d := d.onQueue f) (by rw [sel_onQueue]; exact hq), onQueue_eq hq, onQueue_eq hq]
    simp
  · rw [onQueue, dif_neg (by rwa [sel_onQueue]), onQueue, onQueue, dif_neg hsel, dif_neg hsel]

/-- **What configuring a queue does**: it sets all registers of the queue and makes it live, or
only selects it. -/
theorem configureQueue_cases (queueIdx queueSize : BitVec 32) (descPa availPa usedPa : BitVec 64) :
    ((d.configureQueue queueIdx queueSize descPa availPa usedPa).1 ≠ 0 ∧
      (d.configureQueue queueIdx queueSize descPa availPa usedPa).2.queues = d.queues) ∨
    d.configureQueue queueIdx queueSize descPa availPa usedPa =
      (0, ({ d with sel := queueIdx } : VirtioNic).onQueue fun _ =>
        { num := queueSize
          ready := true
          descLow := descPa.setWidth 32
          descHigh := (descPa >>> 32).setWidth 32
          driverLow := availPa.setWidth 32
          driverHigh := (availPa >>> 32).setWidth 32
          deviceLow := usedPa.setWidth 32
          deviceHigh := (usedPa >>> 32).setWidth 32 }) := by
  have hlicensed : isNetMmioAddr (nicBase + virtioMmioQueueSel).toNat = true := by decide
  have hinval : eInval ≠ 0 := by decide
  rw [configureQueue, hlicensed]
  simp only [Bool.not_true, Bool.false_eq_true, if_false]
  split
  · exact .inl ⟨hinval, rfl⟩
  · refine .inr (congrArg (Prod.mk 0) ?_)
    have hsel : d.write32 virtioMmioQueueSel queueIdx = { d with sel := queueIdx } := rfl
    rw [hsel]
    generalize ({ d with sel := queueIdx } : VirtioNic) = d₁
    have hnum : ∀ d v, write32 d virtioMmioQueueNum v = d.onQueue fun q => { q with num := v } :=
      fun _ _ => rfl
    have hdescLow : ∀ d v, write32 d virtioMmioQueueDescLow v =
        d.onQueue fun q => { q with descLow := v } := fun _ _ => rfl
    have hdescHigh : ∀ d v, write32 d virtioMmioQueueDescHigh v =
        d.onQueue fun q => { q with descHigh := v } := fun _ _ => rfl
    have hdriverLow : ∀ d v, write32 d virtioMmioQueueDriverLow v =
        d.onQueue fun q => { q with driverLow := v } := fun _ _ => rfl
    have hdriverHigh : ∀ d v, write32 d virtioMmioQueueDriverHigh v =
        d.onQueue fun q => { q with driverHigh := v } := fun _ _ => rfl
    have hdeviceLow : ∀ d v, write32 d virtioMmioQueueDeviceLow v =
        d.onQueue fun q => { q with deviceLow := v } := fun _ _ => rfl
    have hdeviceHigh : ∀ d v, write32 d virtioMmioQueueDeviceHigh v =
        d.onQueue fun q => { q with deviceHigh := v } := fun _ _ => rfl
    have hready : ∀ d v, write32 d virtioMmioQueueReady v =
        d.onQueue fun q => { q with ready := v != 0 } := fun _ _ => rfl
    rw [hnum, hdescLow, hdescHigh, hdriverLow, hdriverHigh, hdeviceLow, hdeviceHigh, hready]
    -- eight updates of one queue are one
    rw [onQueue_onQueue, onQueue_onQueue, onQueue_onQueue, onQueue_onQueue, onQueue_onQueue,
      onQueue_onQueue, onQueue_onQueue]
    rfl

/-- Not a register that takes a DMA address. -/
def Plain (off : BitVec 32) : Prop :=
  off ∉ [virtioMmioQueueDescLow, virtioMmioQueueDescHigh, virtioMmioQueueDriverLow,
    virtioMmioQueueDriverHigh, virtioMmioQueueDeviceLow, virtioMmioQueueDeviceHigh]

/-- **What a plain write does** to a queue: nothing, a reset, or another `QueueNum` or
`QueueReady` where it is selected. -/
theorem write32_cases {off : BitVec 32} (hplain : Plain off) (val : BitVec 32) (q : Fin 2) :
    (d.write32 off val).queues q = d.queues q ∨
    (d.write32 off val).queues q = Virtqueue.reset ∨
    (d.sel.toNat = q.val ∧ off = virtioMmioQueueNum ∧
      (d.write32 off val).queues q = { d.queues q with num := val }) ∨
    (d.sel.toNat = q.val ∧ off = virtioMmioQueueReady ∧
      (d.write32 off val).queues q = { d.queues q with ready := val != 0 }) := by
  simp only [Plain, List.mem_cons, List.not_mem_nil, or_false, not_or] at hplain
  obtain ⟨h₁, h₂, h₃, h₄, h₅, h₆⟩ := hplain
  generalize hd' : d.write32 off val = d'
  rw [write32] at hd'
  split at hd'
  · subst hd'
    exact .inl rfl
  split at hd'
  · rename_i hoff
    subst hd'
    rw [queues_onQueue]
    split
    · rename_i hsel
      exact .inr (.inr (.inl ⟨hsel, hoff, rfl⟩))
    · exact .inl rfl
  split at hd'
  · rename_i hoff
    subst hd'
    rw [queues_onQueue]
    split
    · rename_i hsel
      exact .inr (.inr (.inr ⟨hsel, hoff, rfl⟩))
    · exact .inl rfl
  split at hd'
  · split at hd'
    · subst hd'
      exact .inr (.inl rfl)
    · subst hd'
      exact .inl rfl
  · subst hd'
    exact .inl rfl

end VirtioNic

/-- What the host function lets through is no register that takes a DMA address. -/
theorem plain_of_checks {addr : BitVec 32} (h : isDmaAddrRegister addr.toNat 4 = false) :
    VirtioNic.Plain (addr - nicBase) := by
  intro hmem
  have haddr : addr = (addr - nicBase) + nicBase := (BitVec.sub_add_cancel addr nicBase).symm
  generalize addr - nicBase = off at hmem haddr
  subst haddr
  simp only [List.mem_cons, List.not_mem_nil, or_false] at hmem
  rcases hmem with rfl | rfl | rfl | rfl | rfl | rfl <;> exact absurd h (by decide)

/-! ## What the host functions do

One lemma for each, with the two outcomes that matter: refused without effect, or done as asked.
-/

/-- Every recorded table is aligned to the descriptor's size. So an address field the kernel
writes is one of a descriptor, and not bytes of two. -/
def RingsAligned (s : NicState) : Prop := ∀ p r, (s.dmaRings p r).descOff.toNat % 16 = 0

/-- **`nic_dma_set_buf`** writes the address field of one descriptor, or it fails and writes
nothing. -/
theorem nicDmaSetBufImpl_cases {s s' : NicState} {p : Proc} {ring idx bufOff len : BitVec 32}
    {rc : ℤ} (h : nicDmaSetBufImpl s (procByte p) ring idx bufOff len = (rc, s')) :
    (rc < 0 ∧ s' = s) ∨ (rc = 0 ∧ ∃ mem r addrOff, s.memory = some mem ∧ ringIndex? ring = some r ∧
      descAddrOffset (s.dmaRings p r) idx = some addrOff ∧
      spanInLinmem addrOff 8 mem.len = true ∧ spanInLinmem bufOff len mem.len = true ∧
      mem.base + bufOff.toNat < 2 ^ 64 ∧
      s' = { s with
        ram := s.ram.write (mem.base + addrOff.toNat) (toLe 8 (mem.base + bufOff.toNat)) }) := by
  have hrefused : ∀ {rc' : ℤ}, rc' < 0 → (rc', s) = (rc, s') → rc < 0 ∧ s' = s := by
    intro rc' hneg he
    obtain ⟨rfl, rfl⟩ := Prod.mk.inj he
    exact ⟨hneg, rfl⟩
  have hinval : eInval < 0 := by decide
  rw [nicDmaSetBufImpl, procIndex?_procByte] at h
  simp only at h
  split at h
  · exact .inl (hrefused (by decide) h)
  split at h
  · exact .inl (hrefused hinval h)
  rename_i r hr
  split at h
  · exact .inl (hrefused hinval h)
  rename_i addrOff haddr
  split at h
  · exact .inl (hrefused (by decide) h)
  rename_i mem hmem
  split at h
  · exact .inl (hrefused hinval h)
  rename_i hspans
  split at h
  · rw [Bool.not_eq_true, Bool.or_eq_false_iff, Bool.not_eq_false', Bool.not_eq_false'] at hspans
    obtain ⟨hspan, hfield⟩ := hspans
    obtain ⟨hpos, -, hle⟩ := spanInLinmem_iff.mp hspan
    have hlen : 0 < len.toNat := Nat.pos_of_ne_zero fun he => hpos (BitVec.eq_of_toNat_eq he)
    have hlt : mem.base + bufOff.toNat < 2 ^ 64 := by
      have := mem.fits
      omega
    rw [BitVec.toNat_ofNat, Nat.mod_eq_of_lt hlt] at h
    obtain ⟨rfl, rfl⟩ := Prod.mk.inj h
    exact .inr ⟨rfl, mem, r, addrOff, hmem, hr, haddr, hfield, hspan, hlt, rfl⟩
  · exact .inl (hrefused hinval h)

/-- **`net_mmio_write32`** writes a plain register, or it fails and writes nothing. -/
theorem hostNetMmioWrite32_cases (s : NicState) (addr val : BitVec 32) :
    (hostNetMmioWrite32 s addr val).2 = s ∨ VirtioNic.Plain (addr - nicBase) ∧
      (hostNetMmioWrite32 s addr val).2 =
        { s with nic := s.nic.write32 (addr - nicBase) val } := by
  rw [hostNetMmioWrite32]
  split
  · exact .inl rfl
  split
  · exact .inl rfl
  split
  · exact .inl rfl
  · rename_i hreg
    exact .inr ⟨plain_of_checks (by simpa using hreg), rfl⟩

/-- A refused attachment leaves memory and the queues alone. -/
structure Unattached (s s' : NicState) : Prop where
  ram : s'.ram = s.ram
  memory : s'.memory = s.memory
  queues : s'.nic.queues = s.nic.queues
  rings : RingsAligned s → RingsAligned s'

/-- An attached queue is live, with the table that was checked. -/
structure Attached (s s' : NicState) (q : Fin 2) (descOff queueSize : BitVec 32) : Prop where
  ram : s'.ram = s.ram
  memory : s'.memory = s.memory
  rings : RingsAligned s → RingsAligned s'
  fits : ∃ mem, s.memory = some mem ∧ ringFits descOff queueSize mem.len = true ∧
    descOff.toNat + 16 * queueSize.toNat ≤ mem.len ∧
    ((s'.nic.queues q).descHigh ++ (s'.nic.queues q).descLow).toNat = mem.base + descOff.toNat
  live : (s'.nic.queues q).ready = true
  num : (s'.nic.queues q).num = queueSize
  others : ∀ q', q' ≠ q → s'.nic.queues q' = s.nic.queues q'

/-- A ring that is recorded was found acceptable, so that all rings stay aligned. -/
theorem recordRing_some {s s' : NicState} {p : Proc} {ring descOff entries : BitVec 32}
    {memLen : ℕ} (h : recordRing s (procByte p) ring descOff entries memLen = some s') :
    (∃ rings, s' = { s with dmaRings := rings }) ∧ ringFits descOff entries memLen = true ∧
      (RingsAligned s → RingsAligned s') := by
  rw [recordRing, procIndex?_procByte] at h
  split at h
  · rename_i p' r hp hr
    split at h
    · cases h
    · rename_i hfits
      have hfits : ringFits descOff entries memLen = true := by simpa using hfits
      obtain rfl := Option.some.inj h
      refine ⟨⟨_, rfl⟩, hfits, fun hrings p₁ r₁ => ?_⟩
      change ((Function.update s.dmaRings p' _) p₁ r₁).descOff.toNat % 16 = 0
      by_cases hp₁ : p₁ = p'
      · subst hp₁
        rw [Function.update_self]
        by_cases hr₁ : r₁ = r
        · rw [hr₁, Function.update_self]
          exact ringFits_aligned hfits
        · rw [Function.update_of_ne hr₁]
          exact hrings p₁ r₁
      · rw [Function.update_of_ne hp₁]
        exact hrings p₁ r₁
  · cases h

/-- An address is put together again from its two halves. -/
theorem toNat_halves (pa : BitVec 64) :
    (((pa >>> 32).setWidth 32 : BitVec 32) ++ (pa.setWidth 32 : BitVec 32)).toNat = pa.toNat := by
  have hlt := pa.isLt
  rw [BitVec.toNat_append, BitVec.toNat_setWidth, BitVec.toNat_setWidth, BitVec.toNat_ushiftRight,
    Nat.shiftRight_eq_div_pow, ← Nat.shiftLeft_add_eq_or_of_lt (Nat.mod_lt _ (by decide)),
    Nat.shiftLeft_eq]
  omega

/-- **`nic_attach_queue`** makes a queue live with the table it checked, or refuses, and then no
queue goes live. -/
theorem nicAttachQueueImpl_cases {s s' : NicState} {p : Proc}
    {queueIdx descOff availOff usedOff queueSize : BitVec 32} {rc : ℤ}
    (h : nicAttachQueueImpl s (procByte p) queueIdx descOff availOff usedOff queueSize =
      (rc, s')) :
    (rc ≠ 0 ∧ Unattached s s') ∨
    (rc = 0 ∧ ∃ q : Fin 2, queueIdx.toNat = q.val ∧ Attached s s' q descOff queueSize) := by
  have hrefused : ∀ {rc' : ℤ}, rc' ≠ 0 → (rc', s) = (rc, s') → rc ≠ 0 ∧ Unattached s s' := by
    intro rc' hne he
    obtain ⟨rfl, rfl⟩ := Prod.mk.inj he
    exact ⟨hne, rfl, rfl, rfl, id⟩
  have hinval : eInval ≠ 0 := by decide
  have hperm : ePerm ≠ 0 := by decide
  rw [nicAttachQueueImpl, procIndex?_procByte] at h
  dsimp only at h
  rcases ite_eq_iff.mp h with ⟨-, h⟩ | ⟨-, h⟩
  · exact .inl (hrefused hperm h)
  rcases ite_eq_iff.mp h with ⟨-, h⟩ | ⟨hidx, h⟩
  · exact .inl (hrefused hinval h)
  rcases ite_eq_iff.mp h with ⟨-, h⟩ | ⟨hsize, h⟩
  · exact .inl (hrefused hinval h)
  rcases ite_eq_iff.mp h with ⟨-, h⟩ | ⟨-, h⟩
  · exact .inl (hrefused hinval h)
  rcases ite_eq_iff.mp h with ⟨-, h⟩ | ⟨-, h⟩
  · exact .inl (hrefused hinval h)
  rcases ite_eq_iff.mp h with ⟨-, h⟩ | ⟨-, h⟩
  · exact .inl (hrefused hinval h)
  split at h
  · exact .inl (hrefused (by decide) h)
  rename_i mem hmem
  rcases ite_eq_iff.mp h with ⟨-, h⟩ | ⟨hdesc, h⟩
  · exact .inl (hrefused hinval h)
  rcases ite_eq_iff.mp h with ⟨-, h⟩ | ⟨-, h⟩
  · exact .inl (hrefused hinval h)
  rcases ite_eq_iff.mp h with ⟨-, h⟩ | ⟨-, h⟩
  · exact .inl (hrefused hinval h)
  split at h
  · exact .inl (hrefused hinval h)
  rename_i s₁ hrecord
  obtain ⟨⟨rings, rfl⟩, hfits, hrings⟩ := recordRing_some hrecord
  have hlt : queueIdx.toNat < 2 := by
    have hle : ¬ 1 < queueIdx.toNat := hidx
    omega
  rcases s.nic.configureQueue_cases queueIdx queueSize (BitVec.ofNat 64 (mem.base + descOff.toNat))
    (BitVec.ofNat 64 (mem.base + availOff.toNat)) (BitVec.ofNat 64 (mem.base + usedOff.toNat))
    with ⟨hne, hqueues⟩ | hconf
  · obtain ⟨rfl, rfl⟩ := Prod.mk.inj h
    exact .inl ⟨hne, rfl, rfl, hqueues, hrings⟩
  · rw [hconf] at h
    obtain ⟨rfl, rfl⟩ := Prod.mk.inj h
    have hq : ({ s.nic with sel := queueIdx } : VirtioNic).sel.toNat =
        (⟨queueIdx.toNat, hlt⟩ : Fin 2).val := rfl
    rw [VirtioNic.onQueue_eq hq]
    have hpos : 0 < queueSize.toNat :=
      Nat.pos_of_ne_zero fun he => hsize (.inl (BitVec.eq_of_toNat_eq he))
    have hpa : (BitVec.ofNat 64 (mem.base + descOff.toNat)).toNat = mem.base + descOff.toNat := by
      have := mem.fits
      rw [BitVec.toNat_ofNat, Nat.mod_eq_of_lt (by omega)]
    refine .inr ⟨rfl, ⟨queueIdx.toNat, hlt⟩, rfl, rfl, rfl, hrings, ⟨mem, hmem, hfits, by omega,
      ?_⟩, ?_, ?_, fun q' hne => Function.update_of_ne hne _ _⟩
    · dsimp only
      rw [Function.update_self, toNat_halves, hpa]
    · dsimp only
      rw [Function.update_self]
    · dsimp only
      rw [Function.update_self]

end Wari
