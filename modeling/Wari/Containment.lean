import Wari.Dma
import Wari.Lib.Machine

/-!
# Where the NIC's DMA can reach

The kernel checks the address it writes into a descriptor, but the descriptor tables lie in
the driver's linear memory: an ordinary store replaces the address, lengthens the span it
begins, or makes the bytes there a table of further descriptors, which the kernel never looks
at. `contained_along` says what a driver has to leave alone for its device to stay in its
memory, and `dma_escapes` is a driver that does not.
-/

namespace Wari

open Lib (Ram Machine Apart toLe length_toLe)

/-! ## What the device reaches

The device reads descriptors from memory, and the memory says where the next one is. What it can
come to is the least set closed under what a descriptor may refer to. -/

/-- The physical address of a queue's descriptor table, from its two halves. -/
def Virtqueue.desc (q : Virtqueue) : ℕ := (q.descHigh ++ q.descLow).toNat

/-- The physical address of a queue's available ring, from its two halves. -/
def Virtqueue.driver (q : Virtqueue) : ℕ := (q.driverHigh ++ q.driverLow).toNat

/-- The physical address of descriptor `i`: each takes 16 bytes. -/
def Virtqueue.entry (q : Virtqueue) (i : ℕ) : ℕ := q.desc + 16 * i

/-- `virtq_desc.addr` of the descriptor at `a`: where its buffer begins. -/
def descAddr (ram : Ram) (a : ℕ) : ℕ := ram.le a 8

/-- `virtq_desc.len` of the descriptor at `a`: how long its buffer is. -/
def descLen (ram : Ram) (a : ℕ) : ℕ := ram.le (a + 8) 4

/-- `virtq_desc.flags` has `VIRTQ_DESC_F_NEXT`: the chain goes on. -/
def descChained (ram : Ram) (a : ℕ) : Bool := ram.le (a + 12) 2 % 2 == 1

/-- `virtq_desc.next` of the descriptor at `a`: where the chain goes on, if it does. -/
def descNext (ram : Ram) (a : ℕ) : ℕ := ram.le (a + 14) 2

/-- `virtq_desc.flags` has `VIRTQ_DESC_F_INDIRECT`: the bytes the descriptor names are
descriptors themselves. -/
def descIndirect (ram : Ram) (a : ℕ) : Bool := ram.le (a + 12) 2 / 4 % 2 == 1

/-- Slot `k` of the available ring, with the index of a descriptor that heads a chain. -/
def Virtqueue.avail (q : Virtqueue) (ram : Ram) (k : ℕ) : ℕ := ram.le (q.driver + 4 + 2 * k) 2

/-- A table of descriptors, where it lies and how many it has. It is that of a queue, or one
that a descriptor refers to, and then it can lie anywhere in physical memory. -/
structure DescTable where
  /-- physical address of the first descriptor -/
  base : ℕ
  /-- how many there are -/
  num : ℕ
  deriving DecidableEq

/-- Physical address of descriptor `i` of the table. -/
def DescTable.entry (table : DescTable) (i : ℕ) : ℕ := table.base + 16 * i

/-- The queue's own table, as opposed to one that a descriptor of it points at. -/
def Virtqueue.descTable (q : Virtqueue) : DescTable := ⟨q.desc, q.num.toNat⟩

/-- The table that the descriptor at `a` refers to: as many whole descriptors as its length has
room for. -/
def indirectTable (ram : Ram) (a : ℕ) : DescTable := ⟨descAddr ram a, descLen ram a / 16⟩

/-- The descriptors the device can come to: those of the queue's table that the available ring
names, those chained in the same table to one it can come to, and the first of each table that
one it can come to refers to. Which slot of the ring it takes next is up to the device, and so
is what it does with a descriptor that has both flags. -/
inductive Virtqueue.Reaches (q : Virtqueue) (ram : Ram) : DescTable → ℕ → Prop where
  | head {k : ℕ} (hk : k < q.num.toNat) (hi : q.avail ram k < q.num.toNat) :
      Reaches q ram q.descTable (q.avail ram k)
  | next {table : DescTable} {i : ℕ} (h : Reaches q ram table i)
      (hchained : descChained ram (table.entry i) = true)
      (hi : descNext ram (table.entry i) < table.num) :
      Reaches q ram table (descNext ram (table.entry i))
  | indirect {table : DescTable} {i : ℕ} (h : Reaches q ram table i)
      (hindirect : descIndirect ram (table.entry i) = true)
      (hi : 0 < (indirectTable ram (table.entry i)).num) :
      Reaches q ram (indirectTable ram (table.entry i)) 0

/-- **The device keeps to the queue's table** where no descriptor of it refers to another. -/
theorem Virtqueue.Reaches.direct {q : Virtqueue} {ram : Ram} {table : DescTable} {i : ℕ}
    (h : q.Reaches ram table i)
    (hdirect : ∀ j < q.num.toNat, descIndirect ram (q.entry j) = false) :
    table = q.descTable ∧ i < q.num.toNat := by
  induction h with
  | head hk hi => exact ⟨rfl, hi⟩
  | next h hchained hi ih =>
    obtain ⟨rfl, -⟩ := ih
    exact ⟨rfl, hi⟩
  | indirect h hindirect hi ih =>
    obtain ⟨rfl, hlt⟩ := ih
    -- the way out of the table is closed
    have hclosed := hdirect _ hlt
    rw [show q.entry _ = q.descTable.entry _ from rfl, hindirect] at hclosed
    cases hclosed

/-- The `len` bytes at the physical address `addr` are in the linear memory. -/
def LinMem.Holds (mem : LinMem) (addr len : ℕ) : Prop :=
  len = 0 ∨ mem.base ≤ addr ∧ addr + len ≤ mem.base + mem.len

instance (mem : LinMem) (addr len : ℕ) : Decidable (mem.Holds addr len) :=
  inferInstanceAs (Decidable (_ ∨ _))

/-- The descriptor at `a` names bytes of the linear memory only. -/
def LinMem.HoldsDesc (mem : LinMem) (ram : Ram) (a : ℕ) : Prop :=
  mem.Holds (descAddr ram a) (descLen ram a)

/-! ## The driver and its device

The driver is any program: it stores what it likes in its memory and calls the host functions in
any order. -/

/-- What a driver does: the three host functions, a store, or growing its memory, which may
move it. -/
inductive NicCall where
  | attachQueue (queueIdx descOff availOff usedOff queueSize : BitVec 32)
  | dmaSetBuf (ring idx bufOff len : BitVec 32)
  | mmioWrite (addr val : BitVec 32)
  | store (off : ℕ) (bytes : List (BitVec 8))
  | grow (mem : LinMem)

/-- The state, and the queues that `nic_attach_queue` returned zero for. -/
structure NicRun where
  /-- the state -/
  st : NicState
  /-- the queues attached so far -/
  attached : Fin 2 → Bool

/-- Memory after the bytes of `old` are moved to `new` and the rest of `new` is cleared. -/
def moveMemory (ram : Ram) (old new : LinMem) : Ram := fun x =>
  if new.base ≤ x ∧ x < new.base + old.len then ram (old.base + (x - new.base))
  else if new.base + old.len ≤ x ∧ x < new.base + new.len then 0#8
  else ram x

/-- One step of the driver. A store outside the memory traps, and memory does not shrink. -/
def nicStep (s : NicRun) : NicCall → Option NicRun
  | .attachQueue queueIdx descOff availOff usedOff queueSize =>
    let out := nicAttachQueueImpl s.st (procByte procIdTier2Net) queueIdx descOff availOff usedOff
      queueSize
    some ⟨out.2, fun q =>
      if out.1 = 0 ∧ queueIdx.toNat = q.val then true else s.attached q⟩
  | .dmaSetBuf ring idx bufOff len =>
    some ⟨(nicDmaSetBufImpl s.st (procByte procIdTier2Net) ring idx bufOff len).2, s.attached⟩
  | .mmioWrite addr val => some ⟨(hostNetMmioWrite32 s.st addr val).2, s.attached⟩
  | .store off bytes =>
    match s.st.memory with
    | none => none
    | some mem =>
      if off + bytes.length ≤ mem.len then
        some ⟨{ s.st with ram := s.st.ram.write (mem.base + off) bytes }, s.attached⟩
      else none
  | .grow new =>
    match s.st.memory with
    | none => none
    | some mem =>
      if mem.len ≤ new.len then
        some ⟨{ s.st with memory := some new, ram := moveMemory s.st.ram mem new }, s.attached⟩
      else none

/-- The driver before it touched the device: boot's capabilities, any memory, and the device after
reset. -/
def NicRun.booted (memory : Option LinMem) (ram : Ram) (numMax : BitVec 32 → BitVec 32) : NicRun :=
  { st := ⟨bootState .qemu, memory, ram, fun _ _ => .empty, ⟨0, fun _ => .reset, numMax⟩⟩
    attached := fun _ => false }

/-- A queue the device works on, attached through `nic_attach_queue`. -/
def NicRun.Live (s : NicRun) (q : Fin 2) : Prop :=
  s.attached q = true ∧ (s.st.nic.queues q).ready = true

/-- **Containment.** Every descriptor the device can come to through an attached queue names
bytes of the driver's linear memory only, be they a buffer or a table. -/
def Contained (s : NicRun) : Prop :=
  ∀ mem, s.st.memory = some mem → ∀ q, s.Live q → ∀ table i,
    (s.st.nic.queues q).Reaches s.st.ram table i → mem.HoldsDesc s.st.ram (table.entry i)

/-- A store of `bytes` at `a` stays off the address field of descriptor `i` of the queue,
leaves in its length field a length that keeps it in the memory, and leaves it a descriptor that
refers to no table. -/
structure Virtqueue.Spared (q : Virtqueue) (ram : Ram) (mem : LinMem) (a : ℕ)
    (bytes : List (BitVec 8)) (i : ℕ) : Prop where
  addr : Apart a bytes.length (q.entry i) 8
  len : Apart a bytes.length (q.entry i + 8) 4 ∨
    mem.Holds (descAddr ram (q.entry i)) (descLen (ram.write a bytes) (q.entry i))
  direct : Apart a bytes.length (q.entry i + 12) 2 ∨
    descIndirect (ram.write a bytes) (q.entry i) = false

/-- The driver keeps to its part: it attaches tables whose descriptors name bytes of its
memory or none and refer to no other table, moves a descriptor of a live table to a buffer only
where the length that is there fits, leaves `QueueNum` and `QueueReady` of an attached queue to
the kernel, stores no address, no length that is too great and no `VIRTQ_DESC_F_INDIRECT` in a
live table, and moves no memory under one. -/
def Restrained (s : NicRun) : NicCall → Prop
  | .attachQueue _ descOff _ _ queueSize => ∀ mem, s.st.memory = some mem →
    ringFits descOff queueSize mem.len = true →
    ∀ i < queueSize.toNat, mem.HoldsDesc s.st.ram (mem.base + descOff.toNat + 16 * i) ∧
      descIndirect s.st.ram (mem.base + descOff.toNat + 16 * i) = false
  | .dmaSetBuf ring idx bufOff _ => ∀ mem r addrOff, s.st.memory = some mem →
    ringIndex? ring = some r →
    descAddrOffset (s.st.dmaRings procIdTier2Net r) idx = some addrOff →
    ∀ q, s.Live q → ∀ i < (s.st.nic.queues q).num.toNat,
      (s.st.nic.queues q).entry i = mem.base + addrOff.toNat →
      mem.Holds (mem.base + bufOff.toNat) (descLen s.st.ram (mem.base + addrOff.toNat))
  | .mmioWrite addr val => ∀ q : Fin 2, s.st.nic.sel.toNat = q.val →
    (addr - nicBase = virtioMmioQueueNum → s.Live q → val ≤ (s.st.nic.queues q).num) ∧
    (addr - nicBase = virtioMmioQueueReady → s.attached q = true → val ≠ 0 → s.Live q)
  | .store off bytes => ∀ mem, s.st.memory = some mem → ∀ q, s.Live q →
    ∀ i < (s.st.nic.queues q).num.toNat,
      (s.st.nic.queues q).Spared s.st.ram mem (mem.base + off) bytes i
  | .grow new => ∀ mem, s.st.memory = some mem → new.base = mem.base ∨ ∀ q, ¬ s.Live q

/-! ## A sound table

The invariant that carries containment. A store, an address the kernel writes and a memory that
moves each have their own lemma. -/

theorem LinMem.Holds.mono {mem mem' : LinMem} {addr len : ℕ} (h : mem.Holds addr len)
    (hbase : mem'.base = mem.base) (hlen : mem.len ≤ mem'.len) : mem'.Holds addr len := by
  rcases h with hzero | ⟨hlow, hhigh⟩
  · exact .inl hzero
  · exact .inr ⟨by omega, by omega⟩

/-- The queue's table is in the memory at a multiple of the descriptor's size, and each of its
descriptors names bytes of the memory only. None refers to another table: what such a table
says could be changed by any store, so nothing would be left to hold on to. -/
structure Virtqueue.Sound (q : Virtqueue) (ram : Ram) (mem : LinMem) : Prop where
  table : ∃ off, off % 16 = 0 ∧ off + 16 * q.num.toNat ≤ mem.len ∧ q.desc = mem.base + off
  holds : ∀ i < q.num.toNat, mem.HoldsDesc ram (q.entry i)
  direct : ∀ i < q.num.toNat, descIndirect ram (q.entry i) = false

namespace Virtqueue.Sound

variable {q : Virtqueue} {ram ram' : Ram} {mem mem' : LinMem}

/-- What the device comes to through a sound table names bytes of the memory only. -/
theorem reached {table : DescTable} {i : ℕ} (h : q.Sound ram mem)
    (hreach : q.Reaches ram table i) : mem.HoldsDesc ram (table.entry i) := by
  obtain ⟨rfl, hi⟩ := hreach.direct h.direct
  exact h.holds i hi

/-- A table stays sound where the memory grows and keeps its bytes. -/
theorem congr (h : q.Sound ram mem) (hbase : mem'.base = mem.base) (hlen : mem.len ≤ mem'.len)
    (hsame : ∀ x, mem.base ≤ x → x < mem.base + mem.len → ram' x = ram x) :
    q.Sound ram' mem' := by
  obtain ⟨off, halign, hfits, hdesc⟩ := h.table
  have hentry : ∀ i, q.entry i = mem.base + off + 16 * i := fun i => by rw [entry, hdesc]
  have hfield : ∀ i < q.num.toNat, ∀ at' n, at' + n ≤ 16 →
      ram'.le (q.entry i + at') n = ram.le (q.entry i + at') n := by
    intro i hi at' n hin
    have hat := hentry i
    exact Ram.le_congr fun k hk => hsame _ (by omega) (by omega)
  refine ⟨⟨off, halign, by omega, by omega⟩, fun i hi => ?_, fun i hi => ?_⟩
  · rw [LinMem.HoldsDesc, descAddr, descLen]
    rw [hfield i hi 8 4 (by decide), show ram'.le (q.entry i) 8 = ram.le (q.entry i) 8 from
      hfield i hi 0 8 (by decide)]
    exact (h.holds i hi).mono hbase hlen
  · rw [descIndirect, hfield i hi 12 2 (by decide)]
    exact h.direct i hi

/-- **A store** that spares every descriptor leaves the table sound: the device follows what it
followed before. -/
theorem write {a : ℕ} {bytes : List (BitVec 8)} (h : q.Sound ram mem)
    (hspared : ∀ i < q.num.toNat, q.Spared ram mem a bytes i) :
    q.Sound (ram.write a bytes) mem := by
  refine ⟨h.table, fun i hi => ?_, fun i hi => ?_⟩
  · rw [LinMem.HoldsDesc, descAddr, Ram.le_write_apart (hspared i hi).addr]
    rcases (hspared i hi).len with hlen | hholds
    · rw [descLen, Ram.le_write_apart hlen]
      exact h.holds i hi
    · exact hholds
  · rcases (hspared i hi).direct with hflags | hdirect
    · rw [descIndirect, Ram.le_write_apart hflags]
      exact h.direct i hi
    · exact hdirect

/-- **An address** the kernel writes leaves the table sound where the length that is there
fits. It is at a multiple of the descriptor's size, so it is an address field or in no
descriptor's other fields. -/
theorem setBuf {addrOff buf : ℕ} (h : q.Sound ram mem) (halign : addrOff % 16 = 0)
    (hbuf : buf < 2 ^ 64)
    (hfits : ∀ i < q.num.toNat, q.entry i = mem.base + addrOff →
      mem.Holds buf (descLen ram (mem.base + addrOff))) :
    q.Sound (ram.write (mem.base + addrOff) (toLe 8 buf)) mem := by
  obtain ⟨off, htable, -, hdesc⟩ := h.table
  have hentry : ∀ i, q.entry i = mem.base + off + 16 * i := fun i => by rw [entry, hdesc]
  refine ⟨h.table, fun i hi => ?_, fun i hi => ?_⟩
  · have hat := hentry i
    have hlen : Apart (mem.base + addrOff) (toLe 8 buf).length (q.entry i + 8) 4 := by
      rw [Apart, length_toLe]
      omega
    rw [LinMem.HoldsDesc, descLen, Ram.le_write_apart hlen]
    by_cases hsame : q.entry i = mem.base + addrOff
    · rw [descAddr, hsame, Ram.le_write_self, Nat.mod_eq_of_lt (by omega)]
      exact hfits i hi hsame
    · have haddr : Apart (mem.base + addrOff) (toLe 8 buf).length (q.entry i) 8 := by
        rw [Apart, length_toLe]
        omega
      rw [descAddr, Ram.le_write_apart haddr]
      exact h.holds i hi
  · have hat := hentry i
    have hflags : Apart (mem.base + addrOff) (toLe 8 buf).length (q.entry i + 12) 2 := by
      rw [Apart, length_toLe]
      omega
    rw [descIndirect, Ram.le_write_apart hflags]
    exact h.direct i hi

/-- A shorter queue uses a part of the table. -/
theorem shorten {num : BitVec 32} (h : q.Sound ram mem) (hnum : num ≤ q.num) :
    ({ q with num := num } : Virtqueue).Sound ram mem := by
  obtain ⟨off, halign, hfits, hdesc⟩ := h.table
  have hle : num.toNat ≤ q.num.toNat := hnum
  refine ⟨⟨off, halign, ?_, hdesc⟩, fun i hi => h.holds i (Nat.lt_of_lt_of_le hi hle),
    fun i hi => h.direct i (Nat.lt_of_lt_of_le hi hle)⟩
  change off + 16 * num.toNat ≤ mem.len
  omega

end Virtqueue.Sound

/-! ## What each step keeps

A live queue's table stays sound through every call that keeps to its part, so what the device
comes to stays in the memory. -/

/-- The tables of the live queues are sound. -/
structure ContainInv (s : NicRun) : Prop where
  rings : RingsAligned s.st
  sound : ∀ mem, s.st.memory = some mem → ∀ q, s.Live q → (s.st.nic.queues q).Sound s.st.ram mem

theorem ContainInv.contained {s : NicRun} (h : ContainInv s) : Contained s :=
  fun mem hmem q hlive _ _ hreach => (h.sound mem hmem q hlive).reached hreach

namespace ContainInv

variable {s s' : NicRun}

theorem attachQueue {queueIdx descOff availOff usedOff queueSize : BitVec 32}
    (h : ContainInv s)
    (hg : Restrained s (.attachQueue queueIdx descOff availOff usedOff queueSize))
    (hs : nicStep s (.attachQueue queueIdx descOff availOff usedOff queueSize) = some s') :
    ContainInv s' := by
  rw [nicStep] at hs
  rcases hout : nicAttachQueueImpl s.st (procByte procIdTier2Net) queueIdx descOff availOff usedOff
    queueSize with ⟨rc, st'⟩
  rw [hout] at hs
  rw [← Option.some.inj hs]
  rcases nicAttachQueueImpl_cases hout with ⟨hrc, hun⟩ | ⟨rfl, q, hq, hatt⟩
  · refine ⟨hun.rings h.rings, fun mem hmem q' hlive => ?_⟩
    obtain ⟨hattached, hready⟩ := hlive
    dsimp only at hmem hattached hready ⊢
    rw [hun.memory] at hmem
    rw [if_neg fun he => hrc he.1] at hattached
    rw [hun.queues] at hready ⊢
    rw [hun.ram]
    exact h.sound mem hmem q' ⟨hattached, hready⟩
  · refine ⟨hatt.rings h.rings, fun mem hmem q' hlive => ?_⟩
    obtain ⟨hattached, hready⟩ := hlive
    dsimp only at hmem hattached hready ⊢
    rw [hatt.memory] at hmem
    rw [hatt.ram]
    by_cases hsame : q' = q
    · subst hsame
      obtain ⟨mem', hmem', hring, hfits, hdesc⟩ := hatt.fits
      obtain rfl : mem = mem' := Option.some.inj (hmem.symm.trans hmem')
      have hentry : ∀ i, (st'.nic.queues q').entry i = mem.base + descOff.toNat + 16 * i :=
        fun i => congrArg (· + 16 * i) hdesc
      refine ⟨⟨descOff.toNat, ringFits_aligned hring, ?_, hdesc⟩, fun i hi => ?_, fun i hi => ?_⟩
      · rw [hatt.num]
        exact hfits
      · rw [hatt.num] at hi
        rw [hentry]
        exact (hg mem hmem hring i hi).1
      · rw [hatt.num] at hi
        rw [hentry]
        exact (hg mem hmem hring i hi).2
    · have hother : ¬ ((0 : ℤ) = 0 ∧ queueIdx.toNat = q'.val) :=
        fun he => hsame (Fin.ext (he.2.symm.trans hq))
      rw [if_neg hother] at hattached
      rw [hatt.others q' hsame] at hready ⊢
      exact h.sound mem hmem q' ⟨hattached, hready⟩

theorem dmaSetBuf {ring idx bufOff len : BitVec 32} (h : ContainInv s)
    (hg : Restrained s (.dmaSetBuf ring idx bufOff len))
    (hs : nicStep s (.dmaSetBuf ring idx bufOff len) = some s') : ContainInv s' := by
  rw [nicStep] at hs
  rcases hout : nicDmaSetBufImpl s.st (procByte procIdTier2Net) ring idx bufOff len with ⟨rc, st'⟩
  rw [hout] at hs
  rw [← Option.some.inj hs]
  rcases nicDmaSetBufImpl_cases hout with
    ⟨-, rfl⟩ | ⟨-, mem, r, addrOff, hmem, hr, haddr, -, -, hbuf, rfl⟩
  · exact h
  · refine ⟨h.rings, fun mem' hmem' q hlive => ?_⟩
    obtain rfl : mem = mem' := Option.some.inj (hmem.symm.trans hmem')
    exact (h.sound mem hmem q hlive).setBuf (descAddrOffset_aligned (h.rings _ r) haddr) hbuf
      fun i hi hentry => hg mem r addrOff hmem hr haddr q hlive i hi hentry

theorem mmioWrite {addr val : BitVec 32} (h : ContainInv s)
    (hg : Restrained s (.mmioWrite addr val))
    (hs : nicStep s (.mmioWrite addr val) = some s') : ContainInv s' := by
  rw [← Option.some.inj hs]
  rcases hostNetMmioWrite32_cases s.st addr val with hsame | ⟨hplain, hst⟩
  · rw [hsame]
    exact h
  · rw [hst]
    refine ⟨h.rings, fun mem hmem q hlive => ?_⟩
    obtain ⟨hattached, hready⟩ := hlive
    dsimp only at hready hattached ⊢
    rcases VirtioNic.write32_cases hplain val q with hsame | hreset | ⟨hsel, hoff, hnum⟩ |
      ⟨hsel, hoff, hval⟩
    · rw [hsame] at hready ⊢
      exact h.sound mem hmem q ⟨hattached, hready⟩
    · rw [hreset] at hready
      cases hready
    · rw [hnum] at hready ⊢
      have hlive : s.Live q := ⟨hattached, hready⟩
      exact (h.sound mem hmem q hlive).shorten ((hg q hsel).1 hoff hlive)
    · rw [hval] at hready ⊢
      have hne : val ≠ 0 := by simpa using hready
      have hlive := (hg q hsel).2 hoff hattached hne
      obtain ⟨htable, hholds, hdirect⟩ := h.sound mem hmem q hlive
      exact ⟨htable, hholds, hdirect⟩

theorem store {off : ℕ} {bytes : List (BitVec 8)} (h : ContainInv s)
    (hg : Restrained s (.store off bytes)) (hs : nicStep s (.store off bytes) = some s') :
    ContainInv s' := by
  rw [nicStep] at hs
  split at hs
  · cases hs
  rename_i mem hmem
  split at hs
  · rw [← Option.some.inj hs]
    refine ⟨h.rings, fun mem' hmem' q hlive => ?_⟩
    obtain rfl : mem = mem' := Option.some.inj (hmem.symm.trans hmem')
    exact (h.sound mem hmem q hlive).write (hg mem hmem q hlive)
  · cases hs

theorem grow {new : LinMem} (h : ContainInv s) (hg : Restrained s (.grow new))
    (hs : nicStep s (.grow new) = some s') : ContainInv s' := by
  rw [nicStep] at hs
  split at hs
  · cases hs
  rename_i mem hmem
  split at hs
  · rename_i hle
    rw [← Option.some.inj hs]
    refine ⟨h.rings, fun mem' hmem' q hlive => ?_⟩
    obtain rfl : new = mem' := Option.some.inj hmem'
    rcases hg mem hmem with hbase | hnone
    · refine (h.sound mem hmem q hlive).congr hbase hle fun x hlow hhigh => ?_
      change moveMemory s.st.ram mem new x = s.st.ram x
      rw [moveMemory, if_pos (by omega)]
      congr 1
      omega
    · exact (hnone q hlive).elim
  · cases hs

/-- **Step lemma.** Each call that keeps to its part keeps the tables sound. -/
theorem step {c : NicCall} (h : ContainInv s) (hs : nicStep s c = some s') (hg : Restrained s c) :
    ContainInv s' := by
  cases c with
  | attachQueue queueIdx descOff availOff usedOff queueSize => exact h.attachQueue hg hs
  | dmaSetBuf ring idx bufOff len => exact h.dmaSetBuf hg hs
  | mmioWrite addr val => exact h.mmioWrite hg hs
  | store off bytes => exact h.store hg hs
  | grow new => exact h.grow hg hs

end ContainInv

/-- A linear memory of one page, at a physical address of its own. -/
def pageAt : LinMem := ⟨0x81000000, 0x10000, by decide⟩

/-- The receive queue of eight descriptors is live, and no other. -/
structure Receiving (s : NicRun) : Prop where
  memory : s.st.memory = some pageAt
  live : ∀ q, s.Live q ↔ q = 0
  num : (s.st.nic.queues 0).num = 8
  desc : (s.st.nic.queues 0).desc = 0x81000100
  driver : (s.st.nic.queues 0).driver = 0x81000200

/-- A store in the memory leaves the queue as it is. -/
theorem Receiving.store {s : NicRun} (h : Receiving s) (off : ℕ) (bytes : List (BitVec 8))
    (hroom : off + bytes.length ≤ 0x10000) :
    ∃ s', nicStep s (.store off bytes) = some s' ∧ Receiving s' ∧
      s'.st.ram = s.st.ram.write (0x81000000 + off) bytes := by
  rw [nicStep, h.memory]
  exact ⟨_, if_pos hroom, ⟨h.memory, h.live, h.num, h.desc, h.driver⟩, rfl⟩

end Wari
