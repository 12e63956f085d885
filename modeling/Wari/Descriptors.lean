import Wari.Containment

/-!
# Rings and their descriptors

The table of recorded rings is what `nic_dma_set_buf` authorises a descriptor write against. A
call of it writes the address field of one descriptor, or nothing.

`nic_attach_queue` records a ring before it comes to the device, and each board has its own end
of that function.
-/

namespace Wari

open Lib (toLe length_toLe)
open Lib.Ram (write_apart le_write_self)

/-! ## Pointing a descriptor at a buffer

The one write of the kernel into a driver's memory. It is checked twice: the field against the
recorded ring, and the buffer against the memory. -/

/-- The first byte of a descriptor, in the driver's linear memory. -/
def DmaRing.descAt (ring : DmaRing) (idx : BitVec 32) : ℕ := ring.descOff.toNat + 16 * idx.toNat

/-- **One descriptor is pointed at one buffer**, and this is all that a successful call does. -/
structure BufSet (s s' : NicState) (mem : LinMem) (ring : DmaRing) (idx bufOff len : BitVec 32) :
    Prop where
  /-- the descriptor is one of the ring -/
  index : idx.toNat < ring.entries.toNat
  /-- its address field lies in linear memory -/
  field : ring.descAt idx + 8 < 2 ^ 32 ∧ ring.descAt idx + 8 ≤ mem.len
  /-- so does all of it, the table having been recorded for this memory before it grew -/
  desc : ∀ memLen ≤ mem.len, ringFits ring.descOff ring.entries memLen = true →
    ring.descAt idx + 16 < 2 ^ 32 ∧ ring.descAt idx + 16 ≤ mem.len
  /-- the buffer lies in linear memory -/
  buffer : 0 < len.toNat ∧ bufOff.toNat + len.toNat < 2 ^ 32 ∧ bufOff.toNat + len.toNat ≤ mem.len
  /-- no physical address wraps -/
  fits : mem.base + ring.descAt idx + 8 ≤ 2 ^ 64 ∧ mem.base + bufOff.toNat + len.toNat ≤ 2 ^ 64
  /-- the field is the buffer's physical address -/
  address : s'.ram.le (mem.base + ring.descAt idx) 8 = mem.base + bufOff.toNat
  /-- no other byte changed -/
  others : ∀ x, x < mem.base + ring.descAt idx ∨ mem.base + ring.descAt idx + 8 ≤ x →
    s'.ram x = s.ram x
  /-- nothing else changed -/
  frame : s' = { s with ram := s'.ram }

/-- **`nic_dma_set_buf` is contained and atomic.** It returns an error and changes nothing, or
points one descriptor of a recorded ring at the buffer. -/
theorem nicDmaSetBufImpl_contained (s : NicState) (procId : BitVec 8)
    (ring idx bufOff len : BitVec 32) :
    ((nicDmaSetBufImpl s procId ring idx bufOff len).1 < 0 ∧
      (nicDmaSetBufImpl s procId ring idx bufOff len).2 = s) ∨
    ((nicDmaSetBufImpl s procId ring idx bufOff len).1 = 0 ∧
      ∃ p r mem, procIndex? procId = some p ∧ ringIndex? ring = some r ∧ s.memory = some mem ∧
        BufSet s (nicDmaSetBufImpl s procId ring idx bufOff len).2 mem (s.dmaRings p r) idx bufOff
          len) := by
  rcases hp : procIndex? procId with _ | p
  · rw [nicDmaSetBufImpl, hp]
    exact .inl ⟨show ePerm < 0 by decide, rfl⟩
  obtain rfl := procByte_of_procIndex? hp
  rcases hout : nicDmaSetBufImpl s (procByte p) ring idx bufOff len with ⟨rc, s'⟩
  rcases nicDmaSetBufImpl_cases hout with
    herr | ⟨rfl, mem, r, addrOff, hmem, hr, haddr, hfield, hspan, hlt, rfl⟩
  · exact .inl herr
  obtain ⟨hidx, hoff⟩ := descAddrOffset_some haddr
  obtain ⟨-, hfieldLt, hfieldLe⟩ := spanInLinmem_iff.mp hfield
  obtain ⟨hpos, hspanLt, hspanLe⟩ := spanInLinmem_iff.mp hspan
  rw [show (8 : BitVec 32).toNat = 8 from rfl] at hfieldLt hfieldLe
  have hlen : 0 < len.toNat := Nat.pos_of_ne_zero fun he => hpos (BitVec.eq_of_toNat_eq he)
  have hat : addrOff.toNat = (s.dmaRings p r).descAt idx := hoff
  have hfits := mem.fits
  rw [hat] at hfieldLt hfieldLe ⊢
  refine .inr ⟨rfl, p, r, mem, rfl, hr, hmem, hidx, ⟨hfieldLt, hfieldLe⟩,
    fun memLen hle hring => ?_,
    ⟨hlen, hspanLt, hspanLe⟩, by omega, ?_, fun x hx => write_apart ?_, rfl⟩
  · obtain ⟨-, -, -, htableLt, htableLe⟩ := ringFits_iff.mp hring
    rw [DmaRing.descAt]
    omega
  · dsimp only
    rw [le_write_self, Nat.mod_eq_of_lt (by omega)]
  · rwa [length_toLe]

/-! ## Attaching a queue

The function goes through its checks, records the ring and then talks to the device, which can
still refuse. Nothing takes the ring back. -/

/-- What a board's build does to the device once the ring is recorded. -/
def Board.attach (board : Board) (nic : VirtioNic) (queueIdx queueSize : BitVec 32)
    (descPa availPa usedPa : BitVec 64) : ℤ × VirtioNic :=
  match board with
  | .qemu => nic.configureQueue queueIdx queueSize descPa availPa usedPa
  -- the GMAC has no virtqueues
  | .vf2 => (eInval, nic)
  | .r2s => (eInval, nic)

/-- `wari::nic_attach_queue(queue_idx, desc_off, avail_off, used_off, queue_size) -> i32` of a
board's build. -/
def nicAttachQueueOn (board : Board) (s : NicState) (procId : BitVec 8)
    (queueIdx descOff availOff usedOff queueSize : BitVec 32) : ℤ × NicState :=
  match procIndex? procId with
  | none => (ePerm, s)
  | some p =>
    let cap := s.caps.capAt (p, 0)
    if cap.isEmpty || cap.kind != .net || cap.rights &&& capRightWrite = 0#8 then (ePerm, s)
    else if 1 < queueIdx then (eInval, s)
    else if queueSize = 0 ∨ 256 < queueSize ∨ queueSize &&& (queueSize - 1) ≠ 0 then (eInval, s)
    else if descOff &&& 0xF ≠ 0 then (eInval, s)
    else if availOff &&& 0x1 ≠ 0 then (eInval, s)
    else if usedOff &&& 0x3 ≠ 0 then (eInval, s)
    else
      match s.memory with
      | none => (eNomem, s)
      | some mem =>
        if mem.len < descOff.toNat + 16 * queueSize.toNat then (eInval, s)
        else if mem.len < availOff.toNat + (4 + 2 * queueSize.toNat) then (eInval, s)
        else if mem.len < usedOff.toNat + (4 + 8 * queueSize.toNat) then (eInval, s)
        else
          match recordRing s procId queueIdx descOff queueSize mem.len with
          | none => (eInval, s)
          | some s =>
            let out := board.attach s.nic queueIdx queueSize
              (BitVec.ofNat 64 (mem.base + descOff.toNat))
              (BitVec.ofNat 64 (mem.base + availOff.toNat))
              (BitVec.ofNat 64 (mem.base + usedOff.toNat))
            (out.1, { s with nic := out.2 })

/-- On QEMU it is the function with the device in it. -/
theorem nicAttachQueueOn_qemu : nicAttachQueueOn .qemu = nicAttachQueueImpl := rfl

/-- The call passes every check that comes before the recording. It is on the arguments and the
state alone, and does not speak of the device. -/
structure Recordable (s : NicState) (procId : BitVec 8)
    (queueIdx descOff availOff usedOff queueSize : BitVec 32) (p : Proc) (q : Fin 2)
    (mem : LinMem) : Prop where
  proc : procIndex? procId = some p
  present : (s.caps.capAt (p, 0)).isEmpty = false
  kind : (s.caps.capAt (p, 0)).kind = .net
  rights : (s.caps.capAt (p, 0)).rights &&& capRightWrite ≠ 0#8
  queue : ringIndex? queueIdx = some q
  size : ¬ (queueSize = 0 ∨ 256 < queueSize ∨ queueSize &&& (queueSize - 1) ≠ 0)
  aligned : descOff &&& 0xF = 0 ∧ availOff &&& 0x1 = 0 ∧ usedOff &&& 0x3 = 0
  memory : s.memory = some mem
  desc : descOff.toNat + 16 * queueSize.toNat ≤ mem.len
  avail : availOff.toNat + (4 + 2 * queueSize.toNat) ≤ mem.len
  used : usedOff.toNat + (4 + 8 * queueSize.toNat) ≤ mem.len
  fits : ringFits descOff queueSize mem.len = true

/-- The board's build has virtqueues, and the device offers this many descriptors. -/
def Board.Offers (board : Board) (nic : VirtioNic) (queueIdx queueSize : BitVec 32) : Prop :=
  board = .qemu ∧ queueSize ≤ nic.numMax queueIdx

/-- The table of rings with one ring of one process replaced. -/
def recorded (rings : Proc → Fin 2 → DmaRing) (p : Proc) (q : Fin 2) (ring : DmaRing) :
    Proc → Fin 2 → DmaRing :=
  Function.update rings p (Function.update (rings p) q ring)

/-- **Attachment is atomic**: the table has the new ring after a success, and is as it was after
an error. Only the table is spoken of, since it is what later calls are authorised against. -/
def AttachAtomic (s : NicState) (procId : BitVec 8) (queueIdx descOff queueSize : BitVec 32)
    (out : ℤ × NicState) : Prop :=
  (out.1 = 0 → ∃ p q, procIndex? procId = some p ∧ ringIndex? queueIdx = some q ∧
    out.2.dmaRings = recorded s.dmaRings p q ⟨descOff, queueSize⟩) ∧
  (out.1 ≠ 0 → out.2.dmaRings = s.dmaRings)

section

variable (board : Board) {s : NicState} {procId : BitVec 8} {p : Proc} {q : Fin 2} {mem : LinMem}
  {queueIdx descOff availOff usedOff queueSize : BitVec 32}

theorem recorded_self (rings : Proc → Fin 2 → DmaRing) (p : Proc) (q : Fin 2) (ring : DmaRing) :
    recorded rings p q ring p q = ring := by
  rw [recorded, Function.update_self, Function.update_self]

theorem recorded_same {rings : Proc → Fin 2 → DmaRing} {ring : DmaRing} (h : rings p q = ring) :
    recorded rings p q ring = rings := by
  rw [recorded, ← h, Function.update_eq_self, Function.update_eq_self]

/-- The board's end succeeds where the device offers the descriptors. -/
theorem Board.attach_fst (board : Board) (nic : VirtioNic) (queueIdx queueSize : BitVec 32)
    (descPa availPa usedPa : BitVec 64) :
    (board.attach nic queueIdx queueSize descPa availPa usedPa).1 = 0 ↔
      board.Offers nic queueIdx queueSize := by
  have hinval : eInval ≠ 0 := by decide
  have hlicensed : isNetMmioAddr (nicBase + virtioMmioQueueSel).toNat = true := by decide
  cases board with
  | qemu =>
    rw [Board.attach, VirtioNic.configureQueue, hlicensed, Board.Offers]
    simp only [Bool.not_true, Bool.false_eq_true, if_false, true_and]
    have hnum : (nic.write32 virtioMmioQueueSel queueIdx).numMax
        (nic.write32 virtioMmioQueueSel queueIdx).sel = nic.numMax queueIdx := rfl
    rw [hnum]
    split
    · rename_i hlt
      exact ⟨fun h => (hinval h).elim, fun h => (BitVec.not_lt.mpr h hlt).elim⟩
    · rename_i hge
      exact ⟨fun _ => BitVec.not_lt.mp hge, fun _ => rfl⟩
  | vf2 => exact ⟨fun h => (hinval h).elim, fun h => by cases h.1⟩
  | r2s => exact ⟨fun h => (hinval h).elim, fun h => by cases h.1⟩

/-- What the call does once its checks have passed: it records the ring, and configures the
device. -/
theorem nicAttachQueueOn_eq
    (h : Recordable s procId queueIdx descOff availOff usedOff queueSize p q mem) :
    nicAttachQueueOn board s procId queueIdx descOff availOff usedOff queueSize =
      let out := board.attach s.nic queueIdx queueSize (.ofNat 64 (mem.base + descOff.toNat))
        (.ofNat 64 (mem.base + availOff.toNat)) (.ofNat 64 (mem.base + usedOff.toNat))
      (out.1, { s with
        dmaRings := recorded s.dmaRings p q ⟨descOff, queueSize⟩
        nic := out.2 }) := by
  have hle : ¬ 1 < queueIdx := by
    have hq := h.queue
    rw [ringIndex?] at hq
    split at hq
    · rename_i hlt
      exact fun hgt => absurd (show 1 < queueIdx.toNat from hgt) (by omega)
    · cases hq
  have hrecord : recordRing s procId queueIdx descOff queueSize mem.len =
      some { s with dmaRings := recorded s.dmaRings p q ⟨descOff, queueSize⟩ } := by
    rw [recordRing, h.proc, h.queue]
    simp only [h.fits, Bool.not_true, Bool.false_eq_true, if_false]
    rfl
  have hcap : ((s.caps.capAt (p, 0)).isEmpty || (s.caps.capAt (p, 0)).kind != .net ||
      decide ((s.caps.capAt (p, 0)).rights &&& capRightWrite = 0#8)) = false := by
    rw [h.present, h.kind, decide_eq_false h.rights]
    rfl
  rw [nicAttachQueueOn, h.proc]
  dsimp only
  rw [hcap, if_neg Bool.false_ne_true, if_neg hle, if_neg h.size, if_neg (not_not.mpr h.aligned.1),
    if_neg (not_not.mpr h.aligned.2.1), if_neg (not_not.mpr h.aligned.2.2)]
  split
  · rename_i hnone
    rw [h.memory] at hnone
    cases hnone
  · rename_i mem' hmem
    obtain rfl : mem = mem' := Option.some.inj (h.memory.symm.trans hmem)
    rw [if_neg (Nat.not_lt.mpr h.desc), if_neg (Nat.not_lt.mpr h.avail),
      if_neg (Nat.not_lt.mpr h.used), hrecord]

/-- **After the checks** the ring is recorded, whatever the board does next, and so also where the
device refuses the queue. -/
theorem nicAttachQueueOn_recordable
    (h : Recordable s procId queueIdx descOff availOff usedOff queueSize p q mem) :
    (nicAttachQueueOn board s procId queueIdx descOff availOff usedOff queueSize).2.dmaRings =
      recorded s.dmaRings p q ⟨descOff, queueSize⟩ ∧
    ((nicAttachQueueOn board s procId queueIdx descOff availOff usedOff queueSize).1 = 0 ↔
      board.Offers s.nic queueIdx queueSize) := by
  rw [nicAttachQueueOn_eq board h]
  exact ⟨rfl, Board.attach_fst ..⟩

/-- **Before the checks are through** nothing is recorded, and the device is not touched. -/
theorem nicAttachQueueOn_refused
    (h : ∀ p q mem, ¬ Recordable s procId queueIdx descOff availOff usedOff queueSize p q mem) :
    (nicAttachQueueOn board s procId queueIdx descOff availOff usedOff queueSize).1 ≠ 0 ∧
    (nicAttachQueueOn board s procId queueIdx descOff availOff usedOff queueSize).2 = s := by
  have hinval : eInval ≠ 0 := by decide
  have hperm : ePerm ≠ 0 := by decide
  generalize hout : nicAttachQueueOn board s procId queueIdx descOff availOff usedOff queueSize =
    out
  have hrefused : ∀ {rc : ℤ}, rc ≠ 0 → (rc, s) = out → out.1 ≠ 0 ∧ out.2 = s := by
    intro rc hne he
    rw [← he]
    exact ⟨hne, rfl⟩
  rw [nicAttachQueueOn] at hout
  split at hout
  · exact hrefused hperm hout
  rename_i p hp
  dsimp only at hout
  rcases ite_eq_iff.mp hout with ⟨-, hout⟩ | ⟨hcap, hout⟩
  · exact hrefused hperm hout
  rcases ite_eq_iff.mp hout with ⟨-, hout⟩ | ⟨hidx, hout⟩
  · exact hrefused hinval hout
  rcases ite_eq_iff.mp hout with ⟨-, hout⟩ | ⟨hsize, hout⟩
  · exact hrefused hinval hout
  rcases ite_eq_iff.mp hout with ⟨-, hout⟩ | ⟨hdescOff, hout⟩
  · exact hrefused hinval hout
  rcases ite_eq_iff.mp hout with ⟨-, hout⟩ | ⟨havailOff, hout⟩
  · exact hrefused hinval hout
  rcases ite_eq_iff.mp hout with ⟨-, hout⟩ | ⟨husedOff, hout⟩
  · exact hrefused hinval hout
  split at hout
  · exact hrefused (by decide) hout
  rename_i mem hmem
  rcases ite_eq_iff.mp hout with ⟨-, hout⟩ | ⟨hdesc, hout⟩
  · exact hrefused hinval hout
  rcases ite_eq_iff.mp hout with ⟨-, hout⟩ | ⟨havail, hout⟩
  · exact hrefused hinval hout
  rcases ite_eq_iff.mp hout with ⟨-, hout⟩ | ⟨hused, hout⟩
  · exact hrefused hinval hout
  split at hout
  · exact hrefused hinval hout
  rename_i s₁ hrecord
  have hlt : queueIdx.toNat < 2 := by
    have hle : ¬ 1 < queueIdx.toNat := hidx
    omega
  obtain ⟨-, hfits, -⟩ := recordRing_some (procByte_of_procIndex? hp ▸ hrecord)
  rw [Bool.not_eq_true, Bool.or_eq_false_iff, Bool.or_eq_false_iff, bne_eq_false_iff_eq,
    decide_eq_false_iff_not] at hcap
  exact (h p ⟨queueIdx.toNat, hlt⟩ mem ⟨hp, hcap.1.1, hcap.1.2, hcap.2, dif_pos hlt, hsize,
    ⟨not_not.mp hdescOff, not_not.mp havailOff, not_not.mp husedOff⟩, hmem, Nat.not_lt.mp hdesc,
    Nat.not_lt.mp havail, Nat.not_lt.mp hused, hfits⟩).elim

end

/-- **When attachment is atomic.** Exactly when a call that passes its checks meets a device that
offers the descriptors, or names the ring the table already has. -/
theorem nicAttachQueueOn_atomic_iff (board : Board) (s : NicState) (procId : BitVec 8)
    (queueIdx descOff availOff usedOff queueSize : BitVec 32) :
    AttachAtomic s procId queueIdx descOff queueSize
      (nicAttachQueueOn board s procId queueIdx descOff availOff usedOff queueSize) ↔
    ∀ p q mem, Recordable s procId queueIdx descOff availOff usedOff queueSize p q mem →
      board.Offers s.nic queueIdx queueSize ∨ s.dmaRings p q = ⟨descOff, queueSize⟩ := by
  constructor
  · intro hatomic p q mem hrec
    obtain ⟨htable, hrc⟩ := nicAttachQueueOn_recordable board hrec
    by_cases hoffers : board.Offers s.nic queueIdx queueSize
    · exact .inl hoffers
    · have hsame := hatomic.2 fun he => hoffers (hrc.mp he)
      rw [htable] at hsame
      rw [← hsame, recorded_self]
      exact .inr rfl
  · intro hcond
    by_cases hany : ∃ p q mem,
      Recordable s procId queueIdx descOff availOff usedOff queueSize p q mem
    · obtain ⟨p, q, mem, hrec⟩ := hany
      obtain ⟨htable, hrc⟩ := nicAttachQueueOn_recordable board hrec
      refine ⟨fun _ => ⟨p, q, hrec.proc, hrec.queue, htable⟩, fun hne => ?_⟩
      rcases hcond p q mem hrec with hoffers | hsame
      · exact (hne (hrc.mpr hoffers)).elim
      · rw [htable, recorded_same hsame]
    · have hno : ∀ p q mem,
          ¬ Recordable s procId queueIdx descOff availOff usedOff queueSize p q mem :=
        fun p q mem hrec => hany ⟨p, q, mem, hrec⟩
      obtain ⟨hne, hsame⟩ := nicAttachQueueOn_refused board hno
      exact ⟨fun he => (hne he).elim, fun _ => by rw [hsame]⟩

/-- A driver with one page of memory, and a device with four descriptors a queue. -/
def nicOfFour : NicState := (NicRun.booted (some pageAt) (fun _ => 0#8) fun _ => 4).st

/-- **A refused ring is recorded**: the device has too few descriptors for it. -/
theorem attach_records_refused_ring :
    ¬ AttachAtomic nicOfFour (procByte procIdTier2Net) 0 0x100 8
      (nicAttachQueueOn .qemu nicOfFour (procByte procIdTier2Net) 0 0x100 0x200 0x300 8) := by
  intro hatomic
  have hrc : (nicAttachQueueOn .qemu nicOfFour (procByte procIdTier2Net) 0 0x100 0x200 0x300 8).1 ≠
      0 := by decide +kernel
  have hrecorded : ((nicAttachQueueOn .qemu nicOfFour (procByte procIdTier2Net) 0 0x100 0x200 0x300
      8).2.dmaRings procIdTier2Net 0).entries = 8 := by decide +kernel
  rw [hatomic.2 hrc] at hrecorded
  exact absurd hrecorded (by decide)

end Wari
