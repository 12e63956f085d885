import Wari.Lib.FreeRunning
import Wari.Lib.Machine

/-!
# The VirtIO receive queue

The receive half of the VirtIO NIC driver and the device it shares eight descriptors with. The
driver publishes descriptors in the available ring, the device takes them in order, writes
packets to their buffers and returns them in the used ring, in an order of its own. Both count
with indices of 16 bits that run freely.

The two take turns in any order. A turn of the driver is one access to a ring, so the device may
come in between any two. The kernel's two calls are parameters; what they answer depends on
their arguments only.
-/

namespace Wari.Virtio

open Lib (Machine)
open Lib.FreeRunning (slot entries count)

/-! ## Memory

The queue as values: the driver's and the device's accesses each change one field of it. -/

/-- `QUEUE_SIZE`, and `RX_BUF_COUNT`. -/
def queueSize : ℕ := 8

/-- `ETH_FRAME_MAX`. -/
def frameMax : ℕ := 1536

/-- `VIRTIO_NET_HDR_LEN`. -/
def netHdrLen : ℕ := 12

/-- `VIRTQ_DESC_F_WRITE`. -/
def descWrite : BitVec 16 := 0x2

/-- `RING_RX`. -/
def ringRx : BitVec 32 := 0

/-- `RX_BUFS`, a static: it is not at offset 0 and lies in the linear memory. -/
structure RxBufs where
  /-- the offset of the first buffer -/
  off : BitVec 32
  nonnull : 0 < off.toNat
  fits : off.toNat + queueSize * frameMax ≤ 2 ^ 32

/-- The offset of buffer `i`: they lie one behind the other. -/
def RxBufs.bufOff (m : RxBufs) (i : BitVec 32) : BitVec 32 := m.off + i * .ofNat 32 frameMax

/-- The kernel's calls, as functions of their arguments: whatever they answer, the driver is to
cope. -/
structure Host where
  /-- `nic_dma_set_buf(ring, idx, buf_off, len)` -/
  dmaSetBuf : BitVec 32 → BitVec 32 → BitVec 32 → BitVec 32 → ℤ
  /-- `nic_queue_notify(queue_idx)` -/
  queueNotify : BitVec 32 → ℤ

/-- A descriptor. Of the address, which the kernel writes, the offset it was told. -/
structure Desc where
  buf : BitVec 32
  len : BitVec 32
  flags : BitVec 16
  next : BitVec 16
  deriving DecidableEq

/-- An entry of the used ring, as the device writes it. -/
structure UsedElem where
  id : BitVec 32
  len : BitVec 32
  deriving DecidableEq

/-- The receive queue in the driver's memory, of which the device writes the used ring. -/
structure RxQueue where
  /-- `RX_DESC` -/
  desc : ℕ → Desc
  /-- `RX_AVAIL` -/
  availFlags : BitVec 16
  availIdx : BitVec 16
  availRing : ℕ → BitVec 16
  /-- `RX_USED` -/
  usedIdx : BitVec 16
  usedRing : ℕ → UsedElem
  /-- `RX_USED_SEEN` -/
  rxUsedSeen : BitVec 16
  /-- `RX_AVAIL_NEXT` -/
  rxAvailNext : BitVec 16

/-- The statics, as they are loaded: nothing is published. -/
def RxQueue.zeroed : RxQueue :=
  { desc := fun _ => ⟨0, 0, 0, 0⟩
    availFlags := 0
    availIdx := 0
    availRing := fun _ => 0
    usedIdx := 0
    usedRing := fun _ => ⟨0, 0⟩
    rxUsedSeen := 0
    rxAvailNext := 0 }

/-! ## The driver

The functions of the source. Where one of them is interrupted by the device is told by the turns
below. -/

section Driver

variable (h : Host) (m : RxBufs)

/-- A descriptor of a receive buffer: the device may write to the whole of it. -/
def rxDesc (i : BitVec 32) : Desc := ⟨m.bufOff i, .ofNat 32 frameMax, descWrite, 0⟩

/-- Point a descriptor at its buffer: `nic_dma_set_buf` and `write_desc_meta`. -/
def setDesc (q : RxQueue) (i : BitVec 32) : Option RxQueue :=
  if h.dmaSetBuf ringRx i (m.bufOff i) (.ofNat 32 frameMax) ≠ 0 then none
  else some { q with desc := Function.update q.desc i.toNat (rxDesc m i) }

/-- Write a slot of the available ring, and leave the others. -/
def RxQueue.setAvail (q : RxQueue) (n : ℕ) (desc : BitVec 16) : RxQueue :=
  { q with availRing := Function.update q.availRing n desc }

/-- The first loop of `populate_rx`: whether it ran to its end. -/
def populateDescs : List ℕ → RxQueue → Bool × RxQueue
  | [], q => (true, q)
  | i :: is, q =>
    match setDesc h m q (.ofNat 32 i) with
    | none => (false, q)
    | some q => populateDescs is q

/-- **Publish all descriptors**, unless the kernel refuses one of them. -/
def populateRx (q : RxQueue) : Bool × RxQueue :=
  match populateDescs h m (List.range queueSize) q with
  | (false, q) => (false, q)
  | (true, q) =>
    let q := { q with availFlags := 0 }
    let q := (List.range queueSize).foldl (fun q i => q.setAvail i (.ofNat 16 i)) q
    -- the index is written last
    let q := { q with availIdx := .ofNat 16 queueSize, rxAvailNext := .ofNat 16 queueSize }
    (h.queueNotify 0 = 0, q)

/-- `(buf_off as u64) | ((len as u64) << 32)` -/
def pack (bufOff len : BitVec 32) : BitVec 64 := bufOff.setWidth 64 ||| (len.setWidth 64 <<< 32)

/-- `driver_rx_pop`, once the device's index was read: an entry with an index past the ring is
passed over. -/
def popEntry (q : RxQueue) : BitVec 64 × RxQueue :=
  let elem := q.usedRing (slot queueSize q.rxUsedSeen)
  let q := { q with rxUsedSeen := q.rxUsedSeen + 1 }
  if queueSize ≤ elem.id.toNat then (0, q) else (pack (m.bufOff elem.id) elem.len, q)

/-- **The next received packet**: its buffer and its length, or 0. -/
def driverRxPop (q : RxQueue) : BitVec 64 × RxQueue :=
  if q.usedIdx = q.rxUsedSeen then (0, q) else popEntry m q

/-- `driver_rx_recycle`, up to where the descriptor is written. -/
def recycleDesc (q : RxQueue) (descIdx : BitVec 32) : Option RxQueue :=
  if queueSize ≤ descIdx.toNat then none else setDesc h m q descIdx

/-- Append to the available ring, but for its index. -/
def recycleSlot (q : RxQueue) (descIdx : BitVec 32) : RxQueue :=
  { q.setAvail (slot queueSize q.rxAvailNext) (descIdx.setWidth 16) with
    rxAvailNext := q.rxAvailNext + 1 }

/-- **Give a buffer back to the device**: its descriptor is written again, then a slot of the
ring, then the index. -/
def driverRxRecycle (q : RxQueue) (descIdx : BitVec 32) : ℤ × RxQueue :=
  match recycleDesc h m q descIdx with
  | none => (-1, q)
  | some q =>
    let q := recycleSlot q descIdx
    (h.queueNotify 0, { q with availIdx := q.rxAvailNext })

/-- A received packet, with the descriptor that has to be given back for it. -/
structure NicRxToken where
  bufOff : BitVec 32
  usedLen : BitVec 32
  descIdx : BitVec 32
  deriving DecidableEq

/-- `NicDevice::receive`, from what `rx_pop` returned: the descriptor is told from the offset. -/
def receive (packed : BitVec 64) : Option NicRxToken :=
  if packed = 0 then none
  else
    let bufOff := packed.setWidth 32
    some ⟨bufOff, (packed >>> 32).setWidth 32, (bufOff - m.off) / .ofNat 32 frameMax⟩

/-- Where the frame starts that `NicRxToken::consume` hands up. -/
def NicRxToken.frameOff (t : NicRxToken) : BitVec 32 := t.bufOff + .ofNat 32 netHdrLen

/-- The length of a packet, cut down to a buffer whatever the device said. -/
def NicRxToken.frameLen (t : NicRxToken) : ℕ :=
  min (t.usedLen.toNat - netHdrLen) (frameMax - netHdrLen)

end Driver

/-! ## Turns

A turn is one access that the other side can see. The device takes what is available and returns
what it took, in any order and with any length. -/

/-- Where the driver is, as the device may step in between. -/
inductive CallPc where
  /-- in no call -/
  | idle
  /-- in `rx_pop`, having read an index that is not the one it has seen -/
  | popping
  /-- in `rx_recycle`, with the descriptor written -/
  | recycling (descIdx : BitVec 32)
  /-- in `rx_recycle`, with the slot written, about to write the index -/
  | publishing (descIdx : BitVec 32) (availIdx : BitVec 16)

/-- The descriptor of a token that is being consumed. -/
def CallPc.held : CallPc → List ℕ
  | .recycling descIdx => [descIdx.toNat]
  | .publishing descIdx _ => [descIdx.toNat]
  | _ => []

/-- The queue, who holds what, and what went on so far. -/
structure RxWorld where
  q : RxQueue
  pc : CallPc
  /-- the tokens that are out -/
  tokens : List NicRxToken
  /-- the device's index into the available ring -/
  lastAvail : BitVec 16
  /-- the descriptors the device took and has not returned -/
  taken : List (BitVec 16)
  /-- the entries the device put in the used ring -/
  completed : List UsedElem
  /-- the entries the driver took out -/
  popped : List UsedElem
  /-- the tokens handed up -/
  handed : List NicRxToken

/-- A turn, of the driver or of the device. -/
inductive RxEvent where
  /-- the device takes the next available descriptor -/
  | take
  /-- the device returns a descriptor it took, with any length -/
  | complete (id : BitVec 16) (len : BitVec 32)
  /-- the stack asks for a packet: `rx_pop` reads the index -/
  | pop
  /-- a token is consumed: `rx_recycle` writes the descriptor -/
  | consume (t : NicRxToken)
  /-- the next access of the call the driver is in -/
  | run

namespace RxWorld

variable (h : Host) (m : RxBufs)

/-- The driver takes an entry out of the used ring and hands up a token. -/
def popNext (w : RxWorld) : RxWorld :=
  let out := popEntry m w.q
  let token := (receive m out.1).toList
  { w with
    q := out.2
    pc := .idle
    tokens := w.tokens ++ token
    popped := w.popped ++ [w.q.usedRing (slot queueSize w.q.rxUsedSeen)]
    handed := w.handed ++ token }

/-- A token is consumed. Where the kernel refuses, the buffer is not given back. -/
def startRecycle (w : RxWorld) (t : NicRxToken) : RxWorld :=
  match recycleDesc h m w.q t.descIdx with
  | none => { w with tokens := w.tokens.erase t }
  | some q => { w with q := q, tokens := w.tokens.erase t, pc := .recycling t.descIdx }

/-- The device takes the next available descriptor. -/
def takeNext (w : RxWorld) : RxWorld :=
  { w with
    taken := w.taken ++ [w.q.availRing (slot queueSize w.lastAvail)]
    lastAvail := w.lastAvail + 1 }

/-- The device returns a descriptor, in the next entry of the used ring. -/
def putUsed (w : RxWorld) (id : BitVec 16) (len : BitVec 32) : RxWorld :=
  let elem : UsedElem := ⟨id.setWidth 32, len⟩
  { w with
    q := { w.q with
      usedRing := Function.update w.q.usedRing (slot queueSize w.q.usedIdx) elem
      usedIdx := w.q.usedIdx + 1 }
    taken := w.taken.erase id
    completed := w.completed ++ [elem] }

/-- One turn, where there is one: the device takes only what is published, and returns only what
it took. -/
def step (w : RxWorld) : RxEvent → Option RxWorld
  | .take => if w.lastAvail = w.q.availIdx then none else some w.takeNext
  | .complete id len => if id ∈ w.taken then some (w.putUsed id len) else none
  | .pop =>
    match w.pc with
    | .idle => if w.q.usedIdx = w.q.rxUsedSeen then some w else some { w with pc := .popping }
    | _ => none
  | .consume t =>
    match w.pc with
    | .idle => if t ∈ w.tokens then some (w.startRecycle h m t) else none
    | _ => none
  | .run =>
    match w.pc with
    | .popping => some (w.popNext m)
    | .recycling descIdx =>
      let q := recycleSlot w.q descIdx
      some { w with q := q, pc := .publishing descIdx q.rxAvailNext }
    | .publishing _ availIdx => some { w with q := { w.q with availIdx := availIdx }, pc := .idle }
    | .idle => none

/-- After `populate_rx`, with nothing taken and nothing handed on. -/
def start (q : RxQueue) : RxWorld := ⟨q, .idle, [], 0, [], [], [], []⟩

/-! ### Who holds a descriptor

A descriptor is with the device, in the used ring, or in a token. That these are all, and exclude
each other, is what is to be shown. -/

/-- The descriptors that are available to the device, in the ring or taken. -/
def available (w : RxWorld) : List ℕ :=
  (entries w.q.availRing queueSize w.lastAvail w.q.availIdx ++ w.taken).map BitVec.toNat

/-- The entries of the used ring that were not popped. -/
def pending (w : RxWorld) : List UsedElem :=
  entries w.q.usedRing queueSize w.q.rxUsedSeen w.q.usedIdx

/-- The descriptors that tokens hold, the one that is being given back among them. -/
def held (w : RxWorld) : List ℕ := w.tokens.map (·.descIdx.toNat) ++ w.pc.held

end RxWorld

/-- The driver and the device, from `populate_rx` on. -/
def rxMachine (h : Host) (m : RxBufs) : Machine RxWorld RxEvent where
  init w := populateRx h m .zeroed = (true, w.q) ∧ w = .start w.q
  step := RxWorld.step h m

/-! ### Calls

With no turn of the device in between, the turns of a call are the call. -/

theorem pop_call (h : Host) (m : RxBufs) {w : RxWorld} (hpc : w.pc = .idle) :
    ∃ evs w', (rxMachine h m).Run w evs w' ∧ w'.pc = .idle ∧ w'.q = (driverRxPop m w.q).2 ∧
      w'.tokens = w.tokens ++ (receive m (driverRxPop m w.q).1).toList := by
  by_cases hseen : w.q.usedIdx = w.q.rxUsedSeen
  · refine ⟨[], w, .nil w, hpc, ?_, ?_⟩
    · rw [driverRxPop, if_pos hseen]
    · rw [driverRxPop, if_pos hseen]
      exact (List.append_nil _).symm
  · have hpop : RxWorld.step h m w .pop = some { w with pc := .popping } := by
      simp only [RxWorld.step, hpc, if_neg hseen]
    refine ⟨[.pop, .run], RxWorld.popNext m { w with pc := .popping },
      .cons hpop (.cons rfl (.nil _)), rfl, ?_, ?_⟩ <;>
    · rw [driverRxPop, if_neg hseen]
      rfl

theorem recycle_call (h : Host) (m : RxBufs) {w : RxWorld} {t : NicRxToken} (hpc : w.pc = .idle)
    (ht : t ∈ w.tokens) :
    ∃ evs w', (rxMachine h m).Run w evs w' ∧ w'.pc = .idle ∧
      w'.q = (driverRxRecycle h m w.q t.descIdx).2 ∧ w'.tokens = w.tokens.erase t := by
  have hconsume : RxWorld.step h m w (.consume t) = some (w.startRecycle h m t) := by
    simp only [RxWorld.step, hpc, if_pos ht]
  rw [RxWorld.startRecycle] at hconsume
  rw [driverRxRecycle]
  rcases hdesc : recycleDesc h m w.q t.descIdx with _ | q
  · rw [hdesc] at hconsume
    exact ⟨[.consume t], _, .cons hconsume (.nil _), hpc, rfl, rfl⟩
  · rw [hdesc] at hconsume
    exact ⟨[.consume t, .run, .run], _, .cons hconsume (.cons rfl (.cons rfl (.nil _))), rfl, rfl,
      rfl⟩

/-! ## Tokens

What a token says of its frame comes from an entry that the device wrote. -/

section Tokens

variable {m : RxBufs}

theorem pack_lo (a b : BitVec 32) : (pack a b).setWidth 32 = a := by
  ext i hi
  simp [pack]

theorem pack_hi (a b : BitVec 32) : (pack a b >>> 32).setWidth 32 = b := by
  ext i hi
  have hbehind : 32 + i < 64 := by omega
  have hbefore : i < 64 := by omega
  have hlow : ¬ 32 + i < 32 := by omega
  simp [pack, hbehind, hbefore, hlow, BitVec.getLsbD_eq_getElem hi]

/-- The buffers lie one after the other, without overflow. -/
theorem bufOff_toNat (m : RxBufs) {i : BitVec 32} (hi : i.toNat < queueSize) :
    (m.bufOff i).toNat = m.off.toNat + i.toNat * frameMax := by
  have hfits := m.fits
  have hmul : i.toNat * frameMax < queueSize * frameMax :=
    Nat.mul_lt_mul_of_pos_right hi (by decide)
  have hmax : (BitVec.ofNat 32 frameMax).toNat = frameMax := rfl
  rw [RxBufs.bufOff, BitVec.toNat_add, BitVec.toNat_mul, hmax]
  rw [Nat.mod_eq_of_lt (by omega : i.toNat * frameMax < 2 ^ 32), Nat.mod_eq_of_lt (by omega)]

/-- The token of an entry, by its index and its length. -/
def tokenOf (m : RxBufs) (e : UsedElem) : NicRxToken := ⟨m.bufOff e.id, e.len, e.id⟩

/-- **Every entry yields its token**, whatever its length: the word that `rx_pop` returns is not
zero, and tells offset and length. -/
theorem receive_pack {e : UsedElem} (he : e.id.toNat < queueSize) :
    receive m (pack (m.bufOff e.id) e.len) = some (tokenOf m e) := by
  have hoff := bufOff_toNat m he
  have hnonnull := m.nonnull
  have hne : pack (m.bufOff e.id) e.len ≠ 0 := by
    intro hzero
    have hlo := pack_lo (m.bufOff e.id) e.len
    rw [hzero] at hlo
    rw [← hlo] at hoff
    simp at hoff
    omega
  have hidx : (m.bufOff e.id - m.off) / BitVec.ofNat 32 frameMax = e.id := by
    have hfits := m.fits
    have hmul : e.id.toNat * frameMax < queueSize * frameMax :=
      Nat.mul_lt_mul_of_pos_right he (by decide)
    have hmax : (BitVec.ofNat 32 frameMax).toNat = frameMax := rfl
    apply BitVec.eq_of_toNat_eq
    rw [RxBufs.bufOff, add_sub_cancel_left, BitVec.toNat_udiv, BitVec.toNat_mul, hmax,
      Nat.mod_eq_of_lt (by omega), Nat.mul_div_cancel _ (by decide)]
  rw [receive, if_neg hne]
  simp only [pack_lo, pack_hi, hidx]
  rfl

/-- **A frame lies in the buffer of its descriptor**, behind the header and before the buffer's
end. -/
theorem frame_inside {e : UsedElem} (he : e.id.toNat < queueSize) :
    (m.bufOff e.id).toNat ≤ (tokenOf m e).frameOff.toNat ∧
      (tokenOf m e).frameOff.toNat + (tokenOf m e).frameLen ≤
        (m.bufOff e.id).toNat + frameMax := by
  have hoff := bufOff_toNat m he
  have hfits := m.fits
  have hmul : (e.id.toNat + 1) * frameMax ≤ queueSize * frameMax := Nat.mul_le_mul_right _ he
  rw [Nat.succ_mul] at hmul
  have hlen : (tokenOf m e).frameLen ≤ frameMax - netHdrLen := Nat.min_le_right _ _
  have hhdr : (BitVec.ofNat 32 netHdrLen).toNat = netHdrLen := rfl
  have hle : netHdrLen ≤ frameMax := by decide
  have hframe : (tokenOf m e).frameOff.toNat = (m.bufOff e.id).toNat + netHdrLen := by
    rw [NicRxToken.frameOff, BitVec.toNat_add, hhdr]
    refine Nat.mod_eq_of_lt ?_
    change (m.bufOff e.id).toNat + netHdrLen < 2 ^ 32
    have hlt : netHdrLen < frameMax := by decide
    omega
  omega

end Tokens

/-! ## Where a descriptor is

The invariant, turn by turn. -/

/-- What holds of the driver's own index where it is. -/
def AvailAt (q : RxQueue) : CallPc → Prop
  | .publishing descIdx availIdx => q.rxAvailNext = availIdx ∧ availIdx = q.availIdx + 1 ∧
      q.availRing (slot queueSize q.availIdx) = descIdx.setWidth 16
  | _ => q.rxAvailNext = q.availIdx

/-- **Conservation**: what holds between any two turns. The three places of a descriptor together
are a permutation of all of them, and each index is where the counts say. -/
structure RxInv (m : RxBufs) (w : RxWorld) : Prop where
  /-- every descriptor is somewhere, and nowhere else -/
  parts : (w.available ++ (w.pending.map (·.id.toNat) ++ w.held)).Perm (List.range queueSize)
  avail : AvailAt w.q w.pc
  popping : w.pc = .popping → w.q.rxUsedSeen ≠ w.q.usedIdx
  log : w.completed = w.popped ++ w.pending
  handed : w.handed = w.popped.map (tokenOf m)
  tokens : ∀ t ∈ w.tokens, ∃ e : UsedElem, e.id.toNat < queueSize ∧ t = tokenOf m e
  desc : ∀ i : BitVec 32, i.toNat < queueSize → w.q.desc i.toNat = rxDesc m i

section Steps

variable {h : Host} {m : RxBufs} {w w' : RxWorld}

namespace RxInv

theorem lt (hw : RxInv m w) {i : ℕ}
    (hi : i ∈ w.available ++ (w.pending.map (·.id.toNat) ++ w.held)) : i < queueSize :=
  List.mem_range.mp (hw.parts.mem_iff.mp hi)

/-- How many descriptors there are in all places together: as many as the ring has. -/
theorem length (hw : RxInv m w) :
    count w.lastAvail w.q.availIdx +
      (w.taken.length + (count w.q.rxUsedSeen w.q.usedIdx + w.held.length)) = queueSize := by
  simpa [RxWorld.available, RxWorld.pending] using hw.parts.length_eq

end RxInv

theorem dvd_indices : queueSize ∣ 2 ^ 16 := by decide

/-- The device takes the oldest descriptor that is available. -/
theorem takeNext_inv (hw : RxInv m w) (hne : w.lastAvail ≠ w.q.availIdx) :
    RxInv m w.takeNext := by
  refine { hw with parts := ?_ }
  refine List.Perm.trans ?_ hw.parts
  rw [List.perm_iff_count]
  intro i
  simp only [RxWorld.available, RxWorld.takeNext, RxWorld.pending, RxWorld.held,
    Lib.FreeRunning.entries_head dvd_indices hne, List.map_append, List.map_cons, List.map_nil,
    List.count_append, List.count_cons, List.cons_append, List.count_nil]
  omega

/-- The device returns a descriptor, which moves it from those taken to those returned. -/
theorem putUsed_inv (hw : RxInv m w) {id : BitVec 16} (hid : id ∈ w.taken) (len : BitVec 32) :
    RxInv m (w.putUsed id len) := by
  have hlen := hw.length
  have hpos : 0 < w.taken.length := List.length_pos_of_mem hid
  have hroom : count w.q.rxUsedSeen w.q.usedIdx < queueSize := by omega
  have hlt : count w.q.rxUsedSeen w.q.usedIdx + 1 < 2 ^ 16 := by
    have : queueSize < 2 ^ 16 := by decide
    omega
  have hpending : (w.putUsed id len).pending = w.pending ++ [⟨id.setWidth 32, len⟩] := by
    rw [RxWorld.pending, RxWorld.putUsed]
    dsimp only
    rw [Lib.FreeRunning.entries_succ dvd_indices hlt, Function.update_self,
      Lib.FreeRunning.entries_update dvd_indices hroom]
    rfl
  refine { hw with parts := ?_, popping := ?_, log := ?_ }
  · refine List.Perm.trans ?_ hw.parts
    rw [List.perm_iff_count]
    intro i
    have hval : (id.setWidth 32).toNat = id.toNat := by
      rw [BitVec.toNat_setWidth]
      omega
    have htaken := ((List.perm_cons_erase hid).map BitVec.toNat).count_eq i
    simp only [List.map_cons, List.count_cons] at htaken
    rw [hpending]
    simp only [RxWorld.available, RxWorld.putUsed, RxWorld.held, List.map_append, List.map_cons,
      List.map_nil, List.count_append, List.count_cons, List.count_nil, hval]
    omega
  · intro hpc heq
    have hzero : count w.q.rxUsedSeen (w.q.usedIdx + 1) = 0 :=
      Lib.FreeRunning.count_eq_zero.mpr heq
    rw [Lib.FreeRunning.count_tail hlt] at hzero
    omega
  · rw [hpending, ← List.append_assoc]
    exact congrArg (· ++ [_]) hw.log

/-- The driver takes the oldest entry, which moves its descriptor from those returned to those
held. -/
theorem popNext_inv (hw : RxInv m w) (hpc : w.pc = .popping) : RxInv m (w.popNext m) := by
  have hne := hw.popping hpc
  have hpending : w.pending = w.q.usedRing (slot queueSize w.q.rxUsedSeen) ::
      entries w.q.usedRing queueSize (w.q.rxUsedSeen + 1) w.q.usedIdx :=
    Lib.FreeRunning.entries_head dvd_indices hne
  have havail := hw.avail
  have hparts := hw.parts
  generalize hqe : w.q.usedRing (slot queueSize w.q.rxUsedSeen) = e at hpending
  have he : e.id.toNat < queueSize := hw.lt (by simp [hpending])
  have hpop : w.popNext m =
      { w with
        q := { w.q with rxUsedSeen := w.q.rxUsedSeen + 1 }
        pc := .idle
        tokens := w.tokens ++ [tokenOf m e]
        popped := w.popped ++ [e]
        handed := w.handed ++ [tokenOf m e] } := by
    simp only [RxWorld.popNext, popEntry, hqe, if_neg (Nat.not_le.mpr he), receive_pack he]
    rfl
  rw [hpop]
  rw [hpc] at havail
  refine { hw with
    parts := ?_, avail := havail, popping := nofun, log := ?_, handed := ?_, tokens := ?_ }
  · refine List.Perm.trans ?_ hparts
    rw [List.perm_iff_count]
    intro i
    rw [hpending]
    simp only [RxWorld.available, RxWorld.pending, RxWorld.held, hpc, CallPc.held, tokenOf,
      List.map_append, List.map_cons, List.map_nil, List.count_append, List.count_cons,
      List.count_nil]
    omega
  · have hlog := hw.log
    rw [hpending] at hlog
    simpa [RxWorld.pending] using hlog
  · simp [hw.handed]
  · intro t ht
    rcases List.mem_append.mp ht with ht | ht
    · exact hw.tokens t ht
    · obtain rfl := List.mem_singleton.mp ht
      exact ⟨e, he, rfl⟩

/-- The kernel points every descriptor at its buffer. -/
def Points (h : Host) (m : RxBufs) : Prop :=
  ∀ i : BitVec 32, i.toNat < queueSize →
    h.dmaSetBuf ringRx i (m.bufOff i) (.ofNat 32 frameMax) = 0

/-- A token is consumed: its descriptor is written again, and still held. -/
theorem startRecycle_inv (hh : Points h m) (hw : RxInv m w) (hpc : w.pc = .idle)
    {t : NicRxToken} (ht : t ∈ w.tokens) : RxInv m (w.startRecycle h m t) := by
  obtain ⟨e, he, rfl⟩ := hw.tokens t ht
  have havail := hw.avail
  have hparts := hw.parts
  have hdesc : Function.update w.q.desc e.id.toNat (rxDesc m e.id) = w.q.desc := by
    rw [← hw.desc e.id he, Function.update_eq_self]
  have hstart : w.startRecycle h m (tokenOf m e) =
      { w with tokens := w.tokens.erase (tokenOf m e), pc := .recycling e.id } := by
    have hidx : (tokenOf m e).descIdx = e.id := rfl
    simp only [RxWorld.startRecycle, recycleDesc, setDesc, hidx, if_neg (Nat.not_le.mpr he),
      hh e.id he, ne_eq, not_true_eq_false, if_false, hdesc]
  rw [hstart]
  rw [hpc] at havail
  refine { hw with parts := ?_, avail := havail, popping := nofun, tokens := ?_ }
  · refine List.Perm.trans ?_ hparts
    rw [List.perm_iff_count]
    intro i
    have htokens := ((List.perm_cons_erase ht).map (·.descIdx.toNat)).count_eq i
    simp only [tokenOf, List.map_cons, List.count_cons] at htokens
    simp only [RxWorld.available, RxWorld.pending, RxWorld.held, hpc, CallPc.held, tokenOf,
      List.count_append, List.count_cons, List.count_nil]
    omega
  · exact fun t' ht' => hw.tokens t' (List.mem_of_mem_erase ht')

/-- Its slot is written: behind all that is available. -/
theorem recycleSlot_inv (hw : RxInv m w) {descIdx : BitVec 32} (hpc : w.pc = .recycling descIdx) :
    RxInv m { w with
      q := recycleSlot w.q descIdx, pc := .publishing descIdx (w.q.rxAvailNext + 1) } := by
  have havail := hw.avail
  have hlen := hw.length
  rw [hpc] at havail
  have hroom : count w.lastAvail w.q.availIdx < queueSize := by
    simp only [RxWorld.held, hpc, CallPc.held, List.length_append, List.length_cons] at hlen
    omega
  have hnext : w.q.rxAvailNext = w.q.availIdx := havail
  refine { hw with parts := ?_, avail := ?_, popping := nofun }
  · have hparts := hw.parts
    simp only [RxWorld.available, RxWorld.pending, RxWorld.held, recycleSlot, RxQueue.setAvail,
      hnext, Lib.FreeRunning.entries_update dvd_indices hroom]
    simpa only [RxWorld.available, RxWorld.pending, RxWorld.held, hpc, CallPc.held] using hparts
  · refine ⟨rfl, by rw [hnext]; rfl, ?_⟩
    simp only [recycleSlot, RxQueue.setAvail, hnext, Function.update_self]

/-- The descriptor becomes available, which moves it from those held to those published. -/
theorem publish_inv (hw : RxInv m w) {descIdx : BitVec 32} {availIdx : BitVec 16}
    (hpc : w.pc = .publishing descIdx availIdx) :
    RxInv m { w with q := { w.q with availIdx := availIdx }, pc := .idle } := by
  have havail := hw.avail
  have hlen := hw.length
  rw [hpc] at havail
  obtain ⟨hnext, hidx, hslot⟩ := havail
  have hd : descIdx.toNat < queueSize := hw.lt (by simp [RxWorld.held, hpc, CallPc.held])
  have hval : (descIdx.setWidth 16).toNat = descIdx.toNat := by
    rw [BitVec.toNat_setWidth]
    refine Nat.mod_eq_of_lt (Nat.lt_trans hd (by decide))
  have hlt : count w.lastAvail w.q.availIdx + 1 < 2 ^ 16 := by
    have : queueSize + 1 < 2 ^ 16 := by decide
    omega
  refine { hw with parts := ?_, avail := hnext, popping := nofun }
  refine List.Perm.trans ?_ hw.parts
  rw [List.perm_iff_count]
  intro i
  simp only [RxWorld.available, RxWorld.pending, RxWorld.held, hpc, CallPc.held, hidx,
    Lib.FreeRunning.entries_succ dvd_indices hlt, hslot, List.map_append, List.map_cons,
    List.map_nil, List.count_append, List.count_cons, List.count_nil, hval]
  omega

/-! ### Populating

Before the first turn: all descriptors are available. -/

/-- What the loop over the descriptors did, where it ran to its end. -/
theorem populateDescs_ok {is : List ℕ} {q q' : RxQueue}
    (hq : populateDescs h m is q = (true, q')) :
    (∀ i ∈ is, h.dmaSetBuf ringRx (.ofNat 32 i) (m.bufOff (.ofNat 32 i)) (.ofNat 32 frameMax) = 0) ∧
      (∀ i ∈ is, q'.desc (BitVec.ofNat 32 i).toNat = rxDesc m (.ofNat 32 i)) ∧
      (∀ n, (∀ i ∈ is, (BitVec.ofNat 32 i).toNat ≠ n) → q'.desc n = q.desc n) ∧
      q' = { q with desc := q'.desc } := by
  induction is generalizing q with
  | nil =>
    obtain rfl : q = q' := congrArg Prod.snd hq
    exact ⟨by simp, by simp, fun n _ => rfl, rfl⟩
  | cons i is ih =>
    rw [populateDescs, setDesc] at hq
    split at hq
    · cases hq
    · rename_i hset
      split at hset
      · cases hset
      · rename_i hzero
        obtain rfl := Option.some.inj hset
        obtain ⟨hhost, hdesc, hother, hrest⟩ := ih hq
        refine ⟨?_, ?_, ?_, hrest⟩
        · rw [List.forall_mem_cons]
          exact ⟨not_not.mp hzero, hhost⟩
        · rw [List.forall_mem_cons]
          refine ⟨?_, hdesc⟩
          by_cases hagain : ∃ j ∈ is, (BitVec.ofNat 32 j).toNat = (BitVec.ofNat 32 i).toNat
          · obtain ⟨j, hj, heq⟩ := hagain
            rw [← heq, hdesc j hj, BitVec.eq_of_toNat_eq heq]
          · have hlast : ∀ j ∈ is, (BitVec.ofNat 32 j).toNat ≠ (BitVec.ofNat 32 i).toNat :=
              fun j hj heq => hagain ⟨j, hj, heq⟩
            exact (hother _ hlast).trans (Function.update_self ..)
        · intro n hn
          rw [List.forall_mem_cons] at hn
          exact (hother n hn.2).trans (Function.update_of_ne (Ne.symm hn.1) ..)

/-- The loop over the slots writes each of them once. -/
theorem foldl_setAvail (is : List ℕ) (q : RxQueue) :
    is.foldl (fun q i => q.setAvail i (.ofNat 16 i)) q =
      { q with availRing := fun n => if n ∈ is then .ofNat 16 n else q.availRing n } := by
  induction is generalizing q with
  | nil => simp
  | cons i is ih =>
    rw [List.foldl_cons, ih, RxQueue.setAvail]
    congr 1
    funext n
    by_cases hn : n ∈ is
    · simp [hn]
    · by_cases hi : n = i
      · simp [hi]
      · simp [hn, hi]

theorem entries_populated :
    entries (fun n => if n ∈ List.range queueSize then BitVec.ofNat 16 n else 0) queueSize
      (0 : BitVec 16) (.ofNat 16 queueSize) = (List.range queueSize).map (BitVec.ofNat 16) := by
  decide

/-- **After `populate_rx`** every descriptor is available, which is where the invariant starts. -/
theorem populateRx_inv {q : RxQueue} (hq : populateRx h m .zeroed = (true, q)) :
    Points h m ∧ RxInv m (.start q) := by
  rw [populateRx] at hq
  split at hq
  · cases hq
  rename_i q' hdescs
  obtain ⟨hhost, hdesc, -, hrest⟩ := populateDescs_ok hdescs
  have hofNat : ∀ i : BitVec 32, BitVec.ofNat 32 i.toNat = i := fun i => BitVec.ofNat_toNat 32 i
  generalize q'.desc = desc at hdesc hrest
  subst hrest
  simp only [foldl_setAvail, RxQueue.zeroed] at hq
  obtain rfl := (Prod.mk.inj hq).2
  refine ⟨fun i hi => ?_, ⟨?_, rfl, nofun, ?_, rfl, nofun, fun i hi => ?_⟩⟩
  · have hset := hhost i.toNat (List.mem_range.mpr hi)
    rwa [hofNat] at hset
  · have havailable : (entries (fun n => if n ∈ List.range queueSize then BitVec.ofNat 16 n else 0)
        queueSize (0 : BitVec 16) (.ofNat 16 queueSize) ++ []).map BitVec.toNat =
          List.range queueSize := by
      rw [entries_populated]
      decide
    simp only [RxWorld.available, RxWorld.pending, RxWorld.held, RxWorld.start, CallPc.held,
      havailable]
    simp
  · simp [RxWorld.start, RxWorld.pending]
  · have hset := hdesc i.toNat (List.mem_range.mpr hi)
    rwa [hofNat] at hset

/-! ### Runs

Any interleaving of driver and device. -/

/-- **What one turn preserves**, be it the driver's or the device's. -/
theorem step_inv (hh : Points h m) (hw : RxInv m w) {ev : RxEvent}
    (hstep : w.step h m ev = some w') : RxInv m w' := by
  cases ev with
  | take =>
    rw [RxWorld.step] at hstep
    split at hstep
    · cases hstep
    · rename_i hne
      obtain rfl := Option.some.inj hstep
      exact takeNext_inv hw hne
  | complete id len =>
    rw [RxWorld.step] at hstep
    split at hstep
    · rename_i hid
      obtain rfl := Option.some.inj hstep
      exact putUsed_inv hw hid len
    · cases hstep
  | pop =>
    rw [RxWorld.step] at hstep
    split at hstep
    · rename_i hpc
      split at hstep
      · obtain rfl := Option.some.inj hstep
        exact hw
      · rename_i hne
        obtain rfl := Option.some.inj hstep
        have havail := hw.avail
        have hparts := hw.parts
        rw [hpc] at havail
        simp only [RxWorld.held, hpc] at hparts
        exact { hw with parts := hparts, avail := havail, popping := fun _ => Ne.symm hne }
    · cases hstep
  | consume t =>
    rw [RxWorld.step] at hstep
    split at hstep
    · rename_i hpc
      split at hstep
      · rename_i ht
        obtain rfl := Option.some.inj hstep
        exact startRecycle_inv hh hw hpc ht
      · cases hstep
    · cases hstep
  | run =>
    rw [RxWorld.step] at hstep
    split at hstep
    · rename_i hpc
      obtain rfl := Option.some.inj hstep
      exact popNext_inv hw hpc
    · rename_i descIdx hpc
      obtain rfl := Option.some.inj hstep
      exact recycleSlot_inv hw hpc
    · rename_i descIdx availIdx hpc
      obtain rfl := Option.some.inj hstep
      exact publish_inv hw hpc
    · cases hstep

/-- **What a run preserves**, by the invariant rule. -/
theorem reachable_inv (hw : (rxMachine h m).Reachable w) : RxInv m w := by
  obtain ⟨w₀, evs, ⟨hpop, hstart⟩, hrun⟩ := hw
  obtain ⟨hh, hinv⟩ := populateRx_inv hpop
  rw [← hstart] at hinv
  exact hrun.keeps (fun s ev t hs hstep => @step_inv h m s t hh hs ev hstep) hinv

end Steps

/-! ## Conservation

What a reader of the driver wants of it. -/

/-- What is promised of the receive queue: no descriptor is lost, and none is in two places. -/
structure Conserved (m : RxBufs) (w : RxWorld) : Prop where
  /-- a descriptor is available, or returned, or held, and only once -/
  once : ∀ i < queueSize,
    w.available.count i + (w.pending.map (·.id.toNat)).count i + w.held.count i = 1
  only : ∀ i, queueSize ≤ i →
    w.available.count i + (w.pending.map (·.id.toNat)).count i + w.held.count i = 0
  /-- what was popped is what was returned first, in order -/
  order : w.completed = w.popped ++ w.pending
  /-- and was handed up -/
  handed : w.handed = w.popped.map fun e => ⟨m.bufOff e.id, e.len, e.id⟩
  /-- a descriptor points at its own buffer, and a frame handed up lies in it -/
  desc : ∀ i : BitVec 32, i.toNat < queueSize → w.q.desc i.toNat = rxDesc m i
  inside : ∀ t ∈ w.tokens, t.descIdx.toNat < queueSize ∧
    m.off.toNat + t.descIdx.toNat * frameMax ≤ t.frameOff.toNat ∧
      t.frameOff.toNat + t.frameLen ≤ m.off.toNat + (t.descIdx.toNat + 1) * frameMax

/-- **No buffer is lost and none is doubled**, in any run of driver and device from
`populate_rx` on. -/
theorem rx_conserved (h : Host) (m : RxBufs) (w : RxWorld) (hw : (rxMachine h m).Reachable w) :
    Conserved m w := by
  have hinv := reachable_inv hw
  have hcount : ∀ i, w.available.count i + (w.pending.map (·.id.toNat)).count i +
      w.held.count i = (List.range queueSize).count i := by
    intro i
    have hparts := hinv.parts.count_eq i
    simp only [List.count_append] at hparts
    omega
  refine ⟨fun i hi => ?_, fun i hi => ?_, hinv.log, hinv.handed, hinv.desc, fun t ht => ?_⟩
  · rw [hcount, List.nodup_range.count, if_pos (List.mem_range.mpr hi)]
  · rw [hcount, List.nodup_range.count,
      if_neg fun hmem => absurd (List.mem_range.mp hmem) (by omega)]
  · obtain ⟨e, he, rfl⟩ := hinv.tokens t ht
    obtain ⟨hfront, hback⟩ := frame_inside he (m := m)
    rw [bufOff_toNat m he] at hfront hback
    refine ⟨he, hfront, ?_⟩
    rwa [Nat.succ_mul, ← Nat.add_assoc]

/-- A kernel that refuses nothing. -/
def sampleHost : Host := ⟨fun _ _ _ _ => 0, fun _ => 0⟩

def sampleBufs : RxBufs := ⟨0x10000, by decide, by decide⟩

/-- A device that says it wrote 4 GiB. The packet is taken out of the used ring, and its buffer
given back. -/
theorem rx_conserved_sample : ∃ w : RxWorld, w.tokens = [] ∧ w.q.rxUsedSeen = 1 ∧
    w.q.availIdx = 9 ∧ Conserved sampleBufs w := by
  have hpopulated : populateRx sampleHost sampleBufs .zeroed =
      (true, (populateRx sampleHost sampleBufs .zeroed).2) := rfl
  obtain ⟨w₁, hrun₁, hw₁⟩ : ∃ w₁, (rxMachine sampleHost sampleBufs).Run
      (.start (populateRx sampleHost sampleBufs .zeroed).2) [.take, .complete 0 0xFFFFFFFF] w₁ ∧
      w₁ = ((RxWorld.start (populateRx sampleHost sampleBufs .zeroed).2).takeNext).putUsed 0
        0xFFFFFFFF := ⟨_, .cons rfl (.cons rfl (.nil _)), rfl⟩
  have hidle₁ : w₁.pc = .idle := by
    rw [hw₁]
    rfl
  obtain ⟨evs₂, w₂, hrun₂, hidle₂, hq₂, htokens₂⟩ := pop_call sampleHost sampleBufs hidle₁
  have htoken : w₂.tokens = [⟨0x10000, 0xFFFFFFFF, 0⟩] := by
    rw [htokens₂, hw₁]
    rfl
  obtain ⟨evs₃, w₃, hrun₃, hidle₃, hq₃, htokens₃⟩ :=
    recycle_call sampleHost sampleBufs hidle₂ (htoken ▸ List.mem_singleton_self _)
  have hconserved := rx_conserved sampleHost sampleBufs w₃
    ⟨_, _, ⟨hpopulated, rfl⟩, (hrun₁.append hrun₂).append hrun₃⟩
  refine ⟨w₃, ?_, ?_, ?_, hconserved⟩
  · rw [htokens₃, htoken]
    rfl
  · rw [hq₃, hq₂, hw₁]
    rfl
  · rw [hq₃, hq₂, hw₁]
    rfl

end Wari.Virtio
