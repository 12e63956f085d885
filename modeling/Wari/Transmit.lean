import Wari.Virtio
import Wari.Lib.Ram

/-!
# The VirtIO transmit queue

Every frame goes out through descriptor 0. The index the driver publishes is counted from
`TX_USED_SEEN`, which nothing ever changes: it is 2 after the first call and after every other.
So the device is offered two entries in all, both with the first call, and a frame of a later
call is not offered at all. `tx_once_iff` says in which runs nothing goes wrong: in none in
which a call returns 0.
-/

namespace Wari.Virtio

open Lib (Machine Apart)
open Lib.FreeRunning (slot entries count)

/-! ## The driver

A frame is refused by its length or by the kernel, or the one descriptor is written and the index
published. -/

/-- `RING_TX`. -/
def ringTx : BitVec 32 := 1

/-- The transmit queue in the driver's memory, which the device reads. -/
structure TxQueue where
  /-- `TX_DESC` -/
  desc : ℕ → Desc
  /-- `TX_AVAIL` -/
  availIdx : BitVec 16
  availRing : ℕ → BitVec 16
  /-- `TX_USED_SEEN` -/
  txUsedSeen : BitVec 16

/-- The statics, as they are loaded: nothing is published. -/
def TxQueue.zeroed : TxQueue := ⟨fun _ => ⟨0, 0, 0, 0⟩, 0, fun _ => 0, 0⟩

/-- **Send a frame**: 0, or what the kernel answers, or -1. -/
def driverTxSend (h : Host) (q : TxQueue) (bufOff len : BitVec 32) : ℤ × TxQueue :=
  if frameMax < len.toNat then (-1, q)
  else
    let descIdx : BitVec 16 := 0
    if h.dmaSetBuf ringTx (descIdx.setWidth 32) bufOff len ≠ 0 then (-1, q)
    else
      let q := { q with desc := Function.update q.desc descIdx.toNat ⟨bufOff, len, 0, 0⟩ }
      let newIdx := (q.txUsedSeen + 1) % .ofNat 16 queueSize
      let q := { q with
        availRing := Function.update q.availRing (slot queueSize newIdx) descIdx }
      (h.queueNotify 1, { q with availIdx := newIdx + 1 })

/-- Does a call get as far as to write the descriptor? -/
def accepts (h : Host) (bufOff len : BitVec 32) : Prop :=
  len.toNat ≤ frameMax ∧ h.dmaSetBuf ringTx 0 bufOff len = 0

/-! ## Turns

The device takes entries and returns them at its own pace, between the calls of the driver. -/

/-- The queue, what the device holds of it, and the calls that were made. -/
structure TxWorld where
  q : TxQueue
  /-- the device's index into the available ring -/
  lastAvail : BitVec 16
  /-- the descriptors the device took and has not returned -/
  taken : List (BitVec 16)
  /-- how many it returned -/
  returned : ℕ

/-- A turn; each call with what the kernel answers to it. -/
inductive TxEvent where
  /-- `driver_tx_send` -/
  | send (h : Host) (bufOff len : BitVec 32)
  /-- `NicTxToken::consume`, which writes `TX_BUF` first -/
  | consume (h : Host) (len : BitVec 32)
  /-- the device takes the next available descriptor -/
  | take
  /-- the device returns a descriptor it took -/
  | giveBack (id : BitVec 16)

namespace TxWorld

/-- Before the first call, with nothing published and nothing taken. -/
def start : TxWorld := ⟨.zeroed, 0, [], 0⟩

/-- A call of `driver_tx_send`, with what the kernel answers to it. -/
def send (w : TxWorld) (h : Host) (bufOff len : BitVec 32) : TxWorld :=
  { w with q := (driverTxSend h w.q bufOff len).2 }

/-- One turn, where there is one; `txBuf` is the offset of `TX_BUF`. -/
def step (txBuf : BitVec 32) (w : TxWorld) : TxEvent → Option TxWorld
  | .send h bufOff len => some (w.send h bufOff len)
  | .consume h len => some (w.send h txBuf (len + .ofNat 32 netHdrLen))
  | .take =>
    if w.lastAvail = w.q.availIdx then none
    else some { w with
      taken := w.taken ++ [w.q.availRing (slot queueSize w.lastAvail)]
      lastAvail := w.lastAvail + 1 }
  | .giveBack id =>
    if w.taken.contains id then
      some { w with taken := w.taken.erase id, returned := w.returned + 1 }
    else none

/-- The descriptors the device holds, taken or still in the ring. -/
def holds (w : TxWorld) : List (BitVec 16) :=
  entries w.q.availRing queueSize w.lastAvail w.q.availIdx ++ w.taken

end TxWorld

/-- The driver and the device, from the zeroed statics on. -/
def txMachine (txBuf : BitVec 32) : Machine TxWorld TxEvent where
  init w := w = .start
  step := TxWorld.step txBuf

/-! ## What is promised

A call that succeeds exposes one entry, and no buffer is written that the device still holds. -/

/-- Of a call: where it returns 0, the index goes on by one, and the slot this exposes names
the descriptor of the frame; and the descriptor is not written while the device holds it. -/
structure Sent (h : Host) (bufOff len : BitVec 32) (w w' : TxWorld) : Prop where
  published : (driverTxSend h w.q bufOff len).1 = 0 →
    w'.q.availIdx = w.q.availIdx + 1 ∧
      w'.q.desc (w'.q.availRing (slot queueSize w.q.availIdx)).toNat = ⟨bufOff, len, 0, 0⟩
  kept : accepts h bufOff len → 0 ∉ w.holds

/-- A header and a frame of `len` bytes, written at `txBuf`, leave the buffer of the descriptor
alone. -/
def Desc.Spared (desc : Desc) (txBuf len : BitVec 32) : Prop :=
  Apart desc.buf.toNat desc.len.toNat txBuf.toNat (netHdrLen + len.toNat)

/-- Of a turn. `consume` writes `TX_BUF` as well, before it calls, and this is where a buffer
that the device still holds can be rewritten without the descriptor being touched. -/
def TxStep (txBuf : BitVec 32) (w : TxWorld) (ev : TxEvent) (w' : TxWorld) : Prop :=
  match ev with
  | .send h bufOff len => Sent h bufOff len w w'
  | .consume h len => (∀ d ∈ w.holds, (w.q.desc d.toNat).Spared txBuf len) ∧
      Sent h txBuf (len + .ofNat 32 netHdrLen) w w'
  | _ => True

/-! ## What has to be the case

The condition is on the state before the call, and on what the kernel answers to it. -/

/-- Nothing was published yet, or the device is through with the two entries there ever are. -/
def TxWorld.Idle (w : TxWorld) : Prop := w.q.availIdx = 0 ∨ w.returned = 2

/-- A call is refused before it writes anything, or else its notification fails, and the device
has nothing to do. -/
def SendGuard (h : Host) (bufOff len : BitVec 32) (w : TxWorld) : Prop :=
  accepts h bufOff len → h.queueNotify 1 ≠ 0 ∧ w.Idle

/-- **When a turn keeps the promise**: a call publishes only where the device is through with
everything, and `consume` writes over nothing that the device still holds. -/
def TxGuard (txBuf : BitVec 32) (w : TxWorld) : TxEvent → Prop
  | .send h bufOff len => SendGuard h bufOff len w
  | .consume h len => (w.Idle ∨ (w.q.desc 0).Spared txBuf len) ∧
      SendGuard h txBuf (len + .ofNat 32 netHdrLen) w
  | _ => True

/-! ## Two entries in all

The published index is 0 before the first call and 2 after any that publishes, whatever the device
does. -/

/-- What holds between any two turns, whatever the device does. -/
structure TxInv (w : TxWorld) : Prop where
  seen : w.q.txUsedSeen = 0
  ring : ∀ n, w.q.availRing n = 0
  taken : ∀ d ∈ w.taken, d = 0
  entries : (w.q.availIdx = 0 ∧ w.lastAvail = 0 ∧ w.taken = [] ∧ w.returned = 0) ∨
    (w.q.availIdx = 2 ∧ count w.lastAvail w.q.availIdx + w.taken.length + w.returned = 2)

section Steps

variable {w : TxWorld} {h : Host} {bufOff len : BitVec 32}

theorem driverTxSend_refused (hno : ¬ accepts h bufOff len) (q : TxQueue) :
    driverTxSend h q bufOff len = (-1, q) := by
  rw [driverTxSend]
  by_cases hlong : frameMax < len.toNat
  · rw [if_pos hlong]
  · rw [if_neg hlong]
    exact if_pos fun hzero => hno ⟨Nat.not_lt.mp hlong, hzero⟩

/-- What a call writes: always the same slot, and always the same index. -/
theorem driverTxSend_accepted (hyes : accepts h bufOff len) {q : TxQueue}
    (hseen : q.txUsedSeen = 0) :
    driverTxSend h q bufOff len = (h.queueNotify 1,
      { q with
        desc := Function.update q.desc 0 ⟨bufOff, len, 0, 0⟩
        availRing := Function.update q.availRing 1 0
        availIdx := 2 }) := by
  rw [driverTxSend, if_neg (Nat.not_lt.mpr hyes.1)]
  have hzero : h.dmaSetBuf ringTx ((0 : BitVec 16).setWidth 32) bufOff len = 0 := hyes.2
  dsimp only
  rw [if_neg (not_not.mpr hzero), hseen]
  rfl

/-- The device holds nothing but descriptor 0, as the driver publishes no other. -/
theorem TxInv.holds (hw : TxInv w) : ∀ d ∈ w.holds, d = 0 := by
  intro d hd
  rcases List.mem_append.mp hd with hd | hd
  · obtain ⟨k, -, rfl⟩ := List.mem_map.mp hd
    exact hw.ring _
  · exact hw.taken d hd

/-- And nothing at all where it is through. -/
theorem TxInv.idle_iff (hw : TxInv w) : w.Idle ↔ 0 ∉ w.holds := by
  have hlen : w.holds.length = count w.lastAvail w.q.availIdx + w.taken.length := by
    simp [TxWorld.holds]
  have hnil : 0 ∉ w.holds ↔ w.holds.length = 0 := by
    rw [List.length_eq_zero_iff]
    constructor
    · intro hno
      exact List.eq_nil_iff_forall_not_mem.mpr fun d hd => hno (hw.holds d hd ▸ hd)
    · intro hnil
      simp [hnil]
  rw [hnil, hlen, TxWorld.Idle]
  rcases hw.entries with ⟨hidx, hlast, htaken, hreturned⟩ | ⟨hidx, hcount⟩
  · rw [hidx, hlast, htaken, Lib.FreeRunning.count_eq_zero.mpr rfl]
    simp
  · rw [hidx] at hcount ⊢
    have hne : (2 : BitVec 16) ≠ 0 := by decide
    constructor
    · rintro (hzero | htwo)
      · exact absurd hzero hne
      · omega
    · intro hzero
      exact .inr (by omega)

theorem send_inv (hw : TxInv w) (h : Host) (bufOff len : BitVec 32) :
    TxInv (w.send h bufOff len) := by
  by_cases hyes : accepts h bufOff len
  · rw [TxWorld.send, driverTxSend_accepted hyes hw.seen]
    refine ⟨hw.seen, fun n => ?_, hw.taken, .inr ⟨rfl, ?_⟩⟩
    · by_cases hn : n = 1
      · simp [hn]
      · simp [hn, hw.ring n]
    · rcases hw.entries with ⟨hidx, hlast, htaken, hreturned⟩ | ⟨hidx, hcount⟩
      · dsimp only
        rw [hlast, htaken, hreturned]
        rfl
      · rwa [hidx] at hcount
  · rw [TxWorld.send, driverTxSend_refused hyes]
    exact hw

/-- **What one turn preserves**, be it the driver's or the device's. -/
theorem txStep_inv {txBuf : BitVec 32} {ev : TxEvent} {w' : TxWorld} (hw : TxInv w)
    (hstep : w.step txBuf ev = some w') : TxInv w' := by
  cases ev with
  | send h bufOff len =>
    obtain rfl := Option.some.inj hstep
    exact send_inv hw h bufOff len
  | consume h len =>
    obtain rfl := Option.some.inj hstep
    exact send_inv hw h txBuf _
  | take =>
    rw [TxWorld.step] at hstep
    split at hstep
    · cases hstep
    · rename_i hne
      obtain rfl := Option.some.inj hstep
      refine { hw with taken := ?_, entries := ?_ }
      · intro d hd
        rcases List.mem_append.mp hd with hd | hd
        · exact hw.taken d hd
        · exact (List.mem_singleton.mp hd).trans (hw.ring _)
      · rcases hw.entries with ⟨hidx, hlast, -⟩ | ⟨hidx, hcount⟩
        · exact absurd (hlast.trans hidx.symm) hne
        · rw [Lib.FreeRunning.count_head hne] at hcount
          refine .inr ⟨hidx, ?_⟩
          simp only [List.length_append, List.length_singleton]
          omega
  | giveBack id =>
    rw [TxWorld.step] at hstep
    split at hstep
    · rename_i hcontains
      have hid := List.contains_iff_mem.mp hcontains
      obtain rfl := Option.some.inj hstep
      refine { hw with taken := fun d hd => hw.taken d (List.mem_of_mem_erase hd), entries := ?_ }
      have hpos := List.length_pos_of_mem hid
      rcases hw.entries with ⟨-, -, htaken, -⟩ | ⟨hidx, hcount⟩
      · rw [htaken] at hid
        cases hid
      · refine .inr ⟨hidx, ?_⟩
        simp only [List.length_erase_of_mem hid]
        omega
    · cases hstep

theorem start_inv : TxInv .start := ⟨rfl, fun _ => rfl, by simp [TxWorld.start], .inl
  ⟨rfl, rfl, rfl, rfl⟩⟩

/-! ## Exactly when

The promise is kept by the runs whose calls meet the condition, and by no others. -/

theorem sent_iff (hw : TxInv w) :
    Sent h bufOff len w (w.send h bufOff len) ↔ SendGuard h bufOff len w := by
  by_cases hyes : accepts h bufOff len
  · have hsend := driverTxSend_accepted hyes hw.seen
    constructor
    · rintro ⟨hpublished, hkept⟩ -
      refine ⟨fun hzero => ?_, hw.idle_iff.mpr (hkept hyes)⟩
      -- the index is 2 after the call, and was 0 or 2 before
      have hidx := (hpublished (by rw [hsend]; exact hzero)).1
      rw [TxWorld.send, hsend] at hidx
      dsimp only at hidx
      rcases hw.entries with ⟨hold, -⟩ | ⟨hold, -⟩ <;>
      · rw [hold] at hidx
        revert hidx
        decide
    · intro hguard
      obtain ⟨hnotify, hidle⟩ := hguard hyes
      refine ⟨fun hzero => ?_, fun _ => hw.idle_iff.mp hidle⟩
      rw [hsend] at hzero
      exact absurd hzero hnotify
  · refine iff_of_true ⟨fun hzero => ?_, fun h => absurd h hyes⟩ fun h => absurd h hyes
    rw [driverTxSend_refused hyes] at hzero
    cases hzero

theorem holds_spared_iff (hw : TxInv w) (txBuf len : BitVec 32) :
    (∀ d ∈ w.holds, (w.q.desc d.toNat).Spared txBuf len) ↔
      w.Idle ∨ (w.q.desc 0).Spared txBuf len := by
  rw [hw.idle_iff]
  constructor
  · intro hall
    by_cases hmem : 0 ∈ w.holds
    · exact .inr (hall 0 hmem)
    · exact .inl hmem
  · rintro (hno | hother) d hd
    · exact absurd (hw.holds d hd ▸ hd) hno
    · rw [hw.holds d hd]
      exact hother

end Steps

/-- **When every frame is published once.** A run of calls and of the device keeps the promise
throughout exactly if each call is refused before it writes anything, or its notification
fails while the device has nothing to do: no call returns 0. -/
theorem tx_once_iff (txBuf : BitVec 32) (evs : List TxEvent) :
    (txMachine txBuf).Along (TxStep txBuf) .start evs ↔
      (txMachine txBuf).Meets (TxGuard txBuf) .start evs := by
  refine Machine.along_iff_meets (I := TxInv) ?_ ?_ evs .start start_inv
  · intro w ev w' hw hstep hguard
    refine ⟨?_, txStep_inv hw hstep⟩
    cases ev with
    | send h bufOff len =>
      obtain rfl := Option.some.inj hstep
      exact (sent_iff hw).mpr hguard
    | consume h len =>
      obtain rfl := Option.some.inj hstep
      exact ⟨(holds_spared_iff hw txBuf len).mpr hguard.1, (sent_iff hw).mpr hguard.2⟩
    | take => trivial
    | giveBack id => trivial
  · intro w ev w' hw hstep hgood
    cases ev with
    | send h bufOff len =>
      obtain rfl := Option.some.inj hstep
      exact (sent_iff hw).mp hgood
    | consume h len =>
      obtain rfl := Option.some.inj hstep
      exact ⟨(holds_spared_iff hw txBuf len).mp hgood.1, (sent_iff hw).mp hgood.2⟩
    | take => trivial
    | giveBack id => trivial

/-- **The first call exposes two entries**: the index is published as 2, and the device finds one
entry too many. -/
theorem first_send_exposes_two :
    ¬ ∀ evs : List TxEvent, (txMachine 0x10000).Along (TxStep 0x10000) .start evs := by
  intro hall
  have hstep : (txMachine 0x10000).step .start (.send sampleHost 0x10000 60) =
      some (TxWorld.start.send sampleHost 0x10000 60) := rfl
  have hsent := (hall [.send sampleHost 0x10000 60] _ hstep).1
  exact absurd (hsent.published rfl).1 (by decide)

end Wari.Virtio
