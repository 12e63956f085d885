import Wari.Gmac
import Wari.Lib.Slice

/-!
# The GMAC transmit ring

The transmit half of the VF2 NIC driver and the engine. The engine goes round sixteen
descriptors from descriptor 0, sends each that it owns, gives it back, and waits at the first
that it does not own. The driver publishes in the first descriptor from `TX_NEXT` on that it
finds given back.

Bring-up publishes two frames in descriptors 0 and 1 and leaves `TX_NEXT` at 0. So a first call
that finds one of them given back publishes behind the engine (`frame_stuck`), and so does a
later call that finds the ring full and is overtaken by the engine. `transmission_along` says
that nothing else goes wrong. One turn of the driver is one access to a descriptor or to a
buffer.
-/

namespace Wari

open Lib (Bytes Machine)
open Lib.Ring (after Laid after_after after_zero)

/-! ## Descriptors

The state that driver and engine share: sixteen descriptors, the buffers they point at, and a
cursor on either side. -/

/-- `TDES3_OWN | TDES3_LD | TDES3_FD`, and the length. -/
def tdes3Published (len : ℕ) : BitVec 32 := 0xB0000000#32 ||| (BitVec.ofNat 32 len &&& 0x7FFF)

/-- Where the bytes of a frame lie: in the packet of bring-up, or in one of the buffers. -/
inductive TxBuf where
  /-- `VF2_FIRST_PKT` -/
  | firstPkt
  /-- `VF2_TX_BUFS.bufs[i]` -/
  | buf (i : Fin 16)

/-- A transmit descriptor: `TDES0` and `TDES1`, `TDES2`, `TDES3`. -/
structure TxDesc where
  buf : TxBuf
  len : ℕ
  tdes3 : BitVec 32

/-- Where the driver is, between two accesses to memory that the engine shares. -/
inductive TxPc where
  /-- in no call -/
  | idle
  /-- in `consume`, about to read the descriptor `n` after `start` -/
  | scanning (start : Fin 16) (n : Fin 16) (frame : Bytes)
  /-- in `consume`, about to write buffer `i` -/
  | filling (i : Fin 16) (frame : Bytes)
  /-- in `consume`, about to write descriptor `i` -/
  | publishing (i : Fin 16) (frame : Bytes)

/-- Where `consume` goes on after the descriptor `n` after `start`. With none found the frame is
dropped. -/
def TxPc.next (start : Fin 16) (n : Fin 16) (frame : Bytes) : TxPc :=
  if h : n.val + 1 < 16 then .scanning start ⟨n.val + 1, h⟩ frame else .idle

/-- The ring with its buffers, the driver and the engine. -/
structure GmacTx where
  /-- `VF2_TX_RING` -/
  ring : Fin 16 → TxDesc
  /-- `VF2_FIRST_PKT` -/
  firstPkt : Bytes
  /-- `VF2_TX_BUFS` -/
  bufs : Fin 16 → Bytes
  /-- `TX_NEXT` -/
  txNext : Fin 16
  /-- the `Vf2NicTxToken`s that are out -/
  tokens : ℕ
  /-- where the driver is -/
  pc : TxPc
  /-- the descriptor the engine is at -/
  cursor : Fin 16

namespace GmacTx

/-- Does the engine own descriptor `i`? Then it will send its frame, once it comes there. -/
def owned (g : GmacTx) (i : Fin 16) : Bool := engineOwns (g.ring i).tdes3

/-- The bytes that descriptor `i` points at, as many as its length. -/
def frameAt (g : GmacTx) (i : Fin 16) : Bytes :=
  match (g.ring i).buf with
  | .firstPkt => g.firstPkt.take (g.ring i).len
  | .buf j => (g.bufs j).take (g.ring i).len

/-- After `driver_start` two frames are published, which are one packet twice. -/
def started (firstPkt : Bytes) : GmacTx :=
  { ring := fun i => if i.val < 2 then ⟨.firstPkt, 64, 0xB0000040⟩ else ⟨.firstPkt, 0, 0⟩
    firstPkt := firstPkt
    bufs := fun _ => []
    txNext := ⟨0, by decide⟩
    tokens := 0
    pc := .idle
    cursor := ⟨0, by decide⟩ }

/-- Publish the frame in buffer `i`: from here on the descriptor is the engine's. -/
def publish (g : GmacTx) (i : Fin 16) (frame : Bytes) : GmacTx :=
  { g with
    ring := Function.update g.ring i ⟨.buf i, frame.length, tdes3Published frame.length⟩
    txNext := after i 1
    pc := .idle }

/-- The engine gives the descriptor it is at back. -/
def release (g : GmacTx) : GmacTx :=
  { g with
    ring := Function.update g.ring g.cursor
      { g.ring g.cursor with tdes3 := (g.ring g.cursor).tdes3 &&& 0x7FFFFFFF }
    cursor := after g.cursor 1 }

end GmacTx

/-! ## Turns

The engine may step in between any two accesses of the driver, so that each access is a turn of
its own. -/

/-- The state, and what went on so far. -/
structure TxRun where
  /-- the state -/
  st : GmacTx
  /-- the frames published -/
  published : List Bytes
  /-- the frames the engine sent -/
  sent : List Bytes

/-- After `driver_start`, with the two frames counted as published. -/
def TxRun.started (firstPkt : Bytes) : TxRun :=
  ⟨.started firstPkt, [firstPkt.take 64, firstPkt.take 64], []⟩

/-- A turn of the engine, of the stack above, or of the driver. -/
inductive TxTurn where
  /-- the engine sends a frame -/
  | engine
  /-- the stack calls `transmit` -/
  | transmit
  /-- `receive` returns a received frame, and a token to answer it with -/
  | receive
  /-- the stack drops a token -/
  | drop
  /-- the stack consumes a token -/
  | consume (frame : Bytes)
  /-- the next access of `consume` -/
  | run

/-- One turn, where there is one. A frame longer than a buffer makes the driver panic. -/
def txStep (s : TxRun) : TxTurn → Option TxRun
  | .engine =>
    if s.st.owned s.st.cursor then
      some { s with st := s.st.release, sent := s.sent ++ [s.st.frameAt s.st.cursor] }
    else none
  | .transmit =>
    match s.st.pc with
    | .idle =>
      if s.st.owned s.st.txNext then some s
      else some { s with st := { s.st with tokens := s.st.tokens + 1 } }
    | _ => none
  | .receive =>
    match s.st.pc with
    | .idle => some { s with st := { s.st with tokens := s.st.tokens + 1 } }
    | _ => none
  | .drop =>
    match s.st.pc with
    | .idle =>
      if s.st.tokens = 0 then none
      else some { s with st := { s.st with tokens := s.st.tokens - 1 } }
    | _ => none
  | .consume frame =>
    match s.st.pc with
    | .idle =>
      if s.st.tokens = 0 ∨ ethFrameMax < frame.length then none
      else some { s with
        st := { s.st with
          tokens := s.st.tokens - 1
          pc := .scanning s.st.txNext ⟨0, by decide⟩ frame } }
    | _ => none
  | .run =>
    match s.st.pc with
    | .scanning start n frame =>
      if s.st.owned (after start n) then
        some { s with st := { s.st with pc := .next start n frame } }
      else some { s with st := { s.st with pc := .filling (after start n) frame } }
    | .filling i frame =>
      some { s with st := { s.st with
        bufs := Function.update s.st.bufs i frame, pc := .publishing i frame } }
    | .publishing i frame =>
      some { s with st := s.st.publish i frame, published := s.published ++ [frame] }
    | .idle => none

/-- The driver and the engine, from `driver_start` on. -/
def gmacTxMachine (firstPkt : Bytes) : Machine TxRun TxTurn where
  init s := s = .started firstPkt
  step := txStep

/-! ## What is promised

What was published first is sent first, each frame once, and the engine does not stop before a
frame. -/

/-- **Transmission.** What was sent is what was published first, in order and each once; and
where the engine goes on, it sends the rest. -/
structure Transmitted (firstPkt : Bytes) (s : TxRun) : Prop where
  order : s.sent <+: s.published
  rest : ∃ n s', (gmacTxMachine firstPkt).Run s (List.replicate n .engine) s' ∧
    s'.sent = s.published ∧ s'.published = s.published

/-- What is promised of a turn; a buffer is written only where its descriptor was given back. -/
def TransmissionStep (firstPkt : Bytes) (s : TxRun) (i : TxTurn) (s' : TxRun) : Prop :=
  Transmitted firstPkt s' ∧
    ∀ j frame, s.st.pc = .filling j frame → i = .run → s.st.owned j = false

/-! ## What has to happen in time

The driver reads descriptors in order, and what it finds depends on how far the engine has come
meanwhile. -/

/-- The engine leaves the driver in peace where it matters: until a first frame is published,
`consume` reads descriptors 0 and 1 while the engine owns them; and from then on it finds a
descriptor given back only while all those that it passed over in the same call are still the
engine's. -/
def TxUndisturbed (s : TxRun) : TxTurn → Prop
  | .run =>
    match s.st.pc with
    | .scanning start n _ => s.st.owned (after start n) = false →
      if s.published.length = 2 then 2 ≤ n.val
      else ∀ m < n.val, s.st.owned (after start m) = true
    | _ => True
  | _ => True

/-! ## The queue in the ring

The invariant: from the engine's cursor on, the ring holds the frames that were published and not
sent. -/

/-- The frame in each descriptor that the engine owns. -/
def GmacTx.cell (g : GmacTx) (i : Fin 16) : Option Bytes :=
  if g.owned i then some (g.frameAt i) else none

theorem GmacTx.cell_none {g : GmacTx} {i : Fin 16} (h : g.owned i = false) : g.cell i = none := by
  rw [cell, h]
  rfl

theorem GmacTx.owned_of_cell {g : GmacTx} {i : Fin 16} {x : Bytes} (h : g.cell i = some x) :
    g.owned i = true ∧ g.frameAt i = x := by
  rw [cell] at h
  split at h
  · exact ⟨‹_›, Option.some.inj h⟩
  · cases h

/-- The frames published and not sent lie in the ring in order, from the engine's cursor on. -/
structure TxQueued (s : TxRun) (items : List Bytes) : Prop where
  laid : Laid s.st.cell s.st.cursor items
  log : s.sent ++ items = s.published
  /-- the queue ends at `TX_NEXT`, or, with nothing published yet, at descriptor 2 -/
  tail : after s.st.cursor items.length = if s.published.length = 2 then 2 else s.st.txNext
  boot : s.published.length = 2 → s.st.txNext = 0

/-- What holds of the driver where it is; `tail` is where the queue ends. -/
def TxPlaced (s : TxRun) (tail : Fin 16) : TxPc → Prop
  | .idle => True
  | .scanning start n _ => start = s.st.txNext ∧ (s.published.length = 2 → n.val ≤ 2)
  | .filling i _ => i = tail ∧ s.st.owned i = false
  | .publishing i frame => i = tail ∧ s.st.owned i = false ∧ s.st.bufs i = frame

/-- What holds as long as the engine does not interfere. -/
structure TxRing (s : TxRun) : Prop where
  queue : ∃ items, TxQueued s items ∧ TxPlaced s (after s.st.cursor items.length) s.st.pc
  own : ∀ i j, (s.st.ring i).buf = .buf j → j = i
  more : 2 ≤ s.published.length

/-! ### Accesses

What each access makes of the frames in the ring, descriptor by descriptor. -/

theorem engineOwns_published (len : ℕ) : engineOwns (tdes3Published len) = true := by
  have hlen : BitVec.ofNat 32 len &&& 0x7FFF &&& rdes3Own = 0 := by
    rw [BitVec.and_assoc]
    exact BitVec.and_zero
  have hown : tdes3Published len &&& rdes3Own = 0x80000000 := by
    rw [tdes3Published, BitVec.and_or_distrib_right, hlen]
    rfl
  rw [engineOwns, hown]
  rfl

theorem engineOwns_released (tdes3 : BitVec 32) : engineOwns (tdes3 &&& 0x7FFFFFFF) = false := by
  have hown : tdes3 &&& 0x7FFFFFFF &&& rdes3Own = 0 := by
    rw [BitVec.and_assoc]
    exact BitVec.and_zero
  rw [engineOwns, hown]
  rfl

namespace GmacTx

variable {g : GmacTx}

/-- A descriptor and a buffer that were left alone hold what they held. -/
theorem cell_congr {g' : GmacTx} {i : Fin 16} (hring : g.ring i = g'.ring i)
    (hpkt : g.firstPkt = g'.firstPkt) (hbufs : g.bufs = g'.bufs) : g.cell i = g'.cell i := by
  have hown : g.owned i = g'.owned i := by rw [owned, owned, hring]
  have hframe : g.frameAt i = g'.frameAt i := by simp only [frameAt, hring, hpkt, hbufs]
  rw [cell, cell, hown, hframe]

theorem owned_release {i : Fin 16} (hi : i ≠ g.cursor) : g.release.owned i = g.owned i := by
  have hring : g.release.ring i = g.ring i := Function.update_of_ne hi ..
  rw [owned, owned, hring]

theorem owned_publish {i j : Fin 16} (hj : j ≠ i) (frame : Bytes) :
    (g.publish i frame).owned j = g.owned j := by
  have hring : (g.publish i frame).ring j = g.ring j := Function.update_of_ne hj ..
  rw [owned, owned, hring]

/-- A descriptor is given back, and its frame is gone from the queue. -/
theorem cell_release : g.release.cell = Function.update g.cell g.cursor none := by
  funext i
  by_cases hi : i = g.cursor
  · rw [hi, Function.update_self]
    refine cell_none ?_
    simp only [owned, release, Function.update_self]
    exact engineOwns_released _
  · rw [Function.update_of_ne hi]
    exact cell_congr (Function.update_of_ne hi ..) rfl rfl

/-- A descriptor is published, and its frame is in the queue. -/
theorem cell_publish {i : Fin 16} {frame : Bytes} (hbuf : g.bufs i = frame) :
    (g.publish i frame).cell = Function.update g.cell i (some frame) := by
  funext j
  by_cases hj : j = i
  · rw [hj, Function.update_self]
    simp only [cell, owned, frameAt, publish, Function.update_self, engineOwns_published, if_true,
      hbuf, List.take_length]
  · rw [Function.update_of_ne hj]
    exact cell_congr (Function.update_of_ne hj ..) rfl rfl

/-- A buffer is written whose descriptor was given back. -/
theorem cell_fill {i : Fin 16} (hown : ∀ i j, (g.ring i).buf = .buf j → j = i)
    (hfree : g.owned i = false) (frame : Bytes) (pc : TxPc) :
    ({ g with bufs := Function.update g.bufs i frame, pc := pc } : GmacTx).cell = g.cell := by
  funext j
  rw [cell, cell]
  change (if g.owned j then _ else _) = if g.owned j then _ else _
  by_cases hj : g.owned j = true
  · rw [if_pos hj, if_pos hj, frameAt, frameAt]
    dsimp only
    split
    · rfl
    · rename_i k hk
      have hne : k ≠ i := by
        rintro rfl
        rw [hown j k hk, hj] at hfree
        cases hfree
      rw [Function.update_of_ne hne]
  · rw [if_neg hj, if_neg hj]

end GmacTx

/-! ### Turns

Each turn keeps the invariant, with one lemma for each place the driver can be at. -/

section Steps

variable {s s' : TxRun}

/-- What the driver found stays as it is while the engine goes on. -/
theorem TxPlaced.keep {tail : Fin 16} {pc : TxPc} (h : TxPlaced s tail pc)
    (hnext : s'.st.txNext = s.st.txNext) (hpub : s'.published = s.published)
    (hbufs : s'.st.bufs = s.st.bufs)
    (hfree : ∀ i, s.st.owned i = false → s'.st.owned i = false) : TxPlaced s' tail pc := by
  cases pc with
  | idle => trivial
  | scanning start n frame =>
    obtain ⟨hstart, hboot⟩ := h
    exact ⟨hstart.trans hnext.symm, fun hlen => hboot (hpub ▸ hlen)⟩
  | filling i frame => exact ⟨h.1, hfree i h.2⟩
  | publishing i frame => exact ⟨h.1, hfree i h.2.1, hbufs ▸ h.2.2⟩

/-- The engine sends the first frame of the queue. -/
theorem engine_inv (hs : TxRing s) (hown : s.st.owned s.st.cursor = true) :
    TxRing { s with st := s.st.release, sent := s.sent ++ [s.st.frameAt s.st.cursor] } := by
  obtain ⟨items, hq, hpc⟩ := hs.queue
  have hcell : s.st.cell s.st.cursor = some (s.st.frameAt s.st.cursor) := if_pos hown
  obtain ⟨x, rest, rfl⟩ : ∃ x rest, items = x :: rest := by
    rcases items with _ | ⟨x, rest⟩
    · have hnone := hq.laid.empty_iff.mpr rfl s.st.cursor
      rw [hcell] at hnone
      cases hnone
    · exact ⟨x, rest, rfl⟩
  obtain ⟨hx, hrest⟩ := hq.laid.pop
  obtain rfl : s.st.frameAt s.st.cursor = x := Option.some.inj (hcell.symm.trans hx)
  have htail : after (after s.st.cursor 1) rest.length =
      after s.st.cursor (s.st.frameAt s.st.cursor :: rest).length := by
    rw [after_after, List.length_cons, Nat.add_comm]
  -- the descriptor that is given back is not the one the driver found
  have hother : ∀ i, s.st.owned i = false → s.st.release.owned i = false := by
    intro i hi
    have hne : i ≠ s.st.cursor := by
      rintro rfl
      rw [hown] at hi
      cases hi
    rw [GmacTx.owned_release hne, hi]
  refine ⟨⟨rest, ⟨?_, ?_, htail.trans hq.tail, hq.boot⟩, ?_⟩, ?_, hs.more⟩
  · rw [GmacTx.cell_release]
    exact hrest
  · rw [← hq.log]
    simp
  · have hkept : TxPlaced s (after (after s.st.cursor 1) rest.length) s.st.pc := by rwa [htail]
    exact hkept.keep rfl rfl rfl hother
  · intro i j hj
    refine hs.own i j ?_
    rw [← hj]
    by_cases hi : i = s.st.cursor
    · simp [GmacTx.release, hi]
    · simp [GmacTx.release, Function.update_of_ne hi]

/-- Where the queue ends, a descriptor is free, if any is. -/
theorem owned_tail {items : List Bytes} (hlaid : Laid s.st.cell s.st.cursor items)
    (hlt : items.length < 16) : s.st.owned (after s.st.cursor items.length) = false := by
  have hcell := hlaid.get items.length hlt
  rw [List.getElem?_eq_none (Nat.le_refl _), GmacTx.cell] at hcell
  by_contra hown
  rw [Bool.not_eq_false] at hown
  rw [if_pos hown] at hcell
  cases hcell

theorem owned_of_full {items : List Bytes} (hlaid : Laid s.st.cell s.st.cursor items)
    (hfull : 16 ≤ items.length) (i : Fin 16) : s.st.owned i = true := by
  obtain ⟨m, hm, rfl⟩ := Lib.Ring.exists_after s.st.cursor i
  have hcell := hlaid.get m hm
  rw [List.getElem?_eq_getElem (Nat.lt_of_lt_of_le hm hfull)] at hcell
  exact (GmacTx.owned_of_cell hcell).1

/-- `consume` reads a descriptor, and goes on to the next one or stays at this one. -/
theorem scan_inv (hs : TxRing s) {start n : Fin 16} {frame : Bytes}
    (hpc : s.st.pc = .scanning start n frame)
    (hguard : s.st.owned (after start n) = false →
      if s.published.length = 2 then 2 ≤ n.val
      else ∀ m < n.val, s.st.owned (after start m) = true) :
    TxRing { s with st := { s.st with
      pc := if s.st.owned (after start n) then .next start n frame
        else .filling (after start n) frame } } := by
  obtain ⟨items, hq, hplaced⟩ := hs.queue
  rw [hpc] at hplaced
  obtain ⟨rfl, hboot⟩ := hplaced
  have htail := hq.tail
  refine ⟨⟨items, ⟨hq.laid, hq.log, hq.tail, hq.boot⟩, ?_⟩, hs.own, hs.more⟩
  -- before the first frame, descriptor 2 is free
  have htwo : s.published.length = 2 → s.st.owned 2 = false := by
    intro hlen
    have hlog := congrArg List.length hq.log
    rw [List.length_append, hlen] at hlog
    rw [if_pos hlen] at htail
    have hfree := owned_tail hq.laid (by omega)
    rwa [htail] at hfree
  dsimp only
  by_cases hown : s.st.owned (after s.st.txNext n) = true
  · rw [if_pos hown, TxPc.next]
    split
    · refine ⟨rfl, fun hlen => ?_⟩
      have hne : n.val ≠ 2 := by
        intro hn
        have hn : n = 2 := Fin.ext hn
        have hsame : after (0 : Fin 16) (2 : Fin 16) = 2 := rfl
        rw [hq.boot hlen, hn, hsame, htwo hlen] at hown
        cases hown
      have hle := hboot hlen
      change n.val + 1 ≤ 2
      omega
    · trivial
  · rw [if_neg hown]
    rw [Bool.not_eq_true] at hown
    refine ⟨?_, hown⟩
    have hguard := hguard hown
    by_cases hlen : s.published.length = 2
    · rw [if_pos hlen] at hguard htail
      have hn : n = 2 := Fin.ext (Nat.le_antisymm (hboot hlen) hguard)
      rw [htail, hq.boot hlen, hn]
      rfl
    · rw [if_neg hlen] at hguard htail
      rw [htail]
      by_cases hzero : n.val = 0
      · rw [hzero, after_zero]
      · -- a full ring, in which no descriptor is free
        exfalso
        have hnext := hguard 0 (Nat.pos_of_ne_zero hzero)
        rw [after_zero] at hnext
        by_cases hfull : 16 ≤ items.length
        · rw [owned_of_full hq.laid hfull] at hown
          cases hown
        · have hfree := owned_tail hq.laid (Nat.lt_of_not_le hfull)
          rw [htail, hnext] at hfree
          cases hfree

/-- `consume` writes the buffer, which the engine does not look at yet. -/
theorem fill_inv (hs : TxRing s) {i : Fin 16} {frame : Bytes} (hpc : s.st.pc = .filling i frame) :
    TxRing { s with st := { s.st with
      bufs := Function.update s.st.bufs i frame, pc := .publishing i frame } } := by
  obtain ⟨items, hq, hplaced⟩ := hs.queue
  rw [hpc] at hplaced
  obtain ⟨hi, hfree⟩ := hplaced
  have hcell := GmacTx.cell_fill hs.own hfree frame (.publishing i frame)
  refine ⟨⟨items, ⟨?_, hq.log, hq.tail, hq.boot⟩, hi, hfree, ?_⟩, hs.own, hs.more⟩
  · rw [hcell]
    exact hq.laid
  · simp

/-- `consume` writes the descriptor, which puts the frame at the end of the queue. -/
theorem publish_tx_inv (hs : TxRing s) {i : Fin 16} {frame : Bytes}
    (hpc : s.st.pc = .publishing i frame) :
    TxRing { s with st := s.st.publish i frame, published := s.published ++ [frame] } := by
  obtain ⟨items, hq, hplaced⟩ := hs.queue
  rw [hpc] at hplaced
  obtain ⟨hi, hfree, hbuf⟩ := hplaced
  have hend : s.st.cell (after s.st.cursor items.length) = none := by
    rw [← hi]
    exact GmacTx.cell_none hfree
  have hroom : items.length < 16 := hq.laid.length_lt hend
  have hmore : (s.published ++ [frame]).length ≠ 2 := by
    have := hs.more
    rw [List.length_append, List.length_singleton]
    omega
  refine ⟨⟨items ++ [frame], ⟨?_, ?_, ?_, fun h => absurd h hmore⟩, trivial⟩, ?_, ?_⟩
  · rw [GmacTx.cell_publish hbuf, hi]
    exact hq.laid.push hroom frame
  · rw [← List.append_assoc, hq.log]
  · rw [if_neg hmore, List.length_append, List.length_singleton]
    change after s.st.cursor (items.length + 1) = after i 1
    rw [hi, after_after]
  · intro j k hk
    by_cases hj : j = i
    · simp only [GmacTx.publish, hj, Function.update_self, TxBuf.buf.injEq] at hk
      exact hk.symm.trans hj.symm
    · refine hs.own j k ?_
      rw [← hk]
      simp [GmacTx.publish, Function.update_of_ne hj]
  · have := hs.more
    rw [List.length_append]
    omega

/-- **What one turn preserves**, where the engine leaves the driver in peace: the frames in the
ring are those published and not sent, in order. -/
theorem txRing_step (hs : TxRing s) {i : TxTurn} (hstep : txStep s i = some s')
    (hguard : TxUndisturbed s i) : TxRing s' := by
  -- between calls, only the tokens change
  have hcall : ∀ {tokens : ℕ} {pc : TxPc},
      (∀ tail, TxPlaced { s with st := { s.st with tokens := tokens, pc := pc } } tail pc) →
        TxRing { s with st := { s.st with tokens := tokens, pc := pc } } := by
    intro tokens pc hplaced
    obtain ⟨items, hq, -⟩ := hs.queue
    exact ⟨⟨items, ⟨hq.laid, hq.log, hq.tail, hq.boot⟩, hplaced _⟩, hs.own, hs.more⟩
  have hidle : ∀ {tokens : ℕ}, s.st.pc = .idle →
      TxRing { s with st := { s.st with tokens := tokens } } := by
    intro tokens hpc
    have hring := @hcall tokens s.st.pc
    rw [hpc] at hring
    have hst : ({ s.st with tokens := tokens, pc := .idle } : GmacTx) =
        { s.st with tokens := tokens } := by rw [← hpc]
    rw [← hst]
    exact hring fun _ => trivial
  cases i with
  | engine =>
    rw [txStep] at hstep
    split at hstep
    · rename_i hown
      obtain rfl := Option.some.inj hstep
      exact engine_inv hs hown
    · cases hstep
  | transmit =>
    rw [txStep] at hstep
    split at hstep
    · rename_i hpc
      split at hstep
      · obtain rfl := Option.some.inj hstep
        exact hs
      · obtain rfl := Option.some.inj hstep
        exact hidle hpc
    · cases hstep
  | receive =>
    rw [txStep] at hstep
    split at hstep
    · rename_i hpc
      obtain rfl := Option.some.inj hstep
      exact hidle hpc
    · cases hstep
  | drop =>
    rw [txStep] at hstep
    split at hstep
    · rename_i hpc
      split at hstep
      · cases hstep
      · obtain rfl := Option.some.inj hstep
        exact hidle hpc
    · cases hstep
  | consume frame =>
    rw [txStep] at hstep
    split at hstep
    · split at hstep
      · cases hstep
      · obtain rfl := Option.some.inj hstep
        exact hcall fun _ => ⟨rfl, fun _ => Nat.zero_le 2⟩
    · cases hstep
  | run =>
    rw [txStep] at hstep
    split at hstep
    · rename_i start n frame hpc
      simp only [TxUndisturbed, hpc] at hguard
      have hring := scan_inv hs hpc hguard
      split at hstep
      · rename_i hown
        obtain rfl := Option.some.inj hstep
        rwa [if_pos hown] at hring
      · rename_i hown
        obtain rfl := Option.some.inj hstep
        rwa [if_neg hown] at hring
    · rename_i i frame hpc
      obtain rfl := Option.some.inj hstep
      exact fill_inv hs hpc
    · rename_i i frame hpc
      obtain rfl := Option.some.inj hstep
      exact publish_tx_inv hs hpc
    · cases hstep

theorem started_txRing (firstPkt : Bytes) : TxRing (.started firstPkt) := by
  have hcell : ∀ i : Fin 16, (TxRun.started firstPkt).st.cell i =
      if i.val < 2 then some (firstPkt.take 64) else none := by
    intro i
    by_cases hi : i.val < 2
    · simp only [TxRun.started, GmacTx.started, GmacTx.cell, GmacTx.owned, GmacTx.frameAt, hi,
        if_true]
      rfl
    · simp only [TxRun.started, GmacTx.started, GmacTx.cell, GmacTx.owned, GmacTx.frameAt, hi,
        if_false]
      rfl
  refine ⟨⟨[firstPkt.take 64, firstPkt.take 64],
    ⟨⟨by simp, fun m hm => ?_⟩, rfl, rfl, fun _ => rfl⟩,
    trivial⟩, fun i j hj => ?_, Nat.le_refl _⟩
  · have hval : (after (TxRun.started firstPkt).st.cursor m).val = m := by
      change (0 + m) % 16 = m
      omega
    rw [hcell, hval]
    rcases m with _ | _ | m
    · rfl
    · rfl
    · rfl
  · simp only [TxRun.started, GmacTx.started] at hj
    split at hj <;> cases hj

/-- **The engine drains the queue**: one turn for each frame in it, by induction on the frames. -/
theorem engine_drains (firstPkt : Bytes) {items : List Bytes} (hs : TxRing s)
    (hlaid : Laid s.st.cell s.st.cursor items) :
    ∃ s', (gmacTxMachine firstPkt).Run s (List.replicate items.length .engine) s' ∧
      s'.sent = s.sent ++ items ∧ s'.published = s.published := by
  induction items generalizing s with
  | nil => exact ⟨s, .nil s, (List.append_nil _).symm, rfl⟩
  | cons x items ih =>
    obtain ⟨hx, hrest⟩ := hlaid.pop
    obtain ⟨hown, hframe⟩ := GmacTx.owned_of_cell hx
    have hstep : txStep s .engine = some
        { s with st := s.st.release, sent := s.sent ++ [s.st.frameAt s.st.cursor] } := if_pos hown
    rw [← GmacTx.cell_release] at hrest
    obtain ⟨s', hrun, hsent, hpub⟩ := ih (engine_inv hs hown) hrest
    refine ⟨s', .cons hstep hrun, ?_, hpub⟩
    rw [hsent, hframe]
    simp

theorem TxRing.transmitted (hs : TxRing s) (firstPkt : Bytes) : Transmitted firstPkt s := by
  obtain ⟨items, hq, -⟩ := hs.queue
  obtain ⟨s', hrun, hsent, hpub⟩ := engine_drains firstPkt hs hq.laid
  refine ⟨⟨items, hq.log⟩, items.length, s', hrun, ?_, hpub⟩
  rw [hsent, hq.log]

end Steps

/-- **Frames go out once and in order** along every run in which the engine leaves the driver
in peace where it matters. -/
theorem transmission_along (firstPkt : Bytes) (turns : List TxTurn)
    (htime : (gmacTxMachine firstPkt).Meets TxUndisturbed (.started firstPkt) turns) :
    (gmacTxMachine firstPkt).Along (TransmissionStep firstPkt) (.started firstPkt) turns := by
  refine Machine.along_of_meets (I := TxRing) (fun s i s' hs hstep hguard => ?_) turns _
    (started_txRing firstPkt) htime
  have hs' := txRing_step hs hstep hguard
  refine ⟨⟨hs'.transmitted firstPkt, ?_⟩, hs'⟩
  rintro j frame hpc rfl
  obtain ⟨items, -, hplaced⟩ := hs.queue
  rw [hpc] at hplaced
  exact hplaced.2

/-- A frame of one byte, to send. -/
def sampleFrame : Bytes := [0x2A#8]

/-- A token is consumed before the engine sends anything. -/
def promptTurns : List TxTurn :=
  [.receive, .consume sampleFrame, .run, .run, .run, .engine, .run, .run, .engine, .engine]

theorem prompt_along :
    (gmacTxMachine []).Along (TransmissionStep []) (.started []) promptTurns := by
  refine transmission_along [] promptTurns ?_
  refine (Machine.along_cons rfl).mpr ⟨trivial, (Machine.along_cons rfl).mpr ⟨trivial, ?_⟩⟩
  -- descriptors 0 and 1 are the engine's, and 2 is free
  refine (Machine.along_cons rfl).mpr ⟨fun h => absurd h (by decide), ?_⟩
  refine (Machine.along_cons rfl).mpr ⟨fun h => absurd h (by decide), ?_⟩
  refine (Machine.along_cons rfl).mpr ⟨fun _ => Nat.le_refl 2, ?_⟩
  refine (Machine.along_cons rfl).mpr ⟨trivial, ?_⟩
  refine (Machine.along_cons rfl).mpr ⟨trivial, ?_⟩
  refine (Machine.along_cons rfl).mpr ⟨trivial, ?_⟩
  exact (Machine.along_cons rfl).mpr ⟨trivial, (Machine.along_cons rfl).mpr ⟨trivial, trivial⟩⟩

/-! ## A frame behind the engine

Where the condition is not met, a frame goes into a descriptor that the engine has passed, and is
not sent. -/

section Behind

variable {s s' : TxRun}

/-- The engine gets no further than to the first descriptor that it does not own. -/
theorem engine_stops {firstPkt : Bytes} {k n : ℕ}
    (hrun : (gmacTxMachine firstPkt).Run s (List.replicate n .engine) s') (hk : k < 16)
    (hfree : s.st.owned (after s.st.cursor k) = false) :
    s'.sent.length ≤ s.sent.length + k := by
  induction k generalizing s n with
  | zero =>
    rw [after_zero] at hfree
    cases n with
    | zero =>
      cases hrun
      exact Nat.le_refl _
    | succ n =>
      cases hrun with
      | cons hstep hrun =>
        change txStep s .engine = _ at hstep
        rw [txStep, hfree] at hstep
        cases hstep
  | succ k ih =>
    cases n with
    | zero =>
      cases hrun
      omega
    | succ n =>
      cases hrun with
      | cons hstep hrun =>
        change txStep s .engine = _ at hstep
        rw [txStep] at hstep
        split at hstep
        · obtain rfl := Option.some.inj hstep
          have hne : after s.st.cursor (k + 1) ≠ s.st.cursor := by
            intro hsame
            have hzero : after s.st.cursor (k + 1) = after s.st.cursor 0 := by
              rw [hsame, after_zero]
            exact absurd (Lib.Ring.after_inj hk (by decide) hzero) (Nat.succ_ne_zero k)
          have hfree' : s.st.release.owned (after s.st.release.cursor k) = false := by
            have hplace : after s.st.release.cursor k = after s.st.cursor (k + 1) := by
              rw [GmacTx.release, after_after, Nat.add_comm]
            rw [hplace, GmacTx.owned_release hne, hfree]
          have hle := ih hrun (Nat.lt_of_succ_lt hk) hfree'
          simp only [List.length_append, List.length_singleton] at hle
          omega
        · cases hstep

/-- A frame that is published anywhere but at the end of the queue is not sent. -/
theorem not_transmitted_of_gap {firstPkt frame : Bytes} {items : List Bytes} {i : Fin 16}
    (hq : TxQueued s items) (hlt : items.length < 16)
    (hi : i ≠ after s.st.cursor items.length) :
    ¬ Transmitted firstPkt
      { s with st := s.st.publish i frame, published := s.published ++ [frame] } := by
  rintro ⟨-, n, s', hrun, hsent, -⟩
  have hfree : (s.st.publish i frame).owned (after s.st.cursor items.length) = false := by
    rw [GmacTx.owned_publish hi.symm, owned_tail hq.laid hlt]
  have hle := engine_stops hrun hlt hfree
  have hlog := congrArg List.length hq.log
  have hsent := congrArg List.length hsent
  simp only [List.length_append, List.length_singleton] at hlog hsent hle
  omega

/-- **The condition is exact**: where a read does not meet it, the rest of the call publishes a
frame that the engine does not send. -/
theorem disturbed_breaks (firstPkt : Bytes) (hs : TxRing s) {start n : Fin 16} {frame : Bytes}
    (hpc : s.st.pc = .scanning start n frame) (hbad : ¬ TxUndisturbed s .run) :
    ∃ s', (gmacTxMachine firstPkt).Run s [.run, .run, .run] s' ∧ ¬ Transmitted firstPkt s' := by
  obtain ⟨items, hq, hplaced⟩ := hs.queue
  rw [hpc] at hplaced
  obtain ⟨rfl, -⟩ := hplaced
  simp only [TxUndisturbed, hpc, Classical.not_imp] at hbad
  obtain ⟨hfree, hbad⟩ := hbad
  have hlt : items.length < 16 := by
    by_contra hfull
    rw [owned_of_full hq.laid (Nat.le_of_not_lt hfull)] at hfree
    cases hfree
  have hne : after s.st.txNext n ≠ after s.st.cursor items.length := by
    rw [hq.tail]
    by_cases hlen : s.published.length = 2
    · rw [if_pos hlen] at hbad ⊢
      rw [hq.boot hlen]
      intro htwo
      have hval := congrArg Fin.val htwo
      change (0 + n.val) % 16 = 2 at hval
      omega
    · rw [if_neg hlen] at hbad ⊢
      intro hsame
      have hzero : after s.st.txNext n = after s.st.txNext 0 := by rw [hsame, after_zero]
      have hn := Lib.Ring.after_inj n.isLt (by decide) hzero
      refine hbad fun m hm => ?_
      omega
  have hread : txStep s .run = some
      { s with st := { s.st with pc := .filling (after s.st.txNext n) frame } } := by
    simp only [txStep, hpc, hfree, Bool.false_eq_true, if_false]
  refine ⟨_, .cons hread (.cons rfl (.cons rfl (.nil _))), ?_⟩
  have hcell := GmacTx.cell_fill hs.own hfree frame (.publishing (after s.st.txNext n) frame)
  have hq' : TxQueued { s with st := { s.st with
      bufs := Function.update s.st.bufs (after s.st.txNext n) frame
      pc := .publishing (after s.st.txNext n) frame } } items :=
    ⟨by rw [hcell]; exact hq.laid, hq.log, hq.tail, hq.boot⟩
  exact not_transmitted_of_gap hq' hlt hne

end Behind

/-- The engine sends both frames of bring-up, and then a token is consumed. -/
def lateTurns : List TxTurn :=
  [.engine, .engine, .receive, .consume sampleFrame, .run, .run, .run]

/-- **A frame is stuck** in descriptor 0, with the engine at descriptor 2. -/
theorem frame_stuck : ¬ ∀ turns : List TxTurn,
    (gmacTxMachine []).Along (TransmissionStep []) (.started []) turns := by
  intro hall
  have hlast := ((Machine.along_cons rfl).mp ((Machine.along_cons rfl).mp ((Machine.along_cons
    rfl).mp ((Machine.along_cons rfl).mp ((Machine.along_cons rfl).mp ((Machine.along_cons rfl).mp
      ((Machine.along_cons rfl).mp (hall lateTurns)).2).2).2).2).2).2).1
  obtain ⟨n, s', hrun, hsent, -⟩ := hlast.1.rest
  have hle := engine_stops (k := 0) hrun (by decide) rfl
  rw [hsent] at hle
  exact absurd hle (by decide)

end Wari
