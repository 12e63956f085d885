import Wari.Lib.Bytes
import Wari.Lib.Machine
import Wari.Lib.Ring

/-!
# The GMAC receive ring

The receive half of the VF2 NIC driver and the DMA engine it shares sixteen descriptors with.
The engine goes round the ring from where it was last started; the driver looks for completed
descriptors from `RX_NEXT` on, hands their frames up one at a time and arms the descriptors
again; a watchdog in the driver restarts an engine that seems to stand still.

The two take turns in any order. One turn of the driver is one access to a descriptor or to
the engine, so the engine may come in between any two. The stack above holds at most one
receive token at a time, and polls again only once it is gone.

Of a descriptor only `RDES3` matters here: the driver writes the same buffer address each
time. Frames are numbered in the order the engine completes them, and a buffer holds a number.
-/

namespace Wari

open Lib (Machine and_low_eq_zero)
open Lib.Ring (after)

/-! ## Descriptors

The last word of a descriptor: who owns it, and what the engine says of a frame it has put there.
-/

/-- `ETH_FRAME_MAX`. -/
def ethFrameMax : ℕ := 1536

/-- `RDES3_OWN`. -/
def rdes3Own : BitVec 32 := 0x80000000

/-- `RDES3_LD`. -/
def rdes3Ld : BitVec 32 := 0x10000000

/-- `RDES3_CTXT`. -/
def rdes3Ctxt : BitVec 32 := 0x40000000

/-- `RDES3_ES`. -/
def rdes3Es : BitVec 32 := 0x00008000

/-- What the driver arms a descriptor with: `OWN | IOC | BUF1V`. -/
def rdes3Armed : BitVec 32 := 0xC1000000

/-- Is `OWN` set? Then the descriptor is the engine's, and the driver keeps off. -/
def engineOwns (rdes3 : BitVec 32) : Bool := rdes3 &&& rdes3Own != 0

/-- The length field, the low 15 bits of the word. -/
def rdes3Len (rdes3 : BitVec 32) : BitVec 16 := (rdes3 &&& 0x7FFF).setWidth 16

/-- The validity gate: the last descriptor of a frame, no context, no error, and no longer than a
buffer. -/
def rxFrameOk (rdes3 : BitVec 32) : Bool :=
  rdes3 &&& rdes3Ld != 0 && rdes3 &&& rdes3Ctxt == 0 && rdes3 &&& rdes3Es == 0 &&
    decide ((rdes3Len rdes3).toNat ≤ ethFrameMax)

theorem engineOwns_armed : engineOwns rdes3Armed = true := by decide

/-! ## The watchdog

The driver's poll counts how often it found nothing while the MAC had counted the same number of
frames. -/

/-- The counters of the watchdog, which the driver keeps between calls. -/
structure RxCounters where
  /-- `EMPTY_POLLS` -/
  emptyPolls : BitVec 32
  /-- `STALL_SNAPS` -/
  stallSnaps : BitVec 32
  /-- `RECOVER_COOLDOWN` -/
  recoverCooldown : BitVec 32
  /-- `LAST_MRXF` -/
  lastMrxf : BitVec 32
  /-- `MRXF_STALL_STREAK` -/
  mrxfStallStreak : BitVec 32

/-- `MRXF_FROZEN_SNAPS`. -/
def mrxfFrozenSnaps : BitVec 32 := 8

/-- `DMA_STATUS_RBU`. -/
def dmaStatusRbu : BitVec 32 := 0x80

/-- What a poll that found no frame does to the counters, and whether it goes on to recover the
channel; `st` and `rxFrames` are the status and the MAC's frame count as it reads them. -/
def RxCounters.watchdog (c : RxCounters) (st rxFrames : BitVec 32) : Bool × RxCounters :=
  let c := { c with emptyPolls := c.emptyPolls + 1 }
  if c.emptyPolls &&& 0x0FFF ≠ 0 then (false, c)
  else
    let c := { c with stallSnaps := c.stallSnaps + 1 }
    if c.stallSnaps &&& 0xFF ≠ 0 then (false, c)
    else
      let streak := if rxFrames ≠ 0 ∧ rxFrames = c.lastMrxf then c.mrxfStallStreak + 1 else 0
      let c := { c with mrxfStallStreak := streak, lastMrxf := rxFrames }
      if mrxfFrozenSnaps ≤ c.mrxfStallStreak ∧ st &&& dmaStatusRbu = 0 ∧ c.recoverCooldown = 0 then
        (true, c)
      else
        -- `saturating_sub(1)`
        (false, { c with
          recoverCooldown := if c.recoverCooldown = 0 then 0 else c.recoverCooldown - 1 })

/-! ### A frame count that stands still

A MAC whose count does not move is taken for stuck after eight snapshots. -/

/-- The counters after `k` empty polls at which the MAC had counted one frame. -/
def stalledAt (k : ℕ) : RxCounters where
  emptyPolls := .ofNat 32 k
  stallSnaps := .ofNat 32 (k / 2 ^ 12)
  recoverCooldown := 0
  lastMrxf := if k < 2 ^ 20 then 0 else 1
  mrxfStallStreak := .ofNat 32 (k / 2 ^ 20 - 1)

theorem ofNat_add_one (k : ℕ) : BitVec.ofNat 32 k + 1 = BitVec.ofNat 32 (k + 1) :=
  (BitVec.ofNat_add k 1).symm

/-- A mask of low bits is met exactly by the multiples of a power of two, which is how the
watchdog takes its samples. -/
theorem ofNat_and_low {n k : ℕ} (hn : n < 2 ^ 32) (hk : k ≤ 32) :
    BitVec.ofNat 32 n &&& BitVec.ofNat 32 (2 ^ k - 1) = 0 ↔ n % 2 ^ k = 0 := by
  have hval : (BitVec.ofNat 32 n).toNat = n := Nat.mod_eq_of_lt hn
  rw [and_low_eq_zero _ hk, hval]

/-- **The watchdog counts** to the eighth snapshot that finds the frame count unchanged. -/
theorem watchdog_stalled {k : ℕ} (hk : k + 1 < 9 * 2 ^ 20) :
    (stalledAt k).watchdog 0 1 = (false, stalledAt (k + 1)) := by
  have hpolls : (BitVec.ofNat 32 (k + 1) &&& 0x0FFF = 0) ↔ (k + 1) % 2 ^ 12 = 0 :=
    ofNat_and_low (k := 12) (by omega) (by decide)
  have hsnaps : (BitVec.ofNat 32 (k / 2 ^ 12 + 1) &&& 0xFF = 0) ↔ (k / 2 ^ 12 + 1) % 2 ^ 8 = 0 :=
    ofNat_and_low (k := 8) (by omega) (by decide)
  have hold : ∀ {snaps : ℕ}, snaps = (k + 1) / 2 ^ 12 → ¬ (k + 1) % 2 ^ 20 = 0 →
      { stalledAt k with emptyPolls := .ofNat 32 (k + 1), stallSnaps := .ofNat 32 snaps } =
        stalledAt (k + 1) := by
    rintro snaps rfl hne
    have hlast : k < 2 ^ 20 ↔ k + 1 < 2 ^ 20 := by omega
    have hdiv : k / 2 ^ 20 = (k + 1) / 2 ^ 20 := by omega
    simp only [stalledAt, hlast, hdiv]
  rw [RxCounters.watchdog]
  simp only [stalledAt, ofNat_add_one, ne_eq, hpolls, hsnaps]
  split
  · exact congrArg (Prod.mk false) (hold (by omega) (by omega))
  split
  · exact congrArg (Prod.mk false) (hold (by omega) (by omega))
  rename_i hlap hsnap
  have hround : (k + 1) % 2 ^ 20 = 0 := by omega
  have hnotyet : ¬ k + 1 < 2 ^ 20 := by omega
  have hsnapped : k / 2 ^ 12 + 1 = (k + 1) / 2 ^ 12 := by omega
  have hstreak : (if ¬ (1 : BitVec 32) = 0 ∧ (1 : BitVec 32) = (if k < 2 ^ 20 then 0 else 1) then
      BitVec.ofNat 32 (k / 2 ^ 20 - 1 + 1) else 0) = BitVec.ofNat 32 ((k + 1) / 2 ^ 20 - 1) := by
    rcases Nat.lt_or_ge k (2 ^ 20) with hearly | hlate
    · -- the first snapshot, which has nothing to compare the count to
      have hone : (k + 1) / 2 ^ 20 - 1 = 0 := by omega
      rw [if_pos hearly, if_neg (by decide), hone]
      rfl
    · rw [if_neg (Nat.not_lt.mpr hlate), if_pos (by decide)]
      congr 1
      omega
  have hshort : ¬ mrxfFrozenSnaps ≤ BitVec.ofNat 32 ((k + 1) / 2 ^ 20 - 1) := by
    intro hle
    have hval : (BitVec.ofNat 32 ((k + 1) / 2 ^ 20 - 1)).toNat = (k + 1) / 2 ^ 20 - 1 :=
      Nat.mod_eq_of_lt (by omega)
    have hle : 8 ≤ (BitVec.ofNat 32 ((k + 1) / 2 ^ 20 - 1)).toNat := hle
    omega
  rw [hstreak, if_neg fun hall => hshort hall.1, if_neg hnotyet, hsnapped]
  rfl
theorem watchdog_stalled_last : ((stalledAt (9 * 2 ^ 20 - 1)).watchdog 0 1).1 = true := by decide

/-! ## The driver and the engine

The two share the descriptors and nothing else. Each goes round the ring with an index of its own.
-/

/-- A descriptor's place in the ring of sixteen. -/
abbrev RxSlot := Fin 16

/-- Where the driver is, between two accesses to memory that the engine shares. -/
inductive RxPc where
  /-- in no call, with no token out -/
  | idle
  /-- in `receive`, about to read the descriptor `n` after `start` -/
  | reading (start : RxSlot) (n : Fin 16)
  /-- in `receive`, about to arm the rejected descriptor `n` after `start` -/
  | rejecting (start : RxSlot) (n : Fin 16)
  /-- in `receive`, with nothing found -/
  | watching
  /-- a `Vf2NicRxToken` is out -/
  | holding (idx : RxSlot) (len : BitVec 16)
  /-- in `consume`, about to arm the descriptor -/
  | consumed (idx : RxSlot)
  /-- in `vf2_rx_channel_recover`, about to stop the engine -/
  | stopping
  /-- in `vf2_rx_channel_recover`, about to arm descriptor `idx` -/
  | recovering (idx : RxSlot)
  /-- in `vf2_rx_channel_recover`, about to start the engine -/
  | starting

/-- The descriptor the driver took and has not given back. -/
def RxPc.held : RxPc → Option RxSlot
  | .rejecting start n => some (after start n)
  | .holding idx _ => some idx
  | .consumed idx => some idx
  | _ => none

/-- Where `receive` goes on after the descriptor `n` after `start`. -/
def RxPc.next (start : RxSlot) (n : Fin 16) : RxPc :=
  if h : n.val + 1 < 16 then .reading start ⟨n.val + 1, h⟩ else .watching

@[simp] theorem RxPc.held_next (start : RxSlot) (n : Fin 16) : (RxPc.next start n).held = none := by
  rw [next]
  split <;> rfl

/-- The ring, the driver and the engine, with what each of them knows. -/
structure GmacRx where
  /-- `RDES3` of each descriptor -/
  ring : RxSlot → BitVec 32
  /-- the frame in each buffer -/
  bufs : RxSlot → Option ℕ
  /-- `RX_NEXT` -/
  rxNext : RxSlot
  /-- the watchdog's counters -/
  counters : RxCounters
  /-- where the driver is -/
  pc : RxPc
  /-- the descriptor the engine is at -/
  cursor : RxSlot
  /-- `RX_CONTROL.SR` -/
  running : Bool

/-- After bring-up every descriptor is armed, and the engine is at the first. -/
def GmacRx.started : GmacRx :=
  { ring := fun _ => rdes3Armed
    bufs := fun _ => none
    rxNext := 0
    counters := ⟨0, 0, 0, 0, 0⟩
    pc := .idle
    cursor := 0
    running := true }

/-- `vf2_rx_rearm(idx)`. The doorbell it rings wakes an engine that waits; here an engine that
waits goes on by itself. -/
def vf2RxRearm (g : GmacRx) (idx : RxSlot) : GmacRx :=
  { g with ring := Function.update g.ring idx rdes3Armed }

/-! ## Turns

A turn is one access to a descriptor, by the engine or the driver, so they interleave as on the
chip. The stack above the driver takes a token and later drops it. -/

/-- The state, and what went on so far: the frames the engine completed, the descriptors the
driver found completed, and the frames it handed up. -/
structure RxRun where
  /-- the state -/
  st : GmacRx
  /-- `RDES3` as the engine left it, of each frame it completed -/
  filled : List (BitVec 32)
  /-- the frames handed up -/
  handed : List ℕ
  /-- the frame in each descriptor that the driver has not seen completed yet -/
  unseen : RxSlot → Option ℕ
  /-- the frames whose descriptor was armed before that -/
  blind : List ℕ

namespace RxRun

/-- After bring-up, with nothing filled and nothing handed on yet. -/
def started : RxRun := ⟨.started, [], [], fun _ => none, []⟩

/-- The driver goes on at `pc`, and nothing else changes. -/
def goto (s : RxRun) (pc : RxPc) : RxRun := { s with st := { s.st with pc := pc } }

/-- The driver arms a descriptor. A frame in it that nobody has looked at is overwritten blindly,
and this is noted. -/
def rearm (s : RxRun) (idx : RxSlot) : RxRun :=
  { s with
    st := vf2RxRearm s.st idx
    unseen := Function.update s.unseen idx none
    blind := s.blind ++ (s.unseen idx).toList }

/-- The engine completes a frame in the descriptor at its cursor, and moves on by one. -/
def fill (s : RxRun) (rdes3 : BitVec 32) : RxRun :=
  { s with
    st := { s.st with
      ring := Function.update s.st.ring s.st.cursor rdes3
      bufs := Function.update s.st.bufs s.st.cursor (some s.filled.length)
      cursor := after s.st.cursor 1 }
    filled := s.filled ++ [rdes3]
    unseen := Function.update s.unseen s.st.cursor (some s.filled.length) }

/-- The driver finds descriptor `i` completed, and will look at the one after it next. -/
def observe (s : RxRun) (i : RxSlot) : RxRun :=
  { s with
    st := { s.st with rxNext := after i 1 }
    unseen := Function.update s.unseen i none }

/-- `receive` returns the token of descriptor `i`: the frame in it is handed to the stack above.
-/
def hand (s : RxRun) (i : RxSlot) : RxRun :=
  { s with
    st := { s.st with
      counters := { s.st.counters with recoverCooldown := 0 }
      pc := .holding i (rdes3Len (s.st.ring i)) }
    handed := s.handed ++ (s.st.bufs i).toList }

/-- `receive` reads the descriptor `n` after `start`: it may be the engine's, be rejected, or be
handed on. -/
def read (s : RxRun) (start : RxSlot) (n : Fin 16) : RxRun :=
  let i := after start n
  let rdes3 := s.st.ring i
  if engineOwns rdes3 then s.goto (.next start n)
  else if !rxFrameOk rdes3 then (s.observe i).goto (.rejecting start n)
  else (s.observe i).hand i

/-- `receive` found nothing, so that the watchdog counts, and decides on a recovery. -/
def watch (s : RxRun) (st rxFrames : BitVec 32) : RxRun :=
  let out := s.st.counters.watchdog st rxFrames
  let s := { s with st := { s.st with counters := out.2 } }
  if out.1 then s.goto .stopping else s.goto .idle

/-- Step 1 of `vf2_rx_channel_recover`: the engine is stopped. -/
def stop (s : RxRun) : RxRun :=
  { s with st := { s.st with running := false, pc := .recovering 0 } }

/-- Steps 3 to 5 of `vf2_rx_channel_recover`, with the reset of `RX_NEXT` and of the counters
around them. -/
def restart (s : RxRun) : RxRun :=
  { s with st := { s.st with
      rxNext := 0
      cursor := 0
      running := true
      counters := { s.st.counters with recoverCooldown := 16, mrxfStallStreak := 0 }
      pc := .idle } }

/-- Step 2 of `vf2_rx_channel_recover` for descriptor `idx`: it is armed, whether it holds a frame
or not. -/
def recover (s : RxRun) (idx : RxSlot) : RxRun :=
  (s.rearm idx).goto
    (if h : idx.val + 1 < 16 then .recovering ⟨idx.val + 1, h⟩ else .starting)

end RxRun

/-- A turn of the engine, of the stack above, or of the driver. -/
inductive RxTurn where
  /-- the engine completes a frame -/
  | fill (rdes3 : BitVec 32)
  /-- the stack calls `receive` -/
  | receive
  /-- the stack consumes the token -/
  | consume
  /-- the stack drops the token -/
  | drop
  /-- the watchdog, with what it reads of the status and of the frame count -/
  | watch (st rxFrames : BitVec 32)
  /-- the next access of the call the driver is in -/
  | run

/-- One turn, where there is one. The engine fills a descriptor only if it owns it, and leaves
it to the driver. -/
def rxStep (s : RxRun) : RxTurn → Option RxRun
  | .fill rdes3 =>
    if s.st.running && engineOwns (s.st.ring s.st.cursor) && !engineOwns rdes3 then
      some (s.fill rdes3)
    else none
  | .receive =>
    match s.st.pc with
    | .idle => some (s.goto (.reading s.st.rxNext 0))
    | _ => none
  | .consume =>
    match s.st.pc with
    | .holding idx _ => some (s.goto (.consumed idx))
    | _ => none
  | .drop =>
    match s.st.pc with
    | .holding idx _ => some ((s.rearm idx).goto .idle)
    | _ => none
  | .watch st rxFrames =>
    match s.st.pc with
    | .watching => some (s.watch st rxFrames)
    | _ => none
  | .run =>
    match s.st.pc with
    | .reading start n => some (s.read start n)
    | .rejecting start n => some ((s.rearm (after start n)).goto (.next start n))
    | .consumed idx => some ((s.rearm idx).goto .idle)
    | .stopping => some s.stop
    | .recovering idx => some (s.recover idx)
    | .starting => some s.restart
    | _ => none

/-- The driver and the engine as one machine, from bring-up on. -/
def rxMachine : Machine RxRun RxTurn where
  init s := s = .started
  step := rxStep

end Wari
