import Wari.Boot
import Wari.Lib.Bytes

/-!
# Processes

The pure cores of IPC and scheduling: the rendezvous decision `resolve`, messages
and their 40-byte wire form, and the process record with its lifecycle. Nothing
here touches the process table.
-/

namespace Wari

open Lib (toLe ofLe)

/-! ## The rendezvous decision

A table without state: what happens, given the operation and whether a peer waits. -/

/-- Why a process is blocked, which decides what has to happen for it to go on. -/
inductive BlockReason where
  /-- queued as a sender, for a receiver to take the message -/
  | sendWait
  /-- queued as a receiver, for a sender to deliver one -/
  | recvWait
  /-- message delivered, waiting for the reply -/
  | replyWait
  /-- queued as a caller: first to be received, then replied to -/
  | callWait
  /-- waiting for the next audit record; queued on no endpoint -/
  | eventWait
  deriving DecidableEq, Repr

/-- What the caller does after the message transferred. -/
inductive CallerNext where
  | continue
  | block (reason : BlockReason)
  deriving DecidableEq, Repr

/-- The outcome the kernel acts on for one IPC operation. -/
inductive Outcome where
  /-- a peer was waiting -/
  | rendezvous (caller : CallerNext)
  /-- no peer: the caller enqueues and blocks -/
  | enqueue (block : BlockReason)
  /-- not valid in this state -/
  | invalid
  deriving DecidableEq, Repr

/-- The synchronous operations of IPC. -/
inductive Op where
  | send
  | recv
  | call
  | reply
  deriving DecidableEq, Repr

/-- Resolve one operation, given whether a compatible peer is waiting. -/
def resolve : Op → Bool → Outcome
  | .send, true => .rendezvous .continue
  | .send, false => .enqueue .sendWait
  | .recv, true => .rendezvous .continue
  | .recv, false => .enqueue .recvWait
  | .call, true => .rendezvous (.block .replyWait)
  | .call, false => .enqueue .callWait
  | .reply, true => .rendezvous .continue
  | .reply, false => .invalid

/-! ## Messages

Five words, least significant byte first. -/

/-- The message registers of a process: a badge and four words. -/
structure MsgRegs where
  /-- badge of the sender's capability -/
  badge : BitVec 64
  /-- payload -/
  words : Fin 4 → BitVec 64

/-- Two messages are the same when their registers are. -/
@[ext] theorem MsgRegs.ext {m n : MsgRegs} (hbadge : m.badge = n.badge)
    (hwords : ∀ i, m.words i = n.words i) : m = n := by
  cases m
  cases n
  simp only [MsgRegs.mk.injEq]
  exact ⟨hbadge, funext hwords⟩

/-- The message that is all zero. -/
def MsgRegs.empty : MsgRegs := ⟨0#64, fun _ => 0#64⟩

/-- The size of a message on the wire. -/
def msgBytes : ℕ := 40

/-- `w.to_le_bytes()`, eight bytes with the least significant first. -/
def leBytes (w : BitVec 64) : List (BitVec 8) := toLe 8 w.toNat

/-- `u64::from_le_bytes(buf[o..o + 8])`, least significant byte first. -/
def leWord (buf : List (BitVec 8)) (o : ℕ) : BitVec 64 :=
  BitVec.ofNat 64 (ofLe ((buf.drop o).take 8))

/-- Decode a buffer of 40 bytes: the badge first, then the words. -/
def decodeMsg (buf : List (BitVec 8)) : MsgRegs where
  badge := leWord buf 0
  words i := leWord buf (8 + i.val * 8)

/-- The wire form of a message, 40 bytes. -/
def encodeMsg (regs : MsgRegs) : List (BitVec 8) :=
  leBytes regs.badge ++ (leBytes (regs.words 0) ++ (leBytes (regs.words 1) ++
    (leBytes (regs.words 2) ++ leBytes (regs.words 3))))

@[simp] theorem length_leBytes (w : BitVec 64) : (leBytes w).length = 8 := Lib.length_toLe 8 w.toNat

@[simp] theorem length_encodeMsg (regs : MsgRegs) : (encodeMsg regs).length = msgBytes := by
  simp [encodeMsg, msgBytes]

/-- The word at the head of a buffer. -/
theorem leWord_zero (w : BitVec 64) (rest : List (BitVec 8)) :
    leWord (leBytes w ++ rest) 0 = w := by
  have htake : ((leBytes w ++ rest).drop 0).take 8 = leBytes w := List.take_left' (length_leBytes w)
  have hlt : w.toNat < 256 ^ 8 := w.isLt
  rw [leWord, htake, leBytes, Lib.ofLe_toLe, Nat.mod_eq_of_lt hlt]
  exact BitVec.eq_of_toNat_eq (by rw [BitVec.toNat_ofNat, Nat.mod_eq_of_lt w.isLt])

/-- A word further on in a buffer is read past the one before it. -/
theorem leWord_succ (w : BitVec 64) (rest : List (BitVec 8)) (o : ℕ) :
    leWord (leBytes w ++ rest) (8 + o) = leWord rest o := by
  have hdrop : (leBytes w ++ rest).drop (8 + o) = rest.drop o := by
    have h : (leBytes w ++ rest).drop ((leBytes w).length + o) = rest.drop o :=
      List.drop_length_add_append o
    rwa [length_leBytes] at h
  rw [leWord, hdrop, leWord]

/-- **Round trip.** Decoding the wire form of a message gives it back, badge and words alike. -/
theorem decodeMsg_encodeMsg (regs : MsgRegs) : decodeMsg (encodeMsg regs) = regs := by
  have hlast := List.append_nil (leBytes (regs.words 3))
  refine MsgRegs.ext (leWord_zero _ _) fun i => ?_
  change leWord (encodeMsg regs) (8 + i.val * 8) = _
  rw [encodeMsg, leWord_succ]
  match i with
  | 0 => exact leWord_zero _ _
  | 1 => exact (leWord_succ _ _ 0).trans (leWord_zero _ _)
  | 2 => exact (leWord_succ _ _ 8).trans ((leWord_succ _ _ 0).trans (leWord_zero _ _))
  | 3 =>
    rw [← hlast]
    exact (leWord_succ _ _ 16).trans ((leWord_succ _ _ 8).trans
      ((leWord_succ _ _ 0).trans (leWord_zero _ _)))

/-! ## Processes

The record of a process, and the states it goes through. -/

/-- The lifecycle state of a process. -/
inductive ProcessState where
  | free
  | ready
  | running
  /-- a driver: loaded, never scheduled -/
  | library
  /-- waiting, on the endpoint with this pool index -/
  | blocked (reason : BlockReason) (epIdx : BitVec 8)
  | exited (code : BitVec 32)
  | faulted
  deriving DecidableEq, Repr

/-- The state that a wake leaves: whoever is blocked is ready, and nobody else changes. -/
def ProcessState.woken : ProcessState → ProcessState
  | .blocked _ _ => .ready
  | s => s

/-- The sentinel for `msgBuf` that stands for no flush being pending. -/
def noMsgBuf : BitVec 32 := 0xFFFFFFFF#32

/-- The metadata of a process, with the message registers among it. -/
structure Process where
  /-- index into the process table -/
  procId : BitVec 8
  /-- privilege tier -/
  tier : Tier
  /-- module this process runs -/
  moduleId : ModuleId
  /-- lifecycle state -/
  state : ProcessState
  /-- message registers, written by a rendezvous while the process is blocked -/
  msgRegs : MsgRegs
  /-- where a delivered message goes at resume -/
  msgBuf : BitVec 32

namespace Process

/-- A tenant, ready to run and with nothing to flush. -/
def new (procId : BitVec 8) (tier : Tier) (moduleId : ModuleId) : Process :=
  ⟨procId, tier, moduleId, .ready, .empty, noMsgBuf⟩

/-- A library, which is loaded and never scheduled. -/
def newLibrary (procId : BitVec 8) (tier : Tier) (moduleId : ModuleId) : Process :=
  ⟨procId, tier, moduleId, .library, .empty, noMsgBuf⟩

/-- Can the process be picked, or is it running? -/
def isRunnable (p : Process) : Bool := p.state == .ready || p.state == .running

/-- Is the process blocked, for whatever reason? -/
def isBlocked (p : Process) : Bool :=
  match p.state with
  | .blocked _ _ => true
  | _ => false

/-- Block for `reason` on the endpoint at `epIdx`. -/
def block (p : Process) (reason : BlockReason) (epIdx : BitVec 8) : Process :=
  { p with state := .blocked reason epIdx }

/-- Wake a blocked process; no change to any other. -/
def wake (p : Process) : Process := if p.isBlocked then { p with state := .ready } else p

@[simp] theorem moduleId_block (p : Process) (reason : BlockReason) (epIdx : BitVec 8) :
    (p.block reason epIdx).moduleId = p.moduleId := rfl

@[simp] theorem moduleId_wake (p : Process) : p.wake.moduleId = p.moduleId := by
  rw [wake]
  split <;> rfl

@[simp] theorem msgRegs_wake (p : Process) : p.wake.msgRegs = p.msgRegs := by
  rw [wake]
  split <;> rfl

@[simp] theorem msgBuf_wake (p : Process) : p.wake.msgBuf = p.msgBuf := by
  rw [wake]
  split <;> rfl

theorem wake_wake (p : Process) : p.wake.wake = p.wake := by
  by_cases h : p.isBlocked
  · have hw : p.wake = { p with state := .ready } := if_pos h
    rw [hw]
    rfl
  · have hw : p.wake = p := if_neg h
    rw [hw]
    exact hw

theorem state_wake (p : Process) : p.wake.state = p.state.woken := by
  rw [wake, isBlocked]
  cases hs : p.state <;> simp [ProcessState.woken, hs]

end Process

/-- The lowest process id whose state is `Ready`. -/
def pickNextTenant (states : Proc → Option ProcessState) : Option Proc :=
  (List.finRange maxProcs).find? fun p => states p == some .ready

end Wari
