import Wari.Modreg

/-!
# Scheduling turns

A turn of the scheduler marks a ready tenant running and enters or resumes it;
the tenant then runs until it ends or blocks. What a tenant computes in between is
not modelled: a loaded module, its memory and its exit code are whatever they
are.
-/

namespace Wari

open Lib (writeAt)

/-- How a tenant ends: it exits with a code, or it faults. -/
inductive Ending where
  | exited (code : BitVec 32)
  | faulted

/-- The state an ended tenant is left in. -/
def Ending.state : Ending → ProcessState
  | .exited code => .exited code
  | .faulted => .faulted

namespace Kernel

/-- `table[proc_id].state = state`, for a process that is there. -/
def setState (k : Kernel) (p : Proc) (state : ProcessState) : Kernel :=
  k.modifyProcess p fun proc => { proc with state := state }

/-- The audit record of an ending, with the process and the code. -/
def emitEnding (k : Kernel) (p : Proc) : Ending → Kernel
  | .exited code => k.emit .tenantExited (BitVec.ofNat 16 p.val) code
  | .faulted => k.emit .tenantFaulted (BitVec.ofNat 16 p.val) 0#32

/-- The end of a turn whose tenant is gone: its instance is dropped, the end is
recorded and marked, and a daemon is restarted. -/
def finish (k : Kernel) (p : Proc) (ending : Ending) : Kernel :=
  (((k.release p).emitEnding p ending).setState p ending.state).onTenantTerminated p

/-- Replace the instance at `p`, whether there was one or not. -/
def setInstance (k : Kernel) (p : Proc) (slot : Tier1Slot) : Kernel :=
  { k with tier1Pool := Function.update k.tier1Pool p (some slot) }

/-- Flush a woken process's delivered message into its linear memory, where it
recorded a buffer when it blocked. A write out of bounds is given up. -/
def flushMsgToLinmem (k : Kernel) (p : Proc) : Kernel :=
  match k.processes p with
  | none => k
  | some proc =>
    if proc.msgBuf = noMsgBuf then k
    else
      let k := k.modifyProcess p fun proc => { proc with msgBuf := noMsgBuf }
      match k.tier1Pool p with
      | none => k
      | some slot =>
        match slot.memory with
        | none => k
        | some memory =>
          match writeAt memory proc.msgBuf.toNat (encodeMsg proc.msgRegs) with
          | none => k
          | some memory => k.setInstance p { slot with memory := some memory }

/-- Resume a parked invocation, which then returns `pendingResume`. One that is
not parked is a fault. -/
def resume (k : Kernel) (p : Proc) : Kernel :=
  match k.tier1Pool p with
  | none => k.finish p .faulted
  | some slot =>
    if slot.parked then k.setInstance p { slot with parked := false } else k.finish p .faulted

/-- Load and enter a module that has no start section: `image` is the memory the instance
exports, if the module loads at all. What a start section does before `_start` is entered
is a matter of steps of its own. -/
def start (k : Kernel) (p : Proc) (image : Option (Option (List (BitVec 8)))) : Kernel :=
  match image with
  | none => k.finish p .faulted
  | some memory => k.setInstance p ⟨memory, false, 0⟩

/-- One turn's beginning: the picked tenant is marked running, and entered. -/
def dispatch (k : Kernel) (p : Proc) (image : Option (Option (List (BitVec 8)))) : Kernel :=
  let k := k.setState p .running
  if k.isLive p then (k.flushMsgToLinmem p).resume p else k.start p image

/-- A turn whose tenant yielded: its invocation is parked, and the tenant must
have blocked itself. One that has not is faulted, without a record. -/
def settleBlocked (k : Kernel) (p : Proc) : Kernel :=
  match k.tier1Pool p with
  | none => k.finish p .faulted
  | some slot =>
    let k := k.setInstance p { slot with parked := true }
    match k.processes p with
    | none => k
    | some proc =>
      if proc.isBlocked then k
      else ((k.release p).setState p .faulted).onTenantTerminated p

/-- The state of each process in the table. -/
def stateAt (k : Kernel) (p : Proc) : Option ProcessState := (k.processes p).map Process.state

/-- The process that the scheduler picks: the lowest that is ready. -/
def pickNext (k : Kernel) : Option Proc := pickNextTenant k.stateAt

theorem stateAt_congr {k k' : Kernel} {q : Proc} (h : k'.processes q = k.processes q) :
    k'.stateAt q = k.stateAt q :=
  congrArg (Option.map Process.state) h

section Frame

variable (k : Kernel) (p q : Proc)

@[simp] theorem caps_setState (s : ProcessState) : (k.setState p s).caps = k.caps := rfl

@[simp] theorem modreg_setState (s : ProcessState) : (k.setState p s).modreg = k.modreg := rfl

@[simp] theorem moduleAt_setState (s : ProcessState) : (k.setState p s).moduleAt q = k.moduleAt q :=
  k.moduleAt_modifyProcess p q fun _ => rfl

@[simp] theorem caps_emitEnding (ending : Ending) : (k.emitEnding p ending).caps = k.caps := by
  cases ending <;> exact k.caps_emit _ _ _

@[simp] theorem modreg_emitEnding (ending : Ending) :
    (k.emitEnding p ending).modreg = k.modreg := by
  cases ending <;> exact k.modreg_emit _ _ _

@[simp] theorem moduleAt_emitEnding (ending : Ending) :
    (k.emitEnding p ending).moduleAt q = k.moduleAt q := by
  cases ending <;> exact k.moduleAt_emit _ _ _ q

@[simp] theorem caps_setInstance (slot : Tier1Slot) : (k.setInstance p slot).caps = k.caps := rfl

@[simp] theorem processes_setInstance (slot : Tier1Slot) :
    (k.setInstance p slot).processes = k.processes := rfl

end Frame

/-- The restart at the end of a tenant is decided by what was there before. -/
theorem restartInstalls_congr {k k' : Kernel} (h : k.Quiet k') (hreg : k'.modreg = k.modreg)
    (p : Proc) : k'.restartInstalls p = k.restartInstalls p := by
  have halloc : k'.allocProcId = k.allocProcId := by
    simp only [allocProcId]
    have hpred : (fun p : Proc => decide (procIdDynBase ≤ p.val) && (k'.processes p).isNone) =
        fun p => decide (procIdDynBase ≤ p.val) && (k.processes p).isNone := by
      funext q
      congr 1
      rw [Bool.eq_iff_iff, Option.isNone_iff_eq_none, Option.isNone_iff_eq_none]
      exact h.processes_eq_none q
    rw [hpred]
  simp only [restartInstalls, daemonOf]
  rw [hreg, halloc, h.caps]

/-- **What the end of a tenant brings up**: the daemon that takes its place, or nothing. -/
theorem finish_brings (k : Kernel) (p : Proc) (ending : Ending) :
    k.Brings (k.restartInstalls p) (k.finish p ending) := by
  have hquiet : k.Quiet (((k.release p).emitEnding p ending).setState p ending.state) := by
    refine ⟨by simp, fun q => ?_⟩
    rw [moduleAt_setState, moduleAt_emitEnding]
    rfl
  have hbrings := onTenantTerminated_brings
    (((k.release p).emitEnding p ending).setState p ending.state) p
  rw [restartInstalls_congr hquiet (by simp) p] at hbrings
  exact hbrings.of_quiet hquiet

end Kernel

end Wari
