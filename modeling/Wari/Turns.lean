import Wari.Endpoints
import Wari.Lib.Machine

/-!
# Turns

The scheduler and the tenants it runs as one machine: a ready tenant is
dispatched, and while it runs it computes, calls the host functions that block,
and ends. What each step can do is stated on the seats of the processes: their
state, their registers, and their instance.
-/

namespace Wari

open Lib (Machine Wait Rendezvous writeAt)

/-- Whoever ended is not woken: its state is not a blocked one. -/
theorem Ending.woken_state (ending : Ending) : ending.state.woken = ending.state := by
  cases ending <;> rfl

namespace Kernel

/-! ## The end of a turn

A tenant ends on record, and its end may restart a daemon. What that does to the seats of the
others is little. -/

/-- What the end of another process's turn does to `q`. -/
inductive Moved (k k' : Kernel) (q : Proc) : Prop where
  /-- nothing -/
  | still (hproc : k'.processes q = k.processes q) (hpool : k'.tier1Pool q = k.tier1Pool q)
  /-- it waited for a record, and is woken -/
  | woken (hring : q ∈ k.ringWaiterList) (hproc : k'.processes q = (k.processes q).map Process.wake)
      (hpool : k'.tier1Pool q =
        (k.tier1Pool q).map fun slot => { slot with pendingResume := 1 })
  /-- it is new -/
  | spawned {proc : Process} (hfree : k.processes q = none) (hproc : k'.processes q = some proc)
      (hready : proc.state = .ready)

@[simp] theorem ringWaiterList_emit (k : Kernel) (kind : EventKind) (a : BitVec 16)
    (b : BitVec 32) : (k.emit kind a b).ringWaiterList = [] := by
  rw [ringWaiterList, ringWaiters_emit]
  exact List.filterMap_none _

/-- `q` waited for a record, and does so no more. -/
def LetGo (k k' : Kernel) (q : Proc) : Prop := q ∈ k.ringWaiterList ∧ q ∉ k'.ringWaiterList

instance (k k' : Kernel) (q : Proc) : Decidable (k.LetGo k' q) :=
  inferInstanceAs (Decidable (_ ∧ _))

/-- What audit records and restarts do to `q`: if it waited for a record it may be let go,
which hands it `1` and wakes it, and if there was no process there may be a new one. -/
structure Stirred (k k' : Kernel) (q : Proc) : Prop where
  endpoints : k'.endpoint? = k.endpoint?
  ring : q ∈ k'.ringWaiterList → q ∈ k.ringWaiterList
  pool : k'.tier1Pool q =
    if k.LetGo k' q then (k.tier1Pool q).map fun slot => { slot with pendingResume := 1 }
    else k.tier1Pool q
  process : k'.processes q =
      (if k.LetGo k' q then (k.processes q).map Process.wake else k.processes q) ∨
    k.processes q = none ∧ ∃ proc, k'.processes q = some proc ∧ proc.state = .ready

section Stirred

variable {k k₁ k₂ : Kernel} {q : Proc}

/-- Where the seat of `q` is as it was, nothing stirred. -/
theorem Stirred.of_eq (hendpoints : k₁.endpoint? = k.endpoint?)
    (hring : k₁.ringWaiterList = k.ringWaiterList) (hpool : k₁.tier1Pool q = k.tier1Pool q)
    (hproc : k₁.processes q = k.processes q) : k.Stirred k₁ q := by
  have hstay : ¬ k.LetGo k₁ q := fun h => h.2 (hring ▸ h.1)
  refine ⟨hendpoints, fun h => hring ▸ h, ?_, .inl ?_⟩
  · rw [if_neg hstay, hpool]
  · rw [if_neg hstay, hproc]

/-- A stirred process moves as the end of a turn moves it. -/
theorem Stirred.moved (h : k.Stirred k₁ q) : k.Moved k₁ q := by
  have hpool := h.pool
  rcases h.process with hproc | ⟨hfree, proc, hproc, hready⟩
  · by_cases hgo : k.LetGo k₁ q
    · rw [if_pos hgo] at hproc hpool
      exact .woken hgo.1 hproc hpool
    · rw [if_neg hgo] at hproc hpool
      exact .still hproc hpool
  · exact .spawned hfree hproc hready

theorem Stirred.trans (h₁ : k.Stirred k₁ q) (h₂ : k₁.Stirred k₂ q) : k.Stirred k₂ q := by
  have hgo : k.LetGo k₂ q ↔ k.LetGo k₁ q ∨ k₁.LetGo k₂ q := by
    constructor
    · intro h
      by_cases hmid : q ∈ k₁.ringWaiterList
      · exact .inr ⟨hmid, h.2⟩
      · exact .inl ⟨h.1, hmid⟩
    · rintro (h | h)
      · exact ⟨h.1, fun hend => h.2 (h₂.ring hend)⟩
      · exact ⟨h₁.ring h.1, h.2⟩
  refine ⟨h₂.endpoints.trans h₁.endpoints, fun h => h₁.ring (h₂.ring h), ?_, ?_⟩
  · rw [h₂.pool, h₁.pool]
    by_cases hfirst : k.LetGo k₁ q
    · rw [if_pos (hgo.mpr (.inl hfirst)), if_pos hfirst, if_neg fun h => hfirst.2 h.1]
    · by_cases hsecond : k₁.LetGo k₂ q
      · rw [if_pos (hgo.mpr (.inr hsecond)), if_neg hfirst, if_pos hsecond]
      · rw [if_neg fun h => (hgo.mp h).elim hfirst hsecond, if_neg hfirst, if_neg hsecond]
  · -- a process new at the first step stays, and is ready: to wake it changes nothing
    rcases h₁.process with hproc₁ | ⟨hfree, proc, hproc₁, hready⟩
    · rcases h₂.process with hproc₂ | ⟨hfree, hnew⟩
      · left
        rw [hproc₂, hproc₁]
        by_cases hfirst : k.LetGo k₁ q
        · rw [if_pos (hgo.mpr (.inl hfirst)), if_pos hfirst, if_neg fun h => hfirst.2 h.1]
        · by_cases hsecond : k₁.LetGo k₂ q
          · rw [if_pos (hgo.mpr (.inr hsecond)), if_neg hfirst, if_pos hsecond]
          · rw [if_neg fun h => (hgo.mp h).elim hfirst hsecond, if_neg hfirst, if_neg hsecond]
      · refine .inr ⟨?_, hnew⟩
        rw [hfree] at hproc₁
        split at hproc₁
        · exact Option.map_eq_none_iff.mp hproc₁.symm
        · exact hproc₁.symm
    · right
      refine ⟨hfree, ?_⟩
      rcases h₂.process with hproc₂ | ⟨hnone, -⟩
      · rw [hproc₁] at hproc₂
        split at hproc₂
        · exact ⟨proc.wake, hproc₂, by rw [Process.state_wake, hready]; rfl⟩
        · exact ⟨proc, hproc₂, hready⟩
      · rw [hproc₁] at hnone
        cases hnone

theorem emit_stirred (k : Kernel) (kind : EventKind) (a : BitVec 16) (b : BitVec 32) (q : Proc) :
    k.Stirred (k.emit kind a b) q := by
  have hgo : k.LetGo (k.emit kind a b) q ↔ q ∈ k.ringWaiterList := by
    simp [LetGo]
  refine ⟨?_, fun h => ?_, ?_, .inl ?_⟩
  · exact congrArg (fun caps => caps.objectPools.endpoints.get) (caps_emit k kind a b)
  · rw [ringWaiterList_emit] at h
    cases h
  · rw [tier1Pool_emit]
    exact if_congr hgo.symm rfl rfl
  · rw [processes_emit]
    exact if_congr hgo.symm rfl rfl

/-- A registered tenant is new, and ready, and nobody else is touched. -/
theorem registerTenant_stirred {b : BitVec 8} {tier : Tier} {moduleId : ModuleId}
    (h : k.registerTenant b tier moduleId = .ok k₁) (q : Proc) : k.Stirred k₁ q := by
  obtain ⟨r, -, hfree, rfl⟩ := register_ok h
  by_cases hq : q = r
  · subst hq
    have hself := Function.update_self q (some (Process.new b tier moduleId)) k.processes
    exact ⟨rfl, id, (if_neg fun h => h.2 h.1).symm, .inr ⟨hfree, _, hself, rfl⟩⟩
  · exact .of_eq rfl rfl rfl (Function.update_of_ne hq _ _)

theorem restart_stirred (k : Kernel) (idx : Fin dynSlots) (grants : GrantSpec) (q : Proc) :
    k.Stirred (k.restart idx grants).2 q := by
  have hsame : k.Stirred k q := .of_eq rfl rfl rfl rfl
  simp only [restart]
  rcases k.allocProcId with rc | r
  · exact hsame
  · simp only
    rcases hcaps : installTier1Grants k.caps (procByte r) grants with rc | caps
    · exact hsame
    · obtain ⟨-, -, -, -, -, -, -, hpools, -⟩ := installTier1Grants_ok hcaps
      have hget : Kernel.endpoint? { k with caps := caps } = k.endpoint? :=
        congrArg (fun pools => pools.endpoints.get) hpools
      have hinstalled : k.Stirred { k with caps := caps } q := .of_eq hget rfl rfl rfl
      simp only
      rcases hreg : Kernel.registerTenant { k with caps := caps } (procByte r) .one
        (.dynamic (BitVec.ofNat 8 idx.val)) with rc | k₁
      · exact hinstalled
      · exact hinstalled.trans (registerTenant_stirred hreg q)

theorem onTenantTerminated_stirred (k : Kernel) (p q : Proc) :
    k.Stirred (k.onTenantTerminated p) q := by
  have hslot : ∀ (k₁ : Kernel) (i : Fin dynSlots) (s : SlotState), k₁.Stirred (k₁.setSlot i s) q :=
    fun k₁ i s => .of_eq rfl rfl rfl rfl
  simp only [onTenantTerminated]
  rcases k.daemonOf p with _ | ⟨idx, restartsLeft, grants, off, len⟩
  · exact .of_eq rfl rfl rfl rfl
  · simp only
    split
    · exact (hslot k _ _).trans (emit_stirred _ _ _ _ q)
    · have hrestart := k.restart_stirred idx grants q
      generalize k.restart idx grants = out at hrestart
      obtain ⟨rc | newPid, k₁⟩ := out
      · exact (hrestart.trans (hslot _ _ _)).trans (emit_stirred _ _ _ _ q)
      · exact (hrestart.trans (hslot _ _ _)).trans (emit_stirred _ _ _ _ q)

theorem emitEnding_stirred (k : Kernel) (p : Proc) (ending : Ending) (q : Proc) :
    k.Stirred (k.emitEnding p ending) q := by
  cases ending <;> exact emit_stirred _ _ _ _ q

@[simp] theorem ringWaiterList_emitEnding (k : Kernel) (p : Proc) (ending : Ending) :
    (k.emitEnding p ending).ringWaiterList = [] := by
  cases ending <;> exact ringWaiterList_emit _ _ _ _

/-- A stirred process keeps a state that a wake leaves alone. -/
theorem Stirred.stateAt_eq {s : ProcessState} (h : k.Stirred k₁ q) (hs : k.stateAt q = some s)
    (hwoken : s.woken = s) : k₁.stateAt q = some s := by
  rw [stateAt, Option.map_eq_some_iff] at hs
  obtain ⟨proc, hproc, rfl⟩ := hs
  rcases h.process with hproc₁ | ⟨hfree, -⟩
  · rw [stateAt, hproc₁, hproc]
    split
    · exact congrArg some ((Process.state_wake proc).trans hwoken)
    · rfl
  · rw [hproc] at hfree
    cases hfree

/-- A process stays in the table, whatever stirs it. -/
theorem Stirred.stateAt_ne_none {s : ProcessState} (h : k.Stirred k₁ q)
    (hs : k.stateAt q = some s) : k₁.stateAt q ≠ none := by
  rw [stateAt, Option.map_eq_some_iff] at hs
  obtain ⟨proc, hproc, -⟩ := hs
  rw [stateAt]
  rcases h.process with hproc₁ | ⟨hfree, -⟩
  · rw [hproc₁, hproc]
    split <;> simp
  · rw [hproc] at hfree
    cases hfree

/-- An absent instance stays absent, as records bring up none. -/
theorem Stirred.pool_eq_none (h : k.Stirred k₁ q) (hnone : k.tier1Pool q = none) :
    k₁.tier1Pool q = none := by
  rw [h.pool, hnone]
  exact ite_self _

end Stirred

/-- Setting the state of another process stirs nothing. -/
theorem setState_stirred (k : Kernel) {p q : Proc} (h : q ≠ p) (s : ProcessState) :
    k.Stirred (k.setState p s) q :=
  .of_eq rfl rfl rfl (by rw [setState, processes_modifyProcess, if_neg h])

theorem release_stirred (k : Kernel) {p q : Proc} (h : q ≠ p) : k.Stirred (k.release p) q :=
  .of_eq rfl rfl (by rw [tier1Pool_release, if_neg h]) rfl

/-- `p` has ended: its instance is dropped, its end marked, and the others are stirred at
most. -/
structure Dropped (k k' : Kernel) (p : Proc) (ending : Ending) : Prop where
  endpoints : k'.endpoint? = k.endpoint?
  state : k'.stateAt p = some ending.state
  instance_gone : k'.tier1Pool p = none
  others : ∀ q, q ≠ p → k.Stirred k' q

/-- The turn of `p` ends, and `p` with it, on record. -/
structure Ended (k k' : Kernel) (p : Proc) (ending : Ending) : Prop
    extends Dropped k k' p ending where
  ring : k'.ringWaiterList = []

/-- A record leaves nobody waiting, so whoever waited is woken. -/
theorem Ended.moved {k k' : Kernel} {p q : Proc} {ending : Ending} (h : k.Ended k' p ending)
    (hq : q ≠ p) : k.Moved k' q :=
  (h.others q hq).moved

/-- Once its instance is dropped and its end marked, a process stays ended. -/
theorem dropped_onTenantTerminated {k : Kernel} {p : Proc} {ending : Ending}
    (hstate : k.stateAt p = some ending.state) (hpool : k.tier1Pool p = none) :
    k.Dropped (k.onTenantTerminated p) p ending := by
  have hstir := k.onTenantTerminated_stirred p
  exact ⟨(hstir p).endpoints, (hstir p).stateAt_eq hstate ending.woken_state,
    (hstir p).pool_eq_none hpool, fun q _ => hstir q⟩

/-- What stirred the others before a process is dropped is part of it. -/
theorem Dropped.of_stirred {k k₁ k' : Kernel} {p : Proc} {ending : Ending}
    (hendpoints : k₁.endpoint? = k.endpoint?) (h₁ : ∀ q, q ≠ p → k.Stirred k₁ q)
    (h : k₁.Dropped k' p ending) : k.Dropped k' p ending :=
  ⟨h.endpoints.trans hendpoints, h.state, h.instance_gone,
    fun q hq => (h₁ q hq).trans (h.others q hq)⟩

/-- Marking the end of a process that is in the table. -/
theorem stateAt_setState_self {k : Kernel} {p : Proc} {s : ProcessState}
    (hp : k.stateAt p ≠ none) : (k.setState p s).stateAt p = some s := by
  rw [stateAt_setState, if_pos rfl]
  obtain ⟨old, hold⟩ := Option.ne_none_iff_exists'.mp hp
  rw [hold]
  rfl

/-- **The end of a turn**: the tenant is over, its end is on record, and the registry has done
what it does. -/
theorem finish_ended {k : Kernel} {p : Proc} {s : ProcessState} (hp : k.stateAt p = some s)
    (ending : Ending) : k.Ended (k.finish p ending) p ending := by
  rw [finish]
  have hring := ringWaiterList_emitEnding (k.release p) p ending
  have hfirst := emitEnding_stirred (k.release p) p ending
  generalize (k.release p).emitEnding p ending = k₁ at hring hfirst
  have hstate : (k₁.setState p ending.state).stateAt p = some ending.state :=
    stateAt_setState_self ((hfirst p).stateAt_ne_none hp)
  have hpool : (k₁.setState p ending.state).tier1Pool p = none :=
    (hfirst p).pool_eq_none ((tier1Pool_release k p p).trans (if_pos rfl))
  have hbefore : ∀ q, q ≠ p → k.Stirred (k₁.setState p ending.state) q := by
    intro q hq
    apply (k.release_stirred hq).trans
    apply (hfirst q).trans
    exact k₁.setState_stirred hq ending.state
  have hendpoints : (k₁.setState p ending.state).endpoint? = k.endpoint? := (hfirst p).endpoints
  refine ⟨(dropped_onTenantTerminated hstate hpool).of_stirred hendpoints hbefore, ?_⟩
  apply List.eq_nil_iff_forall_not_mem.mpr
  intro q hq
  have hmem := (onTenantTerminated_stirred (k₁.setState p ending.state) p q).ring hq
  change q ∈ k₁.ringWaiterList at hmem
  rw [hring] at hmem
  cases hmem

/-! ## The beginning of a turn

A tenant without an instance is loaded first, and one that was parked is resumed with its result.
-/

/-- The two kernels differ in the seat of `p` at most. -/
structure Local (k k' : Kernel) (p : Proc) : Prop where
  endpoints : k'.endpoint? = k.endpoint?
  events : k'.events = k.events
  others : ∀ q, q ≠ p → k'.processes q = k.processes q ∧ k'.tier1Pool q = k.tier1Pool q

theorem Local.refl (k : Kernel) (p : Proc) : k.Local k p := ⟨rfl, rfl, fun _ _ => ⟨rfl, rfl⟩⟩

theorem Local.trans {k₁ k₂ k₃ : Kernel} {p : Proc} (h₁ : k₁.Local k₂ p) (h₂ : k₂.Local k₃ p) :
    k₁.Local k₃ p := by
  refine ⟨h₂.endpoints.trans h₁.endpoints, h₂.events.trans h₁.events, fun q hq => ?_⟩
  obtain ⟨hproc₁, hpool₁⟩ := h₁.others q hq
  obtain ⟨hproc₂, hpool₂⟩ := h₂.others q hq
  exact ⟨hproc₂.trans hproc₁, hpool₂.trans hpool₁⟩

theorem local_modifyProcess (k : Kernel) (p : Proc) (f : Process → Process) :
    k.Local (k.modifyProcess p f) p :=
  ⟨rfl, rfl, fun q hq => ⟨by rw [processes_modifyProcess, if_neg hq], rfl⟩⟩

theorem local_setInstance (k : Kernel) (p : Proc) (slot : Tier1Slot) :
    k.Local (k.setInstance p slot) p :=
  ⟨rfl, rfl, fun q hq => ⟨rfl, by rw [tier1Pool_setInstance, if_neg hq]⟩⟩

theorem Local.ringWaiterList_eq {k k' : Kernel} {p : Proc} (h : k.Local k' p) :
    k'.ringWaiterList = k.ringWaiterList := by
  rw [ringWaiterList, ringWaiterList, h.events]

theorem Local.stirred {k k' : Kernel} {p q : Proc} (h : k.Local k' p) (hq : q ≠ p) :
    k.Stirred k' q := by
  obtain ⟨hproc, hpool⟩ := h.others q hq
  exact .of_eq h.endpoints h.ringWaiterList_eq hpool hproc

/-- What came before a turn's end, at the seat of the tenant alone, is part of it. -/
theorem Ended.of_local {k k₁ k' : Kernel} {p : Proc} {ending : Ending} (h₁ : k.Local k₁ p)
    (h : k₁.Ended k' p ending) : k.Ended k' p ending :=
  ⟨h.toDropped.of_stirred h₁.endpoints fun _ hq => h₁.stirred hq, h.ring⟩

/-- **A flush** writes to the memory of one instance, and clears the record of it. -/
theorem flushMsgToLinmem_local (k : Kernel) (p : Proc) :
    k.Local (k.flushMsgToLinmem p) p ∧ (k.flushMsgToLinmem p).stateAt = k.stateAt ∧
      (k.flushMsgToLinmem p).msgRegsAt = k.msgRegsAt ∧
      ∀ slot, k.tier1Pool p = some slot → ∃ slot', (k.flushMsgToLinmem p).tier1Pool p = some slot' ∧
        slot'.parked = slot.parked ∧ slot'.pendingResume = slot.pendingResume := by
  have hsame : ∀ slot, k.tier1Pool p = some slot → ∃ slot', k.tier1Pool p = some slot' ∧
      slot'.parked = slot.parked ∧ slot'.pendingResume = slot.pendingResume :=
    fun slot hslot => ⟨slot, hslot, rfl, rfl⟩
  simp only [flushMsgToLinmem]
  split
  · exact ⟨.refl k p, rfl, rfl, hsame⟩
  · rename_i proc _
    split
    · exact ⟨.refl k p, rfl, rfl, hsame⟩
    · -- the record cleared, and from there at most the memory written
      have hlocal := k.local_modifyProcess p fun proc => { proc with msgBuf := noMsgBuf }
      have hstate := k.stateAt_modifyProcess_eq p
        (f := fun proc => { proc with msgBuf := noMsgBuf }) fun _ => rfl
      have hregs := k.msgRegsAt_modifyProcess_eq p
        (f := fun proc => { proc with msgBuf := noMsgBuf }) fun _ => rfl
      simp only [tier1Pool_modifyProcess]
      split
      · exact ⟨hlocal, hstate, hregs, hsame⟩
      · rename_i slot hslot
        split
        · exact ⟨hlocal, hstate, hregs, hsame⟩
        · split
          · exact ⟨hlocal, hstate, hregs, hsame⟩
          · rename_i memory _
            refine ⟨hlocal.trans (local_setInstance _ _ _), hstate, hregs, fun slot' hslot' => ?_⟩
            obtain rfl : slot = slot' := Option.some.inj (hslot.symm.trans hslot')
            refine ⟨{ slot with memory := some memory }, ?_, rfl, rfl⟩
            rw [tier1Pool_setInstance, if_pos rfl]

/-- `p` is entered: started, or resumed with the value it was left. -/
structure Entered (k k' : Kernel) (p : Proc) : Prop where
  seat : k.Local k' p
  state : k'.stateAt p = some .running
  regs : k'.msgRegsAt = k.msgRegsAt
  live : ∃ slot', k'.tier1Pool p = some slot' ∧ slot'.parked = false ∧
    ∀ slot, k.tier1Pool p = some slot →
      slot.parked = true ∧ slot'.pendingResume = slot.pendingResume

/-- **The beginning of a turn**: the tenant is entered, or it ends at once because it cannot be.
-/
theorem dispatch_effect {k : Kernel} {p : Proc} {s : ProcessState} (hp : k.stateAt p = some s)
    (image : Option (Option (List (BitVec 8)))) :
    k.Entered (k.dispatch p image) p ∨
      k.Ended (k.dispatch p image) p .faulted ∧
        ∀ slot, k.tier1Pool p = some slot → slot.parked = false := by
  have hrun : (k.setState p .running).stateAt p = some .running := by
    rw [stateAt_setState, if_pos rfl, hp]
    rfl
  have hseat : k.Local (k.setState p .running) p := k.local_modifyProcess p _
  simp only [dispatch]
  rcases hpool : k.tier1Pool p with _ | slot
  · -- not live: the module is loaded
    have hnone : (k.setState p .running).tier1Pool p = none := hpool
    have hlive : ¬ (k.setState p .running).isLive p = true := by
      rw [isLive, hnone]
      exact Bool.false_ne_true
    rw [if_neg hlive]
    rcases image with _ | memory
    · right
      rw [start]
      exact ⟨(finish_ended hrun .faulted).of_local hseat, nofun⟩
    · left
      rw [start]
      refine ⟨hseat.trans (local_setInstance _ _ _), hrun, k.msgRegsAt_setState p _,
        ⟨memory, false, 0⟩, ?_, rfl, fun slot hslot => ?_⟩
      · exact (tier1Pool_setInstance _ _ _ _).trans (if_pos rfl)
      · rw [hpool] at hslot
        cases hslot
  · have hsome : (k.setState p .running).tier1Pool p = some slot := hpool
    obtain ⟨hflush, hstate, hregs, hslot⟩ := (k.setState p .running).flushMsgToLinmem_local p
    obtain ⟨slot', hslot', hparked, hresume⟩ := hslot slot hsome
    have hlive : (k.setState p .running).isLive p = true := by
      rw [isLive, hsome]
      rfl
    rw [if_pos hlive, resume, hslot']
    simp only
    have hrun' : ((k.setState p .running).flushMsgToLinmem p).stateAt p = some .running := by
      rw [hstate, hrun]
    split
    · rename_i hpark
      left
      refine ⟨(hseat.trans hflush).trans (local_setInstance _ _ _), hrun',
        hregs.trans (k.msgRegsAt_setState p _), { slot' with parked := false }, ?_,
        rfl, fun slot₁ hslot₁ => ?_⟩
      · exact (tier1Pool_setInstance _ _ _ _).trans (if_pos rfl)
      · obtain rfl : slot = slot₁ := Option.some.inj (hpool.symm.trans hslot₁)
        exact ⟨hparked ▸ hpark, hresume⟩
    · rename_i hpark
      right
      refine ⟨(finish_ended hrun' .faulted).of_local (hseat.trans hflush),
        fun slot₁ hslot₁ => ?_⟩
      obtain rfl : slot = slot₁ := Option.some.inj hslot₁
      rw [← hparked]
      exact Bool.eq_false_iff.mpr hpark

/-- A turn whose tenant blocked parks its invocation. -/
theorem settleBlocked_of_blocked {k : Kernel} {p : Proc} {reason : BlockReason} {epIdx : BitVec 8}
    {slot : Tier1Slot} (hp : k.stateAt p = some (.blocked reason epIdx))
    (hslot : k.tier1Pool p = some slot) :
    k.settleBlocked p = k.setInstance p { slot with parked := true } := by
  rw [stateAt, Option.map_eq_some_iff] at hp
  obtain ⟨proc, hproc, hstate⟩ := hp
  have hblocked : proc.isBlocked = true := by
    rw [Process.isBlocked, hstate]
  simp only [settleBlocked, hslot, processes_setInstance, hproc, hblocked, if_true]

/-- A turn whose tenant yielded without having blocked ends with the tenant. -/
theorem settleBlocked_of_running {k : Kernel} {p : Proc} {slot : Tier1Slot}
    (hp : k.stateAt p = some .running) (hslot : k.tier1Pool p = some slot) :
    k.Dropped (k.settleBlocked p) p .faulted := by
  have hself : k.stateAt p = some .running := hp
  rw [stateAt, Option.map_eq_some_iff] at hp
  obtain ⟨proc, hproc, hstate⟩ := hp
  have hblocked : proc.isBlocked = false := by
    rw [Process.isBlocked, hstate]
  generalize hk₁ : ((k.setInstance p { slot with parked := true }).release p).setState p .faulted =
    k₁
  have hsettle : k.settleBlocked p = k₁.onTenantTerminated p := by
    rw [← hk₁]
    simp [settleBlocked, hslot, hproc, hblocked]
  have hstate₁ : k₁.stateAt p = some Ending.faulted.state := by
    rw [← hk₁]
    apply stateAt_setState_self
    change k.stateAt p ≠ none
    rw [hself]
    exact Option.some_ne_none _
  have hpool₁ : k₁.tier1Pool p = none := by
    rw [← hk₁]
    exact (tier1Pool_release _ p p).trans (if_pos rfl)
  have hbefore : ∀ q, q ≠ p → k.Stirred k₁ q := by
    intro q hq
    rw [← hk₁]
    apply ((k.local_setInstance p { slot with parked := true }).stirred hq).trans
    exact (release_stirred _ hq).trans (setState_stirred _ hq .faulted)
  have hendpoints : k₁.endpoint? = k.endpoint? := by
    rw [← hk₁]
    rfl
  rw [hsettle]
  exact (dropped_onTenantTerminated hstate₁ hpool₁).of_stirred hendpoints hbefore

end Kernel

/-! ## The machine

The scheduler's choice among the ready is left open, so that what is proved holds for any. -/

/-- What can happen next, in the loop or while a tenant runs. -/
inductive Turn where
  /-- a ready tenant is dispatched; if it has no instance yet, `image` is the memory its
  module exports, if the module loads. The module has no start section -/
  | dispatch (p : Proc) (image : Option (Option (List (BitVec 8))))
  /-- the running tenant computes: its memory is `memory` afterwards -/
  | compute (p : Proc) (memory : List (BitVec 8))
  /-- the running tenant calls an IPC operation -/
  | ipc (p : Proc) (op : Op) (slot msgPtr : BitVec 32)
  /-- the running tenant reads the audit stream -/
  | eventRead (p : Proc) (cursorLo cursorHi outPtr : BitVec 32)
  /-- the running tenant ends -/
  | finish (p : Proc) (ending : Ending)

namespace Kernel

/-- After a host function: a tenant it suspended has yielded. -/
def afterHostFn (p : Proc) : Option ℤ × Kernel → Kernel
  | (some _, k) => k
  | (none, k) => k.settleBlocked p

/-- One step of the system. Any ready tenant may be dispatched: the scheduler's
own pick is `pickNext`, the lowest. -/
def turn (k : Kernel) : Turn → Option Kernel
  | .dispatch p image =>
    if k.stateAt p = some .ready ∧ ∀ q, k.stateAt q ≠ some .running then
      some (k.dispatch p image)
    else none
  | .compute p memory =>
    match k.tier1Pool p with
    | some slot =>
      match slot.memory with
      | some old =>
        -- linear memory never shrinks
        if k.stateAt p = some .running ∧ old.length ≤ memory.length then
          some (k.setInstance p { slot with memory := some memory })
        else none
      | none => none
    | none => none
  | .ipc p op slot msgPtr =>
    if k.stateAt p = some .running then some (afterHostFn p (k.ipcImpl p op slot msgPtr)) else none
  | .eventRead p cursorLo cursorHi outPtr =>
    if k.stateAt p = some .running then
      some (afterHostFn p (k.eventReadImpl p cursorLo cursorHi outPtr))
    else none
  | .finish p ending => if k.stateAt p = some .running then some (k.finish p ending) else none

/-- Between turns, with nobody blocked, nobody queued, and nobody waiting for a record. -/
structure Idle (k : Kernel) : Prop where
  not_running : ∀ p, k.stateAt p ≠ some .running
  not_blocked : ∀ p reason epIdx, k.stateAt p ≠ some (.blocked reason epIdx)
  queue_nil : ∀ side e, k.queue side e = []
  ring_nil : k.ringWaiterList = []

end Kernel

/-- A kernel that is between turns, with nobody blocked. -/
abbrev IdleKernel : Type := { k : Kernel // k.Idle }

/-- The system of tenants, from any idle kernel. -/
def turnMachine : Machine Kernel Turn where
  init := Kernel.Idle
  step := Kernel.turn

end Wari
