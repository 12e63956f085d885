import Wari.Confinement
import Wari.Coherence

/-!
# The whole system

Tenants under the scheduler, their IPC and their capability syscalls, and the module
registry, as one machine from boot. A capability syscall is made by a process that
runs, or by a driver; one that is blocked is suspended in another host function.

What the machine does to capabilities comes in three kinds (`SystemEffect`): a syscall,
a step that leaves CSpaces and counts alone (`Mild`), and one that brings a module up.
-/

namespace Wari

open Lib (Machine Rendezvous)

/-! ## The machine

Everything a process or the outside can do, in any order. -/

/-- What can happen next: a turn, a capability syscall, or a call of the registry. -/
inductive SystemCall where
  /-- the scheduler and the tenants it runs -/
  | turn (t : Turn)
  /-- a capability syscall -/
  | cap (call : CapCall)
  /-- an envelope arrives -/
  | stage (bytes : List (BitVec 8))
  /-- a staged slot is spawned -/
  | spawn (slot : BitVec 8) (requested : GrantSpec) (restartBudget : BitVec 8)

/-- A process can make a syscall while it runs, and a driver at any time. -/
def Kernel.mayCall (k : Kernel) (procId : BitVec 8) : Bool :=
  match procIndex? procId with
  | none => false
  | some p => k.stateAt p == some .running || k.stateAt p == some .library

/-- One step of the system. A capability syscall is made by a process that may call. -/
def systemStep (ed25519 : Ed25519) (k : Kernel) : SystemCall → Option Kernel
  | .turn t => k.turn t
  | .cap call =>
    if k.mayCall call.procId then
      (capStep k.caps call).map fun out => { k with caps := out.2 }
    else none
  | .stage bytes => some (k.stage bytes).2
  | .spawn slot requested restartBudget =>
    some (k.spawnInner ed25519 slot requested restartBudget).2

/-- The system from boot on, in any order of steps. -/
def systemMachine (ed25519 : Ed25519) (board : Board) : Machine Kernel SystemCall where
  init k := k = Kernel.booted board
  step := systemStep ed25519

namespace Kernel

/-! ## Steps that leave CSpaces and counts alone

IPC and the scheduler move messages and states, and no capability. -/

/-- No slot changes, no object is allocated, freed or counted anew, and no process comes or
goes. -/
structure Mild (k k' : Kernel) : Prop where
  cspaces : k'.caps.cspaces = k.caps.cspaces
  eps : k'.caps.bootTier1Eps = k.caps.bootTier1Eps
  counts : ∀ kind i, k'.caps.objectPools.refcount? kind i = k.caps.objectPools.refcount? kind i
  processes : ∀ q, k'.processes q = none ↔ k.processes q = none

section Mild

variable {k k₁ k₂ : Kernel}

theorem Mild.refl (k : Kernel) : k.Mild k := ⟨rfl, rfl, fun _ _ => rfl, fun _ => Iff.rfl⟩

theorem Mild.trans (h₁ : k.Mild k₁) (h₂ : k₁.Mild k₂) : k.Mild k₂ :=
  ⟨h₂.cspaces.trans h₁.cspaces, h₂.eps.trans h₁.eps,
    fun kind i => (h₂.counts kind i).trans (h₁.counts kind i),
    fun q => (h₂.processes q).trans (h₁.processes q)⟩

theorem Quiet.mild (h : k.Quiet k₁) : k.Mild k₁ := by
  refine ⟨?_, ?_, fun kind i => ?_, h.processes_eq_none⟩
  · rw [h.caps]
  · rw [h.caps]
  · rw [h.caps]

theorem Mild.capAt (h : k.Mild k₁) : k₁.caps.capAt = k.caps.capAt := by
  funext a
  rw [CapState.capAt, CapState.capAt, h.cspaces]

theorem Mild.genAt (h : k.Mild k₁) : k₁.caps.genAt = k.caps.genAt := by
  funext a
  rw [CapState.genAt, CapState.genAt, h.cspaces]

/-- What leaves the capability state alone, and every process in the table. -/
theorem Mild.of_caps (hcaps : k₁.caps = k.caps)
    (hprocs : ∀ q, k₁.processes q = none ↔ k.processes q = none) : k.Mild k₁ := by
  refine ⟨?_, ?_, fun kind i => ?_, hprocs⟩
  · rw [hcaps]
  · rw [hcaps]
  · rw [hcaps]

theorem mild_modifyProcess (k : Kernel) (p : Proc) (f : Process → Process) :
    k.Mild (k.modifyProcess p f) := by
  refine .of_caps rfl fun q => ?_
  rw [processes_modifyProcess]
  split
  · rename_i hq
    rw [Option.map_eq_none_iff]
  · rfl

theorem mild_setInstance (k : Kernel) (p : Proc) (slot : Tier1Slot) :
    k.Mild (k.setInstance p slot) :=
  .of_caps rfl fun _ => Iff.rfl

theorem mild_release (k : Kernel) (p : Proc) : k.Mild (k.release p) :=
  .of_caps rfl fun _ => Iff.rfl

theorem mild_deliverAndWake (k : Kernel) (p : Proc) (msg : Option MsgRegs) (rc : ℤ) :
    k.Mild (k.deliverAndWake p msg rc) := by
  have hwake : ∀ k₁ : Kernel, k₁.Mild ((k₁.setResumeValue p rc).wake p) := by
    intro k₁
    have hresume : k₁.Mild (k₁.setResumeValue p rc) := .of_caps rfl fun _ => Iff.rfl
    exact hresume.trans (mild_modifyProcess _ p _)
  cases msg with
  | none => exact hwake k
  | some regs => exact (k.mild_modifyProcess p _).trans (hwake _)

/-- A write to a queue changes no count. -/
theorem mild_setQueue (k : Kernel) (side : Side) (e : ℕ) (que : BoundedQueue TcbRef 8) :
    k.Mild (k.setQueue side e que) := by
  refine ⟨rfl, rfl, fun kind i => ?_, fun _ => Iff.rfl⟩
  have hget : (k.setQueue side e que).caps.objectPools.endpoints.get i =
      if i = e then (k.caps.objectPools.endpoints.get e).map fun ep => ep.setQueue side que
      else k.caps.objectPools.endpoints.get i :=
    Pool.get_modify _ _ _ _
  cases kind with
  | endpoint =>
    simp only [ObjectPools.refcount?, ObjectPools.object?, hget]
    split
    · rename_i hi
      subst hi
      rcases k.caps.objectPools.endpoints.get i with _ | ep
      · rfl
      · cases side <;> rfl
    · rfl
  | _ => rfl

/-- **An IPC operation** moves no capability, and registers nobody. -/
theorem IpcEffect.mild {p : Proc} {slot msgPtr : BitVec 32} {op : Op} {rc : Option ℤ}
    (h : IpcEffect k p slot msgPtr op (rc, k₁)) : k.Mild k₁ := by
  cases h with
  | refused => exact .refl k
  | full => exact k.mild_modifyProcess p _
  | sent =>
    apply (k.mild_modifyProcess p _).trans
    exact (mild_setQueue _ _ _ _).trans (mild_deliverAndWake _ _ _ _)
  | called =>
    apply (k.mild_modifyProcess p _).trans
    apply (mild_setQueue _ _ _ _).trans
    exact (mild_deliverAndWake _ _ _ _).trans (mild_modifyProcess _ p _)
  | queued =>
    apply (k.mild_modifyProcess p _).trans
    exact (mild_setQueue _ _ _ _).trans (mild_modifyProcess _ p _)
  | received =>
    apply (k.mild_setQueue _ _ _).trans
    exact (mild_setInstance _ _ _).trans (mild_deliverAndWake _ _ _ _)
  | receivedCall =>
    apply (k.mild_setQueue _ _ _).trans
    exact (mild_setInstance _ _ _).trans (mild_modifyProcess _ _ _)
  | dropped => exact k.mild_setQueue _ _ _
  | awaited => exact (k.mild_setQueue _ _ _).trans (mild_modifyProcess _ p _)
  | replied => exact k.mild_deliverAndWake _ _ _

theorem returnEvent_mild (k : Kernel) (p : Proc) (outPtr : BitVec 32) (e : Event) (rc : ℤ) :
    k.Mild (k.returnEvent p outPtr e rc).2 := by
  simp only [returnEvent]
  rcases hwrite : k.writeMemory p outPtr (encodeEvent e) with rc' | k'
  · exact .refl k
  · obtain ⟨slot, memory, -, rfl⟩ := writeMemory_ok hwrite
    exact k.mild_setInstance p _

theorem eventReadImpl_mild (k : Kernel) (p : Proc) (cursorLo cursorHi outPtr : BitVec 32) :
    k.Mild (k.eventReadImpl p cursorLo cursorHi outPtr).2 := by
  simp only [eventReadImpl]
  split
  · exact .refl k
  · split
    · rcases hreg : k.registerWaiter p with _ | k'
      · exact .refl k
      · obtain ⟨⟨events, rfl⟩, -⟩ := registerWaiter_ok hreg
        have hevents : k.Mild { k with events := events } := .of_caps rfl fun _ => Iff.rfl
        exact hevents.trans (mild_modifyProcess _ p _)
    · exact k.returnEvent_mild p outPtr _ 0
    · exact k.returnEvent_mild p outPtr _ 2

end Mild

/-! ## What a turn brings up

The end of a daemon's instance may bring up the next. -/

/-- A step that leaves CSpaces and counts alone, and then brings a module up, or not. -/
def MildBrings (k k' : Kernel) : Prop := ∃ k₁ o, k.Mild k₁ ∧ k₁.Brings o k'

section Brings

variable {k k₁ k' : Kernel}

theorem Mild.brings (h : k.Mild k') : k.MildBrings k' := ⟨k', none, h, .refl k'⟩

theorem Mild.then_brings {o : Option (Proc × GrantSpec)} (h₁ : k.Mild k₁) (h₂ : k₁.Brings o k') :
    k.MildBrings k' :=
  ⟨k₁, o, h₁, h₂⟩

theorem settleBlocked_brings (k : Kernel) (p : Proc) : k.MildBrings (k.settleBlocked p) := by
  simp only [settleBlocked]
  split
  · exact (Mild.refl k).then_brings (k.finish_brings p .faulted)
  · rename_i slot _
    have hpark := k.mild_setInstance p { slot with parked := true }
    split
    · exact hpark.brings
    · split
      · exact hpark.brings
      · have hrelease := hpark.trans (mild_release _ p)
        exact (hrelease.trans (mild_modifyProcess _ p _)).then_brings
          (onTenantTerminated_brings _ p)

theorem afterHostFn_brings {p : Proc} {rc : Option ℤ} (h : k.Mild k₁) :
    k.MildBrings (afterHostFn p (rc, k₁)) := by
  cases rc with
  | some rc => exact h.brings
  | none =>
    obtain ⟨k₂, o, hmild, hbrings⟩ := k₁.settleBlocked_brings p
    exact (h.trans hmild).then_brings hbrings

theorem flushMsgToLinmem_mild (k : Kernel) (p : Proc) : k.Mild (k.flushMsgToLinmem p) := by
  simp only [flushMsgToLinmem]
  split
  · exact .refl k
  · split
    · exact .refl k
    · have hclear := k.mild_modifyProcess p fun proc => { proc with msgBuf := noMsgBuf }
      split
      · exact hclear
      · split
        · exact hclear
        · split
          · exact hclear
          · exact hclear.trans (mild_setInstance _ p _)

theorem dispatch_brings (k : Kernel) (p : Proc) (image : Option (Option (List (BitVec 8)))) :
    k.MildBrings (k.dispatch p image) := by
  have hrun : k.Mild (k.setState p .running) := k.mild_modifyProcess p _
  simp only [dispatch]
  split
  · have hflush := hrun.trans (flushMsgToLinmem_mild _ p)
    simp only [resume]
    split
    · exact hflush.then_brings (finish_brings _ p .faulted)
    · split
      · exact (hflush.trans (mild_setInstance _ p _)).brings
      · exact hflush.then_brings (finish_brings _ p .faulted)
  · simp only [start]
    split
    · exact hrun.then_brings (finish_brings _ p .faulted)
    · exact (hrun.trans (mild_setInstance _ p _)).brings

/-- **What a turn brings up**: nothing, or a daemon in the place of one that ended. -/
theorem turn_brings {t : Turn} (h : k.turn t = some k') : k.MildBrings k' := by
  rcases turn_cases h with ⟨p, image, rfl, -, rfl⟩ | ⟨p, memory, slot, rfl, -, -, rfl⟩ |
    ⟨p, op, slot, msgPtr, rfl, -, rfl⟩ | ⟨p, lo, hi, ptr, rfl, -, rfl⟩ |
    ⟨p, ending, rfl, -, rfl⟩
  · exact k.dispatch_brings p image
  · exact (k.mild_setInstance p _).brings
  · have heffect := k.ipcImpl_effect p op slot msgPtr
    generalize k.ipcImpl p op slot msgPtr = out at heffect ⊢
    exact afterHostFn_brings heffect.mild
  · exact afterHostFn_brings (k.eventReadImpl_mild p lo hi ptr)
  · exact (Mild.refl k).then_brings (k.finish_brings p ending)

end Brings

/-! ## Steps that take no cap away

Only capability syscalls do, so all other steps can be treated alike. -/

section Grows

variable {k k' : Kernel}

theorem Mild.tidy (h : k.Mild k') (htidy : Tidy k) : Tidy k' := by
  refine ⟨h.eps.trans htidy.eps, fun p hp s => ?_⟩
  rw [h.capAt]
  exact htidy.unused p ((h.processes p).mp hp) s

theorem Mild.table (h : k.Mild k') (htable : k.caps.ParentsInTable) : k'.caps.ParentsInTable := by
  intro a
  rw [h.capAt]
  exact htable a

/-- What a step that takes no cap away keeps. -/
structure Grows (k k' : Kernel) : Prop where
  tidy : Tidy k'
  table : k'.caps.ParentsInTable
  counts : ∀ kind i, k'.caps.objectPools.refcount? kind i = k.caps.objectPools.refcount? kind i
  caps : ∀ a, (k.caps.capAt a).isEmpty = false → k'.caps.capAt a = k.caps.capAt a

/-- **A turn or a spawn** takes no capability away, and counts none up or down. -/
theorem MildBrings.grows (h : k.MildBrings k') (htidy : Tidy k)
    (htable : k.caps.ParentsInTable) : k.Grows k' := by
  obtain ⟨k₁, o, hmild, hbrings⟩ := h
  have htidy₁ := hmild.tidy htidy
  have htable₁ := hmild.table htable
  rcases o with _ | ⟨p, granted⟩
  · have hmild' : k.Mild k' := hmild.trans (Quiet.mild hbrings)
    exact ⟨hmild'.tidy htidy, hmild'.table htable, hmild'.counts, fun a _ => by rw [hmild'.capAt]⟩
  · have hinst : k₁.Installed k' p granted := hbrings
    obtain ⟨hcap, hpools, heps⟩ := hinst.capAt htidy₁.eps
    refine ⟨⟨heps, fun q hq s => ?_⟩, fun a hocc hroot => ?_, fun kind i => ?_, fun a hocc => ?_⟩
    · obtain ⟨hne, hfree⟩ := hinst.processes_eq_none.mp hq
      rw [hcap, if_neg hne]
      exact htidy₁.unused q hfree s
    · rw [hcap] at hocc hroot ⊢
      by_cases hp : a.1 = p
      · rw [if_pos hp, grantTable_parent] at hroot
        cases hroot
      · rw [if_neg hp] at hocc hroot ⊢
        exact htable₁ a hocc hroot
    · rw [hpools]
      exact hmild.counts kind i
    · -- the process brought up had no caps
      have hne : a.1 ≠ p := by
        rintro rfl
        rw [← hmild.capAt, htidy₁.unused a.1 hinst.free a.2] at hocc
        cases hocc
      rw [hcap, if_neg hne, hmild.capAt]

/-- What is kept is named as often as before, or more often. -/
theorem Grows.names_le (h : k.Grows k') {kind : ObjectKind} (hk : kind ≠ .empty) (i : ℕ) :
    k.caps.names kind i ≤ k'.caps.names kind i := by
  rw [CapState.names, CapState.names]
  refine Finset.card_le_card fun a ha => ?_
  simp only [Finset.mem_filter, Finset.mem_univ, true_and] at ha ⊢
  have hocc : (k.caps.capAt a).isEmpty = false := Cap.isEmpty_eq_false_iff.mpr (ha.1 ▸ hk)
  rw [h.caps a hocc]
  exact ha

end Grows

/-! ## The registry and the seats

What the registry does to seats: it brings a process up where there was none, and wakes whoever
waits for a record. -/

section Stirred

variable {k k' : Kernel}

theorem stage_stirred (k : Kernel) (bytes : List (BitVec 8)) (q : Proc) :
    k.Stirred (k.stage bytes).2 q := by
  have hsame : k.Stirred k q := .of_eq rfl rfl rfl rfl
  rw [stage]
  split
  · exact hsame
  · split
    · exact hsame
    · apply Stirred.trans _ (emit_stirred _ _ _ _ q)
      exact .of_eq rfl rfl rfl rfl

theorem spawnInner_stirred (ed25519 : Ed25519) (k : Kernel) (slot : BitVec 8)
    (requested : GrantSpec) (restartBudget : BitVec 8) (q : Proc) :
    k.Stirred (k.spawnInner ed25519 slot requested restartBudget).2 q := by
  have hsame : k.Stirred k q := .of_eq rfl rfl rfl rfl
  have hslot : ∀ (k₁ : Kernel) (i : Fin dynSlots) (s : SlotState), k₁.Stirred (k₁.setSlot i s) q :=
    fun k₁ i s => .of_eq rfl rfl rfl rfl
  rw [spawnInner]
  split
  · rename_i hidx
    simp only
    rcases k.modreg.slots ⟨slot.toNat, hidx⟩ with _ | envLen | _
    · exact hsame
    · simp only
      rcases verify ed25519 (k.envelope ⟨slot.toNat, hidx⟩ envLen) with e | payload
      · exact (emit_stirred _ _ _ _ q).trans (hslot _ _ _)
      · rcases k.allocProcId with e | r
        · exact hsame
        · simp only
          rcases hcaps : installTier1Grants k.caps (procByte r)
              (requested.attenuate dynamicCeiling) with e | caps
          · exact hsame
          · obtain ⟨-, -, -, -, -, -, -, hpools, -⟩ := installTier1Grants_ok hcaps
            have hget : Kernel.endpoint? { k with caps := caps } = k.endpoint? :=
              congrArg (fun pools => pools.endpoints.get) hpools
            have hinstalled : k.Stirred { k with caps := caps } q := .of_eq hget rfl rfl rfl
            simp only
            -- the audit record of a denied grant, if there is one
            generalize hk₁ : (if (requested.denied (requested.attenuate dynamicCeiling)).isEmpty
              then ({ k with caps := caps } : Kernel) else _) = k₁
            have hrecord : k.Stirred k₁ q := by
              rw [← hk₁]
              split
              · exact hinstalled
              · exact hinstalled.trans (emit_stirred _ _ _ _ q)
            rcases hreg : k₁.registerTenant (procByte r) .one (.dynamic slot) with e | k₂
            · exact hrecord
            · apply (hrecord.trans (registerTenant_stirred hreg q)).trans
              exact (hslot _ _ _).trans (emit_stirred _ _ _ _ q)
    · exact hsame
  · exact hsame

/-- **What stirs everyone** at most leaves everyone seated, and touches no rendezvous. -/
theorem Stirred.seated (h : ∀ q, k.Stirred k' q) (hseat : k.Seated) :
    k'.Seated ∧ k'.rendezvous = k.rendezvous := by
  refine ⟨⟨fun q hq => ?_, fun q reason epIdx hq => ?_, fun q hq => (h q).eventWait hseat hq⟩,
    rendezvous_congr (h 0).endpoints fun q => (h q).wait hseat⟩
  · obtain ⟨hrun, hpool⟩ := (h q).same hseat hq (by decide)
    rw [hpool]
    exact hseat.running q hrun
  · obtain ⟨hblocked, hpool⟩ := (h q).same hseat hq (by simp)
    rw [hpool]
    exact hseat.parked q reason epIdx hblocked

end Stirred

end Kernel

end Wari
