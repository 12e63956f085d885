import Wari.Submission
import Wari.Cascade
import Wari.History

/-!
# Stale handles

A registered handle records the generation of its slot, and is refused once the slot has
another. Removing the capability is meant to see to that. It does as long as the slot is
not left at a generation that one of its handles recorded: a generation stops at the
largest `u16`, where removals leave it as it is, and `net_socket_close` wraps it around.
-/

namespace Wari

open Lib (Machine Chain Goes)

/-! ## The kernel with its fast path

The observer knows for which slot a handle was issued, and learns of every removal from the
tables. Neither is read by the fast path. -/

/-- What can happen to handles and to what they name. -/
inductive FastCall where
  /-- a step of the kernel -/
  | kernel (call : KernelCall)
  /-- `cap_register` -/
  | register (procId : BitVec 8) (cspaceSlot : BitVec 32)
  /-- `cap_unregister` -/
  | unregister (procId : BitVec 8) (regIdx : BitVec 32)
  /-- `ring_setup` -/
  | setup (procId : BitVec 8) (sqPtr cqPtr entries : BitVec 32)
  /-- `ring_submit`, with the memory the caller exports then -/
  | submit (procId : BitVec 8) (n : BitVec 32) (memory : Option (List (BitVec 8)))
  /-- `notification_ack` -/
  | ack (procId : BitVec 8) (slot : BitVec 32)
  /-- an interrupt signals the notification at `index` -/
  | interrupt (index : ℕ) (bit : BitVec 32)

/-- What an observer knows of a handle: the slot it was obtained for, and whether the
capability that was in it has been removed since. -/
structure Issued where
  slot : Slot
  gone : Bool

/-- The kernel, the tables of the fast path, and what was issued. -/
structure FastKernel where
  kernel : Kernel
  /-- one registered-resource table for each process -/
  regTables : Proc → RegTable
  /-- one ring for each process -/
  ringDescriptors : Proc → RingDesc
  /-- what was issued under each handle last -/
  issued : Proc → Fin regSlots → Option Issued

namespace FastKernel

/-- The state that the fast path works on, as a part of the whole. -/
def fastpath (s : FastKernel) : Fastpath := ⟨s.kernel.caps, s.regTables, s.ringDescriptors⟩

/-- What the fast path leaves, put back into the whole. -/
def after (s : FastKernel) (f : Fastpath) : FastKernel :=
  { s with
    kernel := { s.kernel with caps := f.caps }
    regTables := f.regTables
    ringDescriptors := f.ringDescriptors }

/-- A slot that held a capability is empty. -/
def noteRemovals (s : FastKernel) (k : Kernel) : FastKernel :=
  { s with
    kernel := k
    issued := fun p i => (s.issued p i).map fun h =>
      { h with
        gone := h.gone ||
          (!(s.kernel.caps.capAt (p, h.slot)).isEmpty && (k.caps.capAt (p, h.slot)).isEmpty) } }

theorem issued_noteRemovals (s : FastKernel) (k : Kernel) (p : Proc) (i : Fin regSlots) :
    (s.noteRemovals k).issued p i = (s.issued p i).map fun h =>
      { h with
        gone := h.gone ||
          (!(s.kernel.caps.capAt (p, h.slot)).isEmpty && (k.caps.capAt (p, h.slot)).isEmpty) } :=
  rfl

/-- A handle is issued where `cap_register` returns one. -/
def noteIssue (s : FastKernel) (procId : BitVec 8) (cspaceSlot : BitVec 32) (r : ℤ) :
    FastKernel :=
  match procIndex? procId, slotArg? cspaceSlot, regArg? (BitVec.ofInt 32 r) with
  | some p, some slot, some i =>
    { s with issued :=
        Function.update s.issued p (Function.update (s.issued p) i (some ⟨slot, false⟩)) }
  | _, _, _ => s

/-- One step of the kernel or of the fast path, with a note of the handles issued and of the
capabilities removed. -/
def step (ed25519 : Ed25519) (s : FastKernel) : FastCall → Option FastKernel
  | .kernel call => (kernelStep ed25519 s.kernel call).map s.noteRemovals
  | .register procId cspaceSlot =>
    let out := s.fastpath.capRegisterImpl procId cspaceSlot
    some ((s.after out.2).noteIssue procId cspaceSlot out.1)
  | .unregister procId regIdx => some (s.after (s.fastpath.capUnregisterImpl procId regIdx).2)
  | .setup procId sqPtr cqPtr entries =>
    some (s.after (s.fastpath.ringSetupImpl procId sqPtr cqPtr entries).2)
  | .submit procId n memory => some (s.after (s.fastpath.ringSubmitImpl procId n memory).2.2)
  | .ack procId slot =>
    some (s.after { s.fastpath with caps := (notificationAckImpl s.kernel.caps procId slot).2 })
  | .interrupt index bit =>
    some (s.after { s.fastpath with
      caps := s.kernel.caps.modifyNotification index fun notif =>
        { notif with signals := notif.signals ||| bit } })

/-- From boot: no handle is issued, and no ring is set up. -/
def booted (board : Board) : FastKernel :=
  ⟨.booted board, fun _ => .new, fun _ => .empty, fun _ _ => none⟩

end FastKernel

/-- The kernel with its fast path, from boot on. -/
def fastMachine (ed25519 : Ed25519) (board : Board) : Machine FastKernel FastCall where
  init s := s = .booted board
  step := FastKernel.step ed25519

/-! ## What is claimed of stale handles

A handle is stale when the capability it was issued for is gone, whatever is in the slot now. -/

/-- No entry a batch reaches succeeds through a handle whose capability is gone. -/
def RefusesStale (s : FastKernel) (call : FastCall) (_ : FastKernel) : Prop :=
  ∀ procId n bytes p i t sqe idx h, call = .submit procId n (some bytes) →
    procIndex? procId = some p → s.fastpath.Reaches p n bytes i t sqe →
    regArg? sqe.regIdx = some idx → s.issued p idx = some h → h.gone = true →
    (t.2.dispatch p sqe).1 < 0

/-- No slot the call empties is left at a generation that a handle of the slot recorded. -/
def NoReissue (s : FastKernel) (call : FastCall) : Prop :=
  ∀ c p i, call = .kernel (.cap c) → ((s.regTables p).slots i).isEmpty = false →
    Vacates s.kernel.caps c (p, slotIndex ((s.regTables p).slots i).cspaceSlot) →
    ((s.regTables p).slots i).regGeneration ≠
      bumpOf c (s.kernel.caps.genAt (p, slotIndex ((s.regTables p).slots i).cspaceSlot))

/-! ## The fast path leaves slots alone

Registering, unregistering and draining change tables of their own and the signals of
notifications, but no slot and no generation. -/

namespace Fastpath

variable {f f' : Fastpath} {p : Proc}

/-- Same slots and generations, same handles and rings. -/
structure SameTables (f f' : Fastpath) : Prop where
  cspaces : f'.caps.cspaces = f.caps.cspaces
  eps : f'.caps.bootTier1Eps = f.caps.bootTier1Eps
  regTables : f'.regTables = f.regTables
  ringDescriptors : f'.ringDescriptors = f.ringDescriptors

theorem SameTables.refl (f : Fastpath) : f.SameTables f := ⟨rfl, rfl, rfl, rfl⟩

theorem SameTables.trans {g : Fastpath} (h : f.SameTables f') (h' : f'.SameTables g) :
    f.SameTables g :=
  ⟨h'.cspaces.trans h.cspaces, h'.eps.trans h.eps, h'.regTables.trans h.regTables,
    h'.ringDescriptors.trans h.ringDescriptors⟩

theorem SameTables.ack (f : Fastpath) (b : BitVec 8) (slot : BitVec 32) :
    f.SameTables { f with caps := (notificationAckImpl f.caps b slot).2 } := by
  rcases notificationAckImpl_cases f.caps b slot with ⟨rc, h, -⟩ | ⟨j, notif, -, -, h⟩ <;>
  · rw [h]
    exact ⟨rfl, rfl, rfl, rfl⟩

theorem SameTables.dispatch (f : Fastpath) (p : Proc) (sqe : Sqe) :
    f.SameTables (f.dispatch p sqe).2 := by
  rcases f.dispatch_cases p sqe with ⟨r, h, -⟩ | ⟨i, r, caps, -, -, -, hdirect, h⟩
  · rw [h]
    exact .refl f
  · rw [h]
    rw [CapState.direct] at hdirect
    split at hdirect
    · obtain ⟨-, rfl⟩ := Prod.mk.inj (Option.some.inj hdirect)
      exact .refl f
    · split at hdirect
      · have hack := SameTables.ack f (procByte p)
          (((f.regTables p).slots i).cspaceSlot.setWidth 32)
        rwa [Option.some.inj hdirect] at hack
      · cases hdirect

theorem SameTables.of_entry {desc : RingDesc} {i : ℕ} {s t : Drained}
    (h : drainEntry p desc i s = .ok t ∨ drainEntry p desc i s = .error t) :
    s.2.SameTables t.2 := by
  rcases h with h | h
  · rw [drainEntry] at h
    split at h
    · cases h
    · split at h
      · cases h
      · simp only at h
        split at h
        · cases h
        · obtain rfl := Except.ok.inj h
          exact .dispatch s.2 p _
  · rcases drainEntry_error h with rfl | ⟨buf, sqe, -, -, -, rfl⟩
    · exact .refl t.2
    · exact .dispatch s.2 p sqe

theorem SameTables.of_chain {desc : RingDesc} {k : ℕ} {s t : Drained}
    (h : Chain (Goes (drainEntry p desc)) s k t) : s.2.SameTables t.2 := by
  induction h with
  | zero => exact .refl s.2
  | succ _ hstep ih => exact ih.trans (.of_entry (.inl hstep))

theorem SameTables.submit (f : Fastpath) (b : BitVec 8) (n : BitVec 32)
    (memory : Option (List (BitVec 8))) : f.SameTables (f.ringSubmitImpl b n memory).2.2 := by
  rw [ringSubmitImpl]
  split
  · exact .refl f
  · rename_i p _
    simp only
    split
    · exact .refl f
    · split
      · exact .refl f
      · rename_i bytes
        simp only
        generalize hbatch : Lib.batch (drainEntry p (f.ringDescriptors p)) _ (bytes, f) = out
        obtain ⟨k, u⟩ := out
        obtain ⟨v, hchain, hend⟩ := Lib.batch_spec hbatch
        have hsame := SameTables.of_chain hchain
        rcases hend with ⟨-, rfl⟩ | ⟨-, hbreak⟩
        · exact hsame
        · exact hsame.trans (.of_entry (.inr hbreak))

/-- A handle whose generation is not its slot's is refused. -/
theorem dispatch_of_stale {sqe : Sqe} {i : Fin regSlots} (hi : regArg? sqe.regIdx = some i)
    (hstale : ((f.regTables p).slots i).isEmpty = false →
      ((f.regTables p).slots i).regGeneration ≠
        f.caps.genAt (p, slotIndex ((f.regTables p).slots i).cspaceSlot)) :
    (f.dispatch p sqe).1 < 0 := by
  rcases f.dispatch_cases p sqe with ⟨r, h, hr⟩ | ⟨i', r, caps, hi', hkind, hgen, -, -⟩
  · rw [h]
    rcases hr with rfl | rfl
    · exact ePerm_neg
    · exact eInval_neg
  · obtain rfl := Option.some.inj (hi.symm.trans hi')
    have hlive : ((f.regTables p).slots i).isEmpty = false := by
      rw [RegEntry.isEmpty, hkind]
      rfl
    exact absurd hgen.symm (hstale hlive)

end Fastpath

/-! ## Runs

Only capability syscalls and installations move generations. Where a removal leaves its slot at a
generation that some handle recorded, that handle is as good as fresh. -/

/-- What a run that reissues no generation keeps: a live handle is of the slot it was issued for,
and if the capability it was issued for is gone, of another generation. The second is what
`validate_handle` checks. -/
structure FastInv (s : FastKernel) : Prop where
  tidy : Tidy s.kernel
  table : s.kernel.caps.ParentsInTable
  unused : ∀ p, s.kernel.processes p = none → ∀ i, ((s.regTables p).slots i).isEmpty = true
  live : ∀ p i, ((s.regTables p).slots i).isEmpty = false → ∃ h, s.issued p i = some h ∧
    slotIndex ((s.regTables p).slots i).cspaceSlot = h.slot ∧
    (h.gone = true → ((s.regTables p).slots i).regGeneration ≠ s.kernel.caps.genAt (p, h.slot))

namespace FastInv

variable {s : FastKernel}

theorem booted (board : Board) : FastInv (.booted board) :=
  ⟨tidy_booted board, parentsInTable_bootState board, fun _ _ _ => rfl, nofun⟩

/-- A batch of a kept state refuses stale handles. -/
theorem refusesStale (h : FastInv s) (call : FastCall) (s' : FastKernel) :
    RefusesStale s call s' := by
  intro procId n bytes p i t sqe idx issued _ _ hreaches hidx hissued hgone
  have hsame := Fastpath.SameTables.of_chain hreaches.chain
  have hregs : t.2.regTables = s.regTables := hsame.regTables
  have hgens : t.2.caps.cspaces = s.kernel.caps.cspaces := hsame.cspaces
  apply Fastpath.dispatch_of_stale hidx
  rw [hregs, CapState.genAt, hgens]
  intro hlive
  obtain ⟨issued', hissued', hslot, hstale⟩ := h.live p idx hlive
  obtain rfl := Option.some.inj (hissued.symm.trans hissued')
  rw [hslot]
  exact hstale hgone

/-- What leaves slots, handles and processes alone keeps the invariant. -/
theorem after {f : Fastpath} (h : FastInv s) (hf : s.fastpath.SameTables f) :
    FastInv (s.after f) := by
  have hcs : f.caps.cspaces = s.kernel.caps.cspaces := hf.cspaces
  have hcap : ∀ a, f.caps.capAt a = s.kernel.caps.capAt a := fun a => by
    rw [CapState.capAt, CapState.capAt, hcs]
  have hgen : ∀ a, f.caps.genAt a = s.kernel.caps.genAt a := fun a => by
    rw [CapState.genAt, CapState.genAt, hcs]
  have hregs : f.regTables = s.regTables := hf.regTables
  refine ⟨⟨hf.eps.trans h.tidy.eps, fun p hp t => ?_⟩, fun a hocc hroot => ?_, fun p hp i => ?_,
    fun p i hlive => ?_⟩
  · change (f.caps.capAt (p, t)).isEmpty = true
    rw [hcap]
    exact h.tidy.unused p hp t
  · change (f.caps.capAt a).isEmpty = false at hocc
    change (f.caps.capAt a).parent.isRoot = false at hroot
    change ∃ b, (f.caps.capAt a).parent.place? = some b
    rw [hcap] at hocc hroot ⊢
    exact h.table a hocc hroot
  · change ((f.regTables p).slots i).isEmpty = true
    rw [hregs]
    exact h.unused p hp i
  · change ((f.regTables p).slots i).isEmpty = false at hlive
    change ∃ issued, s.issued p i = some issued ∧
      slotIndex ((f.regTables p).slots i).cspaceSlot = issued.slot ∧ (issued.gone = true →
        ((f.regTables p).slots i).regGeneration ≠ f.caps.genAt (p, issued.slot))
    rw [hregs] at hlive ⊢
    simp only [hgen]
    exact h.live p i hlive

/-- One entry of a table is written: it is free, or issued to a process in the table. -/
theorem setReg (h : FastInv s) {p : Proc} {i : Fin regSlots} {entry : RegEntry}
    {issued : Proc → Fin regSlots → Option Issued}
    (hentry : entry.isEmpty = true ∨ s.kernel.processes p ≠ none ∧
      issued p i = some ⟨slotIndex entry.cspaceSlot, false⟩)
    (hothers : ∀ q j, ¬ (q = p ∧ j = i) → issued q j = s.issued q j) :
    FastInv { s.after (s.fastpath.setReg p i entry) with issued := issued } := by
  refine ⟨h.tidy, h.table, fun q hq j => ?_, fun q j hlive => ?_⟩
  · change (((s.fastpath.setReg p i entry).regTables q).slots j).isEmpty = true
    rw [Fastpath.slots_setReg]
    split
    · rename_i heq
      rcases hentry with hfree | ⟨hproc, -⟩
      · exact hfree
      · exact absurd (heq.1 ▸ hq) hproc
    · exact h.unused q hq j
  · change (((s.fastpath.setReg p i entry).regTables q).slots j).isEmpty = false at hlive
    change ∃ h', issued q j = some h' ∧
      slotIndex (((s.fastpath.setReg p i entry).regTables q).slots j).cspaceSlot = h'.slot ∧
      (h'.gone = true → (((s.fastpath.setReg p i entry).regTables q).slots j).regGeneration ≠
        s.kernel.caps.genAt (q, h'.slot))
    rw [Fastpath.slots_setReg] at hlive ⊢
    by_cases heq : q = p ∧ j = i
    · rw [if_pos heq] at hlive ⊢
      rcases hentry with hfree | ⟨-, hissued⟩
      · rw [hfree] at hlive
        cases hlive
      · rw [heq.1, heq.2]
        exact ⟨_, hissued, rfl, fun hgone => absurd hgone Bool.false_ne_true⟩
    · rw [if_neg heq] at hlive ⊢
      rw [hothers q j heq]
      exact h.live q j hlive

/-- A handle is dropped, and what is known of the others stays true. -/
theorem unregister (h : FastInv s) (procId : BitVec 8) (regIdx : BitVec 32) :
    FastInv (s.after (s.fastpath.capUnregisterImpl procId regIdx).2) := by
  rw [Fastpath.capUnregisterImpl]
  split
  · exact h.after (.refl _)
  · split
    · exact h.after (.refl _)
    · exact h.setReg (.inl rfl) fun _ _ _ => rfl

/-- An index that `cap_register` returns is a handle. -/
theorem regArg?_ofInt (i : Fin regSlots) : regArg? (BitVec.ofInt 32 (i.val : ℤ)) = some i := by
  have hlt : i.val < 64 := i.isLt
  have hval : (BitVec.ofInt 32 (i.val : ℤ)).toNat = i.val := by
    rw [BitVec.ofInt_natCast, BitVec.toNat_ofNat]
    omega
  rw [regArg?, dif_pos (by rw [hval]; exact i.isLt)]
  exact congrArg some (Fin.ext hval)

/-- A refused registration issues nothing, so that nothing is noted. -/
theorem noteIssue_of_error {procId : BitVec 8} {cspaceSlot : BitVec 32} {rc : ℤ}
    (hrc : rc = eInval ∨ rc = eNomem) : s.noteIssue procId cspaceSlot rc = s := by
  have hnone : regArg? (BitVec.ofInt 32 rc) = none := by
    rcases hrc with rfl | rfl <;> rfl
  rw [FastKernel.noteIssue, hnone]
  split
  · rename_i h
    cases h
  · rfl

/-- A handle is issued for the generation that its slot has at that moment. -/
theorem register (h : FastInv s) (procId : BitVec 8) (cspaceSlot : BitVec 32) :
    FastInv ((s.after (s.fastpath.capRegisterImpl procId cspaceSlot).2).noteIssue procId cspaceSlot
      (s.fastpath.capRegisterImpl procId cspaceSlot).1) := by
  rw [Fastpath.capRegisterImpl]
  split
  · rw [noteIssue_of_error (.inl rfl)]
    exact h.after (.refl _)
  · rename_i p hp
    split
    · rw [noteIssue_of_error (.inl rfl)]
      exact h.after (.refl _)
    · rename_i slot hslot
      simp only
      split
      · rw [noteIssue_of_error (.inl rfl)]
        exact h.after (.refl _)
      · rename_i hocc
        split
        · rw [noteIssue_of_error (.inr rfl)]
          exact h.after (.refl _)
        · rename_i i _
          have hproc : s.kernel.processes p ≠ none := fun hnone =>
            hocc (h.tidy.unused p hnone slot)
          simp only [FastKernel.noteIssue, hp, hslot, regArg?_ofInt]
          apply h.setReg (.inr ⟨hproc, ?_⟩)
          · intro q j hne
            change Function.update s.issued p (Function.update (s.issued p) i _) q j = _
            by_cases hq : q = p
            · subst hq
              rw [Function.update_self, Function.update_of_ne fun hj => hne ⟨rfl, hj⟩]
            · rw [Function.update_of_ne hq]
          · change Function.update s.issued p (Function.update (s.issued p) i _) p i = _
            rw [Function.update_self, Function.update_self, slotIndex_slotByte]

/-- Where each live handle has another generation than its slot, or the slot is as it was
and not found empty, the invariant is kept. -/
theorem noteRemovals {k : Kernel} (h : FastInv s) (htidy : Tidy k) (htable : k.caps.ParentsInTable)
    (hfree : ∀ p, k.processes p = none → s.kernel.processes p = none)
    (hslots : ∀ p i, ((s.regTables p).slots i).isEmpty = false →
      ∀ a : Place, a = (p, slotIndex ((s.regTables p).slots i).cspaceSlot) →
        ((s.regTables p).slots i).regGeneration ≠ k.caps.genAt a ∨
        k.caps.genAt a = s.kernel.caps.genAt a ∧
          ((s.kernel.caps.capAt a).isEmpty = false → (k.caps.capAt a).isEmpty = false)) :
    FastInv (s.noteRemovals k) := by
  refine ⟨htidy, htable, fun p hp i => h.unused p (hfree p hp) i, fun p i hocc => ?_⟩
  obtain ⟨issued, hissued, hslot, hstale⟩ := h.live p i hocc
  have hnow : (s.noteRemovals k).issued p i = some { issued with
      gone := issued.gone || (!(s.kernel.caps.capAt (p, issued.slot)).isEmpty &&
        (k.caps.capAt (p, issued.slot)).isEmpty) } := by
    rw [FastKernel.issued_noteRemovals, hissued]
    rfl
  refine ⟨_, hnow, hslot, fun hgone => ?_⟩
  change _ ≠ k.caps.genAt (p, issued.slot)
  rcases hslots p i hocc (p, issued.slot) (by rw [hslot]) with hnew | ⟨hgen, hkept⟩
  · exact hnew
  · rw [hgen]
    apply hstale
    rcases Bool.or_eq_true_iff.mp hgone with hgone | hemptied
    · exact hgone
    · obtain ⟨hheld, hempty⟩ := Bool.and_eq_true_iff.mp hemptied
      rw [hkept (by simpa using hheld)] at hempty
      cases hempty

/-- **A kernel step** that reissues no generation keeps what is known of the handles. -/
theorem kernel {ed25519 : Ed25519} {c : KernelCall} {k : Kernel} (h : FastInv s)
    (hstep : kernelStep ed25519 s.kernel c = some k) (hno : NoReissue s (.kernel c)) :
    FastInv (s.noteRemovals k) := by
  have htidy := tidy_step h.tidy hstep
  have htable := parentsInTable_step h.tidy h.table hstep
  cases kernelStep_effect hstep with
  | @capCall call r st hc hcall hk =>
    subst hk hc
    apply h.noteRemovals htidy htable fun p hp => hp
    rintro p i hocc a rfl
    by_cases hv : Vacates s.kernel.caps call
      (p, slotIndex ((s.regTables p).slots i).cspaceSlot)
    · -- the call empties the slot, and leaves it at another generation
      left
      change _ ≠ st.genAt _
      rw [(capStep_vacates h.table hcall hv).2.2]
      exact hno call p i rfl hocc hv
    · right
      obtain ⟨hgen, hkept⟩ := capStep_frame h.table hcall hv
      refine ⟨hgen, fun hheld => ?_⟩
      change (st.capAt _).isEmpty = false
      rw [hkept hheld]
      exact hheld
  | @installed q granted _ hinst =>
    apply h.noteRemovals htidy htable fun p hp => (hinst.processes_eq_none.mp hp).2
    rintro p i hocc a rfl
    -- the process brought up had no handles
    have hpq : p ≠ q := by
      rintro rfl
      rw [h.unused p hinst.free i] at hocc
      cases hocc
    obtain ⟨hcap, -, -⟩ := hinst.capAt h.tidy.eps
    right
    refine ⟨hinst.genAt hpq _, fun hheld => ?_⟩
    rw [hcap, if_neg hpq]
    exact hheld
  | quiet _ hquiet =>
    apply h.noteRemovals htidy htable fun p hp => (hquiet.processes_eq_none p).mp hp
    rintro p i _ a rfl
    right
    rw [hquiet.caps]
    exact ⟨rfl, id⟩

/-- **What a step keeps**, if it reissues no generation: a handle whose slot was emptied does not
fit what is there now. -/
theorem step {ed25519 : Ed25519} {call : FastCall} {s' : FastKernel} (h : FastInv s)
    (hstep : s.step ed25519 call = some s') (hno : NoReissue s call) : FastInv s' := by
  cases call with
  | kernel c =>
    obtain ⟨k, hk, rfl⟩ := Option.map_eq_some_iff.mp hstep
    exact h.kernel hk hno
  | register procId cspaceSlot =>
    obtain rfl := Option.some.inj hstep
    exact h.register procId cspaceSlot
  | unregister procId regIdx =>
    obtain rfl := Option.some.inj hstep
    exact h.unregister procId regIdx
  | setup procId sqPtr cqPtr entries =>
    obtain rfl := Option.some.inj hstep
    rw [Fastpath.ringSetupImpl]
    split
    · exact h.after (.refl _)
    · split
      · exact h.after (.refl _)
      · exact ⟨h.tidy, h.table, h.unused, h.live⟩
  | submit procId n memory =>
    obtain rfl := Option.some.inj hstep
    exact h.after (.submit _ _ _ _)
  | ack procId slot =>
    obtain rfl := Option.some.inj hstep
    exact h.after (.ack s.fastpath procId slot)
  | interrupt index bit =>
    obtain rfl := Option.some.inj hstep
    exact h.after ⟨rfl, rfl, rfl, rfl⟩

end FastInv

/-- **A stale handle is refused**, throughout every run from boot in which no removal
leaves a slot at a generation that a handle of the slot recorded. -/
theorem stale_refused (ed25519 : Ed25519) (board : Board) (calls : List FastCall)
    (hno : (fastMachine ed25519 board).Meets NoReissue (.booted board) calls) :
    (fastMachine ed25519 board).Along RefusesStale (.booted board) calls := by
  apply Machine.along_of_meets (I := FastInv) _ calls _ (FastInv.booted board) hno
  intro s call s' h hstep hno
  exact ⟨h.refusesStale call s', h.step hstep hno⟩

/-- The net driver registers its notification, deletes the cap, and submits an ack. -/
def staleAck : List FastCall :=
  [.register 4#8 1#32, .setup 4#8 0#32 4096#32 1#32, .kernel (.cap (.delete 4#8 1#32)),
    .submit 4#8 1#32 (some Fastpath.ackPage)]

/-- Only capability syscalls change generations, so that no other step reissues one. -/
theorem noReissue_of_ne {s : FastKernel} {call : FastCall}
    (h : ∀ c, call ≠ .kernel (.cap c)) : NoReissue s call :=
  fun c _ _ hc => absurd hc (h c)

/-- The handle recorded generation 0, and the deletion leaves the slot at 1. -/
theorem staleAck_noReissue :
    (fastMachine emptyVerifier .qemu).Meets NoReissue (.booted .qemu) staleAck := by
  intro s₁ h₁
  refine ⟨noReissue_of_ne (fun c h => by cases h), ?_⟩
  intro s₂ h₂
  refine ⟨noReissue_of_ne (fun c h => by cases h), ?_⟩
  intro s₃ _
  refine ⟨?_, ?_⟩
  · obtain rfl := Option.some.inj h₁
    obtain rfl := Option.some.inj h₂
    intro c p i hc hlive hv
    obtain rfl : CapCall.delete 4#8 1#32 = c := by
      injection hc with hc
      injection hc
    generalize hs : FastKernel.after _ _ = s at hlive hv ⊢
    have hslots : (s.regTables p).slots i =
        if p = 4 ∧ i = 0 then ⟨.notification, rightsRw, 1#8, 0#16, 0⟩ else .empty := by
      rw [← hs]
      exact Fastpath.slots_setReg _ 4 p 0 i _
    have hcaps : s.kernel.caps = bootState .qemu := by
      rw [← hs]
      rfl
    rw [hslots] at hlive ⊢
    by_cases hpi : p = 4 ∧ i = 0
    · rw [if_pos hpi, hcaps, genAt_bootState]
      decide
    · rw [if_neg hpi] at hlive
      cases hlive
  · intro s₄ _
    exact ⟨noReissue_of_ne (fun c h => by cases h), trivial⟩

/-- Where the generation moves on, the ack is refused. -/
theorem staleAck_refused :
    (fastMachine emptyVerifier .qemu).Along RefusesStale (.booted .qemu) staleAck :=
  stale_refused emptyVerifier .qemu staleAck staleAck_noReissue

/-! ## The last generation

The generation stops at `0xFFFF`, so a slot that has got there is filled and vacated without
moving it. The driver brings one of its own slots there. -/

/-- Slot 10 of the net driver is empty, at generation `g`; its notification is in slot 1. -/
structure Vacant (g : BitVec 16) (st : CapState) : Prop where
  src : st.capAt (4, 1) = rootCap .notification 0 rightsRw
  cap : st.capAt (4, 10) = Cap.empty
  gen : st.genAt (4, 10) = g
  object : st.objectPools.notifications.get 0 = some { Notification.new with refcount := 1 }

/-- Slot 10 holds a second cap to the notification. -/
structure Filled (g : BitVec 16) (st : CapState) : Prop where
  src : st.capAt (4, 1) = rootCap .notification 0 rightsRw
  cap : st.capAt (4, 10) =
    { rootCap .notification 0 rightsRw with generation := g.setWidth 32 }
  gen : st.genAt (4, 10) = g
  object : st.objectPools.notifications.get 0 = some { Notification.new with refcount := 2 }

theorem vacant_boot (board : Board) : Vacant 0#16 (bootState board) :=
  ⟨capAt_bootState board (4, 1), capAt_bootState board (4, 10), genAt_bootState board (4, 10), rfl⟩

/-- Copying the capability fills the slot, at the generation that it has. -/
theorem Vacant.refill {g : BitVec 16} {st : CapState} (h : Vacant g st) :
    ∃ st', capStep st (.copy 4#8 1#32 10#32) = some (0, st') ∧ Filled g st' := by
  have hproc : procIndex? 4#8 = some 4 := rfl
  have hsrc : slotArg? 1#32 = some 1 := rfl
  have hdst : slotArg? 10#32 = some 10 := rfl
  refine ⟨st.installCap (4, 10) { rootCap .notification 0 rightsRw with
    generation := g.setWidth 32 }, ?_, ?_, ?_, ?_, ?_⟩
  · simp [capStep, capCopyImpl, hproc, hsrc, hdst, h.src, h.cap, h.gen, rootCap, Cap.isEmpty]
  · rw [CapState.capAt_installCap, if_neg (by decide), h.src]
  · rw [CapState.capAt_installCap, if_pos rfl]
  · rw [CapState.genAt_installCap, h.gen]
  · change (st.objectPools.notifications.incRefcount 0).get 0 = _
    rw [Pool.get_incRefcount, if_pos rfl, h.object]
    rfl

/-- Deleting the copy vacates the slot, and its generation goes up by one, until it is saturated.
-/
theorem Filled.vacate {g : BitVec 16} {st : CapState} (h : Filled g st) :
    ∃ st', capStep st (.delete 4#8 10#32) = some (0, st') ∧ Vacant (saturatingSucc g) st' := by
  have hproc : procIndex? 4#8 = some 4 := rfl
  have hslot : slotArg? 10#32 = some 10 := rfl
  refine ⟨st.removeCap (4, 10) saturatingSucc, ?_, ?_, ?_, ?_, ?_⟩
  · simp [capStep, capDeleteImpl, hproc, hslot, h.cap, rootCap, Cap.isEmpty]
  · rw [CapState.capAt_removeCap, if_neg (by decide), h.src]
  · rw [CapState.capAt_removeCap, if_pos rfl]
  · rw [CapState.genAt_removeCap, if_pos rfl, h.gen]
  · rw [CapState.removeCap, h.cap]
    change (st.objectPools.notifications.decRefcount 0).get 0 = _
    rw [Pool.get_decRefcount, if_pos rfl, h.object]
    rfl

/-- A capability syscall is a step of the machine. -/
theorem step_cap (ed25519 : Ed25519) (board : Board) {s : FastKernel} {c : CapCall} {r : ℤ}
    {st : CapState} (h : capStep s.kernel.caps c = some (r, st)) :
    (fastMachine ed25519 board).step s (.kernel (.cap c)) =
      some (s.noteRemovals { s.kernel with caps := st }) := by
  change (kernelStep ed25519 s.kernel (.cap c)).map s.noteRemovals = _
  rw [kernelStep, h]
  rfl

/-- A submission is a step of the machine, whatever it is answered by. -/
theorem step_submit (ed25519 : Ed25519) (board : Board) (s : FastKernel) (procId : BitVec 8)
    (n : BitVec 32) (memory : Option (List (BitVec 8))) :
    (fastMachine ed25519 board).step s (.submit procId n memory) =
      some (s.after (s.fastpath.ringSubmitImpl procId n memory).2.2) := rfl

/-- Slot 10 is filled and vacated `n` times. -/
def recycle : ℕ → List FastCall
  | 0 => []
  | n + 1 => recycle n ++
      [.kernel (.cap (.copy 4#8 1#32 10#32)), .kernel (.cap (.delete 4#8 10#32))]

/-- Each time takes the generation one up, as far as it goes. -/
theorem recycle_run (ed25519 : Ed25519) (board : Board) {n : ℕ} (hn : n ≤ 65535) : ∃ s,
    (fastMachine ed25519 board).Run (.booted board) (recycle n) s ∧
      Vacant (BitVec.ofNat 16 n) s.kernel.caps ∧ s.regTables = (fun _ => .new) := by
  induction n with
  | zero => exact ⟨_, .nil _, vacant_boot board, rfl⟩
  | succ n ih =>
    obtain ⟨s, hrun, hvacant, hregs⟩ := ih (by omega)
    obtain ⟨st₁, hcopy, hfilled⟩ := hvacant.refill
    obtain ⟨st₂, hdelete, hvacant'⟩ := hfilled.vacate
    have hnext : saturatingSucc (BitVec.ofNat 16 n) = BitVec.ofNat 16 (n + 1) := by
      have hlast : BitVec.ofNat 16 n ≠ BitVec.allOnes 16 := by
        intro h
        have hval := congrArg BitVec.toNat h
        simp only [BitVec.toNat_ofNat, BitVec.toNat_allOnes] at hval
        omega
      rw [saturatingSucc, if_neg hlast, ← BitVec.ofNat_add]
    rw [hnext] at hvacant'
    have hfill := step_cap ed25519 board hcopy
    have hempty := step_cap ed25519 board
      (s := s.noteRemovals { s.kernel with caps := st₁ }) hdelete
    exact ⟨_, hrun.append (.cons hfill (.cons hempty (.nil _))), hvacant', hregs⟩

/-- The entry of the handle of slot 10, registered at the last generation. -/
def lastEntry : RegEntry := ⟨.notification, rightsRw, 10#8, 0xFFFF#16, 0⟩

/-- The copy is registered at the last generation, deleted, and made once more. -/
def reissue : List FastCall :=
  recycle 65535 ++ [.kernel (.cap (.copy 4#8 1#32 10#32)), .register 4#8 10#32,
    .kernel (.cap (.delete 4#8 10#32)), .kernel (.cap (.copy 4#8 1#32 10#32)),
    .setup 4#8 0#32 4096#32 1#32]

/-- The handle is stale, and has the generation of its slot. -/
structure Aliased (s : FastKernel) : Prop where
  filled : Filled 0xFFFF#16 s.kernel.caps
  entry : (s.regTables 4).slots 0 = lastEntry
  issued : s.issued 4 0 = some ⟨10, true⟩
  ring : s.ringDescriptors 4 = ⟨0#32, 4096#32, 1#32, true⟩

theorem reissue_run (ed25519 : Ed25519) (board : Board) : ∃ s,
    (fastMachine ed25519 board).Run (.booted board) reissue s ∧ Aliased s := by
  obtain ⟨s, hrun, hvacant, hregs⟩ := recycle_run ed25519 board (Nat.le_refl 65535)
  obtain ⟨st₁, hcopy, hfilled⟩ := hvacant.refill
  obtain ⟨st₂, hdelete, hvacant'⟩ := hfilled.vacate
  obtain ⟨st₃, hcopy', hfilled'⟩ := hvacant'.refill
  let s₁ := s.noteRemovals { s.kernel with caps := st₁ }
  have h₁ : (fastMachine ed25519 board).step s (.kernel (.cap (.copy 4#8 1#32 10#32))) = some s₁ :=
    step_cap ed25519 board hcopy
  -- the handle
  have hregister : s₁.fastpath.capRegisterImpl 4#8 10#32 =
      (0, s₁.fastpath.setReg 4 0 lastEntry) := by
    have hproc : procIndex? 4#8 = some 4 := rfl
    have hslot : slotArg? 10#32 = some 10 := rfl
    have hfree : (s.regTables 4).findEmpty = some 0 := by
      rw [hregs]
      rfl
    have hcap : s₁.fastpath.caps.capAt (4, 10) = _ := hfilled.cap
    have hgen : s₁.fastpath.caps.genAt (4, 10) = _ := hfilled.gen
    have hfree' : (s₁.fastpath.regTables 4).findEmpty = some 0 := hfree
    simp only [Fastpath.capRegisterImpl, hproc, hslot, hcap, hgen, hfree']
    rfl
  let s₂ := (s₁.after (s₁.fastpath.setReg 4 0 lastEntry)).noteIssue 4#8 10#32 0
  have h₂ : (fastMachine ed25519 board).step s₁ (.register 4#8 10#32) = some s₂ := by
    change some _ = _
    rw [hregister]
  have hissued₂ : s₂.issued 4 0 = some ⟨10, false⟩ := rfl
  let s₃ := s₂.noteRemovals { s₂.kernel with caps := st₂ }
  have h₃ : (fastMachine ed25519 board).step s₂ (.kernel (.cap (.delete 4#8 10#32))) = some s₃ :=
    step_cap ed25519 board hdelete
  have hissued₃ : s₃.issued 4 0 = some ⟨10, true⟩ := by
    have hheld : (s₂.kernel.caps.capAt (4, 10)).isEmpty = false := by
      change (st₁.capAt (4, 10)).isEmpty = false
      rw [hfilled.cap]
      rfl
    have hempty : (st₂.capAt (4, 10)).isEmpty = true := by
      rw [hvacant'.cap]
      rfl
    rw [FastKernel.issued_noteRemovals, hissued₂, Option.map_some, hheld, hempty]
    rfl
  let s₄ := s₃.noteRemovals { s₃.kernel with caps := st₃ }
  have h₄ : (fastMachine ed25519 board).step s₃ (.kernel (.cap (.copy 4#8 1#32 10#32))) = some s₄ :=
    step_cap ed25519 board hcopy'
  have hissued₄ : s₄.issued 4 0 = some ⟨10, true⟩ := by
    rw [FastKernel.issued_noteRemovals, hissued₃]
    rfl
  have hentry : (s₄.regTables 4).slots 0 = lastEntry := by
    change ((s₁.fastpath.setReg 4 0 lastEntry).regTables 4).slots 0 = _
    rw [Fastpath.slots_setReg, if_pos ⟨rfl, rfl⟩]
  refine ⟨s₄.after (s₄.fastpath.ringSetupImpl 4#8 0#32 4096#32 1#32).2, ?_,
    hfilled', hentry, hissued₄, rfl⟩
  exact hrun.append (.cons h₁ (.cons h₂ (.cons h₃ (.cons h₄ (.cons rfl (.nil _))))))

/-- The stale handle is let through: its generation is that of the new capability. -/
theorem Aliased.not_refused {s s' : FastKernel} (h : Aliased s) :
    ¬ RefusesStale s (.submit 4#8 1#32 (some Fastpath.ackPage)) s' := by
  intro hrefuses
  have hentry : (s.fastpath.regTables 4).slots 0 = lastEntry := h.entry
  have hring : s.fastpath.ringDescriptors 4 = ⟨0#32, 4096#32, 1#32, true⟩ := h.ring
  let sqe : Sqe := ⟨2#32, 0#32, 0#32, 0#64, 0#64, 0#64⟩
  have hreaches : s.fastpath.Reaches 4 1#32 Fastpath.ackPage 0 (Fastpath.ackPage, s.fastpath)
      sqe := by
    refine ⟨by decide, by rw [hring]; decide, .zero, Fastpath.ackPage.take sqeSize, ?_, rfl⟩
    rw [hring]
    exact Fastpath.readAt_ackPage
  have hneg := hrefuses 4#8 1#32 _ 4 0 _ sqe 0 _ rfl rfl hreaches rfl h.issued rfl
  have hcap : s.fastpath.caps.capAt (4, 10) = _ := h.filled.cap
  have hgen : s.fastpath.caps.genAt (4, 10) = _ := h.filled.gen
  have hobject : s.fastpath.caps.objectPools.notifications.get 0 = _ := h.filled.object
  have hproc : procIndex? (procByte 4) = some 4 := rfl
  have hslot : slotArg? ((10#8 : BitVec 8).setWidth 32) = some 10 := rfl
  have hresolve : s.fastpath.caps.resolveNotification (procByte 4)
      ((10#8 : BitVec 8).setWidth 32) = .ok 0 := by
    simp only [CapState.resolveNotification, hproc, hslot, hcap]
    rfl
  have hack : notificationAckImpl s.fastpath.caps (procByte 4) ((10#8 : BitVec 8).setWidth 32) =
      (0, s.fastpath.caps.modifyNotification 0 Notification.clear) := by
    rw [notificationAckImpl, hresolve]
    simp only [hobject]
  have hop : sqe.op = ringOpNotifyAck := rfl
  have hidx : regArg? sqe.regIdx = some 0 := rfl
  have hdispatch := Fastpath.dispatch_of_current (f := s.fastpath) (p := 4) hop hidx
    (by rw [hentry]; rfl) (by rw [hentry]; exact hgen)
  change (s.fastpath.dispatch 4 sqe).1 < 0 at hneg
  rw [hdispatch, hentry] at hneg
  change (notificationAckImpl s.fastpath.caps (procByte 4) ((10#8 : BitVec 8).setWidth 32)).1 < 0
    at hneg
  rw [hack] at hneg
  exact absurd hneg (Int.lt_irrefl 0)

/-- A run that ends so and is followed by a submission goes wrong. -/
theorem Aliased.not_along {ed25519 : Ed25519} {board : Board} {calls : List FastCall}
    {s₀ s : FastKernel} (h : Aliased s) (hrun : (fastMachine ed25519 board).Run s₀ calls s) :
    ¬ (fastMachine ed25519 board).Along RefusesStale s₀
      (calls ++ [.submit 4#8 1#32 (some Fastpath.ackPage)]) := by
  intro hall
  have hlast := Machine.along_append hrun hall
  have hsubmit := step_submit ed25519 board s 4#8 1#32 (some Fastpath.ackPage)
  exact h.not_refused ((Machine.along_cons hsubmit).mp hlast).1

/-- **A stale handle works again**: at the last generation a removal changes nothing. -/
theorem stale_handle_works :
    ¬ (fastMachine emptyVerifier .qemu).Along RefusesStale (.booted .qemu)
      (reissue ++ [.submit 4#8 1#32 (some Fastpath.ackPage)]) := by
  obtain ⟨s, hrun, haliased⟩ := reissue_run emptyVerifier .qemu
  exact haliased.not_along hrun

end Wari
