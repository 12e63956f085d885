import Wari.Refcount
import Wari.Sched

/-!
# Modules loaded at run time

The kernel from boot on, under capability syscalls, staging, spawning and the end
of tenants, in any order. A spawn or a restart gives the new process its root
caps without counting them, so the reference count law holds in a run exactly as
long as no module is brought up: `law_iff_no_install`.
-/

namespace Wari

open Lib (Machine)

/-! ## The kernel as a machine

Capability syscalls by anybody, and what the registry does. The scheduler is left out, since it
moves no capability but at the end of a tenant. -/

/-- What can happen to capability state and process table. -/
inductive KernelCall where
  /-- a capability syscall -/
  | cap (call : CapCall)
  /-- an envelope arrives -/
  | stage (bytes : List (BitVec 8))
  /-- a staged slot is spawned, as a daemon if its restart budget is not zero -/
  | spawn (slot : BitVec 8) (requested : GrantSpec) (restartBudget : BitVec 8)
  /-- a tenant's turn ends with the tenant -/
  | ended (p : Proc) (ending : Ending)

section Machine

variable (ed25519 : Ed25519)

/-- One step of the kernel: a capability syscall, a call of the registry, or the end of a process.
-/
def kernelStep (k : Kernel) : KernelCall → Option Kernel
  | .cap call => (capStep k.caps call).map fun out => { k with caps := out.2 }
  | .stage bytes => some (k.stage bytes).2
  | .spawn slot requested restartBudget =>
    some (k.spawnInner ed25519 slot requested restartBudget).2
  | .ended p ending =>
    match k.processes p with
    | some proc => if proc.isRunnable then some (k.finish p ending) else none
    | none => none

/-- The kernel from boot on, in any order of steps. -/
def kernelMachine (board : Board) : Machine Kernel KernelCall where
  init k := k = Kernel.booted board
  step := kernelStep ed25519

/-- The process a step brings up, and the grants it installs, told from the state
before it. -/
def installs (k : Kernel) : KernelCall → Option (Proc × GrantSpec)
  | .spawn slot requested _ => k.spawnInstalls ed25519 slot requested
  | .ended p _ => k.restartInstalls p
  | _ => none

/-- What a step can do to capabilities and processes, case by case. -/
inductive KernelEffect (k : Kernel) (c : KernelCall) (k' : Kernel) : Prop where
  /-- a capability syscall, which touches nothing else -/
  | capCall {call : CapCall} {r : ℤ} {st : CapState} (hc : c = .cap call)
      (hstep : capStep k.caps call = some (r, st)) (hk' : k' = { k with caps := st })
  /-- a module is brought up -/
  | installed {p : Proc} {granted : GrantSpec}
      (hinst : installs ed25519 k c = some (p, granted)) (h : k.Installed k' p granted)
  /-- neither -/
  | quiet (hinst : installs ed25519 k c = none) (h : k.Quiet k')

variable {ed25519}

theorem KernelEffect.of_brings {k k' : Kernel} {c : KernelCall}
    (h : k.Brings (installs ed25519 k c) k') : KernelEffect ed25519 k c k' := by
  rcases hinst : installs ed25519 k c with _ | ⟨p, granted⟩
  · rw [hinst] at h
    exact .quiet hinst h
  · rw [hinst] at h
    exact .installed hinst h

/-- **What a step can do**: every invariant of the kernel is proved from these cases, and none
unfolds a step. -/
theorem kernelStep_effect {k k' : Kernel} {c : KernelCall} (h : kernelStep ed25519 k c = some k') :
    KernelEffect ed25519 k c k' := by
  cases c with
  | cap call =>
    obtain ⟨⟨r, st⟩, hstep, hk'⟩ := Option.map_eq_some_iff.mp h
    exact .capCall rfl hstep hk'.symm
  | stage bytes =>
    obtain rfl := Option.some.inj h
    exact .quiet rfl (k.quiet_stage bytes)
  | spawn slot requested restartBudget =>
    obtain rfl := Option.some.inj h
    exact .of_brings (k.spawnInner_brings ed25519 slot requested restartBudget)
  | ended p ending =>
    unfold kernelStep at h
    simp only at h
    split at h
    · split at h
      · obtain rfl := Option.some.inj h
        exact .of_brings (k.finish_brings p ending)
      · cases h
    · cases h

end Machine

/-! ## Where the caps of a process come from

A process fills its slots from what it has. The other source is an installation. -/

/-- Where a cap in slot `t` of `p` comes from in the syscall `c`: it was there, it
was derived from another cap of `p`, or it is a socket `p` created under its Net
cap. -/
inductive CapSource (st : CapState) (c : CapCall) (p : Proc) (t : Slot) (cap : Cap) : Prop where
  | kept (h : st.capAt (p, t) = cap)
  | derived {s : Slot} (hsrc : (st.capAt (p, s)).isEmpty = false)
      (hkind : cap.kind = (st.capAt (p, s)).kind)
      (hindex : cap.poolIndex = (st.capAt (p, s)).poolIndex)
      (hrights : RightsLe cap.rights (st.capAt (p, s)).rights)
  | socket (hkind : cap.kind = .socket) (hempty : (st.capAt (p, t)).isEmpty = true)
      (hcall : ∃ proto slotForCap driver, c = .socketCreate (procByte p) proto slotForCap driver ∧
        slotArg? slotForCap = some t)
      (hnet : (st.capAt (p, slotNet)).kind = .net)
      (hwrite : (st.capAt (p, slotNet)).rights &&& capRightWrite ≠ 0#8)

/-- A syscall leaves a slot as it was, or empties it, or fills it from what its
process has. -/
theorem CapEffect.source {st st' : CapState} {c : CapCall} {r : ℤ} (h : CapEffect st c r st')
    {p : Proc} {t : Slot} (hocc : (st'.capAt (p, t)).isEmpty = false) :
    CapSource st c p t (st'.capAt (p, t)) := by
  have hremoved : ∀ {st₁ : CapState} {a : Place} {f : BitVec 16 → BitVec 16},
      ((st₁.removeCap a f).capAt (p, t)).isEmpty = false →
        (st₁.removeCap a f).capAt (p, t) = st₁.capAt (p, t) := by
    intro st₁ a f hocc
    rw [CapState.capAt_removeCap] at hocc ⊢
    split at hocc
    · cases hocc
    · rename_i ha
      rw [if_neg ha]
  cases h with
  | refused => exact .kept rfl
  | @minted _ _ _ _ q s u child _ _ hd _ hrights =>
    rw [CapState.capAt_installCap]
    split
    · rename_i ha
      obtain ⟨rfl, rfl⟩ := Prod.mk.inj ha
      exact .derived hd.src hd.kind hd.index hrights
    · exact .kept rfl
  | @copied _ _ q s u child _ _ hd _ hrights =>
    rw [CapState.capAt_installCap]
    split
    · rename_i ha
      obtain ⟨rfl, rfl⟩ := Prod.mk.inj ha
      exact .derived hd.src hd.kind hd.index (hrights ▸ RightsLe.refl _)
    · exact .kept rfl
  | @revoked slot q s _ _ _ _ hrevoke =>
    have hkept : (st'.capAt (p, t)).isEmpty = false →
        st'.capAt (p, t) = st.capAt (p, t) := by
      refine revoke_keeps (I := fun s => (s.capAt (p, t)).isEmpty = false →
        s.capAt (p, t) = st.capAt (p, t)) (fun s a hs _ hne => ?_) hrevoke fun _ => rfl
      have he := hremoved hne
      rw [he]
      rw [he] at hne
      exact hs hne
    exact .kept (hkept hocc).symm
  | deleted => exact .kept (hremoved hocc).symm
  | @socketCreated _ _ _ q u _ _ _ harg hnet hwrite hdst =>
    rw [CapState.capAt_installCap]
    split
    · rename_i ha
      obtain ⟨rfl, rfl⟩ := Prod.mk.inj ha
      exact .socket rfl hdst ⟨_, _, _, rfl, harg⟩ hnet hwrite
    · exact .kept rfl
  | socketClosed => exact .kept (hremoved hocc).symm

/-- A process without caps does not come by one in a syscall. -/
theorem CapSource.held {st : CapState} {c : CapCall} {p : Proc} {t : Slot} {cap : Cap}
    (h : CapSource st c p t cap) (hocc : cap.isEmpty = false) :
    ∃ s, (st.capAt (p, s)).isEmpty = false := by
  cases h with
  | kept h => exact ⟨t, by rwa [h]⟩
  | @derived s hsrc => exact ⟨s, hsrc⟩
  | socket _ _ _ hnet => exact ⟨slotNet, Cap.isEmpty_eq_false_iff.mpr (by rw [hnet]; decide)⟩

/-- A syscall leaves the two endpoints as boot recorded them. -/
theorem CapEffect.bootTier1Eps {st st' : CapState} {c : CapCall} {r : ℤ}
    (h : CapEffect st c r st') : st'.bootTier1Eps = st.bootTier1Eps := by
  cases h with
  | refused => rfl
  | minted => exact CapState.bootTier1Eps_installCap _ _ _
  | copied => exact CapState.bootTier1Eps_installCap _ _ _
  | revoked _ _ _ hrevoke =>
    exact revoke_keeps (I := fun s => s.bootTier1Eps = st.bootTier1Eps)
      (fun s a hs _ => (CapState.bootTier1Eps_removeCap s a _).trans hs) hrevoke rfl
  | deleted => exact CapState.bootTier1Eps_removeCap _ _ _
  | socketCreated => exact CapState.bootTier1Eps_installCap _ _ _
  | socketClosed => exact CapState.bootTier1Eps_removeCap _ _ _

/-! ## Process ids that were never used

Ids are handed out once, so a fresh process starts with an empty CSpace. -/

/-- What every kernel step keeps: boot's endpoints are recorded, and a process id
that is free has no caps. -/
structure Tidy (k : Kernel) : Prop where
  eps : k.caps.bootTier1Eps = some (0, 1)
  unused : ∀ p, k.processes p = none → ∀ s, (k.caps.capAt (p, s)).isEmpty = true

theorem tidy_booted (board : Board) : Tidy (Kernel.booted board) := by
  refine ⟨bootTier1Eps_bootState board, fun p hp s => ?_⟩
  have hplace : (p, s) ∉ bootPlaces := by
    intro hmem
    simp only [bootPlaces, List.mem_cons, Prod.mk.injEq, List.not_mem_nil, or_false] at hmem
    have hproc : p = 1 ∨ p = 2 ∨ p = 3 ∨ p = 4 := by
      rcases hmem with h | h | h | h | h | h | h | h | h | h | h <;> simp [h.1]
    rcases hproc with rfl | rfl | rfl | rfl <;> cases hp
  change ((bootState board).capAt (p, s)).isEmpty = true
  rw [capAt_bootState, bootTable_empty hplace]
  rfl

/-- What an installation leaves, at the endpoints boot recorded. -/
theorem Kernel.Installed.capAt {k k' : Kernel} {p : Proc} {granted : GrantSpec}
    (h : k.Installed k' p granted) (heps : k.caps.bootTier1Eps = some (0, 1)) :
    (∀ a, k'.caps.capAt a = if a.1 = p then grantTable 0 1 granted a.2 else k.caps.capAt a) ∧
      k'.caps.objectPools = k.caps.objectPools ∧ k'.caps.bootTier1Eps = some (0, 1) := by
  obtain ⟨q, u, x, hq, hux, hcap, -, hpools, heps'⟩ := installTier1Grants_ok h.caps
  have hpq : p = q := by
    have hval := congrArg BitVec.toNat hq
    rw [toNat_procByte, toNat_procByte] at hval
    exact Fin.ext hval
  subst hpq
  obtain ⟨rfl, rfl⟩ := Prod.mk.inj (Option.some.inj (heps.symm.trans hux))
  exact ⟨hcap, hpools, heps'.trans heps⟩

/-- The generations of other processes stay, where a module is installed. -/
theorem Kernel.Installed.genAt {k k' : Kernel} {p q : Proc} {granted : GrantSpec}
    (h : k.Installed k' p granted) (hq : q ≠ p) (s : Slot) :
    k'.caps.genAt (q, s) = k.caps.genAt (q, s) := by
  obtain ⟨r, -, -, hr, -, -, hgen, -, -⟩ := installTier1Grants_ok h.caps
  have hpr : p = r := by
    have hval := congrArg BitVec.toNat hr
    rw [toNat_procByte, toNat_procByte] at hval
    exact Fin.ext hval
  rw [hgen, if_neg (hpr ▸ hq)]

theorem Kernel.Installed.processes_eq_none {k k' : Kernel} {p q : Proc} {granted : GrantSpec}
    (h : k.Installed k' p granted) : k'.processes q = none ↔ q ≠ p ∧ k.processes q = none := by
  obtain ⟨slot, hmods⟩ := h.modules
  rw [← Kernel.moduleAt_eq_none, hmods, ← Kernel.moduleAt_eq_none]
  by_cases hq : q = p
  · simp [hq]
  · simp [hq]

/-- A syscall leaves a process without caps without caps. -/
theorem CapEffect.tidy {k : Kernel} {st : CapState} {c : CapCall} {r : ℤ}
    (h : CapEffect k.caps c r st) (htidy : Tidy k) : Tidy { k with caps := st } := by
  refine ⟨h.bootTier1Eps.trans htidy.eps, fun p hp s => ?_⟩
  by_contra hocc
  have hocc' := Bool.eq_false_iff.mpr hocc
  obtain ⟨t, ht⟩ := (h.source hocc').held hocc'
  rw [htidy.unused p hp t] at ht
  cases ht

theorem tidy_step {ed25519 : Ed25519} {k k' : Kernel} {c : KernelCall} (htidy : Tidy k)
    (h : kernelStep ed25519 k c = some k') : Tidy k' := by
  cases kernelStep_effect h with
  | capCall _ hstep hk' =>
    subst hk'
    exact (capStep_effect hstep).tidy htidy
  | installed _ hinst =>
    obtain ⟨hcap, -, heps⟩ := hinst.capAt htidy.eps
    refine ⟨heps, fun p hp s => ?_⟩
    obtain ⟨hne, hfree⟩ := hinst.processes_eq_none.mp hp
    rw [hcap, if_neg hne]
    exact htidy.unused p hfree s
  | quiet _ hquiet =>
    refine ⟨hquiet.caps ▸ htidy.eps, fun p hp s => ?_⟩
    rw [hquiet.caps]
    exact htidy.unused p ((hquiet.processes_eq_none p).mp hp) s

/-! ## The law, and what breaks it

An installation names the UART endpoint once more and counts nothing. Everything else counts
right. -/

/-- Every kind that has a pool obeys the reference count law. -/
def Law (st : CapState) : Prop := ∀ k : ObjectKind, k.pooled = true → RefLaw st k

/-- No object goes while a slot names it. -/
def FreesNoneNamed (st st' : CapState) : Prop :=
  ∀ k i, (st.objectPools.object? k i).isSome = true → st'.objectPools.object? k i = none →
    ∀ a, ¬ ((st'.capAt a).kind = k ∧ (st'.capAt a).poolIndex = i)

/-- The law holds after the step, and the step freed nothing that is named. -/
def LawStep (k : Kernel) (_ : KernelCall) (k' : Kernel) : Prop :=
  Law k'.caps ∧ FreesNoneNamed k.caps k'.caps

theorem law_bootState (board : Board) : Law (bootState board) :=
  fun _ hk => refLaw_bootState board hk

/-- Under the law nothing that is named is free. -/
theorem Law.freesNoneNamed {st st' : CapState} (h : Law st') : FreesNoneNamed st st' := by
  rintro k i hsome hnone a hname
  have hk : k.pooled = true := by
    by_contra hk
    rw [ObjectPools.object?_of_not_pooled (Bool.eq_false_iff.mpr hk)] at hsome
    cases hsome
  have hthere := ((h k hk).allocated i).mpr ⟨a, hname⟩
  rw [hnone] at hthere
  cases hthere

theorem CapEffect.law {st st' : CapState} {c : CapCall} {r : ℤ} (h : CapEffect st c r st')
    (hlaw : Law st) : Law st' := by
  intro k hk
  have hne : k ≠ .empty := by
    rintro rfl
    cases hk
  exact h.refLaw hne (hlaw .socket rfl) (hlaw k hk)

/-- An installation adds a name for the UART endpoint. -/
theorem Kernel.Installed.names_lt {k k' : Kernel} {p : Proc} {granted : GrantSpec}
    (h : k.Installed k' p granted) (htidy : Tidy k) :
    k.caps.names .endpoint 0 < k'.caps.names .endpoint 0 := by
  obtain ⟨hcap, -⟩ := h.capAt htidy.eps
  refine Lib.tally_lt (a := (p, slotPrimary)) (fun a ha => ?_) (fun hname => ?_) ?_
  · have hne : a.1 ≠ p := by
      rintro rfl
      have hempty := htidy.unused a.1 h.free a.2
      rw [Cap.isEmpty_iff, ha.1] at hempty
      cases hempty
    rw [hcap, if_neg hne]
    exact ha
  · have hempty := htidy.unused p h.free slotPrimary
    rw [Cap.isEmpty_iff, hname.1] at hempty
    cases hempty
  · rw [hcap, if_pos rfl]
    exact ⟨rfl, rfl⟩

/-- **An installation breaks the law**: the count of the UART endpoint stays, while one capability
more names it. -/
theorem Kernel.Installed.not_law {k k' : Kernel} {p : Proc} {granted : GrantSpec}
    (h : k.Installed k' p granted) (htidy : Tidy k) (hlaw : Law k.caps) : ¬ Law k'.caps := by
  intro hlaw'
  obtain ⟨-, hpools, -⟩ := h.capAt htidy.eps
  have hlt := h.names_lt htidy
  have hbefore := refLaw_iff.mp (hlaw .endpoint rfl) 0
  have hafter := refLaw_iff.mp (hlaw' .endpoint rfl) 0
  rw [hpools, hbefore] at hafter
  rw [countOf_pos (by omega : 0 < k'.caps.names .endpoint 0)] at hafter
  rw [countOf] at hafter
  split at hafter
  · cases hafter
  · have := Option.some.inj hafter
    omega

theorem law_step {ed25519 : Ed25519} {k k' : Kernel} {c : KernelCall} (hlaw : Law k.caps)
    (h : kernelStep ed25519 k c = some k') (hno : installs ed25519 k c = none) : Law k'.caps := by
  cases kernelStep_effect h with
  | capCall _ hstep hk' =>
    subst hk'
    exact (capStep_effect hstep).law hlaw
  | installed hinst =>
    rw [hno] at hinst
    cases hinst
  | quiet _ hquiet =>
    rw [hquiet.caps]
    exact hlaw

/-- **The law, exactly.** In a run from boot, of capability syscalls by any
processes, staging, spawning and ends of tenants, the law holds throughout and no
step frees an object that is still named if and only if no step brings a module
up. -/
theorem law_iff_no_install (ed25519 : Ed25519) (board : Board) (calls : List KernelCall) :
    (kernelMachine ed25519 board).Along LawStep (.booted board) calls ↔
      (kernelMachine ed25519 board).Meets (fun k c => installs ed25519 k c = none) (.booted board)
        calls := by
  refine Machine.along_iff_meets (I := fun k => Tidy k ∧ Law k.caps) ?_ ?_ calls _
    ⟨tidy_booted board, law_bootState board⟩
  · rintro k c k' ⟨htidy, hlaw⟩ h hno
    have hlaw' := law_step hlaw h hno
    exact ⟨⟨hlaw', hlaw'.freesNoneNamed⟩, tidy_step htidy h, hlaw'⟩
  · rintro k c k' ⟨htidy, hlaw⟩ h ⟨hlaw', -⟩
    cases kernelStep_effect h with
    | capCall hc =>
      subst hc
      rfl
    | installed _ hinst => exact (hinst.not_law htidy hlaw hlaw').elim
    | quiet hno => exact hno

/-! ## The first spawn

A module without a byte in it is enough, as the law breaks before it runs. -/

/-- The signature, by the accepted key, over the empty module. -/
def emptySignature : List (BitVec 8) :=
  [0x6f, 0x99, 0x9e, 0x80, 0x1f, 0x88, 0x84, 0xe5, 0x84, 0x31, 0x1a, 0x49, 0xba, 0x90, 0xf9, 0x26,
    0x6a, 0xcb, 0xdc, 0xe8, 0xc6, 0x33, 0x78, 0xc9, 0x29, 0xc2, 0xa4, 0x9e, 0x32, 0xcd, 0x90, 0xe9,
    0xce, 0x62, 0x54, 0x21, 0x34, 0x8b, 0xfe, 0xdd, 0xe4, 0x27, 0x7a, 0xca, 0xd6, 0x2e, 0x47, 0x99,
    0x4b, 0xc4, 0x5c, 0x6b, 0x64, 0xba, 0x5a, 0x69, 0xb3, 0x76, 0xc7, 0xc9, 0xb3, 0x98, 0x17, 0x08]

/-- Verification where it is asked about the empty module and its signature. -/
def emptyVerifier : Ed25519 := fun pubkey msg sig =>
  pubkey == acceptedPubkey && msg == [] && sig == emptySignature

/-- An envelope with an empty module is staged and spawned. -/
def spawnCalls : List KernelCall :=
  [.stage (acceptedPubkey ++ emptySignature), .spawn 0#8 .empty 0#8]

/-- The spawn brings up process 5, with no optional authority. -/
theorem spawnCalls_installs : installs emptyVerifier
    ((Kernel.booted .qemu).stage (acceptedPubkey ++ emptySignature)).2 (.spawn 0#8 .empty 0#8) =
      some (5, .empty) := rfl

/-- **The first spawn breaks the law**: its capabilities are installed, and not counted. -/
theorem spawn_breaks_law : ¬ (kernelMachine emptyVerifier .qemu).Along LawStep (.booted .qemu)
    spawnCalls := by
  intro hall
  obtain ⟨⟨hlaw, -⟩, hrest⟩ := (Machine.along_cons rfl).mp hall
  have hlast := ((Machine.along_cons rfl).mp hrest).1.1
  have hstage : kernelStep emptyVerifier (.booted .qemu)
    (.stage (acceptedPubkey ++ emptySignature)) = some _ := rfl
  have htidy := tidy_step (tidy_booted .qemu) hstage
  have hbrings := Kernel.spawnInner_brings emptyVerifier
    ((Kernel.booted .qemu).stage (acceptedPubkey ++ emptySignature)).2 0#8 .empty 0#8
  have hinst : Kernel.spawnInstalls emptyVerifier
    ((Kernel.booted .qemu).stage (acceptedPubkey ++ emptySignature)).2 0#8 .empty =
      some (5, .empty) := spawnCalls_installs
  rw [hinst] at hbrings
  exact hbrings.not_law htidy hlaw hlast

end Wari
