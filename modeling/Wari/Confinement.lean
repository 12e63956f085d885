import Wari.Cascade

/-!
# Isolation and confinement

No syscall touches the CSpace of another process than its caller's, since no
parent reference crosses processes. And a process holds nothing that boot or a
grant did not confer on it, other than the sockets it created under its own Net
cap; `Provenance` keeps who created which socket and which grants were installed.
-/

namespace Wari

open Lib (Machine Descends)

/-! ## Parent references stay in their process

A derivation records its source, and source and target are slots of the caller. Installations
record the root. -/

/-- Every parent reference is the root or in the same CSpace. -/
def ParentsLocal (st : CapState) : Prop :=
  ∀ a, (st.capAt a).isEmpty = false → ∀ b, (st.capAt a).parent.place? = some b → b.1 = a.1

theorem parentsLocal_bootState (board : Board) : ParentsLocal (bootState board) := by
  intro a _ b hb
  rw [capAt_bootState, bootTable_parent] at hb
  cases hb

theorem ParentsLocal.installCap {st : CapState} (h : ParentsLocal st) {a : Place} {cap : Cap}
    (hcap : ∀ b, cap.parent.place? = some b → b.1 = a.1) : ParentsLocal (st.installCap a cap) := by
  intro x hocc b hb
  rw [CapState.capAt_installCap] at hocc hb
  split at hocc
  · rename_i hx
    rw [if_pos hx] at hb
    rw [hx]
    exact hcap b hb
  · rename_i hx
    rw [if_neg hx] at hb
    exact h x hocc b hb

theorem ParentsLocal.removeCap {st : CapState} (h : ParentsLocal st) (a : Place)
    (f : BitVec 16 → BitVec 16) : ParentsLocal (st.removeCap a f) := by
  intro x hocc b hb
  rw [CapState.capAt_removeCap] at hocc hb
  split at hocc
  · cases hocc
  · rename_i hx
    rw [if_neg hx] at hb
    exact h x hocc b hb

/-- One syscall keeps parent references in their process. -/
theorem CapEffect.parentsLocal {st st' : CapState} {c : CapCall} {r : ℤ}
    (h : CapEffect st c r st') (hlocal : ParentsLocal st) : ParentsLocal st' := by
  cases h with
  | refused => exact hlocal
  | @minted _ _ _ _ p s t child _ _ _ hparent =>
    refine hlocal.installCap fun b hb => ?_
    rw [hparent, CapId.place?_ofPlace] at hb
    rw [← Option.some.inj hb]
  | @copied _ _ p s t child _ _ hd hparent =>
    refine hlocal.installCap fun b hb => ?_
    rw [hparent] at hb
    exact hlocal (p, s) hd.src b hb
  | revoked _ _ _ hrevoke =>
    exact revoke_keeps (I := ParentsLocal) (fun st a hst _ => hst.removeCap a _) hrevoke hlocal
  | deleted => exact hlocal.removeCap _ _
  | @socketCreated _ _ _ p t _ _ sockets =>
    have hlocal' : ParentsLocal (st.withSockets sockets) := hlocal
    refine hlocal'.installCap fun b hb => ?_
    rw [socketCap, CapId.place?_ofPlace] at hb
    rw [← Option.some.inj hb]
  | socketClosed => exact hlocal.removeCap _ _

/-- Descendants are in the CSpace of their ancestor. -/
theorem ParentsLocal.descends {st : CapState} (h : ParentsLocal st) {x a : Place}
    (hd : Descends st.parentOf x a) : x.1 = a.1 := by
  induction hd with
  | refl => rfl
  | tail _ hpar ih =>
    obtain ⟨hocc, hplace, -⟩ := CapState.parentOf_eq_some.mp hpar
    exact ih.trans (h _ hocc _ hplace).symm

/-- **A syscall touches its caller's CSpace only.** The slots it empties in a cascade are derived
from a slot of the caller, and derivation does not cross processes. -/
theorem CapEffect.isolated {st st' : CapState} {c : CapCall} {r : ℤ} (h : CapEffect st c r st')
    (htable : st.ParentsInTable) (hlocal : ParentsLocal st) {p : Proc}
    (hp : c.procId ≠ procByte p) : st'.cspaces p = st.cspaces p := by
  have hext : ∀ {st₁ st₂ : CapState}, (∀ s, st₁.capAt (p, s) = st₂.capAt (p, s)) →
      (∀ s, st₁.genAt (p, s) = st₂.genAt (p, s)) → st₁.cspaces p = st₂.cspaces p := by
    intro st₁ st₂ hcap hgen
    have hslots : (st₁.cspaces p).slots = (st₂.cspaces p).slots := funext hcap
    have hgens : (st₁.cspaces p).generations = (st₂.cspaces p).generations := funext hgen
    exact CSpace.ext hslots hgens
  have hne : ∀ {q : Proc} {s t : Slot}, procByte q ≠ procByte p → (p, s) ≠ (q, t) := by
    rintro q s t hq he
    exact hq (congrArg procByte (Prod.mk.inj he).1.symm)
  cases h with
  | refused => rfl
  | minted | copied =>
    refine hext (fun s => ?_) fun s => ?_
    · rw [CapState.capAt_installCap, if_neg (hne hp)]
    · rw [CapState.genAt_installCap]
  | socketCreated =>
    refine hext (fun s => ?_) fun s => ?_
    · rw [CapState.capAt_installCap, if_neg (hne hp)]
      rfl
    · rw [CapState.genAt_installCap]
      rfl
  | deleted | socketClosed =>
    refine hext (fun s => ?_) fun s => ?_
    · rw [CapState.capAt_removeCap, if_neg (hne hp)]
    · rw [CapState.genAt_removeCap, if_neg (hne hp)]
  | @revoked _ q s _ _ hocc _ hrevoke =>
    obtain ⟨st₁, S, hrev, hS, hcap, hgen, -⟩ := revoke_ok htable (a := (q, s)) hocc
    obtain ⟨-, rfl⟩ := Prod.mk.inj (Option.some.inj (hrev.symm.trans hrevoke))
    have hout : ∀ t, (p, t) ∉ S := by
      intro t ht
      exact hp (congrArg procByte (hlocal.descends ((hS _).mp ht)).symm)
    refine hext (fun t => ?_) fun t => ?_
    · rw [hcap, if_neg (hout t)]
    · rw [hgen, if_neg (hout t)]

/-! ## Provenance

Where an authority came from is not written in a capability, so it is kept next to the kernel: the
grants that were installed, and who created which socket. -/

/-- Which grants were installed where, and who created which socket. It is
proof-only: no step of the kernel reads it. -/
structure Provenance where
  /-- the grants installed for a process -/
  granted : Proc → List GrantSpec
  /-- who created the socket at an index, and the NIC it named then -/
  creator : ℕ → Option (Proc × ℕ)

namespace Provenance

/-- Provenance at boot: nothing was granted, and no socket was created. -/
def boot : Provenance := ⟨fun _ => [], fun _ => none⟩

/-- The creators after a capability syscall that led from `st` to `st'`. -/
def creatorAfter (prov : Provenance) (st st' : CapState) : CapCall → ℕ → Option (Proc × ℕ)
  | .socketCreate b _ slotForCap _ =>
    match procIndex? b, slotArg? slotForCap with
    | some p, some t =>
      if (st.capAt (p, t)).isEmpty && !(st'.capAt (p, t)).isEmpty then
        Function.update prov.creator (st'.capAt (p, t)).poolIndex
          (some (p, (st.capAt (p, slotNet)).poolIndex))
      else prov.creator
    | _, _ => prov.creator
  | _ => prov.creator

/-- The provenance after a step that led from `k` to `k'`. -/
def after (ed25519 : Ed25519) (prov : Provenance) (k : Kernel) (c : KernelCall) (k' : Kernel) :
    Provenance where
  granted :=
    match installs ed25519 k c with
    | some (p, granted) => Function.update prov.granted p (granted :: prov.granted p)
    | none => prov.granted
  creator :=
    match c with
    | .cap call => prov.creatorAfter k.caps k'.caps call
    | _ => prov.creator

/-- The cap `root` was installed in the CSpace of `p` by boot or with a grant. -/
def Confers (prov : Provenance) (p : Proc) (root : Cap) : Prop :=
  (∃ s, bootTable (p, s) = root) ∨ ∃ granted ∈ prov.granted p, ∃ s, grantTable 0 1 granted s = root

/-- What `cap` names, and every right in it, was conferred on `p` by one cap; or it is a socket
`p` created, under a Net cap whose write right was so conferred. Rights of several caps are not
added up. -/
def Authorised (prov : Provenance) (p : Proc) (cap : Cap) : Prop :=
  (∃ root, prov.Confers p root ∧ cap.kind = root.kind ∧ cap.poolIndex = root.poolIndex ∧
    RightsLe cap.rights root.rights) ∨
  (cap.kind = .socket ∧ ∃ netIdx root, prov.creator cap.poolIndex = some (p, netIdx) ∧
    prov.Confers p root ∧ root.kind = .net ∧ root.poolIndex = netIdx ∧
    root.rights &&& capRightWrite ≠ 0#8)

variable {prov prov' : Provenance} {p : Proc} {cap cap' : Cap}

theorem Confers.mono (h : ∀ g ∈ prov.granted p, g ∈ prov'.granted p) {root : Cap}
    (hc : prov.Confers p root) : prov'.Confers p root := by
  rcases hc with hboot | ⟨g, hg, hs⟩
  · exact .inl hboot
  · exact .inr ⟨g, h g hg, hs⟩

/-- Authority outlives later grants, and the creation of other sockets. -/
theorem Authorised.mono (h : ∀ g ∈ prov.granted p, g ∈ prov'.granted p)
    (hcreator : cap.kind = .socket → prov'.creator cap.poolIndex = prov.creator cap.poolIndex)
    (ha : prov.Authorised p cap) : prov'.Authorised p cap := by
  rcases ha with ⟨root, hc, hrest⟩ | ⟨hkind, netIdx, root, hcr, hc, hrest⟩
  · exact .inl ⟨root, hc.mono h, hrest⟩
  · exact .inr ⟨hkind, netIdx, root, (hcreator hkind).trans hcr, hc.mono h, hrest⟩

/-- A cap derived from an authorised one is authorised. -/
theorem Authorised.derive (ha : prov.Authorised p cap) (hkind : cap'.kind = cap.kind)
    (hindex : cap'.poolIndex = cap.poolIndex) (hrights : RightsLe cap'.rights cap.rights) :
    prov.Authorised p cap' := by
  rcases ha with ⟨root, hc, hk, hi, hr⟩ | ⟨hk, netIdx, root, hcr, hrest⟩
  · exact .inl ⟨root, hc, hkind.trans hk, hindex.trans hi, hrights.trans hr⟩
  · exact .inr ⟨hkind.trans hk, netIdx, root, by rw [hindex]; exact hcr, hrest⟩

/-- A call that leaves the capabilities as they are creates no socket. -/
theorem creatorAfter_self (prov : Provenance) (st : CapState) (c : CapCall) :
    prov.creatorAfter st st c = prov.creator := by
  simp only [creatorAfter]
  split
  · split
    · rw [if_neg (by simp)]
    · rfl
  · rfl

end Provenance

/-- A kernel and its provenance, which notes what was granted to each process and who created each
socket. -/
structure Confinement where
  /-- the kernel -/
  kernel : Kernel
  /-- the provenance -/
  provenance : Provenance

section Machine

variable (ed25519 : Ed25519)

/-- The kernel and the provenance of boot. -/
def confinementBoot (board : Board) : Confinement := ⟨.booted board, .boot⟩

/-- The kernel from boot on, keeping its provenance. The provenance is a history variable: no step
looks at it. -/
def confinementMachine (board : Board) : Machine Confinement KernelCall where
  init h := h = confinementBoot board
  step h c := (kernelStep ed25519 h.kernel c).map fun k =>
    ⟨k, h.provenance.after ed25519 h.kernel c k⟩

theorem confinementMachine_records (board : Board) :
    (confinementMachine ed25519 board).Records (kernelMachine ed25519 board)
      Confinement.kernel := by
  intro h c
  simp [confinementMachine, kernelMachine, Function.comp_def]

variable {ed25519}

/-- The provenance follows the kernel and does not steer it. -/
theorem kernelMachine_reachable_iff {board : Board} {k : Kernel} :
    (kernelMachine ed25519 board).Reachable k ↔
      ∃ h, (confinementMachine ed25519 board).Reachable h ∧ h.kernel = k := by
  refine (confinementMachine_records ed25519 board).reachable_iff fun k => ⟨?_, ?_⟩
  · rintro rfl
    exact ⟨confinementBoot board, rfl, rfl⟩
  · rintro ⟨h, rfl, rfl⟩
    rfl

theorem confinementMachine_step {board : Board} {h h' : Confinement} {c : KernelCall}
    (hs : (confinementMachine ed25519 board).step h c = some h') :
    kernelStep ed25519 h.kernel c = some h'.kernel ∧
      h'.provenance = h.provenance.after ed25519 h.kernel c h'.kernel := by
  obtain ⟨k, hstep, rfl⟩ := Option.map_eq_some_iff.mp hs
  exact ⟨hstep, rfl⟩

end Machine

/-! ## Confinement

Two properties of a state. Isolation is that a syscall rewrites no CSpace but its caller's, and
confinement is that nothing is held without having been conferred. -/

/-- The kinds of capability that the slots of a freshly installed module can hold. -/
def Baseline (k : ObjectKind) : Prop := k = .empty ∨ k = .endpoint ∨ k = .eventLog

/-- What confines the processes of a kernel: each holds only what was conferred on it, or what it
created itself. -/
structure Confined (h : Confinement) : Prop where
  /-- no parent reference crosses processes -/
  inside : ParentsLocal h.kernel.caps
  /-- what a process holds was conferred on it, or it created it -/
  authorised : ∀ p s, (h.kernel.caps.capAt (p, s)).isEmpty = false →
    h.provenance.Authorised p (h.kernel.caps.capAt (p, s))
  /-- runtime-loaded modules hold no Net, Socket or Notification cap -/
  dynamic : ∀ p slot, h.kernel.moduleAt p = some (.dynamic slot) →
    ∀ s, Baseline (h.kernel.caps.capAt (p, s)).kind

/-- A syscall leaves the CSpaces of other processes alone. -/
def IsolatedStep (h : Confinement) (c : KernelCall) (h' : Confinement) : Prop :=
  ∀ call, c = .cap call → ∀ p, call.procId ≠ procByte p →
    h'.kernel.caps.cspaces p = h.kernel.caps.cspaces p

/-- What carries confinement along a run. The creator of a socket has to stay on record as long as
a slot names it, which needs the counts of sockets to be right. -/
structure ConfinementInv (h : Confinement) : Prop where
  tidy : Tidy h.kernel
  table : h.kernel.caps.ParentsInTable
  inside : ParentsLocal h.kernel.caps
  sockets : RefLaw h.kernel.caps .socket
  authorised : ∀ p s, (h.kernel.caps.capAt (p, s)).isEmpty = false →
    h.provenance.Authorised p (h.kernel.caps.capAt (p, s))
  baseline : ∀ p : Proc, procIdDynBase ≤ p.val → ∀ s, Baseline (h.kernel.caps.capAt (p, s)).kind
  modules : ∀ (p : Proc) slot, h.kernel.moduleAt p = some (.dynamic slot) → procIdDynBase ≤ p.val

theorem ConfinementInv.confined {h : Confinement} (hinv : ConfinementInv h) : Confined h :=
  ⟨hinv.inside, hinv.authorised, fun p slot hp => hinv.baseline p (hinv.modules p slot hp)⟩

theorem confinementInv_boot (board : Board) : ConfinementInv (confinementBoot board) := by
  refine ⟨tidy_booted board, parentsInTable_bootState board, parentsLocal_bootState board,
    refLaw_bootState board rfl, fun p s _ => ?_, fun p hp s => ?_, fun p slot hp => ?_⟩
  · refine .inl ⟨_, .inl ⟨s, rfl⟩, ?_⟩
    change ((bootState board).capAt (p, s)).kind = _ ∧
      ((bootState board).capAt (p, s)).poolIndex = _ ∧
      RightsLe ((bootState board).capAt (p, s)).rights _
    rw [capAt_bootState]
    exact ⟨rfl, rfl, .refl _⟩
  · change Baseline ((bootState board).capAt (p, s)).kind
    have hfree : Kernel.bootProcesses p = none := by
      have hp' : 5 ≤ p.val := hp
      revert hp'
      revert p
      decide
    have hempty := (tidy_booted board).unused p hfree s
    exact .inl (Cap.isEmpty_iff.mp hempty)
  · exfalso
    revert hp
    change (Kernel.bootProcesses p).map Process.moduleId = some (.dynamic slot) → False
    fin_cases p <;> intro hp <;> cases hp

/-! ## One step

Syscalls derive from what is held, and installations confer. Everything else leaves the tables
alone. -/

/-- What an installation confers is of the baseline kinds, whatever was granted. -/
theorem grantTable_baseline (u x : ℕ) (granted : GrantSpec) (s : Slot) :
    Baseline (grantTable u x granted s).kind := by
  rw [grantTable]
  split
  · exact .inr (.inr rfl)
  · split
    · exact .inr (.inl rfl)
    · split
      · exact .inr (.inl rfl)
      · exact .inl rfl

namespace Provenance

variable {ed25519 : Ed25519} {prov : Provenance} {k k' : Kernel} {c : KernelCall}

theorem after_creator_of_caps (h : k'.caps = k.caps) :
    (prov.after ed25519 k c k').creator = prov.creator := by
  cases c with
  | cap call =>
    change prov.creatorAfter k.caps k'.caps call = prov.creator
    rw [h, creatorAfter_self]
  | _ => rfl

theorem after_of_installs {p : Proc} {granted : GrantSpec}
    (h : installs ed25519 k c = some (p, granted)) :
    prov.after ed25519 k c k' =
      ⟨Function.update prov.granted p (granted :: prov.granted p), prov.creator⟩ := by
  simp only [after]
  rw [h]
  cases c with
  | cap call => cases h
  | _ => rfl

theorem after_of_quiet (hinst : installs ed25519 k c = none) (h : k'.caps = k.caps) :
    prov.after ed25519 k c k' = prov := by
  have hcreator : (prov.after ed25519 k c k').creator = prov.creator := after_creator_of_caps h
  have hgranted : (prov.after ed25519 k c k').granted = prov.granted := by
    simp only [after]
    rw [hinst]
  cases hafter : prov.after ed25519 k c k'
  rw [hafter] at hcreator hgranted
  cases prov
  simp_all

end Provenance

/-- The creator of a socket some slot names stays on record. -/
theorem creatorAfter_of_named {st st' : CapState} {c : CapCall} {r : ℤ} (prov : Provenance)
    (h : CapEffect st c r st') (hsock : RefLaw st .socket) {a : Place}
    (ha : (st.capAt a).kind = .socket) :
    prov.creatorAfter st st' c (st.capAt a).poolIndex = prov.creator (st.capAt a).poolIndex := by
  cases h with
  | refused => rw [Provenance.creatorAfter_self]
  | @socketCreated _ _ _ p t handle idx sockets harg hnet hwrite hdst halloc =>
    obtain ⟨-, hfree, -⟩ := Pool.alloc_ok halloc
    have hne : (st.capAt a).poolIndex ≠ idx := by
      intro he
      obtain ⟨obj, hobj⟩ := hsock.object_of_name ha
      rw [ObjectPools.object?, he, hfree] at hobj
      cases hobj
    simp only [Provenance.creatorAfter, procIndex?_procByte, harg]
    split
    · rw [CapState.capAt_installCap, if_pos rfl]
      exact Function.update_of_ne hne _ _
    · rfl
  | _ => rfl

/-- **A syscall leaves every process with what it is authorised to**: a derived capability is for
an object that its source is for. -/
theorem authorised_capStep {st st' : CapState} {c : CapCall} {r : ℤ} {prov prov' : Provenance}
    (h : CapEffect st c r st') (hsock : RefLaw st .socket)
    (hauth : ∀ p s, (st.capAt (p, s)).isEmpty = false → prov.Authorised p (st.capAt (p, s)))
    (hgranted : prov'.granted = prov.granted)
    (hcreator : prov'.creator = prov.creatorAfter st st' c) {p : Proc} {s : Slot}
    (hocc : (st'.capAt (p, s)).isEmpty = false) : prov'.Authorised p (st'.capAt (p, s)) := by
  have hmono : ∀ g ∈ prov.granted p, g ∈ prov'.granted p := by
    intro g hg
    rwa [hgranted]
  have hnamed : ∀ a, (st.capAt a).kind = .socket →
      prov'.creator (st.capAt a).poolIndex = prov.creator (st.capAt a).poolIndex := by
    intro a ha
    rw [hcreator, creatorAfter_of_named prov h hsock ha]
  cases h.source hocc with
  | kept hkept =>
    rw [← hkept]
    exact (hauth p s (by rw [hkept]; exact hocc)).mono hmono (hnamed _)
  | derived hsrc hkind hindex hrights =>
    exact ((hauth p _ hsrc).mono hmono (hnamed _)).derive hkind hindex hrights
  | socket hkind hempty hcall hnet hwrite =>
    obtain ⟨proto, slotForCap, driver, rfl, harg⟩ := hcall
    have hnetocc : (st.capAt (p, slotNet)).isEmpty = false :=
      Cap.isEmpty_eq_false_iff.mpr (by rw [hnet]; decide)
    refine .inr ⟨hkind, (st.capAt (p, slotNet)).poolIndex, ?_⟩
    rcases hauth p slotNet hnetocc with ⟨root, hroot, hk, hi, hr⟩ | ⟨hk, -⟩
    · refine ⟨root, ?_, hroot.mono hmono, hk ▸ hnet, hi.symm, fun hzero => hwrite ?_⟩
      · rw [hcreator]
        simp only [Provenance.creatorAfter, procIndex?_procByte, harg]
        rw [if_pos (by simp [hempty, hocc])]
        exact Function.update_self _ _ _
      · exact rightsLe_and_eq_zero hr hzero
    · rw [hnet] at hk
      cases hk

/-- An installation names no socket, so that the counts of the sockets stay right. -/
theorem Kernel.Installed.refLaw_socket {k k' : Kernel} {p : Proc} {granted : GrantSpec}
    (h : k.Installed k' p granted) (htidy : Tidy k) (hsock : RefLaw k.caps .socket) :
    RefLaw k'.caps .socket := by
  obtain ⟨hcap, hpools, -⟩ := h.capAt htidy.eps
  have hnames : ∀ i, k'.caps.names .socket i = k.caps.names .socket i := by
    refine fun i => Lib.tally_congr fun a => ?_
    rw [hcap]
    by_cases ha : a.1 = p
    · have hempty := htidy.unused a.1 (ha ▸ h.free) a.2
      rw [if_pos ha]
      constructor
      · rintro ⟨hkind, -⟩
        rcases grantTable_baseline 0 1 granted a.2 with hk | hk | hk <;> rw [hkind] at hk <;>
          cases hk
      · rintro ⟨hkind, -⟩
        rw [Cap.isEmpty_iff, hkind] at hempty
        cases hempty
    · rw [if_neg ha]
  rw [refLaw_iff] at hsock ⊢
  intro i
  rw [hnames, hpools]
  exact hsock i

/-- No capability syscall gives a runtime-loaded module a kind of cap it did not have. -/
theorem baseline_capStep {st st' : CapState} {c : CapCall} {r : ℤ} {p : Proc}
    (h : CapEffect st c r st') (hbaseline : ∀ s, Baseline (st.capAt (p, s)).kind) (s : Slot) :
    Baseline (st'.capAt (p, s)).kind := by
  by_cases hocc : (st'.capAt (p, s)).isEmpty = false
  · cases h.source hocc with
    | kept hkept => exact hkept ▸ hbaseline s
    | derived _ hkind => exact hkind ▸ hbaseline _
    | socket _ _ _ hnet =>
      have hbase := hbaseline slotNet
      rw [hnet] at hbase
      rcases hbase with hk | hk | hk <;> cases hk
  · exact .inl (Cap.isEmpty_iff.mp (Bool.not_eq_false _ ▸ hocc))

/-- A module brought up is authorised to its root caps, and nobody loses a grant. -/
theorem authorised_installed {h h' : Confinement} {p : Proc} {granted : GrantSpec}
    (hinv : ConfinementInv h) (hbrought : h.kernel.Installed h'.kernel p granted)
    (hprov : h'.provenance = ⟨Function.update h.provenance.granted p
      (granted :: h.provenance.granted p), h.provenance.creator⟩) {q : Proc} {s : Slot}
    (hocc : (h'.kernel.caps.capAt (q, s)).isEmpty = false) :
    h'.provenance.Authorised q (h'.kernel.caps.capAt (q, s)) := by
  obtain ⟨hcap, -, -⟩ := hbrought.capAt hinv.tidy.eps
  have hgranted : h'.provenance.granted =
      Function.update h.provenance.granted p (granted :: h.provenance.granted p) := by
    rw [hprov]
  have hmono : ∀ g ∈ h.provenance.granted q, g ∈ h'.provenance.granted q := by
    intro g hg
    rw [hgranted]
    by_cases hq : q = p
    · subst hq
      rw [Function.update_self]
      exact List.mem_cons_of_mem _ hg
    · rwa [Function.update_of_ne hq]
  rw [hcap] at hocc ⊢
  by_cases hq : q = p
  · rw [if_pos hq] at hocc ⊢
    refine .inl ⟨_, .inr ⟨granted, ?_, s, rfl⟩, rfl, rfl, .refl _⟩
    rw [hgranted, hq, Function.update_self]
    exact List.mem_cons_self
  · rw [if_neg hq] at hocc ⊢
    exact (hinv.authorised q s hocc).mono hmono fun _ => by rw [hprov]

/-- **One step keeps confinement.** There is a case for each kind of step: the syscalls, the
registry, and the turns, which touch no capability. -/
theorem confinementInv_step {ed25519 : Ed25519} {board : Board} {h h' : Confinement}
    {c : KernelCall} (hinv : ConfinementInv h)
    (hs : (confinementMachine ed25519 board).step h c = some h') : ConfinementInv h' := by
  obtain ⟨hstep, hprov⟩ := confinementMachine_step hs
  have htidy := tidy_step hinv.tidy hstep
  have htable := parentsInTable_step hinv.tidy hinv.table hstep
  cases kernelStep_effect hstep with
  | @capCall call r st hc hcall hk' =>
    subst hc
    have heffect := capStep_effect hcall
    have hcaps : h'.kernel.caps = st := by rw [hk']
    rw [← hcaps] at heffect
    refine ⟨htidy, htable, heffect.parentsLocal hinv.inside,
      heffect.refLaw (by decide) hinv.sockets hinv.sockets, fun p s hocc => ?_,
      fun p hp => baseline_capStep heffect (hinv.baseline p hp),
      fun p slot hp => hinv.modules p slot (by rw [hk'] at hp; exact hp)⟩
    exact authorised_capStep heffect hinv.sockets hinv.authorised (by rw [hprov]; rfl)
      (by rw [hprov]; rfl) hocc
  | @installed p granted hinst hbrought =>
    obtain ⟨hcap, -, -⟩ := hbrought.capAt hinv.tidy.eps
    rw [Provenance.after_of_installs hinst] at hprov
    refine ⟨htidy, htable, fun a hocc b hb => ?_, hbrought.refLaw_socket hinv.tidy hinv.sockets,
      fun q s hocc => authorised_installed hinv hbrought hprov hocc, fun q hq s => ?_,
      fun q slot hq => ?_⟩
    · -- a root cap has no parent
      rw [hcap] at hocc hb
      by_cases ha : a.1 = p
      · rw [if_pos ha, grantTable_parent] at hb
        cases hb
      · rw [if_neg ha] at hocc hb
        exact hinv.inside a hocc b hb
    · rw [hcap]
      split
      · exact grantTable_baseline 0 1 granted s
      · exact hinv.baseline q hq s
    · obtain ⟨slot', hmods⟩ := hbrought.modules
      rw [hmods] at hq
      by_cases hqp : q = p
      · rw [hqp]
        exact hbrought.dynamic
      · rw [if_neg hqp] at hq
        exact hinv.modules q slot hq
  | quiet hinst hquiet =>
    rw [Provenance.after_of_quiet hinst hquiet.caps] at hprov
    refine ⟨htidy, htable, ?_, ?_, ?_, ?_, fun p slot hp => ?_⟩
    · rw [hquiet.caps]
      exact hinv.inside
    · rw [hquiet.caps]
      exact hinv.sockets
    · rw [hquiet.caps, hprov]
      exact hinv.authorised
    · rw [hquiet.caps]
      exact hinv.baseline
    · rw [hquiet.modules] at hp
      exact hinv.modules p slot hp

/-- A syscall is isolated where parent references are. -/
theorem isolatedStep {ed25519 : Ed25519} {board : Board} {h h' : Confinement} {c : KernelCall}
    (hinv : ConfinementInv h) (hs : (confinementMachine ed25519 board).step h c = some h') :
    IsolatedStep h c h' := by
  rintro call rfl p hp
  obtain ⟨hstep, -⟩ := confinementMachine_step hs
  obtain ⟨⟨r, st⟩, hcall, hk'⟩ := Option.map_eq_some_iff.mp hstep
  rw [← hk']
  exact (capStep_effect hcall).isolated hinv.table hinv.inside hp

/-- **Isolation and confinement.** In every state the kernel reaches from boot,
by syscalls, staging, spawns and ends of tenants in any order, parent references
stay in their process, each process holds only what was conferred on it or what
it created, and runtime-loaded modules hold no Net, Socket or Notification cap.
And along every run, a syscall leaves the CSpaces of other processes alone. -/
theorem isolated_and_confined (ed25519 : Ed25519) (board : Board) :
    (confinementMachine ed25519 board).Always Confined ∧
      ∀ calls, (confinementMachine ed25519 board).Along IsolatedStep (confinementBoot board)
        calls := by
  constructor
  · have halways : (confinementMachine ed25519 board).Always ConfinementInv := by
      refine Machine.always_of_step ?_ fun h c h' hinv hs => confinementInv_step hinv hs
      rintro h rfl
      exact confinementInv_boot board
    exact halways.mono fun h hinv => hinv.confined
  · intro calls
    exact Machine.along_of_step (I := ConfinementInv)
      (fun h c h' hinv hs => ⟨isolatedStep hinv hs, confinementInv_step hinv hs⟩) calls _
      (confinementInv_boot board)

end Wari
