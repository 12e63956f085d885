import Wari.Kernel

/-!
# Module registry

Staging and spawning of Tier-1 modules at run time, the envelope check in front
of it, and the restart of daemons. The Ed25519 primitive is a parameter: what it
accepts is up to the library behind it.
-/

namespace Wari

/-! ## Signed envelopes

A key, a signature and the module. The one key that is accepted is compared first. -/

/-- Ed25519 verification of a message: public key, message and signature to
verdict. -/
abbrev Ed25519 : Type := List (BitVec 8) → List (BitVec 8) → List (BitVec 8) → Bool

/-- The length of the public key field of an envelope. -/
def pubkeyLen : ℕ := 32

/-- The length of the signature field of an envelope. -/
def signatureLen : ℕ := 64

/-- The length of the header, which is the key and the signature. -/
def headerLen : ℕ := pubkeyLen + signatureLen

/-- The one public key that the kernel accepts. -/
def acceptedPubkey : List (BitVec 8) :=
  [0xf6, 0x09, 0xfc, 0x9a, 0xe4, 0x6f, 0xd9, 0x09, 0xbe, 0x0f, 0x6d, 0xf9, 0x78, 0x9d, 0xc4, 0x32,
    0xa1, 0xb8, 0x2c, 0x70, 0xf1, 0x56, 0x44, 0xbf, 0xf7, 0x94, 0x9d, 0xac, 0x12, 0x05, 0x70, 0x1a]

/-- Verify a signed envelope: the module behind the header, if the signature over
it is good. -/
def verify (ed25519 : Ed25519) (envelope : List (BitVec 8)) :
    Except KernelError (List (BitVec 8)) :=
  if envelope.length < headerLen then .error .badWasm
  else
    let header := envelope.take headerLen
    let wasmBytes := envelope.drop headerLen
    let pubkeyBytes := header.take pubkeyLen
    let sigBytes := header.drop pubkeyLen
    if pubkeyBytes ≠ acceptedPubkey then .error .badWasm
    else if ed25519 pubkeyBytes wasmBytes sigBytes then .ok wasmBytes
    else .error .badWasm

/-! ## The registry

Four slots, one store of bytes for all of them, and process ids from five on that are never used
again. -/

/-- First process id the registry may hand out. -/
def procIdDynBase : ℕ := 5

/-- The most optional authority a runtime-loaded module may hold. -/
def dynamicCeiling : GrantSpec := .eventlog

/-- Is a registry slot free? Only then is an envelope staged in it. -/
def SlotState.isFree : SlotState → Bool
  | .free => true
  | _ => false

namespace Kernel

/-- Write one registry slot, and leave the stored bytes alone. -/
def setSlot (k : Kernel) (i : Fin dynSlots) (s : SlotState) : Kernel :=
  { k with modreg := { k.modreg with slots := Function.update k.modreg.slots i s } }

/-- Stage a signed envelope into a free slot. -/
def stage (k : Kernel) (bytes : List (BitVec 8)) : Except KernelError (BitVec 8) × Kernel :=
  if bytes = [] ∨ maxModuleBytes < bytes.length then (.error .invalidArgument, k)
  else
    match (List.finRange dynSlots).find? fun i => (k.modreg.slots i).isFree with
    | none => (.error .outOfHandles, k)
    | some i =>
      let stored := bytes ++ (k.modreg.store i).drop bytes.length
      let k : Kernel :=
        { k with modreg := { k.modreg with store := Function.update k.modreg.store i stored } }
      let k := k.setSlot i (.staged bytes.length)
      (.ok (BitVec.ofNat 8 i.val),
        k.emit .moduleStaged (BitVec.ofNat 16 i.val) (BitVec.ofNat 32 bytes.length))

/-- Lowest unused process id in the dynamic range. -/
def allocProcId (k : Kernel) : Except KernelError Proc :=
  match (List.finRange maxProcs).find? fun p =>
      decide (procIdDynBase ≤ p.val) && (k.processes p).isNone with
  | some p => .ok p
  | none => .error .outOfHandles

/-- The bytes that were staged in a slot, up to their length. -/
def envelope (k : Kernel) (i : Fin dynSlots) (len : ℕ) : List (BitVec 8) :=
  (k.modreg.store i).take len

/-- Verify, attenuate, install, register, and record the slot as live with its
restart policy. -/
def spawnInner (ed25519 : Ed25519) (k : Kernel) (slot : BitVec 8) (requested : GrantSpec)
    (restartBudget : BitVec 8) : Except KernelError Proc × Kernel :=
  if h : slot.toNat < dynSlots then
    let idx : Fin dynSlots := ⟨slot.toNat, h⟩
    match k.modreg.slots idx with
    | .staged envLen =>
      match verify ed25519 (k.envelope idx envLen) with
      | .error e => (.error e, (k.emit .spawnRejected (slot.setWidth 16) 0#32).setSlot idx .free)
      | .ok payload =>
        let payloadOff := (k.envelope idx envLen).length - payload.length
        match k.allocProcId with
        | .error e => (.error e, k)
        | .ok procId =>
          let granted := requested.attenuate dynamicCeiling
          match installTier1Grants k.caps (procByte procId) granted with
          | .error e => (.error e, k)
          | .ok caps =>
            let k : Kernel := { k with caps := caps }
            let denied := requested.denied granted
            let k :=
              if denied.isEmpty then k
              else k.emit .grantAttenuated (BitVec.ofNat 16 procId.val) denied.bits
            match k.registerTenant (procByte procId) .one (.dynamic slot) with
            | .error e => (.error e, k)
            | .ok k =>
              let k := k.setSlot idx (.live payloadOff payload.length procId granted
                (decide (0#8 < restartBudget)) restartBudget)
              (.ok procId,
                k.emit .spawnVerified (slot.setWidth 16) (BitVec.ofNat 32 procId.val))
    | _ => (.error .invalidArgument, k)
  else (.error .invalidArgument, k)

/-- The daemon that runs as `p`: its slot, restarts left, grants, and where its
payload is. -/
def daemonOf (k : Kernel) (p : Proc) : Option (Fin dynSlots × BitVec 8 × GrantSpec × ℕ × ℕ) :=
  (List.finRange dynSlots).findSome? fun i =>
    match k.modreg.slots i with
    | .live off len procId grants true restartsLeft =>
      if procId = p then some (i, restartsLeft, grants, off, len) else none
    | _ => none

/-- Restart a verified module under a fresh process id. -/
def restart (k : Kernel) (idx : Fin dynSlots) (grants : GrantSpec) :
    Except KernelError Proc × Kernel :=
  match k.allocProcId with
  | .error e => (.error e, k)
  | .ok newPid =>
    match installTier1Grants k.caps (procByte newPid) grants with
    | .error e => (.error e, k)
    | .ok caps =>
      let k : Kernel := { k with caps := caps }
      match k.registerTenant (procByte newPid) .one (.dynamic (BitVec.ofNat 8 idx.val)) with
      | .error e => (.error e, k)
      | .ok k => (.ok newPid, k)

/-- A tenant terminated: restart it if it is a daemon with budget left. -/
def onTenantTerminated (k : Kernel) (p : Proc) : Kernel :=
  match k.daemonOf p with
  | none => k
  | some (idx, restartsLeft, grants, off, len) =>
    if restartsLeft = 0#8 then
      (k.setSlot idx (.live off len p grants false 0#8)).emit .daemonGaveUp
        (BitVec.ofNat 16 p.val) 0#32
    else
      match k.restart idx grants with
      | (.ok newPid, k) =>
        let left := restartsLeft - 1#8
        (k.setSlot idx (.live off len newPid grants true left)).emit .daemonRestarted
          (BitVec.ofNat 16 newPid.val) (left.setWidth 32)
      | (.error _, k) =>
        (k.setSlot idx (.live off len p grants false 0#8)).emit .daemonGaveUp
          (BitVec.ofNat 16 p.val) 0#32

/-! ## What the registry does to CSpaces and to the process table

Staging and refusals leave both alone. Bringing a module up installs its capabilities and
registers its process, and does nothing else. -/

@[simp] theorem caps_setSlot (k : Kernel) (i : Fin dynSlots) (s : SlotState) :
    (k.setSlot i s).caps = k.caps := rfl

@[simp] theorem processes_setSlot (k : Kernel) (i : Fin dynSlots) (s : SlotState) :
    (k.setSlot i s).processes = k.processes := rfl

@[simp] theorem events_setSlot (k : Kernel) (i : Fin dynSlots) (s : SlotState) :
    (k.setSlot i s).events = k.events := rfl

@[simp] theorem moduleAt_setSlot (k : Kernel) (i : Fin dynSlots) (s : SlotState) (p : Proc) :
    (k.setSlot i s).moduleAt p = k.moduleAt p := rfl

/-- No cap is installed and no process registered. -/
structure Quiet (k k' : Kernel) : Prop where
  caps : k'.caps = k.caps
  modules : ∀ q, k'.moduleAt q = k.moduleAt q

/-- A runtime-loaded module is brought up as `p`, with `granted`. -/
structure Installed (k k' : Kernel) (p : Proc) (granted : GrantSpec) : Prop where
  free : k.processes p = none
  dynamic : procIdDynBase ≤ p.val
  caps : installTier1Grants k.caps (procByte p) granted = .ok k'.caps
  modules : ∃ slot, ∀ q, k'.moduleAt q = if q = p then some (.dynamic slot) else k.moduleAt q

theorem Quiet.refl (k : Kernel) : k.Quiet k := ⟨rfl, fun _ => rfl⟩

theorem Quiet.trans {k₁ k₂ k₃ : Kernel} (h₁ : k₁.Quiet k₂) (h₂ : k₂.Quiet k₃) : k₁.Quiet k₃ :=
  ⟨h₂.caps.trans h₁.caps, fun q => (h₂.modules q).trans (h₁.modules q)⟩

theorem Quiet.emit (k : Kernel) (kind : EventKind) (a : BitVec 16) (b : BitVec 32) :
    k.Quiet (k.emit kind a b) :=
  ⟨k.caps_emit kind a b, k.moduleAt_emit kind a b⟩

/-- A process in the table stays there, and no other comes. -/
theorem Quiet.processes_eq_none {k k' : Kernel} (h : k.Quiet k') (p : Proc) :
    k'.processes p = none ↔ k.processes p = none := by
  rw [← moduleAt_eq_none, h.modules, moduleAt_eq_none]

theorem Installed.of_quiet {k₁ k₂ k₃ : Kernel} {p : Proc} {granted : GrantSpec}
    (h₁ : k₁.Quiet k₂) (h₂ : k₂.Installed k₃ p granted) : k₁.Installed k₃ p granted := by
  obtain ⟨slot, hmods⟩ := h₂.modules
  refine ⟨(h₁.processes_eq_none p).mp h₂.free, h₂.dynamic, h₁.caps ▸ h₂.caps, slot, fun q => ?_⟩
  rw [hmods, h₁.modules]

theorem Installed.then_quiet {k₁ k₂ k₃ : Kernel} {p : Proc} {granted : GrantSpec}
    (h₁ : k₁.Installed k₂ p granted) (h₂ : k₂.Quiet k₃) : k₁.Installed k₃ p granted := by
  obtain ⟨slot, hmods⟩ := h₁.modules
  refine ⟨h₁.free, h₁.dynamic, by rw [h₂.caps]; exact h₁.caps, slot, fun q => ?_⟩
  rw [h₂.modules, hmods]

theorem quiet_stage (k : Kernel) (bytes : List (BitVec 8)) : k.Quiet (k.stage bytes).2 := by
  rw [stage]
  split
  · exact Quiet.refl k
  · split
    · exact Quiet.refl k
    · exact ⟨caps_emit _ _ _ _, fun q => moduleAt_emit _ _ _ _ q⟩

theorem allocProcId_ok {k : Kernel} {p : Proc} (h : k.allocProcId = .ok p) :
    k.processes p = none ∧ procIdDynBase ≤ p.val := by
  rw [allocProcId] at h
  split at h
  · rename_i q hfind
    obtain rfl := Except.ok.inj h
    have hq := List.find?_some hfind
    simp only [Bool.and_eq_true, decide_eq_true_eq, Option.isNone_iff_eq_none] at hq
    exact ⟨hq.2, hq.1⟩
  · cases h

/-- A free process id can be registered, and that brings the module up. -/
theorem installed_of_register {k k₁ k₂ : Kernel} {p : Proc} {granted : GrantSpec} {tier : Tier}
    {slot : BitVec 8} (h : k₁.registerTenant (procByte p) tier (.dynamic slot) = .ok k₂)
    (hfree : k.processes p = none) (hdyn : procIdDynBase ≤ p.val)
    (hcaps : installTier1Grants k.caps (procByte p) granted = .ok k₁.caps)
    (hmods : ∀ q, k₁.moduleAt q = k.moduleAt q) : k.Installed k₂ p granted := by
  obtain ⟨q, hq, -, rfl⟩ := register_ok h
  have hpq : q = p := by
    have hval := congrArg BitVec.toNat hq
    rw [toNat_procByte, toNat_procByte] at hval
    exact (Fin.ext hval).symm
  subst hpq
  refine ⟨hfree, hdyn, hcaps, slot, fun r => ?_⟩
  change Option.map Process.moduleId (Function.update k₁.processes q _ r) = _
  by_cases hr : r = q
  · subst hr
    rw [Function.update_self, if_pos rfl]
    rfl
  · rw [Function.update_of_ne hr, if_neg hr]
    exact hmods r

/-- Registering a free process id succeeds. -/
theorem registerTenant_isOk {k : Kernel} {p : Proc} (hfree : k.processes p = none) (tier : Tier)
    (moduleId : ModuleId) : ∃ k', k.registerTenant (procByte p) tier moduleId = .ok k' := by
  rw [registerTenant, register, procIndex?_procByte]
  simp [hfree]

/-! ## When the registry installs

Whether a step installs can be told from the state before it, which the conditions of other
theorems rely on. -/

/-- The process id and grants a spawn installs, told from the state before it. -/
def spawnInstalls (ed25519 : Ed25519) (k : Kernel) (slot : BitVec 8) (requested : GrantSpec) :
    Option (Proc × GrantSpec) :=
  if h : slot.toNat < dynSlots then
    match k.modreg.slots ⟨slot.toNat, h⟩ with
    | .staged envLen =>
      match verify ed25519 (k.envelope ⟨slot.toNat, h⟩ envLen), k.allocProcId,
        k.caps.bootTier1Eps with
      | .ok _, .ok p, some _ => some (p, requested.attenuate dynamicCeiling)
      | _, _, _ => none
    | _ => none
  else none

/-- The process id and grants the end of a tenant installs, told from the state
before it. -/
def restartInstalls (k : Kernel) (p : Proc) : Option (Proc × GrantSpec) :=
  match k.daemonOf p with
  | some (_, restartsLeft, grants, _, _) =>
    if restartsLeft = 0#8 then none
    else
      match k.allocProcId, k.caps.bootTier1Eps with
      | .ok q, some _ => some (q, grants)
      | _, _ => none
  | none => none

theorem installTier1Grants_isOk (st : CapState) (p : Proc) (granted : GrantSpec) :
    (∃ st', installTier1Grants st (procByte p) granted = .ok st') ↔
      ∃ eps, st.bootTier1Eps = some eps := by
  rw [installTier1Grants]
  rw [procIndex?_procByte]
  rcases st.bootTier1Eps with _ | ⟨u, x⟩
  · simp
  · refine ⟨fun _ => ⟨_, rfl⟩, fun _ => ?_⟩
    simp only
    split <;> exact ⟨_, rfl⟩

/-- What a step brings up, if anything: either no capability is installed and no process
registered, or one process with its grants. -/
def Brings (k : Kernel) : Option (Proc × GrantSpec) → Kernel → Prop
  | none, k' => k.Quiet k'
  | some (p, granted), k' => k.Installed k' p granted

theorem Brings.of_quiet {k₁ k₂ k₃ : Kernel} {o : Option (Proc × GrantSpec)} (h₁ : k₁.Quiet k₂)
    (h₂ : k₂.Brings o k₃) : k₁.Brings o k₃ := by
  rcases o with _ | ⟨p, granted⟩
  · exact h₁.trans h₂
  · exact Installed.of_quiet h₁ h₂

/-- **What a spawn brings up**: the process that `spawnInstalls` foretells, with its grants, or
nothing. -/
theorem spawnInner_brings (ed25519 : Ed25519) (k : Kernel) (slot : BitVec 8)
    (requested : GrantSpec) (restartBudget : BitVec 8) :
    k.Brings (k.spawnInstalls ed25519 slot requested)
      (k.spawnInner ed25519 slot requested restartBudget).2 := by
  rw [spawnInner, spawnInstalls]
  split
  · rename_i hslot
    simp only
    rcases hstate : k.modreg.slots ⟨slot.toNat, hslot⟩ with _ | envLen | _
    · exact Quiet.refl k
    · simp only
      rcases hverify : verify ed25519 (k.envelope ⟨slot.toNat, hslot⟩ envLen) with e | payload
      · exact ⟨k.caps_emit _ _ _, k.moduleAt_emit _ _ _⟩
      · rcases halloc : k.allocProcId with e | p
        · exact Quiet.refl k
        · obtain ⟨hfree, hdyn⟩ := allocProcId_ok halloc
          simp only
          rcases hcaps : installTier1Grants k.caps (procByte p)
              (requested.attenuate dynamicCeiling) with e | caps
          · have hnone : k.caps.bootTier1Eps = none := by
              rw [← Option.not_isSome_iff_eq_none, Option.isSome_iff_exists,
                ← installTier1Grants_isOk k.caps p (requested.attenuate dynamicCeiling), hcaps]
              rintro ⟨st', hst'⟩
              cases hst'
            rw [hnone]
            exact Quiet.refl k
          · obtain ⟨eps, heps⟩ := (installTier1Grants_isOk k.caps p _).mp ⟨caps, hcaps⟩
            rw [heps]
            simp only
            -- the audit record in between changes neither caps nor modules
            generalize hk₁ : (if (requested.denied (requested.attenuate dynamicCeiling)).isEmpty
              then ({ k with caps := caps } : Kernel) else _) = k₁
            have hq : Quiet { k with caps := caps } k₁ := by
              rw [← hk₁]
              split
              · exact .refl _
              · exact .emit _ _ _ _
            have hfree₁ : k₁.processes p = none := (hq.processes_eq_none p).mpr hfree
            obtain ⟨k₂, hreg⟩ := registerTenant_isOk hfree₁ .one (.dynamic slot)
            rw [hreg]
            have hinst : k.Installed k₂ p (requested.attenuate dynamicCeiling) :=
              installed_of_register hreg hfree hdyn (by rw [hcaps, hq.caps]) fun q => hq.modules q
            exact hinst.then_quiet ⟨caps_emit _ _ _ _, fun q => moduleAt_emit _ _ _ _ q⟩
    · exact Quiet.refl k
  · exact Quiet.refl k

/-- **What the end of a tenant brings up**: the daemon that `restartInstalls` foretells, or
nothing. -/
theorem onTenantTerminated_brings (k : Kernel) (p : Proc) :
    k.Brings (k.restartInstalls p) (k.onTenantTerminated p) := by
  rw [onTenantTerminated, restartInstalls]
  rcases k.daemonOf p with _ | ⟨idx, restartsLeft, grants, off, len⟩
  · exact Quiet.refl k
  · simp only
    split
    · exact ⟨caps_emit _ _ _ _, fun q => moduleAt_emit _ _ _ _ q⟩
    · rw [restart]
      rcases halloc : k.allocProcId with e | q
      · exact ⟨caps_emit _ _ _ _, fun q => moduleAt_emit _ _ _ _ q⟩
      · obtain ⟨hfree, hdyn⟩ := allocProcId_ok halloc
        simp only
        rcases hcaps : installTier1Grants k.caps (procByte q) grants with e | caps
        · have hnone : k.caps.bootTier1Eps = none := by
            rw [← Option.not_isSome_iff_eq_none, Option.isSome_iff_exists,
              ← installTier1Grants_isOk k.caps q grants, hcaps]
            rintro ⟨st', hst'⟩
            cases hst'
          rw [hnone]
          exact ⟨caps_emit _ _ _ _, fun q => moduleAt_emit _ _ _ _ q⟩
        · obtain ⟨eps, heps⟩ := (installTier1Grants_isOk k.caps q grants).mp ⟨caps, hcaps⟩
          rw [heps]
          have hfree₁ : Kernel.processes { k with caps := caps } q = none := hfree
          obtain ⟨k₂, hreg⟩ := registerTenant_isOk hfree₁ .one (.dynamic (BitVec.ofNat 8 idx.val))
          simp only [hreg]
          have hinst : k.Installed k₂ q grants :=
            installed_of_register hreg hfree hdyn hcaps fun _ => rfl
          exact hinst.then_quiet ⟨caps_emit _ _ _ _, fun q => moduleAt_emit _ _ _ _ q⟩

end Kernel

end Wari
