import Wari.Registry

/-!
# Integrity of the module registry

The system with a record of what was staged into every slot, on what terms the slot was
spawned, and how often a process was given up. Whatever the order of uploads, spawns and
ends, a slot keeps its bytes until it is freed, and what the loader reads from a live one is
what the signature was checked for.
-/

namespace Wari

open Lib (Machine)

/-! ## The record

What was staged and on what terms a slot was spawned is recorded next to the system, told from the
calls. -/

/-- Is it the registry that is called? -/
def SystemCall.isModreg : SystemCall → Bool
  | .stage _ => true
  | .spawn _ _ _ => true
  | _ => false

/-- What a spawn asks for, which is written down when it succeeds. -/
structure Terms where
  /-- optional authority -/
  requested : GrantSpec
  /-- restarts -/
  budget : BitVec 8

/-- The system, and what has become of its modules. -/
structure Registrar where
  kernel : Kernel
  /-- the envelope that was staged last -/
  staged : Fin dynSlots → List (BitVec 8)
  /-- the terms a slot was spawned on last -/
  terms : Fin dynSlots → Option Terms
  /-- give-up records -/
  gaveUp : Proc → ℕ

namespace Kernel

/-- The slot a step stages, and the envelope. -/
def stages (k : Kernel) : SystemCall → Option (BitVec 8 × List (BitVec 8))
  | .stage bytes => (k.stage bytes).1.toOption.map fun slot => (slot, bytes)
  | _ => none

/-- The slot a step spawns, and the terms. -/
def spawns (ed25519 : Ed25519) (k : Kernel) : SystemCall → Option (BitVec 8 × Terms)
  | .spawn slot requested restartBudget =>
    (k.spawnInner ed25519 slot requested restartBudget).1.toOption.map fun _ =>
      (slot, ⟨requested, restartBudget⟩)
  | _ => none

/-- The give-up records of a step about a process. -/
def givenUp (k k' : Kernel) (p : Proc) : ℕ :=
  (k.news k').countP fun e => e.kind == EventKind.daemonGaveUp.raw && e.a == BitVec.ofNat 16 p.val

/-- The slot is live as this process, on whatever terms. -/
def RunsAs (k : Kernel) (i : Fin dynSlots) (p : Proc) : Prop :=
  ∃ off len g d r, k.modreg.slots i = .live off len p g d r

end Kernel

/-- A value for one slot, if there is one. -/
def overwrite {α : Type} (f : Fin dynSlots → α) : Option (BitVec 8 × α) → Fin dynSlots → α
  | none, i => f i
  | some (slot, a), i => if moduleByte i = slot then a else f i

section Overwrite

variable {α : Type} (f : Fin dynSlots → α) (a : α)

@[simp] theorem overwrite_none : overwrite f none = f := rfl

theorem overwrite_self (i : Fin dynSlots) : overwrite f (some (moduleByte i, a)) i = a :=
  if_pos rfl

theorem overwrite_of_ne {i j : Fin dynSlots} (h : j ≠ i) :
    overwrite f (some (moduleByte i, a)) j = f j :=
  if_neg fun heq => h (moduleByte_inj heq)

end Overwrite

/-- One step, with what was staged, spawned and given up written down beside it. -/
def registrarStep (ed25519 : Ed25519) (s : Registrar) (call : SystemCall) : Option Registrar :=
  (systemStep ed25519 s.kernel call).map fun k' =>
    { kernel := k'
      staged := overwrite s.staged (s.kernel.stages call)
      terms := overwrite s.terms
        ((s.kernel.spawns ed25519 call).map fun spawned => (spawned.1, some spawned.2))
      gaveUp := fun p => s.gaveUp p + s.kernel.givenUp k' p }

/-- The system with its record, from boot on. -/
def registrarMachine (ed25519 : Ed25519) (board : Board) : Machine Registrar SystemCall where
  init s := s = ⟨Kernel.booted board, fun _ => [], fun _ => none, fun _ => 0⟩
  step := registrarStep ed25519

/-- **The record changes nothing**: without it, the runs are those of the system. -/
theorem registrarMachine_records (ed25519 : Ed25519) (board : Board) :
    (registrarMachine ed25519 board).Records (systemMachine ed25519 board) Registrar.kernel := by
  intro s call
  change (registrarStep ed25519 s call).map Registrar.kernel = systemStep ed25519 s.kernel call
  rw [registrarStep, Option.map_map]
  exact Option.map_id'

theorem registrarStep_eq_some {ed25519 : Ed25519} {s s' : Registrar} {call : SystemCall}
    (h : registrarStep ed25519 s call = some s') :
    systemStep ed25519 s.kernel call = some s'.kernel ∧
      s'.staged = overwrite s.staged (s.kernel.stages call) ∧
      s'.terms = overwrite s.terms
        ((s.kernel.spawns ed25519 call).map fun spawned => (spawned.1, some spawned.2)) ∧
      ∀ p, s'.gaveUp p = s.gaveUp p + s.kernel.givenUp s'.kernel p := by
  obtain ⟨k', hk', rfl⟩ := Option.map_eq_some_iff.mp h
  exact ⟨hk', rfl, rfl, fun _ => rfl⟩

/-! ## What verification accepts

A module is checked once, when it is spawned. Its bytes are found again at a restart by length
alone. -/

/-- **An accepted payload** is all that is behind the header, and the header is there as a whole.
-/
theorem verify_ok {ed25519 : Ed25519} {envelope payload : List (BitVec 8)}
    (h : verify ed25519 envelope = .ok payload) :
    headerLen ≤ envelope.length ∧ payload = envelope.drop headerLen := by
  simp only [verify] at h
  split at h
  · cases h
  · rename_i hlen
    split at h
    · cases h
    · split at h
      · cases h
        exact ⟨Nat.not_lt.mp hlen, rfl⟩
      · cases h

/-- Where the payload is found again: at the difference of the lengths. -/
theorem payload_of_verify {ed25519 : Ed25519} {envelope payload store : List (BitVec 8)}
    (h : verify ed25519 envelope = .ok payload) (hstore : envelope <+: store) :
    (store.drop (envelope.length - payload.length)).take payload.length = payload := by
  obtain ⟨hlen, rfl⟩ := verify_ok h
  obtain ⟨rest, rfl⟩ := hstore
  have hoff : envelope.length - (envelope.drop headerLen).length = headerLen := by
    rw [List.length_drop]
    omega
  rw [hoff, List.drop_append_of_le_length hlen, List.take_left]

namespace Kernel

/-- Boot runs no loaded module. -/
theorem moduleAt_booted (board : Board) (p : Proc) (slot : BitVec 8) :
    (booted board).moduleAt p ≠ some (.dynamic slot) := by
  change (bootProcesses p).map Process.moduleId ≠ some (.dynamic slot)
  simp only [bootProcesses]
  split_ifs <;> intro hmodule <;> cases hmodule

/-! ## The invariant

What every step keeps of the registry: slots, bytes and tenants belong together. -/

/-- Every slot has the bytes it was staged with, what a live one has for its loader was accepted,
and every tenant of a loaded module is the one its slot is live as. The last is what makes a
restart run the module that was accepted. -/
structure Sound (ed25519 : Ed25519) (k : Kernel) (uploads : Fin dynSlots → List (BitVec 8)) :
    Prop where
  staged : ∀ i len, k.modreg.slots i = .staged len → k.envelope i len = uploads i
  live : ∀ i off len p g d r, k.modreg.slots i = .live off len p g d r →
    uploads i <+: k.modreg.store i ∧ k.moduleAt p = some (.dynamic (moduleByte i)) ∧
      verify ed25519 (uploads i) = .ok (k.payload (moduleByte i))
  owned : ∀ q slot, k.moduleAt q = some (.dynamic slot) → ¬ k.overAt q →
    ∃ i, moduleByte i = slot ∧ k.RunsAs i q

section Sound

variable {ed25519 : Ed25519} {k k' : Kernel} {uploads : Fin dynSlots → List (BitVec 8)}

/-- The registry stays, and so does who runs what; perhaps a tenant ends. -/
theorem Sound.of_modreg (h : k.Sound ed25519 uploads) (hmodreg : k'.modreg = k.modreg)
    (hmods : ∀ q, k'.moduleAt q = k.moduleAt q) (hover : ∀ q, k.overAt q → k'.overAt q) :
    k'.Sound ed25519 uploads := by
  have hpayload : k'.payload = k.payload := by
    funext slot
    rw [payload, payload, hmodreg]
  refine ⟨fun i len hi => ?_, fun i off len p g d r hi => ?_, fun q slot hq hlives => ?_⟩
  · rw [envelope, hmodreg]
    rw [hmodreg] at hi
    exact h.staged i len hi
  · rw [hmodreg] at hi ⊢
    rw [hmods, hpayload]
    exact h.live i off len p g d r hi
  · rw [hmods] at hq
    obtain ⟨i, hslot, hruns⟩ := h.owned q slot hq fun hq' => hlives (hover q hq')
    rw [RunsAs, ← hmodreg] at hruns
    exact ⟨i, hslot, hruns⟩

/-- The payload of a slot that is left alone. -/
theorem payload_congr {i : Fin dynSlots} (hslots : k'.modreg.slots i = k.modreg.slots i)
    (hstore : k'.modreg.store i = k.modreg.store i) :
    k'.payload (moduleByte i) = k.payload (moduleByte i) := by
  have hi : (moduleByte i).toNat < dynSlots := by
    rw [toNat_moduleByte]
    exact i.isLt
  have hidx : (⟨(moduleByte i).toNat, hi⟩ : Fin dynSlots) = i := Fin.ext (toNat_moduleByte i)
  rw [payload, payload, dif_pos hi, dif_pos hi]
  simp only [hidx, hslots, hstore]

/-- A slot is rewritten. What it has to answer for afterwards is its own bytes; who ran as it
before must be over, or run as it still. -/
theorem Sound.of_update (h : k.Sound ed25519 uploads) {i : Fin dynSlots} {new : SlotState}
    {uploads' : Fin dynSlots → List (BitVec 8)}
    (hslots : k'.modreg.slots = Function.update k.modreg.slots i new)
    (hstore : ∀ j ≠ i, k'.modreg.store j = k.modreg.store j)
    (hstaged : ∀ j ≠ i, uploads' j = uploads j)
    (hmods : ∀ q m, k.moduleAt q = some m → k'.moduleAt q = some m)
    (hbytes : ∀ len, new = .staged len → k'.envelope i len = uploads' i)
    (hlive : ∀ off len p g d r, new = .live off len p g d r →
      uploads' i <+: k'.modreg.store i ∧ k'.moduleAt p = some (.dynamic (moduleByte i)) ∧
        verify ed25519 (uploads' i) = .ok (k'.payload (moduleByte i)))
    (howned : ∀ q slot, k'.moduleAt q = some (.dynamic slot) → ¬ k'.overAt q →
      (moduleByte i = slot ∧ ∃ off len g d r, new = .live off len q g d r) ∨
        k.moduleAt q = some (.dynamic slot) ∧ ¬ k.overAt q ∧ ¬ k.RunsAs i q) :
    k'.Sound ed25519 uploads' := by
  have hself : k'.modreg.slots i = new := by rw [hslots, Function.update_self]
  have hne : ∀ j ≠ i, k'.modreg.slots j = k.modreg.slots j := fun j hj => by
    rw [hslots, Function.update_of_ne hj]
  refine ⟨fun j len hj => ?_, fun j off len p g d r hj => ?_, fun q slot hq hlives => ?_⟩
  · by_cases hji : j = i
    · subst hji
      exact hbytes len (hself.symm.trans hj)
    · rw [envelope, hstore j hji, hstaged j hji]
      exact h.staged j len ((hne j hji).symm.trans hj)
  · by_cases hji : j = i
    · subst hji
      exact hlive off len p g d r (hself.symm.trans hj)
    · obtain ⟨hstart, hmod, hverify⟩ := h.live j off len p g d r ((hne j hji).symm.trans hj)
      rw [hstore j hji, hstaged j hji, payload_congr (hne j hji) (hstore j hji)]
      exact ⟨hstart, hmods p _ hmod, hverify⟩
  · rcases howned q slot hq hlives with ⟨hi, off, len, g, d, r, hnew⟩ | ⟨hq₀, hlives₀, hnot⟩
    · exact ⟨i, hi, off, len, g, d, r, hself.trans hnew⟩
    · obtain ⟨j, hj, hruns⟩ := h.owned q slot hq₀ hlives₀
      have hji : j ≠ i := by
        rintro rfl
        exact hnot hruns
      obtain ⟨off, len, g, d, r, hslot⟩ := hruns
      exact ⟨j, hj, off, len, g, d, r, (hne j hji).trans hslot⟩

/-- No process runs as a slot that is not live. -/
theorem not_runsAs {i : Fin dynSlots} {q : Proc}
    (h : ∀ off len p g d r, k.modreg.slots i ≠ .live off len p g d r) : ¬ k.RunsAs i q := by
  rintro ⟨off, len, g, d, r, hslot⟩
  exact h off len q g d r hslot

theorem KeepsTenants.moduleAt (h : k.KeepsTenants k') {q : Proc} {m : ModuleId}
    (hq : k.moduleAt q = some m) : k'.moduleAt q = some m :=
  (h.modules q).trans hq

theorem BroughtUp.moduleAt {p : Proc} {granted : GrantSpec} {slot : BitVec 8}
    (h : k.BroughtUp k' p granted slot) {q : Proc} {m : ModuleId} (hq : k.moduleAt q = some m) :
    k'.moduleAt q = some m := by
  rw [h.modules, if_neg, hq]
  rintro rfl
  rw [moduleAt_eq_none.mpr h.free] at hq
  cases hq

/-- **Staging** keeps the registry sound, as it writes to a free slot only. -/
theorem Sound.stage (h : k.Sound ed25519 uploads) {bytes : List (BitVec 8)}
    {r : Except KernelError (BitVec 8)} (hstep : Staged k bytes (r, k')) :
    k'.Sound ed25519 (overwrite uploads (r.toOption.map fun slot => (slot, bytes))) := by
  cases hstep with
  | refused => exact h
  | @stored i _ hfree hstore hslots hkeep _ =>
    change k'.Sound ed25519 (overwrite uploads (some (moduleByte i, bytes)))
    refine h.of_update hslots (fun j hj => ?_) (fun j hj => ?_) (fun q m => hkeep.moduleAt)
      (fun len hlen => ?_) nofun fun q slot hq hlives => .inr ⟨?_, ?_, ?_⟩
    · rw [hstore, Function.update_of_ne hj]
    · exact overwrite_of_ne _ _ hj
    · cases hlen
      rw [overwrite_self, envelope, hstore, Function.update_self, List.take_left]
    · rw [← hkeep.modules]
      exact hq
    · exact fun hover => hlives ((hkeep.overs q).mpr hover)
    · exact not_runsAs (by rw [hfree]; exact nofun)

/-- **Spawning** keeps the registry sound: what goes live is what was staged and accepted. -/
theorem Sound.spawn (h : k.Sound ed25519 uploads) {slot : BitVec 8} {requested : GrantSpec}
    {restartBudget : BitVec 8} {r : Except KernelError Proc}
    (hstep : Spawned ed25519 k slot requested restartBudget (r, k')) :
    k'.Sound ed25519 uploads := by
  cases hstep with
  | refused => exact h
  | @rejected i len e _ hi hstaged _ hstore hslots hkeep _ =>
    refine h.of_update hslots (fun j _ => by rw [hstore]) (fun _ _ => rfl)
      (fun q m => hkeep.moduleAt) nofun nofun fun q slot hq hlives => .inr ⟨?_, ?_, ?_⟩
    · rw [← hkeep.modules]
      exact hq
    · exact fun hover => hlives ((hkeep.overs q).mpr hover)
    · exact not_runsAs (by rw [hstaged]; exact nofun)
  | @live i len payload p _ hi hstaged hverify hstore hslots hup _ =>
    have henv : k.envelope i len = uploads i := h.staged i len hstaged
    have hstart : uploads i <+: k'.modreg.store i := by
      rw [← henv, hstore]
      exact List.take_prefix _ _
    rw [henv] at hverify hslots
    refine h.of_update hslots (fun j _ => by rw [hstore]) (fun _ _ => rfl) (fun q m => hup.moduleAt)
      nofun (fun off len' p' g d r hnew => ?_) fun q slot' hq hlives => ?_
    · have hpayload : k'.payload (moduleByte i) = payload := by
        rw [payload_live (by rw [hslots, Function.update_self])]
        exact payload_of_verify hverify hstart
      cases hnew
      refine ⟨hstart, ?_, ?_⟩
      · rw [hup.modules, if_pos rfl, hi]
      · rw [hpayload]
        exact hverify
    · rw [hup.modules] at hq
      by_cases hqp : q = p
      · subst hqp
        rw [if_pos rfl] at hq
        cases hq
        exact .inl ⟨hi, _, _, _, _, _, rfl⟩
      · rw [if_neg hqp] at hq
        refine .inr ⟨hq, fun hover => hlives ((hup.overs q).mpr hover), ?_⟩
        exact not_runsAs (by rw [hstaged]; exact nofun)

/-- **The end of a tenant** keeps the registry sound: it is over, and its module runs on as
another process or does not. -/
theorem Sound.terminated (h : k.Sound ed25519 uploads) {p : Proc} (hp : k.overAt p)
    (hstep : Terminated k p k') : k'.Sound ed25519 uploads := by
  have hnot : ∀ {i off len g d r q}, k.modreg.slots i = .live off len p g d r → ¬ k.overAt q →
      ¬ k.RunsAs i q := by
    rintro i off len g d r q hslot hq ⟨off', len', g', d', r', hslot'⟩
    rw [hslot] at hslot'
    cases hslot'
    exact hq hp
  cases hstep with
  | lies => exact h
  | @gaveUp i off len g r _ hslot _ hstore hslots hkeep _ =>
    obtain ⟨hstart, hmod, hverify⟩ := h.live i _ _ _ _ _ _ hslot
    refine h.of_update hslots (fun j _ => by rw [hstore]) (fun _ _ => rfl)
      (fun q m => hkeep.moduleAt) nofun (fun off' len' p' g' d' r' hnew => ?_)
      fun q slot' hq hlives => ?_
    · have hpayload : k'.payload (moduleByte i) = k.payload (moduleByte i) := by
        rw [payload_live hslot, payload_live (by rw [hslots, Function.update_self]), hstore]
      cases hnew
      rw [hstore, hpayload]
      exact ⟨hstart, hkeep.moduleAt hmod, hverify⟩
    · have hlives₀ : ¬ k.overAt q := fun hover => hlives ((hkeep.overs q).mpr hover)
      refine .inr ⟨?_, hlives₀, hnot hslot hlives₀⟩
      rw [← hkeep.modules]
      exact hq
  | @restarted i off len g r q _ hslot _ hstore hslots hup _ =>
    obtain ⟨hstart, -, hverify⟩ := h.live i _ _ _ _ _ _ hslot
    refine h.of_update hslots (fun j _ => by rw [hstore]) (fun _ _ => rfl) (fun q m => hup.moduleAt)
      nofun (fun off' len' p' g' d' r' hnew => ?_) fun q' slot' hq' hlives => ?_
    · have hpayload : k'.payload (moduleByte i) = k.payload (moduleByte i) := by
        rw [payload_live hslot, payload_live (by rw [hslots, Function.update_self]), hstore]
      cases hnew
      rw [hstore, hpayload]
      refine ⟨hstart, ?_, hverify⟩
      rw [hup.modules, if_pos rfl]
    · rw [hup.modules] at hq'
      by_cases hqq : q' = q
      · subst hqq
        rw [if_pos rfl] at hq'
        cases hq'
        exact .inl ⟨rfl, _, _, _, _, _, rfl⟩
      · rw [if_neg hqq] at hq'
        have hlives₀ : ¬ k.overAt q' := fun hover => hlives ((hup.overs q').mpr hover)
        exact .inr ⟨hq', hlives₀, hnot hslot hlives₀⟩

end Sound

/-! ## Steps

Three kinds of steps matter to the registry: staging, spawning and the end of a tenant. Each is
told by what it does to one slot. -/

section Steps

variable {ed25519 : Ed25519} {k k' : Kernel}

/-- **What a step is to the registry**: one case for each thing that it may do there. -/
inductive Filed (ed25519 : Ed25519) (k : Kernel) (call : SystemCall) (k' : Kernel) : Prop where
  | calm (h : k.Calm k') (hcall : call.isModreg = false)
  | cap {caps : CapState} (heps : caps.bootTier1Eps = k.caps.bootTier1Eps)
      (heq : k' = { k with caps := caps }) (hcall : call.isModreg = false)
  | ended {k₁ : Kernel} {p : Proc} (h : k.Ends p k₁) (hend : Terminated k₁ p k')
      (hcall : call.isModreg = false)
  | staged {bytes : List (BitVec 8)} {r : Except KernelError (BitVec 8)}
      (heq : call = .stage bytes) (hr : k.stage bytes = (r, k')) (h : Staged k bytes (r, k'))
  | spawned {slot : BitVec 8} {requested : GrantSpec} {restartBudget : BitVec 8}
      {r : Except KernelError Proc} (heq : call = .spawn slot requested restartBudget)
      (hr : k.spawnInner ed25519 slot requested restartBudget = (r, k'))
      (h : Spawned ed25519 k slot requested restartBudget (r, k'))

theorem systemStep_filed {call : SystemCall} (h : systemStep ed25519 k call = some k') :
    Filed ed25519 k call k' := by
  cases call with
  | turn t =>
    have hturn : k.Turned k' := turn_turned h
    cases hturn with
    | calm hcalm => exact .calm hcalm rfl
    | ended hends heq => exact .ended hends (heq ▸ onTenantTerminated_terminated _ _) rfl
  | cap c =>
    rw [systemStep] at h
    split at h
    · obtain ⟨out, hout, rfl⟩ := Option.map_eq_some_iff.mp h
      exact .cap (capStep_effect hout).bootTier1Eps rfl rfl
    · cases h
  | stage bytes =>
    cases h
    exact .staged rfl rfl (stage_staged k bytes)
  | spawn slot requested restartBudget =>
    cases h
    exact .spawned rfl rfl (spawnInner_spawned ed25519 k slot requested restartBudget)

theorem stages_eq_none {call : SystemCall} (h : call.isModreg = false) : k.stages call = none := by
  cases call with
  | stage => cases h
  | _ => rfl

theorem spawns_eq_none {call : SystemCall} (h : call.isModreg = false) :
    k.spawns ed25519 call = none := by
  cases call with
  | spawn => cases h
  | _ => rfl

theorem Terminated.overs {p : Proc} (h : Terminated k p k') (q : Proc) :
    k'.overAt q ↔ k.overAt q := by
  cases h with
  | lies => rfl
  | gaveUp _ _ _ _ hkeep => exact hkeep.overs q
  | restarted _ _ _ _ hup => exact hup.overs q

/-- **Nobody comes back** who has exited or faulted. -/
theorem Filed.overs {call : SystemCall} (h : Filed ed25519 k call k') {q : Proc}
    (hq : k.overAt q) : k'.overAt q := by
  cases h with
  | calm h => exact (h.overs q).mpr hq
  | cap _ heq =>
    rw [heq]
    exact hq
  | ended hends hend => exact (hend.overs q).mpr ((hends.overs q).mpr (.inr hq))
  | staged _ _ h =>
    cases h with
    | refused => exact hq
    | stored _ _ _ hkeep => exact (hkeep.overs q).mpr hq
  | spawned _ _ h =>
    cases h with
    | refused => exact hq
    | rejected _ _ _ _ _ hkeep => exact (hkeep.overs q).mpr hq
    | live _ _ _ _ _ hup => exact (hup.overs q).mpr hq

/-- The end of a tenant frees no slot and touches no bytes. -/
theorem Terminated.slots {p : Proc} (h : Terminated k p k') :
    k'.modreg.store = k.modreg.store ∧
      ∀ i, k.modreg.slots i ≠ .free → k'.modreg.slots i ≠ .free := by
  have hupdate : ∀ {i : Fin dynSlots} {new : SlotState},
      k'.modreg.slots = Function.update k.modreg.slots i new → new ≠ .free →
      ∀ j, k.modreg.slots j ≠ .free → k'.modreg.slots j ≠ .free := by
    intro i new hslots hnew j hj
    rw [hslots]
    by_cases hji : j = i
    · subst hji
      rw [Function.update_self]
      exact hnew
    · rw [Function.update_of_ne hji]
      exact hj
  cases h with
  | lies => exact ⟨rfl, fun _ h => h⟩
  | gaveUp _ _ hstore hslots => exact ⟨hstore, hupdate hslots nofun⟩
  | restarted _ _ hstore hslots => exact ⟨hstore, hupdate hslots nofun⟩

end Steps

end Kernel

namespace Registrar

/-- A slot that is not free keeps its bytes, and a spawn frees it exactly if what was staged
there is rejected. -/
structure Orderly (ed25519 : Ed25519) (s : Registrar) (call : SystemCall) (s' : Registrar) :
    Prop where
  bytes : ∀ i, s.kernel.modreg.slots i ≠ .free →
    s'.kernel.modreg.store i = s.kernel.modreg.store i ∧ s'.staged i = s.staged i
  freed : ∀ i, s.kernel.modreg.slots i ≠ .free → s'.kernel.modreg.slots i = .free →
    ∃ len requested restartBudget e, s.kernel.modreg.slots i = .staged len ∧
      call = .spawn (moduleByte i) requested restartBudget ∧
      verify ed25519 (s.staged i) = .error e
  rejected : ∀ i len requested restartBudget e, s.kernel.modreg.slots i = .staged len →
    call = .spawn (moduleByte i) requested restartBudget →
    verify ed25519 (s.staged i) = .error e →
    s'.kernel.modreg.slots i = .free ∧
      (s.kernel.spawnInner ed25519 (moduleByte i) requested restartBudget).1 = .error e

variable {ed25519 : Ed25519} {s s' : Registrar} {call : SystemCall}

/-- A step that is no spawn and frees nothing. -/
theorem Orderly.of_stays (hstore : ∀ i, s.kernel.modreg.slots i ≠ .free →
      s'.kernel.modreg.store i = s.kernel.modreg.store i ∧ s'.staged i = s.staged i)
    (hslots : ∀ i, s.kernel.modreg.slots i ≠ .free → s'.kernel.modreg.slots i ≠ .free)
    (hcall : ∀ slot requested restartBudget, call ≠ .spawn slot requested restartBudget) :
    Orderly ed25519 s call s' :=
  ⟨hstore, fun i hi hfree => absurd hfree (hslots i hi),
    fun _ _ _ _ _ _ heq => absurd heq (hcall _ _ _)⟩

/-- **Staging** writes to a free slot, and so what is recorded of the others stays true. -/
theorem Orderly.of_stage {bytes : List (BitVec 8)} {r : Except KernelError (BitVec 8)}
    (h : Kernel.Staged s.kernel bytes (r, s'.kernel))
    (hstaged : s'.staged = overwrite s.staged (r.toOption.map fun slot => (slot, bytes))) :
    Orderly ed25519 s (.stage bytes) s' := by
  obtain ⟨k', uploads', terms', gaveUp'⟩ := s'
  simp only at h hstaged
  subst hstaged
  cases h with
  | refused => exact .of_stays (fun _ _ => ⟨rfl, rfl⟩) (fun _ => id) nofun
  | @stored i _ hfree hstore hslots _ _ =>
    have hne : ∀ j, s.kernel.modreg.slots j ≠ .free → j ≠ i := by
      rintro j hj rfl
      exact hj hfree
    refine .of_stays (fun j hj => ⟨?_, ?_⟩) (fun j hj => ?_) nofun
    · change k'.modreg.store j = _
      rw [hstore, Function.update_of_ne (hne j hj)]
    · exact overwrite_of_ne _ _ (hne j hj)
    · change k'.modreg.slots j ≠ .free
      rw [hslots, Function.update_of_ne (hne j hj)]
      exact hj

/-- **A spawn** frees its slot exactly if the envelope there is rejected, and leaves the bytes of
every other slot alone. -/
theorem Orderly.of_spawn {slot : BitVec 8} {requested : GrantSpec} {restartBudget : BitVec 8}
    {r : Except KernelError Proc} (hsound : s.kernel.Sound ed25519 s.staged)
    (hr : s.kernel.spawnInner ed25519 slot requested restartBudget = (r, s'.kernel))
    (h : Kernel.Spawned ed25519 s.kernel slot requested restartBudget (r, s'.kernel))
    (hstaged : s'.staged = s.staged) :
    Orderly ed25519 s (.spawn slot requested restartBudget) s' := by
  obtain ⟨k', uploads', terms', gaveUp'⟩ := s'
  simp only at hr h hstaged
  subst hstaged
  cases h with
  | @refused e hno =>
    refine ⟨fun i _ => ⟨rfl, rfl⟩, fun i hi hfree => absurd hfree hi, ?_⟩
    intro i len _ _ e' hslot heq hverify
    cases heq
    obtain ⟨payload, hok⟩ := hno i len rfl hslot
    rw [hsound.staged i len hslot, hverify] at hok
    cases hok
  | @rejected i len e _ hi hslot hverify hstore hslots _ _ =>
    rw [hsound.staged i len hslot] at hverify
    refine ⟨fun j _ => ⟨by rw [hstore], rfl⟩, fun j hj hfree => ?_, ?_⟩
    · have hji : j = i := by
        by_contra hji
        refine hj ?_
        rw [← hfree, hslots, Function.update_of_ne hji]
      subst hji
      exact ⟨len, requested, restartBudget, e, hslot, by rw [hi], hverify⟩
    · intro j len' requested' restartBudget' e' hslot' heq hverify'
      cases heq
      obtain rfl := moduleByte_inj hi
      rw [hverify] at hverify'
      cases hverify'
      refine ⟨?_, by rw [hr]⟩
      change k'.modreg.slots i = .free
      rw [hslots, Function.update_self]
  | @live i len payload p _ hi hslot hverify hstore hslots _ _ =>
    refine ⟨fun j _ => ⟨by rw [hstore], rfl⟩, fun j hj hfree => ?_, ?_⟩
    · refine absurd hfree ?_
      change k'.modreg.slots j ≠ .free
      rw [hslots]
      by_cases hji : j = i
      · subst hji
        rw [Function.update_self]
        exact nofun
      · rw [Function.update_of_ne hji]
        exact hj
    · intro j len' requested' restartBudget' e' hslot' heq hverify'
      cases heq
      obtain rfl := moduleByte_inj hi
      rw [hslot] at hslot'
      cases hslot'
      rw [hsound.staged i len hslot, hverify'] at hverify
      cases hverify

/-- **A step** is orderly, and keeps the registry sound: the step lemma, by what the step is to
the registry. -/
theorem orderly_step (hsound : s.kernel.Sound ed25519 s.staged)
    (hstep : registrarStep ed25519 s call = some s') :
    Orderly ed25519 s call s' ∧ s'.kernel.Sound ed25519 s'.staged := by
  obtain ⟨hsystem, hstaged, -, -⟩ := registrarStep_eq_some hstep
  have hcall : call.isModreg = false → s'.staged = s.staged ∧
      ∀ slot requested restartBudget, call ≠ .spawn slot requested restartBudget := by
    intro hplain
    refine ⟨?_, ?_⟩
    · rw [hstaged, Kernel.stages_eq_none hplain]
      rfl
    · rintro slot requested restartBudget rfl
      cases hplain
  cases Kernel.systemStep_filed hsystem with
  | calm hcalm hplain =>
    obtain ⟨huploads, hcall⟩ := hcall hplain
    refine ⟨.of_stays (fun i _ => ⟨by rw [hcalm.modreg], by rw [huploads]⟩) ?_ hcall, ?_⟩
    · intro i hi
      rwa [hcalm.modreg]
    · rw [huploads]
      exact hsound.of_modreg hcalm.modreg hcalm.modules fun q => (hcalm.overs q).mpr
  | cap _ heq hplain =>
    obtain ⟨huploads, hcall⟩ := hcall hplain
    refine ⟨.of_stays (fun i _ => ⟨by rw [heq], by rw [huploads]⟩) ?_ hcall, ?_⟩
    · intro i hi
      rwa [heq]
    · rw [huploads, heq]
      exact hsound.of_modreg rfl (fun _ => rfl) fun _ => id
  | @ended k₁ p hends hend hplain =>
    obtain ⟨huploads, hcall⟩ := hcall hplain
    obtain ⟨hstore, hslots⟩ := hend.slots
    have hsound₁ : k₁.Sound ed25519 s.staged :=
      hsound.of_modreg hends.modreg hends.modules fun q hq => (hends.overs q).mpr (.inr hq)
    refine ⟨.of_stays (fun i _ => ⟨by rw [hstore, hends.modreg], by rw [huploads]⟩) ?_ hcall, ?_⟩
    · intro i hi
      refine hslots i ?_
      rwa [hends.modreg]
    · rw [huploads]
      exact hsound₁.terminated ((hends.overs p).mpr (.inl rfl)) hend
  | @staged bytes r heq hr hstage =>
    subst heq
    have hstaged' : s'.staged =
        overwrite s.staged (r.toOption.map fun slot => (slot, bytes)) := by
      rw [hstaged, Kernel.stages, hr]
    refine ⟨.of_stage hstage hstaged', ?_⟩
    rw [hstaged']
    exact hsound.stage hstage
  | @spawned slot requested restartBudget r heq hr hspawn =>
    subst heq
    have huploads : s'.staged = s.staged := by
      rw [hstaged]
      rfl
    refine ⟨.of_spawn hsound hr hspawn huploads, ?_⟩
    rw [huploads]
    exact hsound.spawn hspawn

/-! ## Integrity

The promise, for any order of uploads, spawns and ends. -/

/-- What holds of the registry at any time. -/
structure Integrity (ed25519 : Ed25519) (s : Registrar) : Prop where
  /-- a staged slot has the bytes that were staged -/
  staged : ∀ i len, s.kernel.modreg.slots i = .staged len → s.kernel.envelope i len = s.staged i
  /-- a live one still has them, the signature accepted them, and their payload is what the
  loader gets -/
  live : ∀ i p, s.kernel.RunsAs i p →
    s.staged i <+: s.kernel.modreg.store i ∧
      ∃ payload, verify ed25519 (s.staged i) = .ok payload ∧ payload <:+ s.staged i ∧
        s.kernel.payload (moduleByte i) = payload
  /-- the loader gets nothing else -/
  handed : ∀ slot, s.kernel.payload slot ≠ [] →
    ∃ i, moduleByte i = slot ∧ verify ed25519 (s.staged i) = .ok (s.kernel.payload slot)
  /-- a process runs as one slot at most -/
  distinct : ∀ i j p, s.kernel.RunsAs i p → s.kernel.RunsAs j p → i = j
  /-- a tenant of a loaded module that is not over runs as one slot, its module's -/
  owned : ∀ p slot, s.kernel.moduleAt p = some (.dynamic slot) → ¬ s.kernel.overAt p →
    ∃! i, s.kernel.RunsAs i p ∧ moduleByte i = slot

/-- **Integrity** follows from what every step keeps: what runs is what was staged, and was
verified. -/
theorem integrity_of_sound (h : s.kernel.Sound ed25519 s.staged) : Integrity ed25519 s := by
  have hmodule : ∀ {i p}, s.kernel.RunsAs i p →
      s.kernel.moduleAt p = some (.dynamic (moduleByte i)) := by
    rintro i p ⟨off, len, g, d, r, hslot⟩
    exact (h.live i off len p g d r hslot).2.1
  have hdistinct : ∀ i j p, s.kernel.RunsAs i p → s.kernel.RunsAs j p → i = j := by
    intro i j p hi hj
    have heq := (hmodule hi).symm.trans (hmodule hj)
    rw [Option.some.injEq, ModuleId.dynamic.injEq] at heq
    exact moduleByte_inj heq
  refine ⟨h.staged, ?_, fun slot hslot => ?_, hdistinct, fun p slot hp hlives => ?_⟩
  · rintro i p ⟨off, len, g, d, r, hslot⟩
    obtain ⟨hstart, -, hverify⟩ := h.live i off len p g d r hslot
    refine ⟨hstart, _, hverify, ?_, rfl⟩
    rw [(verify_ok hverify).2]
    exact List.drop_suffix _ _
  · have hlt : slot.toNat < dynSlots := by
      by_contra hlt
      rw [Kernel.payload, dif_neg hlt] at hslot
      exact hslot rfl
    rcases hstate : s.kernel.modreg.slots ⟨slot.toNat, hlt⟩ with _ | _ | ⟨off, len, p, g, d, r⟩
    · rw [Kernel.payload, dif_pos hlt, hstate] at hslot
      exact absurd rfl hslot
    · rw [Kernel.payload, dif_pos hlt, hstate] at hslot
      exact absurd rfl hslot
    · have hverify := (h.live _ off len p g d r hstate).2.2
      rw [moduleByte_mk hlt] at hverify
      exact ⟨_, moduleByte_mk hlt, hverify⟩
  · obtain ⟨i, hi, hruns⟩ := h.owned p slot hp hlives
    exact ⟨i, ⟨hruns, hi⟩, fun j hj => hdistinct j i p hj.1 hruns⟩

end Registrar

/-- **Module registry integrity.** In every state a live slot is backed by an envelope that was
accepted, runs what was accepted, and as one process at most; and each step is orderly: it frees a
slot only where a spawn rejects what was staged. -/
theorem registry_integrity (ed25519 : Ed25519) (board : Board) :
    (registrarMachine ed25519 board).Records (systemMachine ed25519 board) Registrar.kernel ∧
      (registrarMachine ed25519 board).Always (Registrar.Integrity ed25519) ∧
      ∀ s is, (registrarMachine ed25519 board).init s →
        (registrarMachine ed25519 board).Along (Registrar.Orderly ed25519) s is := by
  have hinit : ∀ s, (registrarMachine ed25519 board).init s →
      s.kernel.Sound ed25519 s.staged := by
    rintro s rfl
    exact ⟨nofun, nofun, fun p slot hp => absurd hp (Kernel.moduleAt_booted board p slot)⟩
  have hstep : ∀ s call s', s.kernel.Sound ed25519 s.staged →
      (registrarMachine ed25519 board).step s call = some s' →
      Registrar.Orderly ed25519 s call s' ∧ s'.kernel.Sound ed25519 s'.staged :=
    fun s call s' hs hstep => Registrar.orderly_step hs hstep
  refine ⟨registrarMachine_records ed25519 board, ?_, fun s is hs => ?_⟩
  · refine Machine.Always.mono ?_ fun s => Registrar.integrity_of_sound
    exact Machine.always_of_step hinit fun s call s' hs hs' => (hstep s call s' hs hs').2
  · exact Machine.along_of_step hstep is s (hinit s hs)

end Wari
