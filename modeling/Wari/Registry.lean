import Wari.System
import Wari.Loop
import Wari.Stream

/-!
# Slots of the module registry

What the steps of the system do to the registry, to the modules of the processes, and to
who is over: nothing (`Calm`), or an envelope is staged, or a slot is spawned, or a tenant
ends, and with it perhaps a daemon is restarted. Each comes with the audit records it
leaves (`Tells`).
-/

namespace Wari

open Lib (writeAt)

/-- The index of a registry slot, as a process names its module. -/
def moduleByte (i : Fin dynSlots) : BitVec 8 := BitVec.ofNat 8 i.val

theorem toNat_moduleByte (i : Fin dynSlots) : (moduleByte i).toNat = i.val := by
  rw [moduleByte, BitVec.toNat_ofNat]
  exact Nat.mod_eq_of_lt (i.isLt.trans (by decide))

theorem moduleByte_inj {i j : Fin dynSlots} (h : moduleByte i = moduleByte j) : i = j := by
  have hval := congrArg BitVec.toNat h
  rw [toNat_moduleByte, toNat_moduleByte] at hval
  exact Fin.ext hval

theorem moduleByte_mk {slot : BitVec 8} (h : slot.toNat < dynSlots) :
    moduleByte ⟨slot.toNat, h⟩ = slot :=
  BitVec.eq_of_toNat_eq (toNat_moduleByte _)

namespace Kernel

/-- The module bytes of a live slot, and nothing for any other. -/
def payload (k : Kernel) (slot : BitVec 8) : List (BitVec 8) :=
  if h : slot.toNat < dynSlots then
    match k.modreg.slots ⟨slot.toNat, h⟩ with
    | .live off len _ _ _ _ => ((k.modreg.store ⟨slot.toNat, h⟩).drop off).take len
    | _ => []
  else []

theorem payload_live {k : Kernel} {i : Fin dynSlots} {off len : ℕ} {p : Proc} {g : GrantSpec}
    {d : Bool} {r : BitVec 8} (h : k.modreg.slots i = .live off len p g d r) :
    k.payload (moduleByte i) = ((k.modreg.store i).drop off).take len := by
  have hi : (moduleByte i).toNat < dynSlots := by
    rw [toNat_moduleByte]
    exact i.isLt
  have hidx : (⟨(moduleByte i).toNat, hi⟩ : Fin dynSlots) = i := Fin.ext (toNat_moduleByte i)
  rw [payload, dif_pos hi]
  simp only [hidx, h]

/-- The process has exited or faulted, and stays in the table as such. -/
def overAt (k : Kernel) (p : Proc) : Prop := ∃ s, k.stateAt p = some s ∧ s.Over

/-! ## Audit records of a step

What a step records is found again behind the number the stream had before it. -/

/-- The records that came in from `k` to `k'`. -/
def news (k k' : Kernel) : List Event :=
  (List.range (k'.events.nextSeq - k.events.nextSeq).toNat).map fun j =>
    k'.events.ring (ringSlot (k.events.nextSeq + BitVec.ofNat 64 j))

/-- From `k` to `k'` these records are emitted, and no others. They are in the ring behind what
was there, so they can be compared with what happened in the step. -/
structure Tells (k k' : Kernel) (ms : List Emission) : Prop where
  next : k'.events.nextSeq = k.events.nextSeq + BitVec.ofNat 64 ms.length
  entry : ∀ j m, ms[j]? = some m →
    k'.events.ring (ringSlot (k.events.nextSeq + BitVec.ofNat 64 j)) =
      m.record (k.events.nextSeq + BitVec.ofNat 64 j)
  other : ∀ slot, (∀ j < ms.length, slot ≠ ringSlot (k.events.nextSeq + BitVec.ofNat 64 j)) →
    k'.events.ring slot = k.events.ring slot

section Tells

variable {k k₁ k₂ : Kernel} {ms ms₁ ms₂ : List Emission}

/-- Numbers less than a lap apart have different places in the ring. -/
theorem ringSlot_add_inj {seq : BitVec 64} {i j : ℕ} (hi : i < ringCapacity)
    (hj : j < ringCapacity)
    (h : ringSlot (seq + BitVec.ofNat 64 i) = ringSlot (seq + BitVec.ofNat 64 j)) : i = j := by
  have hval := congrArg Fin.val h
  simp only [ringSlot, BitVec.toNat_add, BitVec.toNat_ofNat] at hval
  have := seq.isLt
  simp only [ringCapacity] at *
  omega

theorem Tells.of_stream (hring : k₁.events.ring = k.events.ring)
    (hnext : k₁.events.nextSeq = k.events.nextSeq) : k.Tells k₁ [] :=
  ⟨by rw [hnext]; exact (BitVec.add_zero _).symm, nofun, fun _ _ => by rw [hring]⟩

theorem Tells.of_events (h : k.Tells k₁ ms) (hevents : k₂.events = k₁.events) :
    k.Tells k₂ ms :=
  ⟨by rw [hevents]; exact h.next, by rw [hevents]; exact h.entry, by rw [hevents]; exact h.other⟩

theorem tells_emit (k : Kernel) (kind : EventKind) (a : BitVec 16) (b : BitVec 32) :
    k.Tells (k.emit kind a b) [⟨kind, a, b⟩] := by
  have hzero : k.events.nextSeq + BitVec.ofNat 64 0 = k.events.nextSeq := BitVec.add_zero _
  refine ⟨?_, fun j m hj => ?_, fun slot hslot => ?_⟩
  · rw [events_emit]
    rfl
  · obtain ⟨rfl, rfl⟩ : j = 0 ∧ (⟨kind, a, b⟩ : Emission) = m := by
      rcases j with _ | j
      · exact ⟨rfl, Option.some.inj hj⟩
      · cases hj
    rw [events_emit, hzero]
    exact Function.update_self _ _ _
  · have hne := hslot 0 Nat.zero_lt_one
    rw [hzero] at hne
    rw [events_emit]
    exact Function.update_of_ne hne _ _

theorem Tells.trans (h₁ : k.Tells k₁ ms₁) (h₂ : k₁.Tells k₂ ms₂)
    (hlen : ms₁.length + ms₂.length ≤ ringCapacity) : k.Tells k₂ (ms₁ ++ ms₂) := by
  have hshift : ∀ j, k₁.events.nextSeq + BitVec.ofNat 64 j =
      k.events.nextSeq + BitVec.ofNat 64 (ms₁.length + j) := by
    intro j
    rw [h₁.next, BitVec.ofNat_add, BitVec.add_assoc]
  refine ⟨?_, fun j m hj => ?_, fun slot hslot => ?_⟩
  · rw [h₂.next, hshift, List.length_append]
  · rcases Nat.lt_or_ge j ms₁.length with hlt | hge
    · rw [List.getElem?_append_left hlt] at hj
      rw [h₂.other _ fun i hi heq => ?_]
      · exact h₁.entry j m hj
      · -- the later records are elsewhere in the ring
        rw [hshift] at heq
        have := ringSlot_add_inj (by omega) (by omega) heq
        omega
    · rw [List.getElem?_append_right hge] at hj
      have hentry := h₂.entry _ m hj
      rwa [hshift, Nat.add_sub_cancel' hge] at hentry
  · rw [h₂.other slot fun j hj => ?_]
    · exact h₁.other slot fun j hj => hslot j (by rw [List.length_append]; omega)
    · rw [hshift]
      exact hslot _ (by rw [List.length_append]; omega)

/-- A record after something that emits nothing is all that is told. -/
theorem Tells.emit (h : k₁.events = k.events) (kind : EventKind) (a : BitVec 16) (b : BitVec 32) :
    k.Tells (k₁.emit kind a b) [⟨kind, a, b⟩] := by
  have hquiet : k.Tells k₁ [] := .of_stream (by rw [h]) (by rw [h])
  exact hquiet.trans (tells_emit k₁ kind a b) (by simp)

/-- **The news** are the records that were emitted, numbered on from where the stream was. -/
theorem Tells.news_eq (h : k.Tells k₁ ms) (hlen : ms.length ≤ ringCapacity) :
    k.news k₁ = ms.mapIdx fun j m => m.record (k.events.nextSeq + BitVec.ofNat 64 j) := by
  have hcount : (k₁.events.nextSeq - k.events.nextSeq).toNat = ms.length := by
    rw [h.next, BitVec.add_comm, BitVec.add_sub_cancel, BitVec.toNat_ofNat]
    exact Nat.mod_eq_of_lt (by simp only [ringCapacity] at hlen; omega)
  rw [news, hcount]
  refine List.ext_getElem? fun j => ?_
  rw [List.getElem?_map, List.getElem?_mapIdx]
  rcases Nat.lt_or_ge j ms.length with hlt | hge
  · rw [List.getElem?_range hlt, List.getElem?_eq_getElem hlt]
    exact congrArg some (h.entry j _ (List.getElem?_eq_getElem hlt))
  · rw [List.getElem?_eq_none (by rw [List.length_range]; exact hge),
      List.getElem?_eq_none hge]
    rfl

end Tells

/-! ## Steps the registry has no part in

Most steps. Each of them has to be gone through once, to see that it ends nobody. -/

/-- The registry and the stream stay, and every process keeps its module; whoever is over stays
so, and nobody else is. It composes, so a turn can be gone through write by write. -/
structure Calm (k k' : Kernel) : Prop where
  eps : k'.caps.bootTier1Eps = k.caps.bootTier1Eps
  modreg : k'.modreg = k.modreg
  modules : ∀ q, k'.moduleAt q = k.moduleAt q
  overs : ∀ q, k'.overAt q ↔ k.overAt q
  ring : k'.events.ring = k.events.ring
  next : k'.events.nextSeq = k.events.nextSeq

section Calm

variable {k k₁ k₂ : Kernel} {p : Proc}

theorem Calm.refl (k : Kernel) : k.Calm k :=
  ⟨rfl, rfl, fun _ => rfl, fun _ => Iff.rfl, rfl, rfl⟩

theorem Calm.trans (h₁ : k.Calm k₁) (h₂ : k₁.Calm k₂) : k.Calm k₂ :=
  ⟨h₂.eps.trans h₁.eps, h₂.modreg.trans h₁.modreg,
    fun q => (h₂.modules q).trans (h₁.modules q), fun q => (h₂.overs q).trans (h₁.overs q),
    h₂.ring.trans h₁.ring, h₂.next.trans h₁.next⟩

theorem Calm.tells (h : k.Calm k₁) : k.Tells k₁ [] := .of_stream h.ring h.next

theorem overAt_congr {q : Proc} (h : k₁.processes q = k.processes q) :
    k₁.overAt q ↔ k.overAt q := by
  rw [overAt, overAt, stateAt_congr h]

/-- What leaves the process table, the registry and the stream alone. -/
theorem Calm.of_processes (heps : k₁.caps.bootTier1Eps = k.caps.bootTier1Eps)
    (hmodreg : k₁.modreg = k.modreg) (hprocs : k₁.processes = k.processes)
    (hevents : k₁.events = k.events) : k.Calm k₁ :=
  ⟨heps, hmodreg, fun q => by rw [moduleAt, moduleAt, hprocs],
    fun q => overAt_congr (by rw [hprocs]), by rw [hevents], by rw [hevents]⟩

/-- A write to a process that stays over or stays not over. -/
theorem calm_modifyProcess (k : Kernel) (p : Proc) {f : Process → Process}
    (hmodule : ∀ proc, (f proc).moduleId = proc.moduleId)
    (hover : ∀ proc, k.processes p = some proc → ((f proc).state.Over ↔ proc.state.Over)) :
    k.Calm (k.modifyProcess p f) := by
  refine ⟨rfl, rfl, fun q => k.moduleAt_modifyProcess p q hmodule, fun q => ?_, rfl, rfl⟩
  by_cases hq : q = p
  · subst hq
    rw [overAt, overAt, stateAt, stateAt, processes_modifyProcess, if_pos rfl]
    rcases hproc : k.processes q with _ | proc
    · rfl
    · simp only [Option.map_some, Option.some.injEq, exists_eq_left']
      exact hover proc hproc
  · exact overAt_congr (by rw [processes_modifyProcess, if_neg hq])

theorem over_woken {s : ProcessState} : s.woken.Over ↔ s.Over := by
  cases s <;> rfl

theorem calm_wake (k : Kernel) (p : Proc) : k.Calm (k.wake p) := by
  refine k.calm_modifyProcess p Process.moduleId_wake fun proc _ => ?_
  rw [Process.state_wake]
  exact over_woken

theorem calm_setMsgRegs (k : Kernel) (p : Proc) (regs : MsgRegs) : k.Calm (k.setMsgRegs p regs) :=
  k.calm_modifyProcess p (fun _ => rfl) fun _ _ => Iff.rfl

theorem calm_setInstance (k : Kernel) (p : Proc) (slot : Tier1Slot) :
    k.Calm (k.setInstance p slot) :=
  .of_processes rfl rfl rfl rfl

theorem calm_setQueue (k : Kernel) (side : Side) (e : ℕ) (que : BoundedQueue TcbRef 8) :
    k.Calm (k.setQueue side e que) :=
  .of_processes rfl rfl rfl rfl

theorem calm_deliverAndWake (k : Kernel) (p : Proc) (msg : Option MsgRegs) (rc : ℤ) :
    k.Calm (k.deliverAndWake p msg rc) := by
  have hwake : ∀ k₁ : Kernel, k₁.Calm ((k₁.setResumeValue p rc).wake p) := by
    intro k₁
    have hresume : k₁.Calm (k₁.setResumeValue p rc) := .of_processes rfl rfl rfl rfl
    exact hresume.trans (calm_wake _ p)
  cases msg with
  | none => exact hwake k
  | some regs => exact (k.calm_setMsgRegs p regs).trans (hwake _)

/-- A process that is not over blocks, which is nothing to the registry. -/
theorem calm_block (k : Kernel) (p : Proc) {f : Process → Process}
    (hmodule : ∀ proc, (f proc).moduleId = proc.moduleId)
    (hf : ∀ proc, ∃ reason epIdx, (f proc).state = .blocked reason epIdx)
    (hp : ¬ k.overAt p) : k.Calm (k.modifyProcess p f) := by
  refine k.calm_modifyProcess p hmodule fun proc hproc => ?_
  obtain ⟨reason, epIdx, hblocked⟩ := hf proc
  refine iff_of_false (by rw [hblocked]; exact id) fun hover => hp ⟨proc.state, ?_, hover⟩
  rw [stateAt, hproc]
  rfl

theorem calm_blockAndYield (k : Kernel) (p : Proc) (reason : BlockReason) (e : ℕ)
    (msgPtr : BitVec 32) (hp : ¬ k.overAt p) : k.Calm (k.blockAndYield p reason e msgPtr) :=
  k.calm_block p (fun _ => rfl) (fun _ => ⟨reason, _, rfl⟩) hp

theorem not_overAt_of_stateAt {s : ProcessState} (h : k.stateAt p = some s) (hs : ¬ s.Over) :
    ¬ k.overAt p := by
  rintro ⟨s', hs', hover⟩
  rw [h, Option.some.injEq] at hs'
  exact hs (hs' ▸ hover)

/-- **An IPC operation** of a process that is not over is nothing to the registry. -/
theorem IpcEffect.calm {slot msgPtr : BitVec 32} {op : Op} {rc : Option ℤ}
    (h : IpcEffect k p slot msgPtr op (rc, k₁)) (hp : ¬ k.overAt p) : k.Calm k₁ := by
  cases h with
  | refused => exact .refl k
  | full => exact k.calm_setMsgRegs p _
  | @sent e q que msg _ _ _ =>
    apply (k.calm_setMsgRegs p msg).trans
    exact (calm_setQueue _ .receivers e que).trans (calm_deliverAndWake _ q _ _)
  | @called e q que msg _ _ _ =>
    have h : k.Calm (((k.setMsgRegs p msg).setQueue .receivers e que).deliverAndWake q
        (some msg) 0) :=
      (k.calm_setMsgRegs p msg).trans ((calm_setQueue _ .receivers e que).trans
        (calm_deliverAndWake _ q _ _))
    exact h.trans (calm_blockAndYield _ p _ e msgPtr fun hover => hp ((h.overs p).mp hover))
  | @queued _ reason e que msg _ _ _ _ _ =>
    have h : k.Calm ((k.setMsgRegs p msg).setQueue .senders e que) :=
      (k.calm_setMsgRegs p msg).trans (calm_setQueue _ .senders e que)
    exact h.trans (calm_blockAndYield _ p _ e msgPtr fun hover => hp ((h.overs p).mp hover))
  | received =>
    apply (k.calm_setQueue _ _ _).trans
    exact (calm_setInstance _ _ _).trans (calm_deliverAndWake _ _ _ _)
  | @receivedCall e q que sender inst memory memory' epIdx _ _ hsender hwait _ _ _ =>
    have h : k.Calm ((k.setQueue .senders e que).setInstance p
        { inst with memory := some memory' }) :=
      (k.calm_setQueue .senders e que).trans (calm_setInstance _ p _)
    have hq : ¬ k.overAt q := by
      refine not_overAt_of_stateAt (s := .blocked .callWait epIdx) ?_ id
      rw [stateAt, hsender, Option.map_some, hwait]
    exact h.trans (calm_block _ q (fun _ => rfl) (fun _ => ⟨.replyWait, epIdx, rfl⟩)
      fun hover => hq ((h.overs q).mp hover))
  | dropped => exact k.calm_setQueue _ _ _
  | @awaited e que _ _ _ =>
    have h : k.Calm (k.setQueue .receivers e que) := k.calm_setQueue .receivers e que
    exact h.trans (calm_blockAndYield _ p _ e msgPtr fun hover => hp ((h.overs p).mp hover))
  | replied => exact k.calm_deliverAndWake _ _ _

theorem calm_returnEvent (k : Kernel) (p : Proc) (outPtr : BitVec 32) (e : Event) (rc : ℤ) :
    k.Calm (k.returnEvent p outPtr e rc).2 := by
  simp only [returnEvent]
  rcases hwrite : k.writeMemory p outPtr (encodeEvent e) with rc' | k'
  · exact .refl k
  · obtain ⟨slot, memory, -, rfl⟩ := writeMemory_ok hwrite
    exact k.calm_setInstance p _

theorem calm_eventReadImpl (k : Kernel) (p : Proc) (cursorLo cursorHi outPtr : BitVec 32)
    (hp : ¬ k.overAt p) : k.Calm (k.eventReadImpl p cursorLo cursorHi outPtr).2 := by
  simp only [eventReadImpl]
  split
  · exact .refl k
  · split
    · rcases hreg : k.registerWaiter p with _ | k'
      · exact .refl k
      · have hevents : k.Calm k' := by
          rw [registerWaiter] at hreg
          split at hreg
          · cases hreg
            exact .refl k
          · split at hreg
            · cases hreg
            · cases hreg
              exact ⟨rfl, rfl, fun _ => rfl, fun _ => Iff.rfl, rfl, rfl⟩
        exact hevents.trans (calm_block _ p (fun _ => rfl)
          (fun _ => ⟨.eventWait, eventWaitSentinel, rfl⟩)
          fun hover => hp ((hevents.overs p).mp hover))
    · exact k.calm_returnEvent p outPtr _ 0
    · exact k.calm_returnEvent p outPtr _ 2

theorem calm_flushMsgToLinmem (k : Kernel) (p : Proc) : k.Calm (k.flushMsgToLinmem p) := by
  simp only [flushMsgToLinmem]
  split
  · exact .refl k
  · split
    · exact .refl k
    · have hclear : k.Calm (k.modifyProcess p fun proc => { proc with msgBuf := noMsgBuf }) :=
        k.calm_modifyProcess p (fun _ => rfl) fun _ _ => Iff.rfl
      split
      · exact hclear
      · split
        · exact hclear
        · split
          · exact hclear
          · exact hclear.trans (calm_setInstance _ p _)

/-- A ready process is dispatched, which is nothing to the registry. -/
theorem calm_setRunning (k : Kernel) (p : Proc) (hp : k.stateAt p = some .ready) :
    k.Calm (k.setState p .running) := by
  refine k.calm_modifyProcess p (fun _ => rfl) fun proc hproc => iff_of_false id fun hover => ?_
  rw [stateAt, hproc, Option.map_some, Option.some.injEq] at hp
  rw [hp] at hover
  exact hover

end Calm

/-! ## The end of a tenant

The scheduler records the end and marks the process before the registry hears of it, so there is a
state in between. -/

/-- One record or two or none, and none that a daemon gave up. -/
def TellsOther (k k' : Kernel) : Prop :=
  ∃ ms : List Emission, ms.length ≤ 2 ∧ (∀ m ∈ ms, m.kind ≠ .daemonGaveUp) ∧ k.Tells k' ms

theorem TellsOther.emit {k k₁ : Kernel} (h : k₁.events = k.events) {kind : EventKind}
    (hkind : kind ≠ .daemonGaveUp) (a : BitVec 16) (b : BitVec 32) :
    k.TellsOther (k₁.emit kind a b) := by
  refine ⟨_, ?_, fun m hm => ?_, Tells.emit h kind a b⟩
  · simp
  · rw [List.mem_singleton.mp hm]
    exact hkind

theorem TellsOther.of_events {k k₁ k₂ : Kernel} (h : k.TellsOther k₁)
    (hevents : k₂.events = k₁.events) : k.TellsOther k₂ := by
  obtain ⟨ms, hlen, hms, htells⟩ := h
  exact ⟨ms, hlen, hms, htells.of_events hevents⟩

/-- The end of `p` is recorded and marked, and the registry has not heard of it yet. -/
structure Ends (k : Kernel) (p : Proc) (k' : Kernel) : Prop where
  lived : ¬ k.overAt p
  eps : k'.caps.bootTier1Eps = k.caps.bootTier1Eps
  modreg : k'.modreg = k.modreg
  modules : ∀ q, k'.moduleAt q = k.moduleAt q
  overs : ∀ q, k'.overAt q ↔ q = p ∨ k.overAt q
  tells : k.TellsOther k'

/-- A step of a turn: nothing that matters here, or a tenant ends and the registry hears of
it. -/
inductive Turned (k k' : Kernel) : Prop where
  | calm (h : k.Calm k')
  | ended {k₁ : Kernel} {p : Proc} (h : k.Ends p k₁) (heq : k' = k₁.onTenantTerminated p)

section Ends

variable {k k₁ k₂ : Kernel} {p : Proc}

/-- Calm steps before an end are part of the end. -/
theorem Ends.of_calm (h₁ : k.Calm k₁) (h₂ : k₁.Ends p k₂) : k.Ends p k₂ := by
  obtain ⟨ms, hlen, hms, htells⟩ := h₂.tells
  refine ⟨fun hover => h₂.lived ((h₁.overs p).mpr hover), h₂.eps.trans h₁.eps,
    h₂.modreg.trans h₁.modreg, fun q => (h₂.modules q).trans (h₁.modules q), fun q => ?_, ms, hlen,
    hms, ?_⟩
  · rw [h₂.overs, h₁.overs]
  · have hlap : ([] : List Emission).length + ms.length ≤ ringCapacity :=
      (Nat.zero_add ms.length).trans_le (hlen.trans (by decide))
    exact h₁.tells.trans htells hlap

/-- The state of a process in the table is written. -/
theorem overAt_setState {s : ProcessState} (hs : s.Over) (hp : k.stateAt p ≠ none) (q : Proc) :
    (k.setState p s).overAt q ↔ q = p ∨ k.overAt q := by
  by_cases hq : q = p
  · subst hq
    exact iff_of_true ⟨s, stateAt_setState_self hp, hs⟩ (.inl rfl)
  · rw [or_iff_right hq]
    exact overAt_congr (by rw [setState, processes_modifyProcess, if_neg hq])

/-- A record changes nothing but the stream, and whoever waits for it. -/
theorem over_emit (k : Kernel) (kind : EventKind) (a : BitVec 16) (b : BitVec 32) (q : Proc) :
    (k.emit kind a b).overAt q ↔ k.overAt q := by
  rw [overAt, overAt, stateAt, stateAt, processes_emit]
  split
  · rcases k.processes q with _ | proc
    · rfl
    · simp only [Option.map_some, Option.some.injEq, exists_eq_left', Process.state_wake]
      exact over_woken
  · rfl

theorem stateAt_emit_ne_none {kind : EventKind} {a : BitVec 16} {b : BitVec 32}
    (hp : k.stateAt p ≠ none) : (k.emit kind a b).stateAt p ≠ none := by
  rw [Ne, stateAt, Option.map_eq_none_iff] at hp ⊢
  rw [processes_emit]
  split
  · rwa [Option.map_eq_none_iff]
  · exact hp

/-- **A turn ends with its tenant**, and with whatever the registry does about that. -/
theorem finish_turned (ending : Ending) {s : ProcessState} (hp : k.stateAt p = some s)
    (hs : ¬ s.Over) : k.Turned (k.finish p ending) := by
  have hstay : ∀ q, ((k.release p).emitEnding p ending).overAt q ↔ k.overAt q := by
    intro q
    cases ending <;> exact over_emit _ _ _ _ q
  have hthere : (k.release p).stateAt p ≠ none := by
    change k.stateAt p ≠ none
    simp [hp]
  have hthere' : ((k.release p).emitEnding p ending).stateAt p ≠ none := by
    cases ending <;> exact stateAt_emit_ne_none hthere
  have hends : k.Ends p (((k.release p).emitEnding p ending).setState p ending.state) := by
    refine ⟨not_overAt_of_stateAt hp hs, by simp, by simp, fun q => ?_, fun q => ?_, ?_⟩
    · rw [moduleAt_setState, moduleAt_emitEnding]
      rfl
    · rw [overAt_setState ending.over hthere', hstay]
    · have hrelease : (k.release p).events = k.events := rfl
      cases ending with
      | exited code =>
        have htells : k.TellsOther ((k.release p).emit .tenantExited
            (BitVec.ofNat 16 p.val) code) := by
          apply TellsOther.emit hrelease
          exact nofun
        exact htells.of_events rfl
      | faulted =>
        have htells : k.TellsOther ((k.release p).emit .tenantFaulted
            (BitVec.ofNat 16 p.val) 0#32) := by
          apply TellsOther.emit hrelease
          exact nofun
        exact htells.of_events rfl
  exact .ended hends rfl

/-- A tenant that yielded is parked if it has blocked, and is at its end otherwise. -/
theorem settleBlocked_turned {s : ProcessState} (hp : k.stateAt p = some s) (hs : ¬ s.Over) :
    k.Turned (k.settleBlocked p) := by
  simp only [settleBlocked]
  split
  · exact finish_turned .faulted hp hs
  · rename_i slot _
    have hpark : k.Calm (k.setInstance p { slot with parked := true }) := calm_setInstance _ _ _
    split
    · exact .calm hpark
    · split
      · exact .calm hpark
      · have hthere : ((k.setInstance p { slot with parked := true }).release p).stateAt p ≠
            none := by
          change k.stateAt p ≠ none
          simp [hp]
        have hends : k.Ends p (((k.setInstance p { slot with parked := true }).release p).setState p
            .faulted) := by
          refine ⟨not_overAt_of_stateAt hp hs, rfl, rfl, fun q => ?_, fun q => ?_, [],
            Nat.zero_le _, by simp, .of_stream rfl rfl⟩
          · rw [moduleAt_setState]
            rfl
          · have hfaulted : ProcessState.faulted.Over := trivial
            rw [overAt_setState hfaulted hthere]
            exact Iff.rfl
        exact .ended hends rfl

theorem Turned.of_calm (h₁ : k.Calm k₁) (h₂ : k₁.Turned k₂) : k.Turned k₂ := by
  cases h₂ with
  | calm h => exact .calm (h₁.trans h)
  | ended h heq => exact .ended (h.of_calm h₁) heq

/-- A process that is in the table and not over. -/
theorem exists_stateAt (h : k.moduleAt p ≠ none) (hp : ¬ k.overAt p) :
    ∃ s, k.stateAt p = some s ∧ ¬ s.Over := by
  rw [Ne, moduleAt_eq_none] at h
  obtain ⟨proc, hproc⟩ := Option.ne_none_iff_exists'.mp h
  have hstate : k.stateAt p = some proc.state := by rw [stateAt, hproc]; rfl
  exact ⟨_, hstate, fun hover => hp ⟨_, hstate, hover⟩⟩

theorem Calm.stateAt {s : ProcessState} (h : k.Calm k₁) (hp : k.stateAt p = some s)
    (hs : ¬ s.Over) : ∃ s', k₁.stateAt p = some s' ∧ ¬ s'.Over := by
  refine exists_stateAt ?_ fun hover => not_overAt_of_stateAt hp hs ((h.overs p).mp hover)
  rw [h.modules, Ne, moduleAt_eq_none]
  intro hnone
  rw [Kernel.stateAt, hnone] at hp
  cases hp

theorem afterHostFn_turned {s : ProcessState} {out : Option ℤ × Kernel} (h : k.Calm out.2)
    (hp : k.stateAt p = some s) (hs : ¬ s.Over) : k.Turned (afterHostFn p out) := by
  obtain ⟨rc | rc, k₁⟩ := out
  · obtain ⟨s', hp', hs'⟩ := h.stateAt hp hs
    exact (settleBlocked_turned hp' hs').of_calm h
  · exact .calm h

theorem dispatch_turned (hp : k.stateAt p = some .ready)
    (image : Option (Option (List (BitVec 8)))) : k.Turned (k.dispatch p image) := by
  have hrun := k.calm_setRunning p hp
  have hready : ¬ ProcessState.ready.Over := id
  have hfinish : ∀ {k₁ : Kernel}, k.Calm k₁ → k.Turned (k₁.finish p .faulted) := by
    intro k₁ h
    obtain ⟨s', hp', hs'⟩ := h.stateAt hp hready
    exact (finish_turned .faulted hp' hs').of_calm h
  simp only [dispatch]
  split
  · have hflush := hrun.trans (calm_flushMsgToLinmem _ p)
    simp only [resume]
    split
    · exact hfinish hflush
    · split
      · exact .calm (hflush.trans (calm_setInstance _ p _))
      · exact hfinish hflush
  · simp only [start]
    split
    · exact hfinish hrun
    · exact .calm (hrun.trans (calm_setInstance _ p _))

/-- **What a turn is to the registry**: calm, or the end of a tenant. -/
theorem turn_turned {t : Turn} {k' : Kernel} (h : k.turn t = some k') : k.Turned k' := by
  have hrunning : ¬ ProcessState.running.Over := id
  rcases turn_cases h with ⟨p, image, rfl, hready, rfl⟩ | ⟨p, memory, slot, rfl, -, -, rfl⟩ |
    ⟨p, op, slot, msgPtr, rfl, hrun, rfl⟩ | ⟨p, lo, hi, ptr, rfl, hrun, rfl⟩ |
    ⟨p, ending, rfl, hrun, rfl⟩
  · exact dispatch_turned hready image
  · exact .calm (k.calm_setInstance p _)
  · have hp := not_overAt_of_stateAt hrun hrunning
    exact afterHostFn_turned ((k.ipcImpl_effect p op slot msgPtr).calm hp) hrun hrunning
  · have hp := not_overAt_of_stateAt hrun hrunning
    exact afterHostFn_turned (k.calm_eventReadImpl p lo hi ptr hp) hrun hrunning
  · exact finish_turned ending hrun hrunning

end Ends

/-! ## What the registry does

Staging, spawning and the end of a tenant, each inverted: the outcomes there are, and what each
leaves of slots, bytes and processes. -/

/-- Every process keeps its module, and whoever is over is so, and nobody else. -/
structure KeepsTenants (k k' : Kernel) : Prop where
  eps : k'.caps.bootTier1Eps = k.caps.bootTier1Eps
  modules : ∀ q, k'.moduleAt q = k.moduleAt q
  overs : ∀ q, k'.overAt q ↔ k.overAt q

/-- The module of a registry slot is brought up as `p`, with `granted`. -/
structure BroughtUp (k k' : Kernel) (p : Proc) (granted : GrantSpec) (slot : BitVec 8) : Prop where
  free : k.processes p = none
  dynamic : procIdDynBase ≤ p.val
  caps : installTier1Grants k.caps (procByte p) granted = .ok k'.caps
  modules : ∀ q, k'.moduleAt q = if q = p then some (.dynamic slot) else k.moduleAt q
  overs : ∀ q, k'.overAt q ↔ k.overAt q

/-- What staging does: it refuses the bytes, or stores them in a free slot. -/
inductive Staged (k : Kernel) (bytes : List (BitVec 8)) :
    Except KernelError (BitVec 8) × Kernel → Prop
  | refused {e : KernelError} : Staged k bytes (.error e, k)
  | stored {i : Fin dynSlots} {k' : Kernel} (hfree : k.modreg.slots i = .free)
      (hstore : k'.modreg.store =
        Function.update k.modreg.store i (bytes ++ (k.modreg.store i).drop bytes.length))
      (hslots : k'.modreg.slots = Function.update k.modreg.slots i (.staged bytes.length))
      (hkeep : k.KeepsTenants k') (htells : k.TellsOther k') :
      Staged k bytes (.ok (moduleByte i), k')

/-- What a spawn does, by how far it gets. -/
inductive Spawned (ed25519 : Ed25519) (k : Kernel) (slot : BitVec 8) (requested : GrantSpec)
    (restartBudget : BitVec 8) : Except KernelError Proc × Kernel → Prop
  /-- nothing, and the signature is not to blame -/
  | refused {e : KernelError} (hno : ∀ i len, moduleByte i = slot →
      k.modreg.slots i = .staged len → ∃ payload, verify ed25519 (k.envelope i len) = .ok payload) :
      Spawned ed25519 k slot requested restartBudget (.error e, k)
  | rejected {i : Fin dynSlots} {len : ℕ} {e : KernelError} {k' : Kernel}
      (hi : moduleByte i = slot) (hstaged : k.modreg.slots i = .staged len)
      (hverify : verify ed25519 (k.envelope i len) = .error e)
      (hstore : k'.modreg.store = k.modreg.store)
      (hslots : k'.modreg.slots = Function.update k.modreg.slots i .free)
      (hkeep : k.KeepsTenants k') (htells : k.TellsOther k') :
      Spawned ed25519 k slot requested restartBudget (.error e, k')
  | live {i : Fin dynSlots} {len : ℕ} {payload : List (BitVec 8)} {p : Proc} {k' : Kernel}
      (hi : moduleByte i = slot) (hstaged : k.modreg.slots i = .staged len)
      (hverify : verify ed25519 (k.envelope i len) = .ok payload)
      (hstore : k'.modreg.store = k.modreg.store)
      (hslots : k'.modreg.slots = Function.update k.modreg.slots i
        (.live ((k.envelope i len).length - payload.length) payload.length p
          (requested.attenuate dynamicCeiling) (decide (0#8 < restartBudget)) restartBudget))
      (hup : k.BroughtUp k' p (requested.attenuate dynamicCeiling) slot)
      (htells : k.TellsOther k') :
      Spawned ed25519 k slot requested restartBudget (.ok p, k')

/-- No process id is left for a module, or there are no endpoints for it. -/
def NoRoom (k : Kernel) : Prop :=
  k.caps.bootTier1Eps = none ∨ ∀ q : Proc, procIdDynBase ≤ q.val → k.processes q ≠ none

/-- What the end of `p` does to the registry, by what `p` was. -/
inductive Terminated (k : Kernel) (p : Proc) : Kernel → Prop
  /-- nothing: it is no daemon -/
  | lies (hno : ∀ i off len g r, k.modreg.slots i ≠ .live off len p g true r) :
      Terminated k p k
  /-- its budget is spent, or it cannot be restarted -/
  | gaveUp {i : Fin dynSlots} {off len : ℕ} {g : GrantSpec} {r : BitVec 8} {k' : Kernel}
      (hslot : k.modreg.slots i = .live off len p g true r) (hwhy : r = 0#8 ∨ k.NoRoom)
      (hstore : k'.modreg.store = k.modreg.store)
      (hslots : k'.modreg.slots =
        Function.update k.modreg.slots i (.live off len p g false 0#8))
      (hkeep : k.KeepsTenants k')
      (htells : k.Tells k' [⟨.daemonGaveUp, BitVec.ofNat 16 p.val, 0#32⟩]) :
      Terminated k p k'
  /-- it is restarted as `q` -/
  | restarted {i : Fin dynSlots} {off len : ℕ} {g : GrantSpec} {r : BitVec 8} {q : Proc}
      {k' : Kernel} (hslot : k.modreg.slots i = .live off len p g true r) (hr : r ≠ 0#8)
      (hstore : k'.modreg.store = k.modreg.store)
      (hslots : k'.modreg.slots =
        Function.update k.modreg.slots i (.live off len q g true (r - 1#8)))
      (hup : k.BroughtUp k' q g (moduleByte i))
      (htells : k.TellsOther k') :
      Terminated k p k'

section Registry

variable {k k₁ k₂ : Kernel}

theorem KeepsTenants.refl (k : Kernel) : k.KeepsTenants k := ⟨rfl, fun _ => rfl, fun _ => Iff.rfl⟩

theorem keepsTenants_emit (k : Kernel) (kind : EventKind) (a : BitVec 16) (b : BitVec 32) :
    k.KeepsTenants (k.emit kind a b) :=
  ⟨by rw [caps_emit], fun q => k.moduleAt_emit kind a b q, k.over_emit kind a b⟩

theorem KeepsTenants.trans (h₁ : k.KeepsTenants k₁) (h₂ : k₁.KeepsTenants k₂) :
    k.KeepsTenants k₂ :=
  ⟨h₂.eps.trans h₁.eps, fun q => (h₂.modules q).trans (h₁.modules q),
    fun q => (h₂.overs q).trans (h₁.overs q)⟩

theorem keepsTenants_of_processes (heps : k₁.caps.bootTier1Eps = k.caps.bootTier1Eps)
    (hprocs : k₁.processes = k.processes) : k.KeepsTenants k₁ :=
  ⟨heps, fun q => by rw [moduleAt, moduleAt, hprocs], fun q => overAt_congr (by rw [hprocs])⟩

/-- **Staging** is one of the cases listed. -/
theorem stage_staged (k : Kernel) (bytes : List (BitVec 8)) : Staged k bytes (k.stage bytes) := by
  rw [stage]
  split
  · exact .refused
  · split
    · exact .refused
    · rename_i i hfind
      have hfree : k.modreg.slots i = .free := by
        have hi := List.find?_some hfind
        rcases hs : k.modreg.slots i with _ | _ | _
        · rfl
        · rw [hs] at hi
          cases hi
        · rw [hs] at hi
          cases hi
      refine .stored hfree ?_ ?_ ?_ ?_
      · rw [modreg_emit]
        rfl
      · rw [modreg_emit]
        rfl
      · refine KeepsTenants.trans ?_ (keepsTenants_emit _ _ _ _)
        exact keepsTenants_of_processes rfl rfl
      · apply TellsOther.emit
        · rfl
        · simp

theorem BroughtUp.of_keeps {p : Proc} {granted : GrantSpec} {slot : BitVec 8}
    (h₁ : k.BroughtUp k₁ p granted slot) (h₂ : k₁.KeepsTenants k₂) (hcaps : k₂.caps = k₁.caps) :
    k.BroughtUp k₂ p granted slot :=
  ⟨h₁.free, h₁.dynamic, by rw [hcaps]; exact h₁.caps, fun q => (h₂.modules q).trans (h₁.modules q),
    fun q => (h₂.overs q).trans (h₁.overs q)⟩

/-- A free process id is registered, and the module is brought up as that process. -/
theorem broughtUp_of_register {p : Proc} {granted : GrantSpec} {slot : BitVec 8}
    (hfree : k.processes p = none) (hdyn : procIdDynBase ≤ p.val)
    (hcaps : installTier1Grants k.caps (procByte p) granted = .ok k₁.caps)
    (hkeep : ∀ q, k₁.moduleAt q = k.moduleAt q ∧ (k₁.overAt q ↔ k.overAt q))
    (h : k₁.registerTenant (procByte p) .one (.dynamic slot) = .ok k₂) :
    k.BroughtUp k₂ p granted slot ∧ k₂.modreg = k₁.modreg ∧ k₂.events = k₁.events := by
  obtain ⟨r, hr, hfree₁, rfl⟩ := register_ok h
  obtain rfl : p = r := by
    have hval := congrArg BitVec.toNat hr
    rw [toNat_procByte, toNat_procByte] at hval
    exact Fin.ext hval
  refine ⟨⟨hfree, hdyn, hcaps, fun q => ?_, fun q => ?_⟩, rfl, rfl⟩
  · rw [← (hkeep q).1]
    change Option.map Process.moduleId (Function.update k₁.processes p _ q) = _
    by_cases hq : q = p
    · subst hq
      rw [Function.update_self, if_pos rfl]
      rfl
    · rw [Function.update_of_ne hq, if_neg hq]
      rfl
  · rw [← (hkeep q).2]
    by_cases hq : q = p
    · subst hq
      refine iff_of_false ?_ ?_
      · refine not_overAt_of_stateAt (s := .ready) ?_ id
        change Option.map Process.state (Function.update k₁.processes q _ q) = _
        rw [Function.update_self]
        rfl
      · rintro ⟨s, hs, -⟩
        rw [stateAt, hfree₁] at hs
        cases hs
    · exact overAt_congr (Function.update_of_ne hq _ _)

/-- **Spawning** is one of the cases listed, from the refusal of a slot that is not staged to the
installation. -/
theorem spawnInner_spawned (ed25519 : Ed25519) (k : Kernel) (slot : BitVec 8)
    (requested : GrantSpec) (restartBudget : BitVec 8) :
    Spawned ed25519 k slot requested restartBudget
      (k.spawnInner ed25519 slot requested restartBudget) := by
  rw [spawnInner]
  split
  swap
  · rename_i hslot
    refine .refused fun i len hi _ => (hslot ?_).elim
    rw [← hi, toNat_moduleByte]
    exact i.isLt
  rename_i hslot
  have hi : moduleByte ⟨slot.toNat, hslot⟩ = slot := moduleByte_mk hslot
  have hother : ∀ i, moduleByte i = slot → i = ⟨slot.toNat, hslot⟩ :=
    fun i h => moduleByte_inj (h.trans hi.symm)
  simp only
  rcases hstate : k.modreg.slots ⟨slot.toNat, hslot⟩ with _ | len | _
  · refine .refused fun i len h hs => ?_
    rw [hother i h, hstate] at hs
    cases hs
  swap
  · refine .refused fun i len h hs => ?_
    rw [hother i h, hstate] at hs
    cases hs
  simp only
  rcases hverify : verify ed25519 (k.envelope ⟨slot.toNat, hslot⟩ len) with e | payload
  · refine .rejected hi hstate hverify ?_ ?_ ?_ ?_
    · change (k.emit _ _ _).modreg.store = _
      rw [modreg_emit]
    · change Function.update (k.emit _ _ _).modreg.slots _ _ = _
      rw [modreg_emit]
    · refine (keepsTenants_emit k .spawnRejected (slot.setWidth 16) 0#32).trans ?_
      exact keepsTenants_of_processes rfl rfl
    · have htells : k.TellsOther (k.emit .spawnRejected (slot.setWidth 16) 0#32) := by
        apply TellsOther.emit
        · rfl
        · simp
      exact htells.of_events rfl
  -- from here on the envelope was accepted
  have hok : ∀ i len', moduleByte i = slot → k.modreg.slots i = .staged len' →
      ∃ payload, verify ed25519 (k.envelope i len') = .ok payload := by
    intro i len' h hs
    obtain rfl := hother i h
    rw [hstate] at hs
    cases hs
    exact ⟨payload, hverify⟩
  rcases halloc : k.allocProcId with e | p
  · exact .refused hok
  obtain ⟨hfree, hdyn⟩ := allocProcId_ok halloc
  simp only
  rcases hcaps : installTier1Grants k.caps (procByte p) (requested.attenuate dynamicCeiling) with
    e | caps
  · exact .refused hok
  simp only
  -- the audit record of a denied grant, if there is one
  generalize hk₁ : (if (requested.denied (requested.attenuate dynamicCeiling)).isEmpty
    then ({ k with caps := caps } : Kernel) else _) = k₁
  have hrecord : k₁.caps = caps ∧ k₁.modreg = k.modreg ∧
      (∀ q, k₁.moduleAt q = k.moduleAt q ∧ (k₁.overAt q ↔ k.overAt q)) ∧
        ∃ ms : List Emission, ms.length ≤ 1 ∧ (∀ m ∈ ms, m.kind ≠ .daemonGaveUp) ∧
          k.Tells k₁ ms := by
    rw [← hk₁]
    split
    · exact ⟨rfl, rfl, fun q => ⟨rfl, Iff.rfl⟩, [], by simp, by simp, .of_stream rfl rfl⟩
    · refine ⟨caps_emit _ _ _ _, modreg_emit _ _ _ _,
        fun q => ⟨moduleAt_emit _ _ _ _ q, over_emit _ _ _ _ q⟩,
        [⟨.grantAttenuated, BitVec.ofNat 16 p.val,
          (requested.denied (requested.attenuate dynamicCeiling)).bits⟩], by simp, by simp, ?_⟩
      apply Tells.emit
      rfl
  obtain ⟨hcaps₁, hmodreg₁, hkeep₁, ms, hlen, hms, htells⟩ := hrecord
  have hfree₁ : k₁.processes p = none := by
    rw [← moduleAt_eq_none, (hkeep₁ p).1, moduleAt_eq_none]
    exact hfree
  obtain ⟨k₂, hreg⟩ := registerTenant_isOk hfree₁ .one (.dynamic slot)
  obtain ⟨hup, hmodreg₂, hevents₂⟩ :=
    broughtUp_of_register hfree hdyn (by rw [hcaps, hcaps₁]) hkeep₁ hreg
  simp only [hreg]
  refine .live hi hstate hverify ?_ ?_ ?_ ?_
  · rw [modreg_emit]
    change k₂.modreg.store = _
    rw [hmodreg₂, hmodreg₁]
  · rw [modreg_emit]
    change Function.update k₂.modreg.slots _ _ = _
    rw [hmodreg₂, hmodreg₁]
  · refine hup.of_keeps (KeepsTenants.trans ?_ (keepsTenants_emit _ _ _ _)) (caps_emit _ _ _ _)
    exact keepsTenants_of_processes rfl rfl
  · refine ⟨ms ++ [⟨.spawnVerified, slot.setWidth 16, BitVec.ofNat 32 p.val⟩], ?_, ?_, ?_⟩
    · simpa using hlen
    · simp only [List.mem_append, List.mem_singleton]
      rintro m (hm | rfl)
      · exact hms m hm
      · simp
    · refine htells.trans ?_ ?_
      · apply Tells.emit
        exact hevents₂
      · simp only [List.length_singleton, ringCapacity]
        omega

theorem daemonOf_some {p : Proc} {i : Fin dynSlots} {r : BitVec 8} {g : GrantSpec} {off len : ℕ}
    (h : k.daemonOf p = some (i, r, g, off, len)) :
    k.modreg.slots i = .live off len p g true r := by
  rw [daemonOf, List.findSome?_eq_some_iff] at h
  obtain ⟨-, j, -, -, hj, -⟩ := h
  split at hj
  · rename_i off' len' p' g' r' hslot
    split at hj
    · rename_i hp
      subst hp
      cases hj
      exact hslot
    · cases hj
  · cases hj

theorem daemonOf_none {p : Proc} (h : k.daemonOf p = none) (i : Fin dynSlots) (off len : ℕ)
    (g : GrantSpec) (r : BitVec 8) : k.modreg.slots i ≠ .live off len p g true r := by
  intro hslot
  rw [daemonOf, List.findSome?_eq_none_iff] at h
  have hi := h i (List.mem_finRange i)
  rw [hslot] at hi
  simp at hi

/-- **No process id is free**: every id for loaded modules is in the table. -/
theorem allocProcId_error {e : KernelError} (h : k.allocProcId = .error e) (q : Proc)
    (hq : procIdDynBase ≤ q.val) : k.processes q ≠ none := by
  rw [allocProcId] at h
  split at h
  · cases h
  · rename_i hfind
    intro hnone
    have hno := List.find?_eq_none.mp hfind q (List.mem_finRange q)
    simp [hq, hnone] at hno

/-- **The end of a tenant**, in the registry, is one of the cases listed. -/
theorem onTenantTerminated_terminated (k : Kernel) (p : Proc) :
    Terminated k p (k.onTenantTerminated p) := by
  rw [onTenantTerminated]
  rcases hdaemon : k.daemonOf p with _ | ⟨i, r, g, off, len⟩
  · exact .lies (daemonOf_none hdaemon)
  have hslot := daemonOf_some hdaemon
  have hgaveUp : r = 0#8 ∨ k.NoRoom → Terminated k p
      ((k.setSlot i (.live off len p g false 0#8)).emit .daemonGaveUp
        (BitVec.ofNat 16 p.val) 0#32) := by
    intro hwhy
    refine .gaveUp hslot hwhy ?_ ?_ ?_ ?_
    · rw [modreg_emit]
      rfl
    · rw [modreg_emit]
      rfl
    · refine KeepsTenants.trans ?_ (keepsTenants_emit _ _ _ _)
      exact keepsTenants_of_processes rfl rfl
    · apply Tells.emit
      rfl
  simp only
  split
  · rename_i hr
    exact hgaveUp (.inl hr)
  rename_i hr
  rw [restart]
  rcases halloc : k.allocProcId with e | q
  · exact hgaveUp (.inr (.inr (allocProcId_error halloc)))
  obtain ⟨hfree, hdyn⟩ := allocProcId_ok halloc
  simp only
  rcases hcaps : installTier1Grants k.caps (procByte q) g with e | caps
  · refine hgaveUp (.inr (.inl ?_))
    rw [← Option.not_isSome_iff_eq_none, Option.isSome_iff_exists,
      ← installTier1Grants_isOk k.caps q g, hcaps]
    rintro ⟨st', hst'⟩
    cases hst'
  obtain ⟨k₁, hk₁⟩ : ∃ k₁ : Kernel, k₁ = { k with caps := caps } := ⟨_, rfl⟩
  have hfree₁ : k₁.processes q = none := hk₁ ▸ hfree
  obtain ⟨k₂, hreg⟩ := registerTenant_isOk hfree₁ .one (.dynamic (BitVec.ofNat 8 i.val))
  have hkeep₁ : ∀ r, k₁.moduleAt r = k.moduleAt r ∧ (k₁.overAt r ↔ k.overAt r) := by
    subst hk₁
    exact fun r => ⟨rfl, Iff.rfl⟩
  obtain ⟨hup, hmodreg₂, hevents₂⟩ :=
    broughtUp_of_register hfree hdyn (by rw [hcaps, hk₁]) hkeep₁ hreg
  subst hk₁
  simp only [hreg]
  refine Terminated.restarted (q := q) hslot hr ?_ ?_ ?_ ?_
  · rw [modreg_emit]
    change k₂.modreg.store = _
    rw [hmodreg₂]
  · rw [modreg_emit]
    change Function.update k₂.modreg.slots _ _ = _
    rw [hmodreg₂]
  · refine hup.of_keeps (KeepsTenants.trans ?_ (keepsTenants_emit _ _ _ _)) (caps_emit _ _ _ _)
    exact keepsTenants_of_processes rfl rfl
  · apply TellsOther.emit
    · exact hevents₂
    · simp

end Registry

end Kernel

end Wari
