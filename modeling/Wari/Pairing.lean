import Wari.System
import Wari.Release

/-!
# Whoever waits, waits on a live endpoint

A process that waits on an endpoint should wait on the object it began to wait on, and
should be woken with an error when the last cap to it goes. Nothing that takes caps away
looks at who waits: an endpoint goes when a call takes away as many caps as it counts,
and its waiters stay blocked. A run is free of that exactly where no call releases an
endpoint somebody waits on.
-/

namespace Wari

open Lib (Machine Rendezvous)

/-! ## Who waits on what

A process that waits has the index of an endpoint, and indices are used again. -/

namespace Kernel

/-- The endpoint that a process waits on, if it does. -/
def waitsOn (k : Kernel) (p : Proc) : Option ℕ := (k.rendezvous.wait p).map Prod.snd

theorem waitsOn_eq_some {k : Kernel} {p : Proc} {e : ℕ} :
    k.waitsOn p = some e ↔ ∃ w, k.rendezvous.wait p = some (w, e) := by
  rw [waitsOn, Option.map_eq_some_iff]
  constructor
  · rintro ⟨⟨w, e'⟩, hwait, rfl⟩
    exact ⟨w, hwait⟩
  · rintro ⟨w, hwait⟩
    exact ⟨(w, e), hwait, rfl⟩

/-- Is there an endpoint at `e` in the pool? -/
def hasEndpoint (k : Kernel) (e : ℕ) : Bool := (k.endpoint? e).isSome

/-- There is an endpoint where there is a count. -/
theorem hasEndpoint_eq (k : Kernel) (e : ℕ) :
    k.hasEndpoint e = (k.caps.objectPools.refcount? .endpoint e).isSome := by
  rw [hasEndpoint, ObjectPools.refcount?, ObjectPools.object?, Option.isSome_map, Option.isSome_map]
  rfl

/-- Nothing is queued where there is no endpoint. -/
theorem hasEndpoint_of_mem {k : Kernel} (side : Side) {e : ℕ} {p : Proc}
    (h : p ∈ k.queue side e) : k.hasEndpoint e = true := by
  rw [queue] at h
  rw [hasEndpoint]
  rcases hep : k.endpoint? e with _ | ep
  · rw [hep] at h
    cases h
  · rfl

/-- Where the last cap of an endpoint goes, whoever waits there is ready, and is handed an
error. -/
def LastCapWakes (k k' : Kernel) : Prop :=
  ∀ e, 0 < k.caps.names .endpoint e → k'.caps.names .endpoint e = 0 →
    ∀ p, k.waitsOn p = some e → k'.stateAt p = some .ready ∧
      ∃ slot, k'.tier1Pool p = some slot ∧ slot.pendingResume < 0

end Kernel

/-! ## The machine

To tell an endpoint from a later one of the same index, allocations are counted next to the
kernel. -/

/-- The kernel, how often each endpoint index was allocated since boot, and how often it
had been when a process began to wait there. The counts are proof-only: they tell one
endpoint from a later one at its index. -/
structure Pairing where
  /-- the kernel -/
  kernel : Kernel
  /-- how often an index was allocated anew -/
  epoch : ℕ → ℕ
  /-- the epoch of the index a process waits on, when it began to -/
  since : Proc → ℕ

namespace Pairing

/-- Boot, where nobody waits, and nothing was destroyed. -/
def boot (board : Board) : Pairing := ⟨.booted board, fun _ => 0, fun _ => 0⟩

/-- The epochs after a step that led to `k`. -/
def epochAfter (s : Pairing) (k : Kernel) (e : ℕ) : ℕ :=
  if !s.kernel.hasEndpoint e && k.hasEndpoint e then s.epoch e + 1 else s.epoch e

/-- What is kept of a step that led to `k`. -/
def after (s : Pairing) (k : Kernel) : Pairing where
  kernel := k
  epoch := s.epochAfter k
  since p :=
    match k.waitsOn p with
    | none => s.since p
    | some e => if s.kernel.waitsOn p = some e then s.since p else s.epochAfter k e

/-- Whoever waits, waits on an endpoint that is allocated, and the one it began to wait
on. -/
def Paired (s : Pairing) : Prop :=
  ∀ p e, s.kernel.waitsOn p = some e → s.kernel.hasEndpoint e = true ∧ s.since p = s.epoch e

/-- The step leaves all waiters paired, and wakes those whose last cap goes. -/
def PairedStep (s : Pairing) (_ : SystemCall) (s' : Pairing) : Prop :=
  s'.Paired ∧ s.kernel.LastCapWakes s'.kernel

/-- The call releases no endpoint somebody waits on. -/
def SparesWaiters (s : Pairing) : SystemCall → Prop
  | .cap call => ∀ p e, s.kernel.waitsOn p = some e → ¬ Releases s.kernel.caps call .endpoint e
  | _ => True

end Pairing

/-- The system from boot, keeping who began to wait when. -/
def pairingMachine (ed25519 : Ed25519) (board : Board) : Machine Pairing SystemCall where
  init s := s = Pairing.boot board
  step s c := (systemStep ed25519 s.kernel c).map s.after

theorem pairingMachine_records (ed25519 : Ed25519) (board : Board) :
    (pairingMachine ed25519 board).Records (systemMachine ed25519 board) Pairing.kernel := by
  intro s c
  simp [pairingMachine, systemMachine, Pairing.after, Function.comp_def]

/-- The epochs follow the system and do not steer it. -/
theorem systemMachine_reachable_iff {ed25519 : Ed25519} {board : Board} {k : Kernel} :
    (systemMachine ed25519 board).Reachable k ↔
      ∃ s, (pairingMachine ed25519 board).Reachable s ∧ s.kernel = k := by
  refine (pairingMachine_records ed25519 board).reachable_iff fun k => ⟨?_, ?_⟩
  · rintro rfl
    exact ⟨.boot board, rfl, rfl⟩
  · rintro ⟨s, rfl, rfl⟩
    rfl

/-! ## What every step keeps

Steps that take no capability away free no endpoint. -/

/-- What carries the pairing along a run: queues and waits agree, endpoints that are named are
counted, and whoever waits has an endpoint. -/
structure SystemInv (k : Kernel) : Prop where
  sound : k.rendezvous.Sound
  seated : k.Seated
  tidy : Tidy k
  table : k.caps.ParentsInTable
  within : Within k.caps .endpoint

section Kept

variable {k k₁ k' : Kernel}

namespace Kernel

theorem Grows.within (h : k.Grows k') {kind : ObjectKind} (hk : kind ≠ .empty)
    (hw : Within k.caps kind) : Within k'.caps kind := by
  intro i n hn
  rw [h.counts] at hn
  obtain ⟨hpos, hle⟩ := hw i n hn
  exact ⟨hpos, hle.trans (h.names_le hk i)⟩

theorem Grows.hasEndpoint (h : k.Grows k') (e : ℕ) : k'.hasEndpoint e = k.hasEndpoint e := by
  rw [hasEndpoint_eq, hasEndpoint_eq, h.counts]

/-- Where no cap goes, no last cap goes. -/
theorem Grows.lastCapWakes (h : k.Grows k') : k.LastCapWakes k' := by
  intro e hpos hzero
  have hle : k.caps.names .endpoint e ≤ k'.caps.names .endpoint e := h.names_le (by decide) e
  omega

end Kernel

/-- **A step that takes no cap away** keeps the invariant, and only starts waits on
endpoints there are. -/
theorem SystemInv.grow {ed25519 : Ed25519} (h : SystemInv k) {c : SystemCall}
    (hstep : systemStep ed25519 k c = some k') (hc : ∀ call, c ≠ .cap call) :
    SystemInv k' ∧ k.Grows k' ∧
      ∀ p e, k'.waitsOn p = some e → k.waitsOn p = some e ∨ k'.hasEndpoint e = true := by
  have hinv : ∀ {k' : Kernel}, k'.Seated → k'.rendezvous.Sound → k.Grows k' → SystemInv k' :=
    fun hseat hsound hgrows =>
      ⟨hsound, hseat, hgrows.tidy, hgrows.table, hgrows.within (by decide) h.within⟩
  -- the registry leaves the rendezvous alone
  have hquiet : k'.Seated ∧ k'.rendezvous = k.rendezvous → k.Grows k' →
      SystemInv k' ∧ k.Grows k' ∧
        ∀ p e, k'.waitsOn p = some e → k.waitsOn p = some e ∨ k'.hasEndpoint e = true := by
    rintro ⟨hseat, hrend⟩ hgrows
    refine ⟨hinv hseat (hrend ▸ h.sound) hgrows, hgrows, fun p e hp => .inl ?_⟩
    rwa [Kernel.waitsOn, hrend] at hp
  cases c with
  | cap call => exact (hc call rfl).elim
  | stage bytes =>
    obtain rfl := Option.some.inj hstep
    exact hquiet (Kernel.Stirred.seated (k.stage_stirred bytes) h.seated)
      ((k.quiet_stage bytes).mild.brings.grows h.tidy h.table)
  | spawn slot requested restartBudget =>
    obtain rfl := Option.some.inj hstep
    have hbrings := k.spawnInner_brings ed25519 slot requested restartBudget
    exact hquiet
      (Kernel.Stirred.seated (k.spawnInner_stirred ed25519 slot requested restartBudget) h.seated)
      (((Kernel.Mild.refl k).then_brings hbrings).grows h.tidy h.table)
  | turn t =>
    have hturn : k.turn t = some k' := hstep
    have hgrows := (Kernel.turn_brings hturn).grows h.tidy h.table
    obtain ⟨hseat, hmove⟩ := Kernel.turn_step h.sound h.seated hturn
    rcases hmove with ⟨-, hsame | hmove⟩ | ⟨-, hdrop⟩
    · exact hquiet ⟨hseat, hsame⟩ hgrows
    · refine ⟨hinv hseat (hmove.sound h.sound) hgrows, hgrows, fun p e hp => ?_⟩
      obtain ⟨w, hwait⟩ := Kernel.waitsOn_eq_some.mp hp
      rcases hmove.waits hwait with ⟨w', hbefore⟩ | ⟨y, hy⟩ | ⟨y, hy⟩ | ⟨y, hy⟩
      · exact .inl (Kernel.waitsOn_eq_some.mpr ⟨w', hbefore⟩)
      · right
        rw [hgrows.hasEndpoint]
        exact Kernel.hasEndpoint_of_mem .receivers hy
      · exact .inr (Kernel.hasEndpoint_of_mem .senders hy)
      · exact .inr (Kernel.hasEndpoint_of_mem .receivers hy)
    · refine ⟨hinv hseat (hdrop.sound h.sound) hgrows, hgrows, fun p e hp => .inl ?_⟩
      rwa [Kernel.waitsOn, hdrop.wait_eq] at hp

end Kept

/-! ## Capability syscalls and the queues

A call that frees an endpoint nobody waits on takes empty queues with it. -/

section Calls

variable {k : Kernel} {st : CapState} {call : CapCall} {r : ℤ}

/-- An endpoint is there after a call exactly where it was and is not released. -/
theorem hasEndpoint_capStep (htable : k.caps.ParentsInTable)
    (h : capStep k.caps call = some (r, st)) (e : ℕ) :
    Kernel.hasEndpoint { k with caps := st } e = true ↔
      k.hasEndpoint e = true ∧ ¬ Releases k.caps call .endpoint e := by
  have hobject : ∀ k : Kernel, k.hasEndpoint e = (k.caps.objectPools.object? .endpoint e).isSome :=
    fun k => (k.hasEndpoint_eq e).trans (Option.isSome_map ..)
  rw [hobject, hobject]
  rcases hobj : k.caps.objectPools.object? .endpoint e with _ | obj
  · rw [capStep_absent h (by decide) hobj]
    simp
  · have hfate := capStep_fate htable h hobj
    change (st.objectPools.object? .endpoint e).isSome = true ↔ _
    generalize st.objectPools.object? .endpoint e = after at hfate
    cases hfate with
    | kept n hstay => simp [hstay]
    | freed hgo => simp [hgo]

/-- A call leaves the queues of every endpoint that stays. -/
theorem queue_capStep (htable : k.caps.ParentsInTable) (h : capStep k.caps call = some (r, st))
    {e : ℕ} (hstay : Kernel.hasEndpoint { k with caps := st } e = true) (side : Side) :
    Kernel.queue { k with caps := st } side e = k.queue side e := by
  obtain ⟨hthere, hkept⟩ := (hasEndpoint_capStep htable h e).mp hstay
  obtain ⟨ep, hep⟩ := Option.isSome_iff_exists.mp hthere
  have hobj : k.caps.objectPools.object? .endpoint e = some (.endpoint ep) :=
    congrArg (Option.map KernelObject.endpoint) hep
  have hfate := capStep_fate htable h hobj
  generalize hafter : st.objectPools.object? .endpoint e = after at hfate
  cases hfate with
  | freed hgo => exact (hkept hgo).elim
  | kept n _ =>
    obtain ⟨ep', hep', hsame⟩ := Option.map_eq_some_iff.mp hafter
    have hget : Kernel.endpoint? { k with caps := st } e = some ep' := hep'
    rw [Kernel.queue_eq hget, Kernel.queue_eq hep]
    obtain rfl : ep' = { ep with refcount := n } := KernelObject.endpoint.inj hsame
    cases side <;> rfl

/-- **A call that spares the waiters** leaves the rendezvous alone: the endpoints it frees
have nobody queued. -/
theorem rendezvous_capStep (hsound : k.rendezvous.Sound) (htable : k.caps.ParentsInTable)
    (h : capStep k.caps call = some (r, st))
    (hspares : ∀ p e, k.waitsOn p = some e → ¬ Releases k.caps call .endpoint e) :
    Kernel.rendezvous { k with caps := st } = k.rendezvous := by
  have hqueue : ∀ side e, Kernel.queue { k with caps := st } side e = k.queue side e := by
    intro side e
    by_cases hstay : Kernel.hasEndpoint { k with caps := st } e = true
    · exact queue_capStep htable h hstay side
    · have hempty : k.queue side e = [] := by
        refine List.eq_nil_iff_forall_not_mem.mpr fun p hp => ?_
        have hthere := Kernel.hasEndpoint_of_mem side hp
        have hwaits : k.waitsOn p = some e := by
          rw [Kernel.waitsOn_eq_some]
          cases side with
          | senders =>
            rcases hsound.sending e p hp with hw | hw
            · exact ⟨_, hw⟩
            · exact ⟨_, hw⟩
          | receivers => exact ⟨_, (hsound.receiving e p).mp hp⟩
        exact hstay ((hasEndpoint_capStep htable h e).mpr ⟨hthere, hspares p e hwaits⟩)
      rw [hempty]
      refine List.eq_nil_iff_forall_not_mem.mpr fun p hp => ?_
      exact hstay (Kernel.hasEndpoint_of_mem side hp)
  refine Rendezvous.ext (funext fun e => ?_) (funext fun e => ?_) rfl
  · exact hqueue .senders e
  · exact hqueue .receivers e

/-- **A call that spares the waiters** keeps the invariant: no endpoint goes that somebody waits
on. -/
theorem SystemInv.capStep (hinv : SystemInv k) (h : capStep k.caps call = some (r, st))
    (hspares : ∀ p e, k.waitsOn p = some e → ¬ Releases k.caps call .endpoint e) :
    SystemInv { k with caps := st } := by
  have heffect := capStep_effect h
  have hrend := rendezvous_capStep hinv.sound hinv.table h hspares
  refine ⟨?_, ⟨hinv.seated.running, hinv.seated.parked, hinv.seated.ring⟩,
    heffect.tidy hinv.tidy, heffect.parentsInTable hinv.table,
    heffect.within (by decide) (by decide) hinv.within⟩
  rw [hrend]
  exact hinv.sound

end Calls

/-! ## Runs

The condition is on the call: that it frees no endpoint somebody waits on. -/

namespace Pairing

variable {s : Pairing}

/-- Where endpoints neither come nor go under a waiter, all stay paired. -/
theorem Paired.after (h : s.Paired) (k' : Kernel)
    (hold : ∀ e, k'.hasEndpoint e = true → s.kernel.hasEndpoint e = true)
    (hthere : ∀ p e, k'.waitsOn p = some e → k'.hasEndpoint e = true) : (s.after k').Paired := by
  have hepoch : ∀ e, s.epochAfter k' e = s.epoch e := by
    intro e
    rw [epochAfter]
    split
    · rename_i hnew
      obtain ⟨hno, hyes⟩ := Bool.and_eq_true_iff.mp hnew
      rw [hold e hyes] at hno
      cases hno
    · rfl
  intro p e hp
  have hp' : k'.waitsOn p = some e := hp
  refine ⟨hthere p e hp', ?_⟩
  change (s.after k').since p = s.epochAfter k' e
  simp only [Pairing.after, hp']
  split
  · rename_i hbefore
    rw [hepoch]
    exact (h p e hbefore).2
  · rfl

end Pairing

/-- Boot leaves nobody waiting, so that nothing has to be paired. -/
theorem paired_boot (board : Board) :
    SystemInv (Pairing.boot board).kernel ∧ (Pairing.boot board).Paired := by
  have hidle := Kernel.booted_idle board
  refine ⟨⟨(Kernel.coherent_iff.mp hidle.coherent).1, hidle.seated, tidy_booted board,
    parentsInTable_bootState board, (refLaw_bootState board rfl).within⟩, fun p e hp => ?_⟩
  obtain ⟨w, hwait⟩ := Kernel.waitsOn_eq_some.mp hp
  cases (hidle.wait p).symm.trans hwait

/-- **Waiters are paired with live endpoints along a run, and woken when the last cap
goes**, exactly where no capability syscall releases an endpoint somebody waits on. -/
theorem paired_along_iff (ed25519 : Ed25519) (board : Board) (calls : List SystemCall) :
    (pairingMachine ed25519 board).Along Pairing.PairedStep (.boot board) calls ↔
      (pairingMachine ed25519 board).Meets Pairing.SparesWaiters (.boot board) calls := by
  refine Machine.along_iff_meets (I := fun s => SystemInv s.kernel ∧ s.Paired) ?_ ?_ calls _
    (paired_boot board)
  · rintro s c s' ⟨hinv, hpaired⟩ h hspares
    obtain ⟨k', hstep, rfl⟩ := Option.map_eq_some_iff.mp h
    by_cases hc : ∃ call, c = .cap call
    · obtain ⟨call, rfl⟩ := hc
      simp only [systemStep] at hstep
      split at hstep
      · obtain ⟨⟨r, st⟩, hcall, rfl⟩ := Option.map_eq_some_iff.mp hstep
        have hspares' : ∀ p e, s.kernel.waitsOn p = some e →
            ¬ Releases s.kernel.caps call .endpoint e := hspares
        have hinv' := hinv.capStep hcall hspares'
        have hrend := rendezvous_capStep hinv.sound hinv.table hcall hspares'
        have hwaits : ∀ p, Kernel.waitsOn { s.kernel with caps := st } p = s.kernel.waitsOn p := by
          intro p
          rw [Kernel.waitsOn, hrend]
          rfl
        have hthere : ∀ p e, Kernel.waitsOn { s.kernel with caps := st } p = some e →
            Kernel.hasEndpoint { s.kernel with caps := st } e = true := by
          intro p e hp
          rw [hwaits] at hp
          exact (hasEndpoint_capStep hinv.table hcall e).mpr
            ⟨(hpaired p e hp).1, hspares' p e hp⟩
        have hpaired' := hpaired.after { s.kernel with caps := st }
          (fun e he => ((hasEndpoint_capStep hinv.table hcall e).mp he).1) hthere
        refine ⟨⟨hpaired', fun e _ hzero p hp => ?_⟩, hinv', hpaired'⟩
        -- an endpoint that is there has a cap left
        have hcount := hthere p e ((hwaits p).trans hp)
        rw [Kernel.hasEndpoint_eq, Option.isSome_iff_exists] at hcount
        obtain ⟨n, hn⟩ := hcount
        obtain ⟨hpos, hle⟩ := hinv'.within e n hn
        change CapState.names st .endpoint e = 0 at hzero
        change n ≤ CapState.names st .endpoint e at hle
        omega
      · cases hstep
    · obtain ⟨hinv', hgrows, hnew⟩ := hinv.grow hstep fun call h => hc ⟨call, h⟩
      have hpaired' := hpaired.after k'
        (fun e he => by rwa [hgrows.hasEndpoint] at he) fun p e hp => by
          rcases hnew p e hp with hbefore | hthere
          · rw [hgrows.hasEndpoint]
            exact (hpaired p e hbefore).1
          · exact hthere
      exact ⟨⟨hpaired', hgrows.lastCapWakes⟩, hinv', hpaired'⟩
  · rintro s c s' ⟨hinv, hpaired⟩ h ⟨hpaired', -⟩
    cases c with
    | cap call =>
      intro p e hp hgo
      obtain ⟨k', hstep, rfl⟩ := Option.map_eq_some_iff.mp h
      simp only [systemStep] at hstep
      split at hstep
      · obtain ⟨⟨r, st⟩, hcall, rfl⟩ := Option.map_eq_some_iff.mp hstep
        -- the call touches no process, so `p` waits on
        have hthere := (hpaired' p e hp).1
        exact ((hasEndpoint_capStep hinv.table hcall e).mp hthere).2 hgo
      · cases hstep
    | _ => trivial

/-! ## A stranded waiter

Boot gives two tenants a capability each to the exit endpoint, and a third is given one that is
not counted. -/

/-- Process 5 is brought up. Process 2 queues to send on the exit endpoint, which counts the
caps of processes 2 and 3. Process 3 deletes its cap and ends, and then process 5
deletes its own, which was never counted. -/
def strandingCalls : List SystemCall :=
  [.stage (acceptedPubkey ++ emptySignature), .spawn 0#8 .empty 0#8,
    .turn (.dispatch 2 (some (some page))), .turn (.ipc 2 .send 1#32 0#32),
    .turn (.dispatch 3 (some (some page))), .cap (.delete 3#8 1#32),
    .turn (.finish 3 (.exited 0#32)), .turn (.dispatch 5 (some (some page))),
    .cap (.delete 5#8 1#32)]

namespace Kernel

/-- Process 5 is brought up, and process 2 runs. -/
def exiting : Kernel :=
  (((booted .qemu).stage (acceptedPubkey ++ emptySignature)).2.spawnInner emptyVerifier 0#8 .empty
    0#8).2.entered 2

/-- Process 2 is queued to send on the exit endpoint. -/
def exitWaits : Kernel := (exiting.enqueued 2 .sendWait 1).setInstance 2 ⟨some page, true, 0⟩

theorem ipcImpl_exiting :
    exiting.ipcImpl 2 .send 1#32 0#32 = (none, exiting.enqueued 2 .sendWait 1) := by
  rw [ipcImpl, ipcSendImpl]
  exact doSendLike_page (.inl ⟨rfl, rfl⟩) rfl rfl rfl rfl

theorem turn_exiting : exiting.turn (.ipc 2 .send 1#32 0#32) = some exitWaits :=
  turn_of_blocked rfl ipcImpl_exiting rfl rfl

end Kernel

/-- **A waiter is stranded**: the exit endpoint goes, and process 2 stays blocked on it. -/
theorem stranded_waiter : ¬ (pairingMachine emptyVerifier .qemu).Along Pairing.PairedStep
    (.boot .qemu) strandingCalls := by
  intro h
  have h₁ := ((Machine.along_cons rfl).mp h).2
  have h₂ := ((Machine.along_cons rfl).mp h₁).2
  have h₃ := ((Machine.along_cons rfl).mp h₂).2
  have hsend : ∀ epoch since, (pairingMachine emptyVerifier .qemu).step
      ⟨Kernel.exiting, epoch, since⟩ (.turn (.ipc 2 .send 1#32 0#32)) =
        some (Pairing.after ⟨Kernel.exiting, epoch, since⟩ Kernel.exitWaits) :=
    fun epoch since => congrArg (Option.map _) Kernel.turn_exiting
  have h₄ := ((Machine.along_cons (hsend _ _)).mp h₃).2
  have h₅ := ((Machine.along_cons rfl).mp h₄).2
  have h₆ := ((Machine.along_cons rfl).mp h₅).2
  have h₇ := ((Machine.along_cons rfl).mp h₆).2
  have h₈ := ((Machine.along_cons rfl).mp h₇).2
  obtain ⟨hpaired, -⟩ := ((Machine.along_cons rfl).mp h₈).1
  obtain ⟨hthere, -⟩ := hpaired 2 1 rfl
  cases hthere

end Wari
