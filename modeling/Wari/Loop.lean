import Wari.Coherence

/-!
# The scheduler loop

The loop picks a ready tenant, enters or resumes it, and has the turn back when the
tenant has ended or yielded. Meanwhile the tenant's host functions do as they please
with everything but two things: which processes there are and what state they are in,
and which instances there are and how far they got. Those change only by the steps
below, whatever the host functions are and in whatever order they take them.

A module may have a start section, which `load_tier1` runs before the instance is in the
pool. Its tenant has the turn then, but no instance; and where a host function suspends
it, the process is blocked until `load_tier1` has come back with the error and the loop
overwrites that with a fault. This is the one way out of `Blocked` that is no wake.

Process table and instance pool are kept apart, and have to stay in step: `Seat.Ok`
lists how the two may stand for one process, and `Seat.Step` what one step does to
it.
-/

namespace Wari

open Lib (Machine)

/-! ## The loop and the tenant it runs

The tenants' host functions are not fixed: in its turn a tenant may write whatever no scheduling
depends on, wake peers, block and yield in any order. `Served` shows that the real host functions
are among these. -/

/-- What a host function writes that no scheduling depends on. -/
inductive HostWrite where
  /-- capabilities and kernel objects -/
  | caps (caps : CapState)
  /-- the module registry -/
  | modreg (modreg : Registry)
  /-- the audit stream, and who waits for its next record -/
  | events (events : Events)
  /-- message registers of a process -/
  | msgRegs (q : Proc) (regs : MsgRegs)
  /-- where the tenant wants its next message -/
  | msgBuf (msgPtr : BitVec 32)
  /-- the tenant's linear memory -/
  | memory (memory : Option (List (BitVec 8)))

/-- One thing that happens, in the loop or while a tenant runs. -/
inductive SchedStep where
  /-- the loop picks a ready process, whose module has no start section or is loaded; if it
  has no instance yet, `image` is the memory its module exports, if the module loads -/
  | dispatch (p : Proc) (image : Option (Option (List (BitVec 8))))
  /-- the loop picks a ready process without an instance, and the start section of its module
  is entered -/
  | instantiate (p : Proc)
  /-- the start section has returned: the instance, with this memory, goes into the pool, and
  `_start` is entered -/
  | started (memory : Option (List (BitVec 8)))
  /-- the running tenant has a peer woken, with result `rc` -/
  | wakes (peer : Proc) (msg : Option MsgRegs) (rc : ℤ)
  /-- it has a record emitted -/
  | emits (kind : EventKind) (a : BitVec 16) (b : BitVec 32)
  /-- it has a tenant registered -/
  | registers (procId : BitVec 8) (tier : Tier) (moduleId : ModuleId)
  /-- it takes the message of a blocked caller, which awaits the reply from there on -/
  | takes (q : Proc)
  /-- it has something else written -/
  | writes (w : HostWrite)
  /-- it blocks itself and yields -/
  | blocks (reason : BlockReason) (epIdx : BitVec 8)
  /-- it yields without having blocked itself -/
  | yields
  /-- it exits or traps -/
  | ends (ending : Ending)

/-- The kernel, where the loop stands, and what became of each process so far. `ran` and `handed`
are proof-only: the promises speak of processes that ran before and of values handed to them. -/
structure Sched where
  kernel : Kernel
  /-- whose turn it is; nobody's at the head of the loop -/
  turn : Option Proc
  /-- who was entered before -/
  ran : Proc → Bool
  /-- the result handed to a process since it last yielded -/
  handed : Proc → Option ℤ

namespace Kernel

/-- Something else is written while `p` runs, by one of the host functions that do not yield. -/
def write (k : Kernel) (p : Proc) : HostWrite → Kernel
  | .caps caps => { k with caps := caps }
  | .modreg modreg => { k with modreg := modreg }
  | .events events => { k with events := events }
  | .msgRegs q regs => k.setMsgRegs q regs
  | .msgBuf msgPtr => k.modifyProcess p fun proc => { proc with msgBuf := msgPtr }
  | .memory memory =>
    match k.tier1Pool p with
    | none => k
    | some slot => k.setInstance p { slot with memory := memory }

/-- `p` blocks. -/
def block (k : Kernel) (p : Proc) (reason : BlockReason) (epIdx : BitVec 8) : Kernel :=
  k.modifyProcess p fun proc => proc.block reason epIdx

/-- A blocked caller whose message was taken goes on to await the reply. Senders are left as they
are. -/
def take (k : Kernel) (q : Proc) : Kernel :=
  match k.stateAt q with
  | some (.blocked .callWait epIdx) => k.modifyProcess q fun proc => proc.block .replyWait epIdx
  | _ => k

/-- `p` is blocked for nothing: it runs, is ready, is over, or is not there. -/
def Unblocked (k : Kernel) (p : Proc) : Prop :=
  ∀ reason epIdx, k.stateAt p ≠ some (.blocked reason epIdx)

theorem unblocked_of_running {k : Kernel} {p : Proc} (h : k.stateAt p = some .running) :
    k.Unblocked p :=
  fun _ _ hblocked => by cases h.symm.trans hblocked

end Kernel

namespace Sched

/-- Those let go by the audit stream are handed `1`. -/
def handedBy (s : Sched) (k : Kernel) (q : Proc) : Option ℤ :=
  if s.kernel.LetGo k q then some 1 else s.handed q

/-- The turn is back with the loop, and what was handed to whom is brought up to date. -/
def back (s : Sched) (k : Kernel) : Sched :=
  { s with kernel := k, turn := none, handed := s.handedBy k }

/-- A step in the turn of `p`, while `p` is in its start section or runs. -/
def during (s : Sched) (p : Proc) : SchedStep → Option Sched
  | .dispatch .. => none
  | .instantiate _ => none
  | .started memory =>
    if s.kernel.isLive p then none
    else some { s with kernel := s.kernel.setInstance p ⟨memory, false, 0⟩ }
  | .wakes peer msg rc =>
    some { s with
      kernel := s.kernel.deliverAndWake peer msg rc
      handed := Function.update s.handed peer (some rc) }
  | .emits kind a b =>
    let k := s.kernel.emit kind a b
    some { s with kernel := k, handed := s.handedBy k }
  | .registers procId tier moduleId =>
    match s.kernel.registerTenant procId tier moduleId with
    | .error _ => some s
    | .ok k => some { s with kernel := k }
  | .takes q => some { s with kernel := s.kernel.take q }
  | .writes w => some { s with kernel := s.kernel.write p w }
  | .blocks reason epIdx =>
    let k := s.kernel.block p reason epIdx
    let handed := Function.update s.handed p none
    if s.kernel.isLive p then
      some { s with kernel := k.settleBlocked p, turn := none, handed := handed }
    else
      -- the error is on its way to `load_tier1`: no code of the tenant runs any more
      some { s with kernel := k, handed := handed }
  | .yields => some (s.back (s.kernel.settleBlocked p))
  | .ends ending =>
    -- how a start section ends is not told apart
    some (s.back (s.kernel.finish p (if s.kernel.isLive p then ending else .faulted)))

/-- The loop enters `p`. The turn is back at once if `p` cannot be entered. -/
def enter (s : Sched) (p : Proc) (image : Option (Option (List (BitVec 8)))) : Sched :=
  let k := s.kernel.dispatch p image
  { kernel := k
    turn := if k.stateAt p = some .running then some p else none
    ran := Function.update s.ran p true
    handed := s.handedBy k }

/-- The start section of the module of `p` is entered. -/
def load (s : Sched) (p : Proc) : Sched :=
  { s with
    kernel := s.kernel.setState p .running
    turn := some p
    ran := Function.update s.ran p true }

/-- One step: of the loop at its head, of the tenant in its turn, and of `load_tier1` where
the start section of that tenant was suspended. -/
def step (s : Sched) (i : SchedStep) : Option Sched :=
  match s.turn with
  | some p =>
    match s.kernel.stateAt p with
    | some (.blocked _ _) =>
      match i with
      | .ends _ => some (s.back (s.kernel.finish p .faulted))
      | _ => none
    | _ => s.during p i
  | none =>
    match i with
    | .dispatch p image =>
      if s.kernel.stateAt p = some .ready then some (s.enter p image) else none
    | .instantiate p =>
      if s.kernel.stateAt p = some .ready ∧ s.kernel.tier1Pool p = none then some (s.load p)
      else none
    | _ => none

end Sched

/-- The loop, from a process table in which nobody has run yet. Any ready process may be
picked: the loop's own pick is `Kernel.pickNext`, the lowest. -/
def schedMachine : Machine Sched SchedStep where
  init s := s.turn = none ∧ (∀ p, s.ran p = false) ∧ (∀ p, s.kernel.tier1Pool p = none) ∧
    (∀ p, s.kernel.stateAt p ≠ some .running) ∧
      ∀ p reason epIdx, s.kernel.stateAt p ≠ some (.blocked reason epIdx)
  step := Sched.step

/-! ## The seat of a process

All that matters of a process is where it stands in the table and in the pool. What a step does to
the seat of one process is a relation with a handful of cases, and each property is proved of that
relation once. -/

/-- A process is over when it has exited or faulted. -/
def ProcessState.Over : ProcessState → Prop
  | .exited _ | .faulted => True
  | _ => False

theorem Ending.over (ending : Ending) : ending.state.Over := by
  cases ending <;> trivial

/-- Whoever is over is not woken: the wake looks for blocked processes only. -/
theorem ProcessState.Over.woken {s : ProcessState} (h : s.Over) : s.woken = s := by
  cases s with
  | exited | faulted => rfl
  | _ => exact h.elim

/-- Where a process stands in the table and in the pool, with what the observer knows of it. -/
structure Seat where
  /-- its state in the table -/
  state : Option ProcessState
  /-- its instance: whether an invocation is parked, and what it returns when resumed -/
  slot : Option (Bool × ℤ)
  handed : Option ℤ
  ran : Bool
  turn : Bool

namespace Seat

/-- How table and pool may stand. Of the combinations of a state and an instance only these occur;
in particular a process that is over has no instance, and one that is ready and ran before is
parked with a value. -/
inductive Ok : Seat → Prop where
  /-- not entered yet -/
  | new {state : Option ProcessState} {handed : Option ℤ} (hrun : state ≠ some .running)
      (hblocked : ∀ reason epIdx, state ≠ some (.blocked reason epIdx)) :
      Ok ⟨state, none, handed, false, false⟩
  /-- its turn, with its start section under way -/
  | starting {handed : Option ℤ} : Ok ⟨some .running, none, handed, true, true⟩
  /-- its turn, with its start section suspended, and bound to fail -/
  | failing {reason : BlockReason} {epIdx : BitVec 8} {handed : Option ℤ} :
      Ok ⟨some (.blocked reason epIdx), none, handed, true, true⟩
  /-- its turn, with its invocation under way -/
  | running {rc : ℤ} {handed : Option ℤ} :
      Ok ⟨some .running, some (false, rc), handed, true, true⟩
  /-- blocked, with its invocation parked -/
  | blocked {reason : BlockReason} {epIdx : BitVec 8} {rc : ℤ} {handed : Option ℤ} :
      Ok ⟨some (.blocked reason epIdx), some (true, rc), handed, true, false⟩
  /-- woken, with its invocation parked and the result it was handed -/
  | woken {rc : ℤ} : Ok ⟨some .ready, some (true, rc), some rc, true, false⟩
  /-- ended, with its instance dropped -/
  | ended {state : ProcessState} {handed : Option ℤ} (h : state.Over) :
      Ok ⟨some state, none, handed, true, false⟩

/-- What one step does to a seat; `woken` says that the step wakes the process. -/
inductive Step (woken : Prop) : Seat → Seat → Prop where
  | still (a : Seat) : Step woken a a
  /-- handed a result, and woken if it is blocked, which nobody is in its own turn then -/
  | handed (h : woken) (rc : ℤ) {state : Option ProcessState} {slot : Option (Bool × ℤ)}
      {handed : Option ℤ} {ran turn : Bool}
      (hturn : turn = true → ∀ reason epIdx, state ≠ some (.blocked reason epIdx)) :
      Step woken ⟨state, slot, handed, ran, turn⟩
        ⟨state.map ProcessState.woken, slot.map fun x => (x.1, rc), some rc, ran, turn⟩
  /-- registered -/
  | added {handed handed' : Option ℤ} {ran turn : Bool} :
      Step woken ⟨none, none, handed, ran, turn⟩ ⟨some .ready, none, handed', ran, turn⟩
  /-- blocked for something else -/
  | moved {reason reason' : BlockReason} {epIdx : BitVec 8} {slot : Option (Bool × ℤ)}
      {handed : Option ℤ} {ran turn : Bool} :
      Step woken ⟨some (.blocked reason epIdx), slot, handed, ran, turn⟩
        ⟨some (.blocked reason' epIdx), slot, handed, ran, turn⟩
  /-- entered for the first time -/
  | started {handed : Option ℤ} {rc : ℤ} {ran : Bool} :
      Step woken ⟨some .ready, none, handed, ran, false⟩
        ⟨some .running, some (false, rc), handed, true, true⟩
  /-- its start section entered -/
  | loaded {handed : Option ℤ} {ran : Bool} :
      Step woken ⟨some .ready, none, handed, ran, false⟩ ⟨some .running, none, handed, true, true⟩
  /-- its start section over, and `_start` entered -/
  | returned {handed : Option ℤ} {rc : ℤ} {ran : Bool} :
      Step woken ⟨some .running, none, handed, ran, true⟩
        ⟨some .running, some (false, rc), handed, ran, true⟩
  /-- suspended in its start section -/
  | suspended {reason : BlockReason} {epIdx : BitVec 8} {handed : Option ℤ} {ran : Bool} :
      Step woken ⟨some .running, none, handed, ran, true⟩
        ⟨some (.blocked reason epIdx), none, none, ran, true⟩
  /-- resumed where it was parked -/
  | resumed {handed : Option ℤ} {rc : ℤ} {ran : Bool} :
      Step woken ⟨some .ready, some (true, rc), handed, ran, false⟩
        ⟨some .running, some (false, rc), handed, true, true⟩
  /-- its module does not load -/
  | refused {handed handed' : Option ℤ} {ran : Bool} :
      Step woken ⟨some .ready, none, handed, ran, false⟩
        ⟨some .faulted, none, handed', true, false⟩
  /-- blocked, and its invocation parked -/
  | parked {reason : BlockReason} {epIdx : BitVec 8} {handed : Option ℤ} {b : Bool} {rc : ℤ}
      {ran : Bool} :
      Step woken ⟨some .running, some (b, rc), handed, ran, true⟩
        ⟨some (.blocked reason epIdx), some (true, rc), none, ran, false⟩
  /-- ended -/
  | ended {state : ProcessState} {slot : Option (Bool × ℤ)} {handed handed' : Option ℤ} {ran : Bool}
      (h : state.Over) :
      Step woken ⟨some .running, slot, handed, ran, true⟩ ⟨some state, none, handed', ran, false⟩
  /-- ended by the failure of its start section -/
  | failed {reason : BlockReason} {epIdx : BitVec 8} {slot : Option (Bool × ℤ)}
      {handed handed' : Option ℤ} {ran : Bool} :
      Step woken ⟨some (.blocked reason epIdx), slot, handed, ran, true⟩
        ⟨some .faulted, none, handed', ran, false⟩

/-- **What a step keeps**: each kind of step takes a seat that is in order to one that is. -/
theorem Step.ok {woken : Prop} {a b : Seat} (h : Step woken a b) (ha : a.Ok) : b.Ok := by
  cases h with
  | still => exact ha
  | @handed _ rc st _ _ _ _ hturn =>
    cases ha with
    | new hrun hblocked =>
      -- whoever has not been entered is not blocked, so nobody is woken here
      have hsame : st.map ProcessState.woken = st := by
        cases st with
        | none => rfl
        | some s =>
          cases s with
          | blocked reason epIdx => exact (hblocked reason epIdx rfl).elim
          | _ => rfl
      rw [hsame]
      exact .new hrun hblocked
    | starting => exact .starting
    | failing => exact (hturn rfl _ _ rfl).elim
    | running => exact .running
    | blocked => exact .woken
    | woken => exact .woken
    | ended hover =>
      rw [Option.map_some, hover.woken]
      exact .ended hover
  | added =>
    cases ha with
    | new => exact .new (by simp) (by simp)
  | moved =>
    cases ha with
    | new _ hblocked => exact (hblocked _ _ rfl).elim
    | failing => exact .failing
    | blocked => exact .blocked
    | ended hover => exact hover.elim
  | started => exact .running
  | loaded => exact .starting
  | returned =>
    cases ha with
    | starting => exact .running
  | suspended =>
    cases ha with
    | starting => exact .failing
  | resumed => exact .running
  | refused => exact .ended trivial
  | parked =>
    cases ha with
    | running => exact .blocked
  | ended hover =>
    cases ha with
    | starting | running => exact .ended hover
  | failed =>
    cases ha with
    | failing => exact .ended trivial

/-- Whoever is over stays so, whatever the others do. -/
theorem Step.over {woken : Prop} {a b : Seat} {s : ProcessState} (h : Step woken a b)
    (ha : a.state = some s) (hs : s.Over) : b.state = some s := by
  cases h with
  | still => exact ha
  | handed =>
    obtain rfl := ha
    exact congrArg some hs.woken
  | added => cases ha
  | moved | started | loaded | returned | suspended | resumed | refused | parked | ended |
    failed =>
    obtain rfl := Option.some.inj ha
    exact hs.elim

/-- Whoever is blocked stays so, or is woken and has been handed its result, or has the turn
and loses it. -/
theorem Step.blocked {woken : Prop} {a b : Seat} {reason : BlockReason} {epIdx : BitVec 8}
    (h : Step woken a b) (ha : a.state = some (.blocked reason epIdx)) :
    (∃ reason' epIdx', b.state = some (.blocked reason' epIdx')) ∨
      (woken ∧ b.state = some .ready ∧ ∃ rc, b.handed = some rc) ∨
      a.turn = true ∧ b.state = some .faulted := by
  cases h with
  | still => exact .inl ⟨_, _, ha⟩
  | handed hwoken rc =>
    obtain rfl := ha
    exact .inr (.inl ⟨hwoken, rfl, rc, rfl⟩)
  | moved => exact .inl ⟨_, _, rfl⟩
  | failed => exact .inr (.inr ⟨rfl, rfl⟩)
  | added | started | loaded | returned | suspended | resumed | refused | parked | ended => cases ha

/-- Where there is no process there is no instance. -/
theorem Ok.slot_eq_none {a : Seat} (h : a.Ok) (ha : a.state = none) : a.slot = none := by
  cases h with
  | new => rfl
  | _ => cases ha

/-- Whoever's turn it is runs, its invocation under way if it has one, or is blocked and
has none. -/
theorem Ok.of_turn {a : Seat} (h : a.Ok) (ha : a.turn = true) :
    (a.state = some .running ∧ (a.slot = none ∨ ∃ rc, a.slot = some (false, rc))) ∨
      (∃ reason epIdx, a.state = some (.blocked reason epIdx)) ∧ a.slot = none := by
  cases h with
  | starting => exact .inl ⟨rfl, .inl rfl⟩
  | running => exact .inl ⟨rfl, .inr ⟨_, rfl⟩⟩
  | failing => exact .inr ⟨⟨_, _, rfl⟩, rfl⟩
  | _ => cases ha

/-- Whoever runs has the turn, and no other does. -/
theorem Ok.of_running {a : Seat} (h : a.Ok) (ha : a.state = some .running) : a.turn = true := by
  cases h with
  | new hrun _ => exact (hrun ha).elim
  | starting | running => rfl
  | failing | blocked | woken => cases ha
  | ended hover =>
    obtain rfl := Option.some.inj ha
    exact hover.elim

/-- Whoever is ready has not been entered, or is parked with the result it was handed. -/
theorem Ok.of_ready {a : Seat} (h : a.Ok) (ha : a.state = some .ready) :
    a.slot = none ∧ a.ran = false ∨ ∃ rc, a.slot = some (true, rc) ∧ a.handed = some rc := by
  cases h with
  | new => exact .inl ⟨rfl, rfl⟩
  | woken => exact .inr ⟨_, rfl, rfl⟩
  | starting | failing | running | blocked => cases ha
  | ended hover =>
    obtain rfl := Option.some.inj ha
    exact hover.elim

/-- Whoever is over has no instance, as it was dropped at the end of the last turn. -/
theorem Ok.of_over {a : Seat} {s : ProcessState} (h : a.Ok) (ha : a.state = some s)
    (hs : s.Over) : a.slot = none := by
  cases h with
  | new | ended => rfl
  | starting | failing => rfl
  | running | blocked | woken =>
    obtain rfl := Option.some.inj ha
    exact hs.elim

end Seat

/-! ## One step

Each step of the loop, told seat by seat. Most seats stay as they are. -/

namespace Sched

/-- Where `q` stands: its state and its instance, what it was handed, whether it ran, and whether
it has the turn. -/
def seat (s : Sched) (q : Proc) : Seat where
  state := s.kernel.stateAt q
  slot := (s.kernel.tier1Pool q).map fun slot => (slot.parked, slot.pendingResume)
  handed := s.handed q
  ran := s.ran q
  turn := decide (s.turn = some q)

/-- The step from `s` to `t` wakes `q`: it is woken as a peer, or let go by the audit
stream. -/
def Wakes (s : Sched) (i : SchedStep) (t : Sched) (q : Proc) : Prop :=
  (∃ msg rc, i = .wakes q msg rc) ∨ s.kernel.LetGo t.kernel q

variable {s t : Sched} {i : SchedStep} {p q : Proc}

/-- In the turn of `p`, steps are those of the turn. -/
theorem step_of_turn (h : s.turn = some p) (hp : s.kernel.Unblocked p) (i : SchedStep) :
    schedMachine.step s i = s.during p i := by
  change s.step i = _
  simp only [step, h]
  split
  · rename_i reason epIdx hb
    exact (hp reason epIdx hb).elim
  · rfl

/-- **What a step is**: one of the loop, the failure of a start section that was suspended,
or one in a tenant's turn. -/
theorem step_cases (h : s.step i = some t) :
    (s.turn = none ∧
      ((∃ p image, i = .dispatch p image ∧ s.kernel.stateAt p = some .ready ∧
          t = s.enter p image) ∨
        ∃ p, i = .instantiate p ∧ s.kernel.stateAt p = some .ready ∧
          s.kernel.tier1Pool p = none ∧ t = s.load p)) ∨
      ∃ p, s.turn = some p ∧
        ((∃ reason epIdx ending, s.kernel.stateAt p = some (.blocked reason epIdx) ∧
            i = .ends ending ∧ t = s.back (s.kernel.finish p .faulted)) ∨
          s.kernel.Unblocked p ∧ s.during p i = some t) := by
  rcases hturn : s.turn with _ | p
  · left
    simp only [step, hturn] at h
    split at h
    · split at h
      · rename_i p image hready
        exact ⟨rfl, .inl ⟨p, image, rfl, hready, (Option.some.inj h).symm⟩⟩
      · cases h
    · split at h
      · rename_i p hready
        exact ⟨rfl, .inr ⟨p, rfl, hready.1, hready.2, (Option.some.inj h).symm⟩⟩
      · cases h
    · cases h
  · right
    refine ⟨p, rfl, ?_⟩
    simp only [step, hturn] at h
    split at h
    · rename_i reason epIdx hblocked
      split at h
      · rename_i ending
        exact .inl ⟨reason, epIdx, ending, hblocked, rfl, (Option.some.inj h).symm⟩
      · cases h
    · rename_i hnot
      exact .inr ⟨hnot, h⟩

/-- Where the audit stream lets nobody go, nobody is handed anything by it. -/
theorem handedBy_of_ring {k : Kernel} (h : k.ringWaiterList = s.kernel.ringWaiterList) (q : Proc) :
    s.handedBy k q = s.handed q :=
  if_neg fun hgo => hgo.2 (h ▸ hgo.1)

/-- A step that stirs `q` at most is a step of its seat, or none. -/
theorem step_of_stirred (h : s.kernel.Stirred t.kernel q) (hok : (s.seat q).Ok)
    (hhanded : t.handed q = s.handedBy t.kernel q) (hran : t.ran q = s.ran q)
    (hturn : t.turn = some q ↔ s.turn = some q)
    (hfree : s.turn = some q → s.kernel.Unblocked q) :
    Seat.Step (s.Wakes i t q) (s.seat q) (t.seat q) := by
  have hdec : decide (t.turn = some q) = decide (s.turn = some q) := decide_eq_decide.mpr hturn
  have hpool := h.pool
  rcases h.process with hproc | ⟨hfree, proc, hproc, hready⟩
  · by_cases hgo : s.kernel.LetGo t.kernel q
    · rw [if_pos hgo] at hproc hpool
      have hseat : t.seat q = ⟨(s.seat q).state.map ProcessState.woken,
          (s.seat q).slot.map fun x => (x.1, 1), some 1, (s.seat q).ran, (s.seat q).turn⟩ := by
        simp only [seat, Seat.mk.injEq]
        refine ⟨?_, ?_, ?_, hran, hdec⟩
        · rw [Kernel.stateAt, hproc, Kernel.stateAt, Option.map_map, Option.map_map]
          exact congrArg (fun f => (s.kernel.processes q).map f) (funext Process.state_wake)
        · rw [hpool, Option.map_map, Option.map_map]
          rfl
        · rw [hhanded, handedBy, if_pos hgo]
      rw [hseat]
      exact .handed (.inr hgo) 1 fun h => hfree (of_decide_eq_true h)
    · rw [if_neg hgo] at hproc hpool
      have hseat : t.seat q = s.seat q := by
        simp only [seat, Seat.mk.injEq]
        refine ⟨Kernel.stateAt_congr hproc, by rw [hpool], ?_, hran, hdec⟩
        rw [hhanded, handedBy, if_neg hgo]
      rw [hseat]
      exact .still _
  · -- a new process: there was no instance, and there is none
    have hstate : s.kernel.stateAt q = none := Option.map_eq_none_iff.mpr hfree
    have hnone : s.kernel.tier1Pool q = none := Option.map_eq_none_iff.mp (hok.slot_eq_none hstate)
    have hgone : t.kernel.tier1Pool q = none := h.pool_eq_none hnone
    have hnew : t.kernel.stateAt q = some .ready := by
      rw [Kernel.stateAt, hproc, ← hready]
      rfl
    rw [seat, seat, hstate, hnone, hgone, hnew, hran, hdec]
    exact .added

/-- A host function that writes something else leaves every seat as it is. -/
theorem seat_write (w : HostWrite) :
    seat { s with kernel := s.kernel.write p w } q = s.seat q := by
  cases w with
  | caps | modreg | events => rfl
  | msgRegs r regs =>
    simp only [seat, Kernel.write, Kernel.stateAt_setMsgRegs, Kernel.tier1Pool_setMsgRegs]
  | msgBuf msgPtr =>
    have hstate := s.kernel.stateAt_modifyProcess_eq p
      (f := fun proc => { proc with msgBuf := msgPtr }) fun _ => rfl
    simp only [seat, Kernel.write, hstate, Kernel.tier1Pool_modifyProcess]
  | memory memory =>
    simp only [seat, Kernel.write]
    rcases hslot : s.kernel.tier1Pool p with _ | slot
    · rfl
    · by_cases hq : q = p
      · subst hq
        simp [hslot]
      · simp [hq]

/-- A caller whose message is taken stays blocked. -/
theorem step_take (r : Proc) :
    Seat.Step (s.Wakes i { s with kernel := s.kernel.take r } q) (s.seat q)
      (seat { s with kernel := s.kernel.take r } q) := by
  rw [Kernel.take]
  split
  · rename_i epIdx hblocked
    by_cases hq : q = r
    · subst hq
      have hstate := s.kernel.stateAt_modifyProcess q q
        (f := fun proc => proc.block .replyWait epIdx)
        (g := fun _ => .blocked .replyWait epIdx) fun _ => rfl
      rw [if_pos rfl, hblocked] at hstate
      simp only [seat, hblocked, hstate, Kernel.tier1Pool_modifyProcess]
      exact .moved
    · have hstate := s.kernel.stateAt_modifyProcess r q
        (f := fun proc => proc.block .replyWait epIdx)
        (g := fun _ => .blocked .replyWait epIdx) fun _ => rfl
      rw [if_neg hq] at hstate
      simp only [seat, hstate, Kernel.tier1Pool_modifyProcess]
      exact .still _
  · exact .still _

/-- A peer is handed its result, and woken if it is blocked. -/
theorem step_wake {woken : Prop} (peer : Proc) (hwoken : q = peer → woken) (msg : Option MsgRegs)
    (rc : ℤ) (hfree : s.turn = some q → s.kernel.Unblocked q) : Seat.Step woken (s.seat q)
      (seat { s with
        kernel := s.kernel.deliverAndWake peer msg rc
        handed := Function.update s.handed peer (some rc) } q) := by
  by_cases hq : q = peer
  · subst hq
    simp only [seat, Kernel.stateAt_deliverAndWake, if_true, Kernel.tier1Pool_deliverAndWake,
      Option.map_map, Function.update_self]
    have hslot : (s.kernel.tier1Pool q).map
          ((fun slot : Tier1Slot => (slot.parked, slot.pendingResume)) ∘
            fun slot => { slot with pendingResume := rc }) =
        ((s.kernel.tier1Pool q).map fun slot => (slot.parked, slot.pendingResume)).map
          fun x => (x.1, rc) := by
      rw [Option.map_map]
      rfl
    rw [hslot]
    exact .handed (hwoken rfl) rc fun h => hfree (of_decide_eq_true h)
  · simp only [seat, Kernel.stateAt_deliverAndWake, if_neg hq, Kernel.tier1Pool_deliverAndWake,
      Function.update_of_ne hq]
    exact .still _

/-- The turn ends with the tenant, which is over, and the others are stirred at most. -/
theorem step_back (hok : ∀ q, (s.seat q).Ok) (hp : s.turn = some p) {k : Kernel} {ending : Ending}
    (hending : s.kernel.Unblocked p ∨ ending = .faulted) (h : s.kernel.Dropped k p ending)
    (q : Proc) : Seat.Step (s.Wakes i (s.back k) q) (s.seat q) ((s.back k).seat q) := by
  by_cases hq : q = p
  · subst hq
    rcases (hok q).of_turn (decide_eq_true hp) with ⟨hrun, -⟩ | ⟨⟨reason, epIdx, hblocked⟩, -⟩
    · change s.kernel.stateAt q = _ at hrun
      simp only [seat, back, hrun, h.state, h.instance_gone, Option.map_none, hp]
      exact .ended ending.over
    · change s.kernel.stateAt q = _ at hblocked
      obtain rfl : ending = .faulted :=
        hending.resolve_left fun hfree => hfree reason epIdx hblocked
      simp only [seat, back, hblocked, h.state, h.instance_gone, Option.map_none, hp]
      exact .failed
  · refine step_of_stirred (h.others q hq) (hok q) rfl rfl ?_ fun hturn => ?_
    · rw [hp]
      constructor
      · intro h
        cases h
      · intro h
        exact (hq (Option.some.inj h).symm).elim
    · exact (hq (Option.some.inj (hp.symm.trans hturn)).symm).elim

/-- Whoever has the turn and is not blocked runs; its invocation, if it has one, is under
way. -/
theorem running_of_turn (hok : ∀ q, (s.seat q).Ok) (hp : s.turn = some p)
    (hfree : s.kernel.Unblocked p) : s.kernel.stateAt p = some .running ∧
      ∀ slot, s.kernel.tier1Pool p = some slot → slot.parked = false := by
  rcases (hok p).of_turn (decide_eq_true hp) with ⟨hrun, hslot⟩ | ⟨⟨reason, epIdx, hblocked⟩, -⟩
  · refine ⟨hrun, fun slot hsome => ?_⟩
    rcases hslot with hnone | ⟨rc, hslot⟩
    · cases hsome.symm.trans (Option.map_eq_none_iff.mp hnone)
    · obtain ⟨slot', hslot', heq⟩ := Option.map_eq_some_iff.mp hslot
      obtain rfl : slot = slot' := Option.some.inj (hsome.symm.trans hslot')
      exact (Prod.mk.inj heq).1
  · exact (hfree reason epIdx hblocked).elim

theorem stateAt_block {k : Kernel} (hrun : k.stateAt p = some .running) (reason : BlockReason)
    (epIdx : BitVec 8) (r : Proc) : (k.block p reason epIdx).stateAt r =
      if r = p then some (.blocked reason epIdx) else k.stateAt r := by
  rw [Kernel.block, k.stateAt_modifyProcess p r (g := fun _ => .blocked reason epIdx) fun _ => rfl,
    hrun]
  rfl

/-- The tenant blocks, and its invocation is parked. -/
theorem step_blocks (hp : s.turn = some p) (hrun : s.kernel.stateAt p = some .running)
    {slot : Tier1Slot} (hslot : s.kernel.tier1Pool p = some slot) (reason : BlockReason)
    (epIdx : BitVec 8) (q : Proc) :
    Seat.Step (s.Wakes i t q) (s.seat q)
      (seat { s with
        kernel := (s.kernel.block p reason epIdx).settleBlocked p
        turn := none
        handed := Function.update s.handed p none } q) := by
  have hstate := stateAt_block hrun reason epIdx
  have hpool : (s.kernel.block p reason epIdx).tier1Pool = s.kernel.tier1Pool := rfl
  rw [Kernel.settleBlocked_of_blocked ((hstate p).trans (if_pos rfl)) hslot]
  simp only [seat, Kernel.stateAt_setInstance, hstate, Kernel.tier1Pool_setInstance, hpool]
  by_cases hq : q = p
  · subst hq
    simp only [hrun, hslot, if_true, Option.map_some, Function.update_self, hp]
    exact .parked
  · have hturn : decide (s.turn = some q) = false := by
      rw [hp]
      exact decide_eq_false fun h => hq (Option.some.inj h).symm
    simp only [if_neg hq, Function.update_of_ne hq, hturn]
    exact .still _

/-- The tenant blocks in its start section, and keeps the turn. -/
theorem step_suspended (hp : s.turn = some p) (hrun : s.kernel.stateAt p = some .running)
    (hslot : s.kernel.tier1Pool p = none) (reason : BlockReason) (epIdx : BitVec 8) (q : Proc) :
    Seat.Step (s.Wakes i t q) (s.seat q)
      (seat { s with
        kernel := s.kernel.block p reason epIdx
        handed := Function.update s.handed p none } q) := by
  have hpool : (s.kernel.block p reason epIdx).tier1Pool = s.kernel.tier1Pool := rfl
  simp only [seat, stateAt_block hrun reason epIdx, hpool]
  by_cases hq : q = p
  · subst hq
    simp only [hrun, hslot, if_true, Option.map_none, Function.update_self, hp]
    exact .suspended
  · simp only [if_neg hq, Function.update_of_ne hq]
    exact .still _

/-- The start section of the tenant returns, and its instance goes into the pool. -/
theorem step_started (hp : s.turn = some p) (hrun : s.kernel.stateAt p = some .running)
    (hslot : s.kernel.tier1Pool p = none) (memory : Option (List (BitVec 8))) (q : Proc) :
    Seat.Step (s.Wakes i t q) (s.seat q)
      (seat { s with kernel := s.kernel.setInstance p ⟨memory, false, 0⟩ } q) := by
  simp only [seat, Kernel.stateAt_setInstance, Kernel.tier1Pool_setInstance]
  by_cases hq : q = p
  · subst hq
    simp only [hrun, hslot, if_true, Option.map_none, Option.map_some, hp]
    exact .returned
  · simp only [if_neg hq]
    exact .still _

/-- The start section of a ready tenant is entered. -/
theorem step_load (hok : ∀ q, (s.seat q).Ok) (hturn : s.turn = none)
    (hready : s.kernel.stateAt p = some .ready) (hslot : s.kernel.tier1Pool p = none) (q : Proc) :
    Seat.Step (s.Wakes i (s.load p) q) (s.seat q) ((s.load p).seat q) := by
  by_cases hq : q = p
  · subst hq
    have hrun : (s.kernel.setState q .running).stateAt q = some .running := by
      rw [Kernel.stateAt_setState, if_pos rfl, hready]
      rfl
    have hnone : (s.kernel.setState q .running).tier1Pool q = none := hslot
    simp only [seat, load, hready, hrun, hslot, hnone, hturn, Option.map_none,
      Function.update_self]
    exact .loaded
  · refine step_of_stirred (Kernel.setState_stirred _ hq _) (hok q) ?_
      (Function.update_of_ne hq _ _) ?_ fun h => ?_
    · exact (handedBy_of_ring rfl q).symm
    · rw [hturn]
      exact iff_of_false (fun h => hq (Option.some.inj h).symm) (fun h => by cases h)
    · cases hturn.symm.trans h

/-- A ready tenant is entered: for the first time, or where it was parked. -/
theorem step_entered {image : Option (Option (List (BitVec 8)))} (hok : ∀ q, (s.seat q).Ok)
    (hturn : s.turn = none) (hready : s.kernel.stateAt p = some .ready)
    (h : s.kernel.Entered (s.kernel.dispatch p image) p) (q : Proc) :
    Seat.Step (s.Wakes i (s.enter p image) q) (s.seat q) ((s.enter p image).seat q) := by
  by_cases hq : q = p
  · subst hq
    obtain ⟨slot', hslot', hunder, hkept⟩ := h.live
    have hstay : s.handedBy (s.kernel.dispatch q image) q = s.handed q :=
      handedBy_of_ring h.seat.ringWaiterList_eq q
    simp only [seat, enter, hready, h.state, hslot', hunder, hturn, hstay, if_true,
      Option.map_some, Function.update_self]
    rcases (hok q).of_ready hready with ⟨hnone, -⟩ | ⟨rc, hsome, -⟩
    · rw [Option.map_eq_none_iff.mp hnone]
      exact .started
    · obtain ⟨slot, hslot, heq⟩ := Option.map_eq_some_iff.mp hsome
      obtain ⟨hpark, hresume⟩ := hkept slot hslot
      rw [hslot, Option.map_some, hpark, hresume]
      exact .resumed
  · refine step_of_stirred (h.seat.stirred hq) (hok q) rfl (Function.update_of_ne hq _ _) ?_
      fun h => ?_
    · have hturn' : (s.enter p image).turn = some p := if_pos h.state
      rw [hturn, hturn']
      refine iff_of_false ?_ (by simp)
      exact fun h => hq (Option.some.inj h).symm
    · cases hturn.symm.trans h

/-- A ready tenant cannot be entered. It has no parked invocation then. -/
theorem step_refused {image : Option (Option (List (BitVec 8)))} (hok : ∀ q, (s.seat q).Ok)
    (hturn : s.turn = none) (hready : s.kernel.stateAt p = some .ready)
    (h : s.kernel.Ended (s.kernel.dispatch p image) p .faulted)
    (hparked : ∀ slot, s.kernel.tier1Pool p = some slot → slot.parked = false) (q : Proc) :
    Seat.Step (s.Wakes i (s.enter p image) q) (s.seat q) ((s.enter p image).seat q) := by
  have hturn' : (s.enter p image).turn = none := by
    simp only [enter, h.state]
    rfl
  by_cases hq : q = p
  · subst hq
    have hnone : s.kernel.tier1Pool q = none := by
      rcases (hok q).of_ready hready with ⟨hnone, -⟩ | ⟨rc, hsome, -⟩
      · exact Option.map_eq_none_iff.mp hnone
      · obtain ⟨slot, hslot, heq⟩ := Option.map_eq_some_iff.mp hsome
        have hfalse := hparked slot hslot
        rw [(Prod.mk.inj heq).1] at hfalse
        cases hfalse
    have hran : (s.enter q image).ran q = true := Function.update_self _ _ _
    have hstate : (s.enter q image).kernel.stateAt q = some .faulted := h.state
    have hgone : (s.enter q image).kernel.tier1Pool q = none := h.instance_gone
    rw [seat, seat, hready, hnone, hstate, hgone, hran, hturn', hturn]
    exact .refused
  · refine step_of_stirred (h.others q hq) (hok q) rfl (Function.update_of_ne hq _ _) ?_
      fun h => ?_
    · rw [hturn, hturn']
    · cases hturn.symm.trans h

/-- **What a step in a tenant's turn does to each seat**: its own moves on, and every other is
stirred at most. -/
theorem step_during (hok : ∀ q, (s.seat q).Ok) (hp : s.turn = some p)
    (hfree : s.kernel.Unblocked p) (h : s.during p i = some t) (q : Proc) :
    Seat.Step (s.Wakes i t q) (s.seat q) (t.seat q) := by
  obtain ⟨hrun, -⟩ := running_of_turn hok hp hfree
  have hfree' : s.turn = some q → s.kernel.Unblocked q := by
    intro hq
    obtain rfl : p = q := Option.some.inj (hp.symm.trans hq)
    exact hfree
  cases i with
  | dispatch | instantiate => cases h
  | started memory =>
    simp only [during] at h
    split at h
    · cases h
    · rename_i hlive
      obtain rfl := Option.some.inj h
      exact step_started hp hrun (Option.not_isSome_iff_eq_none.mp hlive) memory q
  | wakes peer msg rc =>
    obtain rfl := Option.some.inj h
    exact step_wake peer (fun hq => .inl ⟨msg, rc, by rw [hq]⟩) msg rc hfree'
  | emits kind a b =>
    obtain rfl := Option.some.inj h
    exact step_of_stirred (Kernel.emit_stirred _ _ _ _ q) (hok q) rfl rfl Iff.rfl hfree'
  | registers procId tier moduleId =>
    simp only [during] at h
    split at h
    · obtain rfl := Option.some.inj h
      exact .still _
    · rename_i k hreg
      obtain rfl := Option.some.inj h
      have hring : k.ringWaiterList = s.kernel.ringWaiterList := by
        obtain ⟨r, -, -, rfl⟩ := Kernel.register_ok hreg
        rfl
      exact step_of_stirred (Kernel.registerTenant_stirred hreg q) (hok q)
        (handedBy_of_ring hring q).symm rfl Iff.rfl hfree'
  | takes r =>
    obtain rfl := Option.some.inj h
    exact step_take r
  | writes w =>
    obtain rfl := Option.some.inj h
    rw [seat_write w]
    exact .still _
  | blocks reason epIdx =>
    simp only [during] at h
    split at h
    · rename_i hlive
      obtain rfl := Option.some.inj h
      obtain ⟨slot, hslot⟩ := Option.isSome_iff_exists.mp hlive
      exact step_blocks hp hrun hslot reason epIdx q
    · rename_i hlive
      obtain rfl := Option.some.inj h
      exact step_suspended hp hrun (Option.not_isSome_iff_eq_none.mp hlive) reason epIdx q
  | yields =>
    obtain rfl := Option.some.inj h
    rcases hslot : s.kernel.tier1Pool p with _ | slot
    · -- in a start section to yield is an error as any other
      have hsettle : s.kernel.settleBlocked p = s.kernel.finish p .faulted := by
        rw [Kernel.settleBlocked, hslot]
      rw [hsettle]
      exact step_back hok hp (.inl hfree) (Kernel.finish_ended hrun .faulted).toDropped q
    · exact step_back hok hp (.inl hfree) (Kernel.settleBlocked_of_running hrun hslot) q
  | ends ending =>
    obtain rfl := Option.some.inj h
    exact step_back hok hp (.inl hfree) (Kernel.finish_ended hrun _).toDropped q

/-- **What a step does to each seat.** It is from this alone that the invariant follows; the
kernel is not looked at again. -/
theorem step_seat (hok : ∀ q, (s.seat q).Ok) (h : s.step i = some t) (q : Proc) :
    Seat.Step (s.Wakes i t q) (s.seat q) (t.seat q) := by
  rcases step_cases h with
    ⟨hturn, ⟨p, image, rfl, hready, rfl⟩ | ⟨p, rfl, hready, hslot, rfl⟩⟩ |
    ⟨p, hp, ⟨reason, epIdx, ending, hblocked, rfl, rfl⟩ | ⟨hfree, hduring⟩⟩
  · rcases Kernel.dispatch_effect hready image with hentered | ⟨hended, hparked⟩
    · exact step_entered hok hturn hready hentered q
    · exact step_refused hok hturn hready hended hparked q
  · exact step_load hok hturn hready hslot q
  · exact step_back hok hp (.inr rfl) (Kernel.finish_ended hblocked .faulted).toDropped q
  · exact step_during hok hp hfree hduring q

/-! ## Runs

The promises of a state and of a step, and when a step keeps to them. -/

/-- Table and pool are in step: one process runs at most, whoever is over has no instance, and
whoever is ready and ran before is parked, with the value it was handed. -/
structure Orderly (s : Sched) : Prop where
  /-- one process runs at most -/
  one_running : ∀ p q, s.kernel.stateAt p = some .running → s.kernel.stateAt q = some .running →
    p = q
  /-- whoever exited or faulted has no instance -/
  released : ∀ p state, s.kernel.stateAt p = some state → state.Over → s.kernel.tier1Pool p = none
  /-- whoever is ready and ran before has an invocation to resume, with the result it was
  handed since it yielded -/
  resumable : ∀ p, s.kernel.stateAt p = some .ready → s.ran p = true →
    ∃ slot, s.kernel.tier1Pool p = some slot ∧ slot.parked = true ∧
      s.handed p = some slot.pendingResume

/-- The step does to nobody what it may not: it moves nobody out of `Exited` or `Faulted`, out of
`Blocked` only by waking him, and enters whoever ran before with the value he was handed. -/
structure Lawful (s : Sched) (i : SchedStep) (t : Sched) : Prop where
  /-- whoever exited or faulted stays so -/
  absorbing : ∀ p state, s.kernel.stateAt p = some state → state.Over →
    t.kernel.stateAt p = some state
  /-- whoever is blocked stays so, unless it is woken, and then it was handed its result and is
  ready, or over if the same step ends its own turn -/
  woken : ∀ p reason epIdx, s.kernel.stateAt p = some (.blocked reason epIdx) →
    (∃ reason' epIdx', t.kernel.stateAt p = some (.blocked reason' epIdx')) ∨
      s.Wakes i t p ∧ (∃ rc, t.handed p = some rc) ∧
        (t.kernel.stateAt p = some .ready ∨ s.turn = some p)
  /-- whoever is picked and ran before is resumed, with the result it was handed -/
  resumed : ∀ p, (∃ image, i = .dispatch p image) ∨ i = .instantiate p → s.ran p = true →
    t.kernel.stateAt p = some .running ∧
      ∃ slot, t.kernel.tier1Pool p = some slot ∧ s.handed p = some slot.pendingResume

/-- The step ends no start section whose process is blocked, unless that waits for a record:
its own end is one, and wakes it. -/
def Wakeful (s : Sched) (i : SchedStep) : Prop :=
  ∀ p reason epIdx ending, s.turn = some p → s.kernel.stateAt p = some (.blocked reason epIdx) →
    i = .ends ending → p ∈ s.kernel.ringWaiterList

/-- What the seats say of the state as a whole. -/
theorem orderly_of_ok (hok : ∀ q, (s.seat q).Ok) : s.Orderly := by
  refine ⟨fun p q hp hq => ?_, fun p state hp hover => ?_, fun p hp hran => ?_⟩
  · have hturn := of_decide_eq_true ((hok p).of_running hp)
    have hturn' := of_decide_eq_true ((hok q).of_running hq)
    exact Option.some.inj (hturn.symm.trans hturn')
  · exact Option.map_eq_none_iff.mp ((hok p).of_over hp hover)
  · rcases (hok p).of_ready hp with ⟨-, hnever⟩ | ⟨rc, hslot, hhanded⟩
    · change s.ran p = false at hnever
      rw [hran] at hnever
      cases hnever
    · obtain ⟨slot, hslot, heq⟩ := Option.map_eq_some_iff.mp hslot
      obtain ⟨hparked, hresume⟩ := Prod.mk.inj heq
      exact ⟨slot, hslot, hparked, hresume ▸ hhanded⟩

/-- A start section that suspended its process has failed: the next step ends the process, and
leaves it in the queue. -/
theorem step_of_blocked {reason : BlockReason} {epIdx : BitVec 8} (hp : s.turn = some p)
    (hblocked : s.kernel.stateAt p = some (.blocked reason epIdx)) (h : s.step i = some t) :
    (∃ ending, i = .ends ending) ∧ t = s.back (s.kernel.finish p .faulted) := by
  rcases step_cases h with ⟨hturn, -⟩ | ⟨q, hq, hcase⟩
  · cases hturn.symm.trans hp
  · obtain rfl : p = q := Option.some.inj (hp.symm.trans hq)
    rcases hcase with ⟨-, -, ending, -, rfl, rfl⟩ | ⟨hfree, -⟩
    · exact ⟨⟨ending, rfl⟩, rfl⟩
    · exact (hfree reason epIdx hblocked).elim

/-- Whoever is picked and ran before is resumed. -/
theorem resumed_of_ok (hok : ∀ q, (s.seat q).Ok) (h : s.step i = some t)
    (hi : (∃ image, i = .dispatch p image) ∨ i = .instantiate p) (hran : s.ran p = true) :
    t.kernel.stateAt p = some .running ∧
      ∃ slot, t.kernel.tier1Pool p = some slot ∧ s.handed p = some slot.pendingResume := by
  have hresumable := (orderly_of_ok hok).resumable p
  rcases step_cases h with
    ⟨hturn, ⟨q, image, rfl, hready, rfl⟩ | ⟨q, rfl, hready, hnone, rfl⟩⟩ |
    ⟨q, hq, ⟨reason, epIdx, ending, hblocked, rfl, rfl⟩ | ⟨hfree, hduring⟩⟩
  · obtain rfl : q = p := by
      rcases hi with ⟨image', hi⟩ | hi <;> cases hi
      rfl
    obtain ⟨slot, hslot, hparked, hhanded⟩ := hresumable hready hran
    rcases Kernel.dispatch_effect hready image with hentered | ⟨-, hnot⟩
    · obtain ⟨slot', hslot', -, hkept⟩ := hentered.live
      exact ⟨hentered.state, slot', hslot', (hkept slot hslot).2 ▸ hhanded⟩
    · rw [hnot slot hslot] at hparked
      cases hparked
  · obtain rfl : q = p := by
      rcases hi with ⟨image', hi⟩ | hi <;> cases hi
      rfl
    obtain ⟨slot, hslot, -⟩ := hresumable hready hran
    cases hslot.symm.trans hnone
  · rcases hi with ⟨image', hi⟩ | hi <;> cases hi
  · rcases hi with ⟨image', rfl⟩ | rfl <;> cases hduring

/-- **A step is lawful** exactly where it fails no suspended start section, but one that
waits for a record. -/
theorem lawful_iff (hok : ∀ q, (s.seat q).Ok) (h : s.step i = some t) :
    s.Lawful i t ↔ s.Wakeful i := by
  have hseat := step_seat hok h
  constructor
  · rintro hlawful p reason epIdx ending hp hblocked rfl
    obtain ⟨-, rfl⟩ := step_of_blocked hp hblocked h
    have hended := Kernel.finish_ended hblocked .faulted
    rcases hlawful.woken p reason epIdx hblocked with ⟨_, _, hstill⟩ | ⟨hwakes, -⟩
    · cases hended.state.symm.trans hstill
    · rcases hwakes with ⟨_, _, hi⟩ | hgo
      · cases hi
      · exact hgo.1
  · intro hwakeful
    refine ⟨fun p state hp hover => (hseat p).over hp hover, fun p reason epIdx hp => ?_,
      fun p hi hran => resumed_of_ok hok h hi hran⟩
    rcases (hseat p).blocked hp with hstill | ⟨hwoken, hready, hhanded⟩ | ⟨hturn, -⟩
    · exact .inl hstill
    · exact .inr ⟨hwoken, hhanded, .inl hready⟩
    · -- the start section of `p` fails, and its record wakes `p` first
      have hp' : s.turn = some p := of_decide_eq_true hturn
      obtain ⟨⟨ending, rfl⟩, rfl⟩ := step_of_blocked hp' hp h
      have hended := Kernel.finish_ended hp .faulted
      have hgo : s.kernel.LetGo (s.kernel.finish p .faulted) p := by
        refine ⟨hwakeful p reason epIdx ending hp' hp rfl, ?_⟩
        rw [hended.ring]
        exact List.not_mem_nil
      exact .inr ⟨.inr hgo, ⟨1, if_pos hgo⟩, .inr hp'⟩

theorem ok_init (h : schedMachine.init s) (q : Proc) : (s.seat q).Ok := by
  obtain ⟨hturn, hran, hpool, hrun, hblocked⟩ := h
  rw [seat, hpool, hran, hturn]
  exact .new (hrun q) (hblocked q)

theorem ok_step (hok : ∀ q, (s.seat q).Ok) (h : s.step i = some t) (q : Proc) : (t.seat q).Ok :=
  (step_seat hok h q).ok (hok q)

end Sched

/-- The loop is at its head after boot. -/
theorem sched_booted (board : Board) :
    schedMachine.init ⟨Kernel.booted board, none, fun _ => false, fun _ => none⟩ :=
  ⟨rfl, fun _ => rfl, fun _ => rfl, (Kernel.booted_idle board).not_running,
    (Kernel.booted_idle board).not_blocked⟩

/-- **Process table and instance pool stay in step** in every state a run reaches. Its steps
are all lawful exactly where none of them fails a suspended start section, but one that waits
for a record. -/
theorem schedule_lawful_iff {s : Sched} (hinit : schedMachine.init s) (steps : List SchedStep) :
    (∀ t, schedMachine.Run s steps t → t.Orderly) ∧
      (schedMachine.Along Sched.Lawful s steps ↔ schedMachine.Meets Sched.Wakeful s steps) := by
  have hok : ∀ q, (s.seat q).Ok := fun q => Sched.ok_init hinit q
  have hkeep : ∀ (s : Sched) (i : SchedStep) (t : Sched), (∀ q, (s.seat q).Ok) →
      schedMachine.step s i = some t → ∀ q, (t.seat q).Ok :=
    fun s i t hs h q => Sched.ok_step hs h q
  refine ⟨fun t hrun => Sched.orderly_of_ok (hrun.keeps hkeep hok), ?_⟩
  refine Machine.along_iff_meets (I := fun s => ∀ q, (s.seat q).Ok) ?_ ?_ steps s hok
  · intro s i t hs h hwakeful
    exact ⟨(Sched.lawful_iff hs h).mpr hwakeful, hkeep s i t hs h⟩
  · intro s i t hs h hlawful
    exact (Sched.lawful_iff hs h).mp hlawful

/-- A module that is loaded, runs and exits keeps the law. -/
theorem schedule_lawful_iff_exit :
    schedMachine.Along Sched.Lawful ⟨Kernel.booted .qemu, none, fun _ => false, fun _ => none⟩
      [.instantiate 2, .started none, .ends (.exited 0)] := by
  refine (schedule_lawful_iff (sched_booted .qemu) _).2.mpr ?_
  refine (Machine.along_cons rfl).mpr ⟨?_, (Machine.along_cons rfl).mpr ⟨?_,
    (Machine.along_cons rfl).mpr ⟨?_, trivial⟩⟩⟩
  · intro p reason epIdx ending hturn
    cases hturn
  · intro p reason epIdx ending _ _ h
    cases h
  · intro p reason epIdx ending hturn hblocked
    obtain rfl : 2 = p := Option.some.inj hturn
    cases hblocked

/-- The start section of process 2 is suspended in a send to the demo endpoint. -/
def stuckStart : Sched where
  kernel := ((Kernel.booted .qemu).setState 2 .running).block 2 .sendWait 2#8
  turn := some 2
  ran := Function.update (fun _ => false) 2 true
  handed := Function.update (fun _ => none) 2 none

/-- **A process leaves `Blocked` without a wake**: `load_tier1` comes back with the error, and
the loop overwrites the state with `Faulted`. -/
theorem start_section_fails : ¬ schedMachine.Always fun s =>
    s.Orderly ∧ ∀ i t, schedMachine.step s i = some t → s.Lawful i t := by
  intro h
  have hreach : schedMachine.Reachable stuckStart := by
    have hboot := Machine.Reachable.init (sched_booted .qemu)
    have hload : schedMachine.Reachable
        (Sched.load ⟨Kernel.booted .qemu, none, fun _ => false, fun _ => none⟩ 2) :=
      hboot.step (i := .instantiate 2) rfl
    exact hload.step (i := .blocks .sendWait 2#8) rfl
  have hblocked : stuckStart.kernel.stateAt 2 = some (.blocked .sendWait 2#8) := rfl
  have hlawful := (h stuckStart hreach).2 (.ends .faulted) _ rfl
  have hended := Kernel.finish_ended hblocked .faulted
  rcases hlawful.woken 2 .sendWait 2#8 hblocked with ⟨_, _, hstill⟩ | ⟨hwakes, -⟩
  · cases hended.state.symm.trans hstill
  · rcases hwakes with ⟨_, _, hi⟩ | hgo
    · cases hi
    · have hring : stuckStart.kernel.ringWaiterList = [] := (Kernel.booted_idle .qemu).ring_nil
      have hmem := hgo.1
      rw [hring] at hmem
      cases hmem

/-! ## The loop's own pick

The machine may pick any ready process, since no promise depends on which. The loop picks the
lowest. -/

section Pick

variable {s : Sched}

/-- Entering the process the loop picks is a step, and no process below it is ready. -/
theorem step_pickNext {p : Proc} (hturn : s.turn = none) (hpick : s.kernel.pickNext = some p)
    (image : Option (Option (List (BitVec 8)))) :
    schedMachine.step s (.dispatch p image) = some (s.enter p image) ∧
      ∀ q < p, s.kernel.stateAt q ≠ some .ready := by
  obtain ⟨hp, hlow⟩ := find?_finRange hpick
  have hready : s.kernel.stateAt p = some .ready := eq_of_beq hp
  refine ⟨?_, fun q hq h => ?_⟩
  · simp only [schedMachine, Sched.step, hturn, if_pos hready]
  · have hnot := hlow q hq
    rw [h] at hnot
    cases hnot

/-- The loop finds nobody to pick exactly where it has no step left. -/
theorem pickNext_eq_none_iff (hturn : s.turn = none) :
    s.kernel.pickNext = none ↔ ∀ i, schedMachine.step s i = none := by
  have hstep : (∀ i, schedMachine.step s i = none) ↔ ∀ p, s.kernel.stateAt p ≠ some .ready := by
    constructor
    · intro h p hready
      have hp := h (.dispatch p none)
      simp only [schedMachine, Sched.step, hturn, if_pos hready] at hp
      cases hp
    · intro h i
      cases i with
      | dispatch p image => simp only [schedMachine, Sched.step, hturn, if_neg (h p)]
      | instantiate p =>
        have hnot : ¬ (s.kernel.stateAt p = some .ready ∧ s.kernel.tier1Pool p = none) :=
          fun hp => h p hp.1
        simp only [schedMachine, Sched.step, hturn, if_neg hnot]
      | _ => simp only [schedMachine, Sched.step, hturn]
  rw [hstep, Kernel.pickNext, pickNextTenant, List.find?_eq_none]
  exact ⟨fun h p => by simpa using h p (List.mem_finRange p), fun h p _ => by simpa using h p⟩

end Pick

end Wari
