import Wari.Handles

/-!
# Interrupts

The PLIC driver and the trap handler, next to the kernel: how a source is enabled and bound to a
notification, what one trap does, and the guards against a source that cannot be claimed and
against one that does not go quiet. What the controller presents, and what the console UART has
received by then, is up to the hardware.

`irqMachine` is the kernel with its fast path whose interrupts come by traps. It is the kernel of
`fastMachine` (`fast_reachable`), so that what holds of every run there holds here.
-/

namespace Wari

open Lib (Machine)

/-! ## The board

Where the controller is and which source is the console's. The two boards differ in these numbers
only. -/

/-- `plic_base`. -/
def Board.plicBase : Board → ℕ
  | .qemu => 0x0c000000
  | .vf2 => 0x0c000000
  | .r2s => 0xe0000000

/-- `plic_hart_context`: the S-mode context of the boot hart. -/
def Board.plicHartContext : Board → ℕ
  | .qemu => 1
  | .vf2 => 2
  | .r2s => 2 ^ 64 - 1

/-- `uart_irq`. -/
def Board.uartIrq : Board → BitVec 32
  | .qemu => 10
  | .vf2 => 32
  | .r2s => BitVec.allOnes 32

/-! ## The controller

Its registers as a memory of words, next to the statics of the driver. What a claim returns is up
to the hardware, within what it documents (`Presents`). -/

/-- `MAX_BOUND_IRQS`. -/
abbrev maxBoundIrqs : ℕ := 64

/-- `CTRL_R`. -/
def ctrlR : BitVec 8 := 0x12

/-- `SPURIOUS_LIMIT`. -/
def spuriousLimit : BitVec 32 := 1000

/-- `SAME_IRQ_LIMIT`. -/
def sameIrqLimit : BitVec 32 := 10000

section

variable (board : Board)

def priorityAddr (irq : BitVec 32) : ℕ := board.plicBase + 4 * irq.toNat

def enableWordAddr (context irqWord : ℕ) : ℕ :=
  board.plicBase + 0x2000 + 0x80 * context + 4 * irqWord

def thresholdAddr (context : ℕ) : ℕ := board.plicBase + 0x200000 + 0x1000 * context

end

/-- An access to the claim register, in the order in which the trap makes them. -/
inductive ClaimAccess where
  /-- a claim, and what it returned -/
  | read (irq : BitVec 32)
  /-- a completion -/
  | write (irq : BitVec 32)
  deriving DecidableEq, Repr

/-- The controller and the driver's statics. `lastIrq` and `lastIrqRun` are the guard against a
source that is claimed again and again, `spuriousRun` the one against traps without a source. -/
structure Plic where
  /-- the registers, but for the one of claims -/
  regs : ℕ → BitVec 32
  /-- accesses to that one, in order -/
  claims : List ClaimAccess
  /-- bit 9 of `sie` -/
  seie : Bool
  /-- `SPURIOUS_RUN` -/
  spuriousRun : BitVec 32
  /-- `LAST_IRQ` -/
  lastIrq : BitVec 32
  /-- `LAST_IRQ_RUN` -/
  lastIrqRun : BitVec 32
  /-- `IRQ_NOTIFICATION_BINDINGS` -/
  bindings : Fin maxBoundIrqs → Option (BitVec 16)

namespace Plic

variable (board : Board) (s : Plic)

def write (addr : ℕ) (val : BitVec 32) : Plic := { s with regs := Function.update s.regs addr val }

/-- `claim_reg.read()`, where it returns `irq`: the controller hands out a source, or 0. -/
def claim (irq : BitVec 32) : Plic := { s with claims := s.claims ++ [.read irq] }

/-- `claim_reg.write(irq)`: the controller may present the source again. -/
def complete (irq : BitVec 32) : Plic := { s with claims := s.claims ++ [.write irq] }

/-- Enable the source `irq` at `priority`. Sources that cannot be bound are refused, and so are
priorities above 7. -/
def enableIrq (irq priority : BitVec 32) : Except KernelError Plic :=
  if maxBoundIrqs ≤ irq.toNat then .error .invalidArgument
  else if 7 < priority then .error .invalidArgument
  else
    let s := s.write (priorityAddr board irq) priority
    let word := enableWordAddr board board.plicHartContext (irq.toNat / 32)
    .ok (s.write word (s.regs word ||| (1#32 <<< (irq.toNat % 32))))

/-- Disable the source `irq`, by its priority and by its enable bit. -/
def disableIrq (irq : BitVec 32) : Except KernelError Plic :=
  if maxBoundIrqs ≤ irq.toNat then .error .invalidArgument
  else
    let s := s.write (priorityAddr board irq) 0
    let word := enableWordAddr board board.plicHartContext (irq.toNat / 32)
    .ok (s.write word (s.regs word &&& ~~~(1#32 <<< (irq.toNat % 32))))

/-- Bind a hardware IRQ source to a notification's pool index. -/
def bindIrqToNotification (irq : BitVec 32) (index : BitVec 16) : Except KernelError Plic :=
  if h : irq.toNat < maxBoundIrqs then
    .ok { s with bindings := Function.update s.bindings ⟨irq.toNat, h⟩ (some index) }
  else .error .invalidArgument

/-- The notification that is bound to `irq`, if any is. -/
def notificationForIrq (irq : BitVec 32) : Option (BitVec 16) :=
  if h : irq.toNat < maxBoundIrqs then s.bindings ⟨irq.toNat, h⟩ else none

/-- `plic::init`: threshold 0, `sie.SEIE`, and the console UART. -/
def init : Plic :=
  let s := { s.write (thresholdAddr board board.plicHartContext) 0 with seie := true }
  match s.enableIrq board board.uartIrq 1 with
  | .ok s => s
  | .error _ => s

/-- The PLIC's part of boot: its own, and the line of the NIC. -/
def boot (regs : ℕ → BitVec 32) : Except KernelError Plic := do
  let s := init board ⟨regs, [], false, 0, 0, 0, fun _ => none⟩
  match board with
  | .qemu =>
    let s ← s.bindIrqToNotification 8 0
    s.enableIrq board 8 1
  | .vf2 => pure s
  | .r2s => pure s

/-- The loop over the bytes the UART has: is one of them a Ctrl-R? What comes after it stays. -/
def drainUart : List (BitVec 8) → Bool
  | [] => false
  | b :: bs => if b = ctrlR then true else drainUart bs

/-- `LAST_IRQ_RUN` after a claim of `irq`: how often in a row this source was claimed. -/
def nextRun (irq : BitVec 32) : BitVec 32 :=
  if irq = s.lastIrq then saturatingSucc s.lastIrqRun else 1

/-- `plic::dispatch`: what it leaves, and whether it resets the system. `irq` is what the claim
returns, and `rx` what the console UART has received. -/
def dispatch (caps : CapState) (irq : BitVec 32) (rx : List (BitVec 8)) : Plic × CapState × Bool :=
  let s := s.claim irq
  if irq = 0 then
    let s := { s with spuriousRun := saturatingSucc s.spuriousRun }
    if spuriousLimit ≤ s.spuriousRun then ({ s with seie := false }, caps, false)
    else (s, caps, false)
  else
    let s := { s with spuriousRun := 0, lastIrq := irq, lastIrqRun := s.nextRun irq }
    if s.lastIrqRun = sameIrqLimit then
      -- priority 0 disables the source for every context
      ((s.write (priorityAddr board irq) 0).complete irq, caps, false)
    else if irq = board.uartIrq then (s.complete irq, caps, drainUart rx)
    else
      match s.notificationForIrq irq with
      | some index =>
        (s.complete irq, caps.modifyNotification index.toNat fun notif =>
          { notif with signals := notif.signals ||| (1#32 <<< (irq.toNat % 32)) }, false)
      | none => (s.complete irq, caps, false)

/-- The controller presents `irq` to the hart: it is enabled there, and above the threshold. This
is what the manual promises of a claim that does not return zero. -/
def Presents (irq : BitVec 32) : Prop :=
  irq.toNat < 1024 ∧
  (s.regs (enableWordAddr board board.plicHartContext (irq.toNat / 32))).getLsbD (irq.toNat % 32) ∧
  s.regs (thresholdAddr board board.plicHartContext) < s.regs (priorityAddr board irq)

instance (irq : BitVec 32) : Decidable (s.Presents board irq) := inferInstanceAs (Decidable (_ ∧ _))

end Plic

/-! ## The registers

Writes to one source's registers leave the others' as they were. The registers of the threshold
and of the enable bits are not priorities. -/

section Registers

variable {board : Board} {irq irq' : BitVec 32}

theorem priorityAddr_ne (h : irq.toNat ≠ irq'.toNat) :
    priorityAddr board irq ≠ priorityAddr board irq' := by
  rw [priorityAddr, priorityAddr]
  omega

/-- The priority of a source that can be claimed is no other register. -/
theorem enableWordAddr_ne (h : irq.toNat < 1024) (context word : ℕ) :
    enableWordAddr board context word ≠ priorityAddr board irq := by
  rw [enableWordAddr, priorityAddr]
  omega

theorem thresholdAddr_ne (h : irq.toNat < 1024) (context : ℕ) :
    thresholdAddr board context ≠ priorityAddr board irq := by
  rw [thresholdAddr, priorityAddr]
  omega

variable {s : Plic}

/-- Another source is presented as it was before. -/
theorem presents_write (h : irq.toNat < 1024)
    (hne : irq' ≠ irq) :
    (s.write (priorityAddr board irq) 0).Presents board irq' ↔ s.Presents board irq' := by
  have hother : priorityAddr board irq' ≠ priorityAddr board irq :=
    priorityAddr_ne fun he => hne (BitVec.eq_of_toNat_eq he)
  rw [Plic.Presents, Plic.Presents, Plic.write]
  dsimp only
  rw [Function.update_of_ne (enableWordAddr_ne h _ _), Function.update_of_ne (thresholdAddr_ne h _),
    Function.update_of_ne hother]

/-- A source whose priority is zero is not presented. -/
theorem not_presents_write :
    ¬ (s.write (priorityAddr board irq) 0).Presents board irq := by
  rintro ⟨-, -, hlt⟩
  rw [Plic.write] at hlt
  dsimp only at hlt
  rw [Function.update_self, BitVec.lt_def] at hlt
  exact Nat.not_lt_zero _ hlt

end Registers

/-! ## The kernel and its traps

Traps come between calls of the kernel, which runs with interrupts off. A trap brings its cause,
and what the claim in it returns. -/

/-- Does the hart still run the kernel? A trap may reset the machine or halt the hart. -/
inductive HartState where
  | running
  /-- `sbi::system_reset` was called -/
  | reset
  /-- `trap::halt` -/
  | halted
  deriving DecidableEq, Repr

/-- The kernel with its fast path, the interrupt controller, and the hart that runs it. -/
structure IrqKernel where
  fast : FastKernel
  plic : Plic
  hart : HartState

/-- What happens: a call of a process, or a trap. A trap comes with its cause, what a claim
returns in it, and what the console UART has received. -/
inductive IrqCall where
  | call (c : FastCall)
  | trap (scause : BitVec 64) (irq : BitVec 32) (rx : List (BitVec 8))

/-- `SCAUSE_INTERRUPT_BIT`. -/
def scauseInterruptBit : BitVec 64 := 1#64 <<< 63

/-- `SCAUSE_S_TIMER`. -/
def scauseSTimer : BitVec 64 := 5

/-- `SCAUSE_S_EXT`. -/
def scauseSExt : BitVec 64 := 9

/-- The trap is an external interrupt, by its cause. -/
def External (scause : BitVec 64) : Prop :=
  scause &&& scauseInterruptBit ≠ 0 ∧ scause &&& ~~~scauseInterruptBit = scauseSExt

instance (scause : BitVec 64) : Decidable (External scause) := inferInstanceAs (Decidable (_ ∧ _))

namespace IrqKernel

/-- `handle_trap`: an external interrupt is dispatched, a timer interrupt is ignored, and anything
else halts the hart. -/
def handleTrap (board : Board) (s : IrqKernel) (scause : BitVec 64) (irq : BitVec 32)
    (rx : List (BitVec 8)) : IrqKernel :=
  let isInterrupt := scause &&& scauseInterruptBit ≠ 0
  let code := scause &&& ~~~scauseInterruptBit
  if isInterrupt then
    if code = scauseSTimer then s
    else if code = scauseSExt then
      let (plic, caps, reset) := s.plic.dispatch board s.fast.kernel.caps irq rx
      { fast := s.fast.after { s.fast.fastpath with caps := caps }
        plic := plic
        hart := if reset then .reset else s.hart }
    else { s with hart := .halted }
  else { s with hart := .halted }

/-- One step. An external interrupt comes where the hart listens to them, and a claim in it
returns zero or what the controller presents. -/
def step (ed25519 : Ed25519) (board : Board) (s : IrqKernel) : IrqCall → Option IrqKernel
  | .call c =>
    if s.hart = .running then
      match c with
      -- these come by traps
      | .interrupt _ _ => none
      | c => (FastKernel.step ed25519 s.fast c).map fun fast => { s with fast := fast }
    else none
  | .trap scause irq rx =>
    if s.hart = .running ∧
        (External scause → s.plic.seie = true ∧ (irq = 0 ∨ s.plic.Presents board irq)) then
      some (s.handleTrap board scause irq rx)
    else none

end IrqKernel

/-- **The kernel with its interrupts.** The registers of the controller read anything at reset,
and the R2S halts before its controller is set up. -/
def irqMachine (ed25519 : Ed25519) (board : Board) : Machine IrqKernel IrqCall where
  init s := board ≠ .r2s ∧ s.fast = .booted board ∧ s.hart = .running ∧
    ∃ regs, Plic.boot board regs = .ok s.plic
  step := IrqKernel.step ed25519 board

/-! ## A trap

What one trap comes to, told from the source it claims: the signal it raises, the guards it trips,
and whether it resets the system. Everything after this goes by `Plic.dispatch_eq`. -/

/-- A trap with `irq` sets bit `irq % 32`. -/
def Notification.raise (irq : BitVec 32) (notif : Notification) : Notification :=
  { notif with signals := notif.signals ||| (1#32 <<< (irq.toNat % 32)) }

/-- The notification that a claim of `irq` signals: the one it is bound to, unless it is the
console's or is taken to be stuck. -/
def Plic.raised (board : Board) (s : Plic) (irq : BitVec 32) : Option (BitVec 16) :=
  if irq = 0 ∨ s.nextRun irq = sameIrqLimit ∨ irq = board.uartIrq then none
  else s.notificationForIrq irq

/-- What a trap makes of the controller, written down directly. -/
def Plic.dispatched (board : Board) (s : Plic) (irq : BitVec 32) : Plic :=
  if irq = 0 then
    { s.claim irq with
      spuriousRun := saturatingSucc s.spuriousRun
      seie := if spuriousLimit ≤ saturatingSucc s.spuriousRun then false else s.seie }
  else
    let counted : Plic :=
      { s.claim irq with spuriousRun := 0, lastIrq := irq, lastIrqRun := s.nextRun irq }
    if s.nextRun irq = sameIrqLimit then (counted.write (priorityAddr board irq) 0).complete irq
    else counted.complete irq

/-- The trap comes from the console, and a Ctrl-R with it. -/
def Plic.Resets (board : Board) (s : Plic) (irq : BitVec 32) (rx : List (BitVec 8)) : Prop :=
  irq ≠ 0 ∧ s.nextRun irq ≠ sameIrqLimit ∧ irq = board.uartIrq ∧ drainUart rx = true

instance (board : Board) (s : Plic) (irq : BitVec 32) (rx : List (BitVec 8)) :
    Decidable (s.Resets board irq rx) :=
  inferInstanceAs (Decidable (_ ∧ _))

/-- **What a trap does**: the controller changes as written down, and a notification is signalled
or none. -/
theorem Plic.dispatch_eq (board : Board) (s : Plic) (caps : CapState) (irq : BitVec 32)
    (rx : List (BitVec 8)) :
    s.dispatch board caps irq rx =
      (s.dispatched board irq,
        (match s.raised board irq with
          | some index => caps.modifyNotification index.toNat (Notification.raise irq)
          | none => caps),
        decide (s.Resets board irq rx)) := by
  rw [dispatch, dispatched, raised]
  by_cases hzero : irq = 0
  · have hreset : ¬ s.Resets board irq rx := fun h => h.1 hzero
    rw [decide_eq_false hreset, if_pos hzero, if_pos (Or.inl hzero)]
    dsimp only
    rw [if_pos hzero]
    by_cases hmask : spuriousLimit ≤ saturatingSucc s.spuriousRun
    · exact (if_pos hmask).trans (by rw [if_pos hmask]; rfl)
    · exact (if_neg hmask).trans (by rw [if_neg hmask]; rfl)
  · rw [if_neg hzero]
    dsimp only
    rw [if_neg hzero]
    by_cases hlimit : s.nextRun irq = sameIrqLimit
    · have hreset : ¬ s.Resets board irq rx := fun h => h.2.1 hlimit
      rw [decide_eq_false hreset, if_pos hlimit, if_pos (Or.inr (Or.inl hlimit))]
      exact if_pos hlimit
    · rw [if_neg hlimit]
      refine (if_neg hlimit).trans ?_
      by_cases huart : irq = board.uartIrq
      · have hreset : decide (s.Resets board irq rx) = drainUart rx := by
          rw [Bool.eq_iff_iff, decide_eq_true_iff]
          exact ⟨fun h => h.2.2.2, fun h => ⟨hzero, hlimit, huart, h⟩⟩
        rw [if_pos huart, if_pos (Or.inr (Or.inr huart)), hreset]
        rfl
      · have hreset : ¬ s.Resets board irq rx := fun h => huart h.2.2.1
        rw [if_neg huart, if_neg fun h => h.elim hzero fun h => h.elim hlimit huart,
          decide_eq_false hreset]
        change (match s.notificationForIrq irq with | some _ => _ | none => _) = _
        split <;> rfl

/-- What a trap makes of the capabilities: it signals the notification of the source that it
raises, if any. -/
theorem Plic.dispatch_caps (board : Board) (s : Plic) (caps : CapState) (irq : BitVec 32)
    (rx : List (BitVec 8)) :
    (s.dispatch board caps irq rx).2.1 =
      match s.raised board irq with
      | some index => caps.modifyNotification index.toNat (Notification.raise irq)
      | none => caps := by
  rw [dispatch_eq]

namespace IrqKernel

/-- What a trap makes of the kernel: nothing, or what an interrupt makes of it that signals one
notification. -/
theorem handleTrap_fast (board : Board) (s : IrqKernel) (scause : BitVec 64) (irq : BitVec 32)
    (rx : List (BitVec 8)) :
    (s.handleTrap board scause irq rx).fast =
      if External scause then
        s.fast.after { s.fast.fastpath with
          caps := (s.plic.dispatch board s.fast.kernel.caps irq rx).2.1 }
      else s.fast := by
  have htimer : scauseSTimer ≠ scauseSExt := by decide
  rw [handleTrap]
  dsimp only
  by_cases hint : scause &&& scauseInterruptBit ≠ 0
  · rw [if_pos hint]
    by_cases hcode : scause &&& ~~~scauseInterruptBit = scauseSTimer
    · rw [if_pos hcode, if_neg fun h => htimer (hcode.symm.trans h.2)]
    · rw [if_neg hcode]
      by_cases hext : scause &&& ~~~scauseInterruptBit = scauseSExt
      · have hexternal : External scause := ⟨hint, hext⟩
        rw [if_pos hext, if_pos hexternal]
      · rw [if_neg hext, if_neg fun h => hext h.2]
  · rw [if_neg hint, if_neg fun h => hint h.1]

variable {ed25519 : Ed25519} {board : Board} {s t : IrqKernel}

theorem step_call {c : FastCall} (h : IrqKernel.step ed25519 board s (.call c) = some t) :
    s.hart = .running ∧ (∀ index bit, c ≠ .interrupt index bit) ∧
      ∃ fast, FastKernel.step ed25519 s.fast c = some fast ∧ t = { s with fast := fast } := by
  unfold IrqKernel.step at h
  dsimp only at h
  split at h
  swap
  · cases h
  rename_i hrunning
  split at h
  · cases h
  · rename_i hcall
    obtain ⟨fast, hfast, rfl⟩ := Option.map_eq_some_iff.mp h
    exact ⟨hrunning, hcall, fast, hfast, rfl⟩

theorem step_trap {scause : BitVec 64} {irq : BitVec 32} {rx : List (BitVec 8)}
    (h : IrqKernel.step ed25519 board s (.trap scause irq rx) = some t) :
    s.hart = .running ∧
      (External scause → s.plic.seie = true ∧ (irq = 0 ∨ s.plic.Presents board irq)) ∧
      t = s.handleTrap board scause irq rx := by
  rw [IrqKernel.step] at h
  split at h
  · rename_i hok
    exact ⟨hok.1, hok.2, (Option.some.inj h).symm⟩
  · cases h

/-- **A step is one of the kernel**, or leaves it as it is. -/
theorem step_fast {c : IrqCall} (h : IrqKernel.step ed25519 board s c = some t) :
    t.fast = s.fast ∨ ∃ c', FastKernel.step ed25519 s.fast c' = some t.fast := by
  cases c with
  | call call =>
    obtain ⟨-, -, fast, hfast, rfl⟩ := step_call h
    exact .inr ⟨call, hfast⟩
  | trap scause irq rx =>
    obtain ⟨-, -, rfl⟩ := step_trap h
    rw [handleTrap_fast, Plic.dispatch_caps]
    split
    · rcases s.plic.raised board irq with _ | index
      · exact .inl rfl
      · exact .inr ⟨.interrupt index.toNat (1#32 <<< (irq.toNat % 32)), rfl⟩
    · exact .inl rfl

end IrqKernel

/-- The cause of an external interrupt: the interrupt bit and the code. -/
def scauseExternal : BitVec 64 := scauseInterruptBit ||| scauseSExt

/-- QEMU listens to its NIC and to its console from boot on. -/
theorem qemu_boots (ed25519 : Ed25519) : ∃ s, (irqMachine ed25519 .qemu).init s ∧
    s.fast.kernel.caps = bootState .qemu ∧ s.hart = .running ∧ s.plic.seie = true ∧
    s.plic.Presents .qemu 8 ∧ s.plic.Presents .qemu 10 ∧ s.plic.raised .qemu 8 = some 0 := by
  obtain ⟨plic, hplic, hrest⟩ : ∃ plic, Plic.boot .qemu (fun _ => 0) = .ok plic ∧
      plic.seie = true ∧ plic.Presents .qemu 8 ∧ plic.Presents .qemu 10 ∧
      plic.raised .qemu 8 = some 0 := ⟨_, rfl, by decide⟩
  exact ⟨⟨.booted .qemu, plic, .running⟩, ⟨by decide, rfl, rfl, _, hplic⟩, rfl, rfl, hrest⟩

end Wari
