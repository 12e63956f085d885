import Wari.Interrupts
import Wari.Lib.Since
import Wari.Lib.Streak

/-!
# Interrupt storms

A source that the hart cannot claim, or that does not go quiet, would trap forever. The
dispatcher counts: after a thousand claims in a row that return nothing it stops listening, and
a source that it was given ten thousand times in a row is disabled. `storms_end` says that these
are the claims of every run, told from what they returned: the counters saturate and start over
as they should, each claim but an empty one is completed, and a source that was disabled never
comes again.
-/

namespace Wari

open Lib (Machine streakOf streakOf_snoc streakOf_nil replicate_infix_snoc infix_of_le_streakOf)

/-! ## What the controller was asked

The accesses to the claim register, split into what the claims returned and what was completed. -/

/-- What the claims of a run returned, in order. -/
def claimsOf (calls : List IrqCall) : List (BitVec 32) :=
  calls.filterMap fun c =>
    match c with
    | .trap scause irq _ => if External scause then some irq else none
    | .call _ => none

/-- The claims that returned a source, in order. -/
def sourcesOf (claims : List (BitVec 32)) : List (BitVec 32) := claims.filter (· ≠ 0)

/-- A claim is completed where it returned a source. -/
def handshake (irq : BitVec 32) : List ClaimAccess :=
  if irq = 0 then [.read 0] else [.read irq, .write irq]

/-- The source was given `SAME_IRQ_LIMIT` times in a row. -/
def Stuck (claims : List (BitVec 32)) (irq : BitVec 32) : Prop :=
  List.replicate sameIrqLimit.toNat irq <:+: sourcesOf claims

/-- **What holds of a run.** Each claim that returned a source is completed before the next, empty
claims in a row are at most `SPURIOUS_LIMIT`, and a source that was claimed `SAME_IRQ_LIMIT` times
in a row does not come again, while all others are as they were. -/
structure Weathered (board : Board) (s : IrqKernel) (calls : List IrqCall) (t : IrqKernel) :
    Prop where
  /-- a claim that returned a source is completed once, before the next claim, and no other -/
  completed : t.plic.claims = (claimsOf calls).flatMap handshake
  /-- external interrupts are masked after `SPURIOUS_LIMIT` empty claims in a row -/
  masked : t.plic.seie = false ↔ List.replicate spuriousLimit.toNat 0 <:+: claimsOf calls
  /-- and there are never more of them -/
  spurious : ¬ List.replicate (spuriousLimit.toNat + 1) 0 <:+: claimsOf calls
  /-- a stuck source does not come again -/
  silenced : ∀ irq ≠ 0, ∀ before rest, sourcesOf (claimsOf calls) = before ++ rest →
    List.replicate sameIrqLimit.toNat irq <:+: before → irq ∉ rest
  /-- it is no longer presented, and any other source is as it was -/
  presents : ∀ irq ≠ 0, t.plic.Presents board irq ↔
    s.plic.Presents board irq ∧ ¬ Stuck (claimsOf calls) irq
  /-- a Ctrl-R on the console resets the system -/
  reset : t.hart = .reset ↔
    ∃ earlier scause rx, calls = earlier ++ [.trap scause board.uartIrq rx] ∧
    External scause ∧ ctrlR ∈ rx ∧
    streakOf board.uartIrq (sourcesOf (claimsOf calls)) ≠ sameIrqLimit.toNat

theorem sourcesOf_snoc (claims : List (BitVec 32)) (irq : BitVec 32) :
    sourcesOf (claims ++ [irq]) =
      if irq = 0 then sourcesOf claims else sourcesOf claims ++ [irq] := by
  rw [sourcesOf, List.filter_append, sourcesOf]
  by_cases hzero : irq = 0
  · rw [if_pos hzero, List.filter_cons_of_neg (by simpa using hzero)]
    exact List.append_nil _
  · rw [if_neg hzero, List.filter_cons_of_pos (by simpa using hzero)]
    rfl

/-- The loop looks for a Ctrl-R, wherever it is among the bytes. -/
theorem drainUart_iff {rx : List (BitVec 8)} : Plic.drainUart rx = true ↔ ctrlR ∈ rx := by
  induction rx with
  | nil => simp [Plic.drainUart]
  | cons b bs ih =>
    rw [Plic.drainUart, List.mem_cons]
    split
    · rename_i hb
      simp [hb]
    · rename_i hb
      rw [ih]
      exact ⟨.inr, fun h => h.resolve_left fun he => hb he.symm⟩

theorem toNat_saturatingSucc {g : BitVec 32} (h : g.toNat < 2 ^ 32 - 1) :
    (saturatingSucc g).toNat = g.toNat + 1 := by
  rw [saturatingSucc, if_neg]
  · rw [BitVec.toNat_add_of_lt (by simp; omega)]
    rfl
  · rintro rfl
    rw [BitVec.toNat_allOnes] at h
    omega

/-! ## The counters

The counters of the dispatcher are functions of what the claims returned: how often the last of
them repeated itself. -/

/-- The driver's counters, and what it did to the registers, told from what was claimed. With this
a run can be judged by its claims alone. -/
structure Tracks (board : Board) (s₀ s : Plic) (claims : List (BitVec 32)) : Prop where
  accesses : s.claims = claims.flatMap handshake
  spuriousRun : s.spuriousRun.toNat = streakOf 0 claims
  lastIrqRun : s.lastIrqRun.toNat = streakOf s.lastIrq (sourcesOf claims)
  others : ∀ irq, irq ≠ s.lastIrq → streakOf irq (sourcesOf claims) = 0
  masked : s.seie = false ↔ List.replicate spuriousLimit.toNat 0 <:+: claims
  spurious : ¬ List.replicate (spuriousLimit.toNat + 1) 0 <:+: claims
  silenced : ∀ irq ≠ 0, ∀ before rest, sourcesOf claims = before ++ rest →
    List.replicate sameIrqLimit.toNat irq <:+: before → irq ∉ rest
  threshold : s.regs (thresholdAddr board board.plicHartContext) = 0
  presents : ∀ irq ≠ 0, s.Presents board irq ↔ s₀.Presents board irq ∧ ¬ Stuck claims irq

namespace Tracks

variable {board : Board} {s₀ s : Plic} {claims : List (BitVec 32)} {irq : BitVec 32}

/-- The streak of a source that is claimed is short. -/
theorem streak_lt (h : Tracks board s₀ s claims) (hpos : irq ≠ 0) (hp : s.Presents board irq) :
    streakOf irq (sourcesOf claims) < sameIrqLimit.toNat := by
  by_contra hge
  exact ((h.presents irq hpos).mp hp).2 (infix_of_le_streakOf (Nat.not_lt.mp hge))

theorem spurious_lt (h : Tracks board s₀ s claims) (hseie : s.seie = true) :
    streakOf 0 claims < spuriousLimit.toNat := by
  by_contra hge
  have hmasked := h.masked.mpr (infix_of_le_streakOf (Nat.not_lt.mp hge))
  rw [hseie] at hmasked
  cases hmasked

/-- `LAST_IRQ_RUN` after a claim of a source that is presented. -/
theorem toNat_nextRun (h : Tracks board s₀ s claims) (hpos : irq ≠ 0) (hp : s.Presents board irq) :
    (s.nextRun irq).toNat = streakOf irq (sourcesOf (claims ++ [irq])) := by
  have hlt := h.streak_lt hpos hp
  have hlimit : sameIrqLimit.toNat = 10000 := rfl
  rw [sourcesOf_snoc, if_neg hpos, streakOf_snoc, if_pos rfl, Plic.nextRun]
  split
  · rename_i hlast
    have hrun := h.lastIrqRun
    rw [← hlast] at hrun
    rw [toNat_saturatingSucc (by omega), hrun]
  · rename_i hother
    rw [h.others irq hother]
    rfl

/-- **An empty claim** adds one to the run of empty ones, and ends no run of a source. -/
theorem empty (h : Tracks board s₀ s claims) (hseie : s.seie = true) :
    Tracks board s₀ (s.dispatched board 0) (claims ++ [0]) := by
  have hlt := h.spurious_lt hseie
  have hlimit : spuriousLimit.toNat = 1000 := rfl
  have hsources : sourcesOf (claims ++ [0]) = sourcesOf claims := by
    rw [sourcesOf_snoc, if_pos rfl]
  have hstreak : streakOf 0 (claims ++ [0]) = streakOf 0 claims + 1 := by
    rw [streakOf_snoc, if_pos rfl]
  have hrun : (saturatingSucc s.spuriousRun).toNat = streakOf 0 claims + 1 := by
    rw [toNat_saturatingSucc (by rw [h.spuriousRun]; omega), h.spuriousRun]
  have hbefore : ¬ List.replicate spuriousLimit.toNat 0 <:+: claims := by
    intro hin
    rw [h.masked.mpr hin] at hseie
    cases hseie
  rw [Plic.dispatched, if_pos rfl]
  refine ⟨?_, ?_, ?_, ?_, ?_, ?_, ?_, h.threshold, ?_⟩
  · rw [List.flatMap_append, ← h.accesses]
    rfl
  · rw [hstreak]
    exact hrun
  · rw [hsources]
    exact h.lastIrqRun
  · rw [hsources]
    exact h.others
  · rw [replicate_infix_snoc, hstreak]
    dsimp only
    constructor
    · intro hmask
      split at hmask
      · rename_i hle
        rw [BitVec.le_def, hrun] at hle
        exact .inr hle
      · rw [hseie] at hmask
        cases hmask
    · rintro (hin | hle)
      · exact (hbefore hin).elim
      · rw [if_pos]
        rw [BitVec.le_def, hrun]
        exact hle
  · rw [replicate_infix_snoc, hstreak]
    rintro (hin | hle)
    · exact h.spurious hin
    · omega
  · rw [hsources]
    exact h.silenced
  · intro irq hpos
    rw [Stuck, hsources]
    exact h.presents irq hpos

/-- **A claim of a source** adds one to its run, and ends the run of empty ones. -/
theorem source (h : Tracks board s₀ s claims) (hpos : irq ≠ 0) (hp : s.Presents board irq) :
    Tracks board s₀ (s.dispatched board irq) (claims ++ [irq]) := by
  have hsources : sourcesOf (claims ++ [irq]) = sourcesOf claims ++ [irq] := by
    rw [sourcesOf_snoc, if_neg hpos]
  have hempty : streakOf 0 (claims ++ [irq]) = 0 := by rw [streakOf_snoc, if_neg hpos]
  have hother : ∀ irq' ≠ irq, streakOf irq' (sourcesOf (claims ++ [irq])) = 0 := fun irq' hne => by
    rw [hsources, streakOf_snoc, if_neg (Ne.symm hne)]
  have hrun := h.toNat_nextRun hpos hp
  have hfree : ¬ Stuck claims irq := ((h.presents irq hpos).mp hp).2
  have hlimit : 0 < sameIrqLimit.toNat := by decide
  have hstuck : ∀ irq', Stuck (claims ++ [irq]) irq' ↔
      Stuck claims irq' ∨ irq' = irq ∧ s.nextRun irq = sameIrqLimit := by
    intro irq'
    rw [Stuck, hsources, replicate_infix_snoc, ← hsources, Stuck]
    refine or_congr_right ?_
    by_cases hsame : irq' = irq
    · subst hsame
      have hlt := h.streak_lt hpos hp
      have hnext : streakOf irq' (sourcesOf (claims ++ [irq'])) =
          streakOf irq' (sourcesOf claims) + 1 := by rw [hsources, streakOf_snoc, if_pos rfl]
      rw [← hrun] at hnext ⊢
      constructor
      · exact fun hle => ⟨rfl, BitVec.eq_of_toNat_eq (by omega)⟩
      · exact fun he => (congrArg BitVec.toNat he.2).ge
    · rw [hother irq' hsame]
      exact ⟨fun hle => absurd hle (by omega), fun he => (hsame he.1).elim⟩
  have hregs : (s.dispatched board irq).regs =
      if s.nextRun irq = sameIrqLimit then (s.write (priorityAddr board irq) 0).regs
      else s.regs := by
    rw [Plic.dispatched, if_neg hpos]
    dsimp only
    split <;> rfl
  have hrest : (s.dispatched board irq).claims = s.claims ++ [.read irq, .write irq] ∧
      (s.dispatched board irq).spuriousRun = 0 ∧ (s.dispatched board irq).seie = s.seie ∧
      (s.dispatched board irq).lastIrq = irq ∧
      (s.dispatched board irq).lastIrqRun = s.nextRun irq := by
    rw [Plic.dispatched, if_neg hpos]
    dsimp only
    split <;> exact ⟨List.append_assoc _ _ _, rfl, rfl, rfl, rfl⟩
  obtain ⟨hclaims, hspurious, hseie', hlast, hlastRun⟩ := hrest
  refine ⟨?_, ?_, ?_, ?_, ?_, ?_, ?_, ?_, ?_⟩
  · rw [hclaims, h.accesses, List.flatMap_append, List.flatMap_singleton, handshake, if_neg hpos]
  · rw [hspurious, hempty]
    rfl
  · rw [hlastRun, hlast, hrun]
  · rw [hlast]
    exact hother
  · rw [hseie', replicate_infix_snoc, hempty, h.masked]
    exact ⟨.inl, fun hor => hor.resolve_right (by decide)⟩
  · rw [replicate_infix_snoc, hempty]
    rintro (hin | hle)
    · exact h.spurious hin
    · exact absurd hle (by decide)
  · intro irq' hpos' before rest hsplit hin hmem
    rw [hsources] at hsplit
    rcases List.eq_nil_or_concat rest with rfl | ⟨rest', last, rfl⟩
    · cases hmem
    · rw [List.concat_eq_append, ← List.append_assoc] at hsplit
      obtain ⟨hfront, hback⟩ := List.append_inj' hsplit rfl
      obtain rfl := List.singleton_inj.mp hback
      rw [List.concat_eq_append, List.mem_append, List.mem_singleton] at hmem
      rcases hmem with hmem | rfl
      · exact h.silenced irq' hpos' before rest' hfront hin hmem
      · exact hfree (hin.trans (hfront ▸ (List.prefix_append before rest').isInfix))
  · rw [hregs]
    split
    · rw [Plic.write]
      dsimp only
      rw [Function.update_of_ne (thresholdAddr_ne hp.1 _)]
      exact h.threshold
    · exact h.threshold
  · intro irq' hpos'
    have hpresents : (s.dispatched board irq).Presents board irq' ↔
        s.Presents board irq' ∧ ¬ (irq' = irq ∧ s.nextRun irq = sameIrqLimit) := by
      rw [Plic.Presents, hregs]
      split
      · rename_i hcut
        change (s.write (priorityAddr board irq) 0).Presents board irq' ↔ _
        by_cases hsame : irq' = irq
        · subst hsame
          exact ⟨fun hp' => (not_presents_write hp').elim, fun hboth => (hboth.2 ⟨rfl, hcut⟩).elim⟩
        · rw [presents_write hp.1 hsame]
          exact ⟨fun hp' => ⟨hp', fun he => hsame he.1⟩, fun hboth => hboth.1⟩
      · rename_i hcut
        change s.Presents board irq' ↔ _
        exact ⟨fun hp' => ⟨hp', fun he => hcut he.2⟩, fun hboth => hboth.1⟩
    rw [hpresents, hstuck, h.presents irq' hpos', not_or, and_assoc]

/-- At boot nothing was claimed, and no counter has counted. -/
theorem boot {regs : ℕ → BitVec 32} (hboard : board ≠ .r2s) (h : Plic.boot board regs = .ok s) :
    Tracks board s s [] := by
  have hs : s.claims = [] ∧ s.spuriousRun = 0 ∧ s.lastIrqRun = 0 ∧ s.seie = true ∧
      s.regs (thresholdAddr board board.plicHartContext) = 0 := by
    cases board with
    | qemu =>
      rw [← Except.ok.inj (show Except.ok _ = Except.ok s from h)]
      exact ⟨rfl, rfl, rfl, rfl, rfl⟩
    | vf2 =>
      rw [← Except.ok.inj (show Except.ok _ = Except.ok s from h)]
      exact ⟨rfl, rfl, rfl, rfl, rfl⟩
    | r2s => exact (hboard rfl).elim
  obtain ⟨hclaims, hspurious, hlast, hseie, hthreshold⟩ := hs
  have hnone : ∀ k : ℕ, 0 < k → ∀ irq : BitVec 32, ¬ List.replicate k irq <:+: [] := by
    intro k hk irq hin
    rw [List.infix_nil, List.replicate_eq_nil_iff] at hin
    omega
  refine ⟨hclaims, ?_, ?_, fun _ _ => rfl, ?_, hnone _ (by decide) 0, ?_, hthreshold, ?_⟩
  · rw [hspurious]
    rfl
  · rw [hlast]
    rfl
  · rw [hseie]
    exact ⟨fun he => (Bool.false_ne_true he.symm).elim, fun hin => (hnone _ (by decide) 0 hin).elim⟩
  · intro irq _ before rest hsplit _ hmem
    rw [(List.append_eq_nil_iff.mp hsplit.symm).2] at hmem
    cases hmem
  · exact fun irq _ => ⟨fun hp => ⟨hp, hnone _ (by decide) irq⟩, fun hp => hp.1⟩

/-- **A trap** claims once, whatever it finds. -/
theorem trap (h : Tracks board s₀ s claims) (hseie : s.seie = true)
    (hirq : irq = 0 ∨ s.Presents board irq) :
    Tracks board s₀ (s.dispatched board irq) (claims ++ [irq]) := by
  by_cases hzero : irq = 0
  · rw [hzero]
    exact h.empty hseie
  · exact h.source hzero (hirq.resolve_left hzero)

end Tracks

/-! ## Every run

The counters along a run, and what is done when one of them is full. -/

theorem uartIrq_ne_zero (board : Board) : board.uartIrq ≠ 0 := by
  cases board <;> decide

/-- What a trap makes of the controller and of the hart. -/
theorem handleTrap_plic (board : Board) (s : IrqKernel) {scause : BitVec 64}
    (h : External scause) (irq : BitVec 32) (rx : List (BitVec 8)) :
    (s.handleTrap board scause irq rx).plic = s.plic.dispatched board irq ∧
    (s.handleTrap board scause irq rx).hart =
      if s.plic.Resets board irq rx then .reset else s.hart := by
  have htimer : ¬ scause &&& ~~~scauseInterruptBit = scauseSTimer := fun he =>
    absurd (he.symm.trans h.2) (by decide)
  rw [IrqKernel.handleTrap]
  dsimp only
  rw [if_pos h.1, if_neg htimer, if_pos h.2, Plic.dispatch_eq]
  refine ⟨rfl, ?_⟩
  dsimp only
  by_cases hreset : s.plic.Resets board irq rx
  · rw [if_pos hreset, if_pos (decide_eq_true hreset)]
  · rw [if_neg hreset, if_neg (by simpa using hreset)]

/-- Any other trap leaves the controller alone, and resets nothing. -/
theorem handleTrap_other (board : Board) (s : IrqKernel) {scause : BitVec 64}
    (h : ¬ External scause) (irq : BitVec 32) (rx : List (BitVec 8)) :
    (s.handleTrap board scause irq rx).plic = s.plic ∧
    ((s.handleTrap board scause irq rx).hart = .reset → s.hart = .reset) := by
  rw [IrqKernel.handleTrap]
  dsimp only
  by_cases hint : scause &&& scauseInterruptBit ≠ 0
  · rw [if_pos hint]
    by_cases hcode : scause &&& ~~~scauseInterruptBit = scauseSTimer
    · rw [if_pos hcode]
      exact ⟨rfl, id⟩
    · rw [if_neg hcode, if_neg fun he => h ⟨hint, he⟩]
      exact ⟨rfl, fun he => by cases he⟩
  · rw [if_neg hint]
    exact ⟨rfl, fun he => by cases he⟩

theorem claimsOf_snoc (calls : List IrqCall) (c : IrqCall) :
    claimsOf (calls ++ [c]) = claimsOf calls ++ claimsOf [c] :=
  List.filterMap_append

theorem claimsOf_trap (scause : BitVec 64) (irq : BitVec 32) (rx : List (BitVec 8)) :
    claimsOf [.trap scause irq rx] = if External scause then [irq] else [] := by
  by_cases hext : External scause <;> simp [claimsOf, hext]

/-- **A step** adds what it claimed, which is nothing unless it is a trap. -/
theorem Tracks.step {ed25519 : Ed25519} {board : Board} {s₀ : Plic} {s t : IrqKernel}
    {claims : List (BitVec 32)} {c : IrqCall} (h : Tracks board s₀ s.plic claims)
    (hstep : IrqKernel.step ed25519 board s c = some t) :
    Tracks board s₀ t.plic (claims ++ claimsOf [c]) := by
  cases c with
  | call call =>
    obtain ⟨-, -, fast, -, rfl⟩ := IrqKernel.step_call hstep
    rwa [show claimsOf [.call call] = [] from rfl, List.append_nil]
  | trap scause irq rx =>
    obtain ⟨-, hguard, rfl⟩ := IrqKernel.step_trap hstep
    rw [claimsOf_trap]
    by_cases hext : External scause
    · obtain ⟨hseie, hirq⟩ := hguard hext
      rw [if_pos hext, (handleTrap_plic board s hext irq rx).1]
      exact h.trap hseie hirq
    · rw [if_neg hext, List.append_nil, (handleTrap_other board s hext irq rx).1]
      exact h

/-- **A run** is what its claims say: the counters, and which sources were silenced, are functions
of them. -/
theorem tracks_of_run {ed25519 : Ed25519} {board : Board} {s t : IrqKernel}
    {calls : List IrqCall} (hinit : (irqMachine ed25519 board).init s)
    (hrun : (irqMachine ed25519 board).Run s calls t) :
    Tracks board s.plic t.plic (claimsOf calls) := by
  induction calls using List.reverseRecOn generalizing t with
  | nil =>
    obtain rfl := Machine.run_nil.mp hrun
    obtain ⟨hboard, -, -, regs, hboot⟩ := hinit
    exact .boot hboard hboot
  | append_singleton calls c ih =>
    obtain ⟨m, hrun, hstep⟩ := Machine.run_snoc.mp hrun
    rw [claimsOf_snoc]
    exact (ih hrun).step hstep

/-- **A Ctrl-R** resets the system in the step it comes in: the trap claims the UART's source, and
finds it among the bytes, unless this is the claim that silences the source. -/
theorem Tracks.resets {ed25519 : Ed25519} {board : Board} {s₀ : Plic} {m t : IrqKernel}
    {calls : List IrqCall} {c : IrqCall} (h : Tracks board s₀ m.plic (claimsOf calls))
    (hstep : IrqKernel.step ed25519 board m c = some t) :
    t.hart = .reset ↔ ∃ earlier scause rx,
      calls ++ [c] = earlier ++ [.trap scause board.uartIrq rx] ∧ External scause ∧ ctrlR ∈ rx ∧
      streakOf board.uartIrq (sourcesOf (claimsOf (calls ++ [c]))) ≠ sameIrqLimit.toNat := by
  rw [claimsOf_snoc]
  cases c with
  | call call =>
    obtain ⟨hm, -, fast, -, rfl⟩ := IrqKernel.step_call hstep
    constructor
    · intro he
      rw [hm] at he
      cases he
    · rintro ⟨earlier, scause, rx, he, -⟩
      cases List.singleton_inj.mp (List.append_inj' he rfl).2
  | trap scause irq rx =>
    obtain ⟨hm, hguard, rfl⟩ := IrqKernel.step_trap hstep
    by_cases hext : External scause
    · obtain ⟨-, hirq⟩ := hguard hext
      rw [claimsOf_trap, if_pos hext, (handleTrap_plic board m hext irq rx).2]
      have hcount : irq = board.uartIrq → (m.plic.nextRun irq = sameIrqLimit ↔
          streakOf irq (sourcesOf (claimsOf calls ++ [irq])) = sameIrqLimit.toNat) := by
        intro huart
        have hpos : irq ≠ 0 := huart ▸ uartIrq_ne_zero board
        rw [← h.toNat_nextRun hpos (hirq.resolve_left hpos)]
        exact BitVec.toNat_inj.symm
      constructor
      · intro he
        split at he
        · rename_i hreset
          obtain ⟨-, hlimit, huart, hdrain⟩ := hreset
          refine ⟨calls, scause, rx, by rw [huart], hext, drainUart_iff.mp hdrain, ?_⟩
          rw [← huart]
          exact fun hstreak => hlimit ((hcount huart).mpr hstreak)
        · rw [hm] at he
          cases he
      · rintro ⟨earlier, scause', rx', he, -, hctrl, hstreak⟩
        have hlast := List.singleton_inj.mp (List.append_inj' he rfl).2
        obtain ⟨rfl, rfl, rfl⟩ := IrqCall.trap.inj hlast
        refine if_pos ⟨uartIrq_ne_zero board, fun hlimit => hstreak ((hcount rfl).mp hlimit), rfl,
          drainUart_iff.mpr hctrl⟩
    · rw [claimsOf_trap, if_neg hext, List.append_nil]
      constructor
      · intro he
        have hreset := (handleTrap_other board m hext irq rx).2 he
        rw [hm] at hreset
        cases hreset
      · rintro ⟨earlier, scause', rx', he, hext', -⟩
        obtain ⟨rfl, -, -⟩ := IrqCall.trap.inj (List.singleton_inj.mp (List.append_inj' he rfl).2)
        exact (hext hext').elim

/-- **Storms end.** In every run, the claims that come back empty are at most `SPURIOUS_LIMIT` in
a row, and then the hart listens no more; and a source that comes `SAME_IRQ_LIMIT` times in a row
is disabled and does not come again. Each claim of a source is completed, once, and the reboot
key works in each of them but the one that disables the console. -/
theorem storms_end {ed25519 : Ed25519} {board : Board} {s t : IrqKernel} {calls : List IrqCall}
    (hinit : (irqMachine ed25519 board).init s) (hrun : (irqMachine ed25519 board).Run s calls t) :
    Weathered board s calls t := by
  have hkept := tracks_of_run hinit hrun
  refine
    { completed := hkept.accesses
      masked := hkept.masked
      spurious := hkept.spurious
      silenced := hkept.silenced
      presents := hkept.presents
      reset := ?_ }
  rcases List.eq_nil_or_concat calls with rfl | ⟨calls, c, rfl⟩
  · obtain rfl := Machine.run_nil.mp hrun
    constructor
    · intro he
      rw [hinit.2.2.1] at he
      cases he
    · rintro ⟨earlier, scause, rx, he, -⟩
      exact (List.append_ne_nil_of_right_ne_nil _ (List.cons_ne_nil _ _) he.symm).elim
  · -- the last step is the one that resets the system
    rw [List.concat_eq_append] at hrun ⊢
    obtain ⟨m, hrun, hstep⟩ := Machine.run_snoc.mp hrun
    exact (tracks_of_run hinit hrun).resets hstep

/-- Somebody presses Ctrl-R, and the machine is reset. -/
theorem storms_end_reboot : ∃ s t calls,
    (irqMachine (fun _ _ _ => false) .qemu).init s ∧
    (irqMachine (fun _ _ _ => false) .qemu).Run s calls t ∧ t.hart = .reset ∧
    Weathered .qemu s calls t := by
  obtain ⟨s, hinit, -, hrunning, hseie, -, huart, -⟩ := qemu_boots fun _ _ _ => false
  have hstep :
      (irqMachine (fun _ _ _ => false) .qemu).step s (.trap scauseExternal 10 [0x61, ctrlR]) =
      some (s.handleTrap .qemu scauseExternal 10 [0x61, ctrlR]) :=
    if_pos ⟨hrunning, fun _ => ⟨hseie, .inr huart⟩⟩
  have hrun := Machine.Run.cons hstep (.nil _)
  have hweathered := storms_end hinit hrun
  exact ⟨s, _, _, hinit, hrun,
    hweathered.reset.mpr ⟨[], _, _, rfl, by decide, by decide, by decide⟩,
    hweathered⟩

end Wari
