import Wari.Loop

/-!
# The system of tenants runs in the loop

`schedMachine` lets a host function do anything that no scheduling depends on, and wake,
take, register and emit as it likes. The host functions that block are made of these
steps, each in the order in which it takes them. So each turn of the system of tenants
is a few steps of the loop, and what holds in every run of the loop holds of that system.
-/

namespace Wari

open Lib (Machine)

namespace Sched

/-- In the turn of `p`, whose invocation is under way, steps of the tenant lead the kernel from
`k` to `k'`. The steps are those of `schedMachine`, and none of them ends the turn. -/
def Within (p : Proc) (k k' : Kernel) : Prop :=
  k.stateAt p = some .running → k.isLive p = true →
    k'.stateAt p = some .running ∧ k'.isLive p = true ∧
      ∀ s : Sched, s.turn = some p → s.kernel = k →
        ∃ is t, schedMachine.Run s is t ∧ t.turn = some p ∧ t.kernel = k'

section Within

variable {p : Proc} {k k₁ k₂ : Kernel}

theorem Within.refl (p : Proc) (k : Kernel) : Within p k k :=
  fun hrun hlive => ⟨hrun, hlive, fun s hturn hk => ⟨[], s, .nil s, hturn, hk⟩⟩

theorem Within.trans (h₁ : Within p k k₁) (h₂ : Within p k₁ k₂) : Within p k k₂ := by
  intro hrun hlive
  obtain ⟨hrun₁, hlive₁, hfirst⟩ := h₁ hrun hlive
  obtain ⟨hrun₂, hlive₂, hsecond⟩ := h₂ hrun₁ hlive₁
  refine ⟨hrun₂, hlive₂, fun s hturn hk => ?_⟩
  obtain ⟨is, t, hrun, hturn', hk'⟩ := hfirst s hturn hk
  obtain ⟨js, u, hrun', hturn'', hk''⟩ := hsecond t hturn' hk'
  exact ⟨is ++ js, u, hrun.append hrun', hturn'', hk''⟩

/-- One step in the turn of `p`, which leaves `p` running and its instance in the pool. -/
theorem Within.of_during {i : SchedStep}
    (hrun : k.stateAt p = some .running → k₁.stateAt p = some .running)
    (hlive : k.isLive p = true → k₁.isLive p = true)
    (h : ∀ s : Sched, s.kernel = k → ∃ t, s.during p i = some t ∧ t.turn = s.turn ∧ t.kernel = k₁) :
    Within p k k₁ := by
  intro hp hl
  refine ⟨hrun hp, hlive hl, fun s hturn hk => ?_⟩
  obtain ⟨t, hstep, hturn', hk'⟩ := h s hk
  have hs : schedMachine.step s i = some t :=
    (step_of_turn hturn (hk ▸ Kernel.unblocked_of_running hp) i).trans hstep
  exact ⟨[i], t, .cons hs (.nil t), hturn'.trans hturn, hk'⟩

/-- Something else written leaves states as they are, and instances where they are. -/
theorem write_seat (k : Kernel) (p : Proc) (w : HostWrite) :
    (k.write p w).stateAt = k.stateAt ∧ (k.write p w).isLive = k.isLive := by
  have hseat := fun q => seat_write (s := ⟨k, none, fun _ => false, fun _ => none⟩) (p := p)
    (q := q) w
  refine ⟨funext fun q => congrArg Seat.state (hseat q), funext fun q => ?_⟩
  have hslot := congrArg (fun a => Option.isSome a.slot) (hseat q)
  change ((k.write p w).tier1Pool q).isSome = (k.tier1Pool q).isSome
  simpa only [seat, Option.isSome_map] using hslot

theorem Within.write (w : HostWrite) : Within p k (k.write p w) := by
  obtain ⟨hstate, hlive⟩ := write_seat k p w
  refine .of_during (i := .writes w) (fun h => ?_) (fun h => ?_)
    fun s hk => ⟨_, rfl, rfl, by rw [hk]⟩
  · rw [hstate, h]
  · rw [hlive, h]

theorem Within.wake (peer : Proc) (msg : Option MsgRegs) (rc : ℤ) :
    Within p k (k.deliverAndWake peer msg rc) := by
  refine .of_during (i := .wakes peer msg rc) (fun h => ?_) (fun h => ?_)
    fun s hk => ⟨_, rfl, rfl, by rw [hk]⟩
  · rw [Kernel.stateAt_deliverAndWake]
    split
    · rename_i hp
      rw [← hp, h]
      rfl
    · exact h
  · rw [Kernel.isLive, Kernel.tier1Pool_deliverAndWake]
    split
    · rw [Option.isSome_map]
      exact h
    · exact h

/-- Nobody who runs is taken for a blocked caller. -/
theorem Within.take (q : Proc) : Within p k (k.take q) := by
  refine .of_during (i := .takes q) (fun h => ?_) (fun h => ?_)
    fun s hk => ⟨_, rfl, rfl, by rw [hk]⟩
  · rw [Kernel.take]
    split
    · rename_i epIdx hblocked
      have hpq : p ≠ q := by
        rintro rfl
        cases h.symm.trans hblocked
      rw [k.stateAt_modifyProcess q p (g := fun _ => .blocked .replyWait epIdx) fun _ => rfl,
        if_neg hpq, h]
    · exact h
  · rw [Kernel.take]
    split
    · exact h
    · exact h

theorem Within.setMsgRegs (q : Proc) (regs : MsgRegs) : Within p k (k.setMsgRegs q regs) :=
  .write (.msgRegs q regs)

theorem Within.setQueue (side : Side) (e : ℕ) (que : BoundedQueue TcbRef 8) :
    Within p k (k.setQueue side e que) :=
  .write (.caps (k.caps.modifyEndpoint e fun ep => ep.setQueue side que))

theorem Within.setMemory {slot : Tier1Slot} (hslot : k.tier1Pool p = some slot)
    (memory : Option (List (BitVec 8))) :
    Within p k (k.setInstance p { slot with memory := memory }) := by
  have hwrite : k.write p (.memory memory) = k.setInstance p { slot with memory := memory } := by
    rw [Kernel.write, hslot]
  rw [← hwrite]
  exact .write (.memory memory)

end Within

/-- What a host function of `p` returns with: the tenant runs on, or its steps end with it
blocked, and then its invocation is parked. Each IPC operation and each read of the stream is one
of these. -/
def Serves (p : Proc) (k : Kernel) : Option ℤ × Kernel → Prop
  | (some _, k') => Within p k k'
  | (none, k') => ∃ k₁ reason epIdx, Within p k k₁ ∧
      k' = k₁.block p reason epIdx

/-- Blocking on an endpoint serves the caller, who gets no result yet. -/
theorem serves_blockAndYield {p : Proc} {k k₁ : Kernel} (h : Within p k k₁)
    (reason : BlockReason) (e : ℕ) (msgPtr : BitVec 32) :
    Serves p k (none, k₁.blockAndYield p reason e msgPtr) := by
  refine ⟨k₁.write p (.msgBuf msgPtr), reason, BitVec.ofNat 8 e, h.trans (.write _), ?_⟩
  rw [Kernel.block, Kernel.write, Kernel.modifyProcess_modifyProcess]
  rfl

/-- **An IPC operation is made of the steps above**, whichever effect it has. -/
theorem serves_ipc {k : Kernel} {p : Proc} {slot msgPtr : BitVec 32} {op : Op}
    {out : Option ℤ × Kernel} (h : Kernel.IpcEffect k p slot msgPtr op out) : Serves p k out := by
  -- a sender off its queue, and its message in the memory of the receiver
  have hreceive : ∀ {side e que inst}, k.tier1Pool p = some inst → ∀ memory,
      Within p k ((k.setQueue side e que).setInstance p { inst with memory := memory }) := by
    intro side e que inst hinst memory
    have hslot : (k.setQueue side e que).tier1Pool p = some inst := hinst
    exact .trans (.setQueue side e que) (.setMemory hslot memory)
  cases h with
  | refused => exact .refl p k
  | full => exact .setMsgRegs p _
  | sent =>
    apply Within.trans (.setMsgRegs p _)
    exact Within.trans (.setQueue _ _ _) (.wake _ _ _)
  | called =>
    apply serves_blockAndYield
    apply Within.trans (.setMsgRegs p _)
    exact Within.trans (.setQueue _ _ _) (.wake _ _ _)
  | queued =>
    apply serves_blockAndYield
    exact Within.trans (.setMsgRegs p _) (.setQueue _ _ _)
  | received he hq hsender hwait hinst hmem hwrite => exact .trans (hreceive hinst _) (.wake _ _ _)
  | @receivedCall e q que sender inst memory memory' epIdx he hq hsender hwait hinst hmem hwrite =>
    have htake : ((k.setQueue .senders e que).setInstance p
          { inst with memory := some memory' }).take q =
        ((k.setQueue .senders e que).setInstance p
          { inst with memory := some memory' }).modifyProcess q fun proc =>
            proc.block .replyWait epIdx := by
      have hstate : k.stateAt q = some (.blocked .callWait epIdx) := by
        rw [Kernel.stateAt, hsender, ← hwait]
        rfl
      rw [Kernel.take, Kernel.stateAt_setInstance, Kernel.stateAt_setQueue, hstate]
    change Within p k _
    rw [← htake]
    exact .trans (hreceive hinst _) (.take q)
  | dropped => exact .setQueue _ _ _
  | awaited =>
    apply serves_blockAndYield
    exact .setQueue _ _ _
  | replied => exact .wake _ _ _

/-- **So is a read of the audit stream**: it writes to memory, or blocks its caller. -/
theorem serves_eventRead (k : Kernel) (p : Proc) (cursorLo cursorHi outPtr : BitVec 32) :
    Serves p k (k.eventReadImpl p cursorLo cursorHi outPtr) := by
  have hreturn : ∀ e rc, Serves p k (k.returnEvent p outPtr e rc) := by
    intro e rc
    simp only [Kernel.returnEvent]
    rcases hwrite : k.writeMemory p outPtr (encodeEvent e) with rc' | k'
    · exact .refl p k
    · obtain ⟨slot, memory, hslot, rfl⟩ := Kernel.writeMemory_ok hwrite
      exact .setMemory hslot memory
  simp only [Kernel.eventReadImpl]
  split
  · exact .refl p k
  · split
    · rcases hreg : k.registerWaiter p with _ | k'
      · exact .refl p k
      · obtain ⟨⟨events, rfl⟩, -⟩ := Kernel.registerWaiter_ok hreg
        exact ⟨_, _, _, .write (.events events), rfl⟩
    · exact hreturn _ 0
    · exact hreturn _ 2

/-- What is made of the steps above is a run of the loop. -/
theorem run_of_serves {s : Sched} {p : Proc} (hturn : s.turn = some p)
    (hrun : s.kernel.stateAt p = some .running) (hlive : s.kernel.isLive p = true)
    {out : Option ℤ × Kernel} (h : Serves p s.kernel out) :
    ∃ is t, schedMachine.Run s is t ∧ t.kernel = Kernel.afterHostFn p out := by
  obtain ⟨rc | rc, k'⟩ := out
  · obtain ⟨k₁, reason, epIdx, hwithin, rfl⟩ := h
    obtain ⟨hrun₁, hlive₁, hsteps⟩ := hwithin hrun hlive
    obtain ⟨is, t, hr, hturn', rfl⟩ := hsteps s hturn rfl
    have hstep := step_of_turn hturn' (Kernel.unblocked_of_running hrun₁) (.blocks reason epIdx)
    rw [during, if_pos hlive₁] at hstep
    exact ⟨_, _, hr.snoc hstep, rfl⟩
  · obtain ⟨-, -, hsteps⟩ := h hrun hlive
    obtain ⟨is, t, hr, -, hk⟩ := hsteps s hturn rfl
    exact ⟨is, t, hr, hk⟩

/-- **The system of tenants runs in the loop**: what it does in one step outside of start
sections, the loop does in a few. -/
theorem run_of_turn {s : Sched} {i : Turn} {k' : Kernel} (hok : ∀ q, (s.seat q).Ok)
    (hloaded : ∀ p, s.turn = some p → s.kernel.isLive p = true) (h : s.kernel.turn i = some k') :
    ∃ is t, schedMachine.Run s is t ∧ t.kernel = k' := by
  have hturn : ∀ {p}, s.kernel.stateAt p = some .running → s.turn = some p :=
    fun hrun => of_decide_eq_true ((hok _).of_running hrun)
  rcases Kernel.turn_cases h with ⟨p, image, rfl, hready, rfl⟩ |
    ⟨p, memory, slot, rfl, hrun, hslot, rfl⟩ | ⟨p, op, slot, msgPtr, rfl, hrun, rfl⟩ |
    ⟨p, lo, hi, ptr, rfl, hrun, rfl⟩ | ⟨p, ending, rfl, hrun, rfl⟩
  · have hhead : s.turn = none := by
      rcases hs : s.turn with _ | q
      · rfl
      · rcases (hok q).of_turn (decide_eq_true hs) with ⟨hrun, -⟩ | ⟨-, hnone⟩
        · simp only [Kernel.turn] at h
          split at h
          · rename_i hnobody
            exact (hnobody.2 q hrun).elim
          · cases h
        · have hlive := hloaded q hs
          rw [Kernel.isLive, Option.map_eq_none_iff.mp hnone] at hlive
          cases hlive
    have hs : schedMachine.step s (.dispatch p image) = some (s.enter p image) := by
      simp only [schedMachine, step, hhead, if_pos hready]
    exact ⟨_, _, .cons hs (.nil _), rfl⟩
  · have hp := hturn hrun
    obtain ⟨-, -, hsteps⟩ := Within.setMemory hslot (some memory) hrun (hloaded p hp)
    obtain ⟨is, t, hr, -, hk⟩ := hsteps s hp rfl
    exact ⟨is, t, hr, hk⟩
  · have hp := hturn hrun
    exact run_of_serves hp hrun (hloaded p hp)
      (serves_ipc (s.kernel.ipcImpl_effect p op slot msgPtr))
  · have hp := hturn hrun
    exact run_of_serves hp hrun (hloaded p hp) (serves_eventRead s.kernel p lo hi ptr)
  · have hp := hturn hrun
    have hstep := step_of_turn hp (Kernel.unblocked_of_running hrun) (.ends ending)
    rw [during, if_pos (hloaded p hp)] at hstep
    exact ⟨_, _, .cons hstep (.nil _), rfl⟩

end Sched

end Wari
