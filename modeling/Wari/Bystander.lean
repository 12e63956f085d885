import Wari.Guards
import Wari.Pairing
import Wari.Registrar

/-!
# Bystanders

What a step of the others does to a process that is queued at no endpoint: it lets it go
where it waits for a record, and nothing else (`systemStep_beside`). So a process that
uses no IPC can be followed by itself, whatever the others do, and whether or not their
endpoints go from under them. It keeps its capabilities too (`systemStep_capAt`), and what
is recorded is told (`systemStep_tells`).
-/

namespace Wari

/-- The process that takes a turn, whichever kind of turn it is. -/
def Turn.proc : Turn → Proc
  | .dispatch p _ | .compute p _ | .ipc p .. | .eventRead p .. | .finish p _ => p

/-- The process that takes a step. Staging and spawning are the kernel's. -/
def SystemCall.caller : SystemCall → Option (BitVec 8)
  | .turn t => some (procByte t.proc)
  | .cap call => some call.procId
  | .stage _ => none
  | .spawn .. => none

namespace Kernel

/-- `p` is in no queue, and waits at no endpoint. A process that never calls IPC stays so, whoever
else does. -/
structure Aloof (k : Kernel) (p : Proc) : Prop where
  queue : ∀ side e, p ∉ k.queue side e
  wait : k.rendezvous.wait p = none

/-- What a step of the others does to `p`. There are three cases and no more: nothing; it lets `p`
go from its wait for a record, and has it return `1`; or it brings `p` up, where there was no
process before. This is all a process that uses no IPC has to expect of the rest of the system. -/
inductive Beside (k k' : Kernel) (p : Proc) : Prop where
  /-- nothing -/
  | still (hproc : k'.processes p = k.processes p) (hpool : k'.tier1Pool p = k.tier1Pool p)
      (hring : p ∈ k'.ringWaiterList ↔ p ∈ k.ringWaiterList)
  /-- it waited for a record, and is woken -/
  | woken (hring : p ∈ k.ringWaiterList) (hgone : p ∉ k'.ringWaiterList)
      (hproc : k'.processes p = (k.processes p).map Process.wake)
      (hpool : k'.tier1Pool p =
        (k.tier1Pool p).map fun slot => { slot with pendingResume := 1 })
  /-- it is new -/
  | spawned {proc : Process} (hfree : k.processes p = none) (hproc : k'.processes p = some proc)
      (hready : proc.state = .ready) (hpool : k.tier1Pool p = none → k'.tier1Pool p = none)
      (hring : p ∈ k'.ringWaiterList → p ∈ k.ringWaiterList)

/-- If there was a record, `p` is not left waiting for it. With `Beside` this says that `p` is
woken in time, not only that nothing worse happens to it. -/
def Heard (k k' : Kernel) (p : Proc) : Prop :=
  k'.events.nextSeq = k.events.nextSeq ∨ p ∉ k'.ringWaiterList

/-- A step of the others that does nothing to `p`, as far as `p` can tell. It composes, so the
parts of a host function can be taken one after another. -/
structure Spared (k k' : Kernel) (p : Proc) : Prop where
  process : k'.processes p = k.processes p
  pool : k'.tier1Pool p = k.tier1Pool p
  next : k'.events.nextSeq = k.events.nextSeq
  ring : p ∈ k'.ringWaiterList ↔ p ∈ k.ringWaiterList
  queue : (∀ side e, p ∉ k.queue side e) → ∀ side e, p ∉ k'.queue side e

section Beside

variable {k k₁ k' : Kernel} {p q : Proc}

theorem queue_congr (h : k'.endpoint? = k.endpoint?) : k'.queue = k.queue := by
  funext side e
  rw [queue, queue, h]

theorem Stirred.beside (h : k.Stirred k' p) : k.Beside k' p := by
  have hpool := h.pool
  rcases h.process with hproc | ⟨hfree, proc, hproc, hready⟩
  · by_cases hgo : k.LetGo k' p
    · rw [if_pos hgo] at hproc hpool
      exact .woken hgo.1 hgo.2 hproc hpool
    · rw [if_neg hgo] at hproc hpool
      refine .still hproc hpool ⟨h.ring, fun hmem => ?_⟩
      by_contra hgone
      exact hgo ⟨hmem, hgone⟩
  · exact .spawned hfree hproc hready h.pool_eq_none h.ring

/-- Records let everybody go: to wake is part of making one. -/
theorem Told.heardBy {n : ℕ} (h : k.Told k' n) (p : Proc) : k.Heard k' p := by
  rcases Nat.eq_zero_or_pos n with rfl | hpos
  · left
    rw [h.next]
    exact BitVec.add_zero _
  · right
    intro hmem
    obtain ⟨i, hi⟩ := mem_ringWaiterList.mp hmem
    rw [h.heard hpos i] at hi
    cases hi

namespace Spared

theorem refl (k : Kernel) (p : Proc) : k.Spared k p := ⟨rfl, rfl, rfl, Iff.rfl, id⟩

theorem trans (h₁ : k.Spared k₁ p) (h₂ : k₁.Spared k' p) : k.Spared k' p :=
  ⟨h₂.process.trans h₁.process, h₂.pool.trans h₁.pool, h₂.next.trans h₁.next,
    h₂.ring.trans h₁.ring, fun h => h₂.queue (h₁.queue h)⟩

/-- Where a step has two parts and the first does nothing to `p`, the second may do more. -/
theorem then_beside (h₁ : k.Spared k₁ p) (h₂ : k₁.Beside k' p) : k.Beside k' p := by
  cases h₂ with
  | still hproc hpool hring =>
    exact .still (hproc.trans h₁.process) (hpool.trans h₁.pool) (hring.trans h₁.ring)
  | woken hmem hgone hproc hpool =>
    rw [h₁.process] at hproc
    rw [h₁.pool] at hpool
    exact .woken (h₁.ring.mp hmem) hgone hproc hpool
  | spawned hfree hproc hready hpool hring =>
    rw [h₁.process] at hfree
    rw [h₁.pool] at hpool
    rw [h₁.ring] at hring
    exact .spawned hfree hproc hready hpool hring

theorem then_heard (h₁ : k.Spared k₁ p) (h₂ : k₁.Heard k' p) : k.Heard k' p :=
  h₂.imp_left fun hsame => hsame.trans h₁.next

theorem beside (h : k.Spared k' p) : k.Beside k' p := .still h.process h.pool h.ring

theorem of_local (h : k.Local k' q) (hpq : p ≠ q) : k.Spared k' p := by
  obtain ⟨hproc, hpool⟩ := h.others p hpq
  refine ⟨hproc, hpool, by rw [h.events], by rw [h.ringWaiterList_eq], fun hp side e => ?_⟩
  rw [queue_congr h.endpoints]
  exact hp side e

theorem deliverAndWake (k : Kernel) (hpq : p ≠ q) (msg : Option MsgRegs) (rc : ℤ) :
    k.Spared (k.deliverAndWake q msg rc) p := by
  refine ⟨?_, by rw [tier1Pool_deliverAndWake, if_neg hpq], ?_, ?_, ?_⟩
  · cases msg <;> simp [Kernel.deliverAndWake, setMsgRegs, hpq]
  · rw [events_deliverAndWake]
  · rw [ringWaiterList, ringWaiterList, events_deliverAndWake]
  · cases msg <;> exact id

theorem setQueue {side : Side} {e : ℕ} {que : BoundedQueue TcbRef 8} {ep : Endpoint}
    (hep : k.endpoint? e = some ep)
    (hque : (∀ side e, p ∉ k.queue side e) → p ∉ que.toList) :
    k.Spared (k.setQueue side e que) p := by
  refine ⟨rfl, rfl, rfl, Iff.rfl, fun hp side' e' => ?_⟩
  rw [k.queue_setQueue side e que hep]
  split
  · exact hque hp
  · exact hp side' e'

/-- The first is taken off a queue, which puts nobody onto it. -/
theorem popped {side : Side} {e : ℕ} {que : BoundedQueue TcbRef 8}
    (h : k.Popped side e q que) : k.Spared (k.setQueue side e que) p := by
  have hlist := h.queue_eq
  obtain ⟨ep, hep, -⟩ := h
  refine setQueue hep fun hp hmem => hp side e ?_
  rw [hlist]
  exact List.mem_cons_of_mem _ hmem

/-- Another process is put onto a queue, which leaves `p` off it if it was. -/
theorem pushed {side : Side} {e : ℕ} {que : BoundedQueue TcbRef 8}
    (h : k.Pushed side e q que) (hpq : p ≠ q) : k.Spared (k.setQueue side e que) p := by
  have hlist := h.toList_eq
  obtain ⟨ep, hep, -⟩ := h
  refine setQueue hep fun hp hmem => ?_
  rw [hlist] at hmem
  rcases List.mem_append.mp hmem with hold | hnew
  · exact hp side e hold
  · exact hpq (List.mem_singleton.mp hnew)

end Spared

/-! ## Turns of the others

A host function of another process changes what is its own, and wakes whom it found in a queue.
The process that is in no queue is left with one way to be reached, the waiters on the audit
stream. -/

theorem Popped.ne {side : Side} {e : ℕ} {que : BoundedQueue TcbRef 8}
    (h : k.Popped side e q que) (hp : k.Aloof p) : p ≠ q := by
  rintro rfl
  apply hp.queue side e
  rw [h.queue_eq]
  exact List.mem_cons_self

/-- **An IPC operation** meets whoever is queued or awaits a reply, and nobody else. Each case
touches the caller, and a peer it found in a queue or in a wait for a reply. -/
theorem IpcEffect.spared {slot msgPtr : BitVec 32} {op : Op} {rc : Option ℤ}
    (h : IpcEffect k q slot msgPtr op (rc, k')) (hpq : p ≠ q) (hp : k.Aloof p) :
    k.Spared k' p := by
  have hregs : ∀ msg, k.Spared (k.setMsgRegs q msg) p := fun msg =>
    .of_local (k.local_modifyProcess q _) hpq
  have hblock : ∀ (k : Kernel) reason e, k.Spared (k.blockAndYield q reason e msgPtr) p :=
    fun k reason e => .of_local (k.local_modifyProcess q _) hpq
  have hinst : ∀ (k : Kernel) slot, k.Spared (k.setInstance q slot) p :=
    fun k slot => .of_local (k.local_setInstance q slot) hpq
  cases h with
  | refused => exact .refl k p
  | full => exact hregs _
  | @sent e r que msg he hmsg hpop =>
    have hpop' : (k.setMsgRegs q msg).Popped .receivers e r que := hpop
    exact ((hregs msg).trans (.popped hpop')).trans (.deliverAndWake _ (hpop.ne hp) _ _)
  | @called e r que msg he hmsg hpop =>
    have hpop' : (k.setMsgRegs q msg).Popped .receivers e r que := hpop
    exact (((hregs msg).trans (.popped hpop')).trans (.deliverAndWake _ (hpop.ne hp) _ _)).trans
      (hblock _ _ _)
  | @queued op reason e que msg hop he hmsg hempty hpush =>
    have hpush' : (k.setMsgRegs q msg).Pushed .senders e q que := hpush
    exact ((hregs msg).trans (.pushed hpush' hpq)).trans (hblock _ _ _)
  | received he hpop =>
    exact ((Spared.popped hpop).trans (hinst _ _)).trans (.deliverAndWake _ (hpop.ne hp) _ _)
  | receivedCall he hpop =>
    exact ((Spared.popped hpop).trans (hinst _ _)).trans
      (.of_local (local_modifyProcess _ _ _) (hpop.ne hp))
  | dropped hrc he hpop => exact .popped hpop
  | awaited he hempty hpush => exact (Spared.pushed hpush hpq).trans (hblock _ _ _)
  | @replied e r msg he hmsg hreply =>
    refine .deliverAndWake k ?_ _ _
    rintro rfl
    cases hp.wait.symm.trans (replyWaiterOn_some hreply).1

/-- Another's place among those who wait for a record. -/
theorem registerWaiter_spared (h : k.registerWaiter q = some k₁) (hpq : p ≠ q) :
    k.Spared k₁ p := by
  simp only [registerWaiter] at h
  split at h
  · obtain rfl := Option.some.inj h
    exact .refl k p
  · split at h
    · cases h
    · rename_i i hfind
      have hfree : k.events.ringWaiters i = none :=
        Option.isNone_iff_eq_none.mp (find?_finRange hfind).1
      obtain rfl := Option.some.inj h
      refine ⟨rfl, rfl, rfl, ?_, id⟩
      simp only [mem_ringWaiterList]
      constructor
      · rintro ⟨j, hj⟩
        rw [Function.update_apply] at hj
        split at hj
        · exact (hpq (Option.some.inj hj).symm).elim
        · exact ⟨j, hj⟩
      · rintro ⟨j, hj⟩
        have hne : j ≠ i := by
          rintro rfl
          rw [hfree] at hj
          cases hj
        exact ⟨j, by rw [Function.update_of_ne hne, hj]⟩

theorem returnEvent_spared (k : Kernel) (hpq : p ≠ q) (outPtr : BitVec 32) (e : Event) (rc : ℤ) :
    k.Spared (k.returnEvent q outPtr e rc).2 p := by
  simp only [returnEvent]
  rcases hwrite : k.writeMemory q outPtr (encodeEvent e) with rc' | k'
  · exact .refl k p
  · obtain ⟨slot, memory, -, rfl⟩ := writeMemory_ok hwrite
    exact .of_local (k.local_setInstance q _) hpq

theorem eventReadImpl_spared (k : Kernel) (hpq : p ≠ q) (cursorLo cursorHi outPtr : BitVec 32) :
    k.Spared (k.eventReadImpl q cursorLo cursorHi outPtr).2 p := by
  simp only [eventReadImpl]
  split
  · exact .refl k p
  · split
    · rcases hreg : k.registerWaiter q with _ | k₁
      · exact .refl k p
      · exact (registerWaiter_spared hreg hpq).trans (.of_local (k₁.local_modifyProcess q _) hpq)
    · exact k.returnEvent_spared hpq outPtr _ 0
    · exact k.returnEvent_spared hpq outPtr _ 2

/-- The state of a running tenant through a host function. -/
theorem settleBlocked_stirred (k : Kernel) (hpq : p ≠ q) {s : ProcessState}
    (hq : k.stateAt q = some s) : k.Stirred (k.settleBlocked q) p := by
  simp only [settleBlocked]
  split
  · exact (finish_ended hq .faulted).others p hpq
  · rename_i slot _
    have hpark := (k.local_setInstance q { slot with parked := true }).stirred hpq
    split
    · exact hpark
    · split
      · exact hpark
      · apply hpark.trans
        apply (release_stirred _ hpq).trans
        apply (setState_stirred _ hpq _).trans
        exact onTenantTerminated_stirred _ q p

theorem told_settleBlocked (k : Kernel) (q : Proc) :
    ∃ n ≤ 2, k.Told (k.settleBlocked q) n := by
  simp only [settleBlocked]
  split
  · obtain ⟨n, hn, -, htold⟩ := k.told_finish q .faulted
    exact ⟨n, hn, htold⟩
  · rename_i slot _
    split
    · exact ⟨0, by omega, .of_events rfl⟩
    · split
      · exact ⟨0, by omega, .of_events rfl⟩
      · obtain ⟨n, hn, htold⟩ := told_onTenantTerminated
          (((k.setInstance q { slot with parked := true }).release q).setState q .faulted) q
        have hbefore : k.Told
          (((k.setInstance q { slot with parked := true }).release q).setState q .faulted) 0 :=
          .of_events rfl
        exact ⟨0 + n, by omega, hbefore.trans htold⟩

/-- To wake a process that waits at no endpoint makes it wait at none. -/
theorem wait_woken {s : ProcessState} (h : s.wait = none) : s.woken.wait = none := by
  cases s <;> first | exact h | rfl

theorem Beside.wait (h : k.Beside k' p) (hp : k.rendezvous.wait p = none) :
    k'.rendezvous.wait p = none := by
  cases h with
  | still hproc => exact (wait_congr (stateAt_congr hproc)).trans hp
  | woken _ _ hproc =>
    change (k'.stateAt p).bind ProcessState.wait = none
    rw [stateAt, hproc, Option.map_map]
    rcases hbefore : k.processes p with _ | proc
    · rfl
    · have hstate : k.stateAt p = some proc.state := by
        rw [stateAt, hbefore]
        rfl
      rw [wait_of_stateAt hstate] at hp
      change proc.wake.state.wait = none
      rw [Process.state_wake]
      exact wait_woken hp
  | spawned hfree hproc hready =>
    have hstate : k'.stateAt p = some .ready := by
      rw [stateAt, hproc, ← hready]
      rfl
    exact wait_of_stateAt hstate

/-- What stirs `p` at most leaves it as it was or hands it the record that it waited for. -/
theorem Stirred.bystander {n : ℕ} (h : k.Stirred k' p) (htold : k.Told k' n) (hp : k.Aloof p) :
    k.Beside k' p ∧ k.Heard k' p ∧ k'.Aloof p := by
  refine ⟨h.beside, htold.heardBy p, fun side e => ?_, h.beside.wait hp.wait⟩
  rw [queue_congr h.endpoints]
  exact hp.queue side e

/-- The same where something that spared `p` came before: the two steps together are no more than
the second. -/
theorem Spared.bystander {n : ℕ} (h₁ : k.Spared k₁ p) (h : k₁.Stirred k' p)
    (htold : k₁.Told k' n) (hp : k.Aloof p) : k.Beside k' p ∧ k.Heard k' p ∧ k'.Aloof p := by
  have hp₁ : k₁.Aloof p := ⟨h₁.queue hp.queue, h₁.beside.wait hp.wait⟩
  obtain ⟨hbeside, hheard, haloof⟩ := h.bystander htold hp₁
  exact ⟨h₁.then_beside hbeside, h₁.then_heard hheard, haloof⟩

/-- What a host function of another does, once it is settled. -/
theorem afterHostFn_bystander {rc : Option ℤ} {s : ProcessState} (hpq : p ≠ q)
    (h : k.Spared k₁ p) (hq : k₁.stateAt q = some s) (hp : k.Aloof p) :
    k.Beside (afterHostFn q (rc, k₁)) p ∧ k.Heard (afterHostFn q (rc, k₁)) p ∧
      (afterHostFn q (rc, k₁)).Aloof p := by
  cases rc with
  | some rc => exact h.bystander (.of_eq rfl rfl rfl rfl) (.of_events rfl) hp
  | none =>
    obtain ⟨n, -, htold⟩ := k₁.told_settleBlocked q
    exact h.bystander (k₁.settleBlocked_stirred hpq hq) htold hp

/-- A turn of another process. What can reach `p` is only a record that it waits for. -/
theorem turn_bystander {t : Turn} (h : k.turn t = some k') (ht : t.proc ≠ p) (hp : k.Aloof p) :
    k.Beside k' p ∧ k.Heard k' p ∧ k'.Aloof p := by
  rcases turn_cases h with ⟨q, image, rfl, hready, rfl⟩ | ⟨q, memory, slot, rfl, hrun, -, rfl⟩ |
    ⟨q, op, slot, msgPtr, rfl, hrun, rfl⟩ | ⟨q, lo, hi, ptr, rfl, hrun, rfl⟩ |
    ⟨q, ending, rfl, hrun, rfl⟩
  · have hpq : p ≠ q := fun hq => ht hq.symm
    obtain ⟨n, -, htold⟩ := told_dispatch k q image
    refine Stirred.bystander ?_ htold hp
    rcases dispatch_effect hready image with hentered | ⟨hended, -⟩
    · exact hentered.seat.stirred hpq
    · exact hended.others p hpq
  · have hpq : p ≠ q := fun hq => ht hq.symm
    exact ((k.local_setInstance q _).stirred hpq).bystander (.of_events rfl) hp
  · have hpq : p ≠ q := fun hq => ht hq.symm
    have heffect := k.ipcImpl_effect q op slot msgPtr
    generalize k.ipcImpl q op slot msgPtr = out at heffect ⊢
    obtain ⟨rc, k₁⟩ := out
    have hcalm := heffect.calm (not_overAt_of_stateAt hrun id)
    obtain ⟨s, hs, -⟩ := hcalm.stateAt hrun id
    exact afterHostFn_bystander hpq (heffect.spared hpq hp) hs hp
  · have hpq : p ≠ q := fun hq => ht hq.symm
    have hspared := k.eventReadImpl_spared hpq lo hi ptr
    have hcalm := calm_eventReadImpl k q lo hi ptr (not_overAt_of_stateAt hrun id)
    generalize k.eventReadImpl q lo hi ptr = out at hspared hcalm ⊢
    obtain ⟨rc, k₁⟩ := out
    obtain ⟨s, hs, -⟩ := hcalm.stateAt hrun id
    exact afterHostFn_bystander hpq hspared hs hp
  · have hpq : p ≠ q := fun hq => ht hq.symm
    obtain ⟨n, -, -, htold⟩ := k.told_finish q ending
    exact ((finish_ended hrun ending).others p hpq).bystander htold hp

/-- **A step of the others** lets `p` go where it waits for a record, and does nothing else to it;
and if it made a record, `p` is not left waiting. By the kinds of step: turns, capability calls,
staging and spawning. -/
theorem systemStep_beside {ed25519 : Ed25519} {call : SystemCall}
    (h : systemStep ed25519 k call = some k') (hcall : call.caller ≠ some (procByte p))
    (htable : k.caps.ParentsInTable) (hp : k.Aloof p) :
    k.Beside k' p ∧ k.Heard k' p ∧ k'.Aloof p := by
  cases call with
  | turn t => exact turn_bystander h (fun ht => hcall (by rw [← ht]; rfl)) hp
  | cap call =>
    simp only [systemStep] at h
    split at h
    · obtain ⟨⟨r, st⟩, hstep, rfl⟩ := Option.map_eq_some_iff.mp h
      refine ⟨.still rfl rfl Iff.rfl, .inl rfl, fun side e hmem => ?_, hp.wait⟩
      -- an endpoint that is there has the queues it had
      have hthere := hasEndpoint_of_mem side hmem
      rw [queue_capStep htable hstep hthere] at hmem
      exact hp.queue side e hmem
    · cases h
  | stage bytes =>
    obtain rfl := Option.some.inj h
    obtain ⟨n, -, htold⟩ := k.told_stage bytes
    exact (k.stage_stirred bytes p).bystander htold hp
  | spawn slot requested restartBudget =>
    obtain rfl := Option.some.inj h
    obtain ⟨n, -, htold⟩ := k.told_spawnInner ed25519 slot requested restartBudget
    exact (k.spawnInner_stirred ed25519 slot requested restartBudget p).bystander htold hp

end Beside

/-! ## Those who wait for a record

The list of waiters has a place for each process. That this is enough needs that nobody is on it
twice. -/

/-- Nobody waits twice for a record: no process stands in two entries of the set of waiters. -/
def Once (k : Kernel) : Prop :=
  ∀ i j q, k.events.ringWaiters i = some q → k.events.ringWaiters j = some q → i = j

section Once

variable {k k₁ k' : Kernel} {p : Proc}

theorem once_booted (board : Board) : (booted board).Once := by
  intro i j q hi
  cases hi

theorem Once.congr (h : k.Once) (hsame : k'.events.ringWaiters = k.events.ringWaiters) :
    k'.Once := by
  intro i j q hi hj
  rw [hsame] at hi hj
  exact h i j q hi hj

/-- Where a record was written nobody is left in the set of waiters, and otherwise the set is as
it was. -/
theorem Told.once {n : ℕ} (h : k.Told k' n) (hk : k.Once) : k'.Once := by
  rcases Nat.eq_zero_or_pos n with hzero | hpos
  · exact hk.congr (h.silent hzero)
  · intro i j q hi
    rw [h.heard hpos] at hi
    cases hi

theorem registerWaiter_once (h : k.registerWaiter p = some k₁) (hk : k.Once) : k₁.Once := by
  by_cases hin : ∃ i, k.events.ringWaiters i = some p
  · rw [registerWaiter, if_pos hin] at h
    obtain rfl := Option.some.inj h
    exact hk
  · obtain ⟨i, -, rfl⟩ := registerWaiter_cases h (not_exists.mp hin)
    intro j j' q hj hj'
    simp only [Function.update_apply] at hj hj'
    split at hj <;> split at hj'
    · rename_i hji hji'
      rw [hji, hji']
    · obtain rfl := Option.some.inj hj
      exact (hin ⟨j', hj'⟩).elim
    · obtain rfl := Option.some.inj hj'
      exact (hin ⟨j, hj⟩).elim
    · exact hk j j' q hj hj'

theorem IpcEffect.events {slot msgPtr : BitVec 32} {op : Op} {rc : Option ℤ}
    (h : IpcEffect k p slot msgPtr op (rc, k')) : k'.events = k.events := by
  cases h <;> simp [setMsgRegs, setQueue, blockAndYield]

theorem afterHostFn_once {rc : Option ℤ} (h : k.Once) : (afterHostFn p (rc, k)).Once := by
  cases rc with
  | some rc => exact h.congr rfl
  | none =>
    obtain ⟨n, -, htold⟩ := k.told_settleBlocked p
    exact htold.once h

theorem turn_once {t : Turn} (h : k.turn t = some k') (hk : k.Once) : k'.Once := by
  rcases turn_cases h with ⟨q, image, -, -, rfl⟩ | ⟨q, memory, slot, -, -, -, rfl⟩ |
    ⟨q, op, slot, msgPtr, -, -, rfl⟩ | ⟨q, lo, hi, ptr, -, -, rfl⟩ | ⟨q, ending, -, -, rfl⟩
  · obtain ⟨n, -, htold⟩ := told_dispatch k q image
    exact htold.once hk
  · exact hk.congr rfl
  · have heffect := k.ipcImpl_effect q op slot msgPtr
    generalize k.ipcImpl q op slot msgPtr = out at heffect ⊢
    obtain ⟨rc, k₁⟩ := out
    exact afterHostFn_once (hk.congr (congrArg Events.ringWaiters heffect.events))
  · rcases k.eventReadImpl_cases q lo hi ptr with ⟨-, hevents, -⟩ | ⟨-, k₁, hreg, hout⟩
    · generalize k.eventReadImpl q lo hi ptr = out at hevents ⊢
      obtain ⟨rc, k₁⟩ := out
      exact afterHostFn_once (hk.congr (congrArg Events.ringWaiters hevents))
    · rw [hout]
      exact afterHostFn_once ((registerWaiter_once hreg hk).congr rfl)
  · obtain ⟨n, -, -, htold⟩ := k.told_finish q ending
    exact htold.once hk

/-- **No step** makes anybody wait twice: a process is entered only where it is not in the set,
and records only empty the set. -/
theorem systemStep_once {ed25519 : Ed25519} {call : SystemCall}
    (h : systemStep ed25519 k call = some k') (hk : k.Once) : k'.Once := by
  cases call with
  | turn t => exact turn_once h hk
  | cap call =>
    simp only [systemStep] at h
    split at h
    · obtain ⟨⟨r, st⟩, -, rfl⟩ := Option.map_eq_some_iff.mp h
      exact hk.congr rfl
    · cases h
  | stage bytes =>
    obtain rfl := Option.some.inj h
    obtain ⟨n, -, htold⟩ := k.told_stage bytes
    exact htold.once hk
  | spawn slot requested restartBudget =>
    obtain rfl := Option.some.inj h
    obtain ⟨n, -, htold⟩ := k.told_spawnInner ed25519 slot requested restartBudget
    exact htold.once hk

end Once

/-! ## What is recorded

A step makes at most as many records as the ring holds, so what it made is still in the ring right
after it. -/

section Tells

variable {k k' : Kernel}

theorem TellsOther.tells (h : k.TellsOther k') :
    ∃ ms : List Emission, ms.length ≤ 2 ∧ k.Tells k' ms := by
  obtain ⟨ms, hlen, -, htells⟩ := h
  exact ⟨ms, hlen, htells⟩

theorem Terminated.tells {p : Proc} (h : Terminated k p k') :
    ∃ ms : List Emission, ms.length ≤ 2 ∧ k.Tells k' ms := by
  cases h with
  | lies => exact ⟨[], Nat.zero_le _, .of_stream rfl rfl⟩
  | gaveUp _ _ _ _ _ htells => exact ⟨[_], by simp, htells⟩
  | restarted _ _ _ _ _ htells => exact htells.tells

/-- **Every step** tells a few records at most, so that none of them is overwritten before the
step is over. -/
theorem systemStep_tells {ed25519 : Ed25519} {call : SystemCall}
    (h : systemStep ed25519 k call = some k') :
    ∃ ms : List Emission, ms.length ≤ 4 ∧ k.Tells k' ms := by
  have hfew : (∃ ms : List Emission, ms.length ≤ 2 ∧ k.Tells k' ms) →
      ∃ ms : List Emission, ms.length ≤ 4 ∧ k.Tells k' ms := by
    rintro ⟨ms, hlen, htells⟩
    exact ⟨ms, by omega, htells⟩
  cases systemStep_filed h with
  | calm hcalm => exact hfew ⟨[], Nat.zero_le _, hcalm.tells⟩
  | cap _ heq =>
    subst heq
    exact hfew ⟨[], Nat.zero_le _, .of_stream rfl rfl⟩
  | ended hends hend =>
    obtain ⟨ms₁, hlen₁, htells₁⟩ := hends.tells.tells
    obtain ⟨ms₂, hlen₂, htells₂⟩ := hend.tells
    refine ⟨ms₁ ++ ms₂, by rw [List.length_append]; omega, htells₁.trans htells₂ ?_⟩
    exact Nat.le_trans (show _ ≤ 4 by omega) (by decide)
  | staged _ _ hstaged =>
    cases hstaged with
    | refused => exact hfew ⟨[], Nat.zero_le _, .of_stream rfl rfl⟩
    | stored _ _ _ _ htells => exact hfew htells.tells
  | spawned _ _ hspawned =>
    cases hspawned with
    | refused => exact hfew ⟨[], Nat.zero_le _, .of_stream rfl rfl⟩
    | rejected _ _ _ _ _ _ htells => exact hfew htells.tells
    | live _ _ _ _ _ _ htells => exact hfew htells.tells

/-- **The news** go behind what was told before, and the ring holds the last of both. -/
theorem recorded_news {emitted ms : List Emission} (h : k.events.Recorded emitted)
    (htells : k.Tells k' ms) (hfew : ms.length ≤ ringCapacity) :
    k'.events.Recorded (emitted ++ ms) ∧
      records (emitted ++ ms) = records emitted ++ k.news k' := by
  have hnumber : ∀ j, k.events.nextSeq + BitVec.ofNat 64 j =
      BitVec.ofNat 64 (emitted.length + j) := by
    intro j
    rw [h.next, BitVec.ofNat_add]
  have hall : records (emitted ++ ms) = records emitted ++
      ms.mapIdx fun j m => m.record (BitVec.ofNat 64 (emitted.length + j)) := by
    simp [records, List.mapIdx_append, Nat.add_comm]
  refine ⟨⟨fun slot i e hslot hle he => ?_, ?_⟩, ?_⟩
  · rw [length_records, List.length_append] at hle
    rw [hall] at he
    rcases Nat.lt_or_ge i (records emitted).length with hlt | hge
    · -- an older record is less than a lap behind
      rw [List.getElem?_append_left hlt] at he
      rw [length_records] at hlt
      rw [htells.other slot fun j hj heq => ?_]
      · exact h.ring slot i e hslot (by rw [length_records]; omega) he
      · rw [hnumber] at heq
        have hval := (congrArg Fin.val heq).symm.trans hslot.symm
        rw [← ringSlot_ofNat] at hval
        change _ % 128 = _ % 128 at hval
        change _ ≤ i + 128 at hle
        omega
    · rw [List.getElem?_append_right hge, List.getElem?_mapIdx, Option.map_eq_some_iff] at he
      rw [length_records] at he hge
      obtain ⟨m, hm, rfl⟩ := he
      have hentry := htells.entry _ m hm
      rw [hnumber, Nat.add_sub_cancel' hge] at hentry
      rw [Nat.add_sub_cancel' hge, ← hentry]
      refine congrArg k'.events.ring (Fin.ext ?_)
      rw [← hslot, ringSlot_ofNat]
  · rw [htells.next, hnumber, List.length_append]
  · rw [hall, htells.news_eq hfew]
    simp only [hnumber]

end Tells

/-! ## Capabilities

Capabilities move by the calls of their owner, and by revocation along parents. A root capability
has no parent, so nobody else takes it away. -/

/-- What keeps the capabilities of a process its own: parents are in the table, and who has a root
capability there has it without a parent. -/
structure Rooted (k : Kernel) : Prop where
  tidy : Tidy k
  table : k.caps.ParentsInTable
  inside : ParentsLocal k.caps

theorem rooted_booted (board : Board) : (booted board).Rooted :=
  ⟨tidy_booted board, parentsInTable_bootState board, parentsLocal_bootState board⟩

section Rooted

variable {k k' : Kernel}

/-- What brings a module up at most installs its capabilities, and moves no other. -/
theorem MildBrings.rooted (h : k.MildBrings k') (hk : k.Rooted) :
    k'.Rooted ∧ ∀ p, k.processes p ≠ none →
      k'.processes p ≠ none ∧ ∀ s, k'.caps.capAt (p, s) = k.caps.capAt (p, s) := by
  have hgrows := h.grows hk.tidy hk.table
  obtain ⟨k₁, o, hmild, hbrings⟩ := h
  have hinside₁ : ParentsLocal k₁.caps := by
    intro a
    rw [hmild.capAt]
    exact hk.inside a
  rcases o with _ | ⟨q, granted⟩
  · have hmild' : k.Mild k' := hmild.trans (Quiet.mild hbrings)
    refine ⟨⟨hgrows.tidy, hgrows.table, fun a => ?_⟩, fun p hp =>
      ⟨fun hnone => hp ((hmild'.processes p).mp hnone), fun s => by rw [hmild'.capAt]⟩⟩
    rw [hmild'.capAt]
    exact hk.inside a
  · have hinst : k₁.Installed k' q granted := hbrings
    obtain ⟨hcap, -, -⟩ := hinst.capAt (hmild.tidy hk.tidy).eps
    refine ⟨⟨hgrows.tidy, hgrows.table, fun a hocc b hb => ?_⟩, fun p hp => ⟨fun hnone => ?_,
      fun s => ?_⟩⟩
    · rw [hcap] at hocc hb
      by_cases ha : a.1 = q
      · rw [if_pos ha, grantTable_parent] at hb
        cases hb
      · rw [if_neg ha] at hocc hb
        exact hinside₁ a hocc b hb
    · exact hp ((hmild.processes p).mp (hinst.processes_eq_none.mp hnone).2)
    · have hne : p ≠ q := by
        rintro rfl
        exact hp ((hmild.processes p).mp hinst.free)
      rw [hcap, if_neg hne, hmild.capAt]

/-- **A process keeps its capabilities** through the steps of the others. Revocation follows
parents, and a root capability has none. -/
theorem systemStep_capAt {ed25519 : Ed25519} {call : SystemCall}
    (h : systemStep ed25519 k call = some k') (hk : k.Rooted) :
    k'.Rooted ∧ ∀ p, k.processes p ≠ none → k'.processes p ≠ none ∧
      ((∀ c, call = .cap c → c.procId ≠ procByte p) →
        ∀ s, k'.caps.capAt (p, s) = k.caps.capAt (p, s)) := by
  have hbrings : k.MildBrings k' → k'.Rooted ∧ ∀ p, k.processes p ≠ none →
      k'.processes p ≠ none ∧ ((∀ c, call = .cap c → c.procId ≠ procByte p) →
        ∀ s, k'.caps.capAt (p, s) = k.caps.capAt (p, s)) := by
    intro hbrings
    obtain ⟨hrooted, hcaps⟩ := hbrings.rooted hk
    exact ⟨hrooted, fun p hp => ⟨(hcaps p hp).1, fun _ => (hcaps p hp).2⟩⟩
  cases call with
  | turn t => exact hbrings (turn_brings h)
  | cap c =>
    simp only [systemStep] at h
    split at h
    · obtain ⟨⟨r, st⟩, hstep, rfl⟩ := Option.map_eq_some_iff.mp h
      have heffect := capStep_effect hstep
      refine ⟨⟨heffect.tidy hk.tidy, heffect.parentsInTable hk.table,
        heffect.parentsLocal hk.inside⟩, fun p hp => ⟨hp, fun hother s => ?_⟩⟩
      have hsame := heffect.isolated hk.table hk.inside (hother c rfl)
      change (st.cspaces p).slots s = (k.caps.cspaces p).slots s
      rw [hsame]
    · cases h
  | stage bytes =>
    obtain rfl := Option.some.inj h
    exact hbrings (k.quiet_stage bytes).mild.brings
  | spawn slot requested restartBudget =>
    obtain rfl := Option.some.inj h
    exact hbrings ((Mild.refl k).then_brings
      (k.spawnInner_brings ed25519 slot requested restartBudget))

end Rooted

end Kernel

end Wari
