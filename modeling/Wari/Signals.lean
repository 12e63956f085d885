import Wari.Storms

/-!
# Interrupts and notifications

A process that waits for an interrupt asks whether its notification is signalled, and acks it
once it has dealt with it, either by a syscall or in a batch. Whatever else happens in the
kernel, a signal is there exactly where a trap claimed the source and nobody has acked it since.
There is one exception, and the guard against stuck sources makes it: the claim that takes a
source out of service is completed like any other, but signals nothing.
-/

namespace Wari

open Lib (Machine Chain Goes readAt streakOf)

/-! ## What keeps signals

Nothing but traps raises a signal, and nothing but acks clears one. Capability syscalls can take
the notification away. -/

namespace CapState

/-- The signals of the notification at `i`, where there is one. -/
def signals? (st : CapState) (i : ℕ) : Option (BitVec 32) :=
  (st.objectPools.notifications.get i).map Notification.signals

/-- The notification at `i` keeps its signals, or goes. -/
def KeepsSignals (st st' : CapState) (i : ℕ) : Prop :=
  st'.signals? i = none ∨ st'.signals? i = st.signals? i

variable {st st' st'' : CapState} {i : ℕ}

theorem KeepsSignals.of_pools (h : st'.objectPools.notifications = st.objectPools.notifications) :
    st.KeepsSignals st' i := by
  right
  rw [signals?, h, signals?]

theorem KeepsSignals.trans (h : st.KeepsSignals st' i) (h' : st'.KeepsSignals st'' i) :
    st.KeepsSignals st'' i := by
  rcases h' with hgone | hsame
  · exact .inl hgone
  · rw [KeepsSignals, hsame]
    exact h

theorem keepsSignals_incRefcount (st : CapState) (kind : ObjectKind) (index i : ℕ) :
    st.KeepsSignals (st.incRefcount kind index) i := by
  cases kind with
  | notification =>
    right
    change Option.map _ ((st.objectPools.notifications.incRefcount index).get i) = _
    rw [Pool.get_incRefcount]
    split
    · rename_i hi
      rw [hi, signals?, Option.map_map]
      rfl
    · rfl
  | _ => exact .of_pools rfl

theorem keepsSignals_decRefcount (st : CapState) (kind : ObjectKind) (index i : ℕ) :
    st.KeepsSignals (st.decRefcount kind index) i := by
  cases kind with
  | notification =>
    rw [KeepsSignals]
    change Option.map _ ((st.objectPools.notifications.decRefcount index).get i) = _ ∨
      Option.map _ ((st.objectPools.notifications.decRefcount index).get i) = _
    rw [Pool.get_decRefcount]
    split
    · rename_i hi
      rw [hi, signals?]
      rcases st.objectPools.notifications.get index with _ | notif
      · exact .inl rfl
      · change Option.map _ (dropRef notif) = _ ∨ Option.map _ (dropRef notif) = _
        rw [dropRef]
        split
        · exact .inl rfl
        · exact .inr rfl
    · exact .inr rfl
  | _ => exact .of_pools rfl

theorem keepsSignals_installCap (st : CapState) (a : Place) (cap : Cap) (i : ℕ) :
    st.KeepsSignals (st.installCap a cap) i :=
  (KeepsSignals.of_pools rfl).trans (keepsSignals_incRefcount (st.put a cap) _ _ i)

theorem keepsSignals_removeCap (st : CapState) (a : Place) (f : BitVec 16 → BitVec 16) (i : ℕ) :
    st.KeepsSignals (st.removeCap a f) i :=
  have h : st.KeepsSignals ((st.put a Cap.empty).bump a f) i := .of_pools rfl
  h.trans (keepsSignals_decRefcount _ _ _ i)

/-- **No syscall on capabilities** raises a signal or takes one away, unless it takes the whole
notification. -/
theorem keepsSignals_capStep {c : CapCall} {r : ℤ} (h : capStep st c = some (r, st')) (i : ℕ) :
    st.KeepsSignals st' i := by
  cases capStep_effect h with
  | refused => exact .of_pools rfl
  | minted => exact keepsSignals_installCap st _ _ i
  | copied => exact keepsSignals_installCap st _ _ i
  | deleted => exact keepsSignals_removeCap st _ _ i
  | socketClosed => exact keepsSignals_removeCap st _ _ i
  | @socketCreated _ _ _ _ _ _ _ sockets =>
    have h : st.KeepsSignals (st.withSockets sockets) i := .of_pools rfl
    exact h.trans (keepsSignals_installCap _ _ _ i)
  | revoked _ _ _ hrevoke =>
    exact revoke_keeps (I := fun s => st.KeepsSignals s i)
      (fun s a hs _ => hs.trans (keepsSignals_removeCap s a _ i)) hrevoke (.of_pools rfl)

/-- Where one notification is changed, the signals of the others stay. -/
theorem signals?_modifyNotification (st : CapState) (index i : ℕ)
    (f : Notification → Notification) :
    (st.modifyNotification index f).signals? i =
      if i = index then (st.objectPools.notifications.get index).map fun n => (f n).signals
      else st.signals? i := by
  rw [signals?, modifyNotification, Pool.get_modify]
  split
  · rw [Option.map_map]
    rfl
  · rfl

end CapState

open CapState

theorem keepsSignals_kernelStep {ed25519 : Ed25519} {k k' : Kernel} {c : KernelCall}
    (h : kernelStep ed25519 k c = some k') (i : ℕ) : k.caps.KeepsSignals k'.caps i := by
  cases kernelStep_effect h with
  | capCall _ hstep hk' =>
    rw [hk']
    exact keepsSignals_capStep hstep i
  | installed _ h =>
    obtain ⟨_, _, _, -, -, -, -, hpools, -⟩ := installTier1Grants_ok h.caps
    exact .of_pools (by rw [hpools])
  | quiet _ h => exact .of_pools (by rw [h.caps])

/-! ## Acks

There are two ways to ack, and the second goes through a handle. Both are told from the state
before the call. -/

namespace Fastpath

/-- The entry is an ack of the notification at `j`: its handle is live, current and of a
notification, and the cap in the slot confers the call on that one. -/
def Acks (f : Fastpath) (p : Proc) (sqe : Sqe) (j : ℕ) : Prop :=
  sqe.op = ringOpNotifyAck ∧ ∃ i, regArg? sqe.regIdx = some i ∧
    ((f.regTables p).slots i).kind = .notification ∧
    f.caps.genAt (p, slotIndex ((f.regTables p).slots i).cspaceSlot) =
      ((f.regTables p).slots i).regGeneration ∧
    f.caps.resolveNotification (procByte p)
      (((f.regTables p).slots i).cspaceSlot.setWidth 32) = .ok j

end Fastpath

/-- The call acks the notification at `j`, itself or in an entry that it gets to. -/
inductive FastKernel.Acks (s : FastKernel) (j : ℕ) : FastCall → Prop where
  | direct {procId : BitVec 8} {slot : BitVec 32}
      (h : s.kernel.caps.resolveNotification procId slot = .ok j) : Acks s j (.ack procId slot)
  | batched {procId : BitVec 8} {n : BitVec 32} {bytes : List (BitVec 8)} {p : Proc} {i : ℕ}
      {t : Fastpath.Drained} {sqe : Sqe} (hp : procIndex? procId = some p)
      (hactive : (s.ringDescriptors p).active = true)
      (hreach : s.fastpath.Reaches p n bytes i t sqe)
      (hacks : t.2.Acks p sqe j) : Acks s j (.submit procId n (some bytes))

/-- What acks make of a notification: with one its signals are gone, and without one they are as
they were. -/
structure Acked (acks : Prop) (st st' : CapState) (j : ℕ) : Prop where
  cleared : acks → st'.signals? j = (st.signals? j).map fun _ => 0#32
  kept : ¬ acks → st'.signals? j = st.signals? j

theorem Acked.refl {acks : Prop} (st : CapState) (j : ℕ) (h : ¬ acks) : Acked acks st st j :=
  ⟨fun ha => (h ha).elim, fun _ => rfl⟩

/-- Of two acks in a row either clears. -/
theorem Acked.trans {a b : Prop} {st st' st'' : CapState} {j : ℕ} (h : Acked a st st' j)
    (h' : Acked b st' st'' j) : Acked (a ∨ b) st st'' j := by
  constructor
  · intro hor
    by_cases hb : b
    · rw [h'.cleared hb]
      by_cases ha : a
      · rw [h.cleared ha, Option.map_map]
        rfl
      · rw [h.kept ha]
    · rw [h'.kept hb, h.cleared (hor.resolve_right hb)]
  · intro hnot
    rw [h'.kept fun hb => hnot (.inr hb), h.kept fun ha => hnot (.inl ha)]

/-- **The direct call** acks the notification that its slot names, or nothing. -/
theorem acked_notificationAckImpl (st : CapState) (b : BitVec 8) (slot : BitVec 32) (j : ℕ) :
    Acked (st.resolveNotification b slot = .ok j) st (notificationAckImpl st b slot).2 j := by
  rw [notificationAckImpl]
  rcases hres : st.resolveNotification b slot with rc | i
  · exact .refl st j fun h => by cases h
  · dsimp only
    rcases hget : st.objectPools.notifications.get i with _ | notif
    · refine ⟨fun h => ?_, fun _ => rfl⟩
      obtain rfl := Except.ok.inj h
      rw [signals?, hget]
      rfl
    · dsimp only
      refine ⟨fun h => ?_, fun h => ?_⟩
      · obtain rfl := Except.ok.inj h
        rw [signals?_modifyNotification, if_pos rfl, signals?, hget]
        rfl
      · rw [signals?_modifyNotification, if_neg fun he => h (by rw [he])]

/-- **An entry** of a ring acks the notification of its handle, or nothing. -/
theorem acked_dispatch (f : Fastpath) (p : Proc) (sqe : Sqe) (j : ℕ) :
    Acked (f.Acks p sqe j) f.caps (f.dispatch p sqe).2.caps j := by
  by_cases hcurrent : sqe.op = ringOpNotifyAck ∧ ∃ i, regArg? sqe.regIdx = some i ∧
      ((f.regTables p).slots i).kind = .notification ∧
      f.caps.genAt (p, slotIndex ((f.regTables p).slots i).cspaceSlot) =
        ((f.regTables p).slots i).regGeneration
  · obtain ⟨hop, i, hi, hkind, hgen⟩ := hcurrent
    rw [Fastpath.dispatch_of_current hop hi hkind hgen]
    have hacked := acked_notificationAckImpl f.caps (procByte p)
      (((f.regTables p).slots i).cspaceSlot.setWidth 32) j
    refine ⟨fun hacks => hacked.cleared ?_, fun hnot => hacked.kept fun hres =>
      hnot ⟨hop, i, hi, hkind, hgen, hres⟩⟩
    obtain ⟨-, i', hi', -, -, hres⟩ := hacks
    obtain rfl := Option.some.inj (hi.symm.trans hi')
    exact hres
  · have hnot : ¬ f.Acks p sqe j := by
      rintro ⟨hop, i, hi, hkind, hgen, -⟩
      exact hcurrent ⟨hop, i, hi, hkind, hgen⟩
    refine ⟨fun hacks => (hnot hacks).elim, fun _ => ?_⟩
    rcases f.dispatch_cases p sqe with ⟨r, h, -⟩ | ⟨i, r, caps, hi, hkind, hgen, hdirect, h⟩
    · rw [h]
    · rw [h]
      rw [CapState.direct] at hdirect
      split at hdirect
      · obtain ⟨-, rfl⟩ := Prod.mk.inj (Option.some.inj hdirect)
        rfl
      · split at hdirect
        · rename_i hop
          exact (hcurrent ⟨hop, i, hi, hkind, hgen⟩).elim
        · cases hdirect

namespace Fastpath

variable {f : Fastpath} {p : Proc} {desc : RingDesc} {bytes : List (BitVec 8)}

/-- One of the first `k` entries is an ack of the notification at `j`. -/
def AcksBelow (f : Fastpath) (p : Proc) (desc : RingDesc) (bytes : List (BitVec 8)) (j k : ℕ) :
    Prop :=
  ∃ i t sqe buf, i < k ∧ Chain (Goes (drainEntry p desc)) (bytes, f) i t ∧
    readAt t.1 (desc.sqPtr.toNat + i * sqeSize) sqeSize = some buf ∧ decodeSqe buf 0 = some sqe ∧
    t.2.Acks p sqe j

theorem chain_unique {i : ℕ} {s t u : Drained} (h : Chain (Goes (drainEntry p desc)) s i t)
    (h' : Chain (Goes (drainEntry p desc)) s i u) : t = u := by
  have hstep : ∀ i t u v, Goes (drainEntry p desc) i t u → Goes (drainEntry p desc) i t v → u = v :=
    fun _ _ _ _ h h' => h.unique h'
  exact Chain.unique hstep h h'

/-- The next entry of a batch adds its own acks to those before it. -/
theorem acksBelow_succ {k : ℕ} {t : Drained} (h : Chain (Goes (drainEntry p desc)) (bytes, f) k t)
    (j : ℕ) :
    f.AcksBelow p desc bytes j (k + 1) ↔ f.AcksBelow p desc bytes j k ∨
      ∃ sqe buf, readAt t.1 (desc.sqPtr.toNat + k * sqeSize) sqeSize = some buf ∧
        decodeSqe buf 0 = some sqe ∧ t.2.Acks p sqe j := by
  constructor
  · rintro ⟨i, u, sqe, buf, hi, hchain, hread, hsqe, hacks⟩
    rcases Nat.lt_succ_iff_lt_or_eq.mp hi with hlt | rfl
    · exact .inl ⟨i, u, sqe, buf, hlt, hchain, hread, hsqe, hacks⟩
    · obtain rfl := chain_unique h hchain
      exact .inr ⟨sqe, buf, hread, hsqe, hacks⟩
  · rintro (⟨i, u, sqe, buf, hi, rest⟩ | ⟨sqe, buf, rest⟩)
    · exact ⟨i, u, sqe, buf, Nat.lt_succ_of_lt hi, rest⟩
    · exact ⟨k, t, sqe, buf, Nat.lt_succ_self k, h, rest⟩

/-- A round that reads an entry dispatches it, whether it goes through or not. -/
theorem acked_round {i j : ℕ} {s t : Drained}
    (h : drainEntry p desc i s = .ok t ∨ drainEntry p desc i s = .error t) :
    Acked (∃ sqe buf, readAt s.1 (desc.sqPtr.toNat + i * sqeSize) sqeSize = some buf ∧
      decodeSqe buf 0 = some sqe ∧ s.2.Acks p sqe j) s.2.caps t.2.caps j := by
  have hread : ∀ {buf sqe}, readAt s.1 (desc.sqPtr.toNat + i * sqeSize) sqeSize = some buf →
      decodeSqe buf 0 = some sqe → Acked (∃ sqe buf,
        readAt s.1 (desc.sqPtr.toNat + i * sqeSize) sqeSize = some buf ∧
        decodeSqe buf 0 = some sqe ∧ s.2.Acks p sqe j) s.2.caps (s.2.dispatch p sqe).2.caps j := by
    intro buf sqe hbuf hsqe
    have hacked := acked_dispatch s.2 p sqe j
    refine ⟨fun hex => hacked.cleared ?_,
      fun hnot => hacked.kept fun hacks => hnot ⟨sqe, buf, hbuf, hsqe, hacks⟩⟩
    obtain ⟨sqe', buf', hbuf', hsqe', hacks⟩ := hex
    obtain rfl := Option.some.inj (hbuf.symm.trans hbuf')
    obtain rfl := Option.some.inj (hsqe.symm.trans hsqe')
    exact hacks
  rcases hbuf : readAt s.1 (desc.sqPtr.toNat + i * sqeSize) sqeSize with _ | buf
  · have ht : t = s := by
      rw [drainEntry, hbuf] at h
      rcases h with h | h <;> cases h
      rfl
    rw [ht]
    refine .refl _ j fun hex => ?_
    obtain ⟨_, _, he, _⟩ := hex
    cases he
  · rcases hsqe : decodeSqe buf 0 with _ | sqe
    · have ht : t = s := by
        rw [drainEntry, hbuf] at h
        simp only [hsqe] at h
        rcases h with h | h <;> cases h
        rfl
      rw [ht]
      refine .refl _ j fun hex => ?_
      obtain ⟨sqe, buf', he, hsome, _⟩ := hex
      rw [← Option.some.inj he, hsqe] at hsome
      cases hsome
    · have ht : t.2 = (s.2.dispatch p sqe).2 := by
        rw [drainEntry, hbuf] at h
        simp only [hsqe] at h
        split at h <;> rcases h with h | h <;> cases h <;> rfl
      rw [ht, ← hbuf]
      exact hread hbuf hsqe

/-- **A batch**, as far as it went through: the acks of its entries, by induction on the rounds.
-/
theorem acked_chain {j k : ℕ} {t : Drained} (h : Chain (Goes (drainEntry p desc)) (bytes, f) k t) :
    Acked (f.AcksBelow p desc bytes j k) f.caps t.2.caps j := by
  induction h with
  | zero =>
    refine .refl _ j fun hex => ?_
    obtain ⟨_, _, _, _, hlt, _⟩ := hex
    exact Nat.not_lt_zero _ hlt
  | succ h hstep ih =>
    have hboth := ih.trans (acked_round (j := j) (.inl hstep))
    rwa [propext (acksBelow_succ h j)]

/-- No round comes after one that breaks the loop. -/
theorem le_of_break {i k : ℕ} {s t u v : Drained} (h : Chain (Goes (drainEntry p desc)) s k v)
    (hbreak : drainEntry p desc k v = .error u) (hi : Chain (Goes (drainEntry p desc)) s i t) :
    i ≤ k := by
  induction hi with
  | zero => exact Nat.zero_le k
  | @succ i t _ hchain hstep ih =>
    refine Nat.lt_of_le_of_ne ih ?_
    rintro rfl
    obtain rfl := chain_unique h hchain
    rw [Goes, hbreak] at hstep
    cases hstep

/-- **A batch** acks what its entries ack. The induction is on the rounds. -/
theorem acked_batch {j n k : ℕ} {u : Drained}
    (h : Lib.batch (drainEntry p desc) n (bytes, f) = (k, u)) :
    Acked (f.AcksBelow p desc bytes j n) f.caps u.2.caps j := by
  obtain ⟨v, hchain, hend⟩ := Lib.batch_spec h
  rcases hend with ⟨rfl, rfl⟩ | ⟨hlt, hbreak⟩
  · exact acked_chain hchain
  · have hboth := (acked_chain (j := j) hchain).trans (acked_round (j := j) (.inr hbreak))
    rw [← propext (acksBelow_succ hchain j)] at hboth
    have hsame : f.AcksBelow p desc bytes j n ↔ f.AcksBelow p desc bytes j (k + 1) := by
      constructor
      · rintro ⟨i, t, sqe, buf, -, hi, rest⟩
        exact ⟨i, t, sqe, buf, Nat.lt_succ_of_le (le_of_break hchain hbreak hi), hi, rest⟩
      · rintro ⟨i, t, sqe, buf, hi, rest⟩
        exact ⟨i, t, sqe, buf, by omega, rest⟩
    rwa [propext hsame]

end Fastpath

/-- **`ring_submit`** acks what the entries that it drains ack. -/
theorem acked_ringSubmitImpl (s : FastKernel) (procId : BitVec 8) (n : BitVec 32)
    (memory : Option (List (BitVec 8))) (j : ℕ) :
    Acked (s.Acks j (.submit procId n memory)) s.kernel.caps
      (s.fastpath.ringSubmitImpl procId n memory).2.2.caps j := by
  rw [Fastpath.ringSubmitImpl]
  split
  · rename_i hproc
    refine .refl _ j fun hacks => ?_
    cases hacks with
    | batched hp => rw [hproc] at hp; cases hp
  rename_i p hproc
  dsimp only
  split
  · rename_i hidle
    refine .refl _ j fun hacks => ?_
    cases hacks with
    | batched hp hactive =>
      obtain rfl := Option.some.inj (hproc.symm.trans hp)
      change (!(s.ringDescriptors p).active) = true at hidle
      rw [hactive] at hidle
      cases hidle
  rename_i hactive
  have hactive : (s.fastpath.ringDescriptors p).active = true := by simpa using hactive
  rcases memory with _ | bytes
  · exact .refl _ j fun hacks => by cases hacks
  dsimp only
  generalize hcount : (if n < (s.fastpath.ringDescriptors p).entries then n
    else (s.fastpath.ringDescriptors p).entries).toNat = count
  generalize hbatch : Lib.batch (Fastpath.drainEntry p (s.fastpath.ringDescriptors p)) count
    (bytes, s.fastpath) = out
  obtain ⟨k, u⟩ := out
  have hmin : ∀ i, i < count ↔ i < n.toNat ∧ i < (s.fastpath.ringDescriptors p).entries.toNat := by
    intro i
    rw [← hcount]
    split
    · rename_i hlt
      rw [BitVec.lt_def] at hlt
      omega
    · rename_i hle
      rw [BitVec.lt_def] at hle
      omega
  have hsame : s.Acks j (.submit procId n (some bytes)) ↔
      s.fastpath.AcksBelow p (s.fastpath.ringDescriptors p) bytes j count := by
    constructor
    · rintro (_ | ⟨hp, -, hreach, hacks⟩)
      obtain rfl := Option.some.inj (hproc.symm.trans hp)
      obtain ⟨buf, hread, hsqe⟩ := hreach.read
      exact ⟨_, _, _, buf, (hmin _).mpr ⟨hreach.submitted, hreach.entries⟩, hreach.chain, hread,
        hsqe, hacks⟩
    · rintro ⟨i, t, sqe, buf, hi, hchain, hread, hsqe, hacks⟩
      obtain ⟨hsub, hent⟩ := (hmin i).mp hi
      exact .batched hproc hactive ⟨hsub, hent, hchain, buf, hread, hsqe⟩ hacks
  rw [propext hsame]
  exact Fastpath.acked_batch hbatch

/-! ## A call

Over all calls of the fast path. -/

/-- **What a call makes of a notification**: it goes, or it is cleared where the call acks it,
and keeps its signals elsewhere. -/
theorem FastKernel.step_signals {ed25519 : Ed25519} {s t : FastKernel} {c : FastCall}
    (h : FastKernel.step ed25519 s c = some t) (hc : ∀ index bit, c ≠ .interrupt index bit)
    (j : ℕ) :
    t.kernel.caps.signals? j = none ∨ Acked (s.Acks j c) s.kernel.caps t.kernel.caps j := by
  cases c with
  | kernel call =>
    obtain ⟨k, hk, rfl⟩ := Option.map_eq_some_iff.mp h
    exact (keepsSignals_kernelStep hk j).imp id fun hsame =>
      ⟨(fun hacks => by cases hacks), fun _ => hsame⟩
  | register procId cspaceSlot =>
    obtain rfl := Option.some.inj h
    have hcaps : (s.fastpath.capRegisterImpl procId cspaceSlot).2.caps = s.kernel.caps := by
      rw [Fastpath.capRegisterImpl]
      split
      · rfl
      · split
        · rfl
        · dsimp only
          split
          · rfl
          · split <;> rfl
    refine .inr ⟨(fun hacks => by cases hacks), fun _ => ?_⟩
    rw [noteIssue]
    split <;> exact congrArg (CapState.signals? · j) hcaps
  | unregister procId regIdx =>
    obtain rfl := Option.some.inj h
    have hcaps : (s.fastpath.capUnregisterImpl procId regIdx).2.caps = s.kernel.caps := by
      rw [Fastpath.capUnregisterImpl]
      split
      · rfl
      · split <;> rfl
    exact .inr ⟨(fun hacks => by cases hacks), fun _ => congrArg (CapState.signals? · j) hcaps⟩
  | setup procId sqPtr cqPtr entries =>
    obtain rfl := Option.some.inj h
    have hcaps : (s.fastpath.ringSetupImpl procId sqPtr cqPtr entries).2.caps = s.kernel.caps := by
      rw [Fastpath.ringSetupImpl]
      split
      · rfl
      · split <;> rfl
    exact .inr ⟨(fun hacks => by cases hacks), fun _ => congrArg (CapState.signals? · j) hcaps⟩
  | submit procId n memory =>
    obtain rfl := Option.some.inj h
    exact .inr (acked_ringSubmitImpl s procId n memory j)
  | ack procId slot =>
    obtain rfl := Option.some.inj h
    have hacked := acked_notificationAckImpl s.kernel.caps procId slot j
    refine .inr ⟨fun hacks => hacked.cleared ?_, fun hnot => hacked.kept fun hres =>
      hnot (.direct hres)⟩
    cases hacks with
    | direct hres => exact hres
  | interrupt index bit => exact (hc index bit rfl).elim

/-! ## A trap

Which sources were claimed is read off the claim register alone, so that what raises a signal
is told without the driver's own counter. The two agree in every run, as `Tracks` says.
-/

/-- The source of an access that claimed one. -/
def ClaimAccess.source? : ClaimAccess → Option (BitVec 32)
  | .read irq => if irq = 0 then none else some irq
  | .write _ => none

/-- The sources that were claimed, in the order of the claims. -/
def Plic.sources (s : Plic) : List (BitVec 32) := s.claims.filterMap ClaimAccess.source?

theorem sources_handshake (claims : List (BitVec 32)) :
    (claims.flatMap handshake).filterMap ClaimAccess.source? = sourcesOf claims := by
  induction claims with
  | nil => rfl
  | cons irq claims ih =>
    rw [List.flatMap_cons, List.filterMap_append, ih, sourcesOf, sourcesOf]
    by_cases hzero : irq = 0
    · rw [hzero, List.filter_cons_of_neg (by decide)]
      rfl
    · rw [handshake, if_neg hzero, List.filter_cons_of_pos (by simpa using hzero)]
      have hread : (ClaimAccess.read irq).source? = some irq := if_neg hzero
      rw [List.filterMap_cons_some hread, List.filterMap_cons_none rfl]
      rfl

/-- The driver's counters are those of the claims, and what is bound is a source of a device
that is not the console: no process binds a source, and boot binds the NIC's only. -/
structure Plic.Attentive (board : Board) (s : Plic) : Prop where
  tracks : ∃ s₀ claims, Tracks board s₀ s claims
  bound : ∀ irq, s.notificationForIrq irq ≠ none → irq ≠ 0 ∧ irq ≠ board.uartIrq

namespace Plic.Attentive

variable {board : Board} {s : Plic} {irq : BitVec 32}

theorem boot {regs : ℕ → BitVec 32} (hboard : board ≠ .r2s) (h : Plic.boot board regs = .ok s) :
    s.Attentive board := by
  refine ⟨⟨s, [], .boot hboard h⟩, fun irq hbound => ?_⟩
  cases board with
  | qemu =>
    have hbindings : s.bindings = Function.update (fun _ => none) ⟨8, by decide⟩ (some 0) := by
      rw [← Except.ok.inj (show Except.ok _ = Except.ok s from h)]
      rfl
    have hnic : irq.toNat = 8 := by
      by_contra hne
      refine hbound ?_
      rw [notificationForIrq, hbindings]
      split
      · exact Function.update_of_ne (fun he => hne (congrArg Fin.val he)) _ _
      · rfl
    constructor <;> rintro rfl <;> exact absurd hnic (by decide)
  | vf2 =>
    have hbindings : s.bindings = fun _ => none := by
      rw [← Except.ok.inj (show Except.ok _ = Except.ok s from h)]
      rfl
    refine (hbound ?_).elim
    rw [notificationForIrq, hbindings]
    split <;> rfl
  | r2s => exact (hboard rfl).elim

/-- **What a claim signals**: the notification its source is bound to, but for the claim that
takes the source out of service. -/
theorem raised_iff (h : s.Attentive board) (hirq : irq = 0 ∨ s.Presents board irq)
    {index : BitVec 16} :
    s.raised board irq = some index ↔ s.notificationForIrq irq = some index ∧
      streakOf irq (s.sources ++ [irq]) ≠ sameIrqLimit.toNat := by
  obtain ⟨⟨s₀, claims, htracks⟩, hbound⟩ := h
  have hsources : s.sources = sourcesOf claims := by
    rw [sources, htracks.accesses, sources_handshake]
  have hlimit : irq ≠ 0 → (s.nextRun irq = sameIrqLimit ↔
      streakOf irq (s.sources ++ [irq]) = sameIrqLimit.toNat) := by
    intro hpos
    rw [← BitVec.toNat_inj, htracks.toNat_nextRun hpos (hirq.resolve_left hpos), sourcesOf_snoc,
      if_neg hpos, hsources]
  rw [raised]
  constructor
  · intro hraised
    split at hraised
    · cases hraised
    · rename_i hother
      rw [not_or, not_or] at hother
      exact ⟨hraised, fun hstreak => hother.2.1 ((hlimit hother.1).mpr hstreak)⟩
  · rintro ⟨hnotif, hstreak⟩
    obtain ⟨hpos, huart⟩ := hbound irq (by rw [hnotif]; exact Option.some_ne_none index)
    rw [if_neg, hnotif]
    exact fun hor => hor.elim hpos fun hor =>
      hor.elim (fun hnext => hstreak ((hlimit hpos).mp hnext)) huart

/-- **A step** binds no source to a notification: the bindings are those of boot. -/
theorem step {ed25519 : Ed25519} {s t : IrqKernel} {c : IrqCall} (h : s.plic.Attentive board)
    (hstep : IrqKernel.step ed25519 board s c = some t) : t.plic.Attentive board := by
  obtain ⟨⟨s₀, claims, htracks⟩, hbound⟩ := h
  have hbindings : t.plic.bindings = s.plic.bindings := by
    cases c with
    | call call =>
      obtain ⟨-, -, fast, -, rfl⟩ := IrqKernel.step_call hstep
      rfl
    | trap scause irq rx =>
      obtain ⟨-, -, rfl⟩ := IrqKernel.step_trap hstep
      by_cases hext : External scause
      · rw [(handleTrap_plic board s hext irq rx).1, Plic.dispatched]
        split
        · rfl
        · dsimp only
          split <;> rfl
      · rw [(handleTrap_other board s hext irq rx).1]
  refine ⟨⟨s₀, _, htracks.step hstep⟩, fun irq => ?_⟩
  rw [Plic.notificationForIrq, hbindings]
  exact hbound irq

end Plic.Attentive

namespace IrqKernel

variable {ed25519 : Ed25519} {board : Board} {s t : IrqKernel}

/-- The trap claims a source that is bound to the notification at `j` and whose bit is `b`, and
it is not the ten-thousandth claim of that source in a row. -/
def Raises (b j : ℕ) (s : IrqKernel) (c : IrqCall) (_ : IrqKernel) : Prop :=
  ∃ scause irq rx index, c = .trap scause irq rx ∧ External scause ∧
    s.plic.notificationForIrq irq = some index ∧ index.toNat = j ∧ irq.toNat % 32 = b ∧
    s.fast.kernel.caps.signals? j ≠ none ∧
    streakOf irq (s.plic.sources ++ [irq]) ≠ sameIrqLimit.toNat

/-- The notification at `j` is acked, or goes. -/
def Clears (j : ℕ) (s : IrqKernel) (c : IrqCall) (t : IrqKernel) : Prop :=
  (∃ call, c = .call call ∧ s.fast.Acks j call) ∨ t.fast.kernel.caps.signals? j = none

/-- Bit `b` of the notification at `j` is set. -/
def Signalled (b j : ℕ) (s : IrqKernel) : Prop :=
  ∃ w, s.fast.kernel.caps.signals? j = some w ∧ w.getLsbD b = true

/-- **What a step makes of a signal**: it raises it, clears it, or leaves it. -/
theorem step_signalled {c : IrqCall} (hs : s.plic.Attentive board)
    (h : IrqKernel.step ed25519 board s c = some t) (b j : ℕ) :
    (Raises b j s c t → t.Signalled b j) ∧ (Clears j s c t → ¬ t.Signalled b j) ∧
    (¬ Raises b j s c t → ¬ Clears j s c t → (t.Signalled b j ↔ s.Signalled b j)) := by
  cases c with
  | call call =>
    obtain ⟨-, hcall, fast, hfast, rfl⟩ := step_call h
    have hraise : ¬ Raises b j s (.call call) { s with fast := fast } := by
      rintro ⟨_, _, _, _, he, -⟩
      cases he
    have hstep := FastKernel.step_signals hfast hcall j
    refine ⟨fun hr => (hraise hr).elim, ?_, fun _ hclear => ?_⟩
    · rintro hclear ⟨w, hw, hbit⟩
      dsimp only at hw
      rcases hclear with ⟨_, he, hacks⟩ | hgone
      · cases he
        rcases hstep with hgone | hacked
        · rw [hgone] at hw
          cases hw
        · rw [hacked.cleared hacks] at hw
          obtain ⟨-, -, rfl⟩ := Option.map_eq_some_iff.mp hw
          rw [BitVec.getLsbD_zero] at hbit
          cases hbit
      · rw [hgone] at hw
        cases hw
    · rw [Clears, not_or] at hclear
      have hkept := (hstep.resolve_left hclear.2).kept fun hacks => hclear.1 ⟨call, rfl, hacks⟩
      rw [Signalled, Signalled, hkept]
  | trap scause irq rx =>
    obtain ⟨-, hguard, rfl⟩ := step_trap h
    have hsignals : (s.handleTrap board scause irq rx).fast.kernel.caps.signals? j =
        if External scause ∧ (s.plic.raised board irq).map BitVec.toNat = some j then
          (s.fast.kernel.caps.signals? j).map (· ||| (1#32 <<< (irq.toNat % 32)))
        else s.fast.kernel.caps.signals? j := by
      rw [handleTrap_fast, Plic.dispatch_caps]
      by_cases hext : External scause
      · rw [if_pos hext]
        rcases s.plic.raised board irq with _ | index
        · rw [if_neg fun h => Option.some_ne_none j h.2.symm]
          rfl
        · change CapState.signals? (CapState.modifyNotification _ _ _) j = _
          rw [signals?_modifyNotification]
          by_cases hj : j = index.toNat
          · rw [if_pos hj, if_pos ⟨hext, congrArg some hj.symm⟩, hj, signals?, Option.map_map]
            rfl
          · rw [if_neg hj, if_neg fun h => hj (Option.some.inj h.2).symm]
      · rw [if_neg hext, if_neg fun h => hext h.1]
    have hclears : Clears j s (.trap scause irq rx) (s.handleTrap board scause irq rx) ↔
        s.fast.kernel.caps.signals? j = none := by
      rw [Clears, hsignals]
      constructor
      · rintro (⟨_, he, -⟩ | hgone)
        · cases he
        · split at hgone
          · exact Option.map_eq_none_iff.mp hgone
          · exact hgone
      · intro hgone
        rw [hgone]
        exact .inr (by split <;> rfl)
    have hone : (1#32 <<< (irq.toNat % 32)).getLsbD b = decide (irq.toNat % 32 = b) := by
      have hlt : irq.toNat % 32 < 32 := Nat.mod_lt _ (by decide)
      rw [BitVec.getLsbD_shiftLeft]
      by_cases hb : irq.toNat % 32 = b
      · subst hb
        simp [hlt]
      · rw [decide_eq_false hb]
        by_cases hlt' : b < irq.toNat % 32
        · simp [hlt']
        · simp only [BitVec.getLsbD_one]
          simp
          omega
    refine ⟨?_, fun hclear => ?_, fun hraise hclear => ?_⟩
    · rintro ⟨_, _, _, index, he, hext, hnotif, rfl, rfl, hthere, hstreak⟩
      cases he
      have hraised := (hs.raised_iff (hguard hext).2).mpr ⟨hnotif, hstreak⟩
      obtain ⟨w, hw⟩ := Option.ne_none_iff_exists'.mp hthere
      rw [Signalled, hsignals, if_pos ⟨hext, by rw [hraised]; rfl⟩, hw]
      refine ⟨_, rfl, ?_⟩
      rw [BitVec.getLsbD_or, hone, decide_eq_true rfl, Bool.or_true]
    · rw [hclears] at hclear
      rintro ⟨w, hw, -⟩
      rw [hsignals, hclear] at hw
      split at hw <;> cases hw
    · rw [hclears] at hclear
      obtain ⟨w, hw⟩ := Option.ne_none_iff_exists'.mp hclear
      rw [Signalled, Signalled, hsignals, hw]
      split
      · rename_i hset
        obtain ⟨hext, hmap⟩ := hset
        obtain ⟨index, hraised, hj⟩ := Option.map_eq_some_iff.mp hmap
        obtain ⟨hnotif, hstreak⟩ := (hs.raised_iff (hguard hext).2).mp hraised
        have hb : irq.toNat % 32 ≠ b := fun hb =>
          hraise ⟨scause, irq, rx, index, rfl, hext, hnotif, hj, hb, by
            rw [hw]
            exact Option.some_ne_none w, hstreak⟩
        rw [Option.map_some]
        constructor
        · rintro ⟨_, he, hbit⟩
          obtain rfl := Option.some.inj he
          rw [BitVec.getLsbD_or, hone, decide_eq_false hb, Bool.or_false] at hbit
          exact ⟨w, rfl, hbit⟩
        · rintro ⟨_, he, hbit⟩
          obtain rfl := Option.some.inj he
          refine ⟨_, rfl, ?_⟩
          rw [BitVec.getLsbD_or, hbit, Bool.true_or]
      · rfl

end IrqKernel

/-! ## Every run

Put together over a run with calls and traps in any order. -/

section Runs

variable {ed25519 : Ed25519} {board : Board}

/-- **The kernel with its interrupts is the kernel of the fast path**: traps are its interrupts. -/
theorem fast_reachable {s : IrqKernel} (h : (irqMachine ed25519 board).Reachable s) :
    (fastMachine ed25519 board).Reachable s.fast := by
  obtain ⟨s₀, calls, hinit, hrun⟩ := h
  have hfast : (fastMachine ed25519 board).init s₀.fast := hinit.2.1
  refine hrun.keeps (I := fun s => (fastMachine ed25519 board).Reachable s.fast)
    (fun s c t hs hstep => ?_) (.init hfast)
  rcases IrqKernel.step_fast hstep with hsame | ⟨c', hc'⟩
  · rw [hsame]
    exact hs
  · exact hs.step hc'

/-- No signal is there at boot, where notifications have none. -/
theorem not_signalled_init {s : IrqKernel} (h : (irqMachine ed25519 board).init s) (b j : ℕ) :
    ¬ s.Signalled b j := by
  rintro ⟨w, hw, hbit⟩
  obtain ⟨-, hfast, -⟩ := h
  have hobject := object?_bootState board .notification j
  have hcaps : s.fast.kernel.caps = bootState board := by
    rw [hfast]
    rfl
  rw [hcaps, signals?] at hw
  obtain ⟨notif, hget, rfl⟩ := Option.map_eq_some_iff.mp hw
  rw [ObjectPools.object?, hget] at hobject
  cases j with
  | zero =>
    rw [KernelObject.notification.inj (Option.some.inj hobject)] at hbit
    change (0#32).getLsbD b = true at hbit
    rw [BitVec.getLsbD_zero] at hbit
    cases hbit
  | succ j => cases hobject

/-- **A signal is there** exactly where a trap claimed its source, and the notification was
neither acked nor gone since. -/
theorem signalled_iff {s t : IrqKernel} {calls : List IrqCall}
    (hinit : (irqMachine ed25519 board).init s) (hrun : (irqMachine ed25519 board).Run s calls t)
    (b j : ℕ) :
    t.Signalled b j ↔ (irqMachine ed25519 board).Since (IrqKernel.Raises b j)
      (IrqKernel.Clears j) s calls t := by
  have hattentive : s.plic.Attentive board := by
    obtain ⟨hboard, -, -, regs, hboot⟩ := hinit
    exact .boot hboard hboot
  exact Machine.since_iff (I := fun s => s.plic.Attentive board)
    (fun _ _ _ hs h => hs.step h)
    (fun _ _ _ hs h => (IrqKernel.step_signalled hs h b j).1)
    (fun _ _ _ hs h => (IrqKernel.step_signalled hs h b j).2.1)
    (fun _ _ _ hs h => (IrqKernel.step_signalled hs h b j).2.2) hattentive
    (not_signalled_init hinit b j) hrun

/-- **No wake-up is lost, and none is spurious**, but for one kind. In every run,
`notification_wait` returns 0 exactly where the capability names a notification for which a trap
claimed a bound source, and which was neither acked nor gone since. The ten-thousandth claim of
a source in a row does not count: it takes the source out of service and signals nothing. -/
theorem wait_exact {s t : IrqKernel} {calls : List IrqCall}
    (hinit : (irqMachine ed25519 board).init s) (hrun : (irqMachine ed25519 board).Run s calls t)
    (procId : BitVec 8) (slot : BitVec 32) :
    notificationWaitImpl t.fast.kernel.caps procId slot = 0 ↔
      ∃ j b, t.fast.kernel.caps.resolveNotification procId slot = .ok j ∧
        (irqMachine ed25519 board).Since (IrqKernel.Raises b j) (IrqKernel.Clears j)
          s calls t := by
  have hsince := fun b j => signalled_iff hinit hrun b j
  rw [notificationWaitImpl]
  rcases hres : t.fast.kernel.caps.resolveNotification procId slot with rc | i
  · constructor
    · intro hzero
      rcases resolveNotification_error hres with rfl | rfl
      · exact absurd (show ePerm = 0 from hzero) (by decide)
      · exact absurd (show eInval = 0 from hzero) (by decide)
    · rintro ⟨j, b, he, -⟩
      cases he
  · dsimp only
    constructor
    · intro hzero
      rcases hget : t.fast.kernel.caps.objectPools.notifications.get i with _ | notif
      · rw [hget] at hzero
        exact absurd hzero (by decide)
      · rw [hget] at hzero
        dsimp only at hzero
        split at hzero
        · rename_i hne
          obtain ⟨b, hb⟩ : ∃ b, notif.signals.getLsbD b = true := by
            by_contra hnone
            refine hne (BitVec.eq_of_getLsbD_eq fun b _ => ?_)
            rw [BitVec.getLsbD_zero]
            exact Bool.eq_false_iff.mpr fun hb => hnone ⟨b, hb⟩
          refine ⟨i, b, rfl, (hsince b i).mp ⟨notif.signals, ?_, hb⟩⟩
          rw [signals?, hget]
          rfl
        · exact absurd hzero (by decide)
    · rintro ⟨j, b, he, hs⟩
      obtain rfl := Except.ok.inj he
      obtain ⟨w, hw, hbit⟩ := (hsince b i).mpr hs
      obtain ⟨notif, hget, rfl⟩ := Option.map_eq_some_iff.mp hw
      rw [hget]
      dsimp only
      rw [if_pos]
      intro hzero
      rw [hzero, BitVec.getLsbD_zero] at hbit
      cases hbit

end Runs

/-- A network interrupt after boot, which the driver's wait then finds. -/
theorem wait_exact_nic : ∃ s t calls,
    (irqMachine (fun _ _ _ => false) .qemu).init s ∧
    (irqMachine (fun _ _ _ => false) .qemu).Run s calls t ∧
    notificationWaitImpl t.fast.kernel.caps (procByte procIdTier2Net) 1 = 0 ∧
    ∃ j b, t.fast.kernel.caps.resolveNotification (procByte procIdTier2Net) 1 = .ok j ∧
      (irqMachine (fun _ _ _ => false) .qemu).Since (IrqKernel.Raises b j)
        (IrqKernel.Clears j) s calls t := by
  obtain ⟨s, hinit, hcaps, hrunning, hseie, hnic, -, hraised⟩ := qemu_boots fun _ _ _ => false
  have hexternal : External scauseExternal := by decide
  have hstep : (irqMachine (fun _ _ _ => false) .qemu).step s (.trap scauseExternal 8 []) =
      some (s.handleTrap .qemu scauseExternal 8 []) :=
    if_pos ⟨hrunning, fun _ => ⟨hseie, .inr hnic⟩⟩
  have hafter : (s.handleTrap .qemu scauseExternal 8 []).fast.kernel.caps =
      (bootState .qemu).modifyNotification 0 (Notification.raise 8) := by
    rw [IrqKernel.handleTrap_fast, if_pos hexternal, Plic.dispatch_caps, hraised, hcaps]
    rfl
  have hwait : notificationWaitImpl (s.handleTrap .qemu scauseExternal 8 []).fast.kernel.caps
      (procByte procIdTier2Net) 1 = 0 := by
    rw [hafter]
    decide
  have hrun := Machine.Run.cons hstep (.nil _)
  exact ⟨s, _, _, hinit, hrun, hwait, (wait_exact hinit hrun _ _).mp hwait⟩

end Wari
