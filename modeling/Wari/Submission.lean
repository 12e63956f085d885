import Wari.Fastpath

/-!
# The ring refines the direct syscalls

A batch of `k` entries should come to `k` single calls: each entry, as it is read when
its turn comes, is refused without effect or is the direct call on the slot its handle
was registered for, and its completion says which. `Served` is that single step and
`Refines` what `ring_submit` owes its caller. It falls short in one case: an entry is
dispatched before the place for its completion is tried, and where there is no such place
the entry is not counted but was executed all the same.
-/

namespace Wari

open Lib (readAt writeAt Chain Goes ofLe_toLe)

/-! ## One entry

What the direct syscalls would do for an entry. An entry is refused, or is one of them. -/

/-- The direct syscall that a ring operation stands for, made by `p` on `slot`. -/
def CapState.direct (st : CapState) (p : Proc) (op : BitVec 32) (slot : BitVec 8) :
    Option (ℤ × CapState) :=
  if op = ringOpNotifyWait then
    some (notificationWaitImpl st (procByte p) (slot.setWidth 32), st)
  else if op = ringOpNotifyAck then some (notificationAckImpl st (procByte p) (slot.setWidth 32))
  else none

/-- What may become of an entry: a negative code and no effect, or the direct call on the
slot its handle is registered for. -/
inductive Entry (p : Proc) (sqe : Sqe) (f : Fastpath) : ℤ → Fastpath → Prop where
  | refused {r : ℤ} (hlow : -2 ^ 31 ≤ r) (hr : r < 0) : Entry p sqe f r f
  | called {i : Fin regSlots} {r : ℤ} {caps : CapState} (hi : regArg? sqe.regIdx = some i)
      (hlive : ((f.regTables p).slots i).isEmpty = false)
      (h : f.caps.direct p sqe.op ((f.regTables p).slots i).cspaceSlot = some (r, caps)) :
      Entry p sqe f r { f with caps := caps }

/-- Entry `i` is read, becomes what it may, and is completed with its token and result. -/
inductive Served (p : Proc) (desc : RingDesc) (i : ℕ) (s : Fastpath.Drained) :
    Fastpath.Drained → Prop where
  | mk {buf : List (BitVec 8)} {sqe : Sqe} {r : ℤ} {f : Fastpath} {memory : List (BitVec 8)}
      (hread : readAt s.1 (desc.sqPtr.toNat + i * sqeSize) sqeSize = some buf)
      (hsqe : decodeSqe buf 0 = some sqe) (hentry : Entry p sqe s.2 r f)
      (hpost : writeAt s.1 (desc.cqPtr.toNat + i * cqeSize)
        (encodeCqe sqe.userData (BitVec.ofInt 64 r)) = some memory) :
      Served p desc i s (memory, f)

namespace Fastpath

/-- What `ring_submit` owes: where it fails nothing changed, and where it returns `k`, memory and
tables are what serving the first `k` entries leaves. So a tenant can tell from the result what
was done. -/
structure Refines (f : Fastpath) (procId : BitVec 8) (n : BitVec 32)
    (memory : Option (List (BitVec 8))) : Prop where
  failed : (f.ringSubmitImpl procId n memory).1 < 0 →
    (f.ringSubmitImpl procId n memory).2 = (memory, f)
  counted : ∀ k : ℕ, (f.ringSubmitImpl procId n memory).1 = k →
    ∃ p bytes bytes' f', procIndex? procId = some p ∧ memory = some bytes ∧
      (f.ringSubmitImpl procId n memory).2 = (some bytes', f') ∧
      k ≤ n.toNat ∧ k ≤ (f.ringDescriptors p).entries.toNat ∧
      Chain (Served p (f.ringDescriptors p)) (bytes, f) k (bytes', f')

/-- The entry is an ack that takes signals away: its handle is live, current and of a
notification, and the cap in the slot confers the call on a signalled notification. -/
def Clears (f : Fastpath) (p : Proc) (sqe : Sqe) : Prop :=
  sqe.op = ringOpNotifyAck ∧ ∃ i, regArg? sqe.regIdx = some i ∧
    ((f.regTables p).slots i).kind = .notification ∧
    f.caps.genAt (p, slotIndex ((f.regTables p).slots i).cspaceSlot) =
      ((f.regTables p).slots i).regGeneration ∧
    ∃ j notif, f.caps.resolveNotification (procByte p)
        (((f.regTables p).slots i).cspaceSlot.setWidth 32) = .ok j ∧
      f.caps.objectPools.notifications.get j = some notif ∧ notif.signals ≠ 0#32

/-- The drain of `bytes` for `p` gets to entry `i` in the state `s`, and reads `sqe` there. -/
structure Reaches (f : Fastpath) (p : Proc) (n : BitVec 32) (bytes : List (BitVec 8)) (i : ℕ)
    (s : Drained) (sqe : Sqe) : Prop where
  submitted : i < n.toNat
  entries : i < (f.ringDescriptors p).entries.toNat
  chain : Chain (Goes (drainEntry p (f.ringDescriptors p))) (bytes, f) i s
  read : ∃ buf, readAt s.1 ((f.ringDescriptors p).sqPtr.toNat + i * sqeSize) sqeSize = some buf ∧
    decodeSqe buf 0 = some sqe

/-- The drain reaches an entry that takes signals away and has no place for its completion. It is
a condition on the memory and the tables before the call. -/
def Overruns (f : Fastpath) (procId : BitVec 8) (n : BitVec 32)
    (memory : Option (List (BitVec 8))) : Prop :=
  ∃ p bytes i s sqe, procIndex? procId = some p ∧ memory = some bytes ∧
    (f.ringDescriptors p).active = true ∧ f.Reaches p n bytes i s sqe ∧
    bytes.length < (f.ringDescriptors p).cqPtr.toNat + i * cqeSize + cqeSize ∧
    s.2.Clears p sqe

end Fastpath

/-! ## What an entry becomes

Decoding and the check of the handle, and then the call. The handle is current, so the slot holds
what was registered. -/

/-- The errors of the direct calls, of which there are two. -/
theorem resolveNotification_error {st : CapState} {b : BitVec 8} {slot : BitVec 32} {rc : ℤ}
    (h : st.resolveNotification b slot = .error rc) : rc = ePerm ∨ rc = eInval := by
  rw [CapState.resolveNotification] at h
  split at h
  · exact .inr (Except.error.inj h).symm
  · split at h
    · exact .inr (Except.error.inj h).symm
    · simp only at h
      split at h
      · exact .inl (Except.error.inj h).symm
      · split at h
        · exact .inl (Except.error.inj h).symm
        · split at h
          · exact .inl (Except.error.inj h).symm
          · cases h

/-- A wait returns an `i32` that is not positive. -/
theorem notificationWaitImpl_range (st : CapState) (b : BitVec 8) (slot : BitVec 32) :
    -4 ≤ notificationWaitImpl st b slot ∧ notificationWaitImpl st b slot ≤ 0 := by
  rw [notificationWaitImpl]
  split
  · rename_i rc h
    rcases resolveNotification_error h with rfl | rfl <;> decide
  · split
    · split <;> decide
    · decide

/-- **An ack** fails and leaves everything as it was, or clears the signals of the
notification it was resolved to. -/
theorem notificationAckImpl_cases (st : CapState) (b : BitVec 8) (slot : BitVec 32) :
    (∃ rc, notificationAckImpl st b slot = (rc, st) ∧ -4 ≤ rc ∧ rc < 0) ∨
      ∃ j notif, st.resolveNotification b slot = .ok j ∧
        st.objectPools.notifications.get j = some notif ∧
        notificationAckImpl st b slot = (0, st.modifyNotification j Notification.clear) := by
  rw [notificationAckImpl]
  rcases hres : st.resolveNotification b slot with rc | j
  · left
    refine ⟨rc, rfl, ?_⟩
    rcases resolveNotification_error hres with rfl | rfl <;> decide
  · rcases hget : st.objectPools.notifications.get j with _ | notif
    · left
      refine ⟨eInval, ?_, by decide, by decide⟩
      simp only [hget]
    · right
      refine ⟨j, notif, rfl, hget, ?_⟩
      simp only [hget]

/-- What the direct calls return, and that a failed one has no effect. -/
theorem direct_some {st st' : CapState} {p : Proc} {op : BitVec 32} {slot : BitVec 8} {r : ℤ}
    (h : st.direct p op slot = some (r, st')) : -4 ≤ r ∧ r ≤ 0 ∧ (r < 0 → st' = st) := by
  rw [CapState.direct] at h
  split at h
  · obtain ⟨rfl, rfl⟩ := Prod.mk.inj (Option.some.inj h)
    obtain ⟨hlow, hhigh⟩ := notificationWaitImpl_range st (procByte p) (slot.setWidth 32)
    exact ⟨hlow, hhigh, fun _ => rfl⟩
  · split at h
    · replace h := Option.some.inj h
      rcases notificationAckImpl_cases st (procByte p) (slot.setWidth 32) with
        ⟨rc, hack, hlow, hneg⟩ | ⟨j, notif, -, -, hack⟩
      · rw [hack] at h
        obtain ⟨rfl, rfl⟩ := Prod.mk.inj h
        exact ⟨hlow, Int.le_of_lt hneg, fun _ => rfl⟩
      · rw [hack] at h
        obtain ⟨rfl, rfl⟩ := Prod.mk.inj h
        exact ⟨by decide, by decide, fun h => absurd h (by decide)⟩
    · cases h

theorem Entry.range {p : Proc} {sqe : Sqe} {f f' : Fastpath} {r : ℤ} (h : Entry p sqe f r f') :
    -2 ^ 31 ≤ r ∧ r < 2 ^ 31 := by
  cases h with
  | refused hlow hr => exact ⟨hlow, by omega⟩
  | called _ _ h =>
    obtain ⟨hlow, hhigh, -⟩ := direct_some h
    exact ⟨by omega, by omega⟩

/-- The result of an entry tells what it became. -/
theorem Entry.unique {p : Proc} {sqe : Sqe} {f f₁ f₂ : Fastpath} {r : ℤ}
    (h₁ : Entry p sqe f r f₁) (h₂ : Entry p sqe f r f₂) : f₁ = f₂ := by
  cases h₁ with
  | refused _ hr =>
    cases h₂ with
    | refused => rfl
    | called _ _ h =>
      obtain rfl := (direct_some h).2.2 hr
      rfl
  | called hi hlive h =>
    cases h₂ with
    | refused _ hr =>
      obtain rfl := (direct_some h).2.2 hr
      rfl
    | called hi' hlive' h' =>
      obtain rfl := Option.some.inj (hi.symm.trans hi')
      obtain ⟨-, rfl⟩ := Prod.mk.inj (Option.some.inj (h.symm.trans h'))
      rfl

namespace Fastpath

variable {f : Fastpath} {p : Proc} {sqe : Sqe}

/-- What the handle of an entry is checked for. -/
theorem validateHandle_ok {regIdx : BitVec 32} {live perm : Bool} {g g' : BitVec 16}
    (h : validateHandle regIdx live g g' perm = .ok) : live = true ∧ g = g' ∧ perm = true := by
  rw [validateHandle] at h
  split at h
  · cases h
  · split at h
    · cases h
    · rename_i hlive
      split at h
      · cases h
      · rename_i hgen
        split at h
        · cases h
        · rename_i hperm
          exact ⟨by simpa using hlive, not_ne_iff.mp hgen, by simpa using hperm⟩

/-- A refused entry changes nothing, and an entry that gets through is the direct call on
the slot of its handle, which is current and of a notification. -/
theorem dispatch_cases (f : Fastpath) (p : Proc) (sqe : Sqe) :
    (∃ r, f.dispatch p sqe = (r, f) ∧ (r = ePerm ∨ r = eInval)) ∨
      ∃ i r caps, regArg? sqe.regIdx = some i ∧
        ((f.regTables p).slots i).kind = .notification ∧
        f.caps.genAt (p, slotIndex ((f.regTables p).slots i).cspaceSlot) =
          ((f.regTables p).slots i).regGeneration ∧
        f.caps.direct p sqe.op ((f.regTables p).slots i).cspaceSlot = some (r, caps) ∧
        f.dispatch p sqe = (r, { f with caps := caps }) := by
  rw [dispatch]
  split
  · exact .inl ⟨eInval, rfl, .inr rfl⟩
  · split
    · exact .inl ⟨eInval, rfl, .inr rfl⟩
    · rename_i i hi
      simp only
      split
      · rename_i hok
        obtain ⟨hlive, hgen, hperm⟩ := validateHandle_ok hok
        rw [if_pos hlive] at hgen
        have hkind : ((f.regTables p).slots i).kind = .notification := by
          rw [opPermittedFor] at hperm
          split at hperm
          · simpa using hperm
          · cases hperm
        right
        by_cases hwait : sqe.op = ringOpNotifyWait
        · refine ⟨i, _, f.caps, hi, hkind, hgen.symm, ?_, if_pos hwait⟩
          rw [CapState.direct, if_pos hwait]
        · by_cases hack : sqe.op = ringOpNotifyAck
          · generalize hout : notificationAckImpl f.caps (procByte p)
              (((f.regTables p).slots i).cspaceSlot.setWidth 32) = out
            refine ⟨i, out.1, out.2, hi, hkind, hgen.symm, ?_, ?_⟩
            · rw [CapState.direct, if_neg hwait, if_pos hack, hout]
            · rw [if_neg hwait, if_pos hack]
          · -- no other operation is permitted for any kind
            rw [opPermittedFor, if_neg fun h => h.elim hwait hack] at hperm
            cases hperm
      · exact .inl ⟨ePerm, rfl, .inl rfl⟩
      · exact .inl ⟨eInval, rfl, .inr rfl⟩

/-- **What a dispatch does** is what may become of the entry, by its operation and its handle. -/
theorem dispatch_entry (f : Fastpath) (p : Proc) (sqe : Sqe) :
    Entry p sqe f (f.dispatch p sqe).1 (f.dispatch p sqe).2 := by
  rcases f.dispatch_cases p sqe with ⟨r, h, hr⟩ | ⟨i, r, caps, hi, hkind, -, hdirect, h⟩
  · have hrange : -2 ^ 31 ≤ r ∧ r < 0 := by
      rcases hr with rfl | rfl <;> decide
    rw [h]
    exact .refused hrange.1 hrange.2
  · rw [h]
    exact .called hi (by rw [RegEntry.isEmpty, hkind]; rfl) hdirect

/-- A live and current handle of a notification passes. -/
theorem validateHandle_current {regIdx : BitVec 32} {i : Fin regSlots}
    (hi : regArg? regIdx = some i) (g : BitVec 16) : validateHandle regIdx true g g true = .ok := by
  rw [regArg?] at hi
  split at hi
  · rename_i hlt
    have hnot : ¬ BitVec.ofNat 32 regSlots ≤ regIdx := by
      rw [BitVec.le_def]
      exact Nat.not_le.mpr hlt
    rw [validateHandle, if_neg hnot]
    simp
  · cases hi

/-- An ack through a current handle is the direct one. -/
theorem dispatch_of_current {i : Fin regSlots} (hack : sqe.op = ringOpNotifyAck)
    (hi : regArg? sqe.regIdx = some i) (hkind : ((f.regTables p).slots i).kind = .notification)
    (hgen : f.caps.genAt (p, slotIndex ((f.regTables p).slots i).cspaceSlot) =
      ((f.regTables p).slots i).regGeneration) :
    f.dispatch p sqe =
      ((notificationAckImpl f.caps (procByte p)
          (((f.regTables p).slots i).cspaceSlot.setWidth 32)).1,
        { f with caps := (notificationAckImpl f.caps (procByte p)
          (((f.regTables p).slots i).cspaceSlot.setWidth 32)).2 }) := by
  have hlive : (!((f.regTables p).slots i).isEmpty) = true := by
    rw [RegEntry.isEmpty, hkind]
    rfl
  have hperm : opPermittedFor .notification sqe.op = true := by
    rw [hack]
    rfl
  have hknown : ¬ (!isKnownOp sqe.op) = true := by
    rw [hack]
    decide
  have hnotWait : ¬ sqe.op = ringOpNotifyWait := by
    rw [hack]
    decide
  rw [dispatch, if_neg hknown, hi]
  simp only [hkind, hgen, hlive, hperm, if_true]
  rw [validateHandle_current hi]
  simp only
  rw [if_neg hnotWait, if_pos hack]

/-- Clearing signals that are there changes the pool. -/
theorem modifyNotification_clear_ne {st : CapState} {j : ℕ} {notif : Notification}
    (hget : st.objectPools.notifications.get j = some notif) (hsignals : notif.signals ≠ 0#32) :
    st.modifyNotification j Notification.clear ≠ st := by
  intro h
  have hafter := congrArg (fun st => st.objectPools.notifications.get j) h
  change (st.objectPools.notifications.modify j Notification.clear).get j = _ at hafter
  rw [Pool.get_modify, if_pos rfl, hget] at hafter
  exact hsignals (congrArg Notification.signals (Option.some.inj hafter)).symm

/-- Clearing signals that are not there changes nothing. -/
theorem modifyNotification_clear_eq {st : CapState} {j : ℕ} {notif : Notification}
    (hget : st.objectPools.notifications.get j = some notif) (hsignals : notif.signals = 0#32) :
    st.modifyNotification j Notification.clear = st := by
  have hpool : st.objectPools.notifications.modify j Notification.clear =
      st.objectPools.notifications := by
    apply Pool.modify_eq_self
    intro n hn
    obtain rfl := Option.some.inj (hget.symm.trans hn)
    rw [Notification.clear, ← hsignals]
  rw [CapState.modifyNotification, hpool]

/-- **When a dispatch has an effect**: it clears signals that are pending, and does nothing else.
-/
theorem dispatch_ne_iff : (f.dispatch p sqe).2 ≠ f ↔ f.Clears p sqe := by
  constructor
  · intro hne
    rcases f.dispatch_cases p sqe with ⟨r, h, -⟩ | ⟨i, r, caps, hi, hkind, hgen, hdirect, h⟩
    · rw [h] at hne
      exact absurd rfl hne
    · rw [h] at hne
      have hcaps : caps ≠ f.caps := by
        rintro rfl
        exact hne rfl
      rw [CapState.direct] at hdirect
      split at hdirect
      · exact absurd (congrArg Prod.snd (Option.some.inj hdirect)).symm hcaps
      · split at hdirect
        · rename_i hack
          replace hdirect := Option.some.inj hdirect
          rcases notificationAckImpl_cases f.caps (procByte p)
              (((f.regTables p).slots i).cspaceSlot.setWidth 32) with
            ⟨rc, hfail, -, -⟩ | ⟨j, notif, hres, hget, hdone⟩
          · rw [hfail] at hdirect
            exact absurd (congrArg Prod.snd hdirect).symm hcaps
          · rw [hdone] at hdirect
            refine ⟨hack, i, hi, hkind, hgen, j, notif, hres, hget, fun hzero => hcaps ?_⟩
            rw [← (Prod.mk.inj hdirect).2]
            exact modifyNotification_clear_eq hget hzero
        · cases hdirect
  · rintro ⟨hack, i, hi, hkind, hgen, j, notif, hres, hget, hsignals⟩ heq
    have hdone : f.dispatch p sqe =
        (0, { f with caps := f.caps.modifyNotification j Notification.clear }) := by
      rw [dispatch_of_current hack hi hkind hgen, notificationAckImpl, hres]
      simp only [hget]
    rw [hdone] at heq
    exact modifyNotification_clear_ne hget hsignals (congrArg Fastpath.caps heq)

end Fastpath

/-! ## One round of the drain

A round reads, dispatches and completes. It can break before the dispatch or after it, and only
the second is a loss. -/

namespace Fastpath

variable {f : Fastpath} {p : Proc} {desc : RingDesc} {i : ℕ} {s t : Drained}

theorem drainEntry_ok (h : drainEntry p desc i s = .ok t) : Served p desc i s t := by
  rw [drainEntry] at h
  split at h
  · cases h
  · rename_i buf hread
    split at h
    · cases h
    · rename_i sqe hsqe
      simp only at h
      split at h
      · cases h
      · rename_i memory hpost
        obtain rfl := Except.ok.inj h
        exact .mk hread hsqe (dispatch_entry s.2 p sqe) hpost

/-- A round breaks before it dispatches anything, or after it dispatched an entry that
has no place for its completion. -/
theorem drainEntry_error (h : drainEntry p desc i s = .error t) :
    t = s ∨ ∃ buf sqe, readAt s.1 (desc.sqPtr.toNat + i * sqeSize) sqeSize = some buf ∧
      decodeSqe buf 0 = some sqe ∧
      s.1.length < desc.cqPtr.toNat + i * cqeSize + cqeSize ∧
      t = (s.1, (s.2.dispatch p sqe).2) := by
  rw [drainEntry] at h
  split at h
  · exact .inl (Except.error.inj h).symm
  · rename_i buf hread
    split at h
    · exact .inl (Except.error.inj h).symm
    · rename_i sqe hsqe
      simp only at h
      split at h
      · rename_i hpost
        refine .inr ⟨buf, sqe, hread, hsqe, ?_, (Except.error.inj h).symm⟩
        rw [writeAt, length_encodeCqe] at hpost
        split at hpost
        · cases hpost
        · omega
      · cases h

/-- Where there is no room for the completion the entry is executed all the same, and the loop
breaks. -/
theorem drainEntry_of_full {buf : List (BitVec 8)} {sqe : Sqe}
    (hread : readAt s.1 (desc.sqPtr.toNat + i * sqeSize) sqeSize = some buf)
    (hsqe : decodeSqe buf 0 = some sqe)
    (hfull : s.1.length < desc.cqPtr.toNat + i * cqeSize + cqeSize) :
    drainEntry p desc i s = .error (s.1, (s.2.dispatch p sqe).2) := by
  have hpost : writeAt s.1 (desc.cqPtr.toNat + i * cqeSize)
      (encodeCqe sqe.userData (BitVec.ofInt 64 (s.2.dispatch p sqe).1)) = none := by
    rw [writeAt, length_encodeCqe]
    exact if_neg (Nat.not_le.mpr hfull)
  simp only [drainEntry, hread, hsqe, hpost]

theorem Served.length (h : Served p desc i s t) : t.1.length = s.1.length := by
  obtain ⟨-, -, -, hpost⟩ := h
  exact Lib.length_writeAt hpost

theorem length_of_chain {k : ℕ} (h : Chain (Served p desc) s k t) : t.1.length = s.1.length := by
  induction h with
  | zero => rfl
  | succ _ hstep ih => rw [Served.length hstep, ih]

/-- Completions are posted from the base of the completion queue up. -/
theorem getElem?_of_chain {k j : ℕ} (h : Chain (Served p desc) s k t)
    (hj : desc.cqPtr.toNat + k * cqeSize ≤ j) : t.1[j]? = s.1[j]? := by
  induction h with
  | zero => rfl
  | @succ k t u _ hstep ih =>
    obtain ⟨-, -, -, hpost⟩ := hstep
    rw [Lib.getElem?_writeAt hpost, length_encodeCqe]
    have hnext : desc.cqPtr.toNat + k * cqeSize + cqeSize ≤ j := by
      rwa [Nat.succ_mul, ← Nat.add_assoc] at hj
    rw [if_neg (by omega)]
    exact ih (Nat.le_of_add_right_le hnext)

/-- A completion holds its token and its result. -/
theorem encodeCqe_inj {u u' r r' : BitVec 64} (h : encodeCqe u r = encodeCqe u' r') :
    u = u' ∧ r = r' := by
  have hlast := List.append_nil (leBytes r)
  have hlast' := List.append_nil (leBytes r')
  constructor
  · have hword := congrArg (fun buf => leWord buf 0) h
    simp only [encodeCqe, leWord_zero] at hword
    exact hword
  · have hword := congrArg (fun buf => leWord buf (8 + 0)) h
    simp only [encodeCqe, leWord_succ] at hword
    rwa [← hlast, ← hlast', leWord_zero, leWord_zero] at hword

/-- **The ring tells.** Memory and completions determine what the entries served did. -/
theorem unique_of_memory {k : ℕ} {u : Drained} (h : Chain (Served p desc) s k t)
    (h' : Chain (Served p desc) s k u) (hmem : t.1 = u.1) : t = u := by
  induction h generalizing u with
  | zero =>
    cases h'
    rfl
  | @succ k t₀ t hchain hstep ih =>
    cases h' with
    | @succ _ u₀ _ hchain' hstep' =>
      obtain ⟨hread, hsqe, hentry, hpost⟩ := hstep
      obtain ⟨hread', hsqe', hentry', hpost'⟩ := hstep'
      simp only at hmem
      subst hmem
      -- the rounds before left one memory: outside completion `k` it is the last one's,
      -- and inside it the first one's
      have hbefore : t₀.1 = u₀.1 := by
        apply List.ext_getElem?
        intro j
        by_cases hj : desc.cqPtr.toNat + k * cqeSize ≤ j
        · rw [getElem?_of_chain hchain hj, getElem?_of_chain hchain' hj]
        · have hout := Lib.getElem?_writeAt hpost j
          have hout' := Lib.getElem?_writeAt hpost' j
          rw [if_neg fun h => hj h.1] at hout hout'
          rw [← hout, hout']
      obtain rfl := ih hchain' hbefore
      obtain rfl := Option.some.inj (hread.symm.trans hread')
      obtain rfl := Option.some.inj (hsqe.symm.trans hsqe')
      -- the two completions were read back from one memory
      have hcqe := Lib.readAt_writeAt hpost
      have hcqe' := Lib.readAt_writeAt hpost'
      rw [length_encodeCqe] at hcqe hcqe'
      obtain ⟨-, hr⟩ := encodeCqe_inj (Option.some.inj (hcqe.symm.trans hcqe'))
      obtain ⟨hlow, hhigh⟩ := hentry.range
      obtain ⟨hlow', hhigh'⟩ := hentry'.range
      have hint := congrArg BitVec.toInt hr
      rw [BitVec.toInt_ofInt_eq_self (by decide) (by omega) (by omega),
        BitVec.toInt_ofInt_eq_self (by decide) (by omega) (by omega)] at hint
      subst hint
      obtain rfl := hentry.unique hentry'
      rfl

/-! ## The batch

Round after round. A batch that stops after an entry took effect has done more than it says. -/

/-- The drain of a configured ring, as a loop over the entries. -/
theorem ringSubmitImpl_of_active {procId : BitVec 8} (n : BitVec 32) (bytes : List (BitVec 8))
    (hp : procIndex? procId = some p) (hactive : (f.ringDescriptors p).active = true) :
    ∃ count : ℕ, count ≤ n.toNat ∧ count ≤ (f.ringDescriptors p).entries.toNat ∧
      (∀ i < n.toNat, i < (f.ringDescriptors p).entries.toNat → i < count) ∧
      f.ringSubmitImpl procId n (some bytes) =
        (((Lib.batch (drainEntry p (f.ringDescriptors p)) count (bytes, f)).1 : ℤ),
          some (Lib.batch (drainEntry p (f.ringDescriptors p)) count (bytes, f)).2.1,
          (Lib.batch (drainEntry p (f.ringDescriptors p)) count (bytes, f)).2.2) := by
  refine ⟨(if n < (f.ringDescriptors p).entries then n
    else (f.ringDescriptors p).entries).toNat, ?_, ?_, ?_, ?_⟩
  · split
    · exact Nat.le_refl _
    · rename_i hle
      exact Nat.le_of_not_lt hle
  · split
    · rename_i hlt
      exact Nat.le_of_lt hlt
    · exact Nat.le_refl _
  · intro i hn hentries
    split
    · exact hn
    · exact hentries
  · simp [ringSubmitImpl, hp, hactive]

/-- **A batch comes to single calls**, unless it overruns: each entry served is one call, and
posts its completion. -/
theorem refines_of_not_overruns {procId : BitVec 8} {n : BitVec 32}
    {memory : Option (List (BitVec 8))} (h : ¬ f.Overruns procId n memory) :
    f.Refines procId n memory := by
  rcases hp : procIndex? procId with _ | p
  · have hout : f.ringSubmitImpl procId n memory = (eInval, memory, f) := by
      rw [ringSubmitImpl, hp]
    refine ⟨fun _ => by rw [hout], fun k hk => ?_⟩
    rw [hout] at hk
    exact absurd hk (by change eInval ≠ _; have := eInval_neg; omega)
  · by_cases hactive : (f.ringDescriptors p).active = true
    · rcases memory with _ | bytes
      · have hout : f.ringSubmitImpl procId n none = (eNomem, none, f) := by
          simp [ringSubmitImpl, hp, hactive]
        refine ⟨fun _ => by rw [hout], fun k hk => ?_⟩
        rw [hout] at hk
        exact absurd hk (by change eNomem ≠ _; have := eNomem_neg; omega)
      · obtain ⟨count, hn, hentries, -, hout⟩ :=
          f.ringSubmitImpl_of_active n bytes hp hactive
        rcases hbatch : Lib.batch (drainEntry p (f.ringDescriptors p)) count (bytes, f) with
          ⟨k, u⟩
        rw [hbatch] at hout
        obtain ⟨v, hchain, hend⟩ := Lib.batch_spec hbatch
        have hserved : Chain (Served p (f.ringDescriptors p)) (bytes, f) k v :=
          hchain.mono fun i t u h => drainEntry_ok h
        have hsame : u = v := by
          rcases hend with ⟨-, huv⟩ | ⟨hlt, hbreak⟩
          · exact huv
          · rcases drainEntry_error hbreak with huv | ⟨buf, sqe, hread, hsqe, hfull, huv⟩
            · exact huv
            · -- the entry was dispatched: it had no effect, or the batch overran
              have hstill : (v.2.dispatch p sqe).2 = v.2 := by
                by_contra hne
                apply h
                rw [length_of_chain hserved] at hfull
                exact ⟨p, bytes, k, v, sqe, hp, rfl, hactive,
                  ⟨by omega, by omega, hchain, buf, hread, hsqe⟩, hfull, dispatch_ne_iff.mp hne⟩
              rw [huv, hstill]
        have hk : k ≤ count := by
          rcases hend with ⟨rfl, -⟩ | ⟨hlt, -⟩
          · exact Nat.le_refl _
          · exact Nat.le_of_lt hlt
        refine ⟨fun hneg => ?_, fun k' hk' => ?_⟩
        · rw [hout] at hneg
          exact absurd hneg (by change ¬ (k : ℤ) < 0; omega)
        · rw [hout] at hk'
          obtain rfl : k = k' := Int.ofNat.inj hk'
          refine ⟨p, bytes, u.1, u.2, hp, rfl, by rw [hout], by omega, by omega, ?_⟩
          rw [hsame]
          exact hserved
    · have hout : f.ringSubmitImpl procId n memory = (eInval, memory, f) := by
        simp [ringSubmitImpl, hp, hactive]
      refine ⟨fun _ => by rw [hout], fun k hk => ?_⟩
      rw [hout] at hk
      exact absurd hk (by change eInval ≠ _; have := eInval_neg; omega)

/-- A batch that overruns leaves signals taken away that no counted entry took. -/
theorem not_refines_of_overruns {procId : BitVec 8} {n : BitVec 32}
    {memory : Option (List (BitVec 8))} (h : f.Overruns procId n memory) :
    ¬ f.Refines procId n memory := by
  intro href
  obtain ⟨p, bytes, i, s, sqe, hp, rfl, hactive, ⟨hn, hentries, hchain, buf, hread, hsqe⟩, hfull,
    hclears⟩ := h
  obtain ⟨count, -, -, hcount, hout⟩ :=
    f.ringSubmitImpl_of_active n bytes hp hactive
  have hserved : Chain (Served p (f.ringDescriptors p)) (bytes, f) i s :=
    hchain.mono fun i t u h => drainEntry_ok h
  rw [← length_of_chain hserved] at hfull
  have hbreak := drainEntry_of_full (p := p) hread hsqe hfull
  rw [Lib.batch_of_break hchain (hcount i hn hentries) hbreak] at hout
  obtain ⟨p', bytes', after, f', hp', hbytes, hend, -, -, hspec⟩ := href.counted i (by rw [hout])
  obtain rfl := Option.some.inj (hp.symm.trans hp')
  obtain rfl := Option.some.inj hbytes
  rw [hout] at hend
  obtain ⟨hafter, hf'⟩ := Prod.mk.inj hend
  obtain rfl := Option.some.inj hafter
  have hsame := unique_of_memory hserved hspec rfl
  exact dispatch_ne_iff.mpr hclears (hf'.trans (congrArg Prod.snd hsame).symm)

/-- **The ring refines the direct syscalls, exactly** where no batch overruns the memory that its
completions go to. -/
theorem refines_iff (f : Fastpath) (procId : BitVec 8) (n : BitVec 32)
    (memory : Option (List (BitVec 8))) :
    f.Refines procId n memory ↔ ¬ f.Overruns procId n memory :=
  ⟨fun h hover => not_refines_of_overruns hover h, refines_of_not_overruns⟩

/-! ## A completion queue past the end of memory

The check at set-up is of the offsets, not of the memory, which may be smaller. -/

/-- The net driver, with an interrupt pending, has registered its notification and set up
a ring whose completions begin where its one page ends. -/
def overrunning : Fastpath :=
  let signalled := (bootState .qemu).modifyNotification 0 fun notif =>
    { notif with signals := 0x100#32 }
  let f : Fastpath := ⟨signalled, fun _ => .new, fun _ => .empty⟩
  ((f.capRegisterImpl 4#8 1#32).2.ringSetupImpl 4#8 0#32 65536#32 1#32).2

/-- A page that begins with an ack through handle 0. -/
def ackPage : List (BitVec 8) := 2#8 :: List.replicate 65535 0#8

theorem length_ackPage : ackPage.length = 65536 := by
  rw [ackPage, List.length_cons, List.length_replicate]

theorem readAt_ackPage : readAt ackPage 0 sqeSize = some (ackPage.take sqeSize) := by
  rw [readAt, if_pos (by rw [length_ackPage]; decide), List.drop_zero]

/-- **The ack is executed and not counted**: its completion has no room in the memory. -/
theorem overrun_not_counted : ¬ overrunning.Refines 4#8 1#32 (some ackPage) := by
  have hfull : ackPage.length < (65536#32).toNat + 0 * cqeSize + cqeSize := by
    rw [length_ackPage]
    decide
  have hclears : overrunning.Clears 4 ⟨2#32, 0#32, 0#32, 0#64, 0#64, 0#64⟩ :=
    ⟨rfl, 0, rfl, rfl, rfl, 0, ⟨0x100#32, none, 1⟩, rfl, rfl, by decide⟩
  apply not_refines_of_overruns
  exact ⟨4, ackPage, 0, (ackPage, overrunning), _, rfl, rfl, rfl,
    ⟨by decide, by decide, .zero, ackPage.take sqeSize, readAt_ackPage, rfl⟩, hfull, hclears⟩

end Fastpath

end Wari
