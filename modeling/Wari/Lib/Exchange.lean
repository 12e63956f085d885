import Wari.Lib.Rendezvous
import Mathlib.Data.List.Basic

/-!
# A rendezvous with its history

Messages are numbered as they are offered. The history keeps which message each
party is suspended in offering, which were queued where, and which were delivered
and answered, in order. `Orderly` says that the history fits the rendezvous, and
`InOrder` that an endpoint's queued messages are those delivered, in that order, and
then those of the parties still queued. Every step keeps both; a dropped sender
breaks the second.
-/

namespace Wari.Lib

universe u v

/-- Who waits where, and what has been offered, delivered and answered. -/
structure Exchange (π : Type u) (ε : Type v) extends Rendezvous π ε where
  /-- number of messages offered -/
  offered : ℕ
  /-- the message a party is suspended in offering -/
  pending : π → Option ℕ
  /-- messages that were queued at an endpoint, in that order -/
  queued : ε → List ℕ
  /-- messages received, in that order -/
  delivered : List ℕ
  /-- messages answered, in that order -/
  answered : List ℕ

namespace Exchange

variable {π : Type u} {ε : Type v}

/-- The history fits the rendezvous: messages are numbered below the number offered,
each is delivered once and answered once, after its delivery, and whoever waits to
send or for a reply does so with a message that is not delivered yet, or delivered and
not answered. -/
structure Orderly (x : Exchange π ε) : Prop where
  sound : x.toRendezvous.Sound
  pending_lt : ∀ p i, x.pending p = some i → i < x.offered
  pending_inj : ∀ p q i, x.pending p = some i → x.pending q = some i → p = q
  receiving : ∀ p e, x.wait p = some (.recv, e) → x.pending p = none
  sending : ∀ p e, x.Sending p e → ∃ i, x.pending p = some i ∧ i ∉ x.delivered
  replying : ∀ p e, x.wait p = some (.reply, e) →
    ∃ i, x.pending p = some i ∧ i ∈ x.delivered ∧ i ∉ x.answered
  queued_lt : ∀ e, ∀ i ∈ x.queued e, i < x.offered
  queued_inj : ∀ d e i, i ∈ x.queued d → i ∈ x.queued e → d = e
  queued_of_mem : ∀ e, ∀ p ∈ x.senders e, ∀ i, x.pending p = some i → i ∈ x.queued e
  delivered_lt : ∀ i ∈ x.delivered, i < x.offered
  delivered_nodup : x.delivered.Nodup
  answered_delivered : ∀ i ∈ x.answered, i ∈ x.delivered
  answered_nodup : x.answered.Nodup

/-- The messages queued at an endpoint are received in the order they were queued, and
those not received are queued still. -/
def InOrder (x : Exchange π ε) : Prop :=
  ∀ e, x.queued e = x.delivered.filter (· ∈ x.queued e) ++ (x.senders e).filterMap x.pending

/-- A fresh message is neither delivered nor queued. -/
theorem Orderly.offered_fresh {x : Exchange π ε} (h : x.Orderly) :
    x.offered ∉ x.delivered ∧ x.offered ∉ x.answered ∧ (∀ e, x.offered ∉ x.queued e) ∧
      ∀ p, x.pending p ≠ some x.offered := by
  have hdelivered : x.offered ∉ x.delivered := fun hi => Nat.lt_irrefl _ (h.delivered_lt _ hi)
  exact ⟨hdelivered, fun hi => hdelivered (h.answered_delivered _ hi),
    fun e hi => Nat.lt_irrefl _ (h.queued_lt e _ hi),
    fun p hp => Nat.lt_irrefl _ (h.pending_lt p _ hp)⟩

variable [DecidableEq π] [DecidableEq ε]

/-! ## Steps

What may become of a message in one step, and that each step keeps the history orderly. -/

/-- The steps of the exchange, each of which says what becomes of one message. -/
inductive Step (x : Exchange π ε) : Exchange π ε → Prop where
  /-- a message is offered, and refused -/
  | refuse : Step x { x with offered := x.offered + 1 }
  /-- a message is offered and handed to the first receiver -/
  | hand {p q : π} {e : ε} {rest : List π} {o : Option (Wait × ε)}
      (hq : x.receivers e = q :: rest) (hp : x.wait p = none) (hnone : x.pending p = none)
      (ho : o = none ∨ o = some (.reply, e)) :
      Step x ⟨((x.setReceivers e rest).setWait q none).setWait p o, x.offered + 1,
        Function.update x.pending p (o.map fun _ => x.offered), x.queued,
        x.delivered ++ [x.offered], x.answered⟩
  /-- a message is offered and queued -/
  | queue {p : π} {e : ε} {w : Wait} (hp : x.wait p = none) (hnone : x.pending p = none)
      (hw : w = .send ∨ w = .call) :
      Step x ⟨(x.setSenders e (x.senders e ++ [p])).setWait p (some (w, e)), x.offered + 1,
        Function.update x.pending p (some x.offered),
        Function.update x.queued e (x.queued e ++ [x.offered]), x.delivered, x.answered⟩
  /-- the first sender's message is received -/
  | take {q : π} {e : ε} {rest : List π} {i : ℕ} (hq : x.senders e = q :: rest)
      (hi : x.pending q = some i) :
      Step x ⟨(x.setSenders e rest).setWait q
          (if x.wait q = some (.call, e) then some (.reply, e) else none),
        x.offered, x.pending, x.queued, x.delivered ++ [i], x.answered⟩
  /-- a party queues to receive -/
  | await {p : π} {e : ε} (hp : x.wait p = none) (hnone : x.pending p = none) :
      Step x { x with
        toRendezvous :=
          (x.setReceivers e (x.receivers e ++ [p])).setWait p (some (.recv, e)) }
  /-- a message is answered -/
  | answer {q : π} {e : ε} {i : ℕ} (hq : x.wait q = some (.reply, e))
      (hi : x.pending q = some i) :
      Step x { x with
        toRendezvous := x.setWait q none
        answered := x.answered ++ [i] }
  /-- a party that was suspended goes on -/
  | resume {p : π} (hp : x.wait p = none) :
      Step x { x with pending := Function.update x.pending p none }

/-- The first sender falls off its queue, with its message. -/
inductive Drop (x : Exchange π ε) : Exchange π ε → Prop where
  | mk {q : π} {e : ε} {rest : List π} (hq : x.senders e = q :: rest) :
      Drop x { x with toRendezvous := x.setSenders e rest }

omit [DecidableEq π] in
theorem Orderly.drop {x y : Exchange π ε} (h : x.Orderly) (hd : x.Drop y) : y.Orderly := by
  cases hd with
  | @mk q e rest hq =>
    refine
      { h with
        sound := (h.sound.setSenders_tail hq).1
        queued_of_mem := fun d p hp i hi => ?_ }
    refine h.queued_of_mem d p ?_ i hi
    change p ∈ (x.setSenders e rest).senders d at hp
    rw [Rendezvous.senders_setSenders] at hp
    split at hp
    · rename_i hde
      rw [hde, hq]
      exact List.mem_cons_of_mem _ hp
    · exact hp

omit [DecidableEq ε] in
/-- Whoever waits after `p` has come to wait for something else waited before. -/
theorem wait_of_setWait {s : Rendezvous π ε} {p r : π} {o o' : Option (Wait × ε)}
    (hw : (s.setWait p o).wait r = o') (ho : o ≠ o') : r ≠ p ∧ s.wait r = o' := by
  rw [Rendezvous.wait_setWait] at hw
  split at hw
  · exact (ho hw).elim
  · rename_i hrp
    exact ⟨hrp, hw⟩

omit [DecidableEq ε] in
/-- A party becomes suspended in offering a fresh message, or goes on. -/
theorem Orderly.pending_update {x : Exchange π ε} (h : x.Orderly) (p : π) {o : Option ℕ}
    (ho : o = none ∨ o = some x.offered) :
    (∀ r i, Function.update x.pending p o r = some i → i < x.offered + 1) ∧
      ∀ r s i, Function.update x.pending p o r = some i →
        Function.update x.pending p o s = some i → r = s := by
  have hfresh := h.offered_fresh.2.2.2
  have hat : ∀ r i, Function.update x.pending p o r = some i →
      r = p ∧ i = x.offered ∨ r ≠ p ∧ x.pending r = some i := by
    intro r i hr
    by_cases hrp : r = p
    · left
      rw [hrp, Function.update_self] at hr
      rcases ho with rfl | rfl
      · cases hr
      · exact ⟨hrp, (Option.some.inj hr).symm⟩
    · rw [Function.update_of_ne hrp] at hr
      exact .inr ⟨hrp, hr⟩
  refine ⟨fun r i hr => ?_, fun r s i hr hs => ?_⟩
  · rcases hat r i hr with ⟨-, rfl⟩ | ⟨-, hr⟩
    · exact Nat.lt_succ_self _
    · exact Nat.lt_succ_of_lt (h.pending_lt r i hr)
  · rcases hat r i hr with ⟨hrp, rfl⟩ | ⟨-, hr⟩
    · rcases hat s _ hs with ⟨hsp, -⟩ | ⟨-, hs⟩
      · rw [hrp, hsp]
      · exact (hfresh s hs).elim
    · rcases hat s i hs with ⟨-, rfl⟩ | ⟨-, hs⟩
      · exact (hfresh r hr).elim
      · exact h.pending_inj r s i hr hs

omit [DecidableEq π] [DecidableEq ε] in
theorem Orderly.nodup_delivered_append {x : Exchange π ε} (h : x.Orderly) {i : ℕ}
    (hi : i ∉ x.delivered) : (x.delivered ++ [i]).Nodup := by
  rw [List.nodup_append]
  refine ⟨h.delivered_nodup, List.nodup_singleton i, fun a ha b hb => ?_⟩
  rw [List.mem_singleton] at hb
  rintro rfl
  exact hi (hb ▸ ha)

omit [DecidableEq π] [DecidableEq ε] in
/-- What is received from the queue was not received before. -/
theorem Orderly.not_delivered {x : Exchange π ε} (h : x.Orderly) {p : π} {e : ε} {i : ℕ}
    (hp : p ∈ x.senders e) (hi : x.pending p = some i) : i ∉ x.delivered := by
  obtain ⟨j, hj, hnot⟩ := h.sending p e (h.sound.sending e p hp)
  obtain rfl : i = j := Option.some.inj (hi.symm.trans hj)
  exact hnot

section Step

variable {x : Exchange π ε} {p q : π} {e : ε} {rest : List π} {i : ℕ}

/-- A message handed over is delivered, and was not before. -/
theorem Orderly.hand (h : x.Orderly) {o : Option (Wait × ε)} (hq : x.receivers e = q :: rest)
    (hp : x.wait p = none) (ho : o = none ∨ o = some (.reply, e)) :
    Orderly ⟨((x.setReceivers e rest).setWait q none).setWait p o, x.offered + 1,
      Function.update x.pending p (o.map fun _ => x.offered), x.queued,
      x.delivered ++ [x.offered], x.answered⟩ := by
  obtain ⟨hfresh_delivered, hfresh_answered, -, hfresh_pending⟩ := h.offered_fresh
  have hlt : ∀ {i}, i < x.offered → i < x.offered + 1 := Nat.lt_succ_of_lt
  obtain ⟨hpending_lt, hpending_inj⟩ := h.pending_update p (o := o.map fun _ => x.offered)
    (by rcases ho with rfl | rfl <;> simp)
  have hpend : ∀ r, r ≠ p →
      Function.update x.pending p (o.map fun _ => x.offered) r = x.pending r :=
    fun r hr => Function.update_of_ne hr _ _
  refine
    { sound := (Rendezvous.Step.hand hq hp ho).sound h.sound
      pending_lt := hpending_lt
      pending_inj := hpending_inj
      receiving := fun r d hr => ?_
      sending := fun r d hr => ?_
      replying := fun r d hr => ?_
      queued_lt := fun d i hi => hlt (h.queued_lt d i hi)
      queued_inj := h.queued_inj
      queued_of_mem := fun d r hr i hi => ?_
      delivered_lt := fun i hi => ?_
      delivered_nodup := h.nodup_delivered_append hfresh_delivered
      answered_delivered := fun i hi => List.mem_append_left _ (h.answered_delivered i hi)
      answered_nodup := h.answered_nodup }
  · obtain ⟨hrp, hr⟩ := wait_of_setWait hr (by rcases ho with rfl | rfl <;> simp)
    obtain ⟨-, hr⟩ := wait_of_setWait hr (by simp)
    exact (hpend r hrp).trans (h.receiving r d hr)
  · -- whoever still waits to send is neither party, and keeps its message
    obtain ⟨hrp, hr⟩ := Rendezvous.Sending.of_setWait hr
      (by rcases ho with rfl | rfl <;> simp)
    obtain ⟨-, hr⟩ := Rendezvous.Sending.of_setWait hr (by simp)
    obtain ⟨i, hi, hnot⟩ := h.sending r d hr
    refine ⟨i, (hpend r hrp).trans hi, fun hmem => ?_⟩
    rcases List.mem_append.mp hmem with hmem | hmem
    · exact hnot hmem
    · exact hfresh_pending r (List.mem_singleton.mp hmem ▸ hi)
  · by_cases hrp : r = p
    · subst hrp
      rw [Rendezvous.wait_setWait, if_pos rfl] at hr
      refine ⟨x.offered, (Function.update_self _ _ _).trans ?_, by simp, hfresh_answered⟩
      rw [hr]
      rfl
    · rw [Rendezvous.wait_setWait, if_neg hrp] at hr
      obtain ⟨-, hr⟩ := wait_of_setWait hr (by simp)
      obtain ⟨i, hi, hdelivered, hnot⟩ := h.replying r d hr
      exact ⟨i, (hpend r hrp).trans hi, List.mem_append_left _ hdelivered, hnot⟩
  · refine h.queued_of_mem d r hr i ((hpend r ?_).symm.trans hi)
    rintro rfl
    exact h.sound.not_mem_senders hp d hr
  · rcases List.mem_append.mp hi with hi | hi
    · exact hlt (h.delivered_lt i hi)
    · rw [List.mem_singleton.mp hi]
      exact Nat.lt_succ_self _

omit [DecidableEq π] in
/-- One element more in one of a family of queues. -/
theorem mem_update_append {queued : ε → List ℕ} {d : ε} {k : ℕ} :
    i ∈ Function.update queued e (queued e ++ [k]) d ↔ i ∈ queued d ∨ d = e ∧ i = k := by
  rw [Function.update_apply]
  split
  · rename_i hde
    rw [hde, List.mem_append, List.mem_singleton]
    simp
  · rename_i hde
    simp [hde]

/-- A message queued is queued at one endpoint, and its sender suspended in it. -/
theorem Orderly.queue (h : x.Orderly) {w : Wait} (hp : x.wait p = none)
    (hw : w = .send ∨ w = .call) :
    Orderly ⟨(x.setSenders e (x.senders e ++ [p])).setWait p (some (w, e)), x.offered + 1,
      Function.update x.pending p (some x.offered),
      Function.update x.queued e (x.queued e ++ [x.offered]), x.delivered, x.answered⟩ := by
  obtain ⟨hfresh_delivered, -, hfresh_queued, -⟩ := h.offered_fresh
  have hlt : ∀ {i}, i < x.offered → i < x.offered + 1 := Nat.lt_succ_of_lt
  obtain ⟨hpending_lt, hpending_inj⟩ := h.pending_update p (.inr rfl)
  have hpend : ∀ r, r ≠ p → Function.update x.pending p (some x.offered) r = x.pending r :=
    fun r hr => Function.update_of_ne hr _ _
  refine
    { sound := (Rendezvous.Step.queue hp hw).sound h.sound
      pending_lt := hpending_lt
      pending_inj := hpending_inj
      receiving := fun r d hr => ?_
      sending := fun r d hr => ?_
      replying := fun r d hr => ?_
      queued_lt := fun d i hi => ?_
      queued_inj := fun d d' i hi hi' => ?_
      queued_of_mem := fun d r hr i hi => ?_
      delivered_lt := fun i hi => hlt (h.delivered_lt i hi)
      delivered_nodup := h.delivered_nodup
      answered_delivered := h.answered_delivered
      answered_nodup := h.answered_nodup }
  · obtain ⟨hrp, hr⟩ := wait_of_setWait hr (by rcases hw with rfl | rfl <;> simp)
    exact (hpend r hrp).trans (h.receiving r d hr)
  · by_cases hrp : r = p
    · subst hrp
      exact ⟨x.offered, Function.update_self _ _ _, hfresh_delivered⟩
    · simp only [Rendezvous.Sending, Rendezvous.wait_setWait, if_neg hrp] at hr
      obtain ⟨i, hi, hnot⟩ := h.sending r d hr
      exact ⟨i, (hpend r hrp).trans hi, hnot⟩
  · obtain ⟨hrp, hr⟩ := wait_of_setWait hr (by rcases hw with rfl | rfl <;> simp)
    obtain ⟨i, hi, hdelivered, hnot⟩ := h.replying r d hr
    exact ⟨i, (hpend r hrp).trans hi, hdelivered, hnot⟩
  · rcases mem_update_append.mp hi with hi | ⟨-, rfl⟩
    · exact hlt (h.queued_lt d i hi)
    · exact Nat.lt_succ_self _
  · rcases mem_update_append.mp hi with hi | ⟨hde, rfl⟩
    · rcases mem_update_append.mp hi' with hi' | ⟨-, rfl⟩
      · exact h.queued_inj d d' i hi hi'
      · exact (hfresh_queued d hi).elim
    · rcases mem_update_append.mp hi' with hi' | ⟨hde', -⟩
      · exact (hfresh_queued d' hi').elim
      · rw [hde, hde']
  · by_cases hrp : r = p
    · subst hrp
      obtain rfl : x.offered = i :=
        Option.some.inj ((Function.update_self r _ x.pending).symm.trans hi)
      have hde : d = e := by
        by_contra hde
        rw [Rendezvous.senders_setWait, Rendezvous.senders_setSenders, if_neg hde] at hr
        exact h.sound.not_mem_senders hp d hr
      exact mem_update_append.mpr (.inr ⟨hde, rfl⟩)
    · refine mem_update_append.mpr (.inl (h.queued_of_mem d r ?_ i
        ((hpend r hrp).symm.trans hi)))
      rw [Rendezvous.senders_setWait, Rendezvous.senders_setSenders] at hr
      split at hr
      · rename_i hde
        rw [hde]
        simpa [hrp] using hr
      · exact hr

/-- The message of the first sender is delivered, and was not before. -/
theorem Orderly.take (h : x.Orderly) (hq : x.senders e = q :: rest) (hi : x.pending q = some i) :
    Orderly ⟨(x.setSenders e rest).setWait q
        (if x.wait q = some (.call, e) then some (.reply, e) else none),
      x.offered, x.pending, x.queued, x.delivered ++ [i], x.answered⟩ := by
  have hmem : q ∈ x.senders e := by
    rw [hq]
    exact List.mem_cons_self
  have hnot := h.not_delivered hmem hi
  have hother : ∀ r j, r ≠ q → x.pending r = some j → j ≠ i := by
    rintro r j hr hj rfl
    exact hr (h.pending_inj r q j hj hi)
  refine
    { h with
      sound := (Rendezvous.Step.take hq).sound h.sound
      receiving := fun r d hr => ?_
      sending := fun r d hr => ?_
      replying := fun r d hr => ?_
      queued_of_mem := fun d r hr j hj => ?_
      delivered_lt := fun j hj => ?_
      delivered_nodup := h.nodup_delivered_append hnot
      answered_delivered := fun j hj => List.mem_append_left _ (h.answered_delivered j hj) }
  · obtain ⟨-, hr⟩ := wait_of_setWait hr (by split <;> simp)
    exact h.receiving r d hr
  · obtain ⟨hrq, hr⟩ := Rendezvous.Sending.of_setWait hr (by split <;> simp)
    obtain ⟨j, hj, hnot⟩ := h.sending r d hr
    refine ⟨j, hj, fun hmem => ?_⟩
    rcases List.mem_append.mp hmem with hmem | hmem
    · exact hnot hmem
    · exact hother r j hrq hj (List.mem_singleton.mp hmem)
  · by_cases hrq : r = q
    · subst hrq
      exact ⟨i, hi, by simp, fun hans => hnot (h.answered_delivered i hans)⟩
    · rw [Rendezvous.wait_setWait, if_neg hrq] at hr
      obtain ⟨j, hj, hdelivered, hans⟩ := h.replying r d hr
      exact ⟨j, hj, List.mem_append_left _ hdelivered, hans⟩
  · refine h.queued_of_mem d r ?_ j hj
    rw [Rendezvous.senders_setWait, Rendezvous.senders_setSenders] at hr
    split at hr
    · rename_i hde
      rw [hde, hq]
      exact List.mem_cons_of_mem _ hr
    · exact hr
  · rcases List.mem_append.mp hj with hj | hj
    · exact h.delivered_lt j hj
    · rw [List.mem_singleton.mp hj]
      exact h.pending_lt q i hi

/-- Whoever queues to receive is suspended in nothing. -/
theorem Orderly.await (h : x.Orderly) (hp : x.wait p = none) (hnone : x.pending p = none) :
    Orderly { x with
      toRendezvous := (x.setReceivers e (x.receivers e ++ [p])).setWait p (some (.recv, e)) } := by
  refine
    { h with
      sound := (Rendezvous.Step.await hp).sound h.sound
      receiving := fun r d hr => ?_
      sending := fun r d hr => ?_
      replying := fun r d hr => ?_ }
  · by_cases hrp : r = p
    · rw [hrp]
      exact hnone
    · rw [Rendezvous.wait_setWait, if_neg hrp] at hr
      exact h.receiving r d hr
  · exact h.sending r d (Rendezvous.Sending.of_setWait hr (by simp)).2
  · exact h.replying r d (wait_of_setWait hr (by simp)).2

/-- A message answered was delivered, and not answered before. -/
theorem Orderly.answer (h : x.Orderly) (hq : x.wait q = some (.reply, e))
    (hi : x.pending q = some i) :
    Orderly { x with toRendezvous := x.setWait q none, answered := x.answered ++ [i] } := by
  obtain ⟨j, hj, hdelivered, hnot⟩ := h.replying q e hq
  obtain rfl : i = j := Option.some.inj (hi.symm.trans hj)
  refine
    { h with
      sound := (Rendezvous.Step.answer hq).sound h.sound
      receiving := fun r d hr => h.receiving r d (wait_of_setWait hr (by simp)).2
      sending := fun r d hr =>
        h.sending r d (Rendezvous.Sending.of_setWait hr (by simp)).2
      replying := fun r d hr => ?_
      answered_delivered := fun j hj => ?_
      answered_nodup := ?_ }
  · obtain ⟨hrq, hr⟩ := wait_of_setWait hr (by simp)
    obtain ⟨j, hj, hdel, hans⟩ := h.replying r d hr
    refine ⟨j, hj, hdel, fun hmem => ?_⟩
    rcases List.mem_append.mp hmem with hmem | hmem
    · exact hans hmem
    · rw [List.mem_singleton.mp hmem] at hj
      exact hrq (h.pending_inj r q i hj hi)
  · rcases List.mem_append.mp hj with hj | hj
    · exact h.answered_delivered j hj
    · rw [List.mem_singleton.mp hj]
      exact hdelivered
  · rw [List.nodup_append]
    refine ⟨h.answered_nodup, List.nodup_singleton i, fun a ha b hb => ?_⟩
    rw [List.mem_singleton] at hb
    rintro rfl
    exact hnot (hb ▸ ha)

omit [DecidableEq ε] in
/-- Whoever goes on waited for nothing any more. -/
theorem Orderly.resume (h : x.Orderly) (hp : x.wait p = none) :
    Orderly { x with pending := Function.update x.pending p none } := by
  have hpend : ∀ r, r ≠ p → Function.update x.pending p none r = x.pending r :=
    fun r hr => Function.update_of_ne hr _ _
  have hold : ∀ r i, Function.update x.pending p none r = some i → x.pending r = some i := by
    intro r i hr
    by_cases hrp : r = p
    · rw [hrp, Function.update_self] at hr
      cases hr
    · exact (hpend r hrp).symm.trans hr
  have hne : ∀ r o, x.wait r = some o → r ≠ p := by
    rintro r o hr rfl
    rw [hp] at hr
    cases hr
  refine
    { h with
      pending_lt := fun r i hr => h.pending_lt r i (hold r i hr)
      pending_inj := fun r t i hr ht => h.pending_inj r t i (hold r i hr) (hold t i ht)
      receiving := fun r d hr => (hpend r (hne r _ hr)).trans (h.receiving r d hr)
      sending := fun r d hr => ?_
      replying := fun r d hr => ?_
      queued_of_mem := fun d r hr i hi => h.queued_of_mem d r hr i (hold r i hi) }
  · obtain ⟨i, hi, hnot⟩ := h.sending r d hr
    refine ⟨i, (hpend r ?_).trans hi, hnot⟩
    rcases hr with hr | hr
    · exact hne r _ hr
    · exact hne r _ hr
  · obtain ⟨i, hi, hrest⟩ := h.replying r d hr
    exact ⟨i, (hpend r (hne r _ hr)).trans hi, hrest⟩

end Step

/-- `p` leaves: it waits for nothing any more, and is suspended in nothing. -/
def leave (x : Exchange π ε) (p : π) : Exchange π ε :=
  { x with
    toRendezvous := x.setWait p none
    pending := Function.update x.pending p none }

omit [DecidableEq ε] in
/-- A party that is in no queue may leave. It gives up the reply it awaits, and the history
stays as orderly as it was. -/
theorem Orderly.leave {x : Exchange π ε} {p : π} (h : x.Orderly)
    (hp : x.wait p = none ∨ ∃ e, x.wait p = some (.reply, e)) : (x.leave p).Orderly := by
  have hfirst : Orderly { x with toRendezvous := x.setWait p none } :=
    { h with
      sound := h.sound.setWait hp (.inl rfl)
      receiving := fun r d hr => h.receiving r d (wait_of_setWait hr (by simp)).2
      sending := fun r d hr => h.sending r d (Rendezvous.Sending.of_setWait hr (by simp)).2
      replying := fun r d hr => h.replying r d (wait_of_setWait hr (by simp)).2 }
  exact hfirst.resume (by simp)

/-- **Every step keeps the history orderly**: one case for each step. -/
theorem Step.orderly {x y : Exchange π ε} (hstep : x.Step y) (h : x.Orderly) : y.Orderly := by
  cases hstep with
  | refuse =>
    exact { h with
      pending_lt := fun p i hp => Nat.lt_succ_of_lt (h.pending_lt p i hp)
      queued_lt := fun e i hi => Nat.lt_succ_of_lt (h.queued_lt e i hi)
      delivered_lt := fun i hi => Nat.lt_succ_of_lt (h.delivered_lt i hi) }
  | hand hq hp _ ho => exact h.hand hq hp ho
  | queue hp _ hw => exact h.queue hp hw
  | take hq hi => exact h.take hq hi
  | await hp hnone => exact h.await hp hnone
  | answer hq hi => exact h.answer hq hi
  | resume hp => exact h.resume hp

/-! ## Order

Messages are taken in the order in which they were offered, unless one is dropped. -/

omit [DecidableEq ε] in
/-- A party that is not queued may change what it is suspended in. -/
theorem filterMap_update {ps : List π} {f : π → Option ℕ} {p : π} (hp : p ∉ ps) (o : Option ℕ) :
    ps.filterMap (Function.update f p o) = ps.filterMap f := by
  refine List.filterMap_congr fun q hq => Function.update_of_ne ?_ _ _
  rintro rfl
  exact hp hq

omit [DecidableEq π] [DecidableEq ε] in
/-- A message that was never queued at an endpoint does not count there. -/
theorem filter_append_of_notMem {delivered queued : List ℕ} {i : ℕ} (hi : i ∉ queued) :
    (delivered ++ [i]).filter (· ∈ queued) = delivered.filter (· ∈ queued) := by
  rw [List.filter_append]
  simp [hi]

/-- **Every step keeps the order**: what is taken is what was offered first. -/
theorem Step.inOrder {x y : Exchange π ε} (hstep : x.Step y) (h : x.Orderly) (ho : x.InOrder) :
    y.InOrder := by
  obtain ⟨hfresh_delivered, -, hfresh_queued, -⟩ := h.offered_fresh
  intro d
  cases hstep with
  | refuse => exact ho d
  | @hand p q e rest o hq hp hnone =>
    change x.queued d = (x.delivered ++ [x.offered]).filter (· ∈ x.queued d) ++
      (x.senders d).filterMap (Function.update x.pending p _)
    rw [filter_append_of_notMem (hfresh_queued d),
      filterMap_update (h.sound.not_mem_senders hp d)]
    exact ho d
  | @queue p e w hp hnone hw =>
    have hnot := h.sound.not_mem_senders hp
    change Function.update x.queued e (x.queued e ++ [x.offered]) d =
      x.delivered.filter (· ∈ Function.update x.queued e (x.queued e ++ [x.offered]) d) ++
        ((x.setSenders e (x.senders e ++ [p])).senders d).filterMap
          (Function.update x.pending p (some x.offered))
    rw [Rendezvous.senders_setSenders]
    by_cases hde : d = e
    · subst hde
      -- the fresh message is not among those delivered, so it is the last queued
      have hfilter : x.delivered.filter (· ∈ x.queued d ++ [x.offered]) =
          x.delivered.filter (· ∈ x.queued d) := by
        refine List.filter_congr fun i hi => ?_
        have hne : i ≠ x.offered := fun he => hfresh_delivered (he ▸ hi)
        simp [hne]
      rw [Function.update_self, if_pos rfl, hfilter, List.filterMap_append,
        filterMap_update (hnot d), List.filterMap_cons_some (Function.update_self _ _ _),
        List.filterMap_nil, ← List.append_assoc, ← ho d]
    · rw [Function.update_of_ne hde, if_neg hde, filterMap_update (hnot d)]
      exact ho d
  | @take q e rest i hq hi =>
    have hmem : q ∈ x.senders e := by
      rw [hq]
      exact List.mem_cons_self
    have hqueued := h.queued_of_mem e q hmem i hi
    change x.queued d = (x.delivered ++ [i]).filter (· ∈ x.queued d) ++
      ((x.setSenders e rest).senders d).filterMap x.pending
    rw [Rendezvous.senders_setSenders]
    by_cases hde : d = e
    · subst hde
      have hold := ho d
      rw [hq, List.filterMap_cons_some hi] at hold
      rw [if_pos rfl, List.filter_append, List.filter_singleton, decide_eq_true hqueued]
      simpa using hold
    · rw [if_neg hde, filter_append_of_notMem fun hid => hde (h.queued_inj d e i hid hqueued)]
      exact ho d
  | await => exact ho d
  | answer => exact ho d
  | @resume p hp =>
    change x.queued d = x.delivered.filter (· ∈ x.queued d) ++
      (x.senders d).filterMap (Function.update x.pending p none)
    rw [filterMap_update (h.sound.not_mem_senders hp d)]
    exact ho d

omit [DecidableEq ε] in
/-- Whoever leaves was queued nowhere, so the order is kept. -/
theorem Orderly.inOrder_leave {x : Exchange π ε} {p : π} (h : x.Orderly) (ho : x.InOrder)
    (hp : x.wait p = none ∨ ∃ e, x.wait p = some (.reply, e)) : (x.leave p).InOrder := by
  intro d
  have hnot : p ∉ x.senders d := by
    intro hmem
    rcases h.sound.sending d p hmem with hw | hw <;> rcases hp with hp | ⟨e, hp⟩ <;>
      rw [hp] at hw <;> cases hw
  change x.queued d = x.delivered.filter (· ∈ x.queued d) ++
    (x.senders d).filterMap (Function.update x.pending p none)
  rw [filterMap_update hnot]
  exact ho d

omit [DecidableEq π] in
/-- **A dropped sender's message** is neither delivered nor queued any more, so that what is left
is not in order. -/
theorem Drop.not_inOrder {x y : Exchange π ε} (hd : x.Drop y) (h : x.Orderly) (ho : x.InOrder) :
    ¬ y.InOrder := by
  cases hd with
  | @mk q e rest hq =>
    intro hy
    have hmem : q ∈ x.senders e := by
      rw [hq]
      exact List.mem_cons_self
    obtain ⟨i, hi, -⟩ := h.sending q e (h.sound.sending e q hmem)
    have hold := ho e
    have hnew : x.queued e = x.delivered.filter (· ∈ x.queued e) ++
        ((x.setSenders e rest).senders e).filterMap x.pending := hy e
    rw [Rendezvous.senders_setSenders, if_pos rfl] at hnew
    rw [hq, List.filterMap_cons_some hi] at hold
    have hlen := congrArg List.length (hold.symm.trans hnew)
    rw [List.length_append, List.length_append, List.length_cons] at hlen
    omega

end Exchange

end Wari.Lib
