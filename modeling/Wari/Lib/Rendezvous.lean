import Mathlib.Data.List.Nodup
import Mathlib.Logic.Function.Basic

/-!
# Synchronous rendezvous

Parties meet at endpoints: a sender waits for a receiver or a receiver for a
sender, and a caller waits on for a reply. The state is two queues for each
endpoint and, for each party, what it waits for and where. `Sound` says that the
queues hold no one who does not wait there, `Lossless` that a waiting sender is
queued; every step keeps both, and dropping a sender off its queue breaks the
second.
-/

namespace Wari.Lib

universe u v

/-- What a party waits for, at an endpoint. -/
inductive Wait where
  /-- for its message to be received -/
  | send
  /-- for its message to be received, and then for a reply -/
  | call
  /-- for a message -/
  | recv
  /-- for a reply -/
  | reply
  deriving DecidableEq, Repr

/-- Who is queued where, and who waits for what. -/
@[ext]
structure Rendezvous (π : Type u) (ε : Type v) where
  /-- parties queued to send, oldest first -/
  senders : ε → List π
  /-- parties queued to receive, oldest first -/
  receivers : ε → List π
  /-- what a party waits for, and at which endpoint -/
  wait : π → Option (Wait × ε)

namespace Rendezvous

variable {π : Type u} {ε : Type v}

/-- `p` waits at `e` for a receiver, be it to send or to call. -/
def Sending (s : Rendezvous π ε) (p : π) (e : ε) : Prop :=
  s.wait p = some (.send, e) ∨ s.wait p = some (.call, e)

/-- Nobody is in a queue without waiting there, nobody is in one twice, and
whoever waits for a message is queued for it. -/
structure Sound (s : Rendezvous π ε) : Prop where
  senders_nodup : ∀ e, (s.senders e).Nodup
  sending : ∀ e, ∀ p ∈ s.senders e, s.Sending p e
  receivers_nodup : ∀ e, (s.receivers e).Nodup
  receiving : ∀ e p, p ∈ s.receivers e ↔ s.wait p = some (.recv, e)

/-- Whoever waits for a receiver is queued for one. -/
def Lossless (s : Rendezvous π ε) : Prop := ∀ p e, s.Sending p e → p ∈ s.senders e

theorem Sound.not_mem_senders {s : Rendezvous π ε} (h : s.Sound) {p : π} (hp : s.wait p = none)
    (e : ε) : p ∉ s.senders e := by
  intro hmem
  rcases h.sending e p hmem with hw | hw <;> rw [hp] at hw <;> cases hw

/-- Whoever is queued to send waits for something. -/
theorem Sound.wait_of_mem_senders {s : Rendezvous π ε} (h : s.Sound) {p : π} {e : ε}
    (hp : p ∈ s.senders e) : ∃ o, s.wait p = some o := by
  rcases h.sending e p hp with hw | hw
  · exact ⟨_, hw⟩
  · exact ⟨_, hw⟩

theorem Sound.not_mem_receivers {s : Rendezvous π ε} (h : s.Sound) {p : π} (hp : s.wait p = none)
    (e : ε) : p ∉ s.receivers e := by
  intro hmem
  have hw := (h.receiving e p).mp hmem
  rw [hp] at hw
  cases hw

/-- A receiver is in no queue of senders. -/
theorem Sound.not_mem_senders_of_recv {s : Rendezvous π ε} (h : s.Sound) {p : π} {e : ε}
    (hp : s.wait p = some (.recv, e)) (d : ε) : p ∉ s.senders d := by
  intro hmem
  rcases h.sending d p hmem with hw | hw <;> rw [hp] at hw <;> cases hw

/-- Where a party is queued to send is where it waits. -/
theorem Sound.sender_unique {s : Rendezvous π ε} (h : s.Sound) {p : π} {d e : ε}
    (hd : p ∈ s.senders d) (he : p ∈ s.senders e) : d = e := by
  rcases h.sending d p hd with hw | hw <;> rcases h.sending e p he with hw' | hw' <;>
    rw [hw] at hw' <;> cases hw' <;> rfl

/-! ## Steps

The three ways to write to the state, and the steps of the protocol made of them. -/

section Party

variable [DecidableEq π] (s : Rendezvous π ε) (p x : π) (o : Option (Wait × ε))

/-- `p` waits for `o`, and everybody else for what they waited for. -/
def setWait : Rendezvous π ε := { s with wait := Function.update s.wait p o }

@[simp] theorem wait_setWait : (s.setWait p o).wait x = if x = p then o else s.wait x :=
  Function.update_apply _ _ _ _

@[simp] theorem senders_setWait : (s.setWait p o).senders = s.senders := rfl

@[simp] theorem receivers_setWait : (s.setWait p o).receivers = s.receivers := rfl

/-- Waiting on for what one waits for changes nothing. -/
theorem setWait_eq_self {s : Rendezvous π ε} {p : π} {o : Option (Wait × ε)}
    (h : s.wait p = o) : s.setWait p o = s := by
  subst h
  rw [setWait, Function.update_eq_self]

end Party

section Queue

variable [DecidableEq ε] (s : Rendezvous π ε) (e d : ε) (ps : List π)

/-- `ps` queue at `e` to send, and the other queues stay. -/
def setSenders : Rendezvous π ε := { s with senders := Function.update s.senders e ps }

/-- `ps` queue at `e` to receive, and the other queues stay. -/
def setReceivers : Rendezvous π ε := { s with receivers := Function.update s.receivers e ps }

@[simp] theorem wait_setSenders : (s.setSenders e ps).wait = s.wait := rfl

@[simp] theorem senders_setSenders :
    (s.setSenders e ps).senders d = if d = e then ps else s.senders d :=
  Function.update_apply _ _ _ _

@[simp] theorem receivers_setSenders : (s.setSenders e ps).receivers = s.receivers := rfl

@[simp] theorem wait_setReceivers : (s.setReceivers e ps).wait = s.wait := rfl

@[simp] theorem senders_setReceivers : (s.setReceivers e ps).senders = s.senders := rfl

@[simp] theorem receivers_setReceivers :
    (s.setReceivers e ps).receivers d = if d = e then ps else s.receivers d :=
  Function.update_apply _ _ _ _

end Queue

variable [DecidableEq π] [DecidableEq ε]

instance (s : Rendezvous π ε) (p : π) (e : ε) : Decidable (s.Sending p e) :=
  inferInstanceAs (Decidable (_ ∨ _))

/-- The steps of the protocol, in each of which two parties meet or one begins to wait. -/
inductive Step (s : Rendezvous π ε) : Rendezvous π ε → Prop where
  /-- `p` hands its message to the first receiver, and waits for a reply or goes on -/
  | hand {p q : π} {e : ε} {rest : List π} {o : Option (Wait × ε)}
      (hq : s.receivers e = q :: rest) (hp : s.wait p = none)
      (ho : o = none ∨ o = some (.reply, e)) :
      Step s (((s.setReceivers e rest).setWait q none).setWait p o)
  /-- `p` queues to send -/
  | queue {p : π} {e : ε} {w : Wait} (hp : s.wait p = none) (hw : w = .send ∨ w = .call) :
      Step s ((s.setSenders e (s.senders e ++ [p])).setWait p (some (w, e)))
  /-- the first sender is received; a caller waits on for the reply -/
  | take {q : π} {e : ε} {rest : List π} (hq : s.senders e = q :: rest) :
      Step s ((s.setSenders e rest).setWait q
        (if s.wait q = some (.call, e) then some (.reply, e) else none))
  /-- `p` queues to receive -/
  | await {p : π} {e : ε} (hp : s.wait p = none) :
      Step s ((s.setReceivers e (s.receivers e ++ [p])).setWait p (some (.recv, e)))
  /-- a caller gets its reply -/
  | answer {q : π} {e : ε} (hq : s.wait q = some (.reply, e)) : Step s (s.setWait q none)

/-- The first sender falls off its queue, which the protocol does not provide for. -/
inductive Drop (s : Rendezvous π ε) : Rendezvous π ε → Prop where
  | mk {q : π} {e : ε} {rest : List π} (hq : s.senders e = q :: rest) :
      Drop s (s.setSenders e rest)

/-! ## Who waits where

What a step makes a party wait for, and where, so that others can be sure of it. -/

/-- A step of the rendezvous makes a party wait where it waited before, or where somebody
was queued before the step or is queued after it. -/
theorem Step.waits {s t : Rendezvous π ε} (h : s.Step t) {x : π} {w : Wait} {e : ε}
    (hx : t.wait x = some (w, e)) :
    (∃ w', s.wait x = some (w', e)) ∨ (∃ y, y ∈ s.receivers e) ∨ (∃ y, y ∈ t.senders e) ∨
      ∃ y, y ∈ t.receivers e := by
  cases h with
  | @hand p q d rest o hq hp ho =>
    rw [wait_setWait] at hx
    split at hx
    · rcases ho with rfl | rfl
      · cases hx
      · obtain ⟨-, rfl⟩ := Prod.mk.inj (Option.some.inj hx)
        exact .inr (.inl ⟨q, by rw [hq]; exact List.mem_cons_self⟩)
    · rw [wait_setWait] at hx
      split at hx
      · cases hx
      · exact .inl ⟨w, hx⟩
  | @queue p d w' hp hw =>
    rw [wait_setWait] at hx
    split at hx
    · obtain ⟨-, rfl⟩ := Prod.mk.inj (Option.some.inj hx)
      refine .inr (.inr (.inl ⟨p, ?_⟩))
      rw [senders_setWait, senders_setSenders, if_pos rfl]
      exact List.mem_append_right _ (List.mem_singleton_self p)
    · exact .inl ⟨w, hx⟩
  | @take q d rest hq =>
    rw [wait_setWait] at hx
    split at hx
    · rename_i hxq
      split at hx
      · rename_i hcall
        obtain ⟨-, rfl⟩ := Prod.mk.inj (Option.some.inj hx)
        exact .inl ⟨_, hxq ▸ hcall⟩
      · cases hx
    · exact .inl ⟨w, hx⟩
  | @await p d hp =>
    rw [wait_setWait] at hx
    split at hx
    · obtain ⟨-, rfl⟩ := Prod.mk.inj (Option.some.inj hx)
      refine .inr (.inr (.inr ⟨p, ?_⟩))
      rw [receivers_setWait, receivers_setReceivers, if_pos rfl]
      exact List.mem_append_right _ (List.mem_singleton_self p)
    · exact .inl ⟨w, hx⟩
  | answer hq =>
    rw [wait_setWait] at hx
    split at hx
    · cases hx
    · exact .inl ⟨w, hx⟩

omit [DecidableEq π] in
/-- Whoever falls off a queue waits on, for a receiver that will not come. -/
theorem Drop.wait_eq {s t : Rendezvous π ε} (h : s.Drop t) : t.wait = s.wait := by
  cases h with
  | mk => rfl

/-! ## Soundness

Nobody is in a queue who does not wait there, and nobody twice. Every step keeps this. -/

omit [DecidableEq ε] in
/-- Whoever starts to wait for something other than to send, and is not queued to
send, leaves the sender queues as sound as they were. -/
theorem Sound.sending_setWait {s : Rendezvous π ε} (h : s.Sound) {p : π}
    (hp : ∀ e, p ∉ s.senders e) (o : Option (Wait × ε)) :
    ∀ e, ∀ x ∈ s.senders e, (s.setWait p o).Sending x e := by
  intro e x hx
  have hne : x ≠ p := fun he => hp e (he ▸ hx)
  simp only [Sending, wait_setWait, if_neg hne]
  exact h.sending e x hx

omit [DecidableEq ε] in
/-- The same for the queues of receivers. -/
theorem Sound.receiving_setWait {s : Rendezvous π ε} (h : s.Sound) {p : π}
    (hp : ∀ e, s.wait p ≠ some (.recv, e)) {o : Option (Wait × ε)}
    (ho : ∀ e, o ≠ some (.recv, e)) :
    ∀ e x, x ∈ s.receivers e ↔ (s.setWait p o).wait x = some (.recv, e) := by
  intro e x
  rw [wait_setWait]
  split
  · rename_i hx
    subst hx
    rw [h.receiving e x]
    exact iff_of_false (hp e) (ho e)
  · exact h.receiving e x

omit [DecidableEq ε] in
/-- A party that waits for nothing, or for a reply, may come to wait for nothing or
for a reply. -/
theorem Sound.setWait {s : Rendezvous π ε} (h : s.Sound) {p : π} {o : Option (Wait × ε)}
    (hp : s.wait p = none ∨ ∃ e, s.wait p = some (.reply, e))
    (ho : o = none ∨ ∃ e, o = some (.reply, e)) : (s.setWait p o).Sound := by
  refine ⟨h.senders_nodup, h.sending_setWait (fun e hmem => ?_) o, h.receivers_nodup,
    h.receiving_setWait (fun e hw => ?_) fun e hw => ?_⟩
  · rcases h.sending e p hmem with hw | hw <;> rcases hp with hp | ⟨d, hp⟩ <;> rw [hp] at hw <;>
      cases hw
  · rcases hp with hp | ⟨d, hp⟩ <;> rw [hp] at hw <;> cases hw
  · rcases ho with rfl | ⟨d, rfl⟩ <;> cases hw

omit [DecidableEq π] in
/-- Taking the first sender off its queue keeps soundness, and leaves it in no queue. -/
theorem Sound.setSenders_tail {s : Rendezvous π ε} (h : s.Sound) {q : π} {e : ε} {rest : List π}
    (hq : s.senders e = q :: rest) :
    (s.setSenders e rest).Sound ∧ ∀ d, q ∉ (s.setSenders e rest).senders d := by
  have hqe : q ∈ s.senders e := by
    rw [hq]
    exact List.mem_cons_self
  have hnodup := h.senders_nodup e
  rw [hq, List.nodup_cons] at hnodup
  refine ⟨⟨fun d => ?_, fun d x hx => ?_, h.receivers_nodup, h.receiving⟩, fun d hd => ?_⟩
  · rw [senders_setSenders]
    split
    · exact hnodup.2
    · exact h.senders_nodup d
  · rw [senders_setSenders] at hx
    split at hx
    · rename_i hde
      subst hde
      exact h.sending d x (by rw [hq]; exact List.mem_cons_of_mem _ hx)
    · exact h.sending d x hx
  · rw [senders_setSenders] at hd
    split at hd
    · exact hnodup.1 hd
    · rename_i hde
      exact hde (h.sender_unique hd hqe)

/-- The first receiver leaves its queue and waits for nothing. -/
theorem Sound.setReceivers_tail {s : Rendezvous π ε} (h : s.Sound) {q : π} {e : ε}
    {rest : List π} (hq : s.receivers e = q :: rest) :
    ((s.setReceivers e rest).setWait q none).Sound := by
  have hqw : s.wait q = some (.recv, e) := (h.receiving e q).mp (by rw [hq]; simp)
  have hnodup := h.receivers_nodup e
  rw [hq, List.nodup_cons] at hnodup
  refine ⟨h.senders_nodup, ?_, fun d => ?_, fun d x => ?_⟩
  · exact h.sending_setWait (h.not_mem_senders_of_recv hqw) none
  · rw [receivers_setWait, receivers_setReceivers]
    split
    · exact hnodup.2
    · exact h.receivers_nodup d
  · rw [receivers_setWait, receivers_setReceivers, wait_setWait, wait_setReceivers]
    by_cases hx : x = q
    · subst hx
      rw [if_pos rfl]
      refine iff_of_false ?_ nofun
      split
      · exact hnodup.1
      · rename_i hde
        intro hd
        have hw := (h.receiving d x).mp hd
        rw [hqw] at hw
        cases hw
        exact hde rfl
    · rw [if_neg hx, ← h.receiving d x]
      split
      · rename_i hde
        subst hde
        rw [hq]
        simp [hx]
      · exact Iff.rfl

/-- A party that waits for nothing queues to send. -/
theorem Sound.setSenders_append {s : Rendezvous π ε} (h : s.Sound) {p : π} (hp : s.wait p = none)
    (e : ε) {w : Wait} (hw : w = .send ∨ w = .call) :
    ((s.setSenders e (s.senders e ++ [p])).setWait p (some (w, e))).Sound := by
  have hnot : ∀ d, p ∉ s.senders d := h.not_mem_senders hp
  refine ⟨fun d => ?_, fun d x hx => ?_, h.receivers_nodup, ?_⟩
  · rw [senders_setWait, senders_setSenders]
    split
    · rw [List.nodup_append]
      refine ⟨h.senders_nodup e, List.nodup_singleton p, fun a ha b hb => ?_⟩
      rw [List.mem_singleton] at hb
      rintro rfl
      exact hnot e (hb ▸ ha)
    · exact h.senders_nodup d
  · rw [senders_setWait, senders_setSenders] at hx
    simp only [Sending, wait_setWait, wait_setSenders]
    by_cases hxp : x = p
    · subst hxp
      rw [if_pos rfl]
      split at hx
      · rename_i hde
        subst hde
        rcases hw with rfl | rfl
        · exact .inl rfl
        · exact .inr rfl
      · exact (hnot d hx).elim
    · rw [if_neg hxp]
      refine h.sending d x ?_
      split at hx
      · rename_i hde
        subst hde
        simpa [hxp] using hx
      · exact hx
  · refine h.receiving_setWait (fun d hd => ?_) fun d hd => ?_
    · rw [hp] at hd
      cases hd
    · rcases hw with rfl | rfl <;> cases hd

/-- A party that waits for nothing queues to receive. -/
theorem Sound.setReceivers_append {s : Rendezvous π ε} (h : s.Sound) {p : π}
    (hp : s.wait p = none) (e : ε) :
    ((s.setReceivers e (s.receivers e ++ [p])).setWait p (some (.recv, e))).Sound := by
  have hnot : ∀ d, p ∉ s.receivers d := h.not_mem_receivers hp
  refine ⟨h.senders_nodup, ?_, fun d => ?_, fun d x => ?_⟩
  · exact h.sending_setWait (h.not_mem_senders hp) _
  · rw [receivers_setWait, receivers_setReceivers]
    split
    · rw [List.nodup_append]
      refine ⟨h.receivers_nodup e, List.nodup_singleton p, fun a ha b hb => ?_⟩
      rw [List.mem_singleton] at hb
      rintro rfl
      exact hnot e (hb ▸ ha)
    · exact h.receivers_nodup d
  · rw [receivers_setWait, receivers_setReceivers, wait_setWait, wait_setReceivers]
    by_cases hxp : x = p
    · subst hxp
      rw [if_pos rfl]
      split
      · rename_i hde
        subst hde
        simp
      · rename_i hde
        refine iff_of_false (hnot d) fun hd => ?_
        cases hd
        exact hde rfl
    · rw [if_neg hxp, ← h.receiving d x]
      split
      · rename_i hde
        subst hde
        simp [hxp]
      · exact Iff.rfl

/-- **Every step keeps soundness**: one case for each step. -/
theorem Step.sound {s t : Rendezvous π ε} (h : s.Step t) (hs : s.Sound) : t.Sound := by
  cases h with
  | @hand p q e rest o hq hp ho =>
    have hqw : s.wait q = some (.recv, e) := (hs.receiving e q).mp (by rw [hq]; simp)
    refine (hs.setReceivers_tail hq).setWait (.inl ?_) (ho.imp_right fun h => ⟨e, h⟩)
    rw [wait_setWait, wait_setReceivers]
    split
    · rfl
    · exact hp
  | queue hp hw => exact hs.setSenders_append hp _ hw
  | @take q e rest hq =>
    obtain ⟨hs', hnot⟩ := hs.setSenders_tail hq
    have hqw := hs.sending e q (by rw [hq]; exact List.mem_cons_self)
    refine ⟨hs'.senders_nodup, hs'.sending_setWait hnot _, hs'.receivers_nodup,
      hs'.receiving_setWait (fun d hd => ?_) fun d hd => ?_⟩
    · rw [wait_setSenders] at hd
      rcases hqw with hw | hw <;> rw [hw] at hd <;> cases hd
    · split at hd <;> cases hd
  | await hp => exact hs.setReceivers_append hp _
  | @answer q e hq => exact hs.setWait (.inr ⟨e, hq⟩) (.inl rfl)

omit [DecidableEq π] in
/-- A dropped sender does not disturb soundness, which asks nothing of those in no queue. -/
theorem Drop.sound {s t : Rendezvous π ε} (h : s.Drop t) (hs : s.Sound) : t.Sound := by
  obtain ⟨hq⟩ := h
  exact (hs.setSenders_tail hq).1

/-! ## No one is lost

Whoever waits to send is in the queue. A step that drops a sender breaks this, and nothing mends
it. -/

omit [DecidableEq ε] in
/-- Whoever waits to send after `p` has come to wait for something else did so
before. -/
theorem Sending.of_setWait {s : Rendezvous π ε} {p x : π} {e : ε} {o : Option (Wait × ε)}
    (h : (s.setWait p o).Sending x e) (ho : o ≠ some (.send, e) ∧ o ≠ some (.call, e)) :
    x ≠ p ∧ s.Sending x e := by
  simp only [Sending, wait_setWait] at h
  split at h
  · rcases h with h | h
    · exact (ho.1 h).elim
    · exact (ho.2 h).elim
  · rename_i hx
    exact ⟨hx, h⟩

omit [DecidableEq ε] in
/-- A party that goes on, or leaves, loses nobody. -/
theorem Lossless.setWait_none {s : Rendezvous π ε} (hl : s.Lossless) (p : π) :
    (s.setWait p none).Lossless :=
  fun x d hx => hl x d (hx.of_setWait ⟨nofun, nofun⟩).2

/-- **Every step keeps losslessness**: whoever leaves a queue stops waiting, or waits for a reply.
-/
theorem Step.lossless {s t : Rendezvous π ε} (h : s.Step t) (hl : s.Lossless) :
    t.Lossless := by
  intro x d hx
  cases h with
  | @hand p q e rest o hq hp ho =>
    have ho' : o ≠ some (.send, d) ∧ o ≠ some (.call, d) := by
      rcases ho with rfl | rfl <;> exact ⟨nofun, nofun⟩
    exact hl x d ((hx.of_setWait ho').2.of_setWait ⟨nofun, nofun⟩).2
  | @queue p e w hp hw =>
    rw [senders_setWait, senders_setSenders]
    simp only [Sending, wait_setWait, wait_setSenders] at hx
    by_cases hxp : x = p
    · subst hxp
      rw [if_pos rfl] at hx
      have hd : d = e := by
        rcases hx with hx | hx <;> cases hx <;> rfl
      rw [if_pos hd]
      simp
    · rw [if_neg hxp] at hx
      have hmem := hl x d hx
      split
      · rename_i hde
        exact List.mem_append_left _ (hde ▸ hmem)
      · exact hmem
  | @take q e rest hq =>
    have ho : (if s.wait q = some (.call, e) then some (Wait.reply, e) else none) ≠
          some (.send, d) ∧
        (if s.wait q = some (.call, e) then some (Wait.reply, e) else none) ≠
          some (.call, d) := by
      split <;> exact ⟨nofun, nofun⟩
    obtain ⟨hxq, hx⟩ := hx.of_setWait ho
    have hmem : x ∈ s.senders d := hl x d hx
    rw [senders_setWait, senders_setSenders]
    split
    · rename_i hde
      rw [hde, hq] at hmem
      simpa [hxq] using hmem
    · exact hmem
  | await hp => exact hl x d (hx.of_setWait ⟨nofun, nofun⟩).2
  | answer hq => exact hl x d (hx.of_setWait ⟨nofun, nofun⟩).2

omit [DecidableEq π] in
/-- **A dropped sender is lost**: it still waits, and is in no queue. -/
theorem Drop.not_lossless {s t : Rendezvous π ε} (h : s.Drop t) (hs : s.Sound) :
    ¬ t.Lossless := by
  intro hl
  cases h with
  | @mk q e rest hq =>
    have hmem := hl q e (hs.sending e q (by rw [hq]; exact List.mem_cons_self))
    exact (hs.setSenders_tail hq).2 e hmem

/-! ## Counting

The two properties together, in the form in which queues are spoken of: how often a party is in
each. -/

/-- A sound and lossless state, by counting: a party is in a queue once where it
waits, and nowhere else. -/
theorem sound_and_lossless_iff {s : Rendezvous π ε} : s.Sound ∧ s.Lossless ↔
    ∀ e p, (s.senders e).count p = (if s.Sending p e then 1 else 0) ∧
      (s.receivers e).count p = (if s.wait p = some (.recv, e) then 1 else 0) := by
  constructor
  · rintro ⟨hs, hl⟩ e p
    refine ⟨?_, ?_⟩
    · rw [List.Nodup.count (hs.senders_nodup e)]
      exact if_congr ⟨hs.sending e p, hl p e⟩ rfl rfl
    · rw [List.Nodup.count (hs.receivers_nodup e)]
      exact if_congr (hs.receiving e p) rfl rfl
  · intro h
    have hle : ∀ {P : Prop} [Decidable P], (if P then 1 else 0) ≤ 1 := by
      intro P _
      split <;> omega
    refine ⟨⟨fun e => ?_, fun e p hp => ?_, fun e => ?_, fun e p => ?_⟩, fun p e hp => ?_⟩
    · rw [List.nodup_iff_count_le_one]
      intro p
      rw [(h e p).1]
      exact hle
    · have hpos := List.count_pos_iff.mpr hp
      rw [(h e p).1] at hpos
      by_contra hnot
      rw [if_neg hnot] at hpos
      omega
    · rw [List.nodup_iff_count_le_one]
      intro p
      rw [(h e p).2]
      exact hle
    · rw [← List.count_pos_iff, (h e p).2]
      split <;> simp [*]
    · rw [← List.count_pos_iff, (h e p).1, if_pos hp]
      exact Nat.one_pos

end Rendezvous

end Wari.Lib
