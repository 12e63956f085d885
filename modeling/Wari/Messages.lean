import Wari.Delivery

/-!
# Messages are delivered once, in order, and none is lost

The log of a run fits the kernel: whoever is suspended in a send or call is queued
with its message in its registers, or awaits the reply, or has been woken with
success. Every step of the system is a step of the exchange of the log, so a message
is delivered once, as it was sent, and in the order of its queue; and none is lost in
a run whose receives have room.
-/

namespace Wari

open Lib (Machine Rendezvous Exchange Wait)

/-! ## Where a suspended call stands

A send or call that suspended its caller is queued, or has been delivered and awaits the reply, or
is done and waits to be resumed. -/

/-- How far the call `i` of `p`, which is suspended in it, has got. The three cases exclude each
other, which is how a message can be neither lost nor delivered twice. -/
inductive Progress (k : Kernel) (l : Log) (p : Proc) (i : ℕ) (c : Call) : Prop where
  /-- queued, with the message in the registers -/
  | queued {w : Wait} {e : ℕ} {msg : MsgRegs} (hwait : k.rendezvous.wait p = some (w, e))
      (hop : w = .send ∧ c.op = .send ∨ w = .call ∧ c.op = .call)
      (hmsg : c.msg = some msg) (hregs : k.msgRegsAt p = some msg)
  /-- received, and awaiting the reply -/
  | awaiting {e : ℕ} (hwait : k.rendezvous.wait p = some (.reply, e)) (hop : c.op = .call)
  /-- woken, to return success -/
  | woken {slot : Tier1Slot} (hstate : k.stateAt p = some .ready)
      (hslot : k.tier1Pool p = some slot) (hparked : slot.parked = true)
      (hresume : slot.pendingResume = 0) (hdelivered : i ∈ l.delivered)

/-- What touches neither the process nor a delivery leaves a suspended call where it
stands. -/
theorem Progress.frame {k k' : Kernel} {l l' : Log} {p : Proc} {i : ℕ} {c : Call}
    (h : Progress k l p i c) (hstate : k'.stateAt p = k.stateAt p)
    (hregs : k'.msgRegsAt p = k.msgRegsAt p) (hpool : k'.tier1Pool p = k.tier1Pool p)
    (hdelivered : ∀ j ∈ l.delivered, j ∈ l'.delivered) : Progress k' l' p i c := by
  cases h with
  | queued hwait hop hmsg hreg =>
    exact .queued ((Kernel.wait_congr hstate).trans hwait) hop hmsg (hregs.trans hreg)
  | awaiting hwait hop => exact .awaiting ((Kernel.wait_congr hstate).trans hwait) hop
  | woken hready hslot hparked hresume hi =>
    exact .woken (hstate.trans hready) (hpool.trans hslot) hparked hresume (hdelivered i hi)

/-- Whoever is suspended is ready, or waits at an endpoint. -/
theorem Progress.ready_or_wait {k : Kernel} {l : Log} {p : Proc} {i : ℕ} {c : Call}
    (h : Progress k l p i c) :
    k.stateAt p = some .ready ∨ ∃ o, k.rendezvous.wait p = some o := by
  cases h with
  | queued hwait => exact .inr ⟨_, hwait⟩
  | awaiting hwait => exact .inr ⟨_, hwait⟩
  | woken hstate => exact .inl hstate

/-! ## The log by itself

What can be said of the log without looking at the kernel: order, and what was returned. -/

/-- What was delivered is what was sent, what returned is not pending, and a send returned
success exactly where its message was delivered; what was answered was a call. -/
structure Log.Kept (l : Log) : Prop where
  intact : ∀ d ∈ l.deliveries, ∃ i c msg, d.call = some i ∧ l.calls[i]? = some c ∧
    c.msg = some msg ∧ d.msg = some msg
  returned : ∀ r ∈ l.returns, r.1 < l.calls.length ∧ ∀ p, l.pending p ≠ some r.1
  success : ∀ r ∈ l.returns, ∀ c, l.calls[r.1]? = some c → c.op = .send →
    (r.2 = 0 ↔ r.1 ∈ l.delivered)
  answered : ∀ a ∈ l.answers, ∃ i c, a.call = some i ∧ l.calls[i]? = some c ∧ c.op = .call ∧
    c.sender = a.caller

namespace Log

theorem getElem?_append {cs : List Call} {i : ℕ} {c d : Call} (h : cs[i]? = some c) :
    (cs ++ [d])[i]? = some c := by
  obtain ⟨hi, -⟩ := List.getElem?_eq_some_iff.mp h
  rw [List.getElem?_append_left hi, h]

/-- A call, which returned `rc` or suspended its caller, and was delivered at once or
not. -/
theorem Kept.offer {l l' : Log} (h : l.Kept) (c : Call) (rc : Option ℤ) (ds : List Delivery)
    (hcalls : l'.calls = l.calls ++ [c])
    (hreturns : l'.returns = l.returns ++ (rc.map fun rc => (l.calls.length, rc)).toList)
    (hpending : ∀ q, l'.pending q = l.pending q ∨ rc = none ∧ l'.pending q = some l.calls.length)
    (hlt : ∀ q i, l.pending q = some i → i < l.calls.length)
    (hdeliveries : l'.deliveries = l.deliveries ++ ds) (hanswers : l'.answers = l.answers)
    (hds : ∀ d ∈ ds, ∃ msg, d.call = some l.calls.length ∧ c.msg = some msg ∧ d.msg = some msg)
    (hsuccess : c.op = .send → ∀ r, rc = some r → (r = 0 ↔ ds ≠ []))
    (hfresh : l.calls.length ∉ l.delivered) : l'.Kept := by
  have hnew : l'.calls[l.calls.length]? = some c := by
    rw [hcalls, List.getElem?_append_right (Nat.le_refl _), Nat.sub_self]
    rfl
  have hold : ∀ {i d}, l.calls[i]? = some d → l'.calls[i]? = some d := fun hi => by
    rw [hcalls]
    exact getElem?_append hi
  have hdelivered : ∀ j, j ∈ l'.delivered ↔ j ∈ l.delivered ∨ j = l.calls.length ∧ ds ≠ [] := by
    intro j
    have hds' : j ∈ ds.filterMap Delivery.call ↔ j = l.calls.length ∧ ds ≠ [] := by
      rw [List.mem_filterMap]
      constructor
      · rintro ⟨d, hd, hj⟩
        obtain ⟨msg, hcall, -⟩ := hds d hd
        rw [hcall] at hj
        exact ⟨(Option.some.inj hj).symm, List.ne_nil_of_mem hd⟩
      · rintro ⟨rfl, hne⟩
        obtain ⟨d, hd⟩ := List.exists_mem_of_ne_nil ds hne
        obtain ⟨msg, hcall, -⟩ := hds d hd
        exact ⟨d, hd, hcall⟩
    rw [delivered, hdeliveries, List.filterMap_append, List.mem_append, hds']
    rfl
  refine ⟨fun d hd => ?_, fun r hr => ?_, fun r hr d hd hop => ?_, fun a ha => ?_⟩
  · rw [hdeliveries] at hd
    rcases List.mem_append.mp hd with hd | hd
    · obtain ⟨i, c', msg, hcall, hi, hrest⟩ := h.intact d hd
      exact ⟨i, c', msg, hcall, hold hi, hrest⟩
    · obtain ⟨msg, hcall, hmsg, hd⟩ := hds d hd
      exact ⟨_, c, msg, hcall, hnew, hmsg, hd⟩
  · rw [hcalls, List.length_append]
    rw [hreturns] at hr
    rcases List.mem_append.mp hr with hr | hr
    · obtain ⟨hi, hnot⟩ := h.returned r hr
      refine ⟨Nat.lt_add_right _ hi, fun q hq => ?_⟩
      rcases hpending q with hsame | ⟨-, hnew⟩
      · exact hnot q (hsame ▸ hq)
      · rw [hnew] at hq
        exact (Nat.ne_of_lt hi) (Option.some.inj hq).symm
    · obtain ⟨r', hrc, rfl⟩ : ∃ r', rc = some r' ∧ r = (l.calls.length, r') := by
        rcases rc with _ | r'
        · cases hr
        · exact ⟨r', rfl, by simpa using hr⟩
      refine ⟨Nat.lt_succ_self _, fun q hq => ?_⟩
      rcases hpending q with hsame | ⟨hnone, -⟩
      · exact Nat.lt_irrefl _ (hlt q _ (hsame ▸ hq))
      · rw [hrc] at hnone
        cases hnone
  · rw [hdelivered]
    rw [hreturns] at hr
    rcases List.mem_append.mp hr with hr | hr
    · have hi := (h.returned r hr).1
      rw [hcalls, List.getElem?_append_left hi] at hd
      rw [h.success r hr d hd hop]
      exact ⟨.inl, fun h => h.resolve_right fun h => Nat.ne_of_lt hi h.1⟩
    · obtain ⟨r', hrc, rfl⟩ : ∃ r', rc = some r' ∧ r = (l.calls.length, r') := by
        rcases rc with _ | r'
        · cases hr
        · exact ⟨r', rfl, by simpa using hr⟩
      obtain rfl : c = d := Option.some.inj (hnew.symm.trans hd)
      rw [hsuccess hop r' hrc]
      exact ⟨fun h => .inr ⟨rfl, h⟩, fun h => (h.resolve_left hfresh).2⟩
  · rw [hanswers] at ha
    obtain ⟨i, c', hcall, hi, hrest⟩ := h.answered a ha
    exact ⟨i, c', hcall, hold hi, hrest⟩

/-- A pending call is delivered, and the message that is handed over is its own. -/
theorem Kept.deliver {l : Log} (h : l.Kept) {p q : Proc} {i : ℕ} {c : Call} {msg : MsgRegs}
    (hi : l.pending q = some i) (hc : l.calls[i]? = some c) (hmsg : c.msg = some msg) :
    (l.deliver (some i) p (some msg)).Kept := by
  refine ⟨fun d hd => ?_, h.returned, fun r hr d hd hop => ?_, h.answered⟩
  · rcases List.mem_append.mp hd with hd | hd
    · exact h.intact d hd
    · rw [List.mem_singleton.mp hd]
      exact ⟨i, c, msg, rfl, hc, hmsg, rfl⟩
  · have hne : r.1 ≠ i := by
      rintro rfl
      exact (h.returned r hr).2 q hi
    rw [delivered_deliver, List.mem_append, List.mem_singleton, h.success r hr d hd hop]
    exact ⟨.inl, fun h => h.resolve_right hne⟩

/-- A call is answered, and the answer goes to whoever made that call. -/
theorem Kept.answer {l : Log} (h : l.Kept) {q r : Proc} {i : ℕ} {c : Call} {msg : Option MsgRegs}
    (hc : l.calls[i]? = some c) (hop : c.op = .call) (hsender : c.sender = q) :
    (l.answer (some i) r q msg).Kept := by
  refine ⟨h.intact, h.returned, h.success, fun a ha => ?_⟩
  rcases List.mem_append.mp ha with ha | ha
  · exact h.answered a ha
  · rw [List.mem_singleton.mp ha]
    exact ⟨i, c, rfl, hc, hop, hsender⟩

/-- A delivered call returns success, and whoever made it is suspended in nothing after that. -/
theorem Kept.resume {l : Log} (h : l.Kept) {p : Proc} {i : ℕ} (hlt : i < l.calls.length)
    (hinj : ∀ q, l.pending q = some i → q = p) (hdelivered : i ∈ l.delivered) :
    (l.resume p i 0).Kept := by
  have hpending : ∀ q j, Function.update l.pending p none q = some j →
      q ≠ p ∧ l.pending q = some j := by
    intro q j hq
    rw [Function.update_apply] at hq
    split at hq
    · cases hq
    · rename_i hqp
      exact ⟨hqp, hq⟩
  refine ⟨h.intact, fun r hr => ?_, fun r hr c hc hop => ?_, h.answered⟩
  · rcases List.mem_append.mp hr with hr | hr
    · obtain ⟨hr, hnot⟩ := h.returned r hr
      exact ⟨hr, fun q hq => hnot q (hpending q _ hq).2⟩
    · rw [List.mem_singleton.mp hr]
      refine ⟨hlt, fun q hq => ?_⟩
      obtain ⟨hqp, hq⟩ := hpending q i hq
      exact hqp (hinj q hq)
  · rcases List.mem_append.mp hr with hr | hr
    · exact h.success r hr c hc hop
    · rw [List.mem_singleton.mp hr]
      exact iff_of_true rfl hdelivered

end Log

/-! ## The log and the kernel

What ties the two together is process by process: in what each is suspended, and how far that has
got. -/

namespace Traced

/-- `p` is suspended in the send or call `i`, which stands where it can. -/
def Suspends (s : Traced) (p : Proc) (i : ℕ) : Prop :=
  ∃ c, s.log.calls[i]? = some c ∧ c.sender = p ∧ Progress s.kernel s.log p i c

/-- The log fits the kernel: whoever is suspended in a call has it where it stands, and queues
hold calls that are pending, in the order they were made. -/
structure Kept (s : Traced) : Prop where
  seated : s.kernel.Seated
  orderly : s.exchange.Orderly
  suspends : ∀ p i, s.log.pending p = some i → s.Suspends p i
  log : s.log.Kept

theorem Suspends.frame {s s' : Traced} {p : Proc} {i : ℕ} (h : s.Suspends p i)
    (hcalls : ∀ (j : ℕ) (c : Call), s.log.calls[j]? = some c → s'.log.calls[j]? = some c)
    (hstate : s'.kernel.stateAt p = s.kernel.stateAt p)
    (hregs : s'.kernel.msgRegsAt p = s.kernel.msgRegsAt p)
    (hpool : s'.kernel.tier1Pool p = s.kernel.tier1Pool p)
    (hdelivered : ∀ j ∈ s.log.delivered, j ∈ s'.log.delivered) : s'.Suspends p i := by
  obtain ⟨c, hc, hsender, hprogress⟩ := h
  exact ⟨c, hcalls i c hc, hsender, hprogress.frame hstate hregs hpool hdelivered⟩

theorem exchange_eq {k : Kernel} {l : Log} {r : Rendezvous Proc ℕ} {offered : ℕ}
    {pending : Proc → Option ℕ} {queued : ℕ → List ℕ} {delivered answered : List ℕ}
    (hr : k.rendezvous = r) (hoffered : l.calls.length = offered) (hpending : l.pending = pending)
    (hqueued : l.queued = queued) (hdelivered : l.delivered = delivered)
    (hanswered : l.answered = answered) :
    Traced.exchange ⟨k, l⟩ = ⟨r, offered, pending, queued, delivered, answered⟩ := by
  subst hr hoffered hpending hqueued hdelivered hanswered
  rfl

theorem step_exchange {x y : Exchange Proc ℕ} {k : Kernel} {l : Log} (h : x.Step y)
    (hr : k.rendezvous = y.toRendezvous) (hoffered : l.calls.length = y.offered)
    (hpending : l.pending = y.pending) (hqueued : l.queued = y.queued)
    (hdelivered : l.delivered = y.delivered) (hanswered : l.answered = y.answered) :
    x.Step (Traced.exchange ⟨k, l⟩) := by
  rw [exchange_eq hr hoffered hpending hqueued hdelivered hanswered]
  exact h

variable {s : Traced} {p : Proc}

/-- Whoever runs is suspended in no call. -/
theorem Kept.pending_of_running (h : s.Kept) (hp : s.kernel.stateAt p = some .running) :
    s.log.pending p = none := by
  rcases hi : s.log.pending p with _ | i
  · rfl
  · obtain ⟨c, -, -, hprogress⟩ := h.suspends p i hi
    rcases hprogress.ready_or_wait with hready | ⟨o, hwait⟩
    · rw [hp] at hready
      cases hready
    · rw [Kernel.wait_of_stateAt hp] at hwait
      cases hwait

/-- Whoever is suspended in a call does not run. -/
theorem Kept.ne_of_pending (h : s.Kept) (hp : s.kernel.stateAt p = some .running) {q : Proc} {i : ℕ}
    (hi : s.log.pending q = some i) : q ≠ p := by
  rintro rfl
  cases (h.pending_of_running hp).symm.trans hi

/-- Nor does it wait in a queue of receivers. -/
theorem Kept.ne_of_receiver (h : s.Kept) {e : ℕ} {q r : Proc} {rest : List Proc} {i : ℕ}
    (hq : s.kernel.queue .receivers e = q :: rest) (hi : s.log.pending r = some i) : r ≠ q := by
  rintro rfl
  have hmem : r ∈ s.kernel.rendezvous.receivers e := by
    rw [show s.kernel.rendezvous.receivers e = _ from hq]
    exact List.mem_cons_self
  have hrecv := (h.orderly.sound.receiving e r).mp hmem
  cases (h.orderly.receiving r e hrecv).symm.trans hi

theorem Kept.pending_lt (h : s.Kept) {q : Proc} {i : ℕ} (hi : s.log.pending q = some i) :
    i < s.log.calls.length :=
  h.orderly.pending_lt q i hi

theorem Kept.fresh (h : s.Kept) : s.log.calls.length ∉ s.log.delivered :=
  h.orderly.offered_fresh.1

end Traced

/-! ## What the observer writes

Each step changes queues and registers in a way that tells what happened. These lemmas read it
off. -/

namespace Log

theorem taken_self (ps : List Proc) : taken ps ps = none := by
  cases ps with
  | nil => rfl
  | cons q rest =>
    rw [taken, if_neg]
    exact List.cons_ne_self q rest

theorem taken_cons (q : Proc) (rest : List Proc) : taken (q :: rest) rest = some q := if_pos rfl

variable {l : Log} {k k' : Kernel} {p : Proc} {op : Op} {slot msgPtr : BitVec 32} {rc : Option ℤ}

/-- Where the queues are as they were, nothing was delivered or queued. -/
theorem observeSend_same (hqueue : k'.queue = k.queue) :
    l.observeSend k p op slot msgPtr rc k' = l.call k p op msgPtr rc := by
  simp only [observeSend]
  split
  · rfl
  · rename_i e _
    rw [hqueue, taken_self, if_neg]
    intro h
    have hlen := congrArg List.length h
    rw [List.length_append, List.length_singleton] at hlen
    omega

/-- What is written down of a send where a receiver was taken off its queue. -/
theorem observeSend_taken {e : ℕ} {q : Proc} {rest : List Proc}
    (he : k.resolveEndpoint p slot capRightWrite = .ok e) (hq : k.queue .receivers e = q :: rest)
    (hq' : k'.queue .receivers e = rest) (hs : k'.queue .senders e = k.queue .senders e) :
    l.observeSend k p op slot msgPtr rc k' =
      (l.call k p op msgPtr rc).deliver (some l.calls.length) q (k'.msgRegsAt q) := by
  simp only [observeSend, he]
  rw [hq, hq', taken_cons, hs, if_neg]
  intro h
  have hlen := congrArg List.length h
  rw [List.length_append, List.length_singleton] at hlen
  omega

/-- What is written down of a send where the caller was queued. -/
theorem observeSend_queued {e : ℕ} (he : k.resolveEndpoint p slot capRightWrite = .ok e)
    (hq : k.queue .receivers e = []) (hs : k'.queue .senders e = k.queue .senders e ++ [p]) :
    l.observeSend k p op slot msgPtr rc k' =
      (l.call k p op msgPtr rc).enqueue l.calls.length e := by
  simp only [observeSend, he]
  rw [hq, taken, if_pos hs]

/-- What is written down of a receive where a sender was received from. -/
theorem observeRecv_taken {e : ℕ} {q : Proc} {rest : List Proc}
    (he : k.resolveEndpoint p slot capRightRead = .ok e) (hq : k.queue .senders e = q :: rest)
    (hq' : k'.queue .senders e = rest) :
    l.observeRecv k p slot msgPtr (some 0) k' =
      l.deliver (l.pending q) p (k'.readMsg p msgPtr).toOption := by
  simp only [observeRecv, he, if_true]
  rw [hq, hq', taken_cons]

/-- A receive that did not return success leaves nothing written down. -/
theorem observeRecv_of_ne (hrc : rc ≠ some 0) : l.observeRecv k p slot msgPtr rc k' = l := by
  simp only [observeRecv]
  split
  · rfl
  · rw [if_neg hrc]

/-- A reply that did not return success leaves nothing written down. -/
theorem observeReply_of_ne (hrc : rc ≠ some 0) : l.observeReply k p rc k' = l := if_neg hrc

/-- What is written down of a reply where one process changed state: it is the one replied to. -/
theorem observeReply_one {q : Proc} (hqp : q ≠ p) (hq : k'.stateAt q ≠ k.stateAt q)
    (hothers : ∀ r, r ≠ q → k'.stateAt r = k.stateAt r) :
    l.observeReply k p (some 0) k' = l.answer (l.pending q) p q (k'.msgRegsAt q) := by
  have hfind : (List.finRange maxProcs).find? (fun r =>
      decide (r ≠ p ∧ k'.stateAt r ≠ k.stateAt r)) = some q := by
    rcases hf : (List.finRange maxProcs).find? (fun r =>
        decide (r ≠ p ∧ k'.stateAt r ≠ k.stateAt r)) with _ | r
    · have hnone := List.find?_eq_none.mp hf q (List.mem_finRange q)
      simp [hqp, hq] at hnone
    · have hr := (find?_finRange hf).1
      rw [decide_eq_true_eq] at hr
      by_cases hrq : r = q
      · rw [hrq]
      · exact (hr.2 (hothers r hrq)).elim
  rw [observeReply, if_pos rfl, hfind]

end Log

/-! ## IPC, step by step

Every case of an IPC operation, with what is written down of it, is a step of the exchange. -/

namespace Traced

/-- A step of the system with its log is a step of the exchange, or nothing, and the log
still fits. -/
structure Follows (s s' : Traced) : Prop where
  step : s'.exchange = s.exchange ∨ s.exchange.Step s'.exchange
  suspends : ∀ p i, s'.log.pending p = some i → s'.Suspends p i
  log : s'.log.Kept

/-- The seats of `q` are the same: its state, its registers and its instance. -/
def SameSeat (k k' : Kernel) (q : Proc) : Prop :=
  k'.stateAt q = k.stateAt q ∧ k'.msgRegsAt q = k.msgRegsAt q ∧ k'.tier1Pool q = k.tier1Pool q

/-- The kernel a host function of `p` leaves, with the invocation of `p` parked or not. -/
structure Settled (k k' : Kernel) (p : Proc) : Prop where
  queue : k'.queue = k.queue
  stateAt : k'.stateAt = k.stateAt
  msgRegsAt : k'.msgRegsAt = k.msgRegsAt
  rendezvous : k'.rendezvous = k.rendezvous
  pool : ∀ q, q ≠ p → k'.tier1Pool q = k.tier1Pool q

theorem Settled.sameSeat {k k₁ k' : Kernel} {p q : Proc} (h : Settled k₁ k' p) (hq : q ≠ p)
    (hsame : SameSeat k k₁ q) : SameSeat k k' q := by
  refine ⟨?_, ?_, ?_⟩
  · rw [h.stateAt, hsame.1]
  · rw [h.msgRegsAt, hsame.2.1]
  · rw [h.pool q hq, hsame.2.2]

variable {s : Traced} {p : Proc} {k' : Kernel}

theorem Suspends.same {q : Proc} {i : ℕ} {l : Log} (h : s.Suspends q i)
    (hsame : SameSeat s.kernel k' q)
    (hcalls : ∀ (j : ℕ) (c : Call), s.log.calls[j]? = some c → l.calls[j]? = some c)
    (hdelivered : ∀ j ∈ s.log.delivered, j ∈ l.delivered) : Traced.Suspends ⟨k', l⟩ q i :=
  Suspends.frame h hcalls hsame.1 hsame.2.1 hsame.2.2 hdelivered

/-- Where nothing is written down, and nobody suspended is touched. -/
theorem Kept.follows_same (h : s.Kept) (hrend : k'.rendezvous = s.kernel.rendezvous)
    (hsame : ∀ q i, s.log.pending q = some i → SameSeat s.kernel k' q) :
    s.Follows ⟨k', s.log⟩ where
  step := .inl (exchange_eq hrend rfl rfl rfl rfl rfl)
  suspends := fun q i hi =>
    (h.suspends q i hi).same (hsame q i hi) (fun _ _ hj => hj) fun _ hj => hj
  log := h.log

section Offer

variable {op : Op} {msgPtr : BitVec 32}

theorem calls_call (l : Log) (k : Kernel) (rc : Option ℤ) :
    (l.call k p op msgPtr rc).calls = l.calls ++ [⟨p, op, (k.readMsg p msgPtr).toOption⟩] := by
  cases rc <;> rfl

/-- A fresh call is the last one in the list of calls. -/
theorem getElem?_call (l : Log) (k : Kernel) (rc : Option ℤ) :
    (l.call k p op msgPtr rc).calls[l.calls.length]? =
      some ⟨p, op, (k.readMsg p msgPtr).toOption⟩ := by
  rw [calls_call, List.getElem?_append_right (Nat.le_refl _), Nat.sub_self]
  rfl

/-- The calls before it are where they were. -/
theorem getElem?_call_of_some (l : Log) (k : Kernel) (rc : Option ℤ) (j : ℕ) (c : Call)
    (h : l.calls[j]? = some c) : (l.call k p op msgPtr rc).calls[j]? = some c := by
  rw [calls_call]
  exact Log.getElem?_append h

/-- A call that suspends its caller leaves everyone else suspended in what it was. -/
theorem pending_call (l : Log) (k : Kernel) (q : Proc) :
    (l.call k p op msgPtr none).pending q = l.pending q ∨
      (none : Option ℤ) = none ∧ (l.call k p op msgPtr none).pending q = some l.calls.length := by
  by_cases hq : q = p
  · rw [hq]
    exact .inr ⟨rfl, Function.update_self _ _ _⟩
  · exact .inl (Function.update_of_ne hq _ _)

/-- A send or call that was refused: it is in the log, and pending for nobody. -/
theorem Kept.follows_refused (h : s.Kept) (hp : s.kernel.stateAt p = some .running) {rc : ℤ}
    (hrc : rc ≠ 0) (hrend : k'.rendezvous = s.kernel.rendezvous)
    (hsame : ∀ q, q ≠ p → SameSeat s.kernel k' q) :
    s.Follows ⟨k', s.log.call s.kernel p op msgPtr (some rc)⟩ where
  step := .inr (step_exchange .refuse hrend List.length_append rfl rfl rfl rfl)
  suspends := by
    intro q i hi
    have hqp := h.ne_of_pending hp hi
    exact (h.suspends q i hi).same (hsame q hqp) (getElem?_call_of_some s.log s.kernel (some rc))
      fun _ hj => hj
  log := h.log.offer _ (some rc) [] rfl rfl (fun _ => .inl rfl) (fun _ _ hi => h.pending_lt hi)
    (List.append_nil _).symm rfl (fun _ hd => by cases hd)
    (fun _ r hr => by
      cases hr
      exact ⟨fun h => (hrc h).elim, fun h => (h rfl).elim⟩) h.fresh

/-- A send handed to the first receiver: it is delivered, and returns at once. -/
theorem Kept.follows_sent (h : s.Kept) (hp : s.kernel.stateAt p = some .running) {e : ℕ} {q : Proc}
    {rest : List Proc} {msg : MsgRegs} (hmsg : s.kernel.readMsg p msgPtr = .ok msg)
    (hq : s.kernel.queue .receivers e = q :: rest)
    (hrend : k'.rendezvous = (s.kernel.rendezvous.setReceivers e rest).setWait q none)
    (hregs : k'.msgRegsAt q = some msg)
    (hsame : ∀ r, r ≠ p → r ≠ q → SameSeat s.kernel k' r) :
    s.Follows ⟨k', (s.log.call s.kernel p .send msgPtr (some 0)).deliver (some s.log.calls.length) q
      (k'.msgRegsAt q)⟩ where
  step := by
    right
    have hwait : s.kernel.rendezvous.wait p = none := Kernel.wait_of_stateAt hp
    have hnone := h.pending_of_running hp
    exact step_exchange (.hand hq hwait hnone (.inl rfl))
      (hrend.trans (Rendezvous.setWait_eq_self (by simp [hwait])).symm) List.length_append
      (Function.update_eq_self_iff.mpr hnone.symm).symm rfl (Log.delivered_deliver _ _ _ _) rfl
  suspends := by
    intro r i hi
    have hrp := h.ne_of_pending hp hi
    have hrq := h.ne_of_receiver hq hi
    refine (h.suspends r i hi).same (hsame r hrp hrq)
      (getElem?_call_of_some s.log s.kernel (some 0)) fun j hj => ?_
    rw [Log.delivered_deliver]
    exact List.mem_append_left _ hj
  log := h.log.offer _ (some 0) [⟨some s.log.calls.length, q, k'.msgRegsAt q⟩] rfl rfl
    (fun _ => .inl rfl) (fun _ _ hi => h.pending_lt hi) rfl rfl
    (fun d hd => by
      rw [List.mem_singleton.mp hd, hregs, hmsg]
      exact ⟨msg, rfl, rfl, rfl⟩)
    (fun _ r hr => by
      cases hr
      exact iff_of_true rfl (List.cons_ne_nil _ _)) h.fresh

/-- A call handed to the first receiver: it is delivered, and pending until the reply. -/
theorem Kept.follows_called (h : s.Kept) (hp : s.kernel.stateAt p = some .running) {e : ℕ}
    {q : Proc} {rest : List Proc} {msg : MsgRegs} (hmsg : s.kernel.readMsg p msgPtr = .ok msg)
    (hq : s.kernel.queue .receivers e = q :: rest)
    (hrend : k'.rendezvous =
      ((s.kernel.rendezvous.setReceivers e rest).setWait q none).setWait p (some (.reply, e)))
    (hregs : k'.msgRegsAt q = some msg)
    (hsame : ∀ r, r ≠ p → r ≠ q → SameSeat s.kernel k' r) :
    s.Follows ⟨k', (s.log.call s.kernel p .call msgPtr none).deliver (some s.log.calls.length) q
      (k'.msgRegsAt q)⟩ where
  step := .inr (step_exchange
    (.hand hq (Kernel.wait_of_stateAt hp) (h.pending_of_running hp) (.inr rfl)) hrend
    List.length_append rfl rfl (Log.delivered_deliver _ _ _ _) rfl)
  suspends := by
    intro r i hi
    by_cases hrp : r = p
    · subst hrp
      obtain rfl : s.log.calls.length = i :=
        Option.some.inj ((Function.update_self r _ s.log.pending).symm.trans hi)
      exact ⟨_, getElem?_call s.log s.kernel none, rfl,
        .awaiting (e := e) (by rw [hrend, Rendezvous.wait_setWait, if_pos rfl]) rfl⟩
    · have hold : s.log.pending r = some i := (Function.update_of_ne hrp _ _).symm.trans hi
      have hrq := h.ne_of_receiver hq hold
      refine (h.suspends r i hold).same (hsame r hrp hrq)
        (getElem?_call_of_some s.log s.kernel none) fun j hj => ?_
      rw [Log.delivered_deliver]
      exact List.mem_append_left _ hj
  log := h.log.offer _ none [⟨some s.log.calls.length, q, k'.msgRegsAt q⟩] rfl
    (List.append_nil _).symm
    (pending_call s.log s.kernel)
    (fun _ _ hi => h.pending_lt hi) rfl rfl
    (fun d hd => by
      rw [List.mem_singleton.mp hd, hregs, hmsg]
      exact ⟨msg, rfl, rfl, rfl⟩)
    (fun _ r hr => by cases hr) h.fresh

/-- A send or call that was queued: it is pending, and not yet delivered. -/
theorem Kept.follows_queued (h : s.Kept) (hp : s.kernel.stateAt p = some .running) {e : ℕ}
    {w : Wait} {msg : MsgRegs} (hmsg : s.kernel.readMsg p msgPtr = .ok msg)
    (hop : w = .send ∧ op = .send ∨ w = .call ∧ op = .call)
    (hrend : k'.rendezvous =
      (s.kernel.rendezvous.setSenders e (s.kernel.rendezvous.senders e ++ [p])).setWait p
        (some (w, e)))
    (hregs : k'.msgRegsAt p = some msg) (hsame : ∀ r, r ≠ p → SameSeat s.kernel k' r) :
    s.Follows ⟨k', (s.log.call s.kernel p op msgPtr none).enqueue s.log.calls.length e⟩ where
  step := .inr (step_exchange
    (.queue (Kernel.wait_of_stateAt hp) (h.pending_of_running hp) (hop.imp And.left And.left)) hrend
    List.length_append rfl rfl rfl rfl)
  suspends := by
    intro r i hi
    by_cases hrp : r = p
    · subst hrp
      obtain rfl : s.log.calls.length = i :=
        Option.some.inj ((Function.update_self r _ s.log.pending).symm.trans hi)
      refine ⟨_, getElem?_call s.log s.kernel none, rfl,
        .queued (w := w) (e := e) (by rw [hrend, Rendezvous.wait_setWait, if_pos rfl]) hop ?_ hregs⟩
      rw [hmsg]
      rfl
    · have hi : s.log.pending r = some i := (Function.update_of_ne hrp _ _).symm.trans hi
      exact (h.suspends r i hi).same (hsame r hrp) (getElem?_call_of_some s.log s.kernel none)
        fun _ hj => hj
  log := h.log.offer _ none [] rfl (List.append_nil _).symm
    (pending_call s.log s.kernel)
    (fun _ _ hi => h.pending_lt hi) (List.append_nil _).symm rfl (fun _ hd => by cases hd)
    (fun _ r hr => by cases hr) h.fresh

end Offer

/-- Whoever is queued to send is suspended in a call, with its message in its
registers. -/
theorem Kept.sender (h : s.Kept) {e : ℕ} {q : Proc} (hq : q ∈ s.kernel.rendezvous.senders e) :
    ∃ i c msg, s.log.pending q = some i ∧ s.log.calls[i]? = some c ∧ c.sender = q ∧
      c.msg = some msg ∧ s.kernel.msgRegsAt q = some msg ∧
      (s.kernel.rendezvous.wait q = some (.send, e) ∧ c.op = .send ∨
        s.kernel.rendezvous.wait q = some (.call, e) ∧ c.op = .call) := by
  have hsending := h.orderly.sound.sending e q hq
  obtain ⟨i, hi, -⟩ := h.orderly.sending q e hsending
  obtain ⟨c, hc, hsender, hprogress⟩ := h.suspends q i hi
  cases hprogress with
  | @queued w d msg hwait hop hmsg hregs =>
    refine ⟨i, c, msg, hi, hc, hsender, hmsg, hregs, ?_⟩
    rcases hop with ⟨rfl, hop⟩ | ⟨rfl, hop⟩
    · left
      rcases hsending with hw | hw <;> cases hwait.symm.trans hw
      exact ⟨hwait, hop⟩
    · right
      rcases hsending with hw | hw <;> cases hwait.symm.trans hw
      exact ⟨hwait, hop⟩
  | awaiting hwait =>
    rcases hsending with hw | hw <;> cases hwait.symm.trans hw
  | woken hstate =>
    have hnone := Kernel.wait_of_stateAt hstate
    rcases hsending with hw | hw <;> cases hnone.symm.trans hw

/-- The first sender was received from: its call is delivered, and a send returns. -/
theorem Kept.follows_received (h : s.Kept) {msgPtr : BitVec 32}
    (hp : s.kernel.stateAt p = some .running) {e : ℕ} {q : Proc} {rest : List Proc} {msg : MsgRegs}
    (hq : s.kernel.queue .senders e = q :: rest)
    (hregs : s.kernel.msgRegsAt q = some msg) (hread : k'.readMsg p msgPtr = .ok msg)
    (hrend : k'.rendezvous = (s.kernel.rendezvous.setSenders e rest).setWait q
      (if s.kernel.rendezvous.wait q = some (.call, e) then some (.reply, e) else none))
    (hwoken : s.kernel.rendezvous.wait q ≠ some (.call, e) → k'.stateAt q = some .ready ∧
      ∃ slot, k'.tier1Pool q = some slot ∧ slot.parked = true ∧ slot.pendingResume = 0)
    (hsame : ∀ r, r ≠ p → r ≠ q → SameSeat s.kernel k' r) :
    s.Follows ⟨k', s.log.deliver (s.log.pending q) p (k'.readMsg p msgPtr).toOption⟩ := by
  have hmem : q ∈ s.kernel.rendezvous.senders e := by
    rw [show s.kernel.rendezvous.senders e = _ from hq]
    exact List.mem_cons_self
  obtain ⟨i, c, msg', hi, hc, hsender, hmsg, hregs', hop⟩ := h.sender hmem
  obtain rfl : msg = msg' := Option.some.inj (hregs.symm.trans hregs')
  rw [hi, hread]
  refine ⟨.inr (step_exchange (.take hq hi) hrend rfl rfl rfl (Log.delivered_deliver _ _ _ _) rfl),
    fun r j hj => ?_, h.log.deliver hi hc hmsg⟩
  have hkept : ∀ j ∈ s.log.delivered, j ∈ (s.log.deliver (some i) p (some msg)).delivered := by
    intro j hj
    rw [Log.delivered_deliver]
    exact List.mem_append_left _ hj
  have hrp := h.ne_of_pending hp hj
  by_cases hrq : r = q
  · subst hrq
    obtain rfl : i = j := Option.some.inj (hi.symm.trans hj)
    refine ⟨c, hc, hsender, ?_⟩
    rcases hop with ⟨hsend, -⟩ | ⟨hcall, hop⟩
    · obtain ⟨hready, slot, hslot, hparked, hresume⟩ := hwoken (by rw [hsend]; exact nofun)
      refine .woken hready hslot hparked hresume ?_
      rw [Log.delivered_deliver]
      exact List.mem_append_right _ (List.mem_singleton_self i)
    · exact .awaiting (e := e)
        (by rw [hrend, Rendezvous.wait_setWait, if_pos rfl, if_pos hcall]) hop
  · exact (h.suspends r j hj).same (hsame r hrp hrq) (fun _ _ hj => hj) hkept

/-- A caller that awaits a reply is suspended in a call that was delivered and not
answered. -/
theorem Kept.caller (h : s.Kept) {e : ℕ} {q : Proc}
    (hq : s.kernel.rendezvous.wait q = some (.reply, e)) :
    ∃ i c, s.log.pending q = some i ∧ s.log.calls[i]? = some c ∧ c.sender = q ∧ c.op = .call ∧
      i ∈ s.log.delivered ∧ i ∉ s.log.answered := by
  obtain ⟨i, hi, hdelivered, hanswered⟩ := h.orderly.replying q e hq
  obtain ⟨c, hc, hsender, hprogress⟩ := h.suspends q i hi
  refine ⟨i, c, hi, hc, hsender, ?_, hdelivered, hanswered⟩
  cases hprogress with
  | @queued w d msg hwait hop hmsg hregs =>
    rcases hop with ⟨rfl, -⟩ | ⟨rfl, -⟩ <;> cases hwait.symm.trans hq
  | awaiting _ hop => exact hop
  | woken hstate => cases (Kernel.wait_of_stateAt hstate).symm.trans hq

/-- A caller was replied to: its call is answered, and returns. -/
theorem Kept.follows_replied (h : s.Kept) (hp : s.kernel.stateAt p = some .running) {e : ℕ}
    {q : Proc} {slot : Tier1Slot} (hq : s.kernel.rendezvous.wait q = some (.reply, e))
    (hrend : k'.rendezvous = s.kernel.rendezvous.setWait q none)
    (hready : k'.stateAt q = some .ready) (hslot : k'.tier1Pool q = some slot)
    (hparked : slot.parked = true) (hresume : slot.pendingResume = 0)
    (hsame : ∀ r, r ≠ p → r ≠ q → SameSeat s.kernel k' r) :
    s.Follows ⟨k', s.log.answer (s.log.pending q) p q (k'.msgRegsAt q)⟩ := by
  obtain ⟨i, c, hi, hc, hsender, hop, hdelivered, -⟩ := h.caller hq
  rw [hi]
  refine ⟨.inr (step_exchange (.answer hq hi) hrend rfl rfl rfl rfl
      (Log.answered_answer _ _ _ _ _)), fun r j hj => ?_, h.log.answer hc hop hsender⟩
  have hrp := h.ne_of_pending hp hj
  by_cases hrq : r = q
  · subst hrq
    obtain rfl : i = j := Option.some.inj (hi.symm.trans hj)
    exact ⟨c, hc, hsender, .woken hready hslot hparked hresume hdelivered⟩
  · exact (h.suspends r j hj).same (hsame r hrp hrq) (fun _ _ hj => hj) fun _ hj => hj

/-- A receiver was queued, and no call changes. -/
theorem Kept.follows_awaited (h : s.Kept) (hp : s.kernel.stateAt p = some .running) {e : ℕ}
    (hrend : k'.rendezvous =
      (s.kernel.rendezvous.setReceivers e (s.kernel.rendezvous.receivers e ++ [p])).setWait p
        (some (.recv, e)))
    (hsame : ∀ r, r ≠ p → SameSeat s.kernel k' r) : s.Follows ⟨k', s.log⟩ where
  step := .inr (step_exchange (.await (Kernel.wait_of_stateAt hp) (h.pending_of_running hp)) hrend
    rfl rfl rfl rfl rfl)
  suspends := by
    intro r i hi
    have hrp := h.ne_of_pending hp hi
    exact (h.suspends r i hi).same (hsame r hrp) (fun _ _ hj => hj) fun _ hj => hj
  log := h.log

/-- The first sender is lost: nothing was written down of it, and nobody's seat changed. -/
structure Loses (s s' : Traced) : Prop where
  drop : s.exchange.Drop s'.exchange
  suspends : ∀ p i, s'.log.pending p = some i → s'.Suspends p i
  log : s'.log.Kept

theorem Kept.loses_dropped (h : s.Kept) {e : ℕ} {q : Proc} {rest : List Proc}
    (hq : s.kernel.queue .senders e = q :: rest)
    (hrend : k'.rendezvous = s.kernel.rendezvous.setSenders e rest)
    (hsame : ∀ r, SameSeat s.kernel k' r) : s.Loses ⟨k', s.log⟩ where
  drop := by
    rw [exchange_eq hrend rfl rfl rfl rfl rfl]
    exact .mk hq
  suspends := fun r i hi =>
    (h.suspends r i hi).same (hsame r) (fun _ _ hj => hj) fun _ hj => hj
  log := h.log

/-- A send or call that was delivered goes on, and returns success. -/
theorem Kept.follows_resumed (h : s.Kept) (hp : s.kernel.stateAt p = some .ready) {i : ℕ}
    (hi : s.log.pending p = some i) (hdelivered : i ∈ s.log.delivered)
    (hrend : k'.rendezvous = s.kernel.rendezvous) (hsame : ∀ r, r ≠ p → SameSeat s.kernel k' r) :
    s.Follows ⟨k', s.log.resume p i 0⟩ where
  step := .inr (step_exchange (.resume (p := p) (Kernel.wait_of_stateAt hp)) hrend rfl rfl rfl rfl
    rfl)
  suspends := by
    intro r j hj
    by_cases hrp : r = p
    · have hnone : (s.log.resume p i 0).pending p = none := Function.update_self _ _ _
      rw [hrp] at hj
      cases hnone.symm.trans hj
    · have hold : s.log.pending r = some j := (Function.update_of_ne hrp _ _).symm.trans hj
      exact (h.suspends r j hold).same (hsame r hrp) (fun _ _ hj => hj) fun _ hj => hj
  log := h.log.resume (h.pending_lt hi) (fun q hq => h.orderly.pending_inj q p i hq hi) hdelivered

end Traced

end Wari
