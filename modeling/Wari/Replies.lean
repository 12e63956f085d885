import Wari.Traffic

/-!
# Replies

A reply goes to the lowest process that awaits one on the endpoint, whoever received its
call. It answers a call that was received and not answered, once; and it answers
a call of the replier's own where the replier received all the calls that await a reply
there.
-/

namespace Wari

open Lib (Machine)

/-- `r` received the message of call `i`, and may be the one to reply. -/
def Log.ReceivedBy (l : Log) (r : Proc) (i : ℕ) : Prop :=
  ∃ d ∈ l.deliveries, d.call = some i ∧ d.receiver = r

namespace Traced

/-- The call `i` of `q` was received, and not answered. -/
structure Open (s : Traced) (q : Proc) (i : ℕ) : Prop where
  called : ∃ c, s.log.calls[i]? = some c ∧ c.sender = q ∧ c.op = .call
  pending : s.log.pending q = some i
  received : ∃ r, s.log.ReceivedBy r i
  unanswered : ∀ a ∈ s.log.answers, a.call ≠ some i

/-- A reply of `r` on endpoint `e` answers the call `i` of `q` with `msg`. -/
structure Answers (s s' : Traced) (r : Proc) (e : ℕ) (q : Proc) (i : ℕ) (msg : MsgRegs) : Prop where
  /-- `q` is the lowest that awaits a reply there -/
  lowest : s.kernel.BlockedOn q .replyWait e ∧ ∀ x < q, ¬ s.kernel.BlockedOn x .replyWait e
  call : s.Open q i
  answer : s'.log.answers = s.log.answers ++ [⟨some i, r, q, some msg⟩]
  delivered : s'.kernel.msgRegsAt q = some msg
  /-- `r` received the call, where it received all that await a reply there -/
  own : (∀ x j, s.kernel.BlockedOn x .replyWait e → s.log.pending x = some j →
    s.log.ReceivedBy r j) → s.log.ReceivedBy r i

variable {s s' : Traced} {q r : Proc} {e : ℕ}

theorem replying_iff {k : Kernel} {p : Proc} :
    k.rendezvous.wait p = some (.reply, e) ↔ k.BlockedOn p .replyWait e := by
  simp only [Kernel.BlockedOn, Kernel.rendezvous]
  rcases k.stateAt p with _ | s
  · simp
  · simp only [Option.bind_some, Option.some.injEq]
    exact Kernel.wait_eq_reply

/-- Whoever awaits a reply is suspended in an open call. -/
theorem Kept.open_of_wait (h : s.Kept) (hq : s.kernel.rendezvous.wait q = some (.reply, e)) :
    ∃ i, s.Open q i := by
  obtain ⟨i, c, hi, hc, hsender, hop, hdelivered, hanswered⟩ := h.caller hq
  refine ⟨i, ⟨c, hc, hsender, hop⟩, hi, ?_, fun a ha hcall => ?_⟩
  · obtain ⟨d, hd, hcall⟩ := List.mem_filterMap.mp hdelivered
    exact ⟨d.receiver, d, hd, hcall, rfl⟩
  · exact hanswered (List.mem_filterMap.mpr ⟨a, ha, hcall⟩)

/-- **A reply** answers the call of the caller with the lowest process id, of those that wait on
the endpoint for one. -/
theorem Kept.replied {slot msgPtr : BitVec 32} {k' : Kernel} (h : s.Kept)
    (hr : s.kernel.stateAt r = some .running)
    (heffect : s.kernel.IpcEffect r slot msgPtr .reply (some 0, k')) :
    ∃ e q i msg, s.kernel.resolveEndpoint r slot capRightWrite = .ok e ∧
      s.kernel.readMsg r msgPtr = .ok msg ∧
      s.Answers ⟨k', s.log.observeReply s.kernel r (some 0) k'⟩ r e q i msg := by
  cases heffect with
  | refused hrc => exact (Int.lt_irrefl 0 hrc).elim
  | @replied e q msg he hmsg hq =>
    obtain ⟨hw, hbelow⟩ := Kernel.replyWaiterOn_some hq
    obtain ⟨i, hopen⟩ := h.open_of_wait hw
    obtain ⟨hlog, hregs⟩ := observeReply_replied hr hw msg
    have hblocked := replying_iff.mp hw
    refine ⟨e, q, i, msg, he, hmsg, ⟨hblocked, fun x hx hb => ?_⟩, hopen, ?_, hregs, fun hown => ?_⟩
    · exact hbelow x hx (replying_iff.mpr hb)
    · rw [hlog, hopen.pending, hregs]
      rfl
    · exact hown q i hblocked hopen.pending

end Traced

namespace Kernel

end Kernel

end Wari
