import Wari.System
import Wari.Traffic

/-!
# Badges

A server tells its clients apart by the badge of the capability each of them was given.
The badge of a message should therefore be that of the capability its sender invoked. It
is not: `decodeMsg` reads it from the sender's memory, along with the words. A run
delivers the badges of the capabilities where every sender puts them there itself.
-/

namespace Wari

open Lib (Machine)

/-! ## The machine

Two things are written down that the kernel does not keep: the badge each capability was minted
with, and for each send or call the badge of the capability it was made on. Both are read by
nobody but the statements. -/

/-- What can happen next to the traced kernel: a turn of a tenant, an arrival at the registry, or
one of the calls that derive capabilities. -/
inductive BadgeCall where
  /-- the scheduler and the tenants it runs -/
  | turn (t : Turn)
  /-- an envelope arrives -/
  | stage (bytes : List (BitVec 8))
  /-- a staged slot is spawned -/
  | spawn (slot : BitVec 8) (requested : GrantSpec) (restartBudget : BitVec 8)
  /-- `cap_mint` -/
  | mint (procId : BitVec 8) (parentSlot targetSlot rights badge : BitVec 32)
  /-- `cap_copy` -/
  | copy (procId : BitVec 8) (srcSlot targetSlot : BitVec 32)

/-- The kernel and its log, with the badge each cap was minted with, and the badge of the cap that
each send and call invoked, where it invoked one. The badges are proof-only: no step looks at
them. -/
structure Badged where
  /-- the kernel and its log -/
  traced : Traced
  /-- the badge the cap in a slot was minted with -/
  minted : Place → BitVec 32
  /-- the badges invoked, one for each call of the log -/
  invoked : List (Option (BitVec 32))

namespace Badged

/-- Boot, whose caps have the badges it installed them with. -/
def boot (board : Board) : Badged :=
  ⟨.start ⟨.booted board, Kernel.booted_idle board⟩, fun a => ((bootState board).capAt a).badge, []⟩

/-- The kernel alone, without what is noted beside it. -/
abbrev kernel (s : Badged) : Kernel := s.traced.kernel

/-- The badge of the Endpoint cap that a send or call of `p` on `slot` invokes. -/
def badgeOf (s : Badged) (p : Proc) (slot : BitVec 32) : Option (BitVec 32) :=
  match s.kernel.resolveEndpoint p slot capRightWrite with
  | .ok _ => (slotArg? slot).map fun a => s.minted (p, a)
  | .error _ => none

/-- The badges that a turn invokes: one for a send or a call, that of the capability in the slot
it names. A receive and a reply invoke none. -/
def invokes (s : Badged) : Turn → List (Option (BitVec 32))
  | .ipc p .send slot _ => [s.badgeOf p slot]
  | .ipc p .call slot _ => [s.badgeOf p slot]
  | _ => []

theorem length_invokes (s : Badged) (t : Turn) : (s.invokes t).length ≤ 1 := by
  cases t with
  | ipc p op slot msgPtr => cases op <;> simp [invokes]
  | _ => exact Nat.zero_le 1

/-- The badges after a step that is no derivation: a cap the kernel installed has the
badge it installed it with. -/
def mintedAfter (s : Badged) (k : Kernel) (a : Place) : BitVec 32 :=
  if (s.kernel.caps.capAt a).isEmpty then (k.caps.capAt a).badge else s.minted a

/-- One turn, with the badges that it invokes appended to what was invoked before. -/
def turn (s : Badged) (t : Turn) : Option Badged :=
  (s.traced.turn t).map fun traced =>
    ⟨traced, s.mintedAfter traced.kernel, s.invoked ++ s.invokes t⟩

/-- The registry led to `k`. It installs root capabilities, which are minted anew, and it invokes
nothing. -/
def registered (s : Badged) (k : Kernel) : Badged :=
  ⟨⟨k, s.traced.log⟩, s.mintedAfter k, s.invoked⟩

/-- A derivation by `procId` that returned `out`, into `targetSlot`, of a cap with badge
`badge`. -/
def derived (s : Badged) (procId : BitVec 8) (targetSlot : BitVec 32) (badge : BitVec 32)
    (out : ℤ × CapState) : Badged where
  traced := ⟨{ s.kernel with caps := out.2 }, s.traced.log⟩
  minted :=
    match procIndex? procId, slotArg? targetSlot with
    | some p, some t => if out.1 = 0 then Function.update s.minted (p, t) badge else s.minted
    | _, _ => s.minted
  invoked := s.invoked

/-- The badge the cap in `slot` was minted with. -/
def mintedAt (s : Badged) (procId : BitVec 8) (slot : BitVec 32) : BitVec 32 :=
  match procIndex? procId, slotArg? slot with
  | some p, some a => s.minted (p, a)
  | _, _ => 0#32

/-- One step of the traced kernel. Only `cap_mint` and `cap_copy` derive capabilities, and only
turns send messages. -/
def step (ed25519 : Ed25519) (s : Badged) : BadgeCall → Option Badged
  | .turn t => s.turn t
  | .stage bytes => some (s.registered (s.kernel.stage bytes).2)
  | .spawn slot requested restartBudget =>
    some (s.registered (s.kernel.spawnInner ed25519 slot requested restartBudget).2)
  | .mint procId parentSlot targetSlot rights badge =>
    if s.kernel.mayCall procId then
      some (s.derived procId targetSlot badge
        (capMintImpl s.kernel.caps procId parentSlot targetSlot rights badge))
    else none
  | .copy procId srcSlot targetSlot =>
    if s.kernel.mayCall procId then
      some (s.derived procId targetSlot (s.mintedAt procId srcSlot)
        (capCopyImpl s.kernel.caps procId srcSlot targetSlot))
    else none

/-- The badge in every message delivered is that of the cap its sender invoked, so that two
senders with the same badge deliver the same, whatever their memories hold. The second half is
what a server relies on: a badge is no message. -/
structure Authentic (s : Badged) : Prop where
  badge : ∀ d ∈ s.traced.log.deliveries, ∃ i b msg, d.call = some i ∧
    s.invoked[i]? = some (some b) ∧
    d.msg = some msg ∧ msg.badge = b.setWidth 64
  alike : ∀ d ∈ s.traced.log.deliveries, ∀ d' ∈ s.traced.log.deliveries, ∀ i j : ℕ,
    d.call = some i → d'.call = some j → s.invoked[i]? = s.invoked[j]? →
      d.msg.map MsgRegs.badge = d'.msg.map MsgRegs.badge

/-- A send or call on an Endpoint cap finds the badge of that cap in the first eight bytes of its
buffer. Other steps, and sends without a cap, are free. -/
def Honest (s : Badged) : BadgeCall → Prop
  | .turn (.ipc p op slot msgPtr) => op = .send ∨ op = .call → ∀ a memory, slotArg? slot = some a →
      (s.kernel.caps.capAt (p, a)).kind = .endpoint → s.kernel.memoryOf p = some memory →
        msgPtr.toNat + msgBytes ≤ memory.length →
          Lib.ofLe ((memory.drop msgPtr.toNat).take 8) = (s.kernel.caps.capAt (p, a)).badge.toNat
  | _ => True

end Badged

/-- The machine that minting, copying and messages run on, from boot, with a note of every badge
minted and invoked. -/
def badgeMachine (ed25519 : Ed25519) (board : Board) : Machine Badged BadgeCall where
  init s := s = Badged.boot board
  step := Badged.step ed25519

/-! ## What a step writes down

The log of messages grows by at most one call a step, and what is delivered or left pending in
that step is either old or that call. -/

namespace Log

/-- A step makes the calls `new` at most, and delivers, or leaves pending, only what was
pending before, or its own call where it has an endpoint. -/
structure Notes (l l' : Log) (new : List Call) (resolved : Prop) : Prop where
  calls : l'.calls = l.calls ++ new
  delivered : ∀ i ∈ l'.delivered, i ∈ l.delivered ∨ (∃ p, l.pending p = some i) ∨
    i = l.calls.length ∧ resolved
  pending : ∀ p i, l'.pending p = some i → l.pending p = some i ∨ i = l.calls.length ∧ resolved

section Notes

variable {l l' : Log} {k k' : Kernel} {p : Proc} {op : Op} {slot msgPtr : BitVec 32}
  {rc : Option ℤ}

theorem Notes.of_eq {resolved : Prop} (hcalls : l'.calls = l.calls)
    (hdeliveries : l'.deliveries = l.deliveries) (hpending : l'.pending = l.pending) :
    l.Notes l' [] resolved := by
  refine ⟨hcalls.trans (List.append_nil _).symm, fun i hi => ?_, fun q i hi => ?_⟩
  · left
    rwa [Log.delivered, hdeliveries] at hi
  · left
    rwa [hpending] at hi

/-- If a step notes that a message arrived, it may as well note that another one did, as long as
that one was pending or is new. -/
theorem Notes.deliver {new : List Call} {resolved : Prop} (h : l.Notes l' new resolved)
    {o : Option ℕ} (ho : ∀ i, o = some i → (∃ q, l.pending q = some i) ∨
      i = l.calls.length ∧ resolved) (q : Proc) (msg : Option MsgRegs) :
    l.Notes (l'.deliver o q msg) new resolved := by
  refine ⟨h.calls, fun i hi => ?_, h.pending⟩
  rw [Log.delivered, Log.deliver, List.filterMap_append, List.mem_append] at hi
  rcases hi with hi | hi
  · exact h.delivered i hi
  · cases o with
    | none => cases hi
    | some j =>
      obtain rfl : i = j := List.mem_singleton.mp hi
      exact .inr (ho i rfl)

/-- A call by itself: it is left pending only where it has an endpoint. -/
theorem notes_call {resolved : Prop} (l : Log) (k : Kernel) (p : Proc) (op : Op)
    (msgPtr : BitVec 32) (h : rc = none → resolved) :
    l.Notes (l.call k p op msgPtr rc) [⟨p, op, (k.readMsg p msgPtr).toOption⟩] resolved := by
  cases rc with
  | some rc => exact ⟨rfl, fun i hi => .inl hi, fun q i hi => .inl hi⟩
  | none =>
    refine ⟨rfl, fun i hi => .inl hi, fun q i hi => ?_⟩
    change Function.update l.pending p (some l.calls.length) q = some i at hi
    by_cases hq : q = p
    · subst hq
      rw [Function.update_self] at hi
      exact .inr ⟨(Option.some.inj hi).symm, h rfl⟩
    · rw [Function.update_of_ne hq] at hi
      exact .inl hi

theorem notes_observeSend (l : Log) {k : Kernel} (k' : Kernel) (p : Proc) (op : Op)
    (slot msgPtr : BitVec 32) {rc : Option ℤ}
    (h : rc = none → ∃ e, k.resolveEndpoint p slot capRightWrite = .ok e) :
    l.Notes (l.observeSend k p op slot msgPtr rc k') [⟨p, op, (k.readMsg p msgPtr).toOption⟩]
      (∃ e, k.resolveEndpoint p slot capRightWrite = .ok e) := by
  have hcall := l.notes_call k p op msgPtr h
  simp only [observeSend]
  rcases he : k.resolveEndpoint p slot capRightWrite with rc' | e
  · rw [he] at hcall
    exact hcall
  · rw [he] at hcall
    simp only
    -- the deliver, if a receiver was taken, and then the queueing, which is neither
    have hqueue : ∀ {l₁ : Log}, l.Notes l₁ [⟨p, op, (k.readMsg p msgPtr).toOption⟩]
        (∃ e', (Except.ok e : Except ℤ ℕ) = .ok e') → l.Notes
          (if k'.queue .senders e = k.queue .senders e ++ [p] then l₁.enqueue l.calls.length e
            else l₁) [⟨p, op, (k.readMsg p msgPtr).toOption⟩]
          (∃ e', (Except.ok e : Except ℤ ℕ) = .ok e') := by
      intro l₁ hl₁
      split
      · exact ⟨hl₁.calls, hl₁.delivered, hl₁.pending⟩
      · exact hl₁
    apply hqueue
    split
    · refine hcall.deliver (fun i hi => ?_) _ _
      exact .inr ⟨(Option.some.inj hi).symm, e, rfl⟩
    · exact hcall

theorem notes_observeRecv {resolved : Prop} :
    l.Notes (l.observeRecv k p slot msgPtr rc k') [] resolved := by
  have hsame : l.Notes l [] resolved := .of_eq rfl rfl rfl
  simp only [observeRecv]
  split
  · exact hsame
  · split
    · split
      · exact hsame.deliver (fun i hi => .inl ⟨_, hi⟩) _ _
      · exact hsame
    · exact hsame

theorem notes_observeReply {resolved : Prop} : l.Notes (l.observeReply k p rc k') [] resolved := by
  simp only [observeReply]
  split
  · split
    · exact .of_eq rfl rfl rfl
    · exact .of_eq rfl rfl rfl
  · exact .of_eq rfl rfl rfl

theorem notes_observeDispatch {resolved : Prop} :
    l.Notes (l.observeDispatch p k') [] resolved := by
  simp only [observeDispatch]
  split
  · refine ⟨(List.append_nil _).symm, fun i hi => .inl hi, fun q i hi => .inl ?_⟩
    change Function.update l.pending p none q = some i at hi
    by_cases hq : q = p
    · subst hq
      rw [Function.update_self] at hi
      cases hi
    · rwa [Function.update_of_ne hq] at hi
  · exact .of_eq rfl rfl rfl

end Notes

end Log

/-- A send or call that suspends its caller has an endpoint. -/
theorem Kernel.IpcEffect.resolved {k k' : Kernel} {p : Proc} {slot msgPtr : BitVec 32} {op : Op}
    (h : IpcEffect k p slot msgPtr op (none, k')) (hop : op = .send ∨ op = .call) :
    ∃ e, k.resolveEndpoint p slot capRightWrite = .ok e := by
  cases h with
  | called he => exact ⟨_, he⟩
  | queued _ he => exact ⟨_, he⟩
  | awaited => rcases hop with h | h <;> cases h

/-! ## The cap behind an endpoint, and its badge

`decodeMsg` takes the badge from the first eight bytes of the sender's buffer. The capability that
was checked has one of its own, and nothing compares the two. -/

theorem CapState.checkCap_ok {st : CapState} {a : Place} {kind : ObjectKind} {rights : BitVec 8}
    (h : st.checkCap a kind rights = .ok ()) :
    (st.capAt a).isEmpty = false ∧ (st.capAt a).kind = kind := by
  simp only [checkCap] at h
  split at h
  · cases h
  · rename_i hocc
    split at h
    · cases h
    · rename_i hkind
      exact ⟨Bool.eq_false_iff.mpr hocc, not_ne_iff.mp hkind⟩

theorem Kernel.resolveEndpoint_ok {k : Kernel} {p : Proc} {slot : BitVec 32} {rights : BitVec 8}
    {e : ℕ} (h : k.resolveEndpoint p slot rights = .ok e) :
    ∃ a, slotArg? slot = some a ∧ (k.caps.capAt (p, a)).isEmpty = false ∧
      (k.caps.capAt (p, a)).kind = .endpoint := by
  simp only [resolveEndpoint] at h
  split at h
  · cases h
  · rename_i a ha
    split at h
    · cases h
    · rename_i hcheck
      exact ⟨a, ha, CapState.checkCap_ok hcheck⟩

/-- The badge of a message is in its first eight bytes. -/
theorem badge_decodeMsg {memory : List (BitVec 8)} {ptr : ℕ} {b : BitVec 32}
    (h : Lib.ofLe ((memory.drop ptr).take 8) = b.toNat) :
    (decodeMsg ((memory.drop ptr).take msgBytes)).badge = b.setWidth 64 := by
  change leWord ((memory.drop ptr).take msgBytes) 0 = _
  rw [leWord, List.drop_zero, List.take_take, show min 8 msgBytes = 8 from rfl, h]
  refine BitVec.eq_of_toNat_eq ?_
  rw [BitVec.toNat_ofNat, BitVec.toNat_setWidth]

/-- Filling a slot touches no queue: the pools and the processes stay as they are. -/
theorem Kernel.queue_installCap (k : Kernel) (a : Place) (cap : Cap) :
    Kernel.queue { k with caps := k.caps.installCap a cap } = k.queue := by
  funext side e
  have hobject := k.caps.object?_installCap a cap .endpoint e
  rcases hep : k.endpoint? e with _ | ep
  · have hnone : k.caps.objectPools.object? .endpoint e = none :=
      congrArg (Option.map KernelObject.endpoint) hep
    rw [hnone, Option.map_none, ite_self] at hobject
    have hep' : Kernel.endpoint? { k with caps := k.caps.installCap a cap } e = none :=
      Option.map_eq_none_iff.mp hobject
    rw [queue, queue, hep, hep']
  · have hsome : k.caps.objectPools.object? .endpoint e = some (.endpoint ep) :=
      congrArg (Option.map KernelObject.endpoint) hep
    rw [hsome] at hobject
    rw [Kernel.queue_eq hep]
    split at hobject
    · obtain ⟨ep', hget, hsame⟩ := Option.map_eq_some_iff.mp hobject
      have hep' : Kernel.endpoint? { k with caps := k.caps.installCap a cap } e = some ep' := hget
      rw [Kernel.queue_eq hep']
      obtain rfl := KernelObject.endpoint.inj hsame
      cases side <;> rfl
    · obtain ⟨ep', hget, hsame⟩ := Option.map_eq_some_iff.mp hobject
      have hep' : Kernel.endpoint? { k with caps := k.caps.installCap a cap } e = some ep' := hget
      rw [Kernel.queue_eq hep']
      obtain rfl := KernelObject.endpoint.inj hsame
      rfl

namespace Traced

variable {s : Traced}

/-- The registry writes nothing down, so that what is kept stays kept where it stirred the
processes at most. -/
theorem Kept.stirred {k' : Kernel} (h : s.Kept) (hstir : ∀ q, s.kernel.Stirred k' q) :
    Kept ⟨k', s.log⟩ := by
  obtain ⟨hseat, hrend⟩ := Kernel.Stirred.seated hstir h.seated
  have hf : s.Follows ⟨k', s.log⟩ := h.follows_same hrend fun q i hi =>
    (h.suspends q i hi).moved h.seated (hstir q).moved
  exact hf.kept h hseat

/-- Filling a slot writes nothing down, so that what is kept of the log stays kept. -/
theorem Kept.installCap (h : s.Kept) (a : Place) (cap : Cap) :
    Kept ⟨{ s.kernel with caps := s.kernel.caps.installCap a cap }, s.log⟩ := by
  have hqueue := s.kernel.queue_installCap a cap
  have hrend : Kernel.rendezvous { s.kernel with caps := s.kernel.caps.installCap a cap } =
      s.kernel.rendezvous :=
    Lib.Rendezvous.ext (congrFun hqueue .senders) (congrFun hqueue .receivers) rfl
  have hseat : Kernel.Seated { s.kernel with caps := s.kernel.caps.installCap a cap } :=
    ⟨h.seated.running, h.seated.parked, h.seated.ring⟩
  have hf : s.Follows ⟨{ s.kernel with caps := s.kernel.caps.installCap a cap }, s.log⟩ :=
    h.follows_same hrend fun q i _ => ⟨rfl, rfl, rfl⟩
  exact hf.kept h hseat

end Traced

/-! ## What every step keeps

Along a run of honest senders the three tables agree: badges of capabilities, badges invoked, and
badges in messages. -/

namespace Badged

variable {s s' : Badged}

/-- What carries authenticity along a run of honest senders. It goes through the log: a delivery
names the call it came from, the call names the badge it invoked, and that is the badge in the
message. -/
structure Kept (s : Badged) : Prop where
  traced : s.traced.Kept
  tidy : Tidy s.kernel
  table : s.kernel.caps.ParentsInTable
  /-- a cap has the badge it was minted with -/
  badges : ∀ a, (s.kernel.caps.capAt a).kind = .endpoint →
    s.minted a = (s.kernel.caps.capAt a).badge
  /-- every call is accounted for -/
  length : s.invoked.length = s.traced.log.calls.length
  /-- a message has the badge its call invoked -/
  honest : ∀ (i : ℕ) (c : Call) (msg : MsgRegs) (b : BitVec 32),
    s.traced.log.calls[i]? = some c → c.msg = some msg → s.invoked[i]? = some (some b) →
      msg.badge = b.setWidth 64
  /-- what is delivered, or pending, invoked a cap -/
  resolved : ∀ i, (i ∈ s.traced.log.delivered ∨ ∃ p, s.traced.log.pending p = some i) →
    ∃ b, s.invoked[i]? = some (some b)

theorem Kept.authentic (h : s.Kept) : s.Authentic := by
  have hbadge : ∀ d ∈ s.traced.log.deliveries, ∃ i b msg, d.call = some i ∧
      s.invoked[i]? = some (some b) ∧ d.msg = some msg ∧ msg.badge = b.setWidth 64 := by
    intro d hd
    obtain ⟨i, c, msg, hi, hc, hcmsg, hmsg⟩ := h.traced.log.intact d hd
    have hdelivered : i ∈ s.traced.log.delivered := List.mem_filterMap.mpr ⟨d, hd, hi⟩
    obtain ⟨b, hb⟩ := h.resolved i (.inl hdelivered)
    exact ⟨i, b, msg, hi, hb, hmsg, h.honest i c msg b hc hcmsg hb⟩
  refine ⟨hbadge, fun d hd d' hd' i j hi hj hsame => ?_⟩
  obtain ⟨i', b, msg, hi', hb, hmsg, hword⟩ := hbadge d hd
  obtain ⟨j', b', msg', hj', hb', hmsg', hword'⟩ := hbadge d' hd'
  obtain rfl := Option.some.inj (hi.symm.trans hi')
  obtain rfl := Option.some.inj (hj.symm.trans hj')
  rw [hb, hb'] at hsame
  obtain rfl := Option.some.inj (Option.some.inj hsame)
  rw [hmsg, hmsg', Option.map_some, Option.map_some, hword, hword']

/-- What a step does to the log is matched by what it invokes: as many badges as calls, and each
call's message has the badge it invoked. -/
structure Accounts (s : Badged) (l : Log) (new : List Call)
    (invokes : List (Option (BitVec 32))) : Prop where
  notes : s.traced.log.Notes l new (∃ b, invokes = [some b])
  length : invokes.length = new.length
  honest : ∀ c ∈ new, ∀ msg b, c.msg = some msg → invokes = [some b] → msg.badge = b.setWidth 64

/-- A step that appends no call to the log is accounted for by no invocation. -/
theorem Accounts.of_notes {l : Log} (h : ∀ resolved, s.traced.log.Notes l [] resolved) :
    s.Accounts l [] [] :=
  ⟨h _, rfl, nofun⟩

/-- **A send or call of an honest sender** invokes the cap whose badge its message has. -/
theorem Kept.accounts_send (h : s.Kept) {k' : Kernel} {p : Proc} {op : Op}
    {slot msgPtr : BitVec 32} (hop : op = .send ∨ op = .call)
    (hhonest : s.Honest (.turn (.ipc p op slot msgPtr))) :
    s.Accounts (s.traced.log.observeSend s.kernel p op slot msgPtr
      (s.kernel.ipcImpl p op slot msgPtr).1 k')
      [⟨p, op, (s.kernel.readMsg p msgPtr).toOption⟩] [s.badgeOf p slot] := by
  have heffect := s.kernel.ipcImpl_effect p op slot msgPtr
  have hbadgeOf : ∀ e, s.kernel.resolveEndpoint p slot capRightWrite = .ok e →
      ∃ a, slotArg? slot = some a ∧ (s.kernel.caps.capAt (p, a)).kind = .endpoint ∧
        s.badgeOf p slot = some (s.minted (p, a)) := by
    intro e he
    obtain ⟨a, ha, -, hkind⟩ := Kernel.resolveEndpoint_ok he
    refine ⟨a, ha, hkind, ?_⟩
    rw [badgeOf, he, ha]
    rfl
  refine ⟨?_, rfl, fun c hc msg b hmsg hb => ?_⟩
  · have hresolved : (s.kernel.ipcImpl p op slot msgPtr).1 = none →
        ∃ e, s.kernel.resolveEndpoint p slot capRightWrite = .ok e := by
      intro hrc
      generalize s.kernel.ipcImpl p op slot msgPtr = out at heffect hrc
      obtain ⟨rc, k₁⟩ := out
      obtain rfl : rc = none := hrc
      exact heffect.resolved hop
    have hnotes := s.traced.log.notes_observeSend k' p op slot msgPtr hresolved
    refine ⟨hnotes.calls, fun i hi => ?_, fun q i hi => ?_⟩
    · refine (hnotes.delivered i hi).imp_right fun hrest => hrest.imp_right ?_
      rintro ⟨hi, e, he⟩
      obtain ⟨a, -, -, hb⟩ := hbadgeOf e he
      exact ⟨hi, _, by rw [hb]⟩
    · refine (hnotes.pending q i hi).imp_right ?_
      rintro ⟨hi, e, he⟩
      obtain ⟨a, -, -, hb⟩ := hbadgeOf e he
      exact ⟨hi, _, by rw [hb]⟩
  · obtain rfl := List.mem_singleton.mp hc
    have hb' : s.badgeOf p slot = some b := List.head_eq_of_cons_eq hb
    rcases he : s.kernel.resolveEndpoint p slot capRightWrite with rc | e
    · rw [badgeOf, he] at hb'
      cases hb'
    · obtain ⟨a, ha, hkind, hminted⟩ := hbadgeOf e he
      obtain rfl := Option.some.inj (hminted.symm.trans hb')
      rw [h.badges _ hkind]
      -- the message is decoded from the memory the sender is honest about
      simp only [Kernel.readMsg] at hmsg
      rcases hmemory : s.kernel.memoryOf p with _ | memory
      · rw [hmemory] at hmsg
        cases hmsg
      · rw [hmemory] at hmsg
        simp only [Lib.readAt] at hmsg
        split at hmsg
        · cases hmsg
        · rename_i buf hread
          split at hread
          · rename_i hroom
            obtain rfl := Option.some.inj hread
            obtain rfl := Option.some.inj hmsg
            exact badge_decodeMsg (hhonest hop a memory ha hkind hmemory hroom)
          · cases hread

/-- **A turn of honest senders**, as the log has it: each call that is new in it stands for one
badge invoked. -/
theorem Kept.accounts (h : s.Kept) {t : Turn} (k' : Kernel) (hhonest : s.Honest (.turn t)) :
    ∃ new, s.Accounts (s.traced.log.observe s.kernel t k') new (s.invokes t) := by
  have hsame : ∀ resolved, s.traced.log.Notes s.traced.log [] resolved :=
    fun _ => .of_eq rfl rfl rfl
  cases t with
  | dispatch p image => exact ⟨[], .of_notes fun _ => Log.notes_observeDispatch⟩
  | compute p memory => exact ⟨[], .of_notes hsame⟩
  | eventRead p lo hi ptr => exact ⟨[], .of_notes hsame⟩
  | finish p ending => exact ⟨[], .of_notes hsame⟩
  | ipc p op slot msgPtr =>
    cases op with
    | send => exact ⟨_, h.accounts_send (.inl rfl) hhonest⟩
    | call => exact ⟨_, h.accounts_send (.inr rfl) hhonest⟩
    | recv => exact ⟨[], .of_notes fun _ => Log.notes_observeRecv⟩
    | reply => exact ⟨[], .of_notes fun _ => Log.notes_observeReply⟩

/-- The badges after a step that takes no cap away. -/
theorem Kept.badges_grows (h : s.Kept) {k' : Kernel} (hgrows : s.kernel.Grows k') (a : Place)
    (ha : (k'.caps.capAt a).kind = .endpoint) :
    s.mintedAfter k' a = (k'.caps.capAt a).badge := by
  rw [mintedAfter]
  split
  · rfl
  · rename_i hocc
    have hkept := hgrows.caps a (Bool.eq_false_iff.mpr hocc)
    rw [hkept] at ha ⊢
    exact h.badges a ha

/-- **A turn of honest senders** keeps what is kept: each call it adds to the log carries the
badge that the sender's capability was minted with. -/
theorem Kept.turn (h : s.Kept) {t : Turn} (hstep : s.turn t = some s')
    (hhonest : s.Honest (.turn t)) : s'.Kept := by
  obtain ⟨traced, hturn, rfl⟩ := Option.map_eq_some_iff.mp hstep
  have htraced := (h.traced.turn hturn).1
  obtain ⟨k', hk', rfl⟩ := Option.map_eq_some_iff.mp hturn
  have hgrows := (Kernel.turn_brings hk').grows h.tidy h.table
  obtain ⟨new, hnotes, hlength, hnew⟩ := h.accounts k' hhonest
  have hfirst : ∀ {i : ℕ}, i < s.invoked.length →
      (s.invoked ++ s.invokes t)[i]? = s.invoked[i]? := fun hi => List.getElem?_append_left hi
  have hnow : ∀ {b}, s.invokes t = [some b] →
      (s.invoked ++ s.invokes t)[s.traced.log.calls.length]? = some (some b) := by
    intro b hb
    rw [← h.length, hb, List.getElem?_concat_length]
  refine ⟨htraced, hgrows.tidy, hgrows.table, h.badges_grows hgrows, ?_, ?_, fun i hi => ?_⟩
  · change (s.invoked ++ s.invokes t).length = _
    rw [hnotes.calls, List.length_append, List.length_append, h.length, hlength]
  · intro i c msg b hc hmsg hb
    change (s.invoked ++ s.invokes t)[i]? = some (some b) at hb
    change (s.traced.log.observe s.kernel t k').calls[i]? = some c at hc
    rw [hnotes.calls] at hc
    by_cases hi : i < s.traced.log.calls.length
    · rw [List.getElem?_append_left hi] at hc
      rw [hfirst (h.length ▸ hi)] at hb
      exact h.honest i c msg b hc hmsg hb
    · -- the one call of this step, and the one cap it invoked
      rw [List.getElem?_append_right (by omega)] at hc
      rw [List.getElem?_append_right (by rw [h.length]; omega)] at hb
      obtain ⟨hlt, -⟩ := List.getElem?_eq_some_iff.mp hb
      have hone : (s.invokes t).length ≤ 1 := s.length_invokes t
      obtain ⟨b', hb'⟩ := List.length_eq_one_iff.mp (by omega : (s.invokes t).length = 1)
      rw [hb'] at hb
      obtain ⟨hzero, hget⟩ := List.getElem?_eq_some_iff.mp hb
      refine hnew c (List.mem_of_getElem? hc) msg b hmsg ?_
      rw [hb']
      rw [List.length_singleton] at hzero
      simp only [List.getElem_singleton] at hget
      rw [hget]
  · rcases hi with hi | ⟨p, hi⟩
    · rcases hnotes.delivered i hi with hbefore | hbefore | ⟨rfl, b, hb⟩
      · obtain ⟨b, hb⟩ := h.resolved i (.inl hbefore)
        exact ⟨b, (hfirst (List.getElem?_eq_some_iff.mp hb).1).trans hb⟩
      · obtain ⟨b, hb⟩ := h.resolved i (.inr hbefore)
        exact ⟨b, (hfirst (List.getElem?_eq_some_iff.mp hb).1).trans hb⟩
      · exact ⟨b, hnow hb⟩
    · rcases hnotes.pending p i hi with hbefore | ⟨rfl, b, hb⟩
      · obtain ⟨b, hb⟩ := h.resolved i (.inr ⟨p, hbefore⟩)
        exact ⟨b, (hfirst (List.getElem?_eq_some_iff.mp hb).1).trans hb⟩
      · exact ⟨b, hnow hb⟩

/-- The registry derives nothing from a capability and delivers nothing, so that it keeps what is
kept. -/
theorem Kept.registered (h : s.Kept) {k' : Kernel} (hstir : ∀ q, s.kernel.Stirred k' q)
    (hbrings : s.kernel.MildBrings k') : (s.registered k').Kept := by
  have hgrows := hbrings.grows h.tidy h.table
  exact ⟨h.traced.stirred hstir, hgrows.tidy, hgrows.table, h.badges_grows hgrows, h.length,
    h.honest, h.resolved⟩

/-- **A derivation** puts the badge on record that the new cap has. -/
theorem Kept.derived (h : s.Kept) {procId : BitVec 8} (srcSlot : BitVec 32)
    {targetSlot badge : BitVec 32} {r : ℤ} {st : CapState} {c : CapCall}
    (heffect : CapEffect s.kernel.caps c r st)
    (hcases : (r < 0 ∧ st = s.kernel.caps) ∨ r = 0 ∧ ∃ p u t child, procId = procByte p ∧
      slotArg? srcSlot = some u ∧ slotArg? targetSlot = some t ∧
      Derives s.kernel.caps p u t child ∧ (child.kind = .endpoint → child.badge = badge) ∧
      st = s.kernel.caps.installCap (p, t) child) :
    (s.derived procId targetSlot badge (r, st)).Kept := by
  have htidy := heffect.tidy h.tidy
  have htable := heffect.parentsInTable h.table
  rcases hcases with ⟨hr, rfl⟩ | ⟨rfl, p, u, t, child, rfl, -, ht, hd, hbadge, rfl⟩
  · have hminted : (s.derived procId targetSlot badge (r, s.kernel.caps)).minted = s.minted := by
      simp only [Badged.derived]
      split
      · exact if_neg (by omega)
      · rfl
    refine ⟨h.traced, htidy, htable, fun a ha => ?_, h.length, h.honest, h.resolved⟩
    rw [hminted]
    exact h.badges a ha
  · refine ⟨h.traced.installCap _ _, htidy, htable, fun a ha => ?_, h.length, h.honest, h.resolved⟩
    have hminted : (s.derived (procByte p) targetSlot badge
        (0, s.kernel.caps.installCap (p, t) child)).minted =
          Function.update s.minted (p, t) badge := by
      simp only [Badged.derived, procIndex?_procByte, ht, if_true]
    change ((s.kernel.caps.installCap (p, t) child).capAt a).kind = .endpoint at ha
    change _ = ((s.kernel.caps.installCap (p, t) child).capAt a).badge
    rw [hminted]
    rw [CapState.capAt_installCap] at ha ⊢
    by_cases hat : a = (p, t)
    · subst hat
      rw [if_pos rfl] at ha ⊢
      rw [Function.update_self, hbadge ha]
    · rw [if_neg hat] at ha ⊢
      rw [Function.update_of_ne hat]
      exact h.badges a ha

/-- **A step of honest senders** keeps what carries authenticity, be it a turn, a derivation or a
call of the registry. -/
theorem Kept.step {ed25519 : Ed25519} {c : BadgeCall} (h : s.Kept)
    (hstep : s.step ed25519 c = some s') (hhonest : s.Honest c) : s'.Kept := by
  cases c with
  | turn t => exact h.turn hstep hhonest
  | stage bytes =>
    obtain rfl := Option.some.inj hstep
    exact h.registered (s.kernel.stage_stirred bytes) (s.kernel.quiet_stage bytes).mild.brings
  | spawn slot requested restartBudget =>
    obtain rfl := Option.some.inj hstep
    have hbrings := s.kernel.spawnInner_brings ed25519 slot requested restartBudget
    exact h.registered (s.kernel.spawnInner_stirred ed25519 slot requested restartBudget)
      ((Kernel.Mild.refl s.kernel).then_brings hbrings)
  | mint procId parentSlot targetSlot rights badge =>
    simp only [Badged.step] at hstep
    split at hstep
    · obtain rfl := Option.some.inj hstep
      generalize hout : capMintImpl s.kernel.caps procId parentSlot targetSlot rights badge = out
      obtain ⟨r, st⟩ := out
      refine h.derived parentSlot (capMintImpl_effect hout) ?_
      refine (capMintImpl_cases hout).imp_right ?_
      rintro ⟨hr, p, u, t, child, hp, hu, ht, hd, -, -, hbadge, hst⟩
      exact ⟨hr, p, u, t, child, hp, hu, ht, hd, hbadge, hst⟩
    · cases hstep
  | copy procId srcSlot targetSlot =>
    simp only [Badged.step] at hstep
    split at hstep
    · obtain rfl := Option.some.inj hstep
      generalize hout : capCopyImpl s.kernel.caps procId srcSlot targetSlot = out
      obtain ⟨r, st⟩ := out
      refine h.derived srcSlot (capCopyImpl_effect hout) ?_
      refine (capCopyImpl_cases hout).imp_right ?_
      rintro ⟨hr, p, u, t, child, rfl, hu, ht, hd, -, -, hbadge, hst⟩
      refine ⟨hr, p, u, t, child, rfl, hu, ht, hd, fun hkind => ?_, hst⟩
      -- a copy keeps the badge of its source, which is the one that was minted
      have hminted : s.mintedAt (procByte p) srcSlot = s.minted (p, u) := by
        simp only [mintedAt, procIndex?_procByte, hu]
      rw [hminted, h.badges (p, u) (hd.kind ▸ hkind)]
      exact hbadge
    · cases hstep

/-- Boot's caps have the badges they were installed with. -/
theorem kept_boot (board : Board) : (boot board).Kept where
  traced := (Traced.kept_start ⟨.booted board, Kernel.booted_idle board⟩).1
  tidy := tidy_booted board
  table := parentsInTable_bootState board
  badges _ _ := rfl
  length := rfl
  honest _ _ _ _ hc := by cases hc
  resolved i hi := by
    rcases hi with hi | ⟨p, hi⟩
    · cases hi
    · cases hi

end Badged

/-- **Badges are authentic along a run** in which every sender puts the badge of its cap into
its message. -/
theorem authentic_along (ed25519 : Ed25519) (board : Board) (calls : List BadgeCall)
    (hhonest : (badgeMachine ed25519 board).Meets Badged.Honest (.boot board) calls) :
    (badgeMachine ed25519 board).Along (fun s _ s' => s.Authentic ∧ s'.Authentic) (.boot board)
      calls := by
  refine Machine.along_of_meets (I := Badged.Kept) ?_ calls _ (Badged.kept_boot board) hhonest
  intro s c s' hs hstep hc
  have hs' := hs.step hstep hc
  exact ⟨⟨hs.authentic, hs'.authentic⟩, hs'⟩

/-! ## A forged badge

Boot's two tenants share the demo endpoint, and their capabilities have no badge. The same run is
made twice, with two memories. -/

/-- Process 2 receives on the demo endpoint, and process 3 is entered, with `memory`. -/
def enteringCalls (memory : List (BitVec 8)) : List BadgeCall :=
  [.turn (.dispatch 2 (some (some page))), .turn (.ipc 2 .recv 3#32 0#32),
    .turn (.dispatch 3 (some (some memory)))]

/-- Process 3 then sends there, from address 0. -/
def sendingCalls (memory : List (BitVec 8)) : List BadgeCall :=
  enteringCalls memory ++ [.turn (.ipc 3 .send 3#32 0#32)]

namespace Badged

/-- Process 2 waits to receive on the demo endpoint. -/
def awaiting : Kernel :=
  (((Kernel.booted .qemu).entered 2).ipcImpl 2 .recv 3#32 0#32).2.setInstance 2 ⟨some page, true, 0⟩

/-- Process 2 waits for a message, and process 3 runs with this memory, about to send. -/
def sending (memory : List (BitVec 8)) : Kernel :=
  (awaiting.setState 3 .running).setInstance 3 ⟨some memory, false, 0⟩

/-- The message that process 3 has in its memory is handed to process 2, straight from the queue
of receivers. -/
def handed (memory : List (BitVec 8)) : Kernel :=
  let msg := decodeMsg ((memory.drop 0).take msgBytes)
  (((sending memory).setMsgRegs 3 msg).pop .receivers 2).2.deliverAndWake 2 (some msg) 0

theorem resolveEndpoint_sending (memory : List (BitVec 8)) :
    (sending memory).resolveEndpoint 3 3#32 capRightWrite = .ok 2 := by
  have hcaps : (sending memory).caps = awaiting.caps := rfl
  have he : awaiting.resolveEndpoint 3 3#32 capRightWrite = .ok 2 := rfl
  rwa [Kernel.resolveEndpoint, ← hcaps] at he

theorem run_entering (memory : List (BitVec 8)) :
    ∃ s, (badgeMachine emptyVerifier .qemu).Run (.boot .qemu) (enteringCalls memory) s ∧
      s.traced = ⟨sending memory, .empty⟩ ∧ s.invoked = [] ∧ s.minted (3, 3) = 0#32 :=
  ⟨_, .cons rfl (.cons rfl (.cons rfl (.nil _))), rfl, rfl, rfl⟩

theorem ipcImpl_sending {memory : List (BitVec 8)} (hroom : msgBytes ≤ memory.length) :
    (sending memory).ipcImpl 3 .send 3#32 0#32 = (some 0, handed memory) := by
  have hmsg : (sending memory).readMsg 3 0#32 =
      .ok (decodeMsg ((memory.drop (0#32).toNat).take msgBytes)) :=
    Kernel.readMsg_of_room rfl (by simpa using hroom)
  exact Kernel.doSendLike_of_receiver (resolveEndpoint_sending memory) hmsg rfl

/-- What is delivered to process 2, and the badge of the cap it was sent on. -/
theorem turn_sending {memory : List (BitVec 8)} (hroom : msgBytes ≤ memory.length) {s : Badged}
    (hs : s.traced = ⟨sending memory, .empty⟩) (hinvoked : s.invoked = [])
    (hminted : s.minted (3, 3) = 0#32) :
    ∃ s', s.turn (.ipc 3 .send 3#32 0#32) = some s' ∧ s'.invoked = [some 0#32] ∧
      s'.traced.log.deliveries =
        [⟨some 0, 2, some (decodeMsg ((memory.drop 0).take msgBytes))⟩] := by
  have hrun : (sending memory).stateAt 3 = some .running := rfl
  have hturn : (sending memory).turn (.ipc 3 .send 3#32 0#32) = some (handed memory) := by
    rw [Kernel.turn, if_pos hrun, ipcImpl_sending hroom]
    rfl
  have htraced : s.traced.turn (.ipc 3 .send 3#32 0#32) =
      some ⟨handed memory, Log.empty.observe (sending memory) (.ipc 3 .send 3#32 0#32)
        (handed memory)⟩ := by
    rw [hs, Traced.turn, hturn]
    rfl
  refine ⟨_, congrArg (Option.map _) htraced, ?_, ?_⟩
  · change s.invoked ++ [s.badgeOf 3 3#32] = _
    rw [hinvoked, badgeOf, kernel, hs, resolveEndpoint_sending]
    change [some (s.minted (3, 3))] = _
    rw [hminted]
  · change (Log.empty.observeSend (sending memory) 3 .send 3#32 0#32
      ((sending memory).ipcImpl 3 .send 3#32 0#32).1 (handed memory)).deliveries = _
    rw [ipcImpl_sending hroom, Log.observeSend, resolveEndpoint_sending]
    rfl

end Badged

/-- A page whose first byte is not zero. -/
def forgedPage : List (BitVec 8) := 7#8 :: List.replicate 65535 0#8

theorem room_forgedPage : msgBytes ≤ forgedPage.length := by
  rw [forgedPage, List.length_cons, List.length_replicate]
  decide

/-- **A badge is forged**: the cap of process 3 has no badge, and its message arrives with
badge 7. -/
theorem forged_badge : ¬ (badgeMachine emptyVerifier .qemu).Along
    (fun s _ s' => s.Authentic ∧ s'.Authentic) (.boot .qemu) (sendingCalls forgedPage) := by
  intro h
  obtain ⟨s, hrun, htraced, hinvoked, hminted⟩ := Badged.run_entering forgedPage
  obtain ⟨s', hstep, hinvoked', hdeliveries⟩ :=
    Badged.turn_sending room_forgedPage htraced hinvoked hminted
  obtain ⟨-, hauthentic⟩ := ((Machine.along_cons hstep).mp (Machine.along_append hrun h)).1
  have hmem := List.mem_singleton_self
    (⟨some 0, 2, some (decodeMsg ((forgedPage.drop 0).take msgBytes))⟩ : Delivery)
  rw [← hdeliveries] at hmem
  obtain ⟨i, b, msg, hi, hb, hmsg, hbadge⟩ := hauthentic.badge _ hmem
  obtain rfl := Option.some.inj hi
  obtain rfl := Option.some.inj hmsg
  rw [hinvoked'] at hb
  obtain rfl := Option.some.inj (Option.some.inj hb)
  have hforged : (decodeMsg ((forgedPage.drop 0).take msgBytes)).badge = 7#64 := rfl
  rw [hforged] at hbadge
  exact absurd hbadge (by decide)

/-- Sent from a page of zeros, the message has no badge either. -/
theorem authentic_sending : (badgeMachine emptyVerifier .qemu).Along
    (fun s _ s' => s.Authentic ∧ s'.Authentic) (.boot .qemu) (sendingCalls page) := by
  apply authentic_along
  refine (Machine.along_cons rfl).mpr ⟨trivial, ?_⟩
  refine (Machine.along_cons rfl).mpr ⟨nofun, ?_⟩
  refine (Machine.along_cons rfl).mpr ⟨trivial, ?_⟩
  intro t ht
  refine ⟨fun _ a memory ha _ hmemory _ => ?_, trivial⟩
  obtain rfl : 3 = a := Option.some.inj ha
  obtain rfl : page = memory := Option.some.inj hmemory
  rfl

end Wari
