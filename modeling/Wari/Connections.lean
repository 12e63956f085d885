import Wari.Sockets
import Wari.Freshness
import Wari.Lib.Pairing

/-!
# Which connection a Socket cap reaches

The kernel's socket pool and the driver's table agree as long as a socket is closed exactly
when its last cap goes. Two things come apart otherwise. A socket closed while another cap
for it remains leaves that cap with a handle the driver hands out again, to whoever creates
the next socket; one whose last cap is deleted or revoked stays open in the driver with
nobody to close it. `connections_iff` says that these are the only two ways.
-/

namespace Wari

open Lib (Machine bijOn_diff_iff)

/-! ## The system

The kernel and the driver side by side. The driver is the shipped one as far as its table of
sockets goes; whether the TCP stack has room, and what it says of a close, is up to it. -/

/-- A capability syscall; what the net driver replies is up to the driver. -/
inductive NetCall where
  | mint (procId : BitVec 8) (parentSlot targetSlot rights badge : BitVec 32)
  | copy (procId : BitVec 8) (srcSlot targetSlot : BitVec 32)
  | revoke (procId : BitVec 8) (slot : BitVec 32)
  | delete (procId : BitVec 8) (slot : BitVec 32)
  | socketCreate (procId : BitVec 8) (proto slotForCap : BitVec 32)
  | socketClose (procId : BitVec 8) (slot : BitVec 32)

/-- The call, with the replies of the driver as it stands. -/
def NetCall.capCall (net : Tier2Net) : NetCall → CapCall
  | .mint b parentSlot targetSlot rights badge => .mint b parentSlot targetSlot rights badge
  | .copy b srcSlot targetSlot => .copy b srcSlot targetSlot
  | .revoke b slot => .revoke b slot
  | .delete b slot => .delete b slot
  | .socketCreate b proto slotForCap => .socketCreate b proto slotForCap net.replies
  | .socketClose b slot => .socketClose b slot net.replies

/-- The capability system, the driver, and for each entry of the socket pool the number of
the driver's socket it was made for; the last is proof-only. -/
structure NetState where
  /-- the capability state -/
  caps : CapState
  /-- the driver -/
  net : Tier2Net
  /-- the driver's socket each pool entry was made for -/
  opened : ℕ → ℕ

/-- Make a call. Where it may create a socket, the handle that the driver hands out next is noted
for the entries that are free. -/
def netStep (s : NetState) : NetCall → Option NetState
  | .socketCreate b proto slotForCap =>
    let out := netSocketCreateOn s.net s.caps b proto slotForCap
    some ⟨out.2.1, out.2.2, fun i =>
      if (s.caps.objectPools.sockets.get i).isNone then s.net.next else s.opened i⟩
  | .socketClose b slot =>
    let out := netSocketCloseOn s.net s.caps b slot
    some ⟨out.2.1, out.2.2, s.opened⟩
  | c => (capStep s.caps (c.capCall s.net)).map fun out => ⟨out.2, s.net, s.opened⟩

/-- Boot's capabilities, and a driver that has no sockets yet. -/
def NetState.booted (board : Board) (sockets : Option Bool) : NetState :=
  ⟨bootState board, .idle sockets, fun _ => 0⟩

/-- The capability system and the net driver from boot. -/
def netMachine (board : Board) : Machine NetState NetCall where
  init s := ∃ sockets, s = .booted board sockets
  step := netStep

/-! ## What is promised

The kernel keeps a handle in each pool entry, a bare number. That it still means the socket the
entry was made for is what has to be shown. -/

/-- The handle that a pool entry records, which is the driver's own name for the socket. -/
def CapState.handleOf (st : CapState) (i : ℕ) : BitVec 32 :=
  ((st.objectPools.sockets.get i).map Socket.smoltcpHandle).getD 0

/-- The entries of the socket pool that are allocated. -/
def CapState.socketEntries (st : CapState) : Set ℕ :=
  {i | (st.objectPools.sockets.get i).isSome = true}

/-- The handles that the driver has in use, which are those of its open sockets. -/
def Tier2Net.handles (net : Tier2Net) : Set (BitVec 32) :=
  {h | (net.socketAt h).isSome = true}

/-- The recorded handles are those in use, one for each allocated entry; and a slot that resolves
to a handle resolves to the socket its pool entry was made for. The first part alone would allow
two entries to swap their sockets. -/
structure Connected (s : NetState) : Prop where
  paired : Set.BijOn s.caps.handleOf s.caps.socketEntries s.net.handles
  own : ∀ a h, resolveSocketHandle s.caps a = .ok h →
    s.net.socketAt h = some (s.opened (s.caps.capAt a).poolIndex)

/-- What is promised of each step: that entries and open sockets correspond after it. -/
def ConnectedStep (_ : NetState) (_ : NetCall) (s' : NetState) : Prop := Connected s'

/-! ## When it is kept

The kernel closes a socket with the driver at every `net_socket_close`, and frees its own entry
with the last capability. The condition is that the two coincide. -/

/-- The call is a `net_socket_close` of a cap of the pool entry. -/
def Closes (st : CapState) (c : NetCall) (i : ℕ) : Prop :=
  ∃ p slot s, c = .socketClose (procByte p) slot ∧ slotArg? slot = some s ∧
    (st.capAt (p, s)).kind = .socket ∧ (st.capAt (p, s)).poolIndex = i

/-- The call frees those entries of the socket pool that it closes, and no others. A close while a
copy is held closes without freeing, and a delete of the last capability frees without closing. -/
def ClosesLast (s : NetState) (c : NetCall) : Prop :=
  ∀ i, Closes s.caps c i ↔ Releases s.caps (c.capCall s.net) .socket i

/-! ## The two socket syscalls

Each of them does something to the capabilities, as any syscall, and something to the driver's
table. The two are told apart first. -/

section Syscalls

variable {net : Tier2Net} {st : CapState} {b : BitVec 8}

/-- **To the capability system** `net_socket_create` is the call with the driver's replies. -/
theorem netSocketCreateOn_caps (proto slotForCap : BitVec 32) :
    netSocketCreateImpl net.replies st b proto slotForCap =
      ((netSocketCreateOn net st b proto slotForCap).1,
        (netSocketCreateOn net st b proto slotForCap).2.1) := by
  rw [netSocketCreateImpl, netSocketCreateOn]
  rcases procIndex? b with _ | p
  · rfl
  rcases slotArg? slotForCap with _ | t
  · rfl
  simp only [Tier2Net.replies]
  split
  · rfl
  split
  · rfl
  split
  · rfl
  rcases net.socketCreate proto with ⟨_ | driverRet, net'⟩
  · rfl
  simp only
  split
  · rfl
  rcases st.objectPools.sockets.alloc
    (Socket.new (st.capAt (p, slotNet)).poolIndex driverRet) with _ | ⟨idx, sockets⟩ <;> rfl

/-- **To the capability system** `net_socket_close` is the call with the driver's reply. -/
theorem netSocketCloseOn_caps (slot : BitVec 32) :
    netSocketCloseImpl net.replies st b slot =
      ((netSocketCloseOn net st b slot).1, (netSocketCloseOn net st b slot).2.1) := by
  rw [netSocketCloseImpl, netSocketCloseOn]
  rcases procIndex? b with _ | p
  · rfl
  rcases slotArg? slot with _ | t
  · rfl
  simp only
  split
  · rfl
  rcases st.objectPools.sockets.get (st.capAt (p, t)).poolIndex with _ | sock
  · rfl
  have hreply : net.replies.socketClose sock.smoltcpHandle =
      (net.socketClose sock.smoltcpHandle).1 := rfl
  simp only [hreply]
  by_cases hzero : (net.socketClose sock.smoltcpHandle).1.getD (-1) ≠ 0#32
  · rw [if_pos hzero, if_pos hzero]
  · rw [if_neg hzero, if_neg hzero]

/-- A created socket: the driver opened it, and the next free pool entry is for it. -/
structure Created (net : Tier2Net) (st : CapState) (st' : CapState) (net' : Tier2Net) : Prop where
  entry : ∃ handle netIdx idx n, net.Opens handle net' ∧
    st.objectPools.sockets.get idx = none ∧
    ∀ i, st'.objectPools.sockets.get i =
      if i = idx then some { Socket.new netIdx handle with refcount := n }
      else st.objectPools.sockets.get i

/-- `net_socket_create` creates a socket, or leaves the capabilities and the handles in use as
they were. -/
theorem netSocketCreateOn_cases (proto slotForCap : BitVec 32) {r : ℤ} {st' : CapState}
    {net' : Tier2Net} (h : netSocketCreateOn net st b proto slotForCap = (r, st', net')) :
    Created net st st' net' ∨ (st' = st ∧ ∀ h, net'.socketAt h = net.socketAt h) := by
  have hsame : ∀ {r₁ : ℤ}, (r₁, st, net) = (r, st', net') →
      st' = st ∧ ∀ h, net'.socketAt h = net.socketAt h := by
    intro r₁ he
    obtain ⟨-, he⟩ := Prod.mk.inj he
    obtain ⟨rfl, rfl⟩ := Prod.mk.inj he
    exact ⟨rfl, fun _ => rfl⟩
  rw [netSocketCreateOn] at h
  split at h
  · exact .inr (hsame h)
  rename_i p _
  split at h
  · exact .inr (hsame h)
  rename_i t _
  simp only at h
  split at h
  · exact .inr (hsame h)
  split at h
  · exact .inr (hsame h)
  split at h
  · exact .inr (hsame h)
  rcases net.socketCreate_cases proto with ⟨handle, net₁, hcreate, hopens⟩ | ⟨reply, hcreate, hneg⟩
  · rw [hcreate] at h
    simp only [hopens.positive, Bool.false_eq_true, if_false] at h
    rcases halloc : st.objectPools.sockets.alloc
      (Socket.new (st.capAt (p, slotNet)).poolIndex handle) with _ | ⟨idx, sockets⟩
    · -- no pool entry is free: the driver's socket is closed again
      rw [halloc] at h
      obtain ⟨-, he⟩ := Prod.mk.inj h
      obtain ⟨rfl, rfl⟩ := Prod.mk.inj he
      refine .inr ⟨rfl, fun h => ?_⟩
      rw [Tier2Net.socketAt_socketClose, hopens.table]
      split
      · rename_i hh
        rw [hh, hopens.free]
      · rfl
    · rw [halloc] at h
      obtain ⟨-, he⟩ := Prod.mk.inj h
      obtain ⟨rfl, rfl⟩ := Prod.mk.inj he
      obtain ⟨-, hfree, hget⟩ := Pool.alloc_ok halloc
      refine .inl ⟨handle, (st.capAt (p, slotNet)).poolIndex, idx, 1, hopens, hfree, fun i => ?_⟩
      change (sockets.incRefcount idx).get i = _
      rw [Pool.get_incRefcount, hget, hget, if_pos rfl]
      split
      · rfl
      · rfl
  · rw [hcreate] at h
    rcases reply with _ | v
    · exact .inr (hsame h)
    · simp only [hneg v rfl, if_true] at h
      exact .inr (hsame h)

/-- The handles that a call closes: those of the allocated entries that it closes. -/
def closing (st : CapState) (c : NetCall) : Set (BitVec 32) :=
  st.handleOf '' {i | Closes st c i ∧ i ∈ st.socketEntries}

theorem mem_socketEntries {i : ℕ} :
    i ∈ st.socketEntries ↔ ∃ sock, st.objectPools.sockets.get i = some sock :=
  Option.isSome_iff_exists

theorem handleOf_eq {i : ℕ} {sock : Socket} (h : st.objectPools.sockets.get i = some sock) :
    st.handleOf i = sock.smoltcpHandle := by
  rw [CapState.handleOf, h]
  rfl

/-- A `net_socket_close` closes one socket, the one that the capability in its slot names. -/
theorem closes_iff {p : Proc} {slot : BitVec 32} {t : Slot} (ht : slotArg? slot = some t)
    (hkind : (st.capAt (p, t)).kind = .socket) (i : ℕ) :
    Closes st (.socketClose (procByte p) slot) i ↔ (st.capAt (p, t)).poolIndex = i := by
  constructor
  · rintro ⟨q, slot', u, hc, hu, -, hi⟩
    obtain ⟨hq, rfl⟩ := NetCall.socketClose.inj hc
    rw [procByte_inj hq, Option.some.inj (ht.symm.trans hu)]
    exact hi
  · intro hi
    exact ⟨p, slot, t, rfl, ht, hkind, hi⟩

theorem mem_closing_iff {p : Proc} {slot : BitVec 32} {t : Slot} {sock : Socket}
    (ht : slotArg? slot = some t) (hkind : (st.capAt (p, t)).kind = .socket)
    (hsock : st.objectPools.sockets.get (st.capAt (p, t)).poolIndex = some sock) (h : BitVec 32) :
    h ∈ closing st (.socketClose (procByte p) slot) ↔ h = sock.smoltcpHandle := by
  constructor
  · rintro ⟨i, ⟨hi, -⟩, rfl⟩
    rw [← (closes_iff ht hkind i).mp hi, handleOf_eq hsock]
  · rintro rfl
    exact ⟨_, ⟨(closes_iff ht hkind _).mpr rfl, mem_socketEntries.mpr ⟨sock, hsock⟩⟩,
      handleOf_eq hsock⟩

/-- **`net_socket_close` closes** the handle of the capability it removes, and no other, whatever
else names that socket. -/
theorem netSocketCloseOn_table (slot : BitVec 32) (h : BitVec 32) :
    (h ∈ closing st (.socketClose b slot) →
      (netSocketCloseOn net st b slot).2.2.socketAt h = none) ∧
    (h ∉ closing st (.socketClose b slot) →
      (netSocketCloseOn net st b slot).2.2.socketAt h = net.socketAt h) := by
  -- where the call is refused it closes nothing
  have hrefused : (∀ i, Closes st (.socketClose b slot) i → i ∉ st.socketEntries) →
      ∀ net' : Tier2Net, net' = net →
        (h ∈ closing st (.socketClose b slot) → net'.socketAt h = none) ∧
        (h ∉ closing st (.socketClose b slot) → net'.socketAt h = net.socketAt h) := by
    rintro hno net' rfl
    refine ⟨?_, fun _ => rfl⟩
    rintro ⟨i, ⟨hcloses, hi⟩, -⟩
    exact (hno i hcloses hi).elim
  rw [netSocketCloseOn]
  rcases hp : procIndex? b with _ | p
  · refine hrefused ?_ _ rfl
    rintro i ⟨q, slot', t, hc, -⟩
    rw [(NetCall.socketClose.inj hc).1, procIndex?_procByte] at hp
    cases hp
  obtain rfl := procByte_of_procIndex? hp
  rcases ht : slotArg? slot with _ | t
  · refine hrefused ?_ _ rfl
    rintro i ⟨q, slot', u, hc, hu, -⟩
    rw [(NetCall.socketClose.inj hc).2, hu] at ht
    cases ht
  simp only
  split
  · rename_i hcap
    refine hrefused ?_ _ rfl
    rintro i ⟨q, slot', u, hc, hu, hkind, -⟩
    obtain ⟨hq, rfl⟩ := NetCall.socketClose.inj hc
    rw [← procByte_inj hq, ← Option.some.inj (ht.symm.trans hu)] at hkind
    simp [Cap.isEmpty, hkind] at hcap
  · rename_i hcap
    have hkind := (occupied_of_kind hcap).2
    rcases hsock : st.objectPools.sockets.get (st.capAt (p, t)).poolIndex with _ | sock
    · refine hrefused (fun i hi => ?_) _ rfl
      rw [mem_socketEntries, ← (closes_iff ht hkind i).mp hi, hsock]
      rintro ⟨sock, hsome⟩
      cases hsome
    · have hclosing := mem_closing_iff ht hkind hsock
      have htable := net.socketAt_socketClose sock.smoltcpHandle h
      have hout : ∀ net' : Tier2Net, net' = (net.socketClose sock.smoltcpHandle).2 →
          (h ∈ closing st (.socketClose (procByte p) slot) → net'.socketAt h = none) ∧
          (h ∉ closing st (.socketClose (procByte p) slot) →
            net'.socketAt h = net.socketAt h) := by
        rintro net' rfl
        rw [hclosing, htable]
        exact ⟨fun hh => if_pos hh, fun hh => if_neg hh⟩
      simp only
      split
      · exact hout _ rfl
      · exact hout _ rfl

end Syscalls

/-! ## One step

Steps that create no socket can only close some. Those are all treated together, by what they
close and what they free. -/

/-- What holds as long as sockets are closed with their last cap: entries and handles are paired,
each entry is still for the socket it was made for, and the counts of sockets are right. -/
structure NetInv (s : NetState) : Prop where
  table : s.caps.ParentsInTable
  good : Good s.caps
  /-- a pool entry's handle is in use for the socket it was made for -/
  own : ∀ i sock, s.caps.objectPools.sockets.get i = some sock →
    s.net.socketAt sock.smoltcpHandle = some (s.opened i)
  paired : Set.BijOn s.caps.handleOf s.caps.socketEntries s.net.handles

/-- The handle a slot resolves to is its pool entry's. -/
theorem NetInv.connected {s : NetState} (h : NetInv s) : Connected s := by
  refine ⟨h.paired, fun a handle hres => ?_⟩
  rw [resolveSocketHandle] at hres
  split at hres
  · cases hres
  split at hres
  · cases hres
  split at hres
  · cases hres
  rename_i sock hsock
  rw [← Except.ok.inj hres]
  exact h.own _ sock hsock

/-- A step that is none of the two socket syscalls is up to the capability system. -/
theorem netStep_of_capStep {s s' : NetState} {c : NetCall}
    (hc : netStep s c = (capStep s.caps (c.capCall s.net)).map fun out =>
      ⟨out.2, s.net, s.opened⟩) (h : netStep s c = some s') :
    (∃ r, capStep s.caps (c.capCall s.net) = some (r, s'.caps)) ∧ s'.net = s.net ∧
      s'.opened = s.opened := by
  rw [hc] at h
  obtain ⟨⟨r, st⟩, hstep, rfl⟩ := Option.map_eq_some_iff.mp h
  exact ⟨⟨r, hstep⟩, rfl, rfl⟩

/-- To the capability system a step is a capability syscall. -/
theorem netStep_caps {s s' : NetState} {c : NetCall} (h : netStep s c = some s') :
    ∃ r, capStep s.caps (c.capCall s.net) = some (r, s'.caps) := by
  cases c with
  | socketCreate b proto slotForCap =>
    obtain rfl := Option.some.inj h
    exact ⟨_, congrArg some (netSocketCreateOn_caps proto slotForCap)⟩
  | socketClose b slot =>
    obtain rfl := Option.some.inj h
    exact ⟨_, congrArg some (netSocketCloseOn_caps slot)⟩
  | mint => exact (netStep_of_capStep rfl h).1
  | copy => exact (netStep_of_capStep rfl h).1
  | revoke => exact (netStep_of_capStep rfl h).1
  | delete => exact (netStep_of_capStep rfl h).1

/-- The call is a `net_socket_create`, the only one that opens a socket. -/
def NetCall.creates : NetCall → Bool
  | .socketCreate .. => true
  | _ => false

/-- A step that is none of the two socket syscalls closes no handle. -/
theorem netStep_quiet {s s' : NetState} {c : NetCall} (h : netStep s c = some s')
    (hc : netStep s c = (capStep s.caps (c.capCall s.net)).map fun out =>
      ⟨out.2, s.net, s.opened⟩) (hno : ∀ i, ¬ Closes s.caps c i) :
    s'.opened = s.opened ∧ ∀ h, (h ∈ closing s.caps c → s'.net.socketAt h = none) ∧
      (h ∉ closing s.caps c → s'.net.socketAt h = s.net.socketAt h) := by
  obtain ⟨-, hnet, hopened⟩ := netStep_of_capStep hc h
  refine ⟨hopened, fun h => ⟨?_, fun _ => by rw [hnet]⟩⟩
  rintro ⟨i, ⟨hi, -⟩, -⟩
  exact (hno i hi).elim

/-- A call that creates no socket closes the handles it closes and no others. -/
theorem netStep_table {s s' : NetState} {c : NetCall} (h : netStep s c = some s')
    (hc : c.creates = false) :
    s'.opened = s.opened ∧ ∀ h, (h ∈ closing s.caps c → s'.net.socketAt h = none) ∧
      (h ∉ closing s.caps c → s'.net.socketAt h = s.net.socketAt h) := by
  cases c with
  | socketCreate => cases hc
  | socketClose b slot =>
    obtain rfl := Option.some.inj h
    exact ⟨rfl, fun h => netSocketCloseOn_table slot h⟩
  | mint => exact netStep_quiet h rfl (by rintro i ⟨p, slot, t, he, -⟩; cases he)
  | copy => exact netStep_quiet h rfl (by rintro i ⟨p, slot, t, he, -⟩; cases he)
  | revoke => exact netStep_quiet h rfl (by rintro i ⟨p, slot, t, he, -⟩; cases he)
  | delete => exact netStep_quiet h rfl (by rintro i ⟨p, slot, t, he, -⟩; cases he)

/-- The handles in use are those that were and are not closed. -/
theorem netStep_handles {s s' : NetState} {c : NetCall} (h : netStep s c = some s')
    (hc : c.creates = false) : s'.net.handles = s.net.handles \ closing s.caps c := by
  ext handle
  obtain ⟨hclosed, hopen⟩ := (netStep_table h hc).2 handle
  change (s'.net.socketAt handle).isSome = true ↔
    (s.net.socketAt handle).isSome = true ∧ handle ∉ closing s.caps c
  constructor
  · intro hsome
    have hnot : handle ∉ closing s.caps c := by
      intro hmem
      rw [hclosed hmem] at hsome
      cases hsome
    rw [hopen hnot] at hsome
    exact ⟨hsome, hnot⟩
  · rintro ⟨hsome, hnot⟩
    rw [hopen hnot]
    exact hsome

/-- A call that creates no socket keeps the pool entries it does not free. -/
theorem netStep_entries {s s' : NetState} {c : NetCall} (hinv : NetInv s)
    (h : netStep s c = some s') (hc : c.creates = false) (i : ℕ) :
    (i ∈ s'.caps.socketEntries ↔
      i ∈ s.caps.socketEntries ∧ ¬ Releases s.caps (c.capCall s.net) .socket i) ∧
    (i ∈ s'.caps.socketEntries → s'.caps.handleOf i = s.caps.handleOf i) := by
  obtain ⟨r, hstep⟩ := netStep_caps h
  rw [mem_socketEntries, mem_socketEntries]
  rcases hold : s.caps.objectPools.sockets.get i with _ | sock
  · have hnone : ¬ ∃ sock, s'.caps.objectPools.sockets.get i = some sock := by
      rintro ⟨sock, hsock⟩
      obtain ⟨p, proto, slotForCap, driver, he, -⟩ := socket_born hstep hold hsock
      cases c with
      | socketCreate => cases hc
      | _ => cases he
    refine ⟨⟨fun hs => (hnone hs).elim, ?_⟩, fun hs => (hnone hs).elim⟩
    rintro ⟨⟨sock, hsome⟩, -⟩
    cases hsome
  · rcases socket_fate hinv.table hstep hold with ⟨hkept, n, hsock⟩ | ⟨hfreed, hnone⟩
    · exact ⟨⟨fun _ => ⟨⟨sock, rfl⟩, hkept⟩, fun _ => ⟨_, hsock⟩⟩, fun _ => by
        rw [handleOf_eq hsock, handleOf_eq hold]⟩
    · rw [hnone]
      have hno : ¬ ∃ sock : Socket, none = some sock := by
        rintro ⟨sock, hsome⟩
        cases hsome
      exact ⟨⟨fun hs => (hno hs).elim, fun hs => (hs.2 hfreed).elim⟩, fun hs => (hno hs).elim⟩

/-- An entry that a call releases was allocated before. -/
theorem releases_mem {st : CapState} {c : CapCall} {i : ℕ} (h : Releases st c .socket i) :
    i ∈ st.socketEntries := by
  obtain ⟨n, hn, -⟩ := h
  obtain ⟨obj, hobj, -⟩ := Option.map_eq_some_iff.mp hn
  obtain ⟨sock, hsock, -⟩ := Option.map_eq_some_iff.mp hobj
  exact mem_socketEntries.mpr ⟨sock, hsock⟩

/-- A closed entry was allocated: a cap names it. -/
theorem closes_mem {s : NetState} {c : NetCall} (hinv : NetInv s) {i : ℕ}
    (h : Closes s.caps c i) : i ∈ s.caps.socketEntries := by
  obtain ⟨p, slot, t, -, -, hkind, rfl⟩ := h
  have hlaw : RefLaw s.caps .socket := hinv.good .socket (by simp [refcountedKinds])
  obtain ⟨obj, hobj⟩ := hlaw.object_of_name hkind
  obtain ⟨sock, hsock, -⟩ := Option.map_eq_some_iff.mp hobj
  exact mem_socketEntries.mpr ⟨sock, hsock⟩

/-- **A call that creates no socket** keeps entries and handles paired exactly where it frees
what it closes. -/
theorem paired_iff {s s' : NetState} {c : NetCall} (hinv : NetInv s)
    (h : netStep s c = some s') (hc : c.creates = false) :
    Set.BijOn s'.caps.handleOf s'.caps.socketEntries s'.net.handles ↔ ClosesLast s c := by
  have hentries : s'.caps.socketEntries =
      s.caps.socketEntries \ {i | Releases s.caps (c.capCall s.net) .socket i} :=
    Set.ext fun i => (netStep_entries hinv h hc i).1
  have hhandle : Set.EqOn s'.caps.handleOf s.caps.handleOf s'.caps.socketEntries :=
    fun i hi => (netStep_entries hinv h hc i).2 hi
  have hclosed : {i | Closes s.caps c i ∧ i ∈ s.caps.socketEntries} = {i | Closes s.caps c i} :=
    Set.ext fun i => ⟨fun hi => hi.1, fun hi => ⟨hi, closes_mem hinv hi⟩⟩
  have hfreed : {i | Releases s.caps (c.capCall s.net) .socket i} ⊆ s.caps.socketEntries :=
    fun i hi => releases_mem hi
  have hnamed : {i | Closes s.caps c i} ⊆ s.caps.socketEntries := fun i hi => closes_mem hinv hi
  rw [hhandle.bijOn_iff, hentries, netStep_handles h hc, closing, hclosed,
    bijOn_diff_iff hinv.paired hfreed hnamed]
  exact Set.ext_iff

/-- Entries keep what they were made for where they are paired after the call. -/
theorem own_of_paired {s s' : NetState} {c : NetCall} (hinv : NetInv s)
    (h : netStep s c = some s') (hc : c.creates = false)
    (hpaired : Set.BijOn s'.caps.handleOf s'.caps.socketEntries s'.net.handles) (i : ℕ)
    {sock : Socket} (hsock : s'.caps.objectPools.sockets.get i = some sock) :
    s'.net.socketAt sock.smoltcpHandle = some (s'.opened i) := by
  obtain ⟨hopened, htable⟩ := netStep_table h hc
  have hi := mem_socketEntries.mpr ⟨sock, hsock⟩
  have hin := hpaired.mapsTo hi
  rw [netStep_handles h hc, handleOf_eq hsock] at hin
  have hold := ((netStep_entries hinv h hc i).1.mp hi).1
  have hsame := (netStep_entries hinv h hc i).2 hi
  obtain ⟨sock₀, hsock₀⟩ := mem_socketEntries.mp hold
  rw [handleOf_eq hsock, handleOf_eq hsock₀] at hsame
  rw [(htable _).2 hin.2, hsame, hopened]
  exact hinv.own i sock₀ hsock₀

/-- A call without effect on capabilities and sockets keeps the invariant. -/
theorem NetInv.unchanged {s s' : NetState} (hinv : NetInv s) (hcaps : s'.caps = s.caps)
    (hnet : ∀ h, s'.net.socketAt h = s.net.socketAt h)
    (hopened : ∀ i sock, s.caps.objectPools.sockets.get i = some sock →
      s'.opened i = s.opened i) : NetInv s' := by
  have hhandles : s'.net.handles = s.net.handles := by
    ext h
    rw [Tier2Net.handles, Set.mem_ofPred_eq, hnet]
    rfl
  refine ⟨by rw [hcaps]; exact hinv.table, by rw [hcaps]; exact hinv.good,
    fun i sock hsock => ?_, by rw [hcaps, hhandles]; exact hinv.paired⟩
  rw [hcaps] at hsock
  rw [hnet, hopened i sock hsock]
  exact hinv.own i sock hsock

/-- **Creating a socket** pairs a new entry with a new handle, as the driver hands out no handle
that is in use. -/
theorem Created.inv {s s' : NetState} (hinv : NetInv s)
    (h : Created s.net s.caps s'.caps s'.net) (htable : s'.caps.ParentsInTable)
    (hgood : Good s'.caps)
    (hopened : s'.opened = fun i =>
      if (s.caps.objectPools.sockets.get i).isNone then s.net.next else s.opened i) :
    NetInv s' := by
  obtain ⟨handle, netIdx, idx, n, hopens, hfree, hget⟩ := h
  refine ⟨htable, hgood, fun i sock hsock => ?_, ?_⟩
  · rw [hget] at hsock
    rw [hopens.table, hopened]
    by_cases hi : i = idx
    · rw [if_pos hi] at hsock
      obtain rfl := Option.some.inj hsock
      simp [hi, hfree, Socket.new]
    · rw [if_neg hi] at hsock
      have hold := hinv.own i sock hsock
      have hne : sock.smoltcpHandle ≠ handle := by
        intro he
        rw [he, hopens.free] at hold
        cases hold
      simp [hne, hsock, hold]
  · have hidx : s'.caps.handleOf idx = handle := by
      have hnew := hget idx
      rw [if_pos rfl] at hnew
      exact handleOf_eq hnew
    have hsame : Set.EqOn s.caps.handleOf s'.caps.handleOf s.caps.socketEntries := by
      intro i hi
      have hne : i ≠ idx := by
        rintro rfl
        obtain ⟨sock, hsock⟩ := mem_socketEntries.mp hi
        rw [hfree] at hsock
        cases hsock
      rw [CapState.handleOf, CapState.handleOf, hget, if_neg hne]
    have hentries : s'.caps.socketEntries = insert idx s.caps.socketEntries := by
      ext i
      rw [CapState.socketEntries, Set.mem_ofPred_eq, hget, Set.mem_insert_iff]
      by_cases hi : i = idx
      · simp [hi]
      · simp [hi, CapState.socketEntries]
    have hhandles : s'.net.handles = insert handle s.net.handles := by
      ext x
      rw [Tier2Net.handles, Set.mem_ofPred_eq, hopens.table, Set.mem_insert_iff]
      by_cases hx : x = handle
      · simp [hx]
      · simp [hx, Tier2Net.handles]
    rw [hentries, hhandles, ← hidx]
    refine (hinv.paired.congr hsame).insert ?_
    rw [hidx, Tier2Net.handles, Set.mem_ofPred_eq, hopens.free]
    exact Bool.false_ne_true

/-- The condition asks nothing of a call that creates a socket. -/
theorem closesLast_of_creates {s : NetState} {c : NetCall} (hc : c.creates = true) :
    ClosesLast s c := by
  cases c with
  | socketCreate b proto slotForCap =>
    intro i
    have hquiet : ¬ Releases s.caps (.socketCreate b proto slotForCap s.net.replies) .socket i :=
      not_releases_of_losing (losing_eq_zero fun x hx => hx.elim)
    refine ⟨?_, fun hrel => (hquiet hrel).elim⟩
    rintro ⟨p, slot, t, he, -⟩
    cases he
  | _ => cases hc

/-- **One step** keeps pool and driver connected exactly where it frees the entries it
closes. -/
theorem netInv_step {s s' : NetState} {c : NetCall} (hinv : NetInv s)
    (h : netStep s c = some s') :
    (ClosesLast s c → NetInv s') ∧ (Connected s' → ClosesLast s c) := by
  obtain ⟨r, hstep⟩ := netStep_caps h
  have htable := (capStep_effect hstep).parentsInTable hinv.table
  have hgood := (capStep_effect hstep).good hinv.good
  rcases hc : c.creates with _ | _
  · refine ⟨fun hlast => ?_, fun hconn => (paired_iff hinv h hc).mp hconn.paired⟩
    have hpaired := (paired_iff hinv h hc).mpr hlast
    exact ⟨htable, hgood, fun i _ hsock => own_of_paired hinv h hc hpaired i hsock, hpaired⟩
  · refine ⟨fun _ => ?_, fun _ => closesLast_of_creates hc⟩
    cases c with
    | socketCreate b proto slotForCap =>
      obtain rfl := Option.some.inj h
      have hout : netSocketCreateOn s.net s.caps b proto slotForCap = (_, _, _) := rfl
      rcases netSocketCreateOn_cases proto slotForCap hout with hcreated | ⟨hcaps, hnet⟩
      · exact hcreated.inv hinv htable hgood rfl
      · exact hinv.unchanged hcaps hnet fun i sock hsock => by simp [hsock]
    | _ => cases hc

theorem netInv_booted (board : Board) (sockets : Option Bool) :
    NetInv (.booted board sockets) := by
  have hnone : ∀ i, (bootState board).objectPools.sockets.get i = none := fun i => Pool.get_new i
  refine ⟨parentsInTable_bootState board, good_bootState board, fun i sock hsock => ?_, ?_⟩
  · rw [NetState.booted, hnone] at hsock
    cases hsock
  · have hentries : (bootState board).socketEntries = ∅ := by
      ext i
      simp [CapState.socketEntries, hnone]
    have hhandles : (Tier2Net.idle sockets).handles = ∅ := by
      ext h
      simp [Tier2Net.handles, Tier2Net.socketAt_idle]
    rw [NetState.booted, hentries, hhandles]
    exact Set.bijOn_empty _

/-! ## The exact condition

The steps put together along a run from boot. -/

/-- **Pool and driver, exactly.** In a run from boot the allocated socket pool entries are
always paired with the driver's handles, and no slot ever resolves to a handle that was
closed or given to another socket, if and only if every call frees those entries of the pool
that it closes with the driver, and no others: a socket is closed when a cap of it is the
last, and no socket's last cap is deleted or revoked. -/
theorem connections_iff (board : Board) (sockets : Option Bool) (calls : List NetCall) :
    (netMachine board).Along ConnectedStep (.booted board sockets) calls ↔
      (netMachine board).Meets ClosesLast (.booted board sockets) calls := by
  refine Machine.along_iff_meets (I := NetInv) ?_ ?_ calls _ (netInv_booted board sockets)
  · intro s c s' hinv hs hlast
    have hinv' := (netInv_step hinv hs).1 hlast
    exact ⟨hinv'.connected, hinv'⟩
  · intro s c s' hinv hs hconn
    exact (netInv_step hinv hs).2 hconn

/-! ## A cap that reaches another tenant's connection

The copy outlives the close, and the driver gives the number to the next socket. -/

/-- Process 2 creates a socket, copies its cap and closes it by the first; process 3 creates
one. -/
def reissuedCalls : List NetCall :=
  [.socketCreate 2#8 1#32 10#32, .copy 2#8 10#32 11#32, .socketClose 2#8 10#32,
    .socketCreate 3#8 1#32 10#32]

/-- **The copy reaches the other tenant's connection**: it resolves to a handle that the
driver gave to process 3's socket. -/
theorem handle_reissued :
    ¬ (netMachine .qemu).Along ConnectedStep (.booted .qemu (some true)) reissuedCalls := by
  intro hall
  have hlast := ((Machine.along_cons rfl).mp ((Machine.along_cons rfl).mp
    ((Machine.along_cons rfl).mp ((Machine.along_cons rfl).mp hall).2).2).2).1
  have hown := hlast.own (2, 11) 0#32 rfl
  cases hown

end Wari
