import Wari.Release

/-!
# The net driver's sockets

The driver keeps a table of four sockets of its own and hands its indices to the kernel as
handles, the lowest free one first. `socket_close` frees an index for the next socket, and
nothing in the driver says for which capability it was opened.

The two socket syscalls are written here over the state of that table. To the capability
system they are the calls of `Syscall`, with the replies the table gives
(`netSocketCreateOn_caps`, `netSocketCloseOn_caps`).
-/

namespace Wari

/-! ## The driver

Its table of sockets, and the functions the kernel calls. What the TCP stack behind them does is
up to it. -/

/-- `SOCKET_BACKING_LEN`. -/
abbrev socketBackingLen : ℕ := 4

/-- `SocketProto`, the protocols that a socket can have. -/
inductive SocketProto where
  | tcp
  | udp

/-- `SocketProto::from_raw`, with `none` for a number that stands for no protocol. -/
def SocketProto.fromRaw (v : BitVec 32) : Option SocketProto :=
  if v = 1#32 then some .tcp else if v = 2#32 then some .udp else none

/-- The statics of `nic_iface` that its sockets live in. -/
structure NicIface where
  /-- `SOCKETS` has been set up -/
  sockets : Bool
  /-- `SOCKET_HANDLE_FOR_BUF`; sockets are numbered in the order they were made -/
  socketHandleForBuf : Fin socketBackingLen → Option ℕ
  /-- `SOCKET_BOUND_PORT` -/
  socketBoundPort : Fin socketBackingLen → BitVec 16
  /-- the number of sockets made so far -/
  made : ℕ

namespace NicIface

/-- The layer without sockets, before or after `init`. -/
def new (sockets : Bool) : NicIface := ⟨sockets, fun _ => none, fun _ => 0#16, 0⟩

/-- `nic_iface::socket_create_tcp() -> Result<i32, i32>`: the first buffer that is free is taken.
-/
def socketCreateTcp (d : NicIface) : Except (BitVec 32) (BitVec 32) × NicIface :=
  if !d.sockets then (.error (-3), d)
  else
    match (List.finRange socketBackingLen).find? fun i => (d.socketHandleForBuf i).isNone with
    | none => (.error (-3), d)
    | some slot =>
      (.ok (BitVec.ofNat 32 slot.val),
        { d with
          socketHandleForBuf := Function.update d.socketHandleForBuf slot (some d.made)
          made := d.made + 1 })

/-- `driver_socket_create(proto) -> i32`: a handle, or a negative number. Only TCP is there. -/
def driverSocketCreate (d : NicIface) (proto : BitVec 32) : BitVec 32 × NicIface :=
  match SocketProto.fromRaw proto with
  | none => (-2, d)
  | some .tcp =>
    match d.socketCreateTcp with
    | (.ok handle, d) => (handle, d)
    | (.error _, d) => (-3, d)
  | some .udp => (-2, d)

/-- `nic_iface::socket_close(raw_handle) -> i32`: the buffer of the handle is free again. -/
def socketClose (d : NicIface) (rawHandle : BitVec 32) : BitVec 32 × NicIface :=
  if !d.sockets then (-3, d)
  else if hslot : rawHandle.toNat < socketBackingLen then
    match d.socketHandleForBuf ⟨rawHandle.toNat, hslot⟩ with
    | none => (-2, d)
    | some _ =>
      (0#32,
        { d with
          socketHandleForBuf := Function.update d.socketHandleForBuf ⟨rawHandle.toNat, hslot⟩ none
          socketBoundPort := Function.update d.socketBoundPort ⟨rawHandle.toNat, hslot⟩ 0#16 })
  else (-2, d)

end NicIface

/-! ## Handles in use

A handle is an index of the table, so the next socket may get a number that was in use before.
Sockets are therefore numbered as well, next to the table. -/

namespace NicIface

/-- The socket a handle is in use for. -/
def socketAt (d : NicIface) (handle : BitVec 32) : Option ℕ :=
  if hslot : handle.toNat < socketBackingLen then
    if d.sockets then d.socketHandleForBuf ⟨handle.toNat, hslot⟩ else none
  else none

theorem toNat_slot (slot : Fin socketBackingLen) : (BitVec.ofNat 32 slot.val).toNat = slot.val := by
  revert slot
  decide

theorem slt_slot (slot : Fin socketBackingLen) : (BitVec.ofNat 32 slot.val).slt 0#32 = false := by
  revert slot
  decide

theorem socketAt_slot {d : NicIface} (hup : d.sockets = true) (slot : Fin socketBackingLen) :
    d.socketAt (BitVec.ofNat 32 slot.val) = d.socketHandleForBuf slot := by
  have hslot := toNat_slot slot
  simp only [socketAt, hslot, dif_pos slot.isLt, hup, if_true]

/-- Another socket in one slot of the table. -/
theorem socketAt_update (d d' : NicIface) (slot : Fin socketBackingLen) (v : Option ℕ)
    (hup : d.sockets = true) (hup' : d'.sockets = true)
    (htable : d'.socketHandleForBuf = Function.update d.socketHandleForBuf slot v)
    (h : BitVec 32) : d'.socketAt h = if h = BitVec.ofNat 32 slot.val then v else d.socketAt h := by
  split
  · rename_i hh
    rw [hh, socketAt_slot hup' slot, htable, Function.update_self]
  · rename_i hh
    simp only [socketAt, hup, hup', if_true, htable]
    split
    · rename_i hlt
      have hne : (⟨h.toNat, hlt⟩ : Fin socketBackingLen) ≠ slot := by
        rintro rfl
        exact hh (BitVec.eq_of_toNat_eq (toNat_slot ⟨h.toNat, hlt⟩).symm)
      rw [Function.update_of_ne hne]
    · rfl

/-- **What `socket_create` does** to the table: it fills a free slot, or fails and changes
nothing. -/
theorem driverSocketCreate_cases (d : NicIface) (proto : BitVec 32) :
    (∃ (slot : Fin socketBackingLen) (d' : NicIface),
        d.driverSocketCreate proto = (BitVec.ofNat 32 slot.val, d') ∧
      d.socketAt (BitVec.ofNat 32 slot.val) = none ∧
      ∀ h, d'.socketAt h =
        if h = BitVec.ofNat 32 slot.val then some d.made else d.socketAt h) ∨
    (∃ v : BitVec 32, v.slt 0#32 = true ∧ d.driverSocketCreate proto = (v, d)) := by
  rw [driverSocketCreate]
  rcases SocketProto.fromRaw proto with _ | _ | _
  · exact .inr ⟨-2, rfl, rfl⟩
  · rw [socketCreateTcp]
    rcases hup : d.sockets with _ | _
    · exact .inr ⟨-3, rfl, rfl⟩
    · rcases hfind : (List.finRange socketBackingLen).find?
          (fun i => (d.socketHandleForBuf i).isNone) with _ | slot
      · exact .inr ⟨-3, rfl, rfl⟩
      · have hfree : d.socketHandleForBuf slot = none := by
          simpa using List.find?_some hfind
        refine .inl ⟨slot, _, rfl, (socketAt_slot hup slot).trans hfree, fun h => ?_⟩
        exact socketAt_update d _ slot (some d.made) hup rfl rfl h
  · exact .inr ⟨-2, rfl, rfl⟩

/-- **What `socket_close` does** to the table: the handle is not in use, and the others are
as they were. -/
theorem socketAt_socketClose (d : NicIface) (handle h : BitVec 32) :
    (d.socketClose handle).2.socketAt h = if h = handle then none else d.socketAt h := by
  -- a handle that is not in use stays so
  have hsame : d.socketAt handle = none →
      d.socketAt h = if h = handle then none else d.socketAt h := by
    intro hnone
    split
    · rename_i hh
      rw [hh, hnone]
    · rfl
  rw [socketClose]
  rcases hup : d.sockets with _ | _
  · exact hsame (by simp [socketAt, hup])
  · by_cases hlt : handle.toNat < socketBackingLen
    · rcases hsock : d.socketHandleForBuf ⟨handle.toNat, hlt⟩ with _ | n
      · simp only [Bool.not_true, Bool.false_eq_true, if_false, dif_pos hlt, hsock]
        exact hsame (by simp [socketAt, hlt, hsock])
      · simp only [Bool.not_true, Bool.false_eq_true, if_false, dif_pos hlt, hsock]
        have hslot : BitVec.ofNat 32 handle.toNat = handle := by
          rw [BitVec.ofNat_toNat, BitVec.setWidth_eq]
        have hupd := fun d' => socketAt_update d d' ⟨handle.toNat, hlt⟩ none hup
        rw [hslot] at hupd
        exact hupd _ rfl rfl h
    · simp only [Bool.not_true, Bool.false_eq_true, if_false, dif_neg hlt]
      exact hsame (by simp [socketAt, hlt])

end NicIface

/-- `TIER2_NET`: the driver once it is installed, and before that nothing. -/
structure Tier2Net where
  /-- its state -/
  iface : Option NicIface

namespace Tier2Net

/-- `tier2_net::socket_create(proto)`; `none` is `DriverError`, which is all that there is without
a driver. -/
def socketCreate (net : Tier2Net) (proto : BitVec 32) : Option (BitVec 32) × Tier2Net :=
  match net.iface with
  | none => (none, net)
  | some d => (some (d.driverSocketCreate proto).1, ⟨some (d.driverSocketCreate proto).2⟩)

/-- `tier2_net::socket_close(handle)`; `none` is `DriverError`, which is all that there is without
a driver. -/
def socketClose (net : Tier2Net) (handle : BitVec 32) : Option (BitVec 32) × Tier2Net :=
  match net.iface with
  | none => (none, net)
  | some d => (some (d.socketClose handle).1, ⟨some (d.socketClose handle).2⟩)

/-- What the driver replies, in the state that it is in. -/
def replies (net : Tier2Net) : NetDriver :=
  ⟨fun proto => (net.socketCreate proto).1, fun handle => (net.socketClose handle).1⟩

/-- The socket a handle is in use for. -/
def socketAt (net : Tier2Net) (handle : BitVec 32) : Option ℕ :=
  net.iface.bind fun d => d.socketAt handle

/-- The number that the next socket gets, which no socket had before. -/
def next (net : Tier2Net) : ℕ := (net.iface.map NicIface.made).getD 0

/-- The driver before any socket was made: not installed, or installed with its socket set
up or not. -/
def idle (sockets : Option Bool) : Tier2Net := ⟨sockets.map NicIface.new⟩

theorem socketAt_idle (sockets : Option Bool) (handle : BitVec 32) :
    (idle sockets).socketAt handle = none := by
  rcases sockets with _ | b
  · rfl
  · simp [idle, socketAt, NicIface.new, NicIface.socketAt]

/-- Opening a socket gives it a handle that is not in use, and the next number. -/
structure Opens (net : Tier2Net) (handle : BitVec 32) (net' : Tier2Net) : Prop where
  positive : handle.slt 0#32 = false
  free : net.socketAt handle = none
  table : ∀ h, net'.socketAt h = if h = handle then some net.next else net.socketAt h

theorem socketCreate_cases (net : Tier2Net) (proto : BitVec 32) :
    (∃ handle net', net.socketCreate proto = (some handle, net') ∧ net.Opens handle net') ∨
    (∃ reply, net.socketCreate proto = (reply, net) ∧ ∀ v, reply = some v → v.slt 0#32 = true) := by
  obtain ⟨iface⟩ := net
  rcases iface with _ | d
  · exact .inr ⟨none, rfl, fun v hv => by cases hv⟩
  · rcases d.driverSocketCreate_cases proto with ⟨slot, d', hd, hfree, htable⟩ | ⟨v, hv, hd⟩
    · refine .inl ⟨_, ⟨some d'⟩, ?_, NicIface.slt_slot slot, hfree, htable⟩
      simp only [socketCreate, hd]
    · refine .inr ⟨some v, by simp only [socketCreate, hd], fun w hw => ?_⟩
      rwa [← Option.some.inj hw]

theorem socketAt_socketClose (net : Tier2Net) (handle h : BitVec 32) :
    (net.socketClose handle).2.socketAt h = if h = handle then none else net.socketAt h := by
  obtain ⟨iface⟩ := net
  rcases iface with _ | d
  · exact (ite_self none).symm
  · exact d.socketAt_socketClose handle h

end Tier2Net

/-! ## The syscalls over the driver's state

The two syscalls with the driver they talk to, as one step. -/

/-- `wari::net_socket_create(proto, slot_for_cap) -> i32`, with the driver that it asks. -/
def netSocketCreateOn (net : Tier2Net) (st : CapState) (procId : BitVec 8)
    (proto slotForCap : BitVec 32) : ℤ × CapState × Tier2Net :=
  match procIndex? procId with
  | none => (eInval, st, net)
  | some p =>
    match slotArg? slotForCap with
    | none => (eInval, st, net)
    | some slotForCap =>
      let netCap := st.capAt (p, slotNet)
      if netCap.isEmpty || netCap.kind != .net then (ePerm, st, net)
      else if netCap.rights &&& capRightWrite = 0#8 then (ePerm, st, net)
      else if !(st.capAt (p, slotForCap)).isEmpty then (ePerm, st, net)
      else
        let parentId := CapId.ofPlace (p, slotNet) (st.genAt (p, slotNet))
        match net.socketCreate proto with
        | (none, net) => (eNomem, st, net)
        | (some driverRet, net) =>
          if driverRet.slt 0#32 then (driverRet.toInt, st, net)
          else
            match st.objectPools.sockets.alloc (Socket.new netCap.poolIndex driverRet) with
            -- roll back the driver's side
            | .error _ => (eNomem, st, (net.socketClose driverRet).2)
            | .ok (socketPoolIdx, sockets) =>
              let st := { st with objectPools := { st.objectPools with sockets := sockets } }
              let targetGen := st.genAt (p, slotForCap)
              (0, st.installCap (p, slotForCap) (socketCap parentId targetGen socketPoolIdx), net)

/-- `wari::net_socket_close(slot) -> i32`, with the driver that it asks. -/
def netSocketCloseOn (net : Tier2Net) (st : CapState) (procId : BitVec 8) (slot : BitVec 32) :
    ℤ × CapState × Tier2Net :=
  match procIndex? procId with
  | none => (eInval, st, net)
  | some p =>
    match slotArg? slot with
    | none => (eInval, st, net)
    | some slot =>
      let sockCap := st.capAt (p, slot)
      if sockCap.isEmpty || sockCap.kind != .socket then (ePerm, st, net)
      else
        match st.objectPools.sockets.get sockCap.poolIndex with
        | none => (eInval, st, net)
        | some sock =>
          -- the driver is told first, whatever else names the socket
          let (driverRet, net) := net.socketClose sock.smoltcpHandle
          let driverRet := driverRet.getD (-1)
          let st := st.removeCap (p, slot) wrappingSucc
          if driverRet ≠ 0#32 then (driverRet.toInt, st, net) else (0, st, net)

/-- `resolve_socket_handle(proc_id, slot) -> Result<u32, i32>`: the checks of every call on a
socket. -/
def resolveSocketHandle (st : CapState) (a : Place) : Except ℤ (BitVec 32) :=
  let cap := st.capAt a
  if cap.isEmpty || cap.kind != .socket then .error ePerm
  else if cap.rights &&& capRightWrite = 0#8 then .error ePerm
  else
    match st.objectPools.sockets.get cap.poolIndex with
    | none => .error eInval
    | some sock => .ok sock.smoltcpHandle

end Wari
