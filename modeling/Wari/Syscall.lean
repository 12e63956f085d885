import Wari.Revoke

/-!
# Capability syscalls

The six host functions that create and destroy capabilities. Each is a function
of the caller's process id and its `u32` arguments, and returns the `i32` the
caller sees; the replies of the net driver, which lives outside the kernel, are
part of the call. Only `cap_revoke` can fail to return, since only it indexes
arrays with bytes it read from a capability.

Everything later results need of the syscalls is `capStep_effect`: a call either
changes nothing, installs one derived cap in an empty slot, removes one cap, or
runs the cascade.
-/

namespace Wari

/-! ## Errno values

As the source numbers them. -/

/-- A capability check failed. -/
def ePerm : ℤ := -1
/-- An argument is malformed or out of bounds. -/
def eInval : ℤ := -2
/-- A pool is exhausted, or there is no memory to work on. -/
def eNomem : ℤ := -3
/-- The operation would block, and was not made. -/
def eAgain : ℤ := -4

/-! ## The syscalls

In the order of the source's checks, since an error is told by the first that fails. The network
driver is asked in the middle of two of them, and may answer anything. -/

/-- `wari::cap_mint(parent_slot, target_slot, rights, badge) -> i32`: a child with at most the
rights of its parent, and with the parent written down in it. -/
def capMintImpl (st : CapState) (procId : BitVec 8)
    (parentSlot targetSlot rights badge : BitVec 32) : ℤ × CapState :=
  match procIndex? procId with
  | none => (eInval, st)
  | some p =>
    match slotArg? parentSlot, slotArg? targetSlot with
    | some parentSlot, some targetSlot =>
      if 0xFF#32 < rights then (eInval, st)
      else if (st.capAt (p, parentSlot)).isEmpty then (eInval, st)
      else if !(st.capAt (p, targetSlot)).isEmpty then (eInval, st)
      else
        let parentId := CapId.ofPlace (p, parentSlot) (st.genAt (p, parentSlot))
        match (st.capAt (p, parentSlot)).derive parentId (rights.setWidth 8) badge with
        | .ok child =>
          let targetGen := st.genAt (p, targetSlot)
          (0, st.installCap (p, targetSlot) { child with generation := targetGen.setWidth 32 })
        | .error .permissionDenied => (ePerm, st)
        | .error _ => (eInval, st)
    | _, _ => (eInval, st)

/-- `wari::cap_copy(src_slot, target_slot) -> i32`: a second capability like the first, with the
same parent. -/
def capCopyImpl (st : CapState) (procId : BitVec 8) (srcSlot targetSlot : BitVec 32) :
    ℤ × CapState :=
  match procIndex? procId with
  | none => (eInval, st)
  | some p =>
    match slotArg? srcSlot, slotArg? targetSlot with
    | some srcSlot, some targetSlot =>
      if (st.capAt (p, srcSlot)).isEmpty then (eInval, st)
      else if !(st.capAt (p, targetSlot)).isEmpty then (eInval, st)
      else
        let targetGen := st.genAt (p, targetSlot)
        -- a sibling: the parent and the rights stay the source's
        (0, st.installCap (p, targetSlot)
          { st.capAt (p, srcSlot) with generation := targetGen.setWidth 32 })
    | _, _ => (eInval, st)

/-- `wari::cap_revoke(slot) -> i32`: the capability goes, with everything derived from it. `none`
is an index out of bounds in the set. -/
def capRevokeImpl (st : CapState) (procId : BitVec 8) (slot : BitVec 32) :
    Option (ℤ × CapState) :=
  match procIndex? procId with
  | none => some (eInval, st)
  | some p =>
    match slotArg? slot with
    | none => some (eInval, st)
    | some slot =>
      if (st.capAt (p, slot)).isEmpty then some (eInval, st)
      else if (st.capAt (p, slot)).rights &&& capRightWrite = 0#8 then some (ePerm, st)
      else
        match revoke st procId (slotByte slot) with
        | none => none
        | some (.ok (), st) => some (0, st)
        | some (.error _, st) => some (eInval, st)

/-- `wari::cap_delete(slot) -> i32`: the capability goes, and what is derived from it stays. -/
def capDeleteImpl (st : CapState) (procId : BitVec 8) (slot : BitVec 32) : ℤ × CapState :=
  match procIndex? procId with
  | none => (eInval, st)
  | some p =>
    match slotArg? slot with
    | none => (eInval, st)
    | some slot =>
      if (st.capAt (p, slot)).isEmpty then (eInval, st)
      else (0, st.removeCap (p, slot) saturatingSucc)

/-- The replies of the net driver, as it stands when a syscall is made; `none`
is a driver that trapped or is not installed. -/
structure NetDriver where
  /-- `socket_create(proto)` -/
  socketCreate : BitVec 32 → Option (BitVec 32)
  /-- `socket_close(handle)` -/
  socketClose : BitVec 32 → Option (BitVec 32)

/-- The Socket capability that `net_socket_create` mints, with the rights to read and to write. -/
def socketCap (parentId : CapId) (targetGen : BitVec 16) (socketPoolIdx : ℕ) : Cap where
  badge := 0#32
  parent := parentId
  generation := targetGen.setWidth 32
  poolIndex := socketPoolIdx
  kind := .socket
  rights := capRightRead ||| capRightWrite

/-- `wari::net_socket_create(proto, slot_for_cap) -> i32`: a socket of the driver's, an entry of
the pool, and a capability for it. -/
def netSocketCreateImpl (driver : NetDriver) (st : CapState) (procId : BitVec 8)
    (proto slotForCap : BitVec 32) : ℤ × CapState :=
  match procIndex? procId with
  | none => (eInval, st)
  | some p =>
    match slotArg? slotForCap with
    | none => (eInval, st)
    | some slotForCap =>
      let netCap := st.capAt (p, slotNet)
      if netCap.isEmpty || netCap.kind != .net then (ePerm, st)
      else if netCap.rights &&& capRightWrite = 0#8 then (ePerm, st)
      else if !(st.capAt (p, slotForCap)).isEmpty then (ePerm, st)
      else
        let parentId := CapId.ofPlace (p, slotNet) (st.genAt (p, slotNet))
        match driver.socketCreate proto with
        | none => (eNomem, st)
        | some driverRet =>
          if driverRet.slt 0#32 then (driverRet.toInt, st)
          else
            match st.objectPools.sockets.alloc (Socket.new netCap.poolIndex driverRet) with
            -- the driver's side is closed again; its reply is ignored
            | .error _ => (eNomem, st)
            | .ok (socketPoolIdx, sockets) =>
              let st := { st with objectPools := { st.objectPools with sockets := sockets } }
              let targetGen := st.genAt (p, slotForCap)
              (0, st.installCap (p, slotForCap) (socketCap parentId targetGen socketPoolIdx))

/-- `wari::net_socket_close(slot) -> i32`: the driver closes its socket, and the capability in the
slot goes. -/
def netSocketCloseImpl (driver : NetDriver) (st : CapState) (procId : BitVec 8)
    (slot : BitVec 32) : ℤ × CapState :=
  match procIndex? procId with
  | none => (eInval, st)
  | some p =>
    match slotArg? slot with
    | none => (eInval, st)
    | some slot =>
      let sockCap := st.capAt (p, slot)
      if sockCap.isEmpty || sockCap.kind != .socket then (ePerm, st)
      else
        match st.objectPools.sockets.get sockCap.poolIndex with
        | none => (eInval, st)
        | some sock =>
          let driverRet := (driver.socketClose sock.smoltcpHandle).getD (-1)
          let st := st.removeCap (p, slot) wrappingSucc
          if driverRet ≠ 0#32 then (driverRet.toInt, st) else (0, st)

/-! ## Calls

One call as data, so that sequences of calls can be spoken of. -/

/-- A capability syscall: the caller's process id, its arguments, and the net
driver as it stands. -/
inductive CapCall where
  | mint (procId : BitVec 8) (parentSlot targetSlot rights badge : BitVec 32)
  | copy (procId : BitVec 8) (srcSlot targetSlot : BitVec 32)
  | revoke (procId : BitVec 8) (slot : BitVec 32)
  | delete (procId : BitVec 8) (slot : BitVec 32)
  | socketCreate (procId : BitVec 8) (proto slotForCap : BitVec 32) (driver : NetDriver)
  | socketClose (procId : BitVec 8) (slot : BitVec 32) (driver : NetDriver)

/-- The process that makes the call. -/
def CapCall.procId : CapCall → BitVec 8
  | .mint p .. | .copy p .. | .revoke p .. | .delete p .. | .socketCreate p .. |
    .socketClose p .. => p

/-- Make a call: what it returns, and the state after it. -/
def capStep (st : CapState) : CapCall → Option (ℤ × CapState)
  | .mint p parentSlot targetSlot rights badge =>
    some (capMintImpl st p parentSlot targetSlot rights badge)
  | .copy p srcSlot targetSlot => some (capCopyImpl st p srcSlot targetSlot)
  | .revoke p slot => capRevokeImpl st p slot
  | .delete p slot => some (capDeleteImpl st p slot)
  | .socketCreate p proto slotForCap driver =>
    some (netSocketCreateImpl driver st p proto slotForCap)
  | .socketClose p slot driver => some (netSocketCloseImpl driver st p slot)

/-! ## What a call can do

The inversion of all six. Later proofs take the cases of `CapEffect` and never look at the
syscalls again. -/

/-- The state with other sockets in the pools, after one was allocated. -/
def CapState.withSockets (st : CapState) (sockets : Pool Socket 256) : CapState :=
  { st with objectPools := { st.objectPools with sockets := sockets } }

/-- `child` names the object of the cap at `(p, s)`, and goes to the empty slot
`(p, t)`. -/
structure Derives (st : CapState) (p : Proc) (s t : Slot) (child : Cap) : Prop where
  src : (st.capAt (p, s)).isEmpty = false
  dst : (st.capAt (p, t)).isEmpty = true
  kind : child.kind = (st.capAt (p, s)).kind
  index : child.poolIndex = (st.capAt (p, s)).poolIndex

theorem Derives.src_ne_dst {st : CapState} {p : Proc} {s t : Slot} {child : Cap}
    (h : Derives st p s t child) : (p, s) ≠ (p, t) := by
  intro he
  have hsrc := h.src
  rw [he, h.dst] at hsrc
  cases hsrc

/-- What a call can do to the state: `CapEffect st c r st'` where `c`, made in `st`, can return
`r` and leave `st'`. A refusal changes nothing; otherwise the case of the syscall says which slot
is filled and with what, or which slots are emptied. -/
inductive CapEffect (st : CapState) : CapCall → ℤ → CapState → Prop where
  /-- refused: an error, and no change -/
  | refused {c : CapCall} {r : ℤ} (hr : r < 0) : CapEffect st c r st
  /-- a child of the cap at `(p, s)`, with at most its rights -/
  | minted {parentSlot targetSlot rights badge : BitVec 32} {p : Proc} {s t : Slot} {child : Cap}
      (hs : slotArg? parentSlot = some s) (ht : slotArg? targetSlot = some t)
      (hd : Derives st p s t child)
      (hparent : child.parent = CapId.ofPlace (p, s) (st.genAt (p, s)))
      (hrights : RightsLe child.rights (st.capAt (p, s)).rights) :
      CapEffect st (.mint (procByte p) parentSlot targetSlot rights badge) 0
        (st.installCap (p, t) child)
  /-- a sibling of the cap at `(p, s)`: its parent, its rights -/
  | copied {srcSlot targetSlot : BitVec 32} {p : Proc} {s t : Slot} {child : Cap}
      (hs : slotArg? srcSlot = some s) (ht : slotArg? targetSlot = some t)
      (hd : Derives st p s t child)
      (hparent : child.parent = (st.capAt (p, s)).parent)
      (hrights : child.rights = (st.capAt (p, s)).rights) :
      CapEffect st (.copy (procByte p) srcSlot targetSlot) 0 (st.installCap (p, t) child)
  /-- the cascade below `(p, s)` -/
  | revoked {slot : BitVec 32} {p : Proc} {s : Slot} {st' : CapState}
      (hs : slotArg? slot = some s) (hocc : (st.capAt (p, s)).isEmpty = false)
      (hwrite : (st.capAt (p, s)).rights &&& capRightWrite ≠ 0#8)
      (hrevoke : Wari.revoke st (procByte p) (slotByte s) = some (.ok (), st')) :
      CapEffect st (.revoke (procByte p) slot) 0 st'
  /-- the cap at `(p, s)` removed -/
  | deleted {slot : BitVec 32} {p : Proc} {s : Slot} (hs : slotArg? slot = some s)
      (hocc : (st.capAt (p, s)).isEmpty = false) :
      CapEffect st (.delete (procByte p) slot) 0 (st.removeCap (p, s) saturatingSucc)
  /-- a new socket under the Net cap of `p` -/
  | socketCreated {proto slotForCap : BitVec 32} {driver : NetDriver} {p : Proc} {t : Slot}
      {handle : BitVec 32} {idx : ℕ} {sockets : Pool Socket 256}
      (ht : slotArg? slotForCap = some t) (hnet : (st.capAt (p, slotNet)).kind = .net)
      (hwrite : (st.capAt (p, slotNet)).rights &&& capRightWrite ≠ 0#8)
      (hdst : (st.capAt (p, t)).isEmpty = true)
      (halloc : st.objectPools.sockets.alloc
        (Socket.new (st.capAt (p, slotNet)).poolIndex handle) = .ok (idx, sockets)) :
      CapEffect st (.socketCreate (procByte p) proto slotForCap driver) 0
        ((st.withSockets sockets).installCap (p, t)
          (socketCap (CapId.ofPlace (p, slotNet) (st.genAt (p, slotNet))) (st.genAt (p, t)) idx))
  /-- the Socket cap at `(p, s)` removed -/
  | socketClosed {slot : BitVec 32} {driver : NetDriver} {p : Proc} {s : Slot} {r : ℤ}
      {sock : Socket} (hs : slotArg? slot = some s)
      (hkind : (st.capAt (p, s)).kind = .socket)
      (hsock : st.objectPools.sockets.get (st.capAt (p, s)).poolIndex = some sock) :
      CapEffect st (.socketClose (procByte p) slot driver) r (st.removeCap (p, s) wrappingSucc)

/-- A byte that indexes the process table is the byte of its index. -/
theorem procByte_of_procIndex? {b : BitVec 8} {p : Proc} (h : procIndex? b = some p) :
    b = procByte p := by
  rw [procIndex?] at h
  split at h
  · obtain rfl := Option.some.inj h
    exact BitVec.eq_of_toNat_eq (by rw [toNat_procByte])
  · cases h

/-- What a failed `is_empty() || !matches!(kind, k)` says. -/
theorem occupied_of_kind {c : Cap} {k : ObjectKind} (h : ¬ (c.isEmpty || c.kind != k) = true) :
    c.isEmpty = false ∧ c.kind = k := by
  simpa using h

theorem eInval_neg : eInval < 0 := by decide
theorem ePerm_neg : ePerm < 0 := by decide
theorem eNomem_neg : eNomem < 0 := by decide

/-- A mint is refused without effect, or derives a cap of the same process, its badge as
asked for where it is an Endpoint. -/
theorem capMintImpl_cases {st st' : CapState} {b : BitVec 8}
    {parentSlot targetSlot rights badge : BitVec 32} {r : ℤ}
    (h : capMintImpl st b parentSlot targetSlot rights badge = (r, st')) :
    (r < 0 ∧ st' = st) ∨ r = 0 ∧ ∃ p s t child, b = procByte p ∧ slotArg? parentSlot = some s ∧
      slotArg? targetSlot = some t ∧ Derives st p s t child ∧
      child.parent = CapId.ofPlace (p, s) (st.genAt (p, s)) ∧
      RightsLe child.rights (st.capAt (p, s)).rights ∧
      (child.kind = .endpoint → child.badge = badge) ∧ st' = st.installCap (p, t) child := by
  rw [capMintImpl] at h
  split at h
  · obtain ⟨rfl, rfl⟩ := Prod.mk.inj h
    exact .inl ⟨eInval_neg, rfl⟩
  · rename_i p hp
    split at h
    · rename_i s t hs ht
      split at h
      · obtain ⟨rfl, rfl⟩ := Prod.mk.inj h
        exact .inl ⟨eInval_neg, rfl⟩
      · split at h
        · obtain ⟨rfl, rfl⟩ := Prod.mk.inj h
          exact .inl ⟨eInval_neg, rfl⟩
        · rename_i hsrc
          split at h
          · obtain ⟨rfl, rfl⟩ := Prod.mk.inj h
            exact .inl ⟨eInval_neg, rfl⟩
          · rename_i hdst
            simp only at h
            split at h
            · rename_i child hderive
              obtain ⟨rfl, rfl⟩ := Prod.mk.inj h
              obtain ⟨-, hparent, hkind, hindex, hr, hle⟩ := Cap.derive_ok hderive
              refine .inr ⟨rfl, p, s, t, { child with generation := (st.genAt (p, t)).setWidth 32 },
                procByte_of_procIndex? hp, hs, ht, ?_, hparent, hr ▸ hle, ?_, rfl⟩
              · exact ⟨by simpa using hsrc, by simpa using hdst, hkind, hindex⟩
              · intro hendpoint
                have hbadge : child.badge = badge := Cap.badge_of_derive hderive hendpoint
                exact hbadge
            · obtain ⟨rfl, rfl⟩ := Prod.mk.inj h
              exact .inl ⟨ePerm_neg, rfl⟩
            · obtain ⟨rfl, rfl⟩ := Prod.mk.inj h
              exact .inl ⟨eInval_neg, rfl⟩
    · obtain ⟨rfl, rfl⟩ := Prod.mk.inj h
      exact .inl ⟨eInval_neg, rfl⟩

theorem capMintImpl_effect {st st' : CapState} {b : BitVec 8}
    {parentSlot targetSlot rights badge : BitVec 32} {r : ℤ}
    (h : capMintImpl st b parentSlot targetSlot rights badge = (r, st')) :
    CapEffect st (.mint b parentSlot targetSlot rights badge) r st' := by
  rcases capMintImpl_cases h with ⟨hr, rfl⟩ |
    ⟨rfl, p, s, t, child, rfl, hs, ht, hd, hparent, hrights, -, rfl⟩
  · exact .refused hr
  · exact .minted hs ht hd hparent hrights

/-- A copy is refused without effect, or puts a sibling into a slot of the same process. -/
theorem capCopyImpl_cases {st st' : CapState} {b : BitVec 8} {srcSlot targetSlot : BitVec 32}
    {r : ℤ} (h : capCopyImpl st b srcSlot targetSlot = (r, st')) :
    (r < 0 ∧ st' = st) ∨ r = 0 ∧ ∃ p s t child, b = procByte p ∧ slotArg? srcSlot = some s ∧
      slotArg? targetSlot = some t ∧ Derives st p s t child ∧
      child.parent = (st.capAt (p, s)).parent ∧ child.rights = (st.capAt (p, s)).rights ∧
      child.badge = (st.capAt (p, s)).badge ∧ st' = st.installCap (p, t) child := by
  rw [capCopyImpl] at h
  split at h
  · obtain ⟨rfl, rfl⟩ := Prod.mk.inj h
    exact .inl ⟨eInval_neg, rfl⟩
  · rename_i p hp
    split at h
    · rename_i s t hs ht
      split at h
      · obtain ⟨rfl, rfl⟩ := Prod.mk.inj h
        exact .inl ⟨eInval_neg, rfl⟩
      · rename_i hsrc
        split at h
        · obtain ⟨rfl, rfl⟩ := Prod.mk.inj h
          exact .inl ⟨eInval_neg, rfl⟩
        · rename_i hdst
          obtain ⟨rfl, rfl⟩ := Prod.mk.inj h
          refine .inr ⟨rfl, p, s, t,
            { st.capAt (p, s) with generation := (st.genAt (p, t)).setWidth 32 },
            procByte_of_procIndex? hp, hs, ht, ?_, rfl, rfl, rfl, rfl⟩
          exact ⟨by simpa using hsrc, by simpa using hdst, rfl, rfl⟩
    · obtain ⟨rfl, rfl⟩ := Prod.mk.inj h
      exact .inl ⟨eInval_neg, rfl⟩

theorem capCopyImpl_effect {st st' : CapState} {b : BitVec 8} {srcSlot targetSlot : BitVec 32}
    {r : ℤ} (h : capCopyImpl st b srcSlot targetSlot = (r, st')) :
    CapEffect st (.copy b srcSlot targetSlot) r st' := by
  rcases capCopyImpl_cases h with ⟨hr, rfl⟩ |
    ⟨rfl, p, s, t, child, rfl, hs, ht, hd, hparent, hrights, -, rfl⟩
  · exact .refused hr
  · exact .copied hs ht hd hparent hrights

theorem capRevokeImpl_effect {st st' : CapState} {b : BitVec 8} {slot : BitVec 32} {r : ℤ}
    (h : capRevokeImpl st b slot = some (r, st')) : CapEffect st (.revoke b slot) r st' := by
  rw [capRevokeImpl] at h
  split at h
  · obtain ⟨rfl, rfl⟩ := Prod.mk.inj (Option.some.inj h)
    exact .refused eInval_neg
  · rename_i p hp
    obtain rfl := procByte_of_procIndex? hp
    split at h
    · obtain ⟨rfl, rfl⟩ := Prod.mk.inj (Option.some.inj h)
      exact .refused eInval_neg
    · rename_i s hs
      split at h
      · obtain ⟨rfl, rfl⟩ := Prod.mk.inj (Option.some.inj h)
        exact .refused eInval_neg
      · rename_i hocc
        split at h
        · obtain ⟨rfl, rfl⟩ := Prod.mk.inj (Option.some.inj h)
          exact .refused ePerm_neg
        · rename_i hwrite
          split at h
          · cases h
          · rename_i st₁ hrev
            obtain ⟨rfl, rfl⟩ := Prod.mk.inj (Option.some.inj h)
            exact .revoked hs (by simpa using hocc) hwrite hrev
          · -- the slot was seen to be occupied, so the cascade does not refuse it
            rename_i e st₁ hrev
            exact absurd hrev (revoke_not_error (by simpa using hocc))

theorem capDeleteImpl_effect {st st' : CapState} {b : BitVec 8} {slot : BitVec 32} {r : ℤ}
    (h : capDeleteImpl st b slot = (r, st')) : CapEffect st (.delete b slot) r st' := by
  rw [capDeleteImpl] at h
  split at h
  · obtain ⟨rfl, rfl⟩ := Prod.mk.inj h
    exact .refused eInval_neg
  · rename_i p hp
    obtain rfl := procByte_of_procIndex? hp
    split at h
    · obtain ⟨rfl, rfl⟩ := Prod.mk.inj h
      exact .refused eInval_neg
    · rename_i s hs
      split at h
      · obtain ⟨rfl, rfl⟩ := Prod.mk.inj h
        exact .refused eInval_neg
      · rename_i hocc
        obtain ⟨rfl, rfl⟩ := Prod.mk.inj h
        exact .deleted hs (by simpa using hocc)

theorem netSocketCreateImpl_effect {driver : NetDriver} {st st' : CapState} {b : BitVec 8}
    {proto slotForCap : BitVec 32} {r : ℤ}
    (h : netSocketCreateImpl driver st b proto slotForCap = (r, st')) :
    CapEffect st (.socketCreate b proto slotForCap driver) r st' := by
  rw [netSocketCreateImpl] at h
  split at h
  · obtain ⟨rfl, rfl⟩ := Prod.mk.inj h
    exact .refused eInval_neg
  · rename_i p hp
    obtain rfl := procByte_of_procIndex? hp
    split at h
    · obtain ⟨rfl, rfl⟩ := Prod.mk.inj h
      exact .refused eInval_neg
    · rename_i t ht
      simp only at h
      split at h
      · obtain ⟨rfl, rfl⟩ := Prod.mk.inj h
        exact .refused ePerm_neg
      · rename_i hnet
        split at h
        · obtain ⟨rfl, rfl⟩ := Prod.mk.inj h
          exact .refused ePerm_neg
        · rename_i hwrite
          split at h
          · obtain ⟨rfl, rfl⟩ := Prod.mk.inj h
            exact .refused ePerm_neg
          · rename_i hdst
            split at h
            · obtain ⟨rfl, rfl⟩ := Prod.mk.inj h
              exact .refused eNomem_neg
            · rename_i driverRet hreply
              split at h
              · rename_i hneg
                obtain ⟨rfl, rfl⟩ := Prod.mk.inj h
                exact .refused (by simpa [BitVec.slt] using hneg)
              · split at h
                · obtain ⟨rfl, rfl⟩ := Prod.mk.inj h
                  exact .refused eNomem_neg
                · rename_i idx sockets halloc
                  obtain ⟨rfl, rfl⟩ := Prod.mk.inj h
                  exact .socketCreated ht (occupied_of_kind hnet).2 hwrite (by simpa using hdst)
                    halloc

theorem netSocketCloseImpl_effect {driver : NetDriver} {st st' : CapState} {b : BitVec 8}
    {slot : BitVec 32} {r : ℤ} (h : netSocketCloseImpl driver st b slot = (r, st')) :
    CapEffect st (.socketClose b slot driver) r st' := by
  rw [netSocketCloseImpl] at h
  split at h
  · obtain ⟨rfl, rfl⟩ := Prod.mk.inj h
    exact .refused eInval_neg
  · rename_i p hp
    obtain rfl := procByte_of_procIndex? hp
    split at h
    · obtain ⟨rfl, rfl⟩ := Prod.mk.inj h
      exact .refused eInval_neg
    · rename_i s hs
      simp only at h
      split at h
      · obtain ⟨rfl, rfl⟩ := Prod.mk.inj h
        exact .refused ePerm_neg
      · rename_i hkind
        have hkind' : (st.capAt (p, s)).kind = .socket := (occupied_of_kind hkind).2
        split at h
        · obtain ⟨rfl, rfl⟩ := Prod.mk.inj h
          exact .refused eInval_neg
        · rename_i sock hsock
          split at h <;>
          · obtain ⟨-, rfl⟩ := Prod.mk.inj h
            exact .socketClosed hs hkind' hsock

/-- **What a call can do**: one case for each outcome, and every invariant of capabilities is
proved from these. -/
theorem capStep_effect {st st' : CapState} {c : CapCall} {r : ℤ}
    (h : capStep st c = some (r, st')) : CapEffect st c r st' := by
  cases c with
  | mint b ps ts rights badge => exact capMintImpl_effect (Option.some.inj h)
  | copy b ss ts => exact capCopyImpl_effect (Option.some.inj h)
  | revoke b s => exact capRevokeImpl_effect h
  | delete b s => exact capDeleteImpl_effect (Option.some.inj h)
  | socketCreate b proto s driver => exact netSocketCreateImpl_effect (Option.some.inj h)
  | socketClose b s driver => exact netSocketCloseImpl_effect (Option.some.inj h)

end Wari
