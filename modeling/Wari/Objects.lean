import Wari.Pool

/-!
# Kernel objects

The objects capabilities name, one pool for each kind, and the two reference
count primitives. A capability names an object by its kind and an index, so the
pools are read through `ObjectPools.object?`, one partial table from (kind,
index) to objects, and each primitive is characterised on that table: it touches
the entry it is given, and there only the count.
-/

namespace Wari

/-! ## The objects

As the source has them, with their count of capabilities. -/

/-- Reference to a process the scheduler is tracking. -/
abbrev TcbRef : Type := Proc

/-- A synchronous IPC rendezvous point, with a queue on either side. -/
structure Endpoint where
  /-- senders waiting to deliver a message -/
  senders : BoundedQueue TcbRef 8
  /-- receivers waiting for a message -/
  receivers : BoundedQueue TcbRef 8
  /-- number of caps currently pointing to this endpoint -/
  refcount : ℕ

/-- A fresh endpoint: the queues are empty, and no capability is counted. -/
def Endpoint.new : Endpoint := ⟨.new, .new, 0⟩

/-- An asynchronous binary signal, of which up to 32 may be pending in one word. -/
structure Notification where
  /-- bitmap of pending signals -/
  signals : BitVec 32
  /-- receiver currently waiting, if any -/
  waiter : Option TcbRef
  /-- number of caps currently pointing to this notification -/
  refcount : ℕ

/-- Fresh notification: no pending signals, no waiter, zero refcount. -/
def Notification.new : Notification := ⟨0#32, none, 0⟩

/-- A physical page of 4 KiB. -/
structure Frame where
  /-- physical address of the page -/
  pa : ℕ
  /-- number of caps currently pointing to this frame -/
  refcount : ℕ

/-- A pool of memory typed as untyped, from which other objects are retyped. -/
structure Untyped where
  /-- physical address of the start of the pool -/
  pa : ℕ
  /-- pool size in bits -/
  sizeBits : ℕ
  /-- bytes already retyped -/
  watermark : ℕ
  /-- number of caps currently pointing to this untyped -/
  refcount : ℕ

/-- A handle for a NIC, which names the hardware and has its address once it is up. -/
structure Net where
  /-- hardware target -/
  nicKind : BitVec 8
  /-- whether the driver has brought the NIC up -/
  initialized : Bool
  /-- MAC address read at bring-up -/
  mac : BitVec 48
  /-- number of sockets associated with this NIC -/
  socketCount : ℕ
  /-- number of caps currently pointing to this NIC -/
  refcount : ℕ

/-- NIC handle for `nicKind`, not yet initialized, zero refcount. -/
def Net.new (nicKind : BitVec 8) : Net := ⟨nicKind, false, 0#48, 0, 0⟩

/-- A tenant's TCP or UDP socket, by the NIC it lives on and the driver's handle for it. -/
structure Socket where
  /-- pool index of the `Net` this socket lives on -/
  netIdx : ℕ
  /-- opaque driver handle -/
  smoltcpHandle : BitVec 32
  /-- local address, zero while unbound -/
  localIp : BitVec 32
  /-- local port, zero while unbound -/
  localPort : BitVec 16
  /-- peer address, zero while not connected -/
  peerIp : BitVec 32
  /-- peer port, zero while not connected -/
  peerPort : BitVec 16
  /-- number of caps currently pointing to this socket -/
  refcount : ℕ

/-- Unbound socket on the NIC at `netIdx`, wrapping `smoltcpHandle`. -/
def Socket.new (netIdx : ℕ) (smoltcpHandle : BitVec 32) : Socket :=
  ⟨netIdx, smoltcpHandle, 0#32, 0#16, 0#32, 0#16, 0⟩

/-! ## Reference counts

Counting up stops at the largest `u16`, and counting down at zero, where the object goes. -/

/-- The largest `u16`, at which a count stops. -/
abbrev u16Max : ℕ := 65535

/-- An object that counts the caps naming it. Counting up and down is the same for all six kinds,
and is said once over this class. -/
class Counted (α : Type) where
  /-- the count -/
  refcount : α → ℕ
  /-- the object with another count -/
  withRefcount : α → ℕ → α

instance : Counted Endpoint := ⟨Endpoint.refcount, fun o n => { o with refcount := n }⟩
instance : Counted Notification := ⟨Notification.refcount, fun o n => { o with refcount := n }⟩
instance : Counted Frame := ⟨Frame.refcount, fun o n => { o with refcount := n }⟩
instance : Counted Untyped := ⟨Untyped.refcount, fun o n => { o with refcount := n }⟩
instance : Counted Net := ⟨Net.refcount, fun o n => { o with refcount := n }⟩
instance : Counted Socket := ⟨Socket.refcount, fun o n => { o with refcount := n }⟩

section Counted

variable {α : Type} [Counted α] {N : ℕ}

/-- `obj.refcount = obj.refcount.saturating_add(1)`: a count at its largest stays there. -/
def addRef (obj : α) : α :=
  Counted.withRefcount obj (min (Counted.refcount obj + 1) u16Max)

/-- `obj.refcount = obj.refcount.saturating_sub(1)`: a count of zero stays there. -/
def subRef (obj : α) : α :=
  Counted.withRefcount obj (Counted.refcount obj - 1)

/-- What taking one reference away leaves of an object: nothing at count zero. -/
def dropRef (obj : α) : Option α :=
  if Counted.refcount obj - 1 = 0 then none else some (subRef obj)

/-- One arm of `inc_refcount`: an index without an object is passed over. -/
def Pool.incRefcount (pool : Pool α N) (index : ℕ) : Pool α N := pool.modify index addRef

/-- One arm of `dec_refcount`: count down, and deallocate at zero. -/
def Pool.decRefcount (pool : Pool α N) (index : ℕ) : Pool α N :=
  match pool.get index with
  | none => pool
  | some obj =>
    let pool := pool.modify index subRef
    if Counted.refcount obj - 1 = 0 then (pool.dealloc index).2 else pool

theorem Pool.get_incRefcount (pool : Pool α N) (index j : ℕ) :
    (pool.incRefcount index).get j =
      if j = index then (pool.get index).map addRef else pool.get j :=
  pool.get_modify index addRef j

theorem Pool.get_decRefcount (pool : Pool α N) (index j : ℕ) :
    (pool.decRefcount index).get j =
      if j = index then (pool.get index).bind dropRef else pool.get j := by
  rw [Pool.decRefcount]
  rcases hget : pool.get index with _ | obj
  · by_cases hj : j = index
    · subst hj
      simp [hget]
    · simp [hj]
  · by_cases hzero : Counted.refcount obj - 1 = 0
    · simp only [hzero, if_true]
      rw [Pool.get_dealloc, Pool.get_modify, hget]
      by_cases hj : j = index <;> simp [hj, dropRef, hzero]
    · simp only [hzero, if_false]
      rw [Pool.get_modify, hget]
      by_cases hj : j = index <;> simp [hj, dropRef, hzero]

end Counted

/-! ## The pools

One pool a kind. The count of an object is changed by the kind and index that a capability names.
-/

/-- Global pools of all kernel object kinds, one per kind. -/
structure ObjectPools where
  /-- synchronous-IPC endpoints -/
  endpoints : Pool Endpoint 64
  /-- asynchronous notifications -/
  notifications : Pool Notification 64
  /-- mappable pages -/
  frames : Pool Frame 1024
  /-- retypable memory -/
  untypeds : Pool Untyped 16
  /-- NIC handles -/
  nets : Pool Net 4
  /-- per-tenant sockets -/
  sockets : Pool Socket 256

namespace ObjectPools

/-- Fresh pools, with every slot empty. -/
def new : ObjectPools := ⟨.new, .new, .new, .new, .new, .new⟩

/-- Decrement a kernel object's refcount, deallocating if zero. -/
def decRefcount (pools : ObjectPools) (kind : ObjectKind) (poolIndex : ℕ) : ObjectPools :=
  match kind with
  | .empty => pools
  | .eventLog => pools
  | .endpoint => { pools with endpoints := pools.endpoints.decRefcount poolIndex }
  | .notification => { pools with notifications := pools.notifications.decRefcount poolIndex }
  | .untyped => { pools with untypeds := pools.untypeds.decRefcount poolIndex }
  | .frame => { pools with frames := pools.frames.decRefcount poolIndex }
  | .net => { pools with nets := pools.nets.decRefcount poolIndex }
  | .socket => { pools with sockets := pools.sockets.decRefcount poolIndex }

/-- Increment the refcount of a kernel object. The kinds without a pool count nothing. -/
def incRefcount (pools : ObjectPools) (kind : ObjectKind) (poolIndex : ℕ) : ObjectPools :=
  match kind with
  | .empty => pools
  | .eventLog => pools
  | .endpoint => { pools with endpoints := pools.endpoints.incRefcount poolIndex }
  | .notification => { pools with notifications := pools.notifications.incRefcount poolIndex }
  | .untyped => { pools with untypeds := pools.untypeds.incRefcount poolIndex }
  | .frame => { pools with frames := pools.frames.incRefcount poolIndex }
  | .net => { pools with nets := pools.nets.incRefcount poolIndex }
  | .socket => { pools with sockets := pools.sockets.incRefcount poolIndex }

end ObjectPools

/-! ## One table of objects

All pools read as one table, so that a statement about counts need not be made six times. -/

/-- An object of any kind, to state once what holds of all pools. -/
inductive KernelObject where
  | endpoint (o : Endpoint)
  | notification (o : Notification)
  | untyped (o : Untyped)
  | frame (o : Frame)
  | net (o : Net)
  | socket (o : Socket)

instance : Counted KernelObject where
  refcount
    | .endpoint o => o.refcount
    | .notification o => o.refcount
    | .untyped o => o.refcount
    | .frame o => o.refcount
    | .net o => o.refcount
    | .socket o => o.refcount
  withRefcount obj n :=
    match obj with
    | .endpoint o => .endpoint { o with refcount := n }
    | .notification o => .notification { o with refcount := n }
    | .untyped o => .untyped { o with refcount := n }
    | .frame o => .frame { o with refcount := n }
    | .net o => .net { o with refcount := n }
    | .socket o => .socket { o with refcount := n }

/-- The number of caps an object says are pointing to it. -/
def KernelObject.refcount (obj : KernelObject) : ℕ := Counted.refcount obj

/-- The same object with another count. -/
def KernelObject.withRefcount (obj : KernelObject) (n : ℕ) : KernelObject :=
  Counted.withRefcount obj n

@[simp] theorem KernelObject.refcount_withRefcount (obj : KernelObject) (n : ℕ) :
    (obj.withRefcount n).refcount = n := by
  cases obj <;> rfl

@[simp] theorem KernelObject.withRefcount_withRefcount (obj : KernelObject) (m n : ℕ) :
    (obj.withRefcount m).withRefcount n = obj.withRefcount n := by
  cases obj <;> rfl

@[simp] theorem KernelObject.withRefcount_refcount (obj : KernelObject) :
    obj.withRefcount obj.refcount = obj := by
  cases obj <;> rfl

/-- The kinds that have a pool, which are all but the empty one and the audit stream. -/
def ObjectKind.pooled : ObjectKind → Bool
  | .empty | .eventLog => false
  | _ => true

namespace ObjectPools

/-- The object a cap of this kind and index names. -/
def object? (pools : ObjectPools) (kind : ObjectKind) (poolIndex : ℕ) : Option KernelObject :=
  match kind with
  | .empty => none
  | .eventLog => none
  | .endpoint => (pools.endpoints.get poolIndex).map .endpoint
  | .notification => (pools.notifications.get poolIndex).map .notification
  | .untyped => (pools.untypeds.get poolIndex).map .untyped
  | .frame => (pools.frames.get poolIndex).map .frame
  | .net => (pools.nets.get poolIndex).map .net
  | .socket => (pools.sockets.get poolIndex).map .socket

/-- The refcount of the object a cap of this kind and index names. -/
def refcount? (pools : ObjectPools) (kind : ObjectKind) (poolIndex : ℕ) : Option ℕ :=
  (pools.object? kind poolIndex).map KernelObject.refcount

@[simp] theorem object?_new (kind : ObjectKind) (i : ℕ) : new.object? kind i = none := by
  cases kind <;> simp [object?, new]

theorem object?_of_not_pooled {pools : ObjectPools} {kind : ObjectKind} {i : ℕ}
    (h : kind.pooled = false) : pools.object? kind i = none := by
  cases kind <;> first | rfl | cases h

/-- Two optional maps commute where the functions under them do. -/
theorem map_bind_drop {α : Type} [Counted α] (f : α → KernelObject)
    (h : ∀ a, dropRef (f a) = (dropRef a).map f) (o : Option α) :
    (o.bind dropRef).map f = (o.map f).bind dropRef := by
  rcases o with _ | a
  · rfl
  · exact (h a).symm

/-- **Counting down** takes one reference from the named object, and from no
other. -/
theorem object?_decRefcount (pools : ObjectPools) (k k' : ObjectKind) (i j : ℕ) :
    (pools.decRefcount k i).object? k' j =
      if k' = k ∧ j = i then (pools.object? k i).bind dropRef else pools.object? k' j := by
  by_cases hk : k' = k
  · subst hk
    by_cases hj : j = i
    · subst hj
      cases k' <;> simp only [decRefcount, object?, Pool.get_decRefcount, if_true, and_self] <;>
        first
        | rfl
        | exact map_bind_drop _ (fun a => by
            simp only [dropRef]
            rw [apply_ite (Option.map _)]
            rfl) _
    · cases k' <;> simp [decRefcount, object?, Pool.get_decRefcount, hj]
  · rw [if_neg fun h => hk h.1]
    cases k <;> cases k' <;> first | rfl | exact absurd rfl hk

/-- **Counting up** gives one reference to the named object, and to no other. -/
theorem object?_incRefcount (pools : ObjectPools) (k k' : ObjectKind) (i j : ℕ) :
    (pools.incRefcount k i).object? k' j =
      if k' = k ∧ j = i then (pools.object? k i).map addRef else pools.object? k' j := by
  by_cases hk : k' = k
  · subst hk
    by_cases hj : j = i
    · subst hj
      cases k' <;> simp only [incRefcount, object?, Pool.get_incRefcount, if_true, and_self,
        Option.map_map] <;> rfl
    · cases k' <;> simp [incRefcount, object?, Pool.get_incRefcount, hj]
  · rw [if_neg fun h => hk h.1]
    cases k <;> cases k' <;> first | rfl | exact absurd rfl hk

end ObjectPools

end Wari
