import Mathlib.Algebra.GroupWithZero.Nat
import Mathlib.Tactic.Common

/-!
# Capability primitive types

The shapes the capability system manipulates: object kinds, packed references
to CSpace slots, rights bitmaps and the 16-byte `Cap`, with `Cap.derive`, the
pure core of the mint operation. Widths are the source's: a `CapId` is one
`u32` packing generation, process and slot, a generation is a `u16` and rights
are a `u8`.
-/

namespace Wari

/-! ## Errors

As the source has them, where a modelled function returns one. -/

/-- The single error taxonomy for the kernel, from which the host functions make their numbers. -/
inductive KernelError where
  /-- an argument was out of range or malformed -/
  | invalidArgument
  /-- target process does not exist or is not in the expected state -/
  | noSuchProcess
  /-- caller does not hold the capability the operation needs -/
  | permissionDenied
  /-- the operation would block -/
  | wouldBlock
  /-- out of physical pages -/
  | outOfPages
  /-- out of handles in a fixed pool -/
  | outOfHandles
  /-- not mapped or not owned by the caller -/
  | notMapped
  /-- WASM module failed validation -/
  | badWasm
  /-- driver-layer failure -/
  | driverError
  deriving DecidableEq, Repr

/-! ## Index spaces

Sixteen processes, 256 slots each. -/

/-- The number of processes, and so of CSpaces. -/
abbrev maxProcs : ℕ := 16

/-- The number of slots in a CSpace, as many as a byte can index. -/
abbrev cspaceSlots : ℕ := 256

/-- A process id that passed the `< MAX_PROCS` check. -/
abbrev Proc : Type := Fin maxProcs

/-- A slot index: every `u8`, since a CSpace has 256 slots. -/
abbrev Slot : Type := Fin cspaceSlots

instance : NeZero maxProcs := ⟨Nat.succ_ne_zero 15⟩

instance : NeZero cspaceSlots := ⟨Nat.succ_ne_zero 255⟩

/-! ## Object kinds

Kinds without a pool are names only. -/

/-- Kind of kernel object a capability refers to. -/
inductive ObjectKind where
  /-- the slot is unoccupied -/
  | empty
  /-- synchronous IPC rendezvous point -/
  | endpoint
  /-- asynchronous binary signal -/
  | notification
  /-- a pool of typed-as-untyped memory -/
  | untyped
  /-- a 4 KiB physical page -/
  | frame
  /-- NIC handle -/
  | net
  /-- per-tenant TCP/UDP socket -/
  | socket
  /-- read authority over the kernel audit stream, a singleton facility -/
  | eventLog
  deriving DecidableEq, Repr

/-! ## Slot references

A reference packs a place and a generation into 32 bits. The sentinel cannot be mistaken for one,
because of its process byte. -/

/-- Globally-unique reference to a CSpace slot, packed as
`generation << 16 | proc_id << 8 | slot`. -/
structure CapId where
  /-- the packed `u32` -/
  raw : BitVec 32
  deriving DecidableEq, Repr

namespace CapId

/-- Sentinel for original kernel-issued caps with no parent. -/
def root : CapId := ⟨0xFFFFFFFF#32⟩

/-- Construct a `CapId` from its three components, which do not overlap in the word. -/
def new (procId slot : BitVec 8) (generation : BitVec 16) : CapId :=
  ⟨generation.setWidth 32 <<< 16 ||| procId.setWidth 32 <<< 8 ||| slot.setWidth 32⟩

/-- The process id that is encoded in this `CapId`. -/
def procId (id : CapId) : BitVec 8 := (id.raw >>> 8 &&& 0xFF#32).setWidth 8

/-- The slot index that is encoded in this `CapId`. -/
def slot (id : CapId) : BitVec 8 := (id.raw &&& 0xFF#32).setWidth 8

/-- The generation counter that is encoded in this `CapId`. -/
def generation (id : CapId) : BitVec 16 := (id.raw >>> 16 &&& 0xFFFF#32).setWidth 16

/-- `true` if this `CapId` is the root sentinel. -/
def isRoot (id : CapId) : Bool := id.raw == 0xFFFFFFFF#32

/-- Masking to a byte before truncating to one does nothing. -/
theorem setWidth_mask8 (x : BitVec 32) : (x &&& 0xFF#32).setWidth 8 = x.setWidth 8 := by
  rw [BitVec.setWidth_and, show (0xFF#32).setWidth 8 = BitVec.allOnes 8 from rfl,
    BitVec.and_allOnes]

theorem setWidth_mask16 (x : BitVec 32) : (x &&& 0xFFFF#32).setWidth 16 = x.setWidth 16 := by
  rw [BitVec.setWidth_and, show (0xFFFF#32).setWidth 16 = BitVec.allOnes 16 from rfl,
    BitVec.and_allOnes]

@[simp] theorem procId_new (p s : BitVec 8) (g : BitVec 16) : (new p s g).procId = p := by
  rw [procId, setWidth_mask8]
  apply BitVec.eq_of_getLsbD_eq
  intro i hi
  simp [new, hi, show 8 + i < 16 by omega, show 8 + i < 32 by omega, show i < 32 by omega]

@[simp] theorem slot_new (p s : BitVec 8) (g : BitVec 16) : (new p s g).slot = s := by
  rw [slot, setWidth_mask8]
  apply BitVec.eq_of_getLsbD_eq
  intro i hi
  simp [new, hi]

@[simp] theorem generation_new (p s : BitVec 8) (g : BitVec 16) :
    (new p s g).generation = g := by
  rw [generation, setWidth_mask16]
  apply BitVec.eq_of_getLsbD_eq
  intro i hi
  have hp : p.getLsbD (16 + i - 8) = false := BitVec.getLsbD_of_ge _ _ (by omega)
  have hs : s.getLsbD (16 + i) = false := BitVec.getLsbD_of_ge _ _ (by omega)
  simp [new, hi, hp, hs, show i < 32 by omega, show 16 + i < 32 by omega]

/-- No reference into the process table is the root sentinel: the sentinel's
process byte is `0xFF`. -/
theorem isRoot_new {p s : BitVec 8} {g : BitVec 16} (hp : p ≠ 0xFF#8) :
    (new p s g).isRoot = false := by
  rw [isRoot, beq_eq_false_iff_ne]
  intro hraw
  apply hp
  rw [← procId_new p s g, procId, hraw]
  rfl

@[simp] theorem isRoot_root : root.isRoot = true := rfl

end CapId

/-! ## Rights

A bitmap, compared as a set. -/

/-- Bit 0: may read object state. -/
def capRightRead : BitVec 8 := 1#8 <<< 0
/-- Bit 1: may modify object state. -/
def capRightWrite : BitVec 8 := 1#8 <<< 1
/-- Bit 2: may pass this cap to other processes via IPC. -/
def capRightGrant : BitVec 8 := 1#8 <<< 2
/-- Bit 3: may pass via the reply path of a synchronous IPC. -/
def capRightGrantReply : BitVec 8 := 1#8 <<< 3

/-- Mask of the rights bits in use; bits 4 to 7 are reserved. -/
def capRightsPhase1bMask : BitVec 8 :=
  capRightRead ||| capRightWrite ||| capRightGrant ||| capRightGrantReply

/-- `a` confers no right that `b` does not: `a & !b == 0`. -/
def RightsLe (a b : BitVec 8) : Prop := a &&& ~~~b = 0#8

instance (a b : BitVec 8) : Decidable (RightsLe a b) :=
  inferInstanceAs (Decidable (a &&& ~~~b = 0#8))

theorem rightsLe_iff {a b : BitVec 8} :
    RightsLe a b ↔ ∀ i, a.getLsbD i = true → b.getLsbD i = true := by
  constructor
  · intro h i hi
    have hbit := congrArg (·.getLsbD i) h
    have hlt : i < 8 := BitVec.lt_of_getLsbD hi
    simpa [hi, hlt] using hbit
  · intro h
    apply BitVec.eq_of_getLsbD_eq
    intro i hi
    rcases ha : a.getLsbD i with _ | _
    · simp [ha]
    · simp [ha, h i ha]

theorem RightsLe.refl (a : BitVec 8) : RightsLe a a :=
  rightsLe_iff.mpr fun _ h => h

theorem RightsLe.trans {a b c : BitVec 8} (h₁ : RightsLe a b) (h₂ : RightsLe b c) :
    RightsLe a c :=
  rightsLe_iff.mpr fun i h => rightsLe_iff.mp h₂ i (rightsLe_iff.mp h₁ i h)

/-- What the greater set lacks, the smaller lacks. -/
theorem rightsLe_and_eq_zero {a b m : BitVec 8} (h : RightsLe a b) (hb : b &&& m = 0#8) :
    a &&& m = 0#8 := by
  have ha : a &&& b = a := by
    apply BitVec.eq_of_getLsbD_eq
    intro i _
    rw [BitVec.getLsbD_and]
    rcases hi : a.getLsbD i with _ | _
    · rfl
    · rw [rightsLe_iff.mp h i hi]
      rfl
  rw [← ha, BitVec.and_assoc, hb, BitVec.and_zero]

/-! ## Capabilities

The runtime record, and how a child is made of it. -/

/-- A runtime capability: what it is for, and where it comes from. -/
structure Cap where
  /-- endpoint badge; zero for other kinds -/
  badge : BitVec 32
  /-- parent cap reference -/
  parent : CapId
  /-- generation of the holder slot at mint time -/
  generation : BitVec 32
  /-- index into the per-kind kernel object pool -/
  poolIndex : ℕ
  /-- kind of kernel object this cap references -/
  kind : ObjectKind
  /-- rights bitmap -/
  rights : BitVec 8
  deriving DecidableEq, Repr

namespace Cap

/-- The unoccupied capability, whose pool index is that of no object. -/
def empty : Cap where
  badge := 0#32
  parent := CapId.root
  generation := 0#32
  poolIndex := 65535
  kind := .empty
  rights := 0#8

/-- `true` if this capability is unoccupied, which its kind alone decides. -/
def isEmpty (c : Cap) : Bool := c.kind == .empty

/-- Derive a child cap from a parent: same kind and object, at most the
parent's rights. The mint operation overwrites `generation` before placement. -/
def derive (parent : Cap) (parentId : CapId) (requestedRights : BitVec 8) (badge : BitVec 32) :
    Except KernelError Cap :=
  if parent.isEmpty then .error .invalidArgument
  else if requestedRights &&& ~~~capRightsPhase1bMask ≠ 0#8 then .error .invalidArgument
  else if requestedRights &&& ~~~parent.rights ≠ 0#8 then .error .permissionDenied
  else .ok {
    badge := if parent.kind == .endpoint then badge else 0#32
    parent := parentId
    generation := 0#32
    poolIndex := parent.poolIndex
    kind := parent.kind
    rights := requestedRights }

@[simp] theorem kind_empty : empty.kind = .empty := rfl

@[simp] theorem isEmpty_empty : empty.isEmpty = true := rfl

theorem isEmpty_iff {c : Cap} : c.isEmpty = true ↔ c.kind = .empty := by
  simp [isEmpty]

theorem isEmpty_eq_false_iff {c : Cap} : c.isEmpty = false ↔ c.kind ≠ .empty := by
  simp [isEmpty]

/-- What a successful derivation says of its child. -/
theorem derive_ok {parent child : Cap} {parentId : CapId} {r : BitVec 8} {badge : BitVec 32}
    (h : derive parent parentId r badge = .ok child) :
    parent.isEmpty = false ∧ child.parent = parentId ∧ child.kind = parent.kind ∧
      child.poolIndex = parent.poolIndex ∧ child.rights = r ∧ RightsLe r parent.rights := by
  rw [derive] at h
  split at h
  · cases h
  · rename_i hempty
    split at h
    · cases h
    · split at h
      · cases h
      · rename_i hle
        obtain rfl := Except.ok.inj h
        exact ⟨by simpa using hempty, rfl, rfl, rfl, rfl, not_ne_iff.mp hle⟩

/-- An Endpoint cap gets the badge asked for. -/
theorem badge_of_derive {parent child : Cap} {parentId : CapId} {r : BitVec 8} {badge : BitVec 32}
    (h : derive parent parentId r badge = .ok child) (hkind : child.kind = .endpoint) :
    child.badge = badge := by
  rw [derive] at h
  split at h
  · cases h
  · split at h
    · cases h
    · split at h
      · cases h
      · obtain rfl := Except.ok.inj h
        exact if_pos (beq_iff_eq.mpr hkind)

end Cap

end Wari
