import Wari.Objects
import Wari.Lib.Tally
import Mathlib.Data.Fintype.Prod

/-!
# CSpaces and the state of the capability system

Each process owns a CSpace: 256 slots and a generation counter for each. The
capability state is the table of CSpaces, the object pools, and the two endpoint
indices boot leaves for later spawns. A `Place` is a slot of some process; the
state is read as two tables over places, `capAt` and `genAt`, and every write is
one of `put`, `bump` and `removeCap`.
-/

namespace Wari

/-! ## Machine integers as indices

The source converts with `as`, after a check or where the type is small enough. Each conversion
has its own name here. -/

/-- `proc_id as usize`, checked against `MAX_PROCS`; `none` is the path on which the caller
returns an error. -/
def procIndex? (p : BitVec 8) : Option Proc :=
  if h : p.toNat < maxProcs then some ⟨p.toNat, h⟩ else none

/-- `slot as usize`: every `u8` is the index of a slot. -/
def slotIndex (s : BitVec 8) : Slot := ⟨s.toNat, s.isLt⟩

/-- A slot argument of a syscall, checked against `CSPACE_SLOTS`. -/
def slotArg? (s : BitVec 32) : Option Slot :=
  if h : s.toNat < cspaceSlots then some ⟨s.toNat, h⟩ else none

/-- `proc_idx as u8`. An index fits, as there are fewer than 256 processes. -/
def procByte (p : Proc) : BitVec 8 := BitVec.ofNat 8 p.val

/-- `slot_idx as u8`. An index fits, as there are fewer than 256 slots. -/
def slotByte (s : Slot) : BitVec 8 := BitVec.ofNat 8 s.val

theorem proc_lt (p : Proc) : p.val < 16 := p.isLt

theorem slot_lt (s : Slot) : s.val < 256 := s.isLt

@[simp] theorem toNat_procByte (p : Proc) : (procByte p).toNat = p.val := by
  have := proc_lt p
  simp only [procByte, BitVec.toNat_ofNat]
  omega

@[simp] theorem toNat_slotByte (s : Slot) : (slotByte s).toNat = s.val := by
  have := slot_lt s
  simp only [slotByte, BitVec.toNat_ofNat]
  omega

@[simp] theorem procIndex?_procByte (p : Proc) : procIndex? (procByte p) = some p := by
  simp [procIndex?]

@[simp] theorem slotIndex_slotByte (s : Slot) : slotIndex (slotByte s) = s :=
  Fin.ext (toNat_slotByte s)

theorem procByte_ne (p : Proc) : procByte p ≠ 0xFF#8 := by
  intro h
  have hp := congrArg BitVec.toNat h
  have := proc_lt p
  rw [toNat_procByte] at hp
  simp at hp
  omega

/-- `saturating_add(1)`: at the largest value it stays there, which is what makes a saturated
generation stick. -/
def saturatingSucc {w : ℕ} (g : BitVec w) : BitVec w :=
  if g = BitVec.allOnes w then g else g + 1#w

/-- `wrapping_add(1)`: after the largest value comes 0. -/
def wrappingSucc {w : ℕ} (g : BitVec w) : BitVec w := g + 1#w

/-- `saturating_sub(h)`: below zero it stays at zero. -/
def saturatingSub {w : ℕ} (g h : BitVec w) : BitVec w := if g < h then 0#w else g - h

theorem toNat_saturatingSub {w : ℕ} (g h : BitVec w) :
    (saturatingSub g h).toNat = g.toNat - h.toNat := by
  rw [saturatingSub]
  split
  · rename_i hlt
    rw [BitVec.lt_def] at hlt
    rw [BitVec.toNat_ofNat, Nat.zero_mod]
    omega
  · rename_i hle
    exact BitVec.toNat_sub_of_le (BitVec.not_lt.mp hle)

theorem le_saturatingSucc {w : ℕ} (g : BitVec w) : g ≤ saturatingSucc g := by
  rw [saturatingSucc]
  split
  · exact BitVec.le_refl g
  · rename_i hne
    rw [BitVec.le_def, BitVec.toNat_add, BitVec.toNat_ofNat]
    have hlt : g.toNat < 2 ^ w - 1 := by
      have := g.isLt
      have hne' : g.toNat ≠ 2 ^ w - 1 := fun h => hne (BitVec.eq_of_toNat_eq (by simpa using h))
      omega
    have hone : 1 % 2 ^ w ≤ 1 := Nat.mod_le 1 _
    rw [Nat.mod_eq_of_lt (a := g.toNat + 1 % 2 ^ w) (by omega)]
    omega

/-! ## Slot layout

Fixed slots by convention, as the modules know them. -/

/-- A module's primary cap: UART receive, or stdout. -/
def slotPrimary : Slot := 0
/-- The slot of the capability for `proc_exit`. -/
def slotExit : Slot := 1
/-- The Net cap of a module that has one. -/
def slotNet : Slot := 2
/-- The slot of the endpoint that the two demonstration tenants share. -/
def slotIpc : Slot := 3
/-- The slot of a guard agent's `EventLog` capability. -/
def slotEventlog : Slot := 4

/-! ## The tables

Reads are `capAt` and `genAt`. Writes go through three operations, and what each of them changes
is said once, below. -/

/-- The capability table of a process: what is in each slot, and how often the slot was emptied.
-/
@[ext]
structure CSpace where
  /-- the capability slots -/
  slots : Slot → Cap
  /-- per-slot generation counters -/
  generations : Slot → BitVec 16

/-- A fresh CSpace: every slot empty, every generation zero. -/
def CSpace.new : CSpace := ⟨fun _ => Cap.empty, fun _ => 0#16⟩

/-- The state of the capability system: the CSpaces of all processes, the pools of objects they
name, and the endpoints that boot hands to modules loaded later. -/
structure CapState where
  /-- one CSpace for each process -/
  cspaces : Proc → CSpace
  /-- the kernel objects -/
  objectPools : ObjectPools
  /-- the (uart, exit) endpoint indices boot records for later spawns -/
  bootTier1Eps : Option (ℕ × ℕ)

/-- A slot of some process, which is what a capability is found at. -/
abbrev Place : Type := Proc × Slot

theorem card_place : Fintype.card Place = 4096 := by
  simp [maxProcs, cspaceSlots]

namespace CapState

/-- Static storage before boot: every CSpace empty, every pool empty. -/
def zeroed : CapState := ⟨fun _ => CSpace.new, .new, none⟩

/-- The capability at a place, the empty one where there is none. -/
def capAt (st : CapState) (a : Place) : Cap := (st.cspaces a.1).slots a.2

/-- The generation of a place, which a capability id has to match. -/
def genAt (st : CapState) (a : Place) : BitVec 16 := (st.cspaces a.1).generations a.2

/-- `cs[p].slots[s] = cap`. Only the slot changes, and not its generation. -/
def put (st : CapState) (a : Place) (cap : Cap) : CapState :=
  { st with
    cspaces := Function.update st.cspaces a.1
      { st.cspaces a.1 with slots := Function.update (st.cspaces a.1).slots a.2 cap } }

/-- `cs[p].generations[s] = f(cs[p].generations[s])`. Callers differ in `f`: some saturate, and
some wrap around. -/
def bump (st : CapState) (a : Place) (f : BitVec 16 → BitVec 16) : CapState :=
  { st with
    cspaces := Function.update st.cspaces a.1
      { st.cspaces a.1 with
        generations := Function.update (st.cspaces a.1).generations a.2 (f (st.genAt a)) } }

/-- Count the object of a capability down; at zero its pool entry is freed. -/
def decRefcount (st : CapState) (kind : ObjectKind) (poolIndex : ℕ) : CapState :=
  { st with objectPools := st.objectPools.decRefcount kind poolIndex }

/-- Count the object of a capability up, as copying and minting do. -/
def incRefcount (st : CapState) (kind : ObjectKind) (poolIndex : ℕ) : CapState :=
  { st with objectPools := st.objectPools.incRefcount kind poolIndex }

/-- Read `(kind, pool_index)`, clear the cap, bump the slot generation, then
count the object down. -/
def removeCap (st : CapState) (a : Place) (f : BitVec 16 → BitVec 16) : CapState :=
  let kind := (st.capAt a).kind
  let poolIndex := (st.capAt a).poolIndex
  ((st.put a Cap.empty).bump a f).decRefcount kind poolIndex

/-- Write a cap, then count its object up. -/
def installCap (st : CapState) (a : Place) (cap : Cap) : CapState :=
  (st.put a cap).incRefcount cap.kind cap.poolIndex

/-! ### Reading after writing

What a write to one slot makes of the others, once and for all. Later proofs read through writes
by `simp`. -/

@[simp] theorem capAt_put (st : CapState) (a b : Place) (cap : Cap) :
    (st.put a cap).capAt b = if b = a then cap else st.capAt b := by
  obtain ⟨p, s⟩ := a
  obtain ⟨q, t⟩ := b
  simp only [capAt, put]
  by_cases hp : q = p
  · subst hp
    by_cases hs : t = s
    · subst hs
      simp
    · simp [hs]
  · simp [hp]

@[simp] theorem genAt_put (st : CapState) (a b : Place) (cap : Cap) :
    (st.put a cap).genAt b = st.genAt b := by
  simp only [genAt, put]
  by_cases hp : b.1 = a.1
  · simp [hp]
  · simp [hp]

@[simp] theorem objectPools_put (st : CapState) (a : Place) (cap : Cap) :
    (st.put a cap).objectPools = st.objectPools := rfl

@[simp] theorem bootTier1Eps_put (st : CapState) (a : Place) (cap : Cap) :
    (st.put a cap).bootTier1Eps = st.bootTier1Eps := rfl

@[simp] theorem capAt_bump (st : CapState) (a b : Place) (f : BitVec 16 → BitVec 16) :
    (st.bump a f).capAt b = st.capAt b := by
  simp only [capAt, bump]
  by_cases hp : b.1 = a.1
  · simp [hp]
  · simp [hp]

@[simp] theorem genAt_bump (st : CapState) (a b : Place) (f : BitVec 16 → BitVec 16) :
    (st.bump a f).genAt b = if b = a then f (st.genAt a) else st.genAt b := by
  obtain ⟨p, s⟩ := a
  obtain ⟨q, t⟩ := b
  simp only [genAt, bump]
  by_cases hp : q = p
  · subst hp
    by_cases hs : t = s
    · subst hs
      simp
    · simp [hs]
  · simp [hp]

@[simp] theorem objectPools_bump (st : CapState) (a : Place) (f : BitVec 16 → BitVec 16) :
    (st.bump a f).objectPools = st.objectPools := rfl

@[simp] theorem bootTier1Eps_bump (st : CapState) (a : Place) (f : BitVec 16 → BitVec 16) :
    (st.bump a f).bootTier1Eps = st.bootTier1Eps := rfl

@[simp] theorem capAt_removeCap (st : CapState) (a b : Place) (f : BitVec 16 → BitVec 16) :
    (st.removeCap a f).capAt b = if b = a then Cap.empty else st.capAt b :=
  (capAt_bump _ a b f).trans (capAt_put st a b Cap.empty)

@[simp] theorem genAt_removeCap (st : CapState) (a b : Place) (f : BitVec 16 → BitVec 16) :
    (st.removeCap a f).genAt b = if b = a then f (st.genAt a) else st.genAt b := by
  refine (genAt_bump _ a b f).trans ?_
  rw [genAt_put, genAt_put]

theorem object?_removeCap (st : CapState) (a : Place) (f : BitVec 16 → BitVec 16)
    (k : ObjectKind) (i : ℕ) :
    (st.removeCap a f).objectPools.object? k i =
      if k = (st.capAt a).kind ∧ i = (st.capAt a).poolIndex then
        (st.objectPools.object? k i).bind dropRef
      else st.objectPools.object? k i := by
  refine (ObjectPools.object?_decRefcount _ _ k _ i).trans ?_
  by_cases h : k = (st.capAt a).kind ∧ i = (st.capAt a).poolIndex
  · obtain ⟨rfl, rfl⟩ := h
    simp
  · rw [if_neg h, if_neg h]
    rfl

@[simp] theorem bootTier1Eps_removeCap (st : CapState) (a : Place) (f : BitVec 16 → BitVec 16) :
    (st.removeCap a f).bootTier1Eps = st.bootTier1Eps := rfl

@[simp] theorem capAt_installCap (st : CapState) (a b : Place) (cap : Cap) :
    (st.installCap a cap).capAt b = if b = a then cap else st.capAt b :=
  capAt_put st a b cap

@[simp] theorem genAt_installCap (st : CapState) (a b : Place) (cap : Cap) :
    (st.installCap a cap).genAt b = st.genAt b :=
  genAt_put st a b cap

theorem object?_installCap (st : CapState) (a : Place) (cap : Cap) (k : ObjectKind) (i : ℕ) :
    (st.installCap a cap).objectPools.object? k i =
      if k = cap.kind ∧ i = cap.poolIndex then (st.objectPools.object? k i).map addRef
      else st.objectPools.object? k i := by
  refine (ObjectPools.object?_incRefcount _ _ k _ i).trans ?_
  by_cases h : k = cap.kind ∧ i = cap.poolIndex
  · obtain ⟨rfl, rfl⟩ := h
    simp
  · rw [if_neg h, if_neg h]
    rfl

@[simp] theorem bootTier1Eps_installCap (st : CapState) (a : Place) (cap : Cap) :
    (st.installCap a cap).bootTier1Eps = st.bootTier1Eps := rfl

end CapState

/-! ## Parent references

A capability records where it was derived from, as a place and the generation that place had. The
reference is live while the generation is still the same and the place is occupied. -/

/-- The reference a derivation records for its source: place and generation. -/
def CapId.ofPlace (a : Place) (g : BitVec 16) : CapId := .new (procByte a.1) (slotByte a.2) g

/-- The place a reference points to: none for the root sentinel, and none for a
process byte past the process table. -/
def CapId.place? (id : CapId) : Option Place :=
  if id.isRoot then none else (procIndex? id.procId).map fun p => (p, slotIndex id.slot)

@[simp] theorem CapId.isRoot_ofPlace (a : Place) (g : BitVec 16) :
    (ofPlace a g).isRoot = false :=
  isRoot_new (procByte_ne a.1)

@[simp] theorem CapId.place?_ofPlace (a : Place) (g : BitVec 16) :
    (ofPlace a g).place? = some a := by
  rw [place?, isRoot_ofPlace]
  simp [ofPlace]

@[simp] theorem CapId.generation_ofPlace (a : Place) (g : BitVec 16) :
    (ofPlace a g).generation = g :=
  generation_new _ _ g

@[simp] theorem CapId.place?_root : root.place? = none := rfl

namespace CapState

/-- The live parent of a place: where the reference of its cap points, provided that the place is
occupied and the generation recorded there is current. Revocation follows exactly these. -/
def parentOf (st : CapState) (a : Place) : Option Place :=
  if (st.capAt a).isEmpty then none
  else (st.capAt a).parent.place?.filter fun b => st.genAt b == (st.capAt a).parent.generation

theorem parentOf_eq_some {st : CapState} {a b : Place} :
    st.parentOf a = some b ↔
      (st.capAt a).isEmpty = false ∧ (st.capAt a).parent.place? = some b ∧
        st.genAt b = (st.capAt a).parent.generation := by
  rw [parentOf]
  by_cases h : (st.capAt a).isEmpty = true
  · simp [h]
  · simp [h, Option.filter_eq_some_iff]

/-- Every occupied slot's parent is the root or a place in the process table. -/
def ParentsInTable (st : CapState) : Prop :=
  ∀ a, (st.capAt a).isEmpty = false → (st.capAt a).parent.isRoot = false →
    ∃ b, (st.capAt a).parent.place? = some b

/-! ## Counting names

A reference count is right if it is the number of slots that name the object. The number is over
the table as a whole, so one slot that changes moves it by one. -/

/-- The number of slots, over all processes, whose cap names this object. This is what a reference
count is meant to be. -/
def names (st : CapState) (k : ObjectKind) (i : ℕ) : ℕ :=
  Lib.tally (fun c : Cap => c.kind = k ∧ c.poolIndex = i) st.capAt

/-- Whether this cap names this object, as a number. -/
def hit (c : Cap) (k : ObjectKind) (i : ℕ) : ℕ := if c.kind = k ∧ c.poolIndex = i then 1 else 0

/-- A count of slots fits a `u16` with room to spare. -/
theorem names_le (st : CapState) (k : ObjectKind) (i : ℕ) : st.names k i ≤ 4096 :=
  (Lib.tally_le st.capAt).trans_eq card_place

/-- **One slot changes**, and the number of slots that name an object changes by what it held
before and holds now. -/
theorem names_change {st st' : CapState} (a : Place) (h : ∀ b, b ≠ a → st'.capAt b = st.capAt b)
    (k : ObjectKind) (i : ℕ) :
    st'.names k i + hit (st.capAt a) k i = st.names k i + hit (st'.capAt a) k i :=
  Lib.tally_change a h

theorem names_pos {st : CapState} {k : ObjectKind} {i : ℕ} :
    0 < st.names k i ↔ ∃ a, (st.capAt a).kind = k ∧ (st.capAt a).poolIndex = i :=
  Lib.tally_pos

/-- Where every occupied slot is in a list, the names are counted over it. -/
theorem names_eq_countP {st : CapState} {l : List Place} (hl : l.Nodup)
    (hempty : ∀ a, a ∉ l → (st.capAt a).isEmpty = true) {k : ObjectKind} (hk : k ≠ .empty)
    (i : ℕ) :
    st.names k i =
      l.countP fun a => decide ((st.capAt a).kind = k ∧ (st.capAt a).poolIndex = i) := by
  rw [names, Lib.tally]
  rw [List.countP_eq_length_filter, ← List.toFinset_card_of_nodup (hl.filter _)]
  congr 1
  ext a
  simp only [Finset.mem_filter, Finset.mem_univ, true_and, List.mem_toFinset, List.mem_filter,
    decide_eq_true_eq]
  refine ⟨fun h => ⟨?_, h⟩, fun h => h.2⟩
  by_contra ha
  exact hk (h.1.symm.trans (Cap.isEmpty_iff.mp (hempty a ha)))

end CapState

end Wari
