import Wari.CSpace
import Wari.Lib.Bitmap
import Wari.Lib.Scan
import Mathlib.Data.List.ProdSigma

/-!
# The revocation cascade

`revoke` collects the cap it is given and every descendant into a bitmap by
scanning all CSpaces until a scan adds nothing (`discover`), and then clears what
the bitmap holds (`clear`). Indexing an array is partial here: `none` is an index
out of bounds, or a `discover` that ran out of fuel. The specification is
`revoke_ok`: neither happens where parent references point into the process
table, and what is cleared is the set of descendants through live parent
references, whatever the numbering of processes and slots.
-/

namespace Wari

open Lib (Descends)

/-! ## The revoke set

One bit a slot, in 64 words. -/

/-- Bitmap of (process, slot) pairs: `16 × 256` bits in 64 words. -/
abbrev RevokeSet : Type := Lib.Bitmap 64 64

namespace RevokeSet

/-- The bit index for `(proc_id, slot)`: the slots of a process lie together. -/
def idx (procId slot : BitVec 8) : ℕ := procId.toNat * cspaceSlots + slot.toNat

/-- `set.add(proc_id, slot)`; `none` is an index out of bounds, which would panic. -/
def add (set : RevokeSet) (procId slot : BitVec 8) : Option RevokeSet := set.set? (idx procId slot)

/-- `set.contains(proc_id, slot)`; `none` is an index out of bounds, which would panic. -/
def contains (set : RevokeSet) (procId slot : BitVec 8) : Option Bool := set.test? (idx procId slot)

end RevokeSet

/-! ## Discovery and clearing

The loops of the source, as folds over all places in the order of the nested loops. The outer loop
has fuel, and `discover_spec` says that it is never used up. -/

/-- Every place, in the order of the nested loops. -/
def places : List Place := List.finRange maxProcs ×ˢ List.finRange cspaceSlots

/-- The tests of the scan on an unmarked slot's cap, down to the last `continue`:
its parent is marked, and has the generation the cap recorded. -/
def parentMarked (cs : Proc → CSpace) (set : RevokeSet) (cap : Cap) : Option Bool :=
  if cap.isEmpty then some false
  else if cap.parent.isRoot then some false
  else do
    let pProc := cap.parent.procId
    let pSlot := cap.parent.slot
    let pGen := cap.parent.generation
    let above ← set.contains pProc pSlot
    if !above then pure false
    else
      let i ← procIndex? pProc
      pure ((cs i).generations (slotIndex pSlot) == pGen)

/-- One iteration of the scan: the set, and whether this scan changed it. -/
def discoverAt (cs : Proc → CSpace) (st : RevokeSet × Bool) (a : Place) :
    Option (RevokeSet × Bool) := do
  let here ← st.1.contains (procByte a.1) (slotByte a.2)
  if here then pure st
  else
    let above ← parentMarked cs st.1 ((cs a.1).slots a.2)
    if !above then pure st
    else
      let set ← st.1.add (procByte a.1) (slotByte a.2)
      pure (set, true)

/-- `while changed`: scan all slots until a scan changes nothing. -/
def discover (cs : Proc → CSpace) : ℕ → RevokeSet → Option RevokeSet
  | 0, _ => none
  | fuel + 1, set => do
    let (set, changed) ← places.foldlM (discoverAt cs) (set, false)
    if changed then discover cs fuel set else pure set

/-- Scans that are always enough: one more than there are slots. -/
def discoverFuel : ℕ := maxProcs * cspaceSlots + 1

/-- One iteration of the clearing loop: a marked slot that is not empty is emptied, and its object
counted down. -/
def clearAt (set : RevokeSet) (st : CapState) (a : Place) : Option CapState := do
  let marked ← set.contains (procByte a.1) (slotByte a.2)
  if !marked then pure st
  else if (st.capAt a).isEmpty then pure st
  else pure (st.removeCap a saturatingSucc)

/-- Clear every marked slot, in the order of the table. -/
def clear (set : RevokeSet) (st : CapState) : Option CapState := places.foldlM (clearAt set) st

/-- Revoke the cap at `(proc_id, slot)` and every descendant. -/
def revoke (st : CapState) (procId slot : BitVec 8) :
    Option (Except KernelError Unit × CapState) :=
  match procIndex? procId with
  | none => pure (.error .invalidArgument, st)
  | some p =>
    if (st.capAt (p, slotIndex slot)).isEmpty then pure (.error .invalidArgument, st)
    else do
      let set ← RevokeSet.add .empty procId slot
      let set ← discover st.cspaces discoverFuel set
      let st ← clear set st
      pure (.ok (), st)

/-! ## What the bitmap holds

The bitmap as a set of places. -/

theorem mem_places (a : Place) : a ∈ places :=
  List.mem_product.mpr ⟨List.mem_finRange a.1, List.mem_finRange a.2⟩

theorem nodup_places : places.Nodup :=
  (List.nodup_finRange maxProcs).product (List.nodup_finRange cspaceSlots)

namespace RevokeSet

/-- The bit of a place in the set. -/
def bit (a : Place) : ℕ := idx (procByte a.1) (slotByte a.2)

theorem bit_eq (a : Place) : bit a = a.1.val * 256 + a.2.val := by
  simp [bit, idx, cspaceSlots]

theorem bit_lt (a : Place) : bit a / 64 < 64 := by
  have hp := proc_lt a.1
  have hs := slot_lt a.2
  rw [bit_eq]
  omega

theorem bit_inj {a b : Place} (h : bit a = bit b) : a = b := by
  rw [bit_eq, bit_eq] at h
  have ha := slot_lt a.2
  have hb := slot_lt b.2
  have hp : a.1.val = b.1.val := by omega
  have hs : a.2.val = b.2.val := by omega
  exact Prod.ext (Fin.ext hp) (Fin.ext hs)

/-- The bitmap `set` holds exactly the places of `S`. -/
def Holds (set : RevokeSet) (S : Finset Place) : Prop :=
  ∀ a, set.contains (procByte a.1) (slotByte a.2) = some (decide (a ∈ S))

theorem holds_empty : Holds .empty ∅ := by
  intro a
  have h : (Lib.Bitmap.empty : RevokeSet).test? (bit a) = some false :=
    Lib.Bitmap.test?_empty (by decide) (bit_lt a)
  rw [contains, show idx (procByte a.1) (slotByte a.2) = bit a from rfl, h]
  simp

/-- Adding a place to the bits adds that place to the set that they hold, and no other. -/
theorem Holds.add {set : RevokeSet} {S : Finset Place} (h : Holds set S) (a : Place) :
    ∃ set', set.add (procByte a.1) (slotByte a.2) = some set' ∧ Holds set' (insert a S) := by
  obtain ⟨set', hset⟩ := Lib.Bitmap.set?_isSome set (bit_lt a)
  refine ⟨set', hset, fun b => ?_⟩
  have htest := Lib.Bitmap.test?_set? (by decide) hset (bit b)
  change set'.test? (bit b) = _
  rw [htest]
  by_cases hb : b = a
  · subst hb
    simp
  · have hne : bit b ≠ bit a := fun he => hb (bit_inj he)
    rw [if_neg hne]
    have hold : set.test? (bit b) = some (decide (b ∈ S)) := h b
    rw [hold]
    simp [hb]

end RevokeSet

/-- A non-root reference into the process table is the bytes of its place. -/
theorem CapId.bytes_of_place? {id : CapId} {b : Place} (h : id.place? = some b) :
    id.isRoot = false ∧ procIndex? id.procId = some b.1 ∧ slotIndex id.slot = b.2 ∧
      id.procId = procByte b.1 ∧ id.slot = slotByte b.2 := by
  rw [place?] at h
  rcases hroot : id.isRoot with _ | _
  · rw [hroot, if_neg Bool.false_ne_true] at h
    obtain ⟨p, hp, rfl⟩ := Option.map_eq_some_iff.mp h
    refine ⟨rfl, hp, rfl, ?_, ?_⟩
    · rw [procIndex?] at hp
      split at hp
      · obtain rfl := Option.some.inj hp
        exact BitVec.eq_of_toNat_eq (by rw [toNat_procByte])
      · cases hp
    · exact BitVec.eq_of_toNat_eq (by rw [toNat_slotByte]; rfl)
  · rw [hroot, if_pos rfl] at h
    cases h

/-! ## Discovery computes the descendants

A scan marks a slot whose live parent is marked. This is the library's scan to a fixpoint, so what
it ends with is the least set that is closed under children. -/

/-- The bitmap and flag of the loop stand for a set and the same flag. Through this the loop of
the source and the library's scan take the same steps. -/
def Stands (st : RevokeSet × Bool) (fs : Finset Place × Bool) : Prop :=
  st.1.Holds fs.1 ∧ st.2 = fs.2

/-- The tests of the scan find the marked live parent. -/
theorem parentMarked_eq {cst : CapState} (htable : cst.ParentsInTable) {set : RevokeSet}
    {S : Finset Place} (hset : set.Holds S) (a : Place) :
    parentMarked cst.cspaces set (cst.capAt a) =
      some ((cst.parentOf a).any fun b => decide (b ∈ S)) := by
  rw [parentMarked, CapState.parentOf]
  rcases hempty : (cst.capAt a).isEmpty with _ | _
  · rcases hroot : (cst.capAt a).parent.isRoot with _ | _
    · obtain ⟨b, hb⟩ := htable a hempty hroot
      obtain ⟨-, hproc, hslot, hpb, hsb⟩ := CapId.bytes_of_place? hb
      have habove : set.contains (cst.capAt a).parent.procId (cst.capAt a).parent.slot =
          some (decide (b ∈ S)) := by rw [hpb, hsb]; exact hset b
      by_cases hbS : b ∈ S
      · by_cases hgen : cst.genAt b = (cst.capAt a).parent.generation
        · have hgen' : (cst.cspaces b.1).generations b.2 = (cst.capAt a).parent.generation := hgen
          simp [habove, hbS, hproc, hslot, hb, hgen, hgen', Option.filter]
        · have hgen' : (cst.cspaces b.1).generations b.2 ≠ (cst.capAt a).parent.generation := hgen
          simp [habove, hbS, hproc, hslot, hb, hgen, hgen', Option.filter]
      · by_cases hgen : cst.genAt b = (cst.capAt a).parent.generation <;>
          simp [habove, hbS, hb, hgen, Option.filter]
    · have hb : (cst.capAt a).parent.place? = none := by simp [CapId.place?, hroot]
      simp [hb]
  · simp

/-- One iteration of the scan is one look along live parents. -/
theorem discoverAt_look {cst : CapState} (htable : cst.ParentsInTable) {st : RevokeSet × Bool}
    {fs : Finset Place × Bool} (h : Stands st fs) (a : Place) :
    ∃ st', discoverAt cst.cspaces st a = some st' ∧ Stands st' (Lib.look cst.parentOf fs a) := by
  have hhere : st.1.contains (procByte a.1) (slotByte a.2) = some (decide (a ∈ fs.1)) := h.1 a
  have hmark : parentMarked cst.cspaces st.1 ((cst.cspaces a.1).slots a.2) =
      some ((cst.parentOf a).any fun b => decide (b ∈ fs.1)) := parentMarked_eq htable h.1 a
  obtain ⟨set', hadd, hset'⟩ := h.1.add a
  by_cases ha : a ∈ fs.1
  · refine ⟨st, by simp [discoverAt, hhere, ha], ?_⟩
    rw [Lib.look, if_pos ha]
    exact h
  · rcases hp : cst.parentOf a with _ | b
    · refine ⟨st, by simp [discoverAt, hhere, ha, hmark, hp], ?_⟩
      rw [Lib.look, if_neg ha, hp]
      exact h
    · by_cases hb : b ∈ fs.1
      · refine ⟨(set', true), by simp [discoverAt, hhere, ha, hmark, hp, hb, hadd], ?_⟩
        rw [Lib.look, if_neg ha, hp]
        simp only [hb, if_true]
        exact ⟨hset', rfl⟩
      · refine ⟨st, by simp [discoverAt, hhere, ha, hmark, hp, hb], ?_⟩
        rw [Lib.look, if_neg ha, hp]
        simp only [hb, if_false]
        exact h

/-- A loop whose iterations are looks is a run of looks. -/
theorem foldlM_looks {cst : CapState} (htable : cst.ParentsInTable) (xs : List Place) :
    ∀ {st : RevokeSet × Bool} {fs : Finset Place × Bool}, Stands st fs →
      ∃ st', xs.foldlM (discoverAt cst.cspaces) st = some st' ∧
        Stands st' (xs.foldl (Lib.look cst.parentOf) fs) := by
  induction xs with
  | nil => intro st fs h; exact ⟨st, rfl, h⟩
  | cons a xs ih =>
    intro st fs h
    obtain ⟨st₁, h₁, hs₁⟩ := discoverAt_look htable h a
    obtain ⟨st₂, h₂, hs₂⟩ := ih hs₁
    exact ⟨st₂, by rw [List.foldlM_cons, h₁]; exact h₂, hs₂⟩

/-- The loop of `discover` is the scan to the fixpoint. -/
theorem discover_scan {cst : CapState} (htable : cst.ParentsInTable) :
    ∀ (fuel : ℕ) {set : RevokeSet} {S T : Finset Place}, set.Holds S →
      Lib.scan cst.parentOf places fuel S = some T →
      ∃ set', discover cst.cspaces fuel set = some set' ∧ set'.Holds T := by
  intro fuel
  induction fuel with
  | zero => intro set S T _ h; cases h
  | succ n ih =>
    intro set S T hset h
    have hstands : Stands (set, false) (S, false) := ⟨hset, rfl⟩
    obtain ⟨st, hst, hset', hflag⟩ := foldlM_looks htable places hstands
    obtain ⟨set', flag⟩ := st
    change flag = (Lib.pass cst.parentOf places S).2 at hflag
    rw [Lib.scan, ← hflag] at h
    rcases flag with _ | _
    · obtain rfl := Option.some.inj h
      obtain ⟨hsame, -⟩ := Lib.looks_lowered places (S, false) hflag.symm
      rw [hsame] at hset'
      exact ⟨set', by simp [discover, hst], hset'⟩
    · obtain ⟨set'', h'', hT⟩ := ih hset' h
      exact ⟨set'', by simp [discover, hst, h''], hT⟩

/-- **Discovery ends, indexes in bounds, and marks the descendants**: each pass marks the children
of what is marked, until one adds nothing. -/
theorem discover_spec {cst : CapState} (htable : cst.ParentsInTable) {set : RevokeSet}
    {a : Place} (hset : set.Holds {a}) :
    ∃ set' T, discover cst.cspaces discoverFuel set = some set' ∧ set'.Holds T ∧
      ∀ b, b ∈ T ↔ Descends cst.parentOf b a := by
  obtain ⟨T, hT⟩ := Lib.scan_isSome cst.parentOf places discoverFuel {a}
    (by rw [card_place, Finset.card_singleton]; decide)
  obtain ⟨set', hset', hhold⟩ := discover_scan htable discoverFuel hset hT
  refine ⟨set', T, hset', hhold, fun b => ?_⟩
  simpa using Lib.mem_scan_iff mem_places hT b

/-! ## Clearing

Slots are cleared one after another, and each clears one reference as well. The order does not
matter for what is left. -/

/-- Take `n` references to an object away, as `n` calls of `dec_refcount` do. -/
def dropRefs (n : ℕ) (o : Option KernelObject) : Option KernelObject :=
  (fun o => o.bind dropRef)^[n] o

theorem dropRefs_none (n : ℕ) : dropRefs n none = none := by
  induction n with
  | zero => rfl
  | succ n ih => exact ih

/-- The count goes down by `n`, and the object goes where it gets to zero. -/
theorem dropRefs_some (obj : KernelObject) :
    ∀ n, dropRefs n (some obj) =
      if n = 0 ∨ n < obj.refcount then some (obj.withRefcount (obj.refcount - n)) else none := by
  intro n
  induction n generalizing obj with
  | zero => simp [dropRefs]
  | succ n ih =>
    have hstep : dropRefs (n + 1) (some obj) = dropRefs n (dropRef obj) := rfl
    rw [hstep]
    by_cases hone : obj.refcount - 1 = 0
    · have hdrop : dropRef obj = none := if_pos hone
      rw [hdrop, dropRefs_none, if_neg (by omega)]
    · have hdrop : dropRef obj = some (obj.withRefcount (obj.refcount - 1)) := if_neg hone
      rw [hdrop, ih]
      simp only [KernelObject.refcount_withRefcount, KernelObject.withRefcount_withRefcount]
      by_cases hn : n + 1 < obj.refcount
      · rw [if_pos (by omega), if_pos (by omega), Nat.sub_sub, Nat.add_comm 1 n]
      · rw [if_neg (by omega), if_neg (by omega)]

/-- One iteration clears a marked occupied slot and nothing else. -/
theorem clearAt_eq {set : RevokeSet} {S : Finset Place} (hset : set.Holds S) (st : CapState)
    (a : Place) :
    clearAt set st a =
      some (if a ∈ S ∧ (st.capAt a).isEmpty = false
        then st.removeCap a saturatingSucc else st) := by
  rw [clearAt]
  rw [hset a]
  by_cases ha : a ∈ S
  · rcases hempty : (st.capAt a).isEmpty with _ | _ <;> simp [ha]
  · simp [ha]

/-- What removing a capability keeps, clearing keeps, by induction on the places. -/
theorem clear_keeps {I : CapState → Prop}
    (hI : ∀ st a, I st → (st.capAt a).isEmpty = false → I (st.removeCap a saturatingSucc))
    {set : RevokeSet} (xs : List Place) :
    ∀ {st st' : CapState}, I st → xs.foldlM (clearAt set) st = some st' → I st' := by
  induction xs with
  | nil =>
    intro st st' h h'
    obtain rfl := Option.some.inj h'
    exact h
  | cons a xs ih =>
    intro st st' h h'
    rw [List.foldlM_cons] at h'
    obtain ⟨st₁, h₁, h₂⟩ := Option.bind_eq_some_iff.mp h'
    refine ih ?_ h₂
    rw [clearAt] at h₁
    obtain ⟨marked, -, h₁⟩ := Option.bind_eq_some_iff.mp h₁
    split at h₁
    · obtain rfl := Option.some.inj h₁
      exact h
    · split at h₁
      · obtain rfl := Option.some.inj h₁
        exact h
      · rename_i hocc
        obtain rfl := Option.some.inj h₁
        exact hI st a h (by simpa using hocc)

/-- The slots among `xs` in `S` whose cap names an object. -/
def namedIn (st : CapState) (S : Finset Place) (k : ObjectKind) (i : ℕ) (xs : List Place) : ℕ :=
  xs.countP fun a => decide (a ∈ S ∧ (st.capAt a).kind = k ∧ (st.capAt a).poolIndex = i)

/-- What clearing the marked slots among `xs` does. -/
theorem clear_spec {set : RevokeSet} {S : Finset Place} (hset : set.Holds S) (xs : List Place) :
    ∀ (st : CapState), xs.Nodup → (∀ a ∈ xs, a ∈ S → (st.capAt a).isEmpty = false) →
      ∃ st', xs.foldlM (clearAt set) st = some st' ∧
        (∀ b, st'.capAt b = if b ∈ xs ∧ b ∈ S then Cap.empty else st.capAt b) ∧
        (∀ b, st'.genAt b = if b ∈ xs ∧ b ∈ S then saturatingSucc (st.genAt b) else st.genAt b) ∧
        (∀ k i, st'.objectPools.object? k i =
          dropRefs (namedIn st S k i xs) (st.objectPools.object? k i)) ∧
        st'.bootTier1Eps = st.bootTier1Eps := by
  induction xs with
  | nil => intro st _ _; exact ⟨st, rfl, by simp, by simp, fun _ _ => rfl, rfl⟩
  | cons a xs ih =>
    intro st hnodup hocc
    obtain ⟨ha, hnodup⟩ := List.nodup_cons.mp hnodup
    rw [List.foldlM_cons, clearAt_eq hset st a]
    by_cases haS : a ∈ S
    · have hne := hocc a List.mem_cons_self haS
      have hrest : ∀ b ∈ xs, (st.removeCap a saturatingSucc).capAt b = st.capAt b := by
        intro b hb
        have hba : b ≠ a := fun h => ha (h ▸ hb)
        rw [CapState.capAt_removeCap, if_neg hba]
      obtain ⟨st', hst', hcap, hgen, hobj, hboot⟩ := ih (st.removeCap a saturatingSucc) hnodup
        fun b hb hbS => by rw [hrest b hb]; exact hocc b (List.mem_cons_of_mem a hb) hbS
      rw [if_pos ⟨haS, hne⟩]
      refine ⟨st', hst', fun b => ?_, fun b => ?_, fun k i => ?_, hboot⟩
      · rw [hcap b, CapState.capAt_removeCap]
        by_cases hba : b = a
        · subst hba
          simp [ha, haS]
        · simp [hba]
      · rw [hgen b, CapState.genAt_removeCap]
        by_cases hba : b = a
        · subst hba
          simp [ha, haS]
        · simp [hba]
      · have hcount : namedIn (st.removeCap a saturatingSucc) S k i xs = namedIn st S k i xs :=
          List.countP_congr fun b hb => by rw [hrest b hb]
        rw [hobj k i, hcount, CapState.object?_removeCap, namedIn, namedIn, List.countP_cons]
        by_cases hnames : (st.capAt a).kind = k ∧ (st.capAt a).poolIndex = i
        · rw [if_pos ⟨hnames.1.symm, hnames.2.symm⟩]
          simp only [haS, hnames, and_self, decide_true, if_true]
          rfl
        · rw [if_neg fun h => hnames ⟨h.1.symm, h.2.symm⟩]
          simp [hnames]
    · obtain ⟨st', hst', hcap, hgen, hobj, hboot⟩ := ih st hnodup
        fun b hb => hocc b (List.mem_cons_of_mem a hb)
      rw [if_neg fun h => haS h.1]
      refine ⟨st', hst', fun b => ?_, fun b => ?_, fun k i => ?_, hboot⟩
      · rw [hcap b]
        by_cases hba : b = a
        · subst hba
          simp [haS]
        · simp [hba]
      · rw [hgen b]
        by_cases hba : b = a
        · subst hba
          simp [haS]
        · simp [hba]
      · rw [hobj k i, namedIn, namedIn, List.countP_cons]
        simp [haS]

/-! ## The cascade

Both loops together. -/

/-- The caps in `S` that name an object. -/
def clearedNaming (st : CapState) (S : Finset Place) (k : ObjectKind) (i : ℕ) : ℕ :=
  (S.filter fun a => (st.capAt a).kind = k ∧ (st.capAt a).poolIndex = i).card

theorem namedIn_places (st : CapState) (S : Finset Place) (k : ObjectKind) (i : ℕ) :
    namedIn st S k i places = clearedNaming st S k i := by
  rw [namedIn, clearedNaming]
  rw [List.countP_eq_length_filter, ← List.toFinset_card_of_nodup (nodup_places.filter _)]
  congr 1
  ext a
  simp [mem_places a]

/-- A slot that descends from an occupied slot is occupied. -/
theorem occupied_of_descends {st : CapState} {a b : Place} (h : Descends st.parentOf b a)
    (ha : (st.capAt a).isEmpty = false) : (st.capAt b).isEmpty = false := by
  rcases Relation.ReflTransGen.cases_head h with rfl | ⟨c, hc, -⟩
  · exact ha
  · exact (CapState.parentOf_eq_some.mp hc).1

/-- **The cascade clears exactly the descendants** of the place, each of them once. -/
theorem revoke_ok {st : CapState} (htable : st.ParentsInTable) {a : Place}
    (hocc : (st.capAt a).isEmpty = false) :
    ∃ st' S, revoke st (procByte a.1) (slotByte a.2) = some (.ok (), st') ∧
      (∀ b, b ∈ S ↔ Descends st.parentOf b a) ∧
      (∀ b, st'.capAt b = if b ∈ S then Cap.empty else st.capAt b) ∧
      (∀ b, st'.genAt b = if b ∈ S then saturatingSucc (st.genAt b) else st.genAt b) ∧
      (∀ k i, st'.objectPools.object? k i =
        dropRefs (clearedNaming st S k i) (st.objectPools.object? k i)) ∧
      st'.bootTier1Eps = st.bootTier1Eps := by
  obtain ⟨set₀, hadd, hset₀⟩ := RevokeSet.holds_empty.add a
  obtain ⟨set, S, hdisc, hset, hS⟩ := discover_spec htable hset₀
  obtain ⟨st', hclear, hcap, hgen, hobj, hboot⟩ := clear_spec hset places st nodup_places
    fun b _ hb => occupied_of_descends ((hS b).mp hb) hocc
  refine ⟨st', S, ?_, hS, fun b => ?_, fun b => ?_, fun k i => ?_, hboot⟩
  · simp [revoke, hocc, hadd, hdisc, clear, hclear]
  · rw [hcap b]
    simp [mem_places b]
  · rw [hgen b]
    simp [mem_places b]
  · rw [hobj k i, namedIn_places]

/-- The cascade does not refuse an occupied slot. -/
theorem revoke_not_error {st st' : CapState} {a : Place} {e : KernelError}
    (h : (st.capAt a).isEmpty = false) :
    revoke st (procByte a.1) (slotByte a.2) ≠ some (.error e, st') := by
  intro hrev
  simp only [revoke, procIndex?_procByte, slotIndex_slotByte, h, Bool.false_eq_true,
    if_false] at hrev
  obtain ⟨set₀, -, hrev⟩ := Option.bind_eq_some_iff.mp hrev
  obtain ⟨set, -, hrev⟩ := Option.bind_eq_some_iff.mp hrev
  obtain ⟨st₁, -, hrev⟩ := Option.bind_eq_some_iff.mp hrev
  cases hrev

/-- Whatever the parent references, a cascade that returns keeps what removing a
cap keeps. -/
theorem revoke_keeps {I : CapState → Prop}
    (hI : ∀ st a, I st → (st.capAt a).isEmpty = false → I (st.removeCap a saturatingSucc))
    {st st' : CapState} {procId slot : BitVec 8} {r : Except KernelError Unit}
    (h : revoke st procId slot = some (r, st')) (hst : I st) : I st' := by
  rw [revoke] at h
  split at h
  · obtain ⟨-, rfl⟩ := Prod.mk.inj (Option.some.inj h)
    exact hst
  · split at h
    · obtain ⟨-, rfl⟩ := Prod.mk.inj (Option.some.inj h)
      exact hst
    · obtain ⟨set₀, -, h⟩ := Option.bind_eq_some_iff.mp h
      obtain ⟨set, -, h⟩ := Option.bind_eq_some_iff.mp h
      obtain ⟨st₁, hclear, h⟩ := Option.bind_eq_some_iff.mp h
      obtain ⟨-, rfl⟩ := Prod.mk.inj (Option.some.inj h)
      exact clear_keeps hI places hst hclear

end Wari
