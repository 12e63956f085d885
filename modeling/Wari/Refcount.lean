import Wari.Boot
import Wari.Lib.Machine

/-!
# Reference counts are exact under the capability syscalls

`RefLaw st k` says of the objects of kind `k` that one is allocated exactly where
some slot names it, and that it counts the slots that do. Installing a second
name for a named object keeps the law, and so does removing a name; every syscall
is made of these two, so every sequence of them keeps the law, whatever the
arguments and whatever the net driver replies.
-/

namespace Wari

open Lib (Machine)

/-! ## The law

Said for one kind at a time, since a syscall concerns one or two kinds. -/

/-- The reference count law for the objects of one kind: an object is allocated exactly where some
slot names it, and then its count is the number of slots that do. -/
structure RefLaw (st : CapState) (k : ObjectKind) : Prop where
  /-- allocated exactly where some slot of some process names it -/
  allocated : ∀ i, (st.objectPools.object? k i).isSome = true ↔
    ∃ a, (st.capAt a).kind = k ∧ (st.capAt a).poolIndex = i
  /-- the count is the number of such slots -/
  counted : ∀ i obj, st.objectPools.object? k i = some obj → obj.refcount = st.names k i

/-- The kinds that are refcounted and in use. -/
def refcountedKinds : List ObjectKind := [.notification, .endpoint, .net, .socket]

/-- A state in which every refcounted kind obeys the law. -/
def Good (st : CapState) : Prop := ∀ k ∈ refcountedKinds, RefLaw st k

/-- The count of an object with `n` names: none at all where nothing names it. -/
def countOf (n : ℕ) : Option ℕ := if n = 0 then none else some n

@[simp] theorem countOf_zero : countOf 0 = none := rfl

theorem countOf_pos {n : ℕ} (h : 0 < n) : countOf n = some n := if_neg (by omega)

/-- The law as one equation for each index. -/
theorem refLaw_iff {st : CapState} {k : ObjectKind} :
    RefLaw st k ↔ ∀ i, st.objectPools.refcount? k i = countOf (st.names k i) := by
  constructor
  · intro h i
    rcases hobj : st.objectPools.object? k i with _ | obj
    · have hnone : st.names k i = 0 := by
        by_contra hpos
        have hname := CapState.names_pos.mp (Nat.pos_of_ne_zero hpos)
        have hsome := (h.allocated i).mpr hname
        rw [hobj] at hsome
        cases hsome
      rw [ObjectPools.refcount?, hobj, hnone]
      rfl
    · have hname := (h.allocated i).mp (by rw [hobj]; rfl)
      rw [ObjectPools.refcount?, hobj, countOf_pos (CapState.names_pos.mpr hname),
        ← h.counted i obj hobj]
      rfl
  · intro h
    refine ⟨fun i => ?_, fun i obj hobj => ?_⟩
    · rw [← CapState.names_pos]
      have hi := h i
      rcases hobj : st.objectPools.object? k i with _ | obj
      · rw [ObjectPools.refcount?, hobj] at hi
        have hzero : st.names k i = 0 := by
          by_contra hpos
          rw [countOf_pos (Nat.pos_of_ne_zero hpos)] at hi
          cases hi
        simp [hzero]
      · rw [ObjectPools.refcount?, hobj] at hi
        have hpos : st.names k i ≠ 0 := by
          intro hzero
          rw [hzero] at hi
          cases hi
        simp [Nat.pos_of_ne_zero hpos]
    · have hi := h i
      rw [ObjectPools.refcount?, hobj] at hi
      have hpos : st.names k i ≠ 0 := by
        intro hzero
        rw [hzero] at hi
        cases hi
      rw [countOf_pos (Nat.pos_of_ne_zero hpos)] at hi
      exact Option.some.inj hi

/-- Under the law no capability dangles: whatever is named is there. -/
theorem RefLaw.object_of_name {st : CapState} {k : ObjectKind} (h : RefLaw st k) {a : Place}
    (ha : (st.capAt a).kind = k) :
    ∃ obj, st.objectPools.object? k (st.capAt a).poolIndex = some obj :=
  Option.isSome_iff_exists.mp ((h.allocated _).mpr ⟨a, ha, rfl⟩)

/-! ## Counts after one write

The names of an object move by one where a slot is filled or emptied. -/

theorem map_refcount_addRef (o : Option KernelObject) :
    (o.map addRef).map KernelObject.refcount =
      (o.map KernelObject.refcount).map fun n => min (n + 1) u16Max := by
  rcases o with _ | obj
  · rfl
  · exact congrArg some (KernelObject.refcount_withRefcount obj _)

theorem map_refcount_dropRef (o : Option KernelObject) :
    (o.bind dropRef).map KernelObject.refcount =
      (o.map KernelObject.refcount).bind fun n => countOf (n - 1) := by
  rcases o with _ | obj
  · rfl
  · change (dropRef obj).map _ = countOf (obj.refcount - 1)
    rw [countOf]
    by_cases hzero : obj.refcount - 1 = 0
    · rw [if_pos hzero, show dropRef obj = none from if_pos hzero]
      rfl
    · rw [if_neg hzero, show dropRef obj = some (obj.withRefcount (obj.refcount - 1)) from
        if_neg hzero]
      exact congrArg some (KernelObject.refcount_withRefcount obj _)

theorem refcount?_installCap (st : CapState) (a : Place) (cap : Cap) (k : ObjectKind) (i : ℕ) :
    (st.installCap a cap).objectPools.refcount? k i =
      if k = cap.kind ∧ i = cap.poolIndex then
        (st.objectPools.refcount? k i).map fun n => min (n + 1) u16Max
      else st.objectPools.refcount? k i := by
  rw [ObjectPools.refcount?]
  rw [CapState.object?_installCap]
  split
  · exact map_refcount_addRef _
  · rfl

theorem refcount?_removeCap (st : CapState) (a : Place) (f : BitVec 16 → BitVec 16)
    (k : ObjectKind) (i : ℕ) :
    (st.removeCap a f).objectPools.refcount? k i =
      if k = (st.capAt a).kind ∧ i = (st.capAt a).poolIndex then
        (st.objectPools.refcount? k i).bind fun n => countOf (n - 1)
      else st.objectPools.refcount? k i := by
  rw [ObjectPools.refcount?]
  rw [CapState.object?_removeCap]
  split
  · exact map_refcount_dropRef _
  · rfl

@[simp] theorem CapState.hit_empty {k : ObjectKind} (hk : k ≠ .empty) (i : ℕ) :
    CapState.hit Cap.empty k i = 0 :=
  if_neg fun h => hk h.1.symm

/-- An empty slot names nothing. -/
theorem CapState.hit_of_isEmpty {c : Cap} (h : c.isEmpty = true) {k : ObjectKind}
    (hk : k ≠ .empty) (i : ℕ) : CapState.hit c k i = 0 :=
  if_neg fun hc => hk (hc.1.symm.trans (Cap.isEmpty_iff.mp h))

theorem names_installCap (st : CapState) {a : Place} (ha : (st.capAt a).isEmpty = true) (cap : Cap)
    {k : ObjectKind} (hk : k ≠ .empty) (i : ℕ) :
    (st.installCap a cap).names k i = st.names k i + CapState.hit cap k i := by
  have h := @CapState.names_change st (st.installCap a cap) a
    (fun b hb => by rw [CapState.capAt_installCap, if_neg hb]) k i
  rwa [CapState.capAt_installCap, if_pos rfl, CapState.hit_of_isEmpty ha hk, Nat.add_zero] at h

theorem names_removeCap (st : CapState) (a : Place) (f : BitVec 16 → BitVec 16)
    {k : ObjectKind} (hk : k ≠ .empty) (i : ℕ) :
    (st.removeCap a f).names k i + CapState.hit (st.capAt a) k i = st.names k i := by
  have h := @CapState.names_change st (st.removeCap a f) a
    (fun b hb => by rw [CapState.capAt_removeCap, if_neg hb]) k i
  rwa [CapState.capAt_removeCap, if_pos rfl, CapState.hit_empty hk, Nat.add_zero] at h

/-- The slot that names an object is one of its names. -/
theorem names_pos_of_slot (st : CapState) (a : Place) :
    0 < st.names (st.capAt a).kind (st.capAt a).poolIndex :=
  CapState.names_pos.mpr ⟨a, rfl, rfl⟩

/-- The source of a derivation names the object of its child. -/
theorem Derives.named {st : CapState} {p : Proc} {s t : Slot} {child : Cap}
    (h : Derives st p s t child) : 0 < st.names child.kind child.poolIndex := by
  rw [h.kind, h.index]
  exact names_pos_of_slot st (p, s)

/-! ## What keeps the law

Each write to a slot comes with a count up or down, in one order or the other. The sum is right if
the object was there and its count did not stop at an end. -/

/-- **A second name.** Installing a cap for an object some slot names already
keeps the law: the count cannot saturate, there being 4096 slots. -/
theorem RefLaw.installCap {st : CapState} {k : ObjectKind} (hk : k ≠ .empty) (h : RefLaw st k)
    {a : Place} (ha : (st.capAt a).isEmpty = true) {cap : Cap}
    (hnamed : 0 < st.names cap.kind cap.poolIndex) : RefLaw (st.installCap a cap) k := by
  rw [refLaw_iff] at h ⊢
  intro i
  rw [refcount?_installCap, names_installCap st ha cap hk, h i]
  by_cases hc : k = cap.kind ∧ i = cap.poolIndex
  · obtain ⟨rfl, rfl⟩ := hc
    have hle : st.names cap.kind cap.poolIndex + 1 ≤ u16Max :=
      (Nat.succ_le_succ (st.names_le cap.kind cap.poolIndex)).trans (by decide)
    rw [if_pos ⟨rfl, rfl⟩, countOf_pos hnamed, CapState.hit, if_pos ⟨rfl, rfl⟩,
      countOf_pos (by omega), Option.map_some, Nat.min_eq_left hle]
  · rw [if_neg hc, CapState.hit, if_neg fun h => hc ⟨h.1.symm, h.2.symm⟩, Nat.add_zero]

/-- **A name less.** Removing a cap keeps the law: the object goes exactly when
its last name does. -/
theorem RefLaw.removeCap {st : CapState} {k : ObjectKind} (hk : k ≠ .empty) (h : RefLaw st k)
    (a : Place) (f : BitVec 16 → BitVec 16) : RefLaw (st.removeCap a f) k := by
  rw [refLaw_iff] at h ⊢
  intro i
  have hnames := names_removeCap st a f hk i
  rw [refcount?_removeCap, h i]
  by_cases hc : k = (st.capAt a).kind ∧ i = (st.capAt a).poolIndex
  · obtain ⟨rfl, rfl⟩ := hc
    have hpos := names_pos_of_slot st a
    rw [CapState.hit, if_pos ⟨rfl, rfl⟩] at hnames
    rw [if_pos ⟨rfl, rfl⟩, countOf_pos hpos, Option.bind_some,
      show st.names (st.capAt a).kind (st.capAt a).poolIndex - 1 =
        (st.removeCap a f).names (st.capAt a).kind (st.capAt a).poolIndex by omega]
  · rw [CapState.hit, if_neg fun h => hc ⟨h.1.symm, h.2.symm⟩, Nat.add_zero] at hnames
    rw [if_neg hc, hnames]

/-- **A first name.** Allocating a socket and installing the one cap for it
keeps the law. -/
theorem RefLaw.createSocket {st : CapState} {k : ObjectKind} (hk : k ≠ .empty) (h : RefLaw st k)
    (hsock : RefLaw st .socket) {netIdx : ℕ} {handle : BitVec 32} {idx : ℕ}
    {sockets : Pool Socket 256}
    (halloc : st.objectPools.sockets.alloc (Socket.new netIdx handle) = .ok (idx, sockets))
    {a : Place} (ha : (st.capAt a).isEmpty = true) {cap : Cap} (hkind : cap.kind = .socket)
    (hindex : cap.poolIndex = idx) : RefLaw ((st.withSockets sockets).installCap a cap) k := by
  obtain ⟨-, hfree, hget⟩ := Pool.alloc_ok halloc
  rw [refLaw_iff] at h hsock ⊢
  intro i
  have hnames : (st.withSockets sockets).names k i = st.names k i := rfl
  rw [refcount?_installCap, names_installCap (st.withSockets sockets) ha cap hk, hnames]
  by_cases hc : k = cap.kind ∧ i = cap.poolIndex
  · obtain ⟨rfl, rfl⟩ := hc
    subst hindex
    have hnone : st.names cap.kind cap.poolIndex = 0 := by
      by_contra hpos
      have hlaw := hsock cap.poolIndex
      have hobj : st.objectPools.refcount? .socket cap.poolIndex = none := by
        rw [ObjectPools.refcount?, ObjectPools.object?, hfree]
        rfl
      rw [hkind] at hpos
      rw [hobj, countOf_pos (Nat.pos_of_ne_zero hpos)] at hlaw
      cases hlaw
    have hnew : (st.withSockets sockets).objectPools.refcount? cap.kind cap.poolIndex = some 0 := by
      rw [hkind, ObjectPools.refcount?, ObjectPools.object?, CapState.withSockets, hget,
        if_pos rfl]
      rfl
    rw [if_pos ⟨rfl, rfl⟩, hnew, hnone, CapState.hit, if_pos ⟨rfl, rfl⟩]
    rfl
  · have hsame : (st.withSockets sockets).objectPools.refcount? k i =
        st.objectPools.refcount? k i := by
      rw [ObjectPools.refcount?]
      cases k with
      | socket =>
        have hi : i ≠ idx := fun hi => hc ⟨hkind.symm, hi.trans hindex.symm⟩
        rw [ObjectPools.object?, CapState.withSockets, hget, if_neg hi]
        rfl
      | _ => rfl
    rw [if_neg hc, hsame, h i, CapState.hit, if_neg fun h => hc ⟨h.1.symm, h.2.symm⟩, Nat.add_zero]

theorem ne_empty_of_mem {k : ObjectKind} (h : k ∈ refcountedKinds) : k ≠ .empty := by
  rintro rfl
  simp [refcountedKinds] at h

/-- **One syscall keeps the law**, whatever it returns: each slot that is filled or emptied is
counted, and no other. -/
theorem CapEffect.refLaw {st st' : CapState} {c : CapCall} {r : ℤ} (h : CapEffect st c r st')
    {k : ObjectKind} (hk : k ≠ .empty) (hsock : RefLaw st .socket) (hlaw : RefLaw st k) :
    RefLaw st' k := by
  cases h with
  | refused => exact hlaw
  | minted _ _ hd => exact hlaw.installCap hk hd.dst hd.named
  | copied _ _ hd => exact hlaw.installCap hk hd.dst hd.named
  | revoked _ _ _ hrevoke =>
    exact revoke_keeps (I := fun st => RefLaw st k) (fun st a hst _ => hst.removeCap hk a _)
      hrevoke hlaw
  | deleted => exact hlaw.removeCap hk _ _
  | socketCreated _ _ _ hdst halloc => exact hlaw.createSocket hk hsock halloc hdst rfl rfl
  | socketClosed => exact hlaw.removeCap hk _ _

theorem CapEffect.good {st st' : CapState} {c : CapCall} {r : ℤ} (h : CapEffect st c r st')
    (hgood : Good st) : Good st' := fun k hk =>
  h.refLaw (ne_empty_of_mem hk) (hgood .socket (by simp [refcountedKinds])) (hgood k hk)

/-- **Boot obeys the law**: it counts by hand what it installs, and counts
right. -/
theorem refLaw_bootState (board : Board) {k : ObjectKind} (hk : k.pooled = true) :
    RefLaw (bootState board) k := by
  have hne : k ≠ .empty := by
    rintro rfl
    cases hk
  rw [refLaw_iff]
  intro i
  rw [names_bootState board hne, ObjectPools.refcount?, object?_bootState]
  cases k with
  | empty => cases hk
  | eventLog => cases hk
  | notification =>
    match i with
    | 0 => rfl
    | j + 1 => rfl
  | endpoint =>
    match i with
    | 0 => rfl
    | 1 => rfl
    | 2 => rfl
    | j + 3 => rfl
  | net =>
    match i with
    | 0 => rfl
    | j + 1 => rfl
  | socket => rfl
  | frame => rfl
  | untyped => rfl

theorem good_bootState (board : Board) : Good (bootState board) := by
  intro k hk
  refine refLaw_bootState board ?_
  simp only [refcountedKinds, List.mem_cons, List.not_mem_nil, or_false] at hk
  rcases hk with rfl | rfl | rfl | rfl <;> rfl

/-! ## No call fails to return

The cascade indexes by the process byte of a parent reference, and would panic at one past the
table. No reference is. -/

/-- A write that points a parent reference into the table keeps them there. -/
theorem CapState.ParentsInTable.installCap {st : CapState} (h : st.ParentsInTable) {a : Place}
    {cap : Cap} (hcap : cap.parent.isRoot = false → ∃ b, cap.parent.place? = some b) :
    (st.installCap a cap).ParentsInTable := by
  intro b hocc hroot
  rw [CapState.capAt_installCap] at hocc hroot ⊢
  split at hocc
  · rename_i hb
    rw [if_pos hb] at hroot ⊢
    exact hcap hroot
  · rename_i hb
    rw [if_neg hb] at hroot ⊢
    exact h b hocc hroot

theorem CapState.ParentsInTable.removeCap {st : CapState} (h : st.ParentsInTable) (a : Place)
    (f : BitVec 16 → BitVec 16) : (st.removeCap a f).ParentsInTable := by
  intro b hocc hroot
  rw [CapState.capAt_removeCap] at hocc hroot ⊢
  split at hocc
  · cases hocc
  · rename_i hb
    rw [if_neg hb] at hroot ⊢
    exact h b hocc hroot

/-- One syscall keeps parent references in the table. -/
theorem CapEffect.parentsInTable {st st' : CapState} {c : CapCall} {r : ℤ}
    (h : CapEffect st c r st') (htable : st.ParentsInTable) : st'.ParentsInTable := by
  cases h with
  | refused => exact htable
  | @minted _ _ _ _ p s _ _ _ _ _ hparent =>
    refine htable.installCap fun _ => ⟨(p, s), ?_⟩
    rw [hparent, CapId.place?_ofPlace]
  | copied _ _ hd hparent =>
    refine htable.installCap fun hroot => ?_
    rw [hparent] at hroot ⊢
    exact htable _ hd.src hroot
  | revoked _ _ _ hrevoke =>
    exact revoke_keeps (I := CapState.ParentsInTable) (fun st a hst _ => hst.removeCap a _)
      hrevoke htable
  | deleted => exact htable.removeCap _ _
  | @socketCreated _ _ _ p _ _ _ sockets =>
    have htable' : (st.withSockets sockets).ParentsInTable := htable
    refine htable'.installCap fun _ => ⟨(p, slotNet), ?_⟩
    exact CapId.place?_ofPlace (p, slotNet) (st.genAt (p, slotNet))
  | socketClosed => exact htable.removeCap _ _

theorem capRevokeImpl_isSome {st : CapState} (htable : st.ParentsInTable) (b : BitVec 8)
    (slot : BitVec 32) : ∃ r st', capRevokeImpl st b slot = some (r, st') := by
  rw [capRevokeImpl]
  split
  · exact ⟨_, _, rfl⟩
  · rename_i p hp
    obtain rfl := procByte_of_procIndex? hp
    split
    · exact ⟨_, _, rfl⟩
    · rename_i s hs
      split
      · exact ⟨_, _, rfl⟩
      · rename_i hocc
        split
        · exact ⟨_, _, rfl⟩
        · obtain ⟨st', S, hrev, -⟩ := revoke_ok htable (a := (p, s)) (by simpa using hocc)
          rw [hrev]
          exact ⟨_, _, rfl⟩

/-- Every call returns where parent references are in the table. -/
theorem capStep_isSome {st : CapState} (htable : st.ParentsInTable) (c : CapCall) :
    ∃ r st', capStep st c = some (r, st') := by
  cases c with
  | revoke b slot => exact capRevokeImpl_isSome htable b slot
  | _ => exact ⟨_, _, rfl⟩

/-! ## Runs

Syscalls only. Boot's state is good, and so is any that a run of syscalls leads to. -/

/-- The capability system under its syscalls, from any good state. -/
def capMachine : Machine CapState CapCall where
  init := Good
  step st c := (capStep st c).map Prod.snd

theorem capMachine_step {st st' : CapState} {c : CapCall} (h : capMachine.step st c = some st') :
    ∃ r, CapEffect st c r st' := by
  obtain ⟨⟨r, st''⟩, hstep, rfl⟩ := Option.map_eq_some_iff.mp h
  exact ⟨r, capStep_effect hstep⟩

/-- From a state whose parent references are in the table every sequence of
calls runs to its end. -/
theorem capMachine_run (calls : List CapCall) :
    ∀ {st : CapState}, st.ParentsInTable → ∃ st', capMachine.Run st calls st' := by
  induction calls with
  | nil => intro st _; exact ⟨st, .nil st⟩
  | cons c calls ih =>
    intro st htable
    obtain ⟨r, st₁, hstep⟩ := capStep_isSome htable c
    obtain ⟨st₂, hrun⟩ := ih ((capStep_effect hstep).parentsInTable htable)
    exact ⟨st₂, .cons (by simp [capMachine, hstep]) hrun⟩

/-- **Reference counts are exact.** From every good state, whatever sequence of
capability syscalls is made, by whatever processes and with whatever arguments
and driver replies: the state it leads to is good. Where parent references point
into the process table, as those the syscalls record do, every sequence does lead
to a state. -/
theorem refcounts_exact (st : CapState) (hgood : Good st) (calls : List CapCall) :
    (∀ st', capMachine.Run st calls st' → Good st') ∧
      (st.ParentsInTable → ∃ st', capMachine.Run st calls st') := by
  refine ⟨fun st' hrun => ?_, fun htable => capMachine_run calls htable⟩
  refine hrun.keeps (I := Good) (fun s c t hs hstep => ?_) hgood
  obtain ⟨r, heffect⟩ := capMachine_step hstep
  exact heffect.good hs

/-- A mint, a deletion of its source and a cascade, from boot. -/
theorem refcounts_exact_boot :
    ∃ st', capMachine.Run (bootState .qemu)
      [.mint 2#8 3#32 10#32 3#32 0#32, .delete 2#8 3#32, .revoke 2#8 10#32] st' ∧ Good st' := by
  obtain ⟨hkeeps, hruns⟩ := refcounts_exact (bootState .qemu) (good_bootState .qemu)
    [.mint 2#8 3#32 10#32 3#32 0#32, .delete 2#8 3#32, .revoke 2#8 10#32]
  obtain ⟨st', hrun⟩ := hruns (parentsInTable_bootState .qemu)
  exact ⟨st', hrun, hkeeps st' hrun⟩

end Wari
