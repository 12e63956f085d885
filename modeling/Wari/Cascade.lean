import Wari.Tenants

/-!
# The cascade in reachable states

In every state the kernel reaches the cascade of `revoke` returns, stays inside
the tables and clears exactly the derivation descendants. That it also leaves
every count right needs the objects it lets go of to have been counted:
`cascade_exact` says that this is the only condition, and that it always holds
until a module is brought up.
-/

namespace Wari

open Lib (Machine Descends)

/-! ## What an exact cascade is

The descendants are a least set, defined without the loop that finds them. An exact cascade clears
these and takes off the counts what it cleared. -/

/-- The slots a cascade from `a` clears: the least set with `a` and, with a slot,
every slot whose live parent it is. -/
noncomputable def descendants (st : CapState) (a : Place) : Finset Place :=
  open Classical in Finset.univ.filter fun x => Descends st.parentOf x a

theorem mem_descendants {st : CapState} {a x : Place} :
    x ∈ descendants st a ↔ Descends st.parentOf x a := by
  simp [descendants]

/-- What is left of an object after `n` of the caps counted in it are gone. -/
def KernelObject.without (obj : KernelObject) (n : ℕ) : Option KernelObject :=
  if obj.refcount = n then none else some (obj.withRefcount (obj.refcount - n))

/-- **The cascade from `a` is exact**: it returns success, it empties the
descendants of `a` and bumps their generations, it takes from each object as many
references as it cleared caps naming it, and it leaves everything else alone. -/
structure ExactRevoke (st : CapState) (a : Place) : Prop where
  returns : ∃ st', revoke st (procByte a.1) (slotByte a.2) = some (.ok (), st') ∧
    (∀ x ∈ descendants st a, st'.capAt x = Cap.empty ∧
      st'.genAt x = saturatingSucc (st.genAt x)) ∧
    (∀ x, x ∉ descendants st a → st'.capAt x = st.capAt x ∧ st'.genAt x = st.genAt x) ∧
    (∀ k i, k.pooled = true → 0 < clearedNaming st (descendants st a) k i →
      ∃ obj, st.objectPools.object? k i = some obj ∧
        clearedNaming st (descendants st a) k i ≤ obj.refcount ∧
        st'.objectPools.object? k i = obj.without (clearedNaming st (descendants st a) k i)) ∧
    (∀ k i, clearedNaming st (descendants st a) k i = 0 →
      st'.objectPools.object? k i = st.objectPools.object? k i) ∧
    st'.bootTier1Eps = st.bootTier1Eps

/-- Each object the cascade from `a` clears caps of is there, and counts at least these caps. It
is a condition on the state before the call, and says nothing of the loop. -/
def Backed (st : CapState) (a : Place) : Prop :=
  ∀ k i, k.pooled = true → 0 < clearedNaming st (descendants st a) k i →
    ∃ obj, st.objectPools.object? k i = some obj ∧
      clearedNaming st (descendants st a) k i ≤ obj.refcount

/-- Counting down by `n` from at least `n`. -/
theorem dropRefs_of_le {obj : KernelObject} {n : ℕ} (hn : 0 < n) (hle : n ≤ obj.refcount) :
    dropRefs n (some obj) = obj.without n := by
  rw [dropRefs_some, KernelObject.without]
  by_cases heq : obj.refcount = n
  · rw [if_neg (by omega), if_pos heq]
  · rw [if_pos (by omega), if_neg heq]

/-- **Where parent references are in the table, a cascade is exact exactly where it is backed.**
Counting down stops at zero, so a count that was too small is wrong afterwards, and one that was
large enough is right. -/
theorem exactRevoke_iff {st : CapState} (htable : st.ParentsInTable) {a : Place}
    (hocc : (st.capAt a).isEmpty = false) : ExactRevoke st a ↔ Backed st a := by
  obtain ⟨st', S, hrev, hS, hcap, hgen, hobj, heps⟩ := revoke_ok htable hocc
  have hSd : S = descendants st a := by
    ext x
    rw [hS, mem_descendants]
  subst hSd
  constructor
  · rintro ⟨st₁, -, -, -, hcounts, -⟩ k i hk hpos
    obtain ⟨obj, hget, hle, -⟩ := hcounts k i hk hpos
    exact ⟨obj, hget, hle⟩
  · intro hbacked
    refine ⟨st', hrev, fun x hx => ?_, fun x hx => ?_, fun k i hk hpos => ?_, fun k i hzero => ?_,
      heps⟩
    · rw [hcap, if_pos hx, hgen, if_pos hx]
      exact ⟨rfl, rfl⟩
    · rw [hcap, if_neg hx, hgen, if_neg hx]
      exact ⟨rfl, rfl⟩
    · obtain ⟨obj, hget, hle⟩ := hbacked k i hk hpos
      refine ⟨obj, hget, hle, ?_⟩
      rw [hobj, hget, dropRefs_of_le hpos hle]
    · rw [hobj, hzero]
      rfl

/-- Under the law every cascade is backed: the count takes in all names, the
cleared ones among them. -/
theorem Law.backed {st : CapState} (h : Law st) (a : Place) : Backed st a := by
  intro k i hk hpos
  have hle : clearedNaming st (descendants st a) k i ≤ st.names k i :=
    Finset.card_le_card (Finset.filter_subset_filter _ (Finset.subset_univ _))
  have hlaw := refLaw_iff.mp (h k hk) i
  rw [countOf_pos (by omega), ObjectPools.refcount?, Option.map_eq_some_iff] at hlaw
  obtain ⟨obj, hget, hcount⟩ := hlaw
  exact ⟨obj, hget, by omega⟩

/-! ## Reachable states

Every count is at least the number of names as long as whatever names an object was counted when
it got there. Installations are where that fails. -/

/-- An installation leaves root capabilities only: none of them is derived from another. -/
theorem grantTable_parent (u x : ℕ) (granted : GrantSpec) (s : Slot) :
    (grantTable u x granted s).parent = CapId.root := by
  rw [grantTable]
  split
  · rfl
  · split
    · rfl
    · split <;> rfl

/-- The kernel keeps parent references in the table. -/
theorem parentsInTable_step {ed25519 : Ed25519} {k k' : Kernel} {c : KernelCall} (htidy : Tidy k)
    (htable : k.caps.ParentsInTable) (h : kernelStep ed25519 k c = some k') :
    k'.caps.ParentsInTable := by
  cases kernelStep_effect h with
  | capCall _ hstep hk' =>
    subst hk'
    exact (capStep_effect hstep).parentsInTable htable
  | @installed p granted _ hinst =>
    obtain ⟨hcap, -, -⟩ := hinst.capAt htidy.eps
    intro a hocc hroot
    rw [hcap] at hocc hroot ⊢
    by_cases hp : a.1 = p
    · rw [if_pos hp, grantTable_parent] at hroot
      cases hroot
    · rw [if_neg hp] at hocc hroot ⊢
      exact htable a hocc hroot
  | quiet _ hquiet =>
    rw [hquiet.caps]
    exact htable

theorem kernelMachine_table (ed25519 : Ed25519) (board : Board) :
    (kernelMachine ed25519 board).Always fun k => Tidy k ∧ k.caps.ParentsInTable := by
  refine Machine.always_of_step ?_ ?_
  · rintro k rfl
    exact ⟨tidy_booted board, parentsInTable_bootState board⟩
  · rintro k c k' ⟨htidy, htable⟩ h
    exact ⟨tidy_step htidy h, parentsInTable_step htidy htable h⟩

/-- A run that brings no module up keeps the law. -/
theorem law_of_run {ed25519 : Ed25519} {board : Board} {k k' : Kernel} {calls : List KernelCall}
    (hrun : (kernelMachine ed25519 board).Run k calls k') (hlaw : Law k.caps)
    (hno : (kernelMachine ed25519 board).Meets (fun k c => installs ed25519 k c = none) k calls) :
    Law k'.caps := by
  induction hrun with
  | nil => exact hlaw
  | cons hstep _ ih =>
    obtain ⟨hfirst, hrest⟩ := (Machine.along_cons hstep).mp hno
    exact ih (law_step hlaw hstep hfirst) hrest

/-- **The cascade, exactly.** In every state the kernel reaches from boot the
cascade from an occupied slot is exact if and only if it is backed; and it is, in
every state that a run which brings no module up leads to. -/
theorem cascade_exact (ed25519 : Ed25519) (board : Board) :
    ((kernelMachine ed25519 board).Always fun k =>
      ∀ a, (k.caps.capAt a).isEmpty = false → (ExactRevoke k.caps a ↔ Backed k.caps a)) ∧
    ∀ calls, (kernelMachine ed25519 board).Meets (fun k c => installs ed25519 k c = none)
        (.booted board) calls →
      ∀ k, (kernelMachine ed25519 board).Run (.booted board) calls k →
        ∀ a, (k.caps.capAt a).isEmpty = false → ExactRevoke k.caps a := by
  have htable := kernelMachine_table ed25519 board
  refine ⟨htable.mono fun k hk a hocc => exactRevoke_iff hk.2 hocc, ?_⟩
  intro calls hno k hrun a hocc
  have hreach : (kernelMachine ed25519 board).Reachable k := ⟨_, calls, rfl, hrun⟩
  have hlaw := law_of_run hrun (law_bootState board) hno
  exact (exactRevoke_iff (htable k hreach).2 hocc).mpr (hlaw.backed a)

/-! ## A cascade that takes more than was counted

The counted references are deleted first. What is left names the object, and clearing it takes the
count below zero, where it stops. -/

/-- A spawned module mints a child of its UART cap, and every cap that was
counted is deleted. -/
def overdrawCalls : List KernelCall :=
  spawnCalls ++ [.cap (.mint 5#8 0#32 10#32 2#32 0#32), .cap (.delete 1#8 0#32),
    .cap (.delete 2#8 0#32), .cap (.delete 3#8 0#32)]

set_option maxRecDepth 4000 in
/-- The endpoint counts one cap; the cascade clears two. -/
theorem overdraw_run : ∃ k,
    (kernelMachine emptyVerifier .qemu).Run (.booted .qemu) overdrawCalls k ∧
    (k.caps.capAt (5, 0)).kind = .endpoint ∧ (k.caps.capAt (5, 0)).poolIndex = 0 ∧
    (k.caps.capAt (5, 10)).kind = .endpoint ∧ (k.caps.capAt (5, 10)).poolIndex = 0 ∧
    k.caps.parentOf (5, 10) = some (5, 0) ∧ k.caps.objectPools.refcount? .endpoint 0 = some 1 :=
  ⟨_, .cons rfl (.cons rfl (.cons rfl (.cons rfl (.cons rfl (.cons rfl (.nil _)))))), rfl, rfl, rfl,
    rfl, rfl, rfl⟩

/-- **A cascade that is not exact.** The root capabilities of an installation are not counted, so
that revoking one of them takes a count that belongs to another. -/
theorem cascade_overdraws : ∃ k, (kernelMachine emptyVerifier .qemu).Reachable k ∧
    (k.caps.capAt (5, 0)).isEmpty = false ∧ ¬ ExactRevoke k.caps (5, 0) := by
  obtain ⟨k, hrun, hkind, hindex, hkind', hindex', hpar, hcount⟩ := overdraw_run
  have hreach : (kernelMachine emptyVerifier .qemu).Reachable k := ⟨_, _, rfl, hrun⟩
  have hocc : (k.caps.capAt (5, 0)).isEmpty = false :=
    Cap.isEmpty_eq_false_iff.mpr (by rw [hkind]; decide)
  refine ⟨k, hreach, hocc, fun hexact => ?_⟩
  have hbacked := (exactRevoke_iff (kernelMachine_table _ _ k hreach).2 hocc).mp hexact
  have htwo : ({(5, 0), (5, 10)} : Finset Place) ⊆ (descendants k.caps (5, 0)).filter
      fun a => (k.caps.capAt a).kind = .endpoint ∧ (k.caps.capAt a).poolIndex = 0 := by
    intro a ha
    simp only [Finset.mem_insert, Finset.mem_singleton] at ha
    rw [Finset.mem_filter, mem_descendants]
    rcases ha with rfl | rfl
    · exact ⟨.refl, hkind, hindex⟩
    · exact ⟨.single hpar, hkind', hindex'⟩
  have hcleared : 2 ≤ clearedNaming k.caps (descendants k.caps (5, 0)) .endpoint 0 :=
    (by decide : 2 ≤ ({(5, 0), (5, 10)} : Finset Place).card).trans (Finset.card_le_card htwo)
  obtain ⟨obj, hget, hle⟩ := hbacked .endpoint 0 rfl (by omega)
  rw [ObjectPools.refcount?, hget] at hcount
  have hone : obj.refcount = 1 := Option.some.inj hcount
  omega

end Wari
