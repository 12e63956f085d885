import Wari.History
import Mathlib.Data.Set.Card

/-!
# The objects a call frees

An object goes when a call takes away as many of its caps as it counts. Any other
object keeps all but its count, and none but a socket comes into being.
-/

namespace Wari

/-! ## What a call takes away

The caps of an object among the slots that the call empties, counted before it is made. -/

/-- The number of caps of an object that a call takes away. -/
noncomputable def CapState.losing (st : CapState) (c : CapCall) (k : ObjectKind) (i : ℕ) : ℕ :=
  {x | Vacates st c x ∧ (st.capAt x).kind = k ∧ (st.capAt x).poolIndex = i}.ncard

/-- The call takes away caps of the object, and at least as many as it counts. -/
def Releases (st : CapState) (c : CapCall) (k : ObjectKind) (i : ℕ) : Prop :=
  ∃ n, st.objectPools.refcount? k i = some n ∧ 0 < st.losing c k i ∧ n ≤ st.losing c k i

section Losing

variable {st : CapState} {c : CapCall} {k : ObjectKind} {i : ℕ}

theorem losing_eq_zero (h : ∀ x, Vacates st c x → (st.capAt x).kind = k →
    (st.capAt x).poolIndex ≠ i) : st.losing c k i = 0 := by
  rw [CapState.losing, Set.ncard_eq_zero, Set.eq_empty_iff_forall_notMem]
  rintro x ⟨hv, hkind, hindex⟩
  exact h x hv hkind hindex

/-- Where the call empties the places in `S`, it takes away the caps counted there. -/
theorem losing_eq_clearedNaming {S : Finset Place} (h : ∀ x, x ∈ S ↔ Vacates st c x) :
    st.losing c k i = clearedNaming st S k i := by
  rw [CapState.losing, clearedNaming, ← Set.ncard_coe_finset]
  congr 1
  ext x
  simp [h x]

/-- Where the call empties one place, it takes away the one cap there. -/
theorem losing_eq_hit {a : Place} (h : ∀ x, Vacates st c x ↔ x = a) :
    st.losing c k i = CapState.hit (st.capAt a) k i := by
  have hS := losing_eq_clearedNaming (k := k) (i := i) (S := {a}) fun x => by
    rw [h x, Finset.mem_singleton]
  rw [hS, clearedNaming, CapState.hit, Finset.filter_singleton]
  split <;> rfl

theorem not_releases_of_losing (h : st.losing c k i = 0) : ¬ Releases st c k i := by
  rintro ⟨n, -, hpos, -⟩
  omega

/-- Whether an object is released, where it is known. -/
theorem releases_iff {obj : KernelObject} (hobj : st.objectPools.object? k i = some obj) :
    Releases st c k i ↔ 0 < st.losing c k i ∧ obj.refcount ≤ st.losing c k i := by
  have hcount : st.objectPools.refcount? k i = some obj.refcount := by
    rw [ObjectPools.refcount?, hobj]
    rfl
  rw [Releases, hcount]
  simp

end Losing

/-! ## What becomes of an object

Whether an object goes can then be told before the call: it does where as many of its caps go as
it counts. -/

/-- What becomes of an object: it is there with another count, or it goes, which it does
exactly where it is released. -/
inductive Fate (st : CapState) (c : CapCall) (k : ObjectKind) (i : ℕ) (obj : KernelObject) :
    Option KernelObject → Prop where
  | kept (n : ℕ) (h : ¬ Releases st c k i) : Fate st c k i obj (some (obj.withRefcount n))
  | freed (h : Releases st c k i) : Fate st c k i obj none

section Fate

variable {st st' : CapState} {c : CapCall} {k : ObjectKind} {i : ℕ} {obj : KernelObject} {r : ℤ}

theorem Fate.same (h : st.losing c k i = 0) : Fate st c k i obj (some obj) := by
  have hself : Fate st c k i obj (some (obj.withRefcount obj.refcount)) :=
    .kept obj.refcount (not_releases_of_losing h)
  rwa [KernelObject.withRefcount_refcount] at hself

/-- Counted down by what the call takes away. -/
theorem Fate.of_dropRefs (hobj : st.objectPools.object? k i = some obj) :
    Fate st c k i obj (dropRefs (st.losing c k i) (some obj)) := by
  have hrel := releases_iff (c := c) hobj
  rw [dropRefs_some]
  split
  · rename_i hstay
    exact .kept _ fun h => by
      have := hrel.mp h
      omega
  · exact .freed (hrel.mpr (by omega))

/-- Filling an empty slot frees nothing, and counts at most one up. -/
theorem Fate.installCap {st₁ : CapState} {a : Place} {cap : Cap} (h : st.losing c k i = 0)
    (hobj : st₁.objectPools.object? k i = some obj) :
    Fate st c k i obj ((st₁.installCap a cap).objectPools.object? k i) := by
  rw [CapState.object?_installCap, hobj]
  split
  · exact .kept _ (not_releases_of_losing h)
  · exact .same h

/-- Removing one capability counts its object down, and frees it at zero. -/
theorem Fate.removeCap {a : Place} {f : BitVec 16 → BitVec 16}
    (hv : ∀ x, Vacates st c x ↔ x = a) (hobj : st.objectPools.object? k i = some obj) :
    Fate st c k i obj ((st.removeCap a f).objectPools.object? k i) := by
  have hdrop := Fate.of_dropRefs (c := c) hobj
  rw [losing_eq_hit hv, CapState.hit] at hdrop
  rw [CapState.object?_removeCap, hobj]
  by_cases hname : k = (st.capAt a).kind ∧ i = (st.capAt a).poolIndex
  · rw [if_pos ⟨hname.1.symm, hname.2.symm⟩] at hdrop
    rw [if_pos hname]
    exact hdrop
  · rw [if_neg fun h => hname ⟨h.1.symm, h.2.symm⟩] at hdrop
    rw [if_neg hname]
    exact hdrop

/-- **What a call makes of an object**: it stays with its count changed, or it goes. -/
theorem capStep_fate (htable : st.ParentsInTable) (h : capStep st c = some (r, st'))
    (hobj : st.objectPools.object? k i = some obj) :
    Fate st c k i obj (st'.objectPools.object? k i) := by
  have hnone : (∀ x, ¬ Vacates st c x) → st.losing c k i = 0 := fun hv =>
    losing_eq_zero fun x hx => (hv x hx).elim
  cases capStep_effect h with
  | refused =>
    rw [hobj]
    refine .same (hnone fun x hx => ?_)
    -- what the call empties is occupied before it, and not after it
    obtain ⟨hocc, hempty, -⟩ := capStep_vacates htable h hx
    rw [hempty] at hocc
    cases hocc
  | minted => exact .installCap (hnone fun _ hx => hx) hobj
  | copied => exact .installCap (hnone fun _ hx => hx) hobj
  | @socketCreated _ _ _ _ _ _ idx sockets _ _ _ _ halloc =>
    refine .installCap (hnone fun _ hx => hx) ?_
    obtain ⟨-, hfree, hget⟩ := Pool.alloc_ok halloc
    cases k with
    | socket =>
      have hne : i ≠ idx := by
        rintro rfl
        rw [ObjectPools.object?, hfree] at hobj
        cases hobj
      rw [ObjectPools.object?, CapState.withSockets, hget, if_neg hne]
      exact hobj
    | _ => exact hobj
  | @deleted slot p s hs hocc =>
    refine .removeCap (fun x => ⟨?_, fun hx => ⟨p, s, rfl, hs, hocc, hx⟩⟩) hobj
    rintro ⟨q, t, hq, ht, -, rfl⟩
    rw [procByte_inj hq, Option.some.inj (hs.symm.trans ht)]
  | @socketClosed slot driver p s _ sock hs hkind hsock =>
    refine .removeCap (fun x => ⟨?_, fun hx => ⟨p, s, rfl, hs, hkind, ⟨sock, hsock⟩, hx⟩⟩) hobj
    rintro ⟨q, t, hq, ht, -, -, rfl⟩
    rw [procByte_inj hq, Option.some.inj (hs.symm.trans ht)]
  | @revoked slot p s _ hs hocc hwrite hrevoke =>
    obtain ⟨st₁, S, hrev, hS, -, -, hobjects, -⟩ := revoke_ok htable (a := (p, s)) hocc
    obtain ⟨-, rfl⟩ := Prod.mk.inj (Option.some.inj (hrev.symm.trans hrevoke))
    have hcleared : ∀ x, x ∈ S ↔ Vacates st (.revoke (procByte p) slot) x := by
      intro x
      rw [hS]
      refine ⟨fun hx => ⟨p, s, rfl, hs, hocc, hwrite, hx⟩, ?_⟩
      rintro ⟨q, t, hq, ht, -, -, hd⟩
      rwa [procByte_inj hq, Option.some.inj (hs.symm.trans ht)]
    rw [hobjects, hobj, ← losing_eq_clearedNaming hcleared]
    exact .of_dropRefs hobj

/-- Filling a slot makes no object where there was none. -/
theorem object?_installCap_none {a : Place} {cap : Cap}
    (hnone : st.objectPools.object? k i = none) :
    (st.installCap a cap).objectPools.object? k i = none := by
  rw [CapState.object?_installCap, hnone]
  split <;> rfl

/-- Emptying a slot makes no object where there was none. -/
theorem object?_removeCap_none {a : Place} {f : BitVec 16 → BitVec 16}
    (hnone : st.objectPools.object? k i = none) :
    (st.removeCap a f).objectPools.object? k i = none := by
  rw [CapState.object?_removeCap, hnone]
  split <;> rfl

/-- **Only sockets come into being** in a call; objects of all other kinds are there from boot. -/
theorem capStep_absent (h : capStep st c = some (r, st')) (hk : k ≠ .socket)
    (hnone : st.objectPools.object? k i = none) : st'.objectPools.object? k i = none := by
  cases capStep_effect h with
  | refused => exact hnone
  | minted => exact object?_installCap_none hnone
  | copied => exact object?_installCap_none hnone
  | deleted => exact object?_removeCap_none hnone
  | socketClosed => exact object?_removeCap_none hnone
  | revoked _ _ _ hrevoke =>
    exact revoke_keeps (I := fun s => s.objectPools.object? k i = none)
      (fun _ _ hs _ => object?_removeCap_none hs) hrevoke hnone
  | socketCreated =>
    apply object?_installCap_none
    cases k with
    | socket => exact (hk rfl).elim
    | _ => exact hnone

/-- A socket keeps all but its count, unless it is released. -/
theorem socket_fate {sock : Socket} (htable : st.ParentsInTable)
    (h : capStep st c = some (r, st')) (hsock : st.objectPools.sockets.get i = some sock) :
    (¬ Releases st c .socket i ∧
      ∃ n, st'.objectPools.sockets.get i = some { sock with refcount := n }) ∨
    (Releases st c .socket i ∧ st'.objectPools.sockets.get i = none) := by
  have hobj : st.objectPools.object? .socket i = some (.socket sock) := by
    rw [ObjectPools.object?, hsock]
    rfl
  have hfate := capStep_fate htable h hobj
  generalize ho : st'.objectPools.object? .socket i = o at hfate
  rw [ObjectPools.object?] at ho
  cases hfate with
  | kept n hno =>
    obtain ⟨sock', hget, hsame⟩ := Option.map_eq_some_iff.mp ho
    obtain rfl : sock' = { sock with refcount := n } := KernelObject.socket.inj hsame
    exact .inl ⟨hno, n, hget⟩
  | freed hrel => exact .inr ⟨hrel, Option.map_eq_none_iff.mp ho⟩

/-- Only `net_socket_create` makes a socket, and on the NIC of the caller's Net cap. -/
theorem socket_born {sock : Socket} (h : capStep st c = some (r, st'))
    (hnone : st.objectPools.sockets.get i = none)
    (hsock : st'.objectPools.sockets.get i = some sock) :
    ∃ p proto slotForCap driver, c = .socketCreate (procByte p) proto slotForCap driver ∧
      (st.capAt (p, slotNet)).kind = .net ∧ sock.netIdx = (st.capAt (p, slotNet)).poolIndex := by
  have hobj : st.objectPools.object? .socket i = none := by
    rw [ObjectPools.object?, hnone]
    rfl
  have hobj' : st'.objectPools.object? .socket i = some (.socket sock) := by
    rw [ObjectPools.object?, hsock]
    rfl
  have hkept : st'.objectPools.object? .socket i ≠ none := by
    rw [hobj']
    exact Option.some_ne_none _
  cases capStep_effect h with
  | refused => exact absurd hobj hkept
  | minted => exact absurd (object?_installCap_none hobj) hkept
  | copied => exact absurd (object?_installCap_none hobj) hkept
  | deleted => exact absurd (object?_removeCap_none hobj) hkept
  | socketClosed => exact absurd (object?_removeCap_none hobj) hkept
  | revoked _ _ _ hrevoke =>
    exact absurd (revoke_keeps (I := fun s => s.objectPools.object? .socket i = none)
      (fun _ _ hs _ => object?_removeCap_none hs) hrevoke hobj) hkept
  | @socketCreated proto slotForCap driver p t handle idx sockets ht hnet _ _ halloc =>
    obtain ⟨-, -, hget⟩ := Pool.alloc_ok halloc
    refine ⟨p, proto, slotForCap, driver, rfl, hnet, ?_⟩
    have hnew : (sockets.incRefcount idx).get i = some sock := hsock
    rw [Pool.get_incRefcount, hget, hget, if_pos rfl] at hnew
    split at hnew
    · rw [← Option.some.inj hnew]
      rfl
    · rw [hnone] at hnew
      cases hnew

end Fate

/-! ## Counts that fall short

A root capability that was not counted makes a count too small, never too large. -/

/-- Every object of kind `k` counts some of its caps, and no more than there are. -/
def Within (st : CapState) (k : ObjectKind) : Prop :=
  ∀ i n, st.objectPools.refcount? k i = some n → 0 < n ∧ n ≤ st.names k i

section Within

variable {st st' : CapState} {k : ObjectKind}

theorem RefLaw.within (h : RefLaw st k) : Within st k := by
  intro i n hn
  rw [refLaw_iff.mp h i, countOf] at hn
  split at hn
  · cases hn
  · obtain rfl := Option.some.inj hn
    omega

theorem Within.installCap (hk : k ≠ .empty) (h : Within st k) {a : Place}
    (ha : (st.capAt a).isEmpty = true) (cap : Cap) : Within (st.installCap a cap) k := by
  intro i n hn
  rw [refcount?_installCap] at hn
  rw [names_installCap st ha cap hk, CapState.hit]
  split at hn
  · rename_i hname
    obtain ⟨m, hm, rfl⟩ := Option.map_eq_some_iff.mp hn
    obtain ⟨hpos, hle⟩ := h i m hm
    have hmax : 0 < u16Max := by decide
    rw [if_pos ⟨hname.1.symm, hname.2.symm⟩]
    omega
  · obtain ⟨hpos, hle⟩ := h i n hn
    omega

theorem Within.removeCap (hk : k ≠ .empty) (h : Within st k) (a : Place)
    (f : BitVec 16 → BitVec 16) : Within (st.removeCap a f) k := by
  intro i n hn
  have hnames := names_removeCap st a f hk i
  rw [refcount?_removeCap] at hn
  rw [CapState.hit] at hnames
  split at hn
  · rename_i hname
    obtain ⟨m, hm, hcount⟩ := Option.bind_eq_some_iff.mp hn
    obtain ⟨hpos, hle⟩ := h i m hm
    rw [countOf] at hcount
    rw [if_pos ⟨hname.1.symm, hname.2.symm⟩] at hnames
    split at hcount
    · cases hcount
    · obtain rfl := Option.some.inj hcount
      omega
  · rename_i hname
    obtain ⟨hpos, hle⟩ := h i n hn
    rw [if_neg fun h => hname ⟨h.1.symm, h.2.symm⟩] at hnames
    omega

/-- **A call counts no capability that is not there**, so that counts never exceed the names. -/
theorem CapEffect.within {c : CapCall} {r : ℤ} (h : CapEffect st c r st') (hk : k ≠ .empty)
    (hsock : k ≠ .socket) (hw : Within st k) : Within st' k := by
  cases h with
  | refused => exact hw
  | minted _ _ hd => exact hw.installCap hk hd.dst _
  | copied _ _ hd => exact hw.installCap hk hd.dst _
  | revoked _ _ _ hrevoke =>
    exact revoke_keeps (I := fun s => Within s k) (fun _ a hs _ => hs.removeCap hk a _) hrevoke hw
  | deleted => exact hw.removeCap hk _ _
  | @socketCreated _ _ _ _ _ _ _ sockets _ _ _ hdst =>
    have hw' : Within (st.withSockets sockets) k := by
      intro i n hn
      refine hw i n ?_
      cases k with
      | socket => exact (hsock rfl).elim
      | _ => exact hn
    exact hw'.installCap hk hdst _
  | socketClosed => exact hw.removeCap hk _ _

end Within

end Wari
