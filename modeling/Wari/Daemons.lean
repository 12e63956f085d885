import Mathlib.Algebra.BigOperators.Group.Finset.Basic
import Wari.Registrar

/-!
# Restart budgets

A slot is spawned once, on terms. Its instances are the processes that were ever brought up
from it. There is never more than one of them that is not over, there are never more than the
budget allows, and when the last of a daemon's is over, that is recorded once.
-/

namespace Wari

open Lib (Machine)

namespace Kernel

/-- The processes that were brought up from a slot, whether they still live or not. -/
def instances (k : Kernel) (i : Fin dynSlots) : Finset Proc :=
  Finset.univ.filter fun p => k.moduleAt p = some (.dynamic (moduleByte i))

@[simp] theorem mem_instances {k : Kernel} {i : Fin dynSlots} {p : Proc} :
    p ∈ k.instances i ↔ k.moduleAt p = some (.dynamic (moduleByte i)) := by
  simp [instances]

section Instances

variable {k k₁ k₂ k' : Kernel} {p q : Proc} {i j : Fin dynSlots}

/-- A process is brought up from one slot. -/
theorem instances_unique (hi : p ∈ k.instances i) (hj : p ∈ k.instances j) : i = j := by
  rw [mem_instances] at hi hj
  rw [hi, Option.some.injEq, ModuleId.dynamic.injEq] at hj
  exact moduleByte_inj hj

theorem instances_congr (h : ∀ q, k'.moduleAt q = k.moduleAt q) (i : Fin dynSlots) :
    k'.instances i = k.instances i := by
  ext q
  rw [mem_instances, mem_instances, h]

theorem BroughtUp.instances_self {g : GrantSpec} (h : k.BroughtUp k' q g (moduleByte i)) :
    k'.instances i = insert q (k.instances i) := by
  ext r
  rw [Finset.mem_insert, mem_instances, mem_instances, h.modules]
  by_cases hr : r = q
  · simp [hr]
  · simp [hr]

theorem BroughtUp.instances_of_ne {g : GrantSpec} (h : k.BroughtUp k' q g (moduleByte i))
    (hj : j ≠ i) : k'.instances j = k.instances j := by
  ext r
  rw [mem_instances, mem_instances, h.modules]
  by_cases hr : r = q
  · subst hr
    rw [if_pos rfl, moduleAt_eq_none.mpr h.free]
    refine iff_of_false (fun heq => hj ?_) nofun
    rw [Option.some.injEq, ModuleId.dynamic.injEq] at heq
    exact (moduleByte_inj heq).symm
  · rw [if_neg hr]

theorem BroughtUp.instances_subset {g : GrantSpec} (h : k.BroughtUp k' q g (moduleByte i))
    (j : Fin dynSlots) : k.instances j ⊆ k'.instances j := by
  by_cases hj : j = i
  · subst hj
    rw [h.instances_self]
    exact Finset.subset_insert _ _
  · rw [h.instances_of_ne hj]

theorem BroughtUp.notMem {g : GrantSpec} {slot : BitVec 8} (h : k.BroughtUp k' q g slot)
    (j : Fin dynSlots) : q ∉ k.instances j := by
  rw [mem_instances, moduleAt_eq_none.mpr h.free]
  exact nofun

theorem BroughtUp.not_over {g : GrantSpec} {slot : BitVec 8} (h : k.BroughtUp k' q g slot) :
    ¬ k'.overAt q := by
  rw [h.overs]
  rintro ⟨s, hs, -⟩
  rw [stateAt, h.free] at hs
  cases hs

/-- What it may do: its own table is that of the grant, and every other table is as it was. -/
theorem BroughtUp.capAt {g : GrantSpec} {slot : BitVec 8} (h : k.BroughtUp k' q g slot)
    (heps : k.caps.bootTier1Eps = some (0, 1)) :
    (∀ s, k'.caps.capAt (q, s) = grantTable 0 1 g s) ∧ k'.caps.bootTier1Eps = some (0, 1) := by
  have hinst : k.Installed k' q g := ⟨h.free, h.dynamic, h.caps, slot, h.modules⟩
  obtain ⟨hcap, -, heps'⟩ := hinst.capAt heps
  refine ⟨fun s => ?_, heps'⟩
  rw [hcap, if_pos rfl]

end Instances

/-! ## Give-up records

Whether a daemon was given up is told from the audit stream, where it has to be recorded once. -/

/-- Is this a give-up record about the process? -/
def givesUp (p : Proc) (m : Emission) : Bool :=
  m.kind.raw == EventKind.daemonGaveUp.raw && m.a == BitVec.ofNat 16 p.val

section GivenUp

variable {k k₁ k₂ : Kernel} {ms ms₁ ms₂ : List Emission}

/-- **Give-up records** are counted among what is emitted, which the ring still holds at the end
of the step. -/
theorem Tells.givenUp (h : k.Tells k₁ ms) (hlen : ms.length ≤ ringCapacity) (p : Proc) :
    k.givenUp k₁ p = ms.countP (givesUp p) := by
  rw [Kernel.givenUp, h.news_eq hlen, List.mapIdx_eq_zipIdx_map, List.countP_map]
  have hfst : ((fun e : Event => e.kind == EventKind.daemonGaveUp.raw &&
      e.a == BitVec.ofNat 16 p.val) ∘ fun x : Emission × ℕ =>
        x.1.record (k.events.nextSeq + BitVec.ofNat 64 x.2)) = givesUp p ∘ Prod.fst := rfl
  rw [hfst, ← List.countP_map, List.zipIdx_map_fst]

theorem givesUp_other {m : Emission} (h : m.kind ≠ .daemonGaveUp) (p : Proc) :
    givesUp p m = false := by
  obtain ⟨kind, a, b⟩ := m
  cases kind <;> first | rfl | exact absurd rfl h

theorem countP_other (h : ∀ m ∈ ms, m.kind ≠ .daemonGaveUp) (p : Proc) :
    ms.countP (givesUp p) = 0 := by
  rw [List.countP_eq_zero]
  intro m hm
  rw [givesUp_other (h m hm) p]
  exact Bool.false_ne_true

theorem Tells.givenUp_nil (h : k.Tells k₁ []) (p : Proc) : k.givenUp k₁ p = 0 :=
  h.givenUp (Nat.zero_le _) p

theorem TellsOther.givenUp (h : k.TellsOther k₁) (p : Proc) : k.givenUp k₁ p = 0 := by
  obtain ⟨ms, hlen, hms, htells⟩ := h
  rw [htells.givenUp (hlen.trans (by decide)) p, countP_other hms]

/-- Where records about others come first, only the later ones can be about the process. -/
theorem TellsOther.then_givenUp (h₁ : k.TellsOther k₁) (h₂ : k₁.Tells k₂ ms)
    (hlen : ms.length ≤ 2) (p : Proc) : k.givenUp k₂ p = ms.countP (givesUp p) := by
  obtain ⟨ms₁, hlen₁, hms₁, htells₁⟩ := h₁
  have hlap : ms₁.length + ms.length ≤ ringCapacity :=
    (Nat.add_le_add hlen₁ hlen).trans (by decide)
  rw [(htells₁.trans h₂ hlap).givenUp (by rw [List.length_append]; exact hlap),
    List.countP_append, countP_other hms₁, Nat.zero_add]

theorem TellsOther.then_other (h₁ : k.TellsOther k₁) (h₂ : k₁.TellsOther k₂) (p : Proc) :
    k.givenUp k₂ p = 0 := by
  obtain ⟨ms, hlen, hms, htells⟩ := h₂
  rw [h₁.then_givenUp htells hlen, countP_other hms]

theorem countP_gaveUp (p q : Proc) :
    [(⟨.daemonGaveUp, BitVec.ofNat 16 p.val, 0#32⟩ : Emission)].countP (givesUp q) =
      if q = p then 1 else 0 := by
  rw [List.countP_singleton]
  have hiff : givesUp q ⟨.daemonGaveUp, BitVec.ofNat 16 p.val, 0#32⟩ = true ↔ q = p := by
    simp only [givesUp, BEq.rfl, Bool.true_and, beq_iff_eq]
    refine ⟨fun heq => ?_, fun heq => by rw [heq]⟩
    have hval := congrArg BitVec.toNat heq
    have hp : p.val < 2 ^ 16 := p.isLt.trans (by decide)
    have hq : q.val < 2 ^ 16 := q.isLt.trans (by decide)
    rw [BitVec.toNat_ofNat, BitVec.toNat_ofNat, Nat.mod_eq_of_lt hp, Nat.mod_eq_of_lt hq] at hval
    exact (Fin.ext hval).symm
  by_cases hq : q = p
  · rw [if_pos hq, if_pos (hiff.mpr hq)]
  · rw [if_neg hq, if_neg fun h => hq (hiff.mp h)]

end GivenUp

/-! ## The invariant

Per slot: who ran as it, what is left of its budget, and whether it is armed. The three change
together, at the end of an instance. -/

/-- What is so of a slot that is live as `p`. Whoever ran as it before is over and was not
given up. If it is armed, `p` is not over, and what is left of the budget is what its
instances have not used; a daemon that is not was given up. -/
structure Tenure (k : Kernel) (gaveUp : Proc → ℕ) (i : Fin dynSlots) (t : Terms) (p : Proc)
    (g : GrantSpec) (d : Bool) (r : BitVec 8) : Prop where
  grants : g = t.requested.attenuate dynamicCeiling
  runs : p ∈ k.instances i
  past : ∀ q ∈ k.instances i, q ≠ p → k.overAt q ∧ gaveUp q = 0
  armed : d = true → t.budget ≠ 0#8 ∧ ¬ k.overAt p ∧ gaveUp p = 0 ∧
    (k.instances i).card + r.toNat = t.budget.toNat + 1
  plain : d = false → t.budget = 0#8 → gaveUp p = 0 ∧ (k.instances i).card = 1
  down : d = false → t.budget ≠ 0#8 → k.overAt p ∧ gaveUp p = 1 ∧
    (k.instances i).card ≤ t.budget.toNat + 1

section Tenure

variable {k k' : Kernel} {gaveUp gaveUp' : Proc → ℕ} {i : Fin dynSlots} {t : Terms} {p : Proc}
  {g : GrantSpec} {d : Bool} {r : BitVec 8}

/-- Nobody comes, and whoever is over stays so. -/
theorem Tenure.mono (h : k.Tenure gaveUp i t p g d r) (hinst : k'.instances i = k.instances i)
    (hover : ∀ q, k.overAt q → k'.overAt q) (hlives : d = true → ¬ k'.overAt p)
    (hgave : ∀ q ∈ k.instances i, gaveUp' q = gaveUp q) : k'.Tenure gaveUp' i t p g d r := by
  refine ⟨h.grants, by rw [hinst]; exact h.runs, fun q hq hqp => ?_, fun hd => ?_, fun hd hb => ?_,
    fun hd hb => ?_⟩
  · rw [hinst] at hq
    obtain ⟨hq₁, hq₂⟩ := h.past q hq hqp
    exact ⟨hover q hq₁, by rw [hgave q hq, hq₂]⟩
  · obtain ⟨hb, -, hp, hcard⟩ := h.armed hd
    rw [hinst, hgave p h.runs]
    exact ⟨hb, hlives hd, hp, hcard⟩
  · rw [hinst, hgave p h.runs]
    exact h.plain hd hb
  · obtain ⟨hp, hone, hcard⟩ := h.down hd hb
    rw [hinst, hgave p h.runs]
    exact ⟨hover p hp, hone, hcard⟩

/-- **A daemon is given up**: it is over, and recorded so, and its slot is not restarted again. -/
theorem Tenure.giveUp (h : k.Tenure gaveUp i t p g true r)
    (hinst : k'.instances i = k.instances i) (hover : ∀ q, k.overAt q → k'.overAt q)
    (hp : k'.overAt p) (hgave : ∀ q, gaveUp' q = gaveUp q + if q = p then 1 else 0) :
    k'.Tenure gaveUp' i t p g false 0#8 := by
  obtain ⟨hb, -, hzero, hcard⟩ := h.armed rfl
  refine ⟨h.grants, by rw [hinst]; exact h.runs, fun q hq hqp => ?_, nofun,
    fun _ hb' => absurd hb' hb, fun _ _ => ⟨hp, ?_, ?_⟩⟩
  · rw [hinst] at hq
    obtain ⟨hq₁, hq₂⟩ := h.past q hq hqp
    exact ⟨hover q hq₁, by rw [hgave, if_neg hqp, hq₂]⟩
  · rw [hgave, if_pos rfl, hzero]
  · rw [hinst, ← hcard]
    exact Nat.le_add_right _ _

/-- **A daemon is restarted**: who ran before is over, and the budget pays for the next. -/
theorem Tenure.restart {q : Proc} (h : k.Tenure gaveUp i t p g true r) (hr : r ≠ 0#8)
    (hinst : k'.instances i = insert q (k.instances i)) (hq : q ∉ k.instances i)
    (hover : ∀ q, k.overAt q → k'.overAt q) (hp : k'.overAt p) (hlives : ¬ k'.overAt q)
    (hgave : ∀ q, gaveUp' q = gaveUp q) (hzero : gaveUp q = 0) :
    k'.Tenure gaveUp' i t q g true (r - 1#8) := by
  obtain ⟨hb, -, hzero', hcard⟩ := h.armed rfl
  refine ⟨h.grants, by rw [hinst]; exact Finset.mem_insert_self _ _, fun q' hq' hne => ?_,
    fun _ => ⟨hb, hlives, by rw [hgave, hzero], ?_⟩, nofun, nofun⟩
  · rw [hinst, Finset.mem_insert, or_iff_right hne] at hq'
    rw [hgave]
    by_cases hq'p : q' = p
    · subst hq'p
      exact ⟨hp, hzero'⟩
    · obtain ⟨hq₁, hq₂⟩ := h.past q' hq' hq'p
      exact ⟨hover q' hq₁, hq₂⟩
  · have hone : (r - 1#8).toNat = r.toNat - 1 := by
      bv_omega
    have hpos : 0 < r.toNat := Nat.pos_of_ne_zero fun hzero => hr (BitVec.eq_of_toNat_eq hzero)
    rw [hinst, Finset.card_insert_of_notMem hq, hone]
    omega

/-- **A slot is spawned**, and its tenure begins with one instance, which nobody gave up. -/
theorem tenure_spawn {slot : Terms} (hinst : k'.instances i = {p}) (hlives : ¬ k'.overAt p)
    (hzero : gaveUp p = 0) :
    k'.Tenure gaveUp i slot p (slot.requested.attenuate dynamicCeiling)
      (decide (0#8 < slot.budget)) slot.budget := by
  have hcard : (k'.instances i).card = 1 := by
    rw [hinst]
    exact Finset.card_singleton p
  refine ⟨rfl, by rw [hinst]; exact Finset.mem_singleton_self p, fun q hq hne => ?_, fun hd => ?_,
    fun _ _ => ⟨hzero, hcard⟩, fun hd hb => ?_⟩
  · rw [hinst, Finset.mem_singleton] at hq
    exact absurd hq hne
  · rw [decide_eq_true_eq] at hd
    refine ⟨?_, hlives, hzero, by rw [hcard, Nat.add_comm]⟩
    rintro hb
    rw [hb] at hd
    exact absurd hd (by decide)
  · rw [decide_eq_false_iff_not] at hd
    refine absurd ?_ hb
    bv_omega

end Tenure

end Kernel

namespace Registrar

open Kernel (Tenure)

/-! ## What a step does to a slot

Most steps do nothing to a slot. The others are staging, spawning and the end of its last
instance, and each is told slot by slot, so that the other slots can be set aside. -/

/-- The give-up records about the instances of a slot. -/
def giveUps (s : Registrar) (i : Fin dynSlots) : ℕ :=
  ∑ p ∈ s.kernel.instances i, s.gaveUp p

/-- What a step does to a slot. The invariant is proved with one case for each of these. -/
inductive SlotStep (s : Registrar) (call : SystemCall) (s' : Registrar) (i : Fin dynSlots) :
    Prop where
  /-- nothing -/
  | stays (hterms : s'.terms i = s.terms i)
      (hinst : s'.kernel.instances i = s.kernel.instances i)
      (hgave : s'.giveUps i = s.giveUps i)
      (hpayload : s.terms i ≠ none →
        s'.kernel.payload (moduleByte i) = s.kernel.payload (moduleByte i))
  /-- it is spawned, for the first time, on the terms of the call -/
  | spawned {t : Terms} {q : Proc} (hcall : call = .spawn (moduleByte i) t.requested t.budget)
      (hbefore : s.terms i = none ∧ s.kernel.instances i = ∅) (hterms : s'.terms i = some t)
      (hinst : s'.kernel.instances i = {q}) (hfree : s.kernel.processes q = none)
      (hcaps : ∀ slot, s'.kernel.caps.capAt (q, slot) =
        grantTable 0 1 (t.requested.attenuate dynamicCeiling) slot)
      (hgave : s'.giveUps i = 0)
  /-- the last instance ends, and there is another on the same terms, with the same payload
  and the same grants, as a process that did not exist -/
  | restarted {t : Terms} {q : Proc} (hbudget : t.budget ≠ 0#8) (hbefore : s.terms i = some t)
      (hterms : s'.terms i = some t)
      (hinst : s'.kernel.instances i = insert q (s.kernel.instances i))
      (hfree : s.kernel.processes q = none)
      (hover : ∀ p ∈ s.kernel.instances i, s'.kernel.overAt p)
      (hpayload : s'.kernel.payload (moduleByte i) = s.kernel.payload (moduleByte i))
      (hcaps : ∀ slot, s'.kernel.caps.capAt (q, slot) =
        grantTable 0 1 (t.requested.attenuate dynamicCeiling) slot)
      (hgave : s.giveUps i = 0 ∧ s'.giveUps i = 0)
  /-- the last instance ends, and that is recorded: the budget is spent, or no process is to
  be had -/
  | givenUp {t : Terms} (hbudget : t.budget ≠ 0#8) (hbefore : s.terms i = some t)
      (hterms : s'.terms i = some t)
      (hinst : s'.kernel.instances i = s.kernel.instances i)
      (hover : ∀ p ∈ s.kernel.instances i, s'.kernel.overAt p)
      (hpayload : s'.kernel.payload (moduleByte i) = s.kernel.payload (moduleByte i))
      (hwhy : (s.kernel.instances i).card = t.budget.toNat + 1 ∨
        ∀ q : Proc, procIdDynBase ≤ q.val → s.kernel.processes q ≠ none)
      (hgave : s.giveUps i = 0 ∧ s'.giveUps i = 1)

/-- A live slot is held on the terms it was spawned on, and one that is not live was never
spawned. -/
structure Held (s : Registrar) (i : Fin dynSlots) : Prop where
  vacant : (∀ off len p g d r, s.kernel.modreg.slots i ≠ .live off len p g d r) →
    s.terms i = none ∧ s.kernel.instances i = ∅
  live : ∀ off len p g d r, s.kernel.modreg.slots i = .live off len p g d r →
    ∃ t, s.terms i = some t ∧ Tenure s.kernel s.gaveUp i t p g d r

/-- Every slot is held on its terms, and nobody is given up who was never there. -/
structure Budgeted (s : Registrar) : Prop where
  eps : s.kernel.caps.bootTier1Eps = some (0, 1)
  fresh : ∀ q, (∀ i, q ∉ s.kernel.instances i) → s.gaveUp q = 0
  held : ∀ i, Held s i

section Steps

variable {s s' : Registrar} {call : SystemCall} {i : Fin dynSlots}

/-- Of the instances of a slot only the last may have been given up. -/
theorem giveUps_eq {t : Terms} {p : Proc} {g : GrantSpec} {d : Bool} {r : BitVec 8}
    (h : Tenure s.kernel s.gaveUp i t p g d r) : s.giveUps i = s.gaveUp p := by
  rw [giveUps]
  exact Finset.sum_eq_single_of_mem p h.runs fun q hq hqp => (h.past q hq hqp).2

theorem Held.of_live {t : Terms} {off len : ℕ} {p : Proc} {g : GrantSpec} {d : Bool} {r : BitVec 8}
    (hslot : s.kernel.modreg.slots i = .live off len p g d r) (hterms : s.terms i = some t)
    (h : Tenure s.kernel s.gaveUp i t p g d r) : Held s i := by
  refine ⟨fun hno => absurd hslot (hno off len p g d r), fun off' len' p' g' d' r' hslot' => ?_⟩
  rw [hslot] at hslot'
  cases hslot'
  exact ⟨t, hterms, h⟩

/-- A live slot that a step leaves alone. -/
theorem Held.stays (h : Held s i)
    (hslot : s'.kernel.modreg.slots i = s.kernel.modreg.slots i)
    (hstore : s'.kernel.modreg.store i = s.kernel.modreg.store i)
    (hterms : s'.terms i = s.terms i) (hinst : s'.kernel.instances i = s.kernel.instances i)
    (hgave : ∀ q ∈ s.kernel.instances i, s'.gaveUp q = s.gaveUp q)
    (hover : ∀ q, s.kernel.overAt q → s'.kernel.overAt q)
    (hlives : ∀ off len p g r, s.kernel.modreg.slots i = .live off len p g true r →
      ¬ s'.kernel.overAt p) :
    SlotStep s call s' i ∧ Held s' i := by
  refine ⟨.stays hterms hinst ?_ fun _ => Kernel.payload_congr hslot hstore, ?_, ?_⟩
  · rw [giveUps, giveUps, hinst]
    exact Finset.sum_congr rfl hgave
  · rw [hslot, hterms, hinst]
    exact h.vacant
  · intro off len p g d r hlive
    rw [hslot] at hlive
    obtain ⟨t, ht, htenure⟩ := h.live off len p g d r hlive
    refine ⟨t, hterms.trans ht, htenure.mono hinst hover ?_ hgave⟩
    rintro rfl
    exact hlives off len p g r hlive

/-- A slot that is not live before a step nor after. -/
theorem Held.vacant_stays (h : Held s i)
    (hbefore : ∀ off len p g d r, s.kernel.modreg.slots i ≠ .live off len p g d r)
    (hafter : ∀ off len p g d r, s'.kernel.modreg.slots i ≠ .live off len p g d r)
    (hterms : s'.terms i = s.terms i) (hinst : s'.kernel.instances i = s.kernel.instances i) :
    SlotStep s call s' i ∧ Held s' i := by
  obtain ⟨hnone, hempty⟩ := h.vacant hbefore
  refine ⟨.stays hterms hinst ?_ fun hsome => absurd hnone hsome, fun _ => ?_, fun off len p g d r
    hlive => absurd hlive (hafter off len p g d r)⟩
  · rw [giveUps, giveUps, hinst, hempty, Finset.sum_empty, Finset.sum_empty]
  · rw [hterms, hinst]
    exact ⟨hnone, hempty⟩

/-- A step that brings up nobody keeps the invariant slot by slot. -/
theorem Budgeted.of_modules (h : Budgeted s)
    (heps : s'.kernel.caps.bootTier1Eps = s.kernel.caps.bootTier1Eps)
    (hmods : ∀ q, s'.kernel.moduleAt q = s.kernel.moduleAt q)
    (hgave : ∀ q, (∀ i, q ∉ s.kernel.instances i) → s'.gaveUp q = s.gaveUp q)
    (hslots : ∀ i, SlotStep s call s' i ∧ Held s' i) :
    (∀ i, SlotStep s call s' i) ∧ Budgeted s' := by
  refine ⟨fun i => (hslots i).1, heps.trans h.eps, fun q hq => ?_, fun i => (hslots i).2⟩
  have hq' : ∀ i, q ∉ s.kernel.instances i := fun i => by
    rw [← Kernel.instances_congr hmods]
    exact hq i
  rw [hgave q hq', h.fresh q hq']

/-- A step that brings up a process likewise. -/
theorem Budgeted.of_broughtUp {k : Kernel} {p : Proc} {g : GrantSpec} {j : Fin dynSlots}
    (h : Budgeted s) (hup : k.BroughtUp s'.kernel p g (moduleByte j))
    (heps : k.caps.bootTier1Eps = s.kernel.caps.bootTier1Eps)
    (hmods : ∀ q, k.moduleAt q = s.kernel.moduleAt q)
    (hgave : ∀ q, s'.gaveUp q = s.gaveUp q)
    (hslots : ∀ i, SlotStep s call s' i ∧ Held s' i) :
    (∀ i, SlotStep s call s' i) ∧ Budgeted s' := by
  refine ⟨fun i => (hslots i).1, (hup.capAt (heps.trans h.eps)).2, fun q hq => ?_,
    fun i => (hslots i).2⟩
  rw [hgave]
  refine h.fresh q fun i hi => hq i ?_
  rw [← Kernel.instances_congr hmods] at hi
  exact hup.instances_subset i hi

/-- **A step that is none of the registry's**, and in which nobody ends, changes nothing about the
budgets. -/
theorem Budgeted.calm (h : Budgeted s) (hmodreg : s'.kernel.modreg = s.kernel.modreg)
    (heps : s'.kernel.caps.bootTier1Eps = s.kernel.caps.bootTier1Eps)
    (hmods : ∀ q, s'.kernel.moduleAt q = s.kernel.moduleAt q)
    (hover : ∀ q, s'.kernel.overAt q ↔ s.kernel.overAt q) (hterms : s'.terms = s.terms)
    (hgave : ∀ q, s'.gaveUp q = s.gaveUp q) :
    (∀ i, SlotStep s call s' i) ∧ Budgeted s' := by
  refine h.of_modules heps hmods (fun q _ => hgave q) fun i => ?_
  refine (h.held i).stays (by rw [hmodreg]) (by rw [hmodreg]) (by rw [hterms])
    (Kernel.instances_congr hmods i) (fun q _ => hgave q) (fun q => (hover q).mpr) ?_
  intro off len p g r hslot
  obtain ⟨t, -, htenure⟩ := (h.held i).live _ _ _ _ _ _ hslot
  rw [hover]
  exact (htenure.armed rfl).2.1

/-- A registry slot that is not live turns into another that is not. -/
theorem Budgeted.vacant (h : Budgeted s) {new : SlotState} {j : Fin dynSlots}
    (hkeep : s.kernel.KeepsTenants s'.kernel)
    (hslots : s'.kernel.modreg.slots = Function.update s.kernel.modreg.slots j new)
    (hstore : ∀ i ≠ j, s'.kernel.modreg.store i = s.kernel.modreg.store i)
    (hbefore : ∀ off len p g d r, s.kernel.modreg.slots j ≠ .live off len p g d r)
    (hafter : ∀ off len p g d r, new ≠ .live off len p g d r) (hterms : s'.terms = s.terms)
    (hgave : ∀ q, s'.gaveUp q = s.gaveUp q) :
    (∀ i, SlotStep s call s' i) ∧ Budgeted s' := by
  refine h.of_modules hkeep.eps hkeep.modules (fun q _ => hgave q) fun i => ?_
  have hinst := Kernel.instances_congr hkeep.modules i
  by_cases hij : i = j
  · subst hij
    refine (h.held i).vacant_stays hbefore ?_ (by rw [hterms]) hinst
    rw [hslots, Function.update_self]
    exact hafter
  · refine (h.held i).stays (by rw [hslots, Function.update_of_ne hij]) (hstore i hij)
      (by rw [hterms]) hinst (fun q _ => hgave q) (fun q => (hkeep.overs q).mpr) ?_
    intro off len p g r hslot
    obtain ⟨t, -, htenure⟩ := (h.held i).live _ _ _ _ _ _ hslot
    rw [hkeep.overs]
    exact (htenure.armed rfl).2.1

/-- **An envelope is staged**, or refused. Either way no process comes or goes. -/
theorem Budgeted.stage (h : Budgeted s) {bytes : List (BitVec 8)}
    {r : Except KernelError (BitVec 8)} (hstaged : Kernel.Staged s.kernel bytes (r, s'.kernel))
    (hterms : s'.terms = s.terms)
    (hgave : (∀ q, s.kernel.givenUp s'.kernel q = 0) → ∀ q, s'.gaveUp q = s.gaveUp q) :
    (∀ i, SlotStep s call s' i) ∧ Budgeted s' := by
  obtain ⟨k', uploads', terms', gaveUp'⟩ := s'
  simp only at hstaged hterms hgave
  cases hstaged with
  | refused =>
    exact h.calm rfl rfl (fun _ => rfl) (fun _ => Iff.rfl) hterms
      (hgave (Kernel.Calm.refl _).tells.givenUp_nil)
  | stored hfree hstore hslots hkeep htells =>
    refine h.vacant hkeep hslots (fun i hi => ?_) (by rw [hfree]; exact nofun) nofun hterms
      (hgave htells.givenUp)
    change k'.modreg.store i = _
    rw [hstore, Function.update_of_ne hi]

/-- **A slot is spawned**: the budget of the call becomes that of the slot, with none of it used.
-/
theorem Budgeted.spawn (h : Budgeted s) {t : Terms} {j : Fin dynSlots} {q : Proc} {off len : ℕ}
    (hcall : call = .spawn (moduleByte j) t.requested t.budget)
    (hbefore : ∀ off len p g d r, s.kernel.modreg.slots j ≠ .live off len p g d r)
    (hup : s.kernel.BroughtUp s'.kernel q (t.requested.attenuate dynamicCeiling) (moduleByte j))
    (hslots : s'.kernel.modreg.slots = Function.update s.kernel.modreg.slots j
      (.live off len q (t.requested.attenuate dynamicCeiling) (decide (0#8 < t.budget)) t.budget))
    (hstore : s'.kernel.modreg.store = s.kernel.modreg.store)
    (hterms : s'.terms = overwrite s.terms (some (moduleByte j, some t)))
    (hgave : ∀ q, s'.gaveUp q = s.gaveUp q) :
    (∀ i, SlotStep s call s' i) ∧ Budgeted s' := by
  refine h.of_broughtUp hup rfl (fun _ => rfl) hgave fun i => ?_
  by_cases hij : i = j
  · subst hij
    obtain ⟨hnone, hempty⟩ := (h.held i).vacant hbefore
    have hinst : s'.kernel.instances i = {q} := by
      rw [hup.instances_self, hempty]
      rfl
    have hself : s'.terms i = some t := by rw [hterms, overwrite_self]
    have hzero : s'.gaveUp q = 0 := by
      rw [hgave]
      exact h.fresh q hup.notMem
    have hslot : s'.kernel.modreg.slots i = .live off len q
        (t.requested.attenuate dynamicCeiling) (decide (0#8 < t.budget)) t.budget := by
      rw [hslots, Function.update_self]
    refine ⟨.spawned hcall ⟨hnone, hempty⟩ hself hinst hup.free (hup.capAt h.eps).1 ?_,
      .of_live hslot hself (Kernel.tenure_spawn hinst hup.not_over hzero)⟩
    rw [giveUps, hinst, Finset.sum_singleton]
    exact hzero
  · refine (h.held i).stays (by rw [hslots, Function.update_of_ne hij]) (by rw [hstore])
      (by rw [hterms, overwrite_of_ne _ _ hij]) (hup.instances_of_ne hij) (fun q _ => hgave q)
      (fun q => (hup.overs q).mpr) ?_
    intro off' len' p g r hslot
    obtain ⟨t, -, htenure⟩ := (h.held i).live _ _ _ _ _ _ hslot
    rw [hup.overs]
    exact (htenure.armed rfl).2.1

/-- **A spawn**, whether it is refused, rejected, or brings up a process. -/
theorem Budgeted.spawned {ed25519 : Ed25519} {slot : BitVec 8} {requested : GrantSpec}
    {restartBudget : BitVec 8} {r : Except KernelError Proc} (h : Budgeted s)
    (hspawned : Kernel.Spawned ed25519 s.kernel slot requested restartBudget (r, s'.kernel))
    (hterms : s'.terms = overwrite s.terms
      (r.toOption.map fun _ => (slot, some ⟨requested, restartBudget⟩)))
    (hgave : (∀ q, s.kernel.givenUp s'.kernel q = 0) → ∀ q, s'.gaveUp q = s.gaveUp q) :
    (∀ i, SlotStep s (.spawn slot requested restartBudget) s' i) ∧ Budgeted s' := by
  obtain ⟨k', uploads', terms', gaveUp'⟩ := s'
  simp only at hspawned hterms hgave
  cases hspawned with
  | refused =>
    exact h.calm rfl rfl (fun _ => rfl) (fun _ => Iff.rfl) hterms
      (hgave (Kernel.Calm.refl _).tells.givenUp_nil)
  | rejected _ hslot _ hstore hslots hkeep htells =>
    refine h.vacant hkeep hslots (fun i _ => ?_) (by rw [hslot]; exact nofun) nofun hterms
      (hgave htells.givenUp)
    change k'.modreg.store i = _
    rw [hstore]
  | live hi hslot _ hstore hslots hup htells =>
    subst hi
    exact h.spawn (t := ⟨requested, restartBudget⟩) rfl (by rw [hslot]; exact nofun) hup hslots
      hstore hterms (hgave htells.givenUp)

/-- Another slot than that of the tenant that ends. -/
theorem Budgeted.bystander (h : Budgeted s) {j : Fin dynSlots} {t : Terms} {p : Proc}
    {g : GrantSpec} {r : BitVec 8} (hp : Tenure s.kernel s.gaveUp j t p g true r) (hij : i ≠ j)
    (hslot : s'.kernel.modreg.slots i = s.kernel.modreg.slots i)
    (hstore : s'.kernel.modreg.store = s.kernel.modreg.store) (hterms : s'.terms = s.terms)
    (hinst : s'.kernel.instances i = s.kernel.instances i)
    (hover : ∀ q, s'.kernel.overAt q ↔ q = p ∨ s.kernel.overAt q)
    (hgave : ∀ q ≠ p, s'.gaveUp q = s.gaveUp q) :
    SlotStep s call s' i ∧ Held s' i := by
  have hnot : p ∉ s.kernel.instances i := fun hmem =>
    hij (Kernel.instances_unique hmem hp.runs)
  refine (h.held i).stays hslot (by rw [hstore]) (by rw [hterms]) hinst (fun q hq => hgave q ?_)
    (fun q hq => (hover q).mpr (.inr hq)) ?_
  · rintro rfl
    exact hnot hq
  · intro off len p' g' r' hslot'
    obtain ⟨t', -, htenure⟩ := (h.held i).live _ _ _ _ _ _ hslot'
    rw [hover]
    rintro (rfl | hover')
    · exact hnot htenure.runs
    · exact (htenure.armed rfl).2.1 hover'

/-- **A tenant ends that is no daemon**: it lies where it is, and its slot is not touched. -/
theorem Budgeted.lies (h : Budgeted s) {p : Proc} (hends : s.kernel.Ends p s'.kernel)
    (hno : ∀ i off len g r, s'.kernel.modreg.slots i ≠ .live off len p g true r)
    (hterms : s'.terms = s.terms)
    (hgave : ∀ q, s'.gaveUp q = s.gaveUp q + s.kernel.givenUp s'.kernel q) :
    (∀ i, SlotStep s call s' i) ∧ Budgeted s' := by
  have hzero : ∀ q, s'.gaveUp q = s.gaveUp q := by
    intro q
    rw [hgave, hends.tells.givenUp, Nat.add_zero]
  refine h.of_modules hends.eps hends.modules (fun q _ => hzero q) fun i => ?_
  refine (h.held i).stays (by rw [hends.modreg]) (by rw [hends.modreg]) (by rw [hterms])
    (Kernel.instances_congr hends.modules i) (fun q _ => hzero q)
    (fun q hq => (hends.overs q).mpr (.inr hq)) ?_
  intro off len p' g r hslot hover
  obtain ⟨t, -, htenure⟩ := (h.held i).live _ _ _ _ _ _ hslot
  rcases (hends.overs p').mp hover with rfl | hover'
  · refine hno i off len g r ?_
    rw [hends.modreg]
    exact hslot
  · exact (htenure.armed rfl).2.1 hover'

section Daemon

variable {k : Kernel} {p : Proc} {j : Fin dynSlots} {off len : ℕ} {g : GrantSpec} {r : BitVec 8}

/-- Everybody who ran as a slot is over when the last is. -/
theorem over_of_tenure {t : Terms} {d : Bool} (hp : Tenure s.kernel s.gaveUp j t p g d r)
    (hover : ∀ q, s'.kernel.overAt q ↔ q = p ∨ s.kernel.overAt q) :
    ∀ q ∈ s.kernel.instances j, s'.kernel.overAt q := by
  intro q hq
  rw [hover]
  by_cases hqp : q = p
  · exact .inl hqp
  · exact .inr (hp.past q hq hqp).1

/-- Why there is no restart: the budget is used up, or there is no room for another process. -/
theorem Budgeted.why (h : Budgeted s) {t : Terms} (hp : Tenure s.kernel s.gaveUp j t p g true r)
    (hends : s.kernel.Ends p k) (hwhy : r = 0#8 ∨ k.NoRoom) :
    (s.kernel.instances j).card = t.budget.toNat + 1 ∨
      ∀ q : Proc, procIdDynBase ≤ q.val → s.kernel.processes q ≠ none := by
  rcases hwhy with rfl | hnone | hfull
  · exact .inl (hp.armed rfl).2.2.2
  · rw [hends.eps, h.eps] at hnone
    cases hnone
  · refine .inr fun q hq hfree => hfull q hq ?_
    rw [← Kernel.moduleAt_eq_none, hends.modules, Kernel.moduleAt_eq_none]
    exact hfree

/-- **A daemon ends, and is given up**: this is counted once, and no process takes its place. -/
theorem Budgeted.daemonGaveUp (h : Budgeted s) (hends : s.kernel.Ends p k)
    (hslot : s.kernel.modreg.slots j = .live off len p g true r) (hwhy : r = 0#8 ∨ k.NoRoom)
    (hstore : s'.kernel.modreg.store = s.kernel.modreg.store)
    (hslots : s'.kernel.modreg.slots =
      Function.update s.kernel.modreg.slots j (.live off len p g false 0#8))
    (hkeep : k.KeepsTenants s'.kernel) (hterms : s'.terms = s.terms)
    (hgave : ∀ q, s'.gaveUp q = s.gaveUp q + if q = p then 1 else 0) :
    (∀ i, SlotStep s call s' i) ∧ Budgeted s' := by
  obtain ⟨t, ht, htenure⟩ := (h.held j).live _ _ _ _ _ _ hslot
  have hmods : ∀ q, s'.kernel.moduleAt q = s.kernel.moduleAt q := fun q =>
    (hkeep.modules q).trans (hends.modules q)
  have hover : ∀ q, s'.kernel.overAt q ↔ q = p ∨ s.kernel.overAt q := fun q =>
    (hkeep.overs q).trans (hends.overs q)
  have hself : s'.kernel.modreg.slots j = .live off len p g false 0#8 := by
    rw [hslots, Function.update_self]
  refine h.of_modules (hkeep.eps.trans hends.eps) hmods (fun q hq => ?_) fun i => ?_
  · rw [hgave, if_neg, Nat.add_zero]
    rintro rfl
    exact hq j htenure.runs
  · have hinst := Kernel.instances_congr hmods i
    by_cases hij : i = j
    · subst hij
      have htenure' : Tenure s'.kernel s'.gaveUp i t p g false 0#8 :=
        htenure.giveUp hinst (fun q hq => (hover q).mpr (.inr hq)) ((hover p).mpr (.inl rfl)) hgave
      obtain ⟨hbudget, -, hzero, -⟩ := htenure.armed rfl
      have hterms' : s'.terms i = some t := by rw [hterms, ht]
      refine ⟨.givenUp hbudget ht hterms' hinst (over_of_tenure htenure hover) ?_
        (h.why htenure hends hwhy) ⟨?_, ?_⟩, .of_live hself hterms' htenure'⟩
      · rw [Kernel.payload_live hself, Kernel.payload_live hslot, hstore]
      · rw [giveUps_eq htenure, hzero]
      · rw [giveUps_eq htenure', hgave, if_pos rfl, hzero]
    · refine h.bystander htenure hij (by rw [hslots, Function.update_of_ne hij]) hstore hterms
        hinst hover fun q hq => ?_
      rw [hgave, if_neg hq, Nat.add_zero]

/-- **A daemon ends, and is restarted**: one more instance, one restart less, and the grant as it
was. -/
theorem Budgeted.daemonRestarted (h : Budgeted s) {q : Proc} (hends : s.kernel.Ends p k)
    (hslot : s.kernel.modreg.slots j = .live off len p g true r) (hr : r ≠ 0#8)
    (hstore : s'.kernel.modreg.store = s.kernel.modreg.store)
    (hslots : s'.kernel.modreg.slots =
      Function.update s.kernel.modreg.slots j (.live off len q g true (r - 1#8)))
    (hup : k.BroughtUp s'.kernel q g (moduleByte j)) (hterms : s'.terms = s.terms)
    (hgave : ∀ q, s'.gaveUp q = s.gaveUp q) :
    (∀ i, SlotStep s call s' i) ∧ Budgeted s' := by
  obtain ⟨t, ht, htenure⟩ := (h.held j).live _ _ _ _ _ _ hslot
  have hover : ∀ q, s'.kernel.overAt q ↔ q = p ∨ s.kernel.overAt q := fun q =>
    (hup.overs q).trans (hends.overs q)
  have hself : s'.kernel.modreg.slots j = .live off len q g true (r - 1#8) := by
    rw [hslots, Function.update_self]
  have hfree : s.kernel.processes q = none := by
    rw [← Kernel.moduleAt_eq_none, ← hends.modules, Kernel.moduleAt_eq_none]
    exact hup.free
  refine h.of_broughtUp hup hends.eps hends.modules hgave fun i => ?_
  by_cases hij : i = j
  · subst hij
    have hinst : s'.kernel.instances i = insert q (s.kernel.instances i) := by
      rw [hup.instances_self, Kernel.instances_congr hends.modules]
    have hnew : ∀ i, q ∉ s.kernel.instances i := by
      intro i
      rw [← Kernel.instances_congr hends.modules]
      exact hup.notMem i
    have hzero : s.gaveUp q = 0 := h.fresh q hnew
    have htenure' : Tenure s'.kernel s'.gaveUp i t q g true (r - 1#8) :=
      htenure.restart hr hinst (hnew i) (fun q hq => (hover q).mpr (.inr hq))
        ((hover p).mpr (.inl rfl)) hup.not_over hgave hzero
    obtain ⟨hbudget, -, hzero', -⟩ := htenure.armed rfl
    have hterms' : s'.terms i = some t := by rw [hterms, ht]
    have hcaps := (hup.capAt (hends.eps.trans h.eps)).1
    rw [htenure.grants] at hcaps
    refine ⟨.restarted hbudget ht hterms' hinst hfree (over_of_tenure htenure hover) ?_ hcaps
      ⟨?_, ?_⟩, .of_live hself hterms' htenure'⟩
    · rw [Kernel.payload_live hself, Kernel.payload_live hslot, hstore]
    · rw [giveUps_eq htenure, hzero']
    · rw [giveUps_eq htenure', hgave, hzero]
  · have hinst : s'.kernel.instances i = s.kernel.instances i := by
      rw [hup.instances_of_ne hij, Kernel.instances_congr hends.modules]
    exact h.bystander htenure hij (by rw [hslots, Function.update_of_ne hij]) hstore hterms
      hinst hover fun q _ => hgave q

end Daemon

/-- **A tenant ends**, and the registry acts on it, by one of three cases: it lies, is restarted
or is given up. -/
theorem Budgeted.ended (h : Budgeted s) {k₁ : Kernel} {p : Proc} (hends : s.kernel.Ends p k₁)
    (hend : Kernel.Terminated k₁ p s'.kernel) (hterms : s'.terms = s.terms)
    (hgave : ∀ q, s'.gaveUp q = s.gaveUp q + s.kernel.givenUp s'.kernel q) :
    (∀ i, SlotStep s call s' i) ∧ Budgeted s' := by
  obtain ⟨k', uploads', terms', gaveUp'⟩ := s'
  simp only at hend hterms hgave
  have hmodreg := hends.modreg
  cases hend with
  | lies hno => exact h.lies hends hno hterms hgave
  | gaveUp hslot hwhy hstore hslots hkeep htells =>
    rw [hmodreg] at hslot hstore hslots
    refine h.daemonGaveUp hends hslot hwhy hstore hslots hkeep hterms fun q => ?_
    rw [← Kernel.countP_gaveUp, ← hends.tells.then_givenUp htells (by simp)]
    exact hgave q
  | restarted hslot hr hstore hslots hup htells =>
    rw [hmodreg] at hslot hstore hslots
    refine h.daemonRestarted hends hslot hr hstore hslots hup hterms fun q => ?_
    have hnone := hends.tells.then_other htells q
    change gaveUp' q = _
    rw [hgave, hnone, Nat.add_zero]

/-- **A step** of the system, slot by slot: the step lemma of the budget, from which the runs
follow. -/
theorem budgeted_step {ed25519 : Ed25519} (h : Budgeted s)
    (hstep : registrarStep ed25519 s call = some s') :
    (∀ i, SlotStep s call s' i) ∧ Budgeted s' := by
  obtain ⟨hsystem, -, hterms, hgave⟩ := registrarStep_eq_some hstep
  have hplain : call.isModreg = false → s'.terms = s.terms := by
    intro hcall
    rw [hterms, Kernel.spawns_eq_none hcall]
    rfl
  have hquiet : (∀ q, s.kernel.givenUp s'.kernel q = 0) → ∀ q, s'.gaveUp q = s.gaveUp q :=
    fun hzero q => by rw [hgave, hzero, Nat.add_zero]
  cases Kernel.systemStep_filed hsystem with
  | calm hcalm hcall =>
    exact h.calm hcalm.modreg hcalm.eps hcalm.modules hcalm.overs (hplain hcall)
      (hquiet hcalm.tells.givenUp_nil)
  | cap heps heq hcall =>
    refine h.calm (by rw [heq]) (by rw [heq, heps]) (fun q => by rw [heq]; rfl)
      (fun q => by rw [heq]; rfl) (hplain hcall) (hquiet ?_)
    have htells : s.kernel.Tells s'.kernel [] := .of_stream (by rw [heq]) (by rw [heq])
    exact htells.givenUp_nil
  | ended hends hend hcall => exact h.ended hends hend (hplain hcall) hgave
  | @staged bytes r heq _ hstaged =>
    subst heq
    exact h.stage hstaged hterms hquiet
  | @spawned slot requested restartBudget r heq hr hspawned =>
    subst heq
    refine h.spawned hspawned ?_ hquiet
    rw [hterms, Kernel.spawns, hr, Option.map_map]
    rfl

end Steps

/-! ## Budgets

The promises, for all slots at any time and for every step. -/

/-- What holds of the modules at any time. -/
structure Rationed (s : Registrar) : Prop where
  /-- what is not spawned does not run -/
  unspawned : ∀ i, s.terms i = none → s.kernel.instances i = ∅
  /-- a spawn and its restarts -/
  bounded : ∀ i t, s.terms i = some t → (s.kernel.instances i).card ≤ t.budget.toNat + 1
  /-- at most one instance is not over -/
  single : ∀ i, ∀ p ∈ s.kernel.instances i, ∀ q ∈ s.kernel.instances i,
    ¬ s.kernel.overAt p → ¬ s.kernel.overAt q → p = q
  /-- a daemon that is down was given up once -/
  once : ∀ i t, s.terms i = some t → t.budget ≠ 0#8 →
    (∀ p ∈ s.kernel.instances i, s.kernel.overAt p) → s.giveUps i = 1
  /-- and nothing else was -/
  never : ∀ i t, s.terms i = some t →
    (t.budget = 0#8 ∨ ∃ p ∈ s.kernel.instances i, ¬ s.kernel.overAt p) → s.giveUps i = 0
  others : ∀ p, (∀ i, p ∉ s.kernel.instances i) → s.gaveUp p = 0

/-- What a step does to all slots, of which at most one changes, and to the terms they were
spawned on. -/
structure Managed (s : Registrar) (call : SystemCall) (s' : Registrar) : Prop where
  slots : ∀ i, SlotStep s call s' i
  /-- terms are final -/
  terms : ∀ i t, s.terms i = some t → s'.terms i = some t
  /-- a module that is no daemon does not run again -/
  plain : ∀ i t, s.terms i = some t → t.budget = 0#8 →
    s'.kernel.instances i = s.kernel.instances i
  /-- nor does one that was given up -/
  down : ∀ i, s.giveUps i ≠ 0 → s'.kernel.instances i = s.kernel.instances i
  /-- who is over stays so -/
  overs : ∀ p, s.kernel.overAt p → s'.kernel.overAt p

section Budgets

variable {ed25519 : Ed25519} {s s' : Registrar} {call : SystemCall}

theorem rationed_of_budgeted (h : Budgeted s) : Rationed s := by
  have hlive : ∀ i t, s.terms i = some t → ∃ p g d r, Tenure s.kernel s.gaveUp i t p g d r := by
    intro i t ht
    rcases hslot : s.kernel.modreg.slots i with _ | _ | ⟨off, len, p, g, d, r⟩
    · have hnone := ((h.held i).vacant (by rw [hslot]; exact nofun)).1
      rw [ht] at hnone
      cases hnone
    · have hnone := ((h.held i).vacant (by rw [hslot]; exact nofun)).1
      rw [ht] at hnone
      cases hnone
    · obtain ⟨t', ht', htenure⟩ := (h.held i).live _ _ _ _ _ _ hslot
      rw [ht] at ht'
      cases ht'
      exact ⟨p, g, d, r, htenure⟩
  have hempty : ∀ i, s.terms i = none → s.kernel.instances i = ∅ := by
    intro i hnone
    refine ((h.held i).vacant fun off len p g d r hslot => ?_).2
    obtain ⟨t, ht, -⟩ := (h.held i).live _ _ _ _ _ _ hslot
    rw [hnone] at ht
    cases ht
  refine ⟨hempty, fun i t ht => ?_, fun i p hp q hq hp' hq' => ?_, fun i t ht hb hall => ?_,
    fun i t ht hor => ?_, h.fresh⟩
  · obtain ⟨p, g, d, r, htenure⟩ := hlive i t ht
    cases d with
    | true => exact (Nat.le_add_right _ _).trans (htenure.armed rfl).2.2.2.le
    | false =>
      by_cases hb : t.budget = 0#8
      · rw [(htenure.plain rfl hb).2]
        exact Nat.le_add_left _ _
      · exact (htenure.down rfl hb).2.2
  · rcases hterms : s.terms i with _ | t
    · rw [hempty i hterms] at hp
      cases hp
    · obtain ⟨l, g, d, r, htenure⟩ := hlive i t hterms
      have hlast : ∀ q ∈ s.kernel.instances i, ¬ s.kernel.overAt q → q = l := fun q hq hlives => by
        by_contra hne
        exact hlives (htenure.past q hq hne).1
      rw [hlast p hp hp', hlast q hq hq']
  · obtain ⟨p, g, d, r, htenure⟩ := hlive i t ht
    rw [giveUps_eq htenure]
    cases d with
    | true => exact absurd (hall p htenure.runs) (htenure.armed rfl).2.1
    | false => exact (htenure.down rfl hb).2.1
  · obtain ⟨p, g, d, r, htenure⟩ := hlive i t ht
    rw [giveUps_eq htenure]
    cases d with
    | true => exact (htenure.armed rfl).2.2.1
    | false =>
      by_cases hb : t.budget = 0#8
      · exact (htenure.plain rfl hb).1
      · -- the last instance is over, and so are those before it
        obtain ⟨q, hq, hlives⟩ := hor.resolve_left hb
        refine absurd ?_ hlives
        by_cases hqp : q = p
        · rw [hqp]
          exact (htenure.down rfl hb).1
        · exact (htenure.past q hq hqp).1

theorem managed_of_slots (hslots : ∀ i, SlotStep s call s' i)
    (hover : ∀ p, s.kernel.overAt p → s'.kernel.overAt p) : Managed s call s' := by
  refine ⟨hslots, fun i t ht => ?_, fun i t ht hb => ?_, fun i hgave => ?_, hover⟩
  · cases hslots i with
    | stays hterms => rw [hterms, ht]
    | spawned _ hbefore =>
      rw [ht] at hbefore
      cases hbefore.1
    | restarted _ hbefore hterms => rw [hterms, ← hbefore, ht]
    | givenUp _ hbefore hterms => rw [hterms, ← hbefore, ht]
  · cases hslots i with
    | stays _ hinst => exact hinst
    | spawned _ hbefore =>
      rw [ht] at hbefore
      cases hbefore.1
    | restarted hbudget hbefore =>
      rw [ht] at hbefore
      cases hbefore
      exact absurd hb hbudget
    | givenUp _ _ _ hinst => exact hinst
  · cases hslots i with
    | stays _ hinst => exact hinst
    | spawned _ hbefore =>
      rw [giveUps, hbefore.2] at hgave
      exact absurd rfl hgave
    | restarted _ _ _ _ _ _ _ _ hnone => exact absurd hnone.1 hgave
    | givenUp _ _ _ hinst => exact hinst

end Budgets

end Registrar

/-- **Restart budgets.** In every state a slot has one instance at most that is not over and no
more than its budget allows; and a step that ends the last one either restarts it on the same
terms, with a fresh process, or gives it up with one record, never both. -/
theorem daemon_budget (ed25519 : Ed25519) (board : Board) :
    (registrarMachine ed25519 board).Records (systemMachine ed25519 board) Registrar.kernel ∧
      (registrarMachine ed25519 board).Always Registrar.Rationed ∧
      ∀ s is, (registrarMachine ed25519 board).init s →
        (registrarMachine ed25519 board).Along Registrar.Managed s is := by
  have hinit : ∀ s, (registrarMachine ed25519 board).init s → s.Budgeted := by
    rintro s rfl
    refine ⟨bootTier1Eps_bootState board, fun _ _ => rfl, fun i => ⟨fun _ => ⟨rfl, ?_⟩, nofun⟩⟩
    refine Finset.eq_empty_of_forall_notMem fun p hp => ?_
    exact Kernel.moduleAt_booted board p _ (Kernel.mem_instances.mp hp)
  have hstep : ∀ s call s', s.Budgeted →
      (registrarMachine ed25519 board).step s call = some s' →
      Registrar.Managed s call s' ∧ s'.Budgeted := by
    intro s call s' hs hstep
    obtain ⟨hslots, hs'⟩ := Registrar.budgeted_step hs hstep
    have hfiled := Kernel.systemStep_filed (registrarStep_eq_some hstep).1
    exact ⟨Registrar.managed_of_slots hslots fun p => hfiled.overs, hs'⟩
  refine ⟨registrarMachine_records ed25519 board, ?_, fun s is hs => ?_⟩
  · refine Machine.Always.mono ?_ fun s => Registrar.rationed_of_budgeted
    exact Machine.always_of_step hinit fun s call s' hs hs' => (hstep s call s' hs hs').2
  · exact Machine.along_of_step hstep is s (hinit s hs)

end Wari
