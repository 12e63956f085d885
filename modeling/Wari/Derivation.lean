import Wari.History

/-!
# Parent references and derivation history

What is stored follows what happened: while the source of a mint is held, the
reference to it is live. Every call keeps that (`histInv_step`), so a cascade
reaches every cap that is connected to its target through held caps
(`revoke_complete_held`). It does not reach what is connected through a deleted
one: the reference to a slot that was emptied is dead, and its owner an orphan.
-/

namespace Wari

open Lib (Machine Descends)

/-! ## Live references

The history knows caps by number, the tables by place and generation. While the source of a mint
is held, the two agree on where it is. -/

/-- What holds of every state with its history: each held cap has its number at its place, and a
reference to a source that is still held points there and is live. -/
structure HistInv (h : Hist) : Prop where
  table : h.caps.ParentsInTable
  ledger : h.ledger.WellFormed
  /-- while the source of a mint is held, the reference to it is live -/
  live : ∀ a b, (h.caps.capAt a).isEmpty = false → (h.caps.capAt b).isEmpty = false →
    h.ledger.MintedFrom (h.ledger.idAt a) (h.ledger.idAt b) → h.caps.parentOf a = some b

theorem histInv_boot (board : Board) : HistInv (histBoot board) := by
  refine ⟨parentsInTable_bootState board, Ledger.wellFormed_boot, fun a b _ _ hm => ?_⟩
  -- every origin is the kernel
  cases hm with
  | mint h => cases h
  | copy h => cases h

/-- Installing a cap whose reference points at the source of its mint keeps
references live. -/
theorem HistInv.install {h : Hist} (hinv : HistInv h) {s : CapState}
    (hst : s.cspaces = h.caps.cspaces) {x : Place} {cap : Cap} {o : Origin}
    (htable : (s.installCap x cap).ParentsInTable)
    (ho : ∀ k, o = .minted k ∨ o = .copied k → k < h.ledger.next) (hcap : cap.isEmpty = false)
    (href : ∀ b, (h.caps.capAt b).isEmpty = false →
      (h.ledger.record x o).MintedFrom h.ledger.next (h.ledger.idAt b) →
      cap.parent.place? = some b ∧ h.caps.genAt b = cap.parent.generation) :
    HistInv ⟨s.installCap x cap, h.ledger.record x o⟩ := by
  have hcapAt : ∀ y, s.capAt y = h.caps.capAt y := fun y => by
    rw [CapState.capAt, CapState.capAt, hst]
  have hgenAt : ∀ y, s.genAt y = h.caps.genAt y := fun y => by
    rw [CapState.genAt, CapState.genAt, hst]
  refine ⟨htable, hinv.ledger.record x ho, fun a b ha hb hm => ?_⟩
  change (h.ledger.record x o).MintedFrom ((h.ledger.record x o).idAt a)
    ((h.ledger.record x o).idAt b) at hm
  rw [Ledger.idAt_record, Ledger.idAt_record] at hm
  by_cases hax : a = x
  · subst hax
    rw [if_pos rfl] at hm
    have hba : b ≠ a := by
      rintro rfl
      rw [if_pos rfl] at hm
      exact absurd (hinv.ledger.mintedFrom_next_lt b ho hm) (Nat.lt_irrefl _)
    rw [if_neg hba] at hm
    rw [CapState.capAt_installCap, if_neg hba, hcapAt] at hb
    obtain ⟨hplace, hgen⟩ := href b hb hm
    rw [CapState.parentOf_eq_some, CapState.capAt_installCap, if_pos rfl,
      CapState.genAt_installCap, hgenAt]
    exact ⟨hcap, hplace, hgen⟩
  · rw [if_neg hax, hinv.ledger.mintedFrom_record x o (hinv.ledger.idAt_lt a)] at hm
    have hbx : b ≠ x := by
      rintro rfl
      rw [if_pos rfl] at hm
      exact absurd (hinv.ledger.mintedFrom_lt (hinv.ledger.idAt_lt a) hm) (Nat.lt_irrefl _)
    rw [if_neg hbx] at hm
    rw [CapState.capAt_installCap, if_neg hax, hcapAt] at ha
    rw [CapState.capAt_installCap, if_neg hbx, hcapAt] at hb
    rw [CapState.parentOf_installCap_ne hax]
    simp only [CapState.parentOf, hcapAt, hgenAt]
    exact hinv.live a b ha hb hm

theorem Derives.child_occupied {st : CapState} {p : Proc} {s t : Slot} {child : Cap}
    (h : Derives st p s t child) : child.isEmpty = false := by
  rw [Cap.isEmpty_eq_false_iff, h.kind]
  exact Cap.isEmpty_eq_false_iff.mp h.src

/-- **Live references stay live**, whatever is called: the step lemma of the invariant, with one
case for each syscall. -/
theorem histInv_step {board : Board} {h h' : Hist} {c : CapCall} (hinv : HistInv h)
    (hs : (histMachine board).step h c = some h') : HistInv h' := by
  obtain ⟨r, hstep, -⟩ := histMachine_step hs
  have htable := (capStep_effect hstep).parentsInTable hinv.table
  cases histMachine_effect hinv.table hs with
  | quiet hstep hquiet =>
    refine ⟨htable, hinv.ledger, fun a b ha hb hm => ?_⟩
    obtain ⟨ha', hva⟩ := hquiet a ha
    obtain ⟨hb', hvb⟩ := hquiet b hb
    exact (parentOf_of_frame hinv.table hstep ha' hva hvb).mpr (hinv.live a b ha' hb' hm)
  | @mint p s t child _ hd hparent =>
    refine hinv.install rfl htable ?_ hd.child_occupied fun b hb hm => ?_
    · rintro k (hk | hk)
      · rw [← Origin.minted.inj hk]
        exact hinv.ledger.idAt_lt (p, s)
      · cases hk
    · obtain rfl : b = (p, s) :=
        hinv.ledger.idAt_inj _ _ ((Ledger.mintedFrom_record_mint _ _ _ _).mp hm)
      rw [hparent, CapId.place?_ofPlace, CapId.generation_ofPlace]
      exact ⟨rfl, rfl⟩
  | @copy p s t child _ hd hparent =>
    have hlt := hinv.ledger.idAt_lt (p, s)
    refine hinv.install rfl htable ?_ hd.child_occupied fun b hb hm => ?_
    · rintro k (hk | hk)
      · cases hk
      · rwa [← Origin.copied.inj hk]
    · have hsrc := (hinv.ledger.mintedFrom_record_copy (p, t) hlt _).mp hm
      obtain ⟨-, hplace, hgen⟩ :=
        CapState.parentOf_eq_some.mp (hinv.live (p, s) b hd.src hb hsrc)
      rw [hparent]
      exact ⟨hplace, hgen⟩
  | @socket p t _ idx sockets child hchild =>
    have hocc : child.isEmpty = false := by rw [hchild]; rfl
    refine hinv.install (s := h.caps.withSockets sockets) rfl htable ?_ hocc fun b hb hm => ?_
    · rintro k (hk | hk)
      · rw [← Origin.minted.inj hk]
        exact hinv.ledger.idAt_lt (p, slotNet)
      · cases hk
    · obtain rfl : b = (p, slotNet) :=
        hinv.ledger.idAt_inj _ _ ((Ledger.mintedFrom_record_mint _ _ _ _).mp hm)
      rw [hchild]
      exact ⟨CapId.place?_ofPlace _ _, (CapId.generation_ofPlace _ _).symm⟩

/-- The cap with this identity is held in some slot. -/
def Hist.Held (h : Hist) (k : ℕ) : Prop :=
  ∃ a, (h.caps.capAt a).isEmpty = false ∧ h.ledger.idAt a = k

end Wari
