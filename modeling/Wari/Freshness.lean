import Wari.Derivation

/-!
# Generation freshness

The converse of `HistInv.live`: a live reference points at the very cap it was
minted from, so that its slot was not emptied since. A call can break that in one
way only, by leaving a slot it empties at a generation that some reference
already records: a deletion or a cascade does so where the generation is
saturated, and `net_socket_close`, which adds with wrap-around, where it wraps.
`fresh_iff` says that these are exactly the runs that go wrong.
-/

namespace Wari

open Lib (Machine)

/-! ## Freshness

A live reference is a place and a generation, and could be met again by chance: by a slot that is
emptied without its generation moving on, or whose generation has come round. -/

/-- Every live reference points at a held cap, the one its owner was minted from. Where this
fails, a revocation takes along caps that were never derived from its target. -/
def Fresh (h : Hist) : Prop :=
  ∀ a b, h.caps.parentOf a = some b → (h.caps.capAt b).isEmpty = false ∧
    h.ledger.MintedFrom (h.ledger.idAt a) (h.ledger.idAt b)

/-- Generations do not decrease, and references are fresh after the step. -/
def FreshStep (h : Hist) (_ : CapCall) (h' : Hist) : Prop :=
  (∀ x, h.caps.genAt x ≤ h'.caps.genAt x) ∧ Fresh h'

/-- No slot the call empties is left at a generation that the reference of a slot staying occupied
records for it. It is a condition on the state before the call and on which slots it empties. -/
def NoAlias (st : CapState) (c : CapCall) : Prop :=
  ∀ x b, Vacates st c x → (st.capAt b).isEmpty = false → ¬ Vacates st c b →
    (st.capAt b).parent.place? = some x →
    (st.capAt b).parent.generation ≠ bumpOf c (st.genAt x)

/-- `net_socket_close` empties no slot at the last generation. -/
def NoWrap (st : CapState) (c : CapCall) : Prop :=
  ∀ b slot driver x, c = .socketClose b slot driver → Vacates st c x → st.genAt x ≠ 0xFFFF#16

theorem fresh_boot (board : Board) : Fresh (histBoot board) := by
  intro a b hpar
  obtain ⟨-, hplace, -⟩ := CapState.parentOf_eq_some.mp hpar
  rw [histBoot, capAt_bootState, bootTable_parent] at hplace
  cases hplace

/-- A live parent after a call was the live parent before it, for a slot that
was occupied before, provided that the call leaves no alias. -/
theorem parentOf_of_noAlias {st st' : CapState} (htable : st.ParentsInTable) {c : CapCall} {r : ℤ}
    (hstep : capStep st c = some (r, st')) (hno : NoAlias st c) {a b : Place}
    (hocc : (st.capAt a).isEmpty = false) (ha : ¬ Vacates st c a)
    (hpar : st'.parentOf a = some b) : st.parentOf a = some b ∧ ¬ Vacates st c b := by
  have hb : ¬ Vacates st c b := by
    intro hb
    obtain ⟨-, hplace, hgen⟩ := CapState.parentOf_eq_some.mp hpar
    rw [(capStep_frame htable hstep ha).2 hocc] at hplace hgen
    rw [(capStep_vacates htable hstep hb).2.2] at hgen
    exact hno b a hb hocc ha hplace hgen.symm
  exact ⟨(parentOf_of_frame htable hstep hocc ha hb).mp hpar, hb⟩

/-- A cap installed where no live reference points leaves the others fresh. -/
theorem Fresh.install {h : Hist} (hinv : HistInv h) (hfresh : Fresh h) {s : CapState}
    (hst : s.cspaces = h.caps.cspaces) {x : Place} {cap : Cap} {o : Origin}
    (hx : (h.caps.capAt x).isEmpty = true)
    (hnew : ∀ b, cap.parent.place? = some b → h.caps.genAt b = cap.parent.generation →
      (h.caps.capAt b).isEmpty = false ∧
        (h.ledger.record x o).MintedFrom h.ledger.next (h.ledger.idAt b)) :
    Fresh ⟨s.installCap x cap, h.ledger.record x o⟩ := by
  have hcapAt : ∀ y, s.capAt y = h.caps.capAt y := fun y => by
    rw [CapState.capAt, CapState.capAt, hst]
  have hgenAt : ∀ y, s.genAt y = h.caps.genAt y := fun y => by
    rw [CapState.genAt, CapState.genAt, hst]
  intro a b hpar
  change (s.installCap x cap).parentOf a = some b at hpar
  change ((s.installCap x cap).capAt b).isEmpty = false ∧
    (h.ledger.record x o).MintedFrom ((h.ledger.record x o).idAt a)
      ((h.ledger.record x o).idAt b)
  -- the parent was held before, so it is not the slot being filled
  have hheld : ∀ b, (h.caps.capAt b).isEmpty = false → b ≠ x := by
    rintro b hb rfl
    rw [hx] at hb
    cases hb
  by_cases hax : a = x
  · subst hax
    obtain ⟨hplace, hgen⟩ := CapState.parentOf_installCap_self hpar
    rw [hgenAt] at hgen
    obtain ⟨hb, hm⟩ := hnew b hplace hgen
    have hba := hheld b hb
    rw [CapState.capAt_installCap, if_neg hba, hcapAt, Ledger.idAt_record, if_pos rfl,
      Ledger.idAt_record, if_neg hba]
    exact ⟨hb, hm⟩
  · rw [CapState.parentOf_installCap_ne hax] at hpar
    simp only [CapState.parentOf, hcapAt, hgenAt] at hpar
    obtain ⟨hb, hm⟩ := hfresh a b hpar
    have hbx := hheld b hb
    rw [CapState.capAt_installCap, if_neg hbx, hcapAt, Ledger.idAt_record, if_neg hax,
      Ledger.idAt_record, if_neg hbx, hinv.ledger.mintedFrom_record x o (hinv.ledger.idAt_lt a)]
    exact ⟨hb, hm⟩

/-- **A call that leaves no alias keeps references fresh**: the generation of an emptied slot goes
up, and with it no old reference fits. -/
theorem fresh_step {board : Board} {h h' : Hist} {c : CapCall} (hinv : HistInv h)
    (hfresh : Fresh h) (hs : (histMachine board).step h c = some h') (hno : NoAlias h.caps c) :
    Fresh h' := by
  cases histMachine_effect hinv.table hs with
  | quiet hstep hquiet =>
    intro a b hpar
    obtain ⟨ha, hva⟩ := hquiet a (CapState.parentOf_eq_some.mp hpar).1
    obtain ⟨hpar', hvb⟩ := parentOf_of_noAlias hinv.table hstep hno ha hva hpar
    obtain ⟨hb, hm⟩ := hfresh a b hpar'
    exact ⟨by rw [(capStep_frame hinv.table hstep hvb).2 hb]; exact hb, hm⟩
  | @mint p s t child _ hd hparent =>
    refine hfresh.install hinv rfl hd.dst fun b hplace _ => ?_
    rw [hparent, CapId.place?_ofPlace] at hplace
    obtain rfl := Option.some.inj hplace
    exact ⟨hd.src, (Ledger.mintedFrom_record_mint _ _ _ _).mpr rfl⟩
  | @copy p s t child _ hd hparent =>
    refine hfresh.install hinv rfl hd.dst fun b hplace hgen => ?_
    rw [hparent] at hplace hgen
    obtain ⟨hb, hm⟩ := hfresh (p, s) b (CapState.parentOf_eq_some.mpr ⟨hd.src, hplace, hgen⟩)
    exact ⟨hb, (hinv.ledger.mintedFrom_record_copy (p, t) (hinv.ledger.idAt_lt (p, s)) _).mpr hm⟩
  | @socket p t _ idx sockets child hchild _ _ hnet hdst =>
    refine hfresh.install (s := h.caps.withSockets sockets) hinv rfl hdst fun b hplace _ => ?_
    have hp : b = (p, slotNet) := by
      rw [hchild, socketCap, CapId.place?_ofPlace] at hplace
      exact (Option.some.inj hplace).symm
    subst hp
    refine ⟨Cap.isEmpty_eq_false_iff.mpr (by rw [hnet]; decide), ?_⟩
    exact (Ledger.mintedFrom_record_mint _ _ _ _).mpr rfl

/-! ## Generations

Two syscalls move a generation on, one with a saturating and one with a wrapping addition. -/

theorem not_le_wrappingSucc : ¬ (0xFFFF#16 : BitVec 16) ≤ wrappingSucc 0xFFFF#16 := by decide

theorem le_wrappingSucc {g : BitVec 16} (h : g ≠ 0xFFFF#16) : g ≤ wrappingSucc g := by
  have hne : g.toNat ≠ 65535 := fun hg => h (BitVec.eq_of_toNat_eq hg)
  have hlt := g.isLt
  rw [wrappingSucc, BitVec.le_def, BitVec.toNat_add]
  simp only [BitVec.toNat_ofNat]
  omega

/-- Generations decrease only where `net_socket_close` wraps one around. -/
theorem genAt_le_iff {st st' : CapState} (htable : st.ParentsInTable) {c : CapCall} {r : ℤ}
    (hstep : capStep st c = some (r, st')) :
    (∀ x, st.genAt x ≤ st'.genAt x) ↔ NoWrap st c := by
  constructor
  · rintro hle b slot driver x rfl hv hlast
    have hx := hle x
    rw [(capStep_vacates htable hstep hv).2.2, hlast] at hx
    exact not_le_wrappingSucc hx
  · intro hno x
    by_cases hv : Vacates st c x
    · rw [(capStep_vacates htable hstep hv).2.2]
      cases c with
      | socketClose b slot driver => exact le_wrappingSucc (hno b slot driver x rfl hv)
      | _ => exact le_saturatingSucc _
    · rw [(capStep_frame htable hstep hv).1]
      exact BitVec.le_refl _

/-- **Freshness, exactly.** In a run from boot generations never decrease and
references stay fresh if and only if no step wraps a generation around and none
leaves a slot it empties at a generation a surviving reference records. -/
theorem fresh_iff (board : Board) (calls : List CapCall) :
    (histMachine board).Along FreshStep (histBoot board) calls ↔
      (histMachine board).Meets (fun h c => NoWrap h.caps c ∧ NoAlias h.caps c) (histBoot board)
        calls := by
  refine Machine.along_iff_meets (I := fun h => HistInv h ∧ Fresh h) ?_ ?_ calls _
    ⟨histInv_boot board, fresh_boot board⟩
  · rintro h c h' ⟨hinv, hfresh⟩ hs ⟨hwrap, halias⟩
    obtain ⟨r, hstep, -⟩ := histMachine_step hs
    have hfresh' := fresh_step hinv hfresh hs halias
    exact ⟨⟨(genAt_le_iff hinv.table hstep).mpr hwrap, hfresh'⟩, histInv_step hinv hs, hfresh'⟩
  · rintro h c h' ⟨hinv, -⟩ hs ⟨hle, hfresh'⟩
    obtain ⟨r, hstep, -⟩ := histMachine_step hs
    refine ⟨(genAt_le_iff hinv.table hstep).mp hle, fun x b hx hb hvb hplace hgen => ?_⟩
    -- the alias makes an emptied slot the live parent of `b`
    have hcap := (capStep_frame hinv.table hstep hvb).2 hb
    obtain ⟨-, hempty, hgen'⟩ := capStep_vacates hinv.table hstep hx
    have hpar : h'.caps.parentOf b = some x := by
      rw [CapState.parentOf_eq_some, hcap, hgen']
      exact ⟨hb, hplace, hgen.symm⟩
    have hheld := (hfresh' b x hpar).1
    rw [hempty] at hheld
    cases hheld

/-! ## A generation that wraps

One tenant with a Net cap can bring a slot of its own round, by opening and closing a socket in it
often enough. -/

/-- A net driver to which nothing goes wrong. -/
def steadyDriver : NetDriver := ⟨fun _ => some 0#32, fun _ => some 0#32⟩

/-- Process 2 creates a socket in slot 10 and closes it again, `n` times. -/
def reuse : ℕ → List CapCall
  | 0 => []
  | n + 1 => reuse n ++
      [.socketCreate 2#8 1#32 10#32 steadyDriver, .socketClose 2#8 10#32 steadyDriver]

/-- Boot's caps, no sockets, and slot 10 of process 2 reused `n` times. -/
structure Reused (n : ℕ) (h : Hist) : Prop where
  cap : ∀ x, h.caps.capAt x = bootTable x
  gen : h.caps.genAt (2, 10) = BitVec.ofNat 16 n
  sockets : ∀ i, h.caps.objectPools.sockets.get i = none

theorem reused_boot (board : Board) : Reused 0 (histBoot board) :=
  ⟨capAt_bootState board, genAt_bootState board (2, 10), Pool.get_new⟩

/-- The socket is created; closing it leaves the next generation. -/
theorem reused_step (board : Board) {n : ℕ} {h : Hist} (hr : Reused n h) :
    ∃ h₁ h₂, (histMachine board).step h (.socketCreate 2#8 1#32 10#32 steadyDriver) = some h₁ ∧
      (histMachine board).step h₁ (.socketClose 2#8 10#32 steadyDriver) = some h₂ ∧
      h₁.caps.genAt (2, 10) = BitVec.ofNat 16 n ∧ Reused (n + 1) h₂ := by
  have hproc : procIndex? 2#8 = some 2 := rfl
  have hslot : slotArg? 10#32 = some 10 := rfl
  have hnet : h.caps.capAt (2, slotNet) = rootCap .net 0 rightsRw := hr.cap (2, slotNet)
  have hfree : h.caps.capAt (2, 10) = Cap.empty := hr.cap (2, 10)
  obtain ⟨j, sockets, halloc⟩ := Pool.alloc_isSome (i := 0) (by decide) (hr.sockets 0)
    (Socket.new 0 0#32)
  obtain ⟨-, -, hget⟩ := Pool.alloc_ok halloc
  -- the state with the socket
  let cap := socketCap (.ofPlace (2, slotNet) (h.caps.genAt (2, slotNet))) (h.caps.genAt (2, 10)) j
  let st₁ := (h.caps.withSockets sockets).installCap (2, 10) cap
  have hcreate : capStep h.caps (.socketCreate 2#8 1#32 10#32 steadyDriver) = some (0, st₁) := by
    simp [capStep, netSocketCreateImpl, hproc, hslot, hnet, hfree, rootCap, rightsRw,
      capRightRead, capRightWrite, Cap.isEmpty, steadyDriver, halloc, st₁, cap,
      CapState.withSockets, CapState.genAt]
  have hsock : ∃ sock, st₁.objectPools.sockets.get j = some sock ∧ sock.refcount = 1 := by
    refine ⟨addRef (Socket.new 0 0#32), ?_, rfl⟩
    change (sockets.incRefcount j).get j = _
    rw [Pool.get_incRefcount, if_pos rfl, hget, if_pos rfl]
    rfl
  obtain ⟨sock, hsock, hone⟩ := hsock
  have hcap₁ : st₁.capAt (2, 10) = cap := by
    rw [CapState.capAt_installCap, if_pos rfl]
  let st₂ := st₁.removeCap (2, 10) wrappingSucc
  have hclose : capStep st₁ (.socketClose 2#8 10#32 steadyDriver) = some (0, st₂) := by
    simp [capStep, netSocketCloseImpl, hproc, hslot, hcap₁, cap, socketCap, Cap.isEmpty, hsock,
      steadyDriver, st₂]
  have hs₁ := histMachine_of_capStep board hcreate
  have hs₂ := histMachine_of_capStep board
    (h := ⟨st₁, h.ledger.after 0 (.socketCreate 2#8 1#32 10#32 steadyDriver)⟩) hclose
  refine ⟨_, _, hs₁, hs₂, hr.gen, fun x => ?_, ?_, fun i => ?_⟩
  · change st₂.capAt x = _
    rw [CapState.capAt_removeCap, CapState.capAt_installCap]
    by_cases hx : x = (2, 10)
    · rw [if_pos hx, hx]
      rfl
    · rw [if_neg hx, if_neg hx]
      exact hr.cap x
  · change st₂.genAt (2, 10) = _
    rw [CapState.genAt_removeCap, if_pos rfl]
    change wrappingSucc (h.caps.genAt (2, 10)) = _
    rw [hr.gen, wrappingSucc, ← BitVec.ofNat_add]
  · change (((sockets.incRefcount j).decRefcount j).get i) = none
    rw [Pool.get_decRefcount]
    have hget₁ : (sockets.incRefcount j).get j = some sock := hsock
    by_cases hi : i = j
    · rw [if_pos hi, hget₁]
      exact if_pos (by change sock.refcount - 1 = 0; rw [hone])
    · rw [if_neg hi, Pool.get_incRefcount, if_neg hi, hget, if_neg hi]
      exact hr.sockets i

theorem reuse_run (board : Board) (n : ℕ) :
    ∃ h, (histMachine board).Run (histBoot board) (reuse n) h ∧ Reused n h := by
  induction n with
  | zero => exact ⟨_, .nil _, reused_boot board⟩
  | succ n ih =>
    obtain ⟨h, hrun, hr⟩ := ih
    obtain ⟨h₁, h₂, hs₁, hs₂, -, hr₂⟩ := reused_step board hr
    exact ⟨h₂, hrun.append (.cons hs₁ (.cons hs₂ (.nil h₂))), hr₂⟩

/-- Reuse up to the last generation, and once more, is not fresh. -/
theorem not_fresh_reuse (board : Board) {n : ℕ} (hn : BitVec.ofNat 16 n = 0xFFFF#16) :
    ¬ (histMachine board).Along FreshStep (histBoot board) (reuse (n + 1)) := by
  intro hall
  obtain ⟨h, hrun, hr⟩ := reuse_run board n
  obtain ⟨h₁, h₂, hs₁, hs₂, hgen, hr₂⟩ := reused_step board hr
  have hrest := ((Machine.along_cons hs₁).mp (Machine.along_append hrun hall)).2
  have hle := ((Machine.along_cons hs₂).mp hrest).1.1 (2, 10)
  rw [hgen, hr₂.gen, BitVec.ofNat_add, hn] at hle
  exact absurd hle not_le_wrappingSucc

/-- **A generation decreases**: the 65536th close of a socket slot wraps it to
zero. -/
theorem generation_wraps :
    ¬ (histMachine .qemu).Along FreshStep (histBoot .qemu) (reuse (65535 + 1)) :=
  not_fresh_reuse .qemu rfl

end Wari
