import Wari.Freshness

/-!
# Derivation chains

A cap under a live parent reference names its parent's object with at most its
parent's rights, or is a Socket cap under the Net cap whose NIC the socket lives
on. `cap_mint` keeps this through `derive`, and `cap_copy` by taking its source's
rights. `net_socket_create` does not go through `derive`: it confers read and
write on the strength of the write right alone. The other way to break a chain is
the alias of `Freshness`. `intact_iff` says that there is no third.
-/

namespace Wari

open Lib (Machine)

/-! ## Intact chains

A chain can break at either end: the child may gain, or the slot its reference points to may get
another cap. The second is what generations are for. -/

/-- The NIC that an allocated socket lives on, as its pool entry records it; `none` where there is
no such socket. -/
def CapState.netIdxOf (st : CapState) (i : ℕ) : Option ℕ :=
  (st.objectPools.sockets.get i).map Socket.netIdx

/-- The cap at `a` is properly derived from the cap at `b`: same object and no
more rights, or a socket of that NIC and no more rights. -/
def ProperChild (st : CapState) (a b : Place) : Prop :=
  ((st.capAt a).kind = (st.capAt b).kind ∧ (st.capAt a).poolIndex = (st.capAt b).poolIndex ∧
    RightsLe (st.capAt a).rights (st.capAt b).rights) ∨
  ((st.capAt a).kind = .socket ∧ (st.capAt b).kind = .net ∧
    st.netIdxOf (st.capAt a).poolIndex = some (st.capAt b).poolIndex ∧
    RightsLe (st.capAt a).rights (st.capAt b).rights)

/-- Every occupied slot with a live parent is properly derived from it. A slot whose reference is
stale has no live parent, and nothing is asked of it. -/
def ChainsIntact (st : CapState) : Prop :=
  ∀ a b, st.parentOf a = some b → ProperChild st a b

theorem ProperChild.rights {st : CapState} {a b : Place} (h : ProperChild st a b) :
    RightsLe (st.capAt a).rights (st.capAt b).rights := by
  rcases h with ⟨-, -, h⟩ | ⟨-, -, -, h⟩
  · exact h
  · exact h

/-- The parent of an occupied slot is occupied. -/
theorem ProperChild.occupied {st : CapState} {a b : Place} (h : ProperChild st a b)
    (ha : (st.capAt a).isEmpty = false) : (st.capAt b).isEmpty = false := by
  rw [Cap.isEmpty_eq_false_iff] at ha ⊢
  rcases h with ⟨hkind, -⟩ | ⟨-, hkind, -⟩
  · rwa [← hkind]
  · rw [hkind]
    decide

theorem chainsIntact_boot (board : Board) : ChainsIntact (bootState board) := by
  intro a b hpar
  obtain ⟨-, hplace, -⟩ := CapState.parentOf_eq_some.mp hpar
  rw [capAt_bootState, bootTable_parent] at hplace
  cases hplace

/-! ## Sockets stay on their NIC

A Socket cap is compared with its parent through the NIC of the socket, so that NIC must not
change while the cap is held. -/

theorem netIdxOf_installCap (st : CapState) (a : Place) (cap : Cap) (i : ℕ) :
    (st.installCap a cap).netIdxOf i = st.netIdxOf i := by
  simp only [CapState.netIdxOf, CapState.installCap, CapState.incRefcount, ObjectPools.incRefcount]
  cases cap.kind with
  | socket =>
    change ((st.objectPools.sockets.incRefcount cap.poolIndex).get i).map Socket.netIdx = _
    rw [Pool.get_incRefcount]
    by_cases hi : i = cap.poolIndex
    · subst hi
      rw [if_pos rfl, Option.map_map]
      rfl
    · rw [if_neg hi]
  | _ => rfl

/-- A removal leaves a socket where it is, or frees it. -/
theorem netIdxOf_removeCap (st : CapState) (a : Place) (f : BitVec 16 → BitVec 16) (i : ℕ) :
    (st.removeCap a f).netIdxOf i = st.netIdxOf i ∨ (st.removeCap a f).netIdxOf i = none := by
  simp only [CapState.netIdxOf, CapState.removeCap, CapState.decRefcount, ObjectPools.decRefcount]
  cases (st.capAt a).kind with
  | socket =>
    change ((st.objectPools.sockets.decRefcount (st.capAt a).poolIndex).get i).map _ = _ ∨
      ((st.objectPools.sockets.decRefcount (st.capAt a).poolIndex).get i).map _ = _
    rw [Pool.get_decRefcount]
    by_cases hi : i = (st.capAt a).poolIndex
    · subst hi
      rw [if_pos rfl]
      rcases st.objectPools.sockets.get (st.capAt a).poolIndex with _ | sock
      · exact .inr rfl
      · rw [Option.bind_some, dropRef]
        split
        · exact .inr rfl
        · exact .inl rfl
    · rw [if_neg hi]
      exact .inl rfl
  | _ => exact .inl rfl

/-- A call that installs nothing leaves every socket where it is, or frees it. -/
theorem netIdxOf_quiet {st st' : CapState} {c : CapCall} {r : ℤ}
    (hstep : capStep st c = some (r, st'))
    (hquiet : ∀ x, (st'.capAt x).isEmpty = false → (st.capAt x).isEmpty = false ∧
      ¬ Vacates st c x) (i : ℕ) : st'.netIdxOf i = st.netIdxOf i ∨ st'.netIdxOf i = none := by
  have hfilled : ∀ {st₁ : CapState} {x : Place} {cap : Cap}, st' = st₁.installCap x cap →
      cap.isEmpty = false → (st.capAt x).isEmpty = true → False := by
    rintro st₁ x cap rfl hcap hx
    have hocc := (hquiet x (by rw [CapState.capAt_installCap, if_pos rfl]; exact hcap)).1
    rw [hx] at hocc
    cases hocc
  cases capStep_effect hstep with
  | refused => exact .inl rfl
  | minted _ _ hd => exact (hfilled rfl hd.child_occupied hd.dst).elim
  | copied _ _ hd => exact (hfilled rfl hd.child_occupied hd.dst).elim
  | socketCreated _ _ _ hdst => exact (hfilled rfl rfl hdst).elim
  | deleted => exact netIdxOf_removeCap st _ _ i
  | socketClosed => exact netIdxOf_removeCap st _ _ i
  | revoked _ _ _ hrevoke =>
    refine revoke_keeps (I := fun s => s.netIdxOf i = st.netIdxOf i ∨ s.netIdxOf i = none)
      (fun s a hs _ => ?_) hrevoke (.inl rfl)
    rcases netIdxOf_removeCap s a saturatingSucc i with h | h
    · rwa [h]
    · exact .inr h

/-- Under the law, the socket of a held cap is there. -/
theorem RefLaw.netIdxOf_ne_none {st : CapState} (h : RefLaw st .socket) {a : Place}
    (ha : (st.capAt a).kind = .socket) : st.netIdxOf (st.capAt a).poolIndex ≠ none := by
  obtain ⟨obj, hobj⟩ := h.object_of_name ha
  intro hnone
  rw [CapState.netIdxOf, Option.map_eq_none_iff] at hnone
  rw [ObjectPools.object?, hnone] at hobj
  cases hobj

/-! ## Creating a socket

The one derivation that does not go through `derive`. Its new cap is compared with the Net cap in
the slot the layout gives it. -/

/-- A call that creates a socket for `p` in slot `t`, told from the state before
it and the driver's reply. -/
def CreatesSocket (st : CapState) (c : CapCall) (p : Proc) (t : Slot) : Prop :=
  ∃ proto slotForCap driver reply, c = .socketCreate (procByte p) proto slotForCap driver ∧
    slotArg? slotForCap = some t ∧ (st.capAt (p, slotNet)).kind = .net ∧
    (st.capAt (p, slotNet)).rights &&& capRightWrite ≠ 0#8 ∧
    (st.capAt (p, t)).isEmpty = true ∧ driver.socketCreate proto = some reply ∧
    reply.slt 0#32 = false ∧ ∃ i < 256, st.objectPools.sockets.get i = none

/-- Every socket is created under a Net cap that can be read. -/
def ReadableNet (st : CapState) (c : CapCall) : Prop :=
  ∀ p t, CreatesSocket st c p t → (st.capAt (p, slotNet)).rights &&& capRightRead ≠ 0#8

theorem CreatesSocket.write {st : CapState} {c : CapCall} {p : Proc} {t : Slot}
    (h : CreatesSocket st c p t) : (st.capAt (p, slotNet)).rights &&& capRightWrite ≠ 0#8 := by
  obtain ⟨-, -, -, -, -, -, -, hwrite, -⟩ := h
  exact hwrite

/-- The socket goes to another slot than its Net cap's. -/
theorem CreatesSocket.slotNet_ne {st : CapState} {c : CapCall} {p : Proc} {t : Slot}
    (h : CreatesSocket st c p t) : (p, slotNet) ≠ (p, t) := by
  obtain ⟨-, -, -, -, -, -, hnet, -, hdst, -⟩ := h
  intro he
  rw [← he, Cap.isEmpty_iff, hnet] at hdst
  cases hdst

theorem capStep_createsSocket {st : CapState} {c : CapCall} {p : Proc} {t : Slot}
    (h : CreatesSocket st c p t) :
    ∃ idx sockets, capStep st c = some (0, (st.withSockets sockets).installCap (p, t)
      (socketCap (.ofPlace (p, slotNet) (st.genAt (p, slotNet))) (st.genAt (p, t)) idx)) := by
  obtain ⟨proto, slotForCap, driver, reply, rfl, ht, hnet, hwrite, hdst, hreply, hpos, i, hi,
    hfree⟩ := h
  obtain ⟨idx, sockets, halloc⟩ :=
    Pool.alloc_isSome hi hfree (Socket.new (st.capAt (p, slotNet)).poolIndex reply)
  have hocc : (st.capAt (p, slotNet)).isEmpty = false :=
    Cap.isEmpty_eq_false_iff.mpr (by rw [hnet]; decide)
  refine ⟨idx, sockets, ?_⟩
  simp [capStep, netSocketCreateImpl, ht, hnet, hocc, hwrite, hdst, hreply, hpos, halloc,
    CapState.withSockets, CapState.genAt]

/-- A call that returns zero has created a socket. -/
theorem createsSocket_of_capStep {st st' : CapState} {p : Proc} {t : Slot}
    {proto slotForCap : BitVec 32} {driver : NetDriver} (ht : slotArg? slotForCap = some t)
    (h : capStep st (.socketCreate (procByte p) proto slotForCap driver) = some (0, st')) :
    CreatesSocket st (.socketCreate (procByte p) proto slotForCap driver) p t := by
  have heInval : (0 : ℤ) ≠ eInval := by decide
  have hePerm : (0 : ℤ) ≠ ePerm := by decide
  have heNomem : (0 : ℤ) ≠ eNomem := by decide
  have hr := Option.some.inj h
  simp only [netSocketCreateImpl, procIndex?_procByte, ht] at hr
  split at hr
  · exact absurd (Prod.mk.inj hr).1.symm hePerm
  · rename_i hnet
    split at hr
    · exact absurd (Prod.mk.inj hr).1.symm hePerm
    · rename_i hwrite
      split at hr
      · exact absurd (Prod.mk.inj hr).1.symm hePerm
      · rename_i hdst
        split at hr
        · exact absurd (Prod.mk.inj hr).1.symm heNomem
        · rename_i reply hreply
          split at hr
          · rename_i hneg
            have hzero := (Prod.mk.inj hr).1
            have hlt : reply.toInt < 0 := by simpa [BitVec.slt] using hneg
            omega
          · rename_i hpos
            split at hr
            · exact absurd (Prod.mk.inj hr).1.symm heNomem
            · rename_i halloc
              obtain ⟨hidx, hfree, -⟩ := Pool.alloc_ok halloc
              exact ⟨proto, slotForCap, driver, reply, rfl, ht, (occupied_of_kind hnet).2, hwrite,
                by simpa using hdst, hreply, by simpa using hpos, _, hidx, hfree⟩

/-- Read and write are conferred by a cap that has both. -/
theorem rightsRw_le_iff {r : BitVec 8} : RightsLe (capRightRead ||| capRightWrite) r ↔
    r &&& capRightRead ≠ 0#8 ∧ r &&& capRightWrite ≠ 0#8 := by
  revert r
  decide

/-! ## The exact condition

Each call keeps chains intact if it leaves no alias and creates no socket under a Net cap that
cannot be read. If it does one of the two, the chain at that slot is broken right after it. -/

/-- What is promised of a step: after it, every chain of derivations is intact, whatever it was
before. -/
def IntactStep (_ : Hist) (_ : CapCall) (h' : Hist) : Prop := ChainsIntact h'.caps

/-- Installing a properly derived cap keeps chains intact. -/
theorem ChainsIntact.install {st s : CapState} (hchain : ChainsIntact st)
    (hst : s.cspaces = st.cspaces) {x : Place} {cap : Cap}
    (hx : (st.capAt x).isEmpty = true)
    (hnet : ∀ a, (st.capAt a).kind = .socket →
      s.netIdxOf (st.capAt a).poolIndex = st.netIdxOf (st.capAt a).poolIndex)
    (hnew : ∀ b, cap.parent.place? = some b → st.genAt b = cap.parent.generation →
      ProperChild (s.installCap x cap) x b) :
    ChainsIntact (s.installCap x cap) := by
  have hcapAt : ∀ y, s.capAt y = st.capAt y := fun y => by
    rw [CapState.capAt, CapState.capAt, hst]
  have hgenAt : ∀ y, s.genAt y = st.genAt y := fun y => by
    rw [CapState.genAt, CapState.genAt, hst]
  intro a b hpar
  by_cases hax : a = x
  · subst hax
    obtain ⟨hplace, hgen⟩ := CapState.parentOf_installCap_self hpar
    rw [hgenAt] at hgen
    exact hnew b hplace hgen
  · rw [CapState.parentOf_installCap_ne hax] at hpar
    simp only [CapState.parentOf, hcapAt, hgenAt] at hpar
    have hproper := hchain a b hpar
    have hbx : b ≠ x := by
      rintro rfl
      have hocc := hproper.occupied (CapState.parentOf_eq_some.mp hpar).1
      rw [hx] at hocc
      cases hocc
    rw [ProperChild]
    rw [CapState.capAt_installCap, if_neg hax, CapState.capAt_installCap, if_neg hbx, hcapAt,
      hcapAt, netIdxOf_installCap]
    rcases hproper with h | ⟨hkind, hkind', hidx, hrights⟩
    · exact .inl h
    · exact .inr ⟨hkind, hkind', by rwa [hnet a hkind], hrights⟩

/-- The invariant of the runs that go well: chains are intact, the counts of sockets and nets are
right, and no slot holds a recycled cap under an old reference. -/
structure AttenuationInv (h : Hist) : Prop where
  hist : HistInv h
  good : Good h.caps
  intact : ChainsIntact h.caps

theorem attenuationInv_boot (board : Board) : AttenuationInv (histBoot board) :=
  ⟨histInv_boot board, good_bootState board, chainsIntact_boot board⟩

theorem AttenuationInv.sockets {h : Hist} (hinv : AttenuationInv h) : RefLaw h.caps .socket :=
  hinv.good .socket (by simp [refcountedKinds])

theorem good_of_step {board : Board} {h h' : Hist} {c : CapCall} (hgood : Good h.caps)
    (hs : (histMachine board).step h c = some h') : Good h'.caps := by
  obtain ⟨r, hstep, -⟩ := histMachine_step hs
  exact (capStep_effect hstep).good hgood

/-- Where nothing is installed and nothing aliased, no chain changes. -/
theorem chainsIntact_quiet {h : Hist} {c : CapCall} {r : ℤ} {st : CapState}
    (hinv : AttenuationInv h) (hstep : capStep h.caps c = some (r, st))
    (hquiet : ∀ x, (st.capAt x).isEmpty = false → (h.caps.capAt x).isEmpty = false ∧
      ¬ Vacates h.caps c x)
    (hno : NoAlias h.caps c) (hlaw' : RefLaw st .socket) : ChainsIntact st := by
  intro a b hpar
  have ha' := (CapState.parentOf_eq_some.mp hpar).1
  obtain ⟨ha, hva⟩ := hquiet a ha'
  obtain ⟨hpar', hvb⟩ := parentOf_of_noAlias hinv.hist.table hstep hno ha hva hpar
  have hproper := hinv.intact a b hpar'
  have hcapa := (capStep_frame hinv.hist.table hstep hva).2 ha
  have hcapb := (capStep_frame hinv.hist.table hstep hvb).2 (hproper.occupied ha)
  rw [ProperChild, hcapa, hcapb]
  rcases hproper with h' | ⟨hkind, hkind', hidx, hrights⟩
  · exact .inl h'
  · refine .inr ⟨hkind, hkind', ?_, hrights⟩
    rcases netIdxOf_quiet hstep hquiet (h.caps.capAt a).poolIndex with he | he
    · exact he.trans hidx
    · -- the socket is held, so it was not freed
      have hne := hlaw'.netIdxOf_ne_none (a := a) (by rw [hcapa]; exact hkind)
      rw [hcapa] at hne
      exact absurd he hne

/-- A new socket's cap is a proper child of the Net cap it is created under, if that can be read.
The rights it confers are fixed, so this is the only question. -/
theorem chainsIntact_socket {h : Hist} {c : CapCall} {p : Proc} {t : Slot} {handle : BitVec 32}
    {idx : ℕ} {sockets : Pool Socket 256} {child : Cap} (hinv : AttenuationInv h)
    (hchild : child = socketCap (CapId.ofPlace (p, slotNet) (h.caps.genAt (p, slotNet)))
      (h.caps.genAt (p, t)) idx)
    (hcreates : CreatesSocket h.caps c p t) (hnet : (h.caps.capAt (p, slotNet)).kind = .net)
    (hdst : (h.caps.capAt (p, t)).isEmpty = true)
    (halloc : h.caps.objectPools.sockets.alloc
      (Socket.new (h.caps.capAt (p, slotNet)).poolIndex handle) = .ok (idx, sockets))
    (hread : ReadableNet h.caps c) :
    ChainsIntact ((h.caps.withSockets sockets).installCap (p, t) child) := by
  obtain ⟨-, hfree, hget⟩ := Pool.alloc_ok halloc
  refine hinv.intact.install (s := h.caps.withSockets sockets) rfl hdst (fun a ha => ?_)
    fun b hplace hgen => .inr ?_
  · -- a held socket is allocated, so it is not the one allocated now
    have hne := hinv.sockets.netIdxOf_ne_none ha
    have hidx : (h.caps.capAt a).poolIndex ≠ idx := by
      intro he
      rw [CapState.netIdxOf, he, hfree] at hne
      exact hne rfl
    change (sockets.get _).map _ = _
    rw [hget, if_neg hidx]
    rfl
  · rw [hchild, socketCap, CapId.place?_ofPlace] at hplace
    obtain rfl := Option.some.inj hplace
    rw [CapState.capAt_installCap, if_pos rfl, CapState.capAt_installCap,
      if_neg hcreates.slotNet_ne, netIdxOf_installCap]
    refine ⟨by rw [hchild]; rfl, hnet, ?_, ?_⟩
    · rw [hchild]
      change (sockets.get idx).map _ = _
      rw [hget, if_pos rfl]
      rfl
    · rw [hchild]
      exact rightsRw_le_iff.mpr ⟨hread p t hcreates, hcreates.write⟩

/-- **A call under the two conditions keeps chains intact**: a new capability has at most the
rights of its source, and nothing takes the place of a parent that is gone. -/
theorem chainsIntact_step {board : Board} {h h' : Hist} {c : CapCall} (hinv : AttenuationInv h)
    (hs : (histMachine board).step h c = some h') (hno : NoAlias h.caps c)
    (hread : ReadableNet h.caps c) : ChainsIntact h'.caps := by
  have hlaw' : RefLaw h'.caps .socket :=
    good_of_step hinv.good hs .socket (by simp [refcountedKinds])
  cases histMachine_effect hinv.hist.table hs with
  | quiet hstep hquiet => exact chainsIntact_quiet hinv hstep hquiet hno hlaw'
  | @mint p s t child _ hd hparent hrights =>
    refine hinv.intact.install rfl hd.dst (fun _ _ => rfl) fun b hplace _ => .inl ?_
    rw [hparent, CapId.place?_ofPlace] at hplace
    obtain rfl := Option.some.inj hplace
    rw [CapState.capAt_installCap, if_pos rfl, CapState.capAt_installCap, if_neg hd.src_ne_dst]
    exact ⟨hd.kind, hd.index, hrights⟩
  | @copy p s t child _ hd hparent hrights =>
    -- a sibling has the parent of what it is copied from
    refine hinv.intact.install rfl hd.dst (fun _ _ => rfl) fun b hplace hgen => ?_
    rw [hparent] at hplace hgen
    have hproper := hinv.intact (p, s) b (CapState.parentOf_eq_some.mpr ⟨hd.src, hplace, hgen⟩)
    have hne : b ≠ (p, t) := by
      rintro rfl
      have hocc := hproper.occupied hd.src
      rw [hd.dst] at hocc
      cases hocc
    rw [ProperChild]
    rw [CapState.capAt_installCap, if_pos rfl, CapState.capAt_installCap, if_neg hne,
      netIdxOf_installCap, hd.kind, hd.index, hrights]
    exact hproper
  | socket hchild hcall hstep hnet hdst halloc =>
    obtain ⟨proto, slotForCap, driver, rfl, ht⟩ := hcall
    exact chainsIntact_socket hinv hchild (createsSocket_of_capStep ht hstep) hnet hdst halloc
      hread

/-- **Derivation chains, exactly.** In a run from boot chains stay intact if and
only if no call leaves an alias and every socket is created under a Net cap that
can be read. -/
theorem intact_iff (board : Board) (calls : List CapCall) :
    (histMachine board).Along IntactStep (histBoot board) calls ↔
      (histMachine board).Meets (fun h c => NoAlias h.caps c ∧ ReadableNet h.caps c)
        (histBoot board) calls := by
  refine Machine.along_iff_meets (I := AttenuationInv) ?_ ?_ calls _ (attenuationInv_boot board)
  · rintro h c h' hinv hs ⟨hno, hread⟩
    have hintact := chainsIntact_step hinv hs hno hread
    exact ⟨hintact, histInv_step hinv.hist hs, good_of_step hinv.good hs, hintact⟩
  · intro h c h' hinv hs hintact
    obtain ⟨r, hstep, -⟩ := histMachine_step hs
    refine ⟨fun x b hx hb hvb hplace hgen => ?_, fun p t hcreates hread => ?_⟩
    · -- the alias makes an emptied slot the live parent of `b`
      have hcap := (capStep_frame hinv.hist.table hstep hvb).2 hb
      obtain ⟨-, hempty, hgen'⟩ := capStep_vacates hinv.hist.table hstep hx
      have hpar : h'.caps.parentOf b = some x := by
        rw [CapState.parentOf_eq_some, hcap, hgen']
        exact ⟨hb, hplace, hgen.symm⟩
      have hheld := (hintact b x hpar).occupied (by rw [hcap]; exact hb)
      rw [hempty] at hheld
      cases hheld
    · -- the new socket can be read, its parent cannot
      obtain ⟨idx, sockets, hcreate⟩ := capStep_createsSocket hcreates
      have hh' := (Prod.mk.inj (Option.some.inj (hstep.symm.trans hcreate))).2
      have hne := hcreates.slotNet_ne
      have hpar : h'.caps.parentOf (p, t) = some (p, slotNet) := by
        rw [hh', CapState.parentOf_eq_some, CapState.capAt_installCap, if_pos rfl,
          CapState.genAt_installCap]
        exact ⟨rfl, CapId.place?_ofPlace _ _, (CapId.generation_ofPlace _ _).symm⟩
      have hrights := (hintact _ _ hpar).rights
      rw [hh', CapState.capAt_installCap, if_pos rfl, CapState.capAt_installCap, if_neg hne]
        at hrights
      exact (rightsRw_le_iff.mp hrights).1 hread

/-! ## A socket that can be read under a Net cap that cannot

The right to write is all that creation asks for, and the new capability has both rights. -/

/-- Process 2 leaves itself with a Net cap that has the write right alone, and
creates a socket under it. -/
def writeOnlyCalls : List CapCall :=
  [.mint 2#8 2#32 10#32 3#32 0#32, .delete 2#8 2#32, .mint 2#8 10#32 2#32 2#32 0#32,
    .socketCreate 2#8 1#32 20#32 steadyDriver]

/-- **Socket creation widens**: the new capability can read the socket, though the Net capability
it is made under cannot be read with. -/
theorem socket_widens :
    ¬ (histMachine .qemu).Along IntactStep (histBoot .qemu) writeOnlyCalls := by
  intro hall
  have hlast := ((Machine.along_cons rfl).mp ((Machine.along_cons rfl).mp
    ((Machine.along_cons rfl).mp ((Machine.along_cons rfl).mp hall).2).2).2).1
  have hproper : ProperChild _ (2, 20) (2, 2) := hlast (2, 20) (2, 2) rfl
  have hrights : RightsLe 3#8 2#8 := hproper.rights
  exact absurd hrights (by decide)

end Wari
