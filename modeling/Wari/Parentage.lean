import Wari.Attenuation
import Wari.Release

/-!
# Sockets and their NIC

A socket records the index of the NIC it lives on and holds no reference to it; what ties
the two together is that its cap was minted under a Net cap. So a NIC can go before its
sockets: the Net caps that count for it are deleted or revoked one by one, and an orphaned
socket is reached by no cascade. `parentage_iff` says that this, and a broken chain of
parents, is all that can come between them.
-/

namespace Wari

open Lib (Machine Descends)

/-! ## What is promised

Of the state, that no socket is without its NIC, and of a revoke, that it leaves no socket created
under its target. -/

/-- Every allocated socket lives on an allocated NIC. -/
def NetLive (st : CapState) : Prop :=
  ∀ i sock, st.objectPools.sockets.get i = some sock →
    ∃ net, st.objectPools.nets.get sock.netIdx = some net

/-- The slot holds a socket that was created under the cap with identity `k`, or under a cap
whose recorded parents lead to it. -/
def CreatedUnder (h : Hist) (b : Place) (k : ℕ) : Prop :=
  (h.caps.capAt b).kind = .socket ∧
    Relation.TransGen h.ledger.MintedFrom (h.ledger.idAt b) k

/-- A successful revoke of a Net cap leaves no socket that was created under it. -/
def SocketsGo (h : Hist) (c : CapCall) (h' : Hist) : Prop :=
  ∀ p s slot, c = .revoke (procByte p) slot → slotArg? slot = some s →
    (h.caps.capAt (p, s)).kind = .net → capStep h.caps c = some (0, h'.caps) →
    ∀ b, ¬ CreatedUnder h' b (h.ledger.idAt (p, s))

/-- Sockets live on allocated NICs after the step, and none survives the revoke of the Net
cap it was created under. -/
def ParentageStep (h : Hist) (c : CapCall) (h' : Hist) : Prop :=
  NetLive h'.caps ∧ SocketsGo h c h'

/-! ## When it is kept

Two conditions, one for each promise. Both are on the state before the call. -/

/-- The call frees no NIC, unless it frees every socket on it too. -/
def NetsOutlive (st : CapState) (c : CapCall) : Prop :=
  ∀ i sock, st.objectPools.sockets.get i = some sock → Releases st c .net sock.netIdx →
    Releases st c .socket i

/-- From every socket created under a Net cap that the call revokes, live parent references
lead to that cap. -/
def SocketsLinked (h : Hist) (c : CapCall) : Prop :=
  ∀ p s slot, c = .revoke (procByte p) slot → slotArg? slot = some s →
    (h.caps.capAt (p, s)).kind = .net →
    (h.caps.capAt (p, s)).rights &&& capRightWrite ≠ 0#8 →
    ∀ b, CreatedUnder h b (h.ledger.idAt (p, s)) → Descends h.caps.parentOf b (p, s)

/-! ## NICs

A NIC goes with its last capability, whatever sockets are on it. -/

/-- A call that empties no slot frees nothing. -/
theorem not_releases_of_quiet {st : CapState} {c : CapCall} (h : ∀ x, ¬ Vacates st c x)
    (k : ObjectKind) (i : ℕ) : ¬ Releases st c k i :=
  not_releases_of_losing (losing_eq_zero fun x hx => (h x hx).elim)

/-- A NIC stays in its place, unless the call releases it. -/
theorem net_fate {st st' : CapState} {c : CapCall} {r : ℤ} (htable : st.ParentsInTable)
    (hstep : capStep st c = some (r, st')) {j : ℕ} {net : Net}
    (hnet : st.objectPools.nets.get j = some net) :
    (∃ net', st'.objectPools.nets.get j = some net') ↔ ¬ Releases st c .net j := by
  have hobj : st.objectPools.object? .net j = some (.net net) := by
    rw [ObjectPools.object?, hnet]
    rfl
  have hfate := capStep_fate htable hstep hobj
  generalize ho : st'.objectPools.object? .net j = o at hfate
  rw [ObjectPools.object?] at ho
  cases hfate with
  | kept n hno =>
    obtain ⟨net', hget, -⟩ := Option.map_eq_some_iff.mp ho
    exact ⟨fun _ => hno, fun _ => ⟨net', hget⟩⟩
  | freed hrel =>
    have hnone := Option.map_eq_none_iff.mp ho
    refine ⟨?_, fun hno => (hno hrel).elim⟩
    rintro ⟨net', hget⟩
    rw [hnone] at hget
    cases hget

/-- The NIC a held Net cap names is allocated. -/
theorem net_of_held {st : CapState} (hgood : Good st) {a : Place}
    (ha : (st.capAt a).kind = .net) :
    ∃ net, st.objectPools.nets.get (st.capAt a).poolIndex = some net := by
  have hlaw : RefLaw st .net := hgood .net (by simp [refcountedKinds])
  obtain ⟨obj, hobj⟩ := hlaw.object_of_name ha
  obtain ⟨net, hget, -⟩ := Option.map_eq_some_iff.mp hobj
  exact ⟨net, hget⟩

/-- **NICs outlive sockets**, one call further, exactly where the call frees none that has
one. -/
theorem netLive_step {st st' : CapState} {c : CapCall} {r : ℤ} (htable : st.ParentsInTable)
    (hgood : Good st) (hlive : NetLive st) (hstep : capStep st c = some (r, st')) :
    NetLive st' ↔ NetsOutlive st c := by
  constructor
  · intro hlive' i sock hsock hrel
    by_contra hkept
    obtain ⟨net, hnet⟩ := hlive i sock hsock
    rcases socket_fate htable hstep hsock with ⟨-, n, hsock'⟩ | ⟨hfreed, -⟩
    · exact (net_fate htable hstep hnet).mp (hlive' i { sock with refcount := n } hsock') hrel
    · exact hkept hfreed
  · intro hout i sock' hsock'
    rcases hold : st.objectPools.sockets.get i with _ | sock
    · -- a new socket, on the NIC of a held Net cap
      obtain ⟨p, proto, slotForCap, driver, rfl, hkind, hidx⟩ := socket_born hstep hold hsock'
      obtain ⟨net, hnet⟩ := net_of_held hgood hkind
      rw [hidx]
      have hquiet : ∀ x, ¬ Vacates st (.socketCreate (procByte p) proto slotForCap driver) x :=
        fun _ hx => hx
      exact (net_fate htable hstep hnet).mpr (not_releases_of_quiet hquiet _ _)
    · obtain ⟨net, hnet⟩ := hlive i sock hold
      rcases socket_fate htable hstep hold with ⟨hkept, n, hsame⟩ | ⟨-, hnone⟩
      · obtain rfl : _ = sock' := Option.some.inj (hsame.symm.trans hsock')
        exact (net_fate htable hstep hnet).mpr fun hrel => hkept (hout i sock hold hrel)
      · rw [hnone] at hsock'
        cases hsock'

/-! ## Revocation

The cascade follows live references, so it reaches the sockets that are linked to its target by
these. -/

/-- A revoke of an occupied slot with the write right succeeds. -/
theorem capStep_revoke {st : CapState} (htable : st.ParentsInTable) {p : Proc}
    {slot : BitVec 32} {s : Slot} (hs : slotArg? slot = some s)
    (hocc : (st.capAt (p, s)).isEmpty = false)
    (hwrite : (st.capAt (p, s)).rights &&& capRightWrite ≠ 0#8) :
    ∃ st', capStep st (.revoke (procByte p) slot) = some (0, st') := by
  obtain ⟨st', hrev, -⟩ := emptied_revoke htable hocc
  refine ⟨st', ?_⟩
  simp [capStep, capRevokeImpl, hs, hocc, hwrite, hrev]

/-- **A revoke clears the sockets created under the cap**, exactly where all are linked to
it. -/
theorem socketsGo_iff {board : Board} {h h' : Hist} {c : CapCall} (hinv : HistInv h)
    (hs : (histMachine board).step h c = some h') : SocketsGo h c h' ↔ SocketsLinked h c := by
  obtain ⟨r, hstep, hledger⟩ := histMachine_step hs
  constructor
  · rintro hgo p s slot rfl hslot hkind hwrite b hunder
    by_contra hapart
    have hocc : (h.caps.capAt (p, s)).isEmpty = false :=
      Cap.isEmpty_eq_false_iff.mpr (by rw [hkind]; decide)
    obtain ⟨st', hzero⟩ := capStep_revoke hinv.table hslot hocc hwrite
    obtain ⟨rfl, rfl⟩ := Prod.mk.inj (Option.some.inj (hzero.symm.trans hstep))
    -- the socket is no descendant, so it stays where it is
    have hnv : ¬ Vacates h.caps (.revoke (procByte p) slot) b := by
      rintro ⟨q, t, hq, ht, -, -, hd⟩
      rw [procByte_inj hq, Option.some.inj (hslot.symm.trans ht)] at hapart
      exact hapart hd
    have hb : (h.caps.capAt b).isEmpty = false :=
      Cap.isEmpty_eq_false_iff.mpr (by rw [hunder.1]; decide)
    have hsame : h'.ledger = h.ledger := hledger
    refine hgo p s slot rfl hslot hkind hzero b ⟨?_, ?_⟩
    · rw [(capStep_frame hinv.table hstep hnv).2 hb]
      exact hunder.1
    · rw [hsame]
      exact hunder.2
  · rintro hlinked p s slot rfl hslot hkind hzero b ⟨hb, hchain⟩
    have hsame : h'.ledger = h.ledger := hledger
    have hempt := emptied_of_vacates hinv.table hzero (vacates_of_revoke hslot hzero .refl)
    have hnv : ¬ Vacates h.caps (.revoke (procByte p) slot) b := by
      intro hv
      rw [(hempt.inside b hv).2.1] at hb
      cases hb
    rw [(hempt.outside b hnv).1] at hb
    rw [hsame] at hchain
    obtain ⟨q, t, hq, ht, -, hwrite, -⟩ := vacates_of_revoke hslot hzero (x := (p, s)) .refl
    rw [← procByte_inj hq, ← Option.some.inj (hslot.symm.trans ht)] at hwrite
    exact hnv (vacates_of_revoke hslot hzero
      (hlinked p s slot rfl hslot hkind hwrite b ⟨hb, hchain⟩))

/-! ## The exact condition

Put together along a run. -/

/-- What holds as long as NICs outlive their sockets. -/
structure ParentageInv (h : Hist) : Prop where
  hist : HistInv h
  good : Good h.caps
  live : NetLive h.caps

theorem parentageInv_boot (board : Board) : ParentageInv (histBoot board) := by
  refine ⟨histInv_boot board, good_bootState board, fun i sock hsock => ?_⟩
  -- boot makes no socket
  have hnone : (bootState board).objectPools.sockets.get i = none := Pool.get_new i
  rw [histBoot, hnone] at hsock
  cases hsock

/-- **Sockets and their NICs, exactly.** In a run from boot every allocated socket always
lives on an allocated NIC, and every successful revoke of a Net cap clears the sockets
created under it, if and only if no call frees a NIC and not the sockets on it, and every
revoke of a Net cap finds the sockets created under that cap linked to it. -/
theorem parentage_iff (board : Board) (calls : List CapCall) :
    (histMachine board).Along ParentageStep (histBoot board) calls ↔
      (histMachine board).Meets (fun h c => NetsOutlive h.caps c ∧ SocketsLinked h c)
        (histBoot board) calls := by
  refine Machine.along_iff_meets (I := ParentageInv) ?_ ?_ calls _ (parentageInv_boot board)
  · rintro h c h' hinv hs ⟨hout, hlinked⟩
    obtain ⟨r, hstep, -⟩ := histMachine_step hs
    have hlive := (netLive_step hinv.hist.table hinv.good hinv.live hstep).mpr hout
    exact ⟨⟨hlive, (socketsGo_iff hinv.hist hs).mpr hlinked⟩, histInv_step hinv.hist hs,
      good_of_step hinv.good hs, hlive⟩
  · rintro h c h' hinv hs ⟨hlive, hgo⟩
    obtain ⟨r, hstep, -⟩ := histMachine_step hs
    exact ⟨(netLive_step hinv.hist.table hinv.good hinv.live hstep).mp hlive,
      (socketsGo_iff hinv.hist hs).mp hgo⟩

/-! ## A NIC that goes first

The socket's capability outlives the one it was created under. -/

/-- Process 2 creates a socket, and every cap of the NIC is deleted. -/
def netlessCalls : List CapCall :=
  [.socketCreate 2#8 1#32 10#32 steadyDriver, .delete 2#8 2#32, .delete 3#8 2#32,
    .delete 4#8 0#32]

/-- **A socket outlives its NIC**: the last capability for the NIC is deleted, and the socket's
entry stays. -/
theorem socket_outlives_net :
    ¬ (histMachine .qemu).Along ParentageStep (histBoot .qemu) netlessCalls := by
  intro hall
  have hlast := ((Machine.along_cons rfl).mp ((Machine.along_cons rfl).mp
    ((Machine.along_cons rfl).mp ((Machine.along_cons rfl).mp hall).2).2).2).1
  obtain ⟨net, hnet⟩ := hlast.1 0 _ rfl
  cases hnet

end Wari
