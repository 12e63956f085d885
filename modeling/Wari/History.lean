import Wari.Refcount

/-!
# Derivation history

A slot stores one parent reference, guarded by a generation. What derivation
means is a matter of history: which cap was minted or copied from which. The
ledger keeps that history next to the state; it is proof-only, and no step of the
machine reads it. Each installed cap gets a fresh identity and an `Origin`, and
`MintedFrom` follows copies back to the mint they stem from, which is the step
whose source a parent reference records.

The first half says once which slots a call empties (`Vacates`) and that it
leaves every other one alone (`capStep_frame`).
-/

namespace Wari

open Lib (Machine Descends)

/-! ## The slots a call empties

Which slots a call will empty can be told before it is made. Their generations move on, and all
other slots keep theirs. -/

/-- The slots a call empties, told from the state before it. -/
def Vacates (st : CapState) : CapCall → Place → Prop
  | .delete b slot, x =>
    ∃ p s, b = procByte p ∧ slotArg? slot = some s ∧ (st.capAt (p, s)).isEmpty = false ∧ x = (p, s)
  | .revoke b slot, x =>
    ∃ p s, b = procByte p ∧ slotArg? slot = some s ∧ (st.capAt (p, s)).isEmpty = false ∧
      (st.capAt (p, s)).rights &&& capRightWrite ≠ 0#8 ∧ Descends st.parentOf x (p, s)
  | .socketClose b slot _, x =>
    ∃ p s, b = procByte p ∧ slotArg? slot = some s ∧ (st.capAt (p, s)).kind = .socket ∧
      (∃ sock, st.objectPools.sockets.get (st.capAt (p, s)).poolIndex = some sock) ∧ x = (p, s)
  | _, _ => False

/-- What a call does to the generation of a slot it empties. -/
def bumpOf : CapCall → BitVec 16 → BitVec 16
  | .socketClose .. => wrappingSucc
  | _ => saturatingSucc

/-- What emptying the slots in `S` does to the tables. -/
structure Emptied (st st' : CapState) (S : Place → Prop) (f : BitVec 16 → BitVec 16) : Prop where
  inside : ∀ x, S x → (st.capAt x).isEmpty = false ∧ st'.capAt x = Cap.empty ∧
    st'.genAt x = f (st.genAt x)
  outside : ∀ x, ¬ S x → st'.capAt x = st.capAt x ∧ st'.genAt x = st.genAt x

/-- Removing one capability empties its slot, and no other. -/
theorem emptied_removeCap {st : CapState} {a : Place} (hocc : (st.capAt a).isEmpty = false)
    (f : BitVec 16 → BitVec 16) : Emptied st (st.removeCap a f) (fun x => x = a) f := by
  refine ⟨?_, fun x hx => ?_⟩
  · rintro x rfl
    exact ⟨hocc, by simp, by simp⟩
  · exact ⟨by simp [hx], by simp [hx]⟩

/-- The cascade empties the slots of the descendants, and those only. -/
theorem emptied_revoke {st : CapState} (htable : st.ParentsInTable) {a : Place}
    (hocc : (st.capAt a).isEmpty = false) :
    ∃ st', revoke st (procByte a.1) (slotByte a.2) = some (.ok (), st') ∧
      Emptied st st' (fun x => Descends st.parentOf x a) saturatingSucc := by
  obtain ⟨st', S, hrev, hS, hcap, hgen, -⟩ := revoke_ok htable hocc
  refine ⟨st', hrev, fun x hx => ?_, fun x hx => ?_⟩
  · have hmem : x ∈ S := (hS x).mpr hx
    exact ⟨occupied_of_descends hx hocc, by rw [hcap x, if_pos hmem], by rw [hgen x, if_pos hmem]⟩
  · have hmem : x ∉ S := fun h => hx ((hS x).mp h)
    exact ⟨by rw [hcap x, if_neg hmem], by rw [hgen x, if_neg hmem]⟩

theorem procByte_inj {p q : Proc} (h : procByte p = procByte q) : p = q := by
  have hval := congrArg BitVec.toNat h
  rw [toNat_procByte, toNat_procByte] at hval
  exact Fin.ext hval

/-- A call that can empty a slot does. -/
theorem emptied_of_vacates {st st' : CapState} (htable : st.ParentsInTable) {c : CapCall} {r : ℤ}
    (h : capStep st c = some (r, st')) {x₀ : Place} (hv : Vacates st c x₀) :
    Emptied st st' (Vacates st c) (bumpOf c) := by
  cases c with
  | delete b slot =>
    obtain ⟨p, s, rfl, hs, hocc, -⟩ := hv
    have hstep : capStep st (.delete (procByte p) slot) =
        some (0, st.removeCap (p, s) saturatingSucc) := by
      simp [capStep, capDeleteImpl, hs, hocc]
    obtain ⟨-, rfl⟩ := Prod.mk.inj (Option.some.inj (h.symm.trans hstep))
    have hiff : Vacates st (.delete (procByte p) slot) = fun x => x = (p, s) := by
      funext x
      refine propext ⟨?_, fun hx => ⟨p, s, rfl, hs, hocc, hx⟩⟩
      rintro ⟨q, t, hq, ht, -, rfl⟩
      rw [procByte_inj hq, Option.some.inj (hs.symm.trans ht)]
    rw [hiff]
    exact emptied_removeCap hocc saturatingSucc
  | revoke b slot =>
    obtain ⟨p, s, rfl, hs, hocc, hwrite, -⟩ := hv
    obtain ⟨st₁, hrev, hempt⟩ := emptied_revoke htable hocc
    have hstep : capStep st (.revoke (procByte p) slot) = some (0, st₁) := by
      simp [capStep, capRevokeImpl, hs, hocc, hwrite, hrev]
    obtain ⟨-, rfl⟩ := Prod.mk.inj (Option.some.inj (h.symm.trans hstep))
    have hiff : Vacates st (.revoke (procByte p) slot) =
        fun x => Descends st.parentOf x (p, s) := by
      funext x
      refine propext ⟨?_, fun hx => ⟨p, s, rfl, hs, hocc, hwrite, hx⟩⟩
      rintro ⟨q, t, hq, ht, -, -, hd⟩
      rwa [procByte_inj hq, Option.some.inj (hs.symm.trans ht)]
    rw [hiff]
    exact hempt
  | socketClose b slot driver =>
    obtain ⟨p, s, rfl, hs, hkind, ⟨sock, hsock⟩, -⟩ := hv
    have hocc : (st.capAt (p, s)).isEmpty = false :=
      Cap.isEmpty_eq_false_iff.mpr (by rw [hkind]; decide)
    have hstep : ∃ r', capStep st (.socketClose (procByte p) slot driver) =
        some (r', st.removeCap (p, s) wrappingSucc) := by
      simp only [capStep, netSocketCloseImpl, procIndex?_procByte, hs, hocc, hkind, hsock]
      simp only [bne_self_eq_false, Bool.or_self, Bool.false_eq_true, if_false]
      split <;> exact ⟨_, rfl⟩
    obtain ⟨r', hstep⟩ := hstep
    obtain ⟨-, rfl⟩ := Prod.mk.inj (Option.some.inj (h.symm.trans hstep))
    have hiff : Vacates st (.socketClose (procByte p) slot driver) = fun x => x = (p, s) := by
      funext x
      refine propext ⟨?_, fun hx => ⟨p, s, rfl, hs, hkind, ⟨sock, hsock⟩, hx⟩⟩
      rintro ⟨q, t, hq, ht, -, -, rfl⟩
      rw [procByte_inj hq, Option.some.inj (hs.symm.trans ht)]
    rw [hiff]
    exact emptied_removeCap hocc wrappingSucc
  | mint _ _ _ _ _ => exact hv.elim
  | copy _ _ _ => exact hv.elim
  | socketCreate _ _ _ _ => exact hv.elim

/-- **What a call leaves alone.** A slot a call does not empty keeps its
generation, and its cap if it has one. -/
theorem capStep_frame {st st' : CapState} (htable : st.ParentsInTable) {c : CapCall} {r : ℤ}
    (h : capStep st c = some (r, st')) {x : Place} (hx : ¬ Vacates st c x) :
    st'.genAt x = st.genAt x ∧ ((st.capAt x).isEmpty = false → st'.capAt x = st.capAt x) := by
  by_cases hv : ∃ x₀, Vacates st c x₀
  · obtain ⟨x₀, hv⟩ := hv
    obtain ⟨hcap, hgen⟩ := (emptied_of_vacates htable h hv).outside x hx
    exact ⟨hgen, fun _ => hcap⟩
  · -- nothing is emptied: the call is refused or installs a cap in an empty slot
    have hput : ∀ {st₁ : CapState} {a : Place} {cap : Cap}, st₁.cspaces = st.cspaces →
        (st.capAt a).isEmpty = true →
        (st₁.installCap a cap).genAt x = st.genAt x ∧
          ((st.capAt x).isEmpty = false → (st₁.installCap a cap).capAt x = st.capAt x) := by
      intro st₁ a cap hcs ha
      have hcap : ∀ y, st₁.capAt y = st.capAt y := fun y => by
        rw [CapState.capAt, CapState.capAt, hcs]
      have hgen : st₁.genAt x = st.genAt x := by rw [CapState.genAt, CapState.genAt, hcs]
      refine ⟨by rw [CapState.genAt_installCap, hgen], fun hocc => ?_⟩
      have hne : x ≠ a := by
        rintro rfl
        rw [ha] at hocc
        cases hocc
      rw [CapState.capAt_installCap, if_neg hne, hcap]
    cases capStep_effect h with
    | refused => exact ⟨rfl, fun _ => rfl⟩
    | minted _ _ hd => exact hput rfl hd.dst
    | copied _ _ hd => exact hput rfl hd.dst
    | socketCreated _ _ _ hdst => exact hput rfl hdst
    | @revoked _ p s _ hs hocc hwrite =>
      exact absurd ⟨(p, s), p, s, rfl, hs, hocc, hwrite, .refl⟩ hv
    | @deleted _ p s hs hocc => exact absurd ⟨(p, s), p, s, rfl, hs, hocc, rfl⟩ hv
    | @socketClosed _ _ p s _ sock hs hkind hsock =>
      exact absurd ⟨(p, s), p, s, rfl, hs, hkind, ⟨sock, hsock⟩, rfl⟩ hv

/-- What a call does to a slot it empties. -/
theorem capStep_vacates {st st' : CapState} (htable : st.ParentsInTable) {c : CapCall} {r : ℤ}
    (h : capStep st c = some (r, st')) {x : Place} (hx : Vacates st c x) :
    (st.capAt x).isEmpty = false ∧ st'.capAt x = Cap.empty ∧
      st'.genAt x = bumpOf c (st.genAt x) :=
  (emptied_of_vacates htable h hx).inside x hx

/-- A cascade that reports success ran from an occupied slot with the write
right. -/
theorem vacates_of_revoke {st st' : CapState} {p : Proc} {slot : BitVec 32} {s : Slot}
    (hs : slotArg? slot = some s)
    (h : capStep st (.revoke (procByte p) slot) = some (0, st')) {x : Place}
    (hx : Descends st.parentOf x (p, s)) : Vacates st (.revoke (procByte p) slot) x := by
  generalize hc : CapCall.revoke (procByte p) slot = c at h
  cases capStep_effect h with
  | refused hr => exact absurd hr (lt_irrefl 0)
  | revoked hs' hocc hwrite =>
    obtain ⟨hp, rfl⟩ := CapCall.revoke.inj hc
    obtain rfl := procByte_inj hp
    obtain rfl := Option.some.inj (hs.symm.trans hs')
    exact ⟨p, s, rfl, hs, hocc, hwrite, hx⟩
  | socketClosed => cases hc
  | minted => cases hc
  | copied => cases hc
  | deleted => cases hc
  | socketCreated => cases hc

/-! ## Live parents after a step

What happens to a live reference when slots are filled and emptied around it. -/

/-- The live parent of a slot that has just been filled. -/
theorem CapState.parentOf_installCap_self {st : CapState} {a b : Place} {cap : Cap}
    (h : (st.installCap a cap).parentOf a = some b) :
    cap.parent.place? = some b ∧ st.genAt b = cap.parent.generation := by
  obtain ⟨-, hplace, hgen⟩ := CapState.parentOf_eq_some.mp h
  rw [CapState.capAt_installCap, if_pos rfl] at hplace hgen
  rw [CapState.genAt_installCap] at hgen
  exact ⟨hplace, hgen⟩

/-- Filling one slot changes no other slot's live parent. -/
theorem CapState.parentOf_installCap_ne {st : CapState} {a b : Place} {cap : Cap} (hb : b ≠ a) :
    (st.installCap a cap).parentOf b = st.parentOf b := by
  simp only [CapState.parentOf, CapState.capAt_installCap, if_neg hb, CapState.genAt_installCap]

/-- A slot that keeps its cap, under a parent that is not emptied, keeps its
live parent. -/
theorem parentOf_of_frame {st st' : CapState} (htable : st.ParentsInTable) {c : CapCall} {r : ℤ}
    (h : capStep st c = some (r, st')) {a b : Place} (hocc : (st.capAt a).isEmpty = false)
    (ha : ¬ Vacates st c a) (hb : ¬ Vacates st c b) :
    st'.parentOf a = some b ↔ st.parentOf a = some b := by
  have hcap := (capStep_frame htable h ha).2 hocc
  have hgen := (capStep_frame htable h hb).1
  rw [CapState.parentOf_eq_some, CapState.parentOf_eq_some, hcap, hgen]

/-! ## The ledger

Caps get numbers when they are installed, and the ledger has for each number where it came from:
the kernel, a mint, or a copy. Numbers are never used again. -/

/-- How a capability came to be, which is written down when it comes to be. -/
inductive Origin where
  /-- issued by the kernel at boot -/
  | root
  /-- minted from the cap with this identity -/
  | minted (source : ℕ)
  /-- copied from the cap with this identity -/
  | copied (source : ℕ)

/-- The identities of caps, and where each came from. It outlives the caps, so derivation can be
spoken of after a link of it was deleted. -/
structure Ledger where
  /-- the next fresh identity -/
  next : ℕ
  /-- the identity of the cap a slot holds, or held last -/
  idAt : Place → ℕ
  /-- where each identity came from -/
  origin : ℕ → Origin

namespace Ledger

/-- At boot every slot has an identity of its own, and all are kernel-issued. -/
def boot : Ledger := ⟨4096, fun a => a.1.val * 256 + a.2.val, fun _ => .root⟩

/-- A cap of origin `o` is installed in `a`. -/
def record (l : Ledger) (a : Place) (o : Origin) : Ledger :=
  ⟨l.next + 1, Function.update l.idAt a l.next, Function.update l.origin l.next o⟩

/-- The history after a call that returned `r`. -/
def after (l : Ledger) (r : ℤ) : CapCall → Ledger
  | .mint b parentSlot targetSlot _ _ =>
    match procIndex? b, slotArg? parentSlot, slotArg? targetSlot with
    | some p, some s, some t => if r = 0 then l.record (p, t) (.minted (l.idAt (p, s))) else l
    | _, _, _ => l
  | .copy b srcSlot targetSlot =>
    match procIndex? b, slotArg? srcSlot, slotArg? targetSlot with
    | some p, some s, some t => if r = 0 then l.record (p, t) (.copied (l.idAt (p, s))) else l
    | _, _, _ => l
  | .socketCreate b _ slotForCap _ =>
    match procIndex? b, slotArg? slotForCap with
    | some p, some t => if r = 0 then l.record (p, t) (.minted (l.idAt (p, slotNet))) else l
    | _, _ => l
  | _ => l

@[simp] theorem idAt_record (l : Ledger) (a b : Place) (o : Origin) :
    (l.record a o).idAt b = if b = a then l.next else l.idAt b := by
  by_cases h : b = a
  · subst h
    simp [record]
  · simp [record, h]

@[simp] theorem origin_record (l : Ledger) (a : Place) (o : Origin) (i : ℕ) :
    (l.record a o).origin i = if i = l.next then o else l.origin i := by
  by_cases h : i = l.next
  · subst h
    simp [record]
  · simp [record, h]

@[simp] theorem next_record (l : Ledger) (a : Place) (o : Origin) :
    (l.record a o).next = l.next + 1 := rfl

/-- Only a call that returns zero is recorded. -/
theorem after_of_neg (l : Ledger) {r : ℤ} (hr : r < 0) (c : CapCall) : l.after r c = l := by
  have hne : r ≠ 0 := by omega
  simp only [after]
  split
  · split
    · rw [if_neg hne]
    · rfl
  · split
    · rw [if_neg hne]
    · rfl
  · split
    · rw [if_neg hne]
    · rfl
  · rfl

/-- The cap with identity `i` stems, through copies, from a mint whose source was the cap with
identity `k`. A copy records its source's parent, so it hangs where its source hangs. -/
inductive MintedFrom (l : Ledger) : ℕ → ℕ → Prop where
  | mint {i k : ℕ} (h : l.origin i = .minted k) : MintedFrom l i k
  | copy {i j k : ℕ} (h : l.origin i = .copied j) (hj : MintedFrom l j k) : MintedFrom l i k

/-- Identities and origins are in use, and no two slots share an identity. -/
structure WellFormed (l : Ledger) : Prop where
  idAt_lt : ∀ a, l.idAt a < l.next
  source_lt : ∀ i < l.next, ∀ k, l.origin i = .minted k ∨ l.origin i = .copied k → k < l.next
  idAt_inj : ∀ a b, l.idAt a = l.idAt b → a = b

theorem wellFormed_boot : boot.WellFormed := by
  refine ⟨fun a => ?_, fun i _ k h => ?_, fun a b h => ?_⟩
  · have hp := proc_lt a.1
    have hs := slot_lt a.2
    change a.1.val * 256 + a.2.val < 4096
    omega
  · rcases h with h | h <;> cases h
  · change a.1.val * 256 + a.2.val = b.1.val * 256 + b.2.val at h
    have ha := slot_lt a.2
    have hb := slot_lt b.2
    exact Prod.ext (Fin.ext (by omega)) (Fin.ext (by omega))

/-- A fresh identity whose source is in use keeps the ledger well-formed. -/
theorem WellFormed.record {l : Ledger} (h : l.WellFormed) (a : Place) {o : Origin}
    (ho : ∀ k, o = .minted k ∨ o = .copied k → k < l.next) : (l.record a o).WellFormed := by
  refine ⟨fun b => ?_, fun i hi k hk => ?_, fun b c hbc => ?_⟩
  · rw [idAt_record, next_record]
    split
    · omega
    · have := h.idAt_lt b
      omega
  · rw [origin_record] at hk
    rw [next_record] at hi ⊢
    split at hk
    · have := ho k hk
      omega
    · have := h.source_lt i (by omega) k hk
      omega
  · rw [idAt_record, idAt_record] at hbc
    by_cases hb : b = a
    · by_cases hc : c = a
      · rw [hb, hc]
      · rw [if_pos hb, if_neg hc] at hbc
        have := h.idAt_lt c
        omega
    · by_cases hc : c = a
      · rw [if_neg hb, if_pos hc] at hbc
        have := h.idAt_lt b
        omega
      · rw [if_neg hb, if_neg hc] at hbc
        exact h.idAt_inj b c hbc

/-- A new record says nothing new about the identities in use. -/
theorem WellFormed.mintedFrom_record {l : Ledger} (h : l.WellFormed) (a : Place) (o : Origin)
    {i k : ℕ} (hi : i < l.next) : (l.record a o).MintedFrom i k ↔ l.MintedFrom i k := by
  have horigin : ∀ j < l.next, (l.record a o).origin j = l.origin j := fun j hj => by
    rw [origin_record, if_neg (by omega)]
  constructor
  · intro hm
    induction hm with
    | mint ho => exact .mint (by rwa [horigin _ hi] at ho)
    | copy ho _ ih =>
      rw [horigin _ hi] at ho
      exact .copy ho (ih (h.source_lt _ hi _ (.inr ho)))
  · intro hm
    induction hm with
    | mint ho => exact .mint (by rwa [horigin _ hi])
    | copy ho _ ih => exact .copy (by rwa [horigin _ hi]) (ih (h.source_lt _ hi _ (.inr ho)))

/-- The source of a mint is an identity in use. -/
theorem WellFormed.mintedFrom_lt {l : Ledger} (h : l.WellFormed) {i k : ℕ} (hi : i < l.next)
    (hm : l.MintedFrom i k) : k < l.next := by
  induction hm with
  | mint ho => exact h.source_lt _ hi _ (.inl ho)
  | copy ho _ ih => exact ih (h.source_lt _ hi _ (.inr ho))

/-- The source of a cap just installed is older. -/
theorem WellFormed.mintedFrom_next_lt {l : Ledger} (h : l.WellFormed) (a : Place) {o : Origin}
    (ho : ∀ k, o = .minted k ∨ o = .copied k → k < l.next) {k : ℕ}
    (hm : (l.record a o).MintedFrom l.next k) : k < l.next := by
  cases hm with
  | mint h' =>
    rw [origin_record, if_pos rfl] at h'
    exact ho k (.inl h')
  | @copy _ j _ h' hj =>
    rw [origin_record, if_pos rfl] at h'
    have hlt := ho j (.inr h')
    exact h.mintedFrom_lt hlt ((h.mintedFrom_record a o hlt).mp hj)

/-- A capability that was just minted is minted from its source, and from nothing else. -/
theorem mintedFrom_record_mint (l : Ledger) (a : Place) (j k : ℕ) :
    (l.record a (.minted j)).MintedFrom l.next k ↔ k = j := by
  constructor
  · intro hm
    cases hm with
    | mint ho =>
      rw [origin_record, if_pos rfl] at ho
      exact (Origin.minted.inj ho).symm
    | copy ho =>
      rw [origin_record, if_pos rfl] at ho
      cases ho
  · rintro rfl
    exact .mint (by rw [origin_record, if_pos rfl])

/-- A copy is from the mint its source is from. -/
theorem WellFormed.mintedFrom_record_copy {l : Ledger} (h : l.WellFormed) (a : Place) {j : ℕ}
    (hj : j < l.next) (k : ℕ) :
    (l.record a (.copied j)).MintedFrom l.next k ↔ l.MintedFrom j k := by
  rw [← h.mintedFrom_record a (.copied j) hj]
  constructor
  · intro hm
    cases hm with
    | mint ho =>
      rw [origin_record, if_pos rfl] at ho
      cases ho
    | copy ho hk =>
      rw [origin_record, if_pos rfl] at ho
      obtain rfl := Origin.copied.inj ho
      exact hk
  · intro hm
    exact .copy (by rw [origin_record, if_pos rfl]) hm

end Ledger

/-! ## The capability system with its history

The ledger next to the state, and what a call can do to both. -/

/-- A capability state, and how it came about. -/
structure Hist where
  /-- the capability state -/
  caps : CapState
  /-- the ledger -/
  ledger : Ledger

/-- The capability system from boot, keeping its history. -/
def histMachine (board : Board) : Machine Hist CapCall where
  init h := h = ⟨bootState board, .boot⟩
  step h c := (capStep h.caps c).map fun out => ⟨out.2, h.ledger.after out.1 c⟩

theorem histMachine_records (board : Board) :
    (histMachine board).Records capMachine Hist.caps := by
  intro h c
  simp [histMachine, capMachine, Function.comp_def]

/-- The state that boot leaves, with the ledger of the capabilities it installed. -/
def histBoot (board : Board) : Hist := ⟨bootState board, .boot⟩

/-- The ledger follows the capability system and does not steer it. -/
theorem capMachine_run_iff {board : Board} {calls : List CapCall} {st : CapState} :
    capMachine.Run (bootState board) calls st ↔
      ∃ h, (histMachine board).Run (histBoot board) calls h ∧ h.caps = st := by
  change capMachine.Run (histBoot board).caps calls st ↔ _
  exact (histMachine_records board).run_iff

theorem histMachine_of_capStep (board : Board) {h : Hist} {c : CapCall} {r : ℤ} {st : CapState}
    (hstep : capStep h.caps c = some (r, st)) :
    (histMachine board).step h c = some ⟨st, h.ledger.after r c⟩ :=
  congrArg (Option.map _) hstep

/-- What a call can do to a state with history: nothing, empty slots, or fill one slot with a cap
of a known origin. -/
inductive HistEffect (h : Hist) (c : CapCall) : Hist → Prop where
  /-- no cap is installed: refused, or slots emptied -/
  | quiet {r : ℤ} {st : CapState} (hstep : capStep h.caps c = some (r, st))
      (hquiet : ∀ x, (st.capAt x).isEmpty = false → (h.caps.capAt x).isEmpty = false ∧
        ¬ Vacates h.caps c x) : HistEffect h c ⟨st, h.ledger⟩
  /-- a child is minted -/
  | mint {p : Proc} {s t : Slot} {child : Cap}
      (hstep : capStep h.caps c = some (0, h.caps.installCap (p, t) child))
      (hd : Derives h.caps p s t child)
      (hparent : child.parent = CapId.ofPlace (p, s) (h.caps.genAt (p, s)))
      (hrights : RightsLe child.rights (h.caps.capAt (p, s)).rights) :
      HistEffect h c
        ⟨h.caps.installCap (p, t) child, h.ledger.record (p, t) (.minted (h.ledger.idAt (p, s)))⟩
  /-- a sibling is copied -/
  | copy {p : Proc} {s t : Slot} {child : Cap}
      (hstep : capStep h.caps c = some (0, h.caps.installCap (p, t) child))
      (hd : Derives h.caps p s t child)
      (hparent : child.parent = (h.caps.capAt (p, s)).parent)
      (hrights : child.rights = (h.caps.capAt (p, s)).rights) :
      HistEffect h c
        ⟨h.caps.installCap (p, t) child, h.ledger.record (p, t) (.copied (h.ledger.idAt (p, s)))⟩
  /-- a socket is minted under a Net cap -/
  | socket {p : Proc} {t : Slot} {handle : BitVec 32} {idx : ℕ} {sockets : Pool Socket 256}
      {child : Cap}
      (hchild : child = socketCap (CapId.ofPlace (p, slotNet) (h.caps.genAt (p, slotNet)))
        (h.caps.genAt (p, t)) idx)
      (hcall : ∃ proto slotForCap driver, c = .socketCreate (procByte p) proto slotForCap driver ∧
        slotArg? slotForCap = some t)
      (hstep : capStep h.caps c = some (0, (h.caps.withSockets sockets).installCap (p, t) child))
      (hnet : (h.caps.capAt (p, slotNet)).kind = .net)
      (hdst : (h.caps.capAt (p, t)).isEmpty = true)
      (halloc : h.caps.objectPools.sockets.alloc
        (Socket.new (h.caps.capAt (p, slotNet)).poolIndex handle) = .ok (idx, sockets)) :
      HistEffect h c
        ⟨(h.caps.withSockets sockets).installCap (p, t) child,
          h.ledger.record (p, t) (.minted (h.ledger.idAt (p, slotNet)))⟩

theorem histMachine_step {board : Board} {h h' : Hist} {c : CapCall}
    (hs : (histMachine board).step h c = some h') :
    ∃ r, capStep h.caps c = some (r, h'.caps) ∧ h'.ledger = h.ledger.after r c := by
  obtain ⟨⟨r, st⟩, hstep, rfl⟩ := Option.map_eq_some_iff.mp hs
  exact ⟨r, hstep, rfl⟩

/-- **What a call can do to a state with history**: the effect on the capabilities, and the entry
in the ledger that goes with it. -/
theorem histMachine_effect {board : Board} {h h' : Hist} {c : CapCall}
    (htable : h.caps.ParentsInTable) (hs : (histMachine board).step h c = some h') :
    HistEffect h c h' := by
  obtain ⟨r, hstep, hledger⟩ := histMachine_step hs
  obtain ⟨st', l'⟩ := h'
  change capStep h.caps c = some (r, st') at hstep
  change l' = h.ledger.after r c at hledger
  subst hledger
  -- a call that empties slots leaves no slot filled that was not
  have hempt : ∀ {x₀ : Place}, Vacates h.caps c x₀ → ∀ x, (st'.capAt x).isEmpty = false →
      (h.caps.capAt x).isEmpty = false ∧ ¬ Vacates h.caps c x := by
    intro x₀ hv x hx
    have he := emptied_of_vacates htable hstep hv
    have hnv : ¬ Vacates h.caps c x := by
      intro hvx
      rw [(he.inside x hvx).2.1] at hx
      cases hx
    exact ⟨by rw [← (he.outside x hnv).1]; exact hx, hnv⟩
  cases capStep_effect hstep with
  | refused hr =>
    rw [Ledger.after_of_neg _ hr]
    by_cases hv : ∃ x₀, Vacates h.caps c x₀
    · obtain ⟨x₀, hv⟩ := hv
      exact .quiet hstep (hempt hv)
    · exact .quiet hstep fun x hx => ⟨hx, fun hvx => hv ⟨x, hvx⟩⟩
  | minted hsarg htarg hd hparent hrights =>
    have hl := HistEffect.mint (h := h) hstep hd hparent hrights
    simpa [Ledger.after, hsarg, htarg] using hl
  | copied hsarg htarg hd hparent hrights =>
    have hl := HistEffect.copy (h := h) hstep hd hparent hrights
    simpa [Ledger.after, hsarg, htarg] using hl
  | socketCreated htarg hnet _ hdst halloc =>
    have hl := HistEffect.socket (h := h) rfl ⟨_, _, _, rfl, htarg⟩ hstep hnet hdst halloc
    simpa [Ledger.after, htarg] using hl
  | @revoked _ p s _ hsarg hocc hwrite =>
    exact .quiet hstep (hempt ⟨p, s, rfl, hsarg, hocc, hwrite, .refl⟩)
  | @deleted _ p s hsarg hocc => exact .quiet hstep (hempt ⟨p, s, rfl, hsarg, hocc, rfl⟩)
  | @socketClosed _ _ p s _ sock hsarg hkind hsock =>
    exact .quiet hstep (hempt ⟨p, s, rfl, hsarg, hkind, ⟨sock, hsock⟩, rfl⟩)

end Wari
