import Wari.Gmac

/-!
# Frames from the ring

The frames the driver has not seen completed lie in the ring as a queue, from `RX_NEXT` to the
engine's cursor. `reception_along` says when that queue loses nothing and keeps its order;
`frame_overtaken` and `frame_overwritten` are the two ways it does not.
-/

namespace Wari

open Lib (Machine)
open Lib.Ring (after Laid after_after after_zero)

/-! ## What is promised

Of the state, that what was handed up is what the engine completed, but for the frames rejected;
of a turn, that a frame that is there is found at once. -/

/-- The first `t` frames, less those that the gate rejects. -/
def accepted (filled : List (BitVec 32)) (t : ℕ) : List ℕ :=
  (List.range t).filter fun k => (filled[k]?).any rxFrameOk

/-- **Reception.** No descriptor was armed before the driver saw its last frame completed; what
was handed up is what the engine completed, from the first frame on, in order and each once,
less what the gate rejects; and a frame not handed up yet lies in its buffer, with its
descriptor left to the driver. -/
structure Delivered (s : RxRun) : Prop where
  seen : s.blind = []
  order : s.handed <+: accepted s.filled s.filled.length
  kept : ∀ k ∈ accepted s.filled s.filled.length, k ∉ s.handed →
    ∃ j, engineOwns (s.st.ring j) = false ∧ s.st.bufs j = some k

/-- What is promised of a turn: `receive` finds a frame with its first read if there is any
the driver has not seen, and `consume` passes on the frame that was handed up last. -/
def ReceptionStep (s : RxRun) (i : RxTurn) (s' : RxRun) : Prop :=
  Delivered s' ∧
    (∀ start n, s.st.pc = .reading start n → n.val = 0 → i = .run → (∃ j, s.unseen j ≠ none) →
      s.unseen start ≠ none ∧ s'.unseen start = none) ∧
    (∀ idx len, s.st.pc = .holding idx len → i = .consume →
      s.st.bufs idx = s.handed.getLast? ∧ s.st.bufs idx ≠ none)

/-! ## What has to happen in time

The driver goes round the ring without locking it, so the engine can complete a frame behind its
back. The condition names the two turns at which that does harm. -/

/-- The engine leaves the driver in peace where it matters: `receive` finds a descriptor
completed only while all those that it passed over in the same call are still the engine's,
and the watchdog stops the engine only while all descriptors are. -/
def Undisturbed (s : RxRun) : RxTurn → Prop
  | .run =>
    match s.st.pc with
    | .reading start n => engineOwns (s.st.ring (after start n)) = false →
      ∀ m < n.val, engineOwns (s.st.ring (after start m)) = true
    | .stopping => ∀ j, engineOwns (s.st.ring j) = true
    | _ => True
  | _ => True

/-! ## Accepted frames

The gate looks at each frame by itself, so it can be applied to any part of the sequence. -/

theorem accepted_append {filled : List (BitVec 32)} {t : ℕ} (h : t ≤ filled.length)
    (rdes3 : BitVec 32) : accepted (filled ++ [rdes3]) t = accepted filled t := by
  refine List.filter_congr fun k hk => ?_
  have hlt : k < filled.length := Nat.lt_of_lt_of_le (List.mem_range.mp hk) h
  rw [List.getElem?_append_left hlt]

theorem accepted_succ {filled : List (BitVec 32)} {t : ℕ} {rdes3 : BitVec 32}
    (h : filled[t]? = some rdes3) :
    accepted filled (t + 1) = accepted filled t ++ if rxFrameOk rdes3 then [t] else [] := by
  rw [accepted, accepted, List.range_succ, List.filter_append, List.filter_cons, h]
  rfl

/-- The frames accepted of the first are accepted first. -/
theorem accepted_prefix (filled : List (BitVec 32)) {t u : ℕ} (h : t ≤ u) :
    accepted filled t <+: accepted filled u := by
  obtain ⟨d, rfl⟩ := Nat.exists_eq_add_of_le h
  rw [accepted, accepted, List.range_add, List.filter_append]
  exact List.prefix_append _ _

theorem mem_accepted {filled : List (BitVec 32)} {t k : ℕ} :
    k ∈ accepted filled t ↔ k < t ∧ (filled[k]?).any rxFrameOk = true := by
  rw [accepted, List.mem_filter, List.mem_range]

/-! ## The queue in the ring

The frames the driver has not seen, as a queue in the ring. The engine appends at one end, the
driver takes off the other. -/

/-- The frames from number `t` on lie in the ring in order, from `RX_NEXT` to the engine's
cursor, and those before it are dealt with. -/
structure Queued (s : RxRun) (t : ℕ) : Prop where
  le : t ≤ s.filled.length
  laid : Laid s.unseen s.st.rxNext (List.range' t (s.filled.length - t))
  cursor : s.st.cursor = after s.st.rxNext (s.filled.length - t)
  handed : s.handed = accepted s.filled t

/-- What holds of the driver where it is. -/
def Placed (s : RxRun) : RxPc → Prop
  -- the descriptors passed over since the last one found completed go back to `RX_NEXT`
  | .reading start n => ∃ m ≤ n.val, after start (n.val - m) = s.st.rxNext
  | .rejecting start n => after start (n.val + 1) = s.st.rxNext
  | .holding idx _ => s.st.bufs idx = s.handed.getLast? ∧ s.st.bufs idx ≠ none
  | .recovering _ => s.st.running = false ∧ ∀ j, s.unseen j = none
  | .starting => s.st.running = false ∧ ∀ j, s.unseen j = none
  | _ => True

theorem placed_next {s : RxRun} {start : RxSlot} {n : Fin 16} {m : ℕ} (hm : m ≤ n.val + 1)
    (hnext : after start (n.val + 1 - m) = s.st.rxNext) : Placed s (.next start n) := by
  rw [RxPc.next]
  split
  · exact ⟨m, hm, hnext⟩
  · trivial

/-- What holds as long as the engine does not interfere: the frames not yet seen lie in the ring
in order, each descriptor belongs to the engine, the queue or the driver, and the driver is where
its next access says. -/
structure RxInv (s : RxRun) : Prop where
  queued : ∃ t, Queued s t
  unseen : ∀ j k, s.unseen j = some k → s.filled[k]? = some (s.st.ring j) ∧
    engineOwns (s.st.ring j) = false ∧ s.st.bufs j = some k
  armed : ∀ j, s.unseen j = none → s.st.pc.held ≠ some j → engineOwns (s.st.ring j) = true
  held : ∀ j, s.st.pc.held = some j → s.unseen j = none ∧ engineOwns (s.st.ring j) = false
  placed : Placed s s.st.pc
  seen : s.blind = []

theorem rxInv_started : RxInv .started := by
  refine ⟨⟨0, Nat.le_refl 0, .nil (fun _ => rfl) 0, rfl, rfl⟩, ?_, ?_, ?_, trivial, rfl⟩
  · intro j k hj
    cases hj
  · intro j _ _
    exact engineOwns_armed
  · intro j hj
    cases hj

namespace RxInv

variable {s s' : RxRun}

/-- What has been promised of a state follows. -/
theorem delivered (h : RxInv s) : Delivered s := by
  obtain ⟨t, hq⟩ := h.queued
  refine ⟨h.seen, hq.handed ▸ accepted_prefix s.filled hq.le, fun k hk hnot => ?_⟩
  rw [hq.handed, mem_accepted] at hnot
  rw [mem_accepted] at hk
  have hle : t ≤ k := by
    by_contra hlt
    exact hnot ⟨Nat.lt_of_not_le hlt, hk.2⟩
  have hmem : k ∈ List.range' t (s.filled.length - t) :=
    List.mem_range'_1.mpr ⟨hle, by omega⟩
  obtain ⟨j, hj⟩ := hq.laid.exists_get hmem
  obtain ⟨-, hown, hbuf⟩ := h.unseen j k hj
  exact ⟨j, hown, hbuf⟩

/-- Moving on in the driver's code takes nothing out of the ring. -/
theorem goto {pc : RxPc} (h : RxInv s) (hheld : ∀ j, s.st.pc.held = some j ↔ pc.held = some j)
    (hplaced : Placed s pc) : RxInv (s.goto pc) := by
  obtain ⟨t, hq⟩ := h.queued
  exact ⟨⟨t, hq.le, hq.laid, hq.cursor, hq.handed⟩, h.unseen,
    fun j hj hne => h.armed j hj fun he => hne ((hheld j).mp he),
    fun j hj => h.held j ((hheld j).mpr hj), hplaced, h.seen⟩

/-- **Arming** a descriptor the driver has seen. What it held before, it has given back. -/
theorem rearm {idx : RxSlot} {pc : RxPc} (h : RxInv s) (hidx : s.unseen idx = none)
    (hback : ∀ j, s.st.pc.held = some j → j = idx) (hnone : pc.held = none)
    (hplaced : Placed (s.rearm idx) pc) : RxInv ((s.rearm idx).goto pc) := by
  obtain ⟨t, hq⟩ := h.queued
  have hunseen : Function.update s.unseen idx none = s.unseen :=
    Function.update_eq_self_iff.mpr hidx.symm
  refine ⟨⟨t, hq.le, ?_, hq.cursor, hq.handed⟩, ?_, ?_, ?_, hplaced, ?_⟩
  · change Laid (Function.update s.unseen idx none) _ _
    rw [hunseen]
    exact hq.laid
  · intro j k hj
    change Function.update s.unseen idx none j = some k at hj
    rw [hunseen] at hj
    have hne : j ≠ idx := by
      rintro rfl
      rw [hidx] at hj
      cases hj
    change s.filled[k]? = some (Function.update s.st.ring idx rdes3Armed j) ∧
      engineOwns (Function.update s.st.ring idx rdes3Armed j) = false ∧ s.st.bufs j = some k
    rw [Function.update_of_ne hne]
    exact h.unseen j k hj
  · intro j hj _
    change engineOwns (Function.update s.st.ring idx rdes3Armed j) = true
    change Function.update s.unseen idx none j = none at hj
    rw [hunseen] at hj
    by_cases hsame : j = idx
    · rw [hsame, Function.update_self]
      exact engineOwns_armed
    · rw [Function.update_of_ne hsame]
      exact h.armed j hj fun he => hsame (hback j he)
  · intro j hj
    exact absurd (hnone.symm.trans hj) (by simp)
  · change s.blind ++ (s.unseen idx).toList = []
    rw [hidx, h.seen]
    rfl

/-- A descriptor the engine owns holds no frame. -/
theorem unseen_of_owned {j : RxSlot} (h : RxInv s) (hown : engineOwns (s.st.ring j) = true) :
    s.unseen j = none := by
  by_contra hsome
  obtain ⟨k, hk⟩ := Option.ne_none_iff_exists'.mp hsome
  rw [(h.unseen j k hk).2.1] at hown
  cases hown

/-- A frame more lies at the end of the queue. -/
theorem queued_fill {t : ℕ} (hq : Queued s t) (hfree : s.unseen s.st.cursor = none)
    (rdes3 : BitVec 32) : Queued (s.fill rdes3) t := by
  have hlen : (List.range' t (s.filled.length - t)).length = s.filled.length - t :=
    List.length_range'
  have hgrown : (s.fill rdes3).filled.length = s.filled.length + 1 := List.length_append
  have hmore : s.filled.length + 1 - t = s.filled.length - t + 1 := Nat.succ_sub hq.le
  refine ⟨?_, ?_, ?_, ?_⟩
  · rw [hgrown]
    exact Nat.le_succ_of_le hq.le
  · have hend :
        s.unseen (after s.st.rxNext (List.range' t (s.filled.length - t)).length) = none := by
      rw [hlen, ← hq.cursor]
      exact hfree
    have hpush := hq.laid.push (hq.laid.length_lt hend) s.filled.length
    rw [hlen, ← hq.cursor] at hpush
    rw [hgrown, hmore, List.range'_concat, Nat.one_mul, Nat.add_sub_cancel' hq.le]
    exact hpush
  · rw [hgrown, hmore]
    change after s.st.cursor 1 = after s.st.rxNext (s.filled.length - t + 1)
    rw [hq.cursor, after_after]
  · exact hq.handed.trans (accepted_append hq.le rdes3).symm

/-- The driver is where it was: it holds no descriptor the engine fills, and the engine fills
none while it is stopped. -/
theorem placed_fill {rdes3 : BitVec 32} (h : RxInv s) (hrun : s.st.running = true)
    (hother : ∀ j, s.st.pc.held = some j → j ≠ s.st.cursor) :
    Placed (s.fill rdes3) s.st.pc := by
  have hplaced := h.placed
  cases hpc : s.st.pc with
  | reading start n => rw [hpc] at hplaced; exact hplaced
  | rejecting start n => rw [hpc] at hplaced; exact hplaced
  | holding idx len =>
    rw [hpc] at hplaced
    have hne : idx ≠ s.st.cursor := hother idx (by rw [hpc]; rfl)
    change Function.update s.st.bufs s.st.cursor _ idx = s.handed.getLast? ∧
      Function.update s.st.bufs s.st.cursor _ idx ≠ none
    rw [Function.update_of_ne hne]
    exact hplaced
  | recovering idx =>
    rw [hpc] at hplaced
    exact absurd (hplaced.1.symm.trans hrun) Bool.false_ne_true
  | starting =>
    rw [hpc] at hplaced
    exact absurd (hplaced.1.symm.trans hrun) Bool.false_ne_true
  | idle => trivial
  | watching => trivial
  | consumed idx => trivial
  | stopping => trivial

/-- **A frame more.** The descriptor it goes to is past the end of the queue, and none the
driver holds. -/
theorem fill {rdes3 : BitVec 32} (h : RxInv s) (hrun : s.st.running = true)
    (hown : engineOwns (s.st.ring s.st.cursor) = true) (hleft : engineOwns rdes3 = false) :
    RxInv (s.fill rdes3) := by
  obtain ⟨t, hq⟩ := h.queued
  have hother : ∀ j, s.st.pc.held = some j → j ≠ s.st.cursor := by
    rintro j hj rfl
    rw [(h.held _ hj).2] at hown
    cases hown
  refine ⟨⟨t, queued_fill hq (h.unseen_of_owned hown) rdes3⟩, ?_, ?_, ?_,
    h.placed_fill hrun hother, h.seen⟩
  · intro j k hj
    change Function.update s.unseen s.st.cursor (some s.filled.length) j = some k at hj
    change (s.filled ++ [rdes3])[k]? = some (Function.update s.st.ring s.st.cursor rdes3 j) ∧
      engineOwns (Function.update s.st.ring s.st.cursor rdes3 j) = false ∧
      Function.update s.st.bufs s.st.cursor (some s.filled.length) j = some k
    by_cases hsame : j = s.st.cursor
    · subst hsame
      rw [Function.update_self] at hj
      rw [Function.update_self, Function.update_self, ← Option.some.inj hj,
        List.getElem?_concat_length]
      exact ⟨rfl, hleft, rfl⟩
    · rw [Function.update_of_ne hsame] at hj
      obtain ⟨hfilled, hrest⟩ := h.unseen j k hj
      rw [Function.update_of_ne hsame, Function.update_of_ne hsame,
        List.getElem?_append_left (List.getElem?_eq_some_iff.mp hfilled).1]
      exact ⟨hfilled, hrest⟩
  · intro j hj hne
    change Function.update s.unseen s.st.cursor (some s.filled.length) j = none at hj
    have hsame : j ≠ s.st.cursor := by
      rintro rfl
      rw [Function.update_self] at hj
      cases hj
    rw [Function.update_of_ne hsame] at hj
    change engineOwns (Function.update s.st.ring s.st.cursor rdes3 j) = true
    rw [Function.update_of_ne hsame]
    exact h.armed j hj hne
  · intro j hj
    have hsame := hother j hj
    change Function.update s.unseen s.st.cursor (some s.filled.length) j = none ∧
      engineOwns (Function.update s.st.ring s.st.cursor rdes3 j) = false
    rw [Function.update_of_ne hsame, Function.update_of_ne hsame]
    exact h.held j hj

/-- The first frame of the queue, if there is one, is at `RX_NEXT`. -/
theorem unseen_rxNext {t : ℕ} (hq : Queued s t) (hwaits : ∃ j, s.unseen j ≠ none) :
    t < s.filled.length ∧ s.unseen s.st.rxNext = some t ∧
      Laid (Function.update s.unseen s.st.rxNext none) (after s.st.rxNext 1)
        (List.range' (t + 1) (s.filled.length - (t + 1))) := by
  have hlt : t < s.filled.length := by
    by_contra hge
    have hzero : s.filled.length - t = 0 := by omega
    have hlaid := hq.laid
    rw [hzero] at hlaid
    obtain ⟨j, hj⟩ := hwaits
    exact hj (hlaid.empty_iff.mpr rfl j)
  have hcount : s.filled.length - t = s.filled.length - (t + 1) + 1 := by omega
  have hlaid := hq.laid
  rw [hcount, List.range'_succ] at hlaid
  exact ⟨hlt, hlaid.pop⟩

/-- **A frame taken** from the queue: the driver holds its descriptor, and the frame is handed
up if the gate accepts it. -/
theorem taken {t : ℕ} {pc : RxPc} {counters : RxCounters} {handed : List ℕ} (h : RxInv s)
    (hq : Queued s t) (hwaits : ∃ j, s.unseen j ≠ none) (hfree : s.st.pc.held = none)
    (hheld : pc.held = some s.st.rxNext) (hhanded : handed = accepted s.filled (t + 1))
    (hplaced : Placed
      ⟨{ s.st with rxNext := after s.st.rxNext 1, counters := counters, pc := pc }, s.filled,
        handed, Function.update s.unseen s.st.rxNext none, s.blind⟩ pc) :
    RxInv
      ⟨{ s.st with rxNext := after s.st.rxNext 1, counters := counters, pc := pc }, s.filled,
        handed, Function.update s.unseen s.st.rxNext none, s.blind⟩ := by
  obtain ⟨hlt, hfirst, hlaid⟩ := unseen_rxNext hq hwaits
  refine ⟨⟨t + 1, hlt, hlaid, ?_, hhanded⟩, ?_, ?_, ?_, hplaced, h.seen⟩
  · change s.st.cursor = after (after s.st.rxNext 1) (s.filled.length - (t + 1))
    rw [hq.cursor, after_after]
    congr 1
    omega
  · intro j k hj
    dsimp only at hj
    have hne : j ≠ s.st.rxNext := by
      rintro rfl
      rw [Function.update_self] at hj
      cases hj
    rw [Function.update_of_ne hne] at hj
    exact h.unseen j k hj
  · intro j hj hne
    have hother : j ≠ s.st.rxNext := by
      rintro rfl
      exact hne hheld
    dsimp only at hj
    rw [Function.update_of_ne hother] at hj
    exact h.armed j hj (by rw [hfree]; exact (Option.some_ne_none j).symm)
  · intro j hj
    obtain rfl : s.st.rxNext = j := Option.some.inj (hheld.symm.trans hj)
    exact ⟨Function.update_self _ _ _, (h.unseen _ _ hfirst).2.1⟩

/-- Where `receive` finds a descriptor completed in time, it is the one at `RX_NEXT`. -/
theorem found {start : RxSlot} {n : Fin 16} (h : RxInv s) (hpc : s.st.pc = .reading start n)
    (hclear : engineOwns (s.st.ring (after start n)) = false)
    (hg : ∀ m < n.val, engineOwns (s.st.ring (after start m)) = true) :
    after start n = s.st.rxNext ∧ ∃ j, s.unseen j ≠ none := by
  have hwaits : s.unseen (after start n) ≠ none := by
    intro hnone
    rw [h.armed _ hnone (by rw [hpc]; exact (Option.some_ne_none _).symm)] at hclear
    cases hclear
  obtain ⟨t, hq⟩ := h.queued
  obtain ⟨-, hfirst, -⟩ := unseen_rxNext hq ⟨_, hwaits⟩
  have hplaced := h.placed
  rw [hpc] at hplaced
  obtain ⟨m, hm, hnext⟩ := hplaced
  rcases Nat.eq_zero_or_pos m with rfl | hpos
  · exact ⟨hnext, _, hwaits⟩
  · -- the head of the queue was passed over, so the engine completed it since
    have hown := hg (n.val - m) (by omega)
    rw [hnext, (h.unseen _ _ hfirst).2.1] at hown
    cases hown

/-- **A read** of `receive` keeps the invariant: what it finds is completed in order, as nothing
before it was left. -/
theorem read {start : RxSlot} {n : Fin 16} (h : RxInv s) (hpc : s.st.pc = .reading start n)
    (hg : engineOwns (s.st.ring (after start n)) = false →
      ∀ m < n.val, engineOwns (s.st.ring (after start m)) = true) : RxInv (s.read start n) := by
  have hfree : s.st.pc.held = none := by rw [hpc]; rfl
  rw [RxRun.read]
  split
  · refine h.goto (fun j => ?_) ?_
    · rw [hfree, RxPc.held_next]
    · have hplaced := h.placed
      rw [hpc] at hplaced
      obtain ⟨m, hm, hnext⟩ := hplaced
      exact placed_next (Nat.succ_le_succ hm) (by rwa [Nat.add_sub_add_right])
  · rename_i hclear
    have hclear : engineOwns (s.st.ring (after start n)) = false := by simpa using hclear
    obtain ⟨hhere, hwaits⟩ := h.found hpc hclear (hg hclear)
    obtain ⟨t, hq⟩ := h.queued
    obtain ⟨-, hfirst, -⟩ := unseen_rxNext hq hwaits
    obtain ⟨hword, -, hbuf⟩ := h.unseen _ _ hfirst
    rw [hhere]
    split
    · rename_i hbad
      have hhanded : s.handed = accepted s.filled (t + 1) := by
        rw [accepted_succ hword, if_neg (by simpa using hbad), List.append_nil]
        exact hq.handed
      refine h.taken hq hwaits hfree (congrArg some hhere) hhanded ?_
      change after start (n.val + 1) = after s.st.rxNext 1
      rw [← hhere, after_after]
    · rename_i hgood
      have hhanded : s.handed ++ (s.st.bufs s.st.rxNext).toList = accepted s.filled (t + 1) := by
        rw [accepted_succ hword, if_pos (by simpa using hgood), hbuf, hq.handed]
        rfl
      refine h.taken hq hwaits hfree rfl hhanded ?_
      change s.st.bufs s.st.rxNext = (s.handed ++ (s.st.bufs s.st.rxNext).toList).getLast? ∧
        s.st.bufs s.st.rxNext ≠ none
      rw [hbuf]
      exact ⟨List.getLast?_concat.symm, Option.some_ne_none t⟩

/-- **The watchdog** decides, and keeps the invariant whatever it decides. -/
theorem watch (h : RxInv s) (hpc : s.st.pc = .watching) (st rxFrames : BitVec 32) :
    RxInv (s.watch st rxFrames) := by
  obtain ⟨t, hq⟩ := h.queued
  have hcounted : ∀ c, RxInv { s with st := { s.st with counters := c } } := fun c =>
    ⟨⟨t, hq.le, hq.laid, hq.cursor, hq.handed⟩, h.unseen, h.armed, h.held, h.placed, h.seen⟩
  have hfree : s.st.pc.held = none := by rw [hpc]; rfl
  rw [RxRun.watch]
  split
  · exact (hcounted _).goto (fun j => by rw [hfree]; rfl) trivial
  · exact (hcounted _).goto (fun j => by rw [hfree]; rfl) trivial

/-- **The stop**, with the ring all the engine's, which is when no frame is left unread in it. -/
theorem stop (h : RxInv s) (hg : ∀ j, engineOwns (s.st.ring j) = true) : RxInv s.stop := by
  obtain ⟨t, hq⟩ := h.queued
  have hseen : ∀ j, s.unseen j = none := fun j => h.unseen_of_owned (hg j)
  refine ⟨⟨t, hq.le, hq.laid, hq.cursor, hq.handed⟩, h.unseen, fun j _ _ => hg j, ?_,
    ⟨rfl, hseen⟩, h.seen⟩
  intro j hj
  cases hj

/-- **A descriptor armed** by the recovery: by then no descriptor holds a frame that the driver
has not seen. -/
theorem recover {idx : RxSlot} (h : RxInv s) (hpc : s.st.pc = .recovering idx) :
    RxInv (s.recover idx) := by
  have hplaced := h.placed
  rw [hpc] at hplaced
  obtain ⟨hrun, hseen⟩ := hplaced
  have hstill : ∀ j, (s.rearm idx).unseen j = none := by
    intro j
    change Function.update s.unseen idx none j = none
    rw [Function.update_eq_self_iff.mpr (hseen idx).symm]
    exact hseen j
  refine h.rearm (hseen idx) (fun j hj => ?_) ?_ ?_
  · rw [hpc] at hj
    cases hj
  · split <;> rfl
  · split
    · exact ⟨hrun, hstill⟩
    · exact ⟨hrun, hstill⟩

/-- **The start**: queue and engine both go back to the first descriptor, so that they meet there.
-/
theorem restart (h : RxInv s) (hpc : s.st.pc = .starting) : RxInv s.restart := by
  have hplaced := h.placed
  rw [hpc] at hplaced
  obtain ⟨-, hseen⟩ := hplaced
  obtain ⟨t, hq⟩ := h.queued
  have hnil := hq.laid.empty_iff.mp hseen
  have hall : s.filled.length - t = 0 := List.range'_eq_nil_iff.mp hnil
  refine ⟨⟨t, hq.le, ?_, ?_, hq.handed⟩, h.unseen, fun j hj _ => h.armed j hj ?_, ?_, trivial,
    h.seen⟩
  · change Laid s.unseen 0 (List.range' t (s.filled.length - t))
    rw [hnil]
    exact .nil hseen 0
  · change (0 : RxSlot) = after 0 (s.filled.length - t)
    rw [hall, after_zero]
  · rw [hpc]
    exact (Option.some_ne_none j).symm
  · intro j hj
    cases hj

/-- **A descriptor given back**, by the gate, by `consume` or by the drop of a token. -/
theorem giveBack {idx : RxSlot} {pc : RxPc} (h : RxInv s) (hheld : s.st.pc.held = some idx)
    (hnone : pc.held = none) (hplaced : Placed (s.rearm idx) pc) :
    RxInv ((s.rearm idx).goto pc) :=
  h.rearm (h.held idx hheld).1 (fun _ hj => Option.some.inj (hj.symm.trans hheld)) hnone hplaced

/-- **Step lemma**: every turn that disturbs nothing keeps the invariant. -/
theorem step {i : RxTurn} (h : RxInv s) (hs : rxStep s i = some s') (hg : Undisturbed s i) :
    RxInv s' := by
  cases i with
  | fill rdes3 =>
    rw [rxStep] at hs
    split at hs
    · rename_i hcond
      rw [← Option.some.inj hs]
      simp only [Bool.and_eq_true, Bool.not_eq_true'] at hcond
      exact h.fill hcond.1.1 hcond.1.2 hcond.2
    · cases hs
  | receive =>
    rw [rxStep] at hs
    split at hs
    · rename_i hpc
      rw [← Option.some.inj hs]
      exact h.goto (fun j => by rw [hpc]; rfl) ⟨0, Nat.le_refl 0, after_zero _⟩
    · cases hs
  | consume =>
    rw [rxStep] at hs
    split at hs
    · rename_i hpc
      rw [← Option.some.inj hs]
      exact h.goto (fun j => by rw [hpc]; rfl) trivial
    · cases hs
  | drop =>
    rw [rxStep] at hs
    split at hs
    · rename_i hpc
      rw [← Option.some.inj hs]
      exact h.giveBack (by rw [hpc]; rfl) rfl trivial
    · cases hs
  | watch st rxFrames =>
    rw [rxStep] at hs
    split at hs
    · rename_i hpc
      rw [← Option.some.inj hs]
      exact h.watch hpc st rxFrames
    · cases hs
  | run =>
    rw [Undisturbed] at hg
    rw [rxStep] at hs
    split at hs
    · rename_i start n hpc
      rw [← Option.some.inj hs]
      rw [hpc] at hg
      exact h.read hpc hg
    · rename_i start n hpc
      rw [← Option.some.inj hs]
      have hplaced := h.placed
      rw [hpc] at hplaced
      exact h.giveBack (by rw [hpc]; rfl) (RxPc.held_next start n)
        (placed_next (Nat.zero_le _) hplaced)
    · rename_i hpc
      rw [← Option.some.inj hs]
      exact h.giveBack (by rw [hpc]; rfl) rfl trivial
    · rename_i hpc
      rw [← Option.some.inj hs]
      rw [hpc] at hg
      exact h.stop hg
    · rename_i hpc
      rw [← Option.some.inj hs]
      exact h.recover hpc
    · rename_i hpc
      rw [← Option.some.inj hs]
      exact h.restart hpc
    · cases hs

/-- The first read of a call is at `RX_NEXT`, where the first frame of the queue is. -/
theorem prompt {start : RxSlot} {n : Fin 16} (h : RxInv s) (hpc : s.st.pc = .reading start n)
    (hn : n.val = 0) (hs : rxStep s .run = some s') (hwaits : ∃ j, s.unseen j ≠ none) :
    s.unseen start ≠ none ∧ s'.unseen start = none := by
  have hplaced := h.placed
  rw [hpc] at hplaced
  obtain ⟨m, -, hnext⟩ := hplaced
  have hhere : after start n.val = start := by rw [hn, after_zero]
  obtain rfl : start = s.st.rxNext := by rw [← hnext, hn, Nat.zero_sub, after_zero]
  obtain ⟨t, hq⟩ := h.queued
  obtain ⟨-, hfirst, -⟩ := unseen_rxNext hq hwaits
  refine ⟨by rw [hfirst]; exact Option.some_ne_none t, ?_⟩
  have hclear : engineOwns (s.st.ring s.st.rxNext) = false := (h.unseen _ _ hfirst).2.1
  rw [rxStep, hpc] at hs
  rw [← Option.some.inj hs, RxRun.read, hhere, if_neg (by rw [hclear]; exact Bool.false_ne_true)]
  split
  · exact Function.update_self _ _ _
  · exact Function.update_self _ _ _

end RxInv

/-- **Reception along a run.** As long as the engine does not interfere with a `receive` that
goes past its cursor, or with the watchdog, every frame it completes is handed up once and in
order, less those that the gate rejects, and no descriptor is armed unseen. -/
theorem reception_along (turns : List RxTurn)
    (htime : rxMachine.Meets Undisturbed .started turns) :
    rxMachine.Along ReceptionStep .started turns := by
  refine Machine.along_of_meets (I := RxInv) (fun s i s' hinv hs hg => ?_) turns _ rxInv_started
    htime
  have hinv' : RxInv s' := hinv.step hs hg
  refine ⟨⟨hinv'.delivered, ?_, ?_⟩, hinv'⟩
  · rintro start n hpc hn rfl hwaits
    exact hinv.prompt hpc hn hs hwaits
  · rintro idx len hpc rfl
    have hplaced := hinv.placed
    rw [hpc] at hplaced
    exact hplaced

/-- What the engine writes back for a frame of 64 bytes. -/
def frame64 : BitVec 32 := 0x30000040

/-- Two frames, of which one is consumed and one dropped. -/
def timelyTurns : List RxTurn :=
  [.fill frame64, .receive, .run, .fill frame64, .consume, .run, .receive, .run, .drop]

theorem timely_along : rxMachine.Along ReceptionStep .started timelyTurns := by
  refine reception_along timelyTurns ?_
  refine (Machine.along_cons rfl).mpr ⟨trivial, (Machine.along_cons rfl).mpr ⟨trivial, ?_⟩⟩
  -- both reads are the first of their call
  refine (Machine.along_cons rfl).mpr ⟨fun _ m hm => absurd hm (Nat.not_lt_zero m), ?_⟩
  refine (Machine.along_cons rfl).mpr ⟨trivial, (Machine.along_cons rfl).mpr ⟨trivial, ?_⟩⟩
  refine (Machine.along_cons rfl).mpr ⟨trivial, (Machine.along_cons rfl).mpr ⟨trivial, ?_⟩⟩
  refine (Machine.along_cons rfl).mpr ⟨fun _ m hm => absurd hm (Nat.not_lt_zero m), ?_⟩
  exact (Machine.along_cons rfl).mpr ⟨trivial, trivial⟩

/-- `receive` reads the first descriptor; two frames come in; `receive` reads the second. -/
def overtakingTurns : List RxTurn := [.receive, .run, .fill frame64, .fill frame64, .run]

/-- **A frame overtaken**, where a read finds a frame after the engine completed an earlier one
behind its back. So the condition of `Undisturbed` on the reads of a call cannot be left out of
`reception_along`; the one on the watchdog is the matter of the next section. -/
theorem frame_overtaken : ¬ rxMachine.Along ReceptionStep .started overtakingTurns := by
  intro hall
  have hlast := ((Machine.along_cons rfl).mp ((Machine.along_cons rfl).mp ((Machine.along_cons
    rfl).mp ((Machine.along_cons rfl).mp ((Machine.along_cons rfl).mp hall).2).2).2).2).1
  exact absurd hlast.1.order (by decide)

/-! ## A frame overwritten

The watchdog takes a ring that stays empty for one whose engine has stopped. What comes in between
its last look and the recovery is armed over.
-/

/-! ### An idle ring

A ring that stays empty is taken for one whose engine is stuck, which is where frames can be armed
over. -/

/-- A poll that finds nothing, with what the watchdog reads. -/
def emptyPoll (st rxFrames : BitVec 32) : List RxTurn :=
  .receive :: (List.replicate 16 .run ++ [.watch st rxFrames])

namespace RxRun

/-- The driver is between calls, with all descriptors the engine's. -/
structure Quiet (s : RxRun) : Prop where
  pc : s.st.pc = .idle
  armed : ∀ j, engineOwns (s.st.ring j) = true

/-- The state with other counters, which nothing but the watchdog looks at. -/
def counting (s : RxRun) (c : RxCounters) : RxRun := { s with st := { s.st with counters := c } }

theorem goto_idle {s : RxRun} (h : s.Quiet) : s.goto .idle = s := by
  rw [goto, ← h.pc]

/-- `receive` goes round the whole ring, where the engine owns every descriptor. -/
theorem run_reading {s : RxRun} (h : ∀ j, engineOwns (s.st.ring j) = true) (start : RxSlot)
    (d : ℕ) : ∀ n : Fin 16, n.val + d = 15 →
      rxMachine.Run (s.goto (.reading start n)) (List.replicate (d + 1) .run)
        (s.goto .watching) := by
  have hread : ∀ n, rxStep (s.goto (.reading start n)) .run = some (s.goto (.next start n)) :=
    fun n => congrArg some (if_pos (h (after start n)))
  induction d with
  | zero =>
    intro n hn
    have hlast : RxPc.next start n = .watching := dif_neg (by omega)
    refine .cons (hread n) ?_
    rw [hlast]
    exact .nil _
  | succ d ih =>
    intro n hn
    have hmore : RxPc.next start n = .reading start ⟨n.val + 1, by omega⟩ := dif_pos (by omega)
    refine .cons (hread n) ?_
    rw [hmore]
    exact ih _ (by dsimp only; omega)

/-- A poll that finds nothing comes down to its watchdog. -/
theorem run_emptyPoll {s : RxRun} (h : s.Quiet) (st rxFrames : BitVec 32) :
    rxMachine.Run s (emptyPoll st rxFrames) ((s.goto .watching).watch st rxFrames) := by
  have hcall : rxStep s .receive = some (s.goto (.reading s.st.rxNext 0)) := by
    rw [rxStep, h.pc]
  exact .cons hcall ((run_reading h.armed s.st.rxNext 15 0 rfl).append (.cons rfl (.nil _)))

/-- `k` empty polls, one after the other. -/
def idlePolls : ℕ → List RxTurn
  | 0 => []
  | k + 1 => idlePolls k ++ emptyPoll 0 1

theorem run_idlePolls {s : RxRun} (h : s.Quiet) :
    ∀ k < 9 * 2 ^ 20, rxMachine.Run (s.counting (stalledAt 0)) (idlePolls k)
      (s.counting (stalledAt k)) := by
  intro k
  induction k with
  | zero => exact fun _ => .nil _
  | succ k ih =>
    intro hk
    have hquiet : (s.counting (stalledAt k)).Quiet := ⟨h.pc, h.armed⟩
    have hpoll := run_emptyPoll hquiet 0 1
    have hcounted : (stalledAt k).watchdog 0 1 = (false, stalledAt (k + 1)) := watchdog_stalled hk
    have hend : ((s.counting (stalledAt k)).goto .watching).watch 0 1 =
        s.counting (stalledAt (k + 1)) := by
      change (let out := (stalledAt k).watchdog 0 1
        if out.1 then (s.counting out.2).goto .stopping else (s.counting out.2).goto .idle) = _
      rw [hcounted]
      exact goto_idle ⟨h.pc, h.armed⟩
    rw [hend] at hpoll
    exact (ih (by omega)).append hpoll

end RxRun

/-- The first frame comes in and is consumed. -/
def firstFrame : List RxTurn := [.fill frame64, .receive, .run, .consume, .run]

/-- Nothing comes in until the watchdog finds the frame count unchanged for the eighth time;
then, before it stops the engine, the second frame. -/
def overwritingTurns : List RxTurn :=
  firstFrame ++ RxRun.idlePolls (9 * 2 ^ 20 - 1) ++ emptyPoll 0 1 ++
    [.fill frame64, .run, .run, .run]

/-- **A frame overwritten**: the recovery arms a descriptor in which a frame was completed that
nobody had read. -/
theorem frame_overwritten : ¬ rxMachine.Along ReceptionStep .started overwritingTurns := by
  intro hall
  obtain ⟨s, hs, hquiet, hcounters, hrunning, hcursor⟩ :
      ∃ s, rxMachine.Run .started firstFrame s ∧ s.Quiet ∧ s = s.counting (stalledAt 0) ∧
        s.st.running = true ∧ s.st.cursor = 1 :=
    ⟨_, .cons rfl (.cons rfl (.cons rfl (.cons rfl (.cons rfl (.nil _))))), ⟨rfl, by decide⟩,
      rfl, rfl, rfl⟩
  -- the watchdog has counted, and makes for the recovery
  obtain ⟨c, hlast⟩ : ∃ c, ((s.counting (stalledAt (9 * 2 ^ 20 - 1))).goto .watching).watch 0 1 =
      (s.counting c).goto .stopping := ⟨_, if_pos watchdog_stalled_last⟩
  have hidle := RxRun.run_idlePolls hquiet (9 * 2 ^ 20 - 1) (by decide)
  rw [← hcounters] at hidle
  have hpoll := RxRun.run_emptyPoll (s := s.counting (stalledAt (9 * 2 ^ 20 - 1)))
    ⟨hquiet.pc, hquiet.armed⟩ 0 1
  rw [hlast] at hpoll
  have htail := Machine.along_append ((hs.append hidle).append hpoll) hall
  generalize ht : (s.counting c).goto .stopping = t at htail
  have hfill : rxStep t (.fill frame64) = some (t.fill frame64) := by
    rw [← ht]
    refine if_pos ?_
    change (s.st.running && engineOwns (s.st.ring s.st.cursor) && !engineOwns frame64) = true
    rw [hrunning, hquiet.armed]
    decide
  subst ht
  have hover := ((Machine.along_cons rfl).mp ((Machine.along_cons rfl).mp ((Machine.along_cons
    rfl).mp ((Machine.along_cons hfill).mp htail).2).2).2).1.1.seen
  -- the second frame was in the descriptor armed last
  have hlost := (List.append_eq_nil_iff.mp hover).2
  change (Function.update (Function.update s.unseen s.st.cursor (some s.filled.length)) 0 none
    1).toList = [] at hlost
  rw [Function.update_of_ne (by decide), hcursor, Function.update_self] at hlost
  cases hlost

end Wari
