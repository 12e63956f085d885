import Wari.Fence

/-!
# Bringing up the VirtIO NIC

What the driver's functions do, as triples over the kernel, the device and the rest of the
driver's code. From them follow, for every run: the device is fenced in; it is told that the
driver is ready only when both queues are attached and all receive buffers are posted; and the
kernel marks the NIC as up exactly when the device gave the right answers and has room for the
rings.
-/

namespace Wari

open Lib (Ram Apart Script World Machine toLe length_toLe)
open Lib.Script (Triple perform orElse triple_pure triple_bind triple_perform tripleT_pure
  tripleT_failure tripleT_lift tripleT_bind)
open Virtio (queueSize frameMax netHdrLen descWrite ringRx ringTx)
open Driver

namespace DriverImage

variable {d : DriverImage}

/-! ## What is promised

The promises are about what was read from the device and what the kernel and the tables hold, told
from the trace of the driver's calls. The device itself answers what it likes. -/

/-- What the device registers read, in the order they were read. -/
def readsOf (trace : List (DriverOp × BitVec 32)) : List (BitVec 32) :=
  trace.filterMap fun e =>
    match e.1 with
    | .mmioRead _ => some e.2
    | _ => none

/-- All bits of the status that the driver sets. -/
def statusReady : BitVec 32 :=
  virtioStatusAcknowledge ||| virtioStatusDriver ||| virtioStatusFeaturesOk ||| virtioStatusDriverOk

/-- The write that tells the device that the driver is ready. -/
def driverOkCall : DriverOp := .nic (.mmioWrite (nicBase + virtioMmioStatus) statusReady)

/-- The device was told that the driver is ready. -/
def DriverOk (trace : List (DriverOp × BitVec 32)) : Prop := ∃ r, (driverOkCall, r) ∈ trace

/-- The `k`-th register that the driver reads has to read so. -/
def AnswerOk (k : ℕ) (v : BitVec 32) : Prop :=
  match k with
  | 0 => v = virtioMagic
  | 1 => v = virtioVersionModern
  | 2 => v = virtioDeviceIdNet
  | 3 => v &&& (1 : BitVec 32) <<< virtioNetFMac ≠ 0
  | 4 => v &&& (1 : BitVec 32) <<< (virtioFVersion1 - 32) ≠ 0
  | 5 => v &&& virtioStatusFeaturesOk ≠ 0
  | _ => True

/-- All that was read so far is right: each answer of the device is what the driver asks for at
that point. -/
def AllOk (reads : List (BitVec 32)) : Prop := ∀ k v, reads[k]? = some v → AnswerOk k v

/-- **The device qualifies**: it answered as it has to, as far as it was asked, and both of its
queues have room for the rings. It is a condition on the device, told without what the driver did.
-/
structure Qualifies (numMax : BitVec 32 → BitVec 32) (reads : List (BitVec 32)) : Prop where
  answers : AllOk reads
  room : ∀ q : Fin 2, queueSize ≤ (numMax (.ofNat 32 q.val)).toNat

/-- **Both queues are live, and all receive descriptors posted.** Their fields are meant: address,
length and flags. Which of them the available ring names is left to the driver's own loop. -/
structure Posted (d : DriverImage) (s : NicRun) : Prop where
  live : ∀ q, s.Live q
  posted : ∀ i < queueSize, d.PostedAt i s.st.ram

/-- The kernel's NIC object, which boot allocates first in its pool. -/
def netOf (s : NicRun) : Option Net := s.st.caps.objectPools.nets.get 0

/-- The kernel has marked the NIC as up, which only `nic_set_mac` does. -/
def Initialized (s : NicRun) : Prop := ∃ net, netOf s = some net ∧ net.initialized = true

/-! ## What calls leave alone

Most of what the driver does is harmless: it reads no register, and it writes into a descriptor at
most what that descriptor is to hold. Properties that harmless calls keep need no proof call by
call. -/

/-- Between the two, a descriptor's field was left alone or got what it is to hold, and no
register was read. It is transitive, so stretches of calls can be skipped. -/
structure Harmless (d : DriverImage) (s t : DriverState) : Prop where
  attached : t.nic.attached = s.nic.attached
  frame : t.nic.st = { s.nic.st with ram := t.nic.st.ram }
  reads : readsOf t.trace = readsOf s.trace
  ok : DriverOk t.trace → DriverOk s.trace
  fields : ∀ q, ∀ i < queueSize, ∀ f, d.field t.nic.st.ram q i f = d.field s.nic.st.ram q i f ∨
    d.Goal q i f (d.field t.nic.st.ram q i f)

/-- A property that such calls keep, and that holds only where the device may be told that the
driver is ready, if it was. The handshake is a chain of these. -/
structure Kept (d : DriverImage) where
  holds : DriverState → Prop
  closed : ∀ s t, d.Harmless s t → holds s → holds t
  safe : ∀ s, holds s → DriverOk s.trace → d.Posted s.nic

variable {numMax : BitVec 32 → BitVec 32}

/-- What holds at every call of the driver: its tables are in order, and whether the device was
told that the driver is ready agrees with what was read and posted. -/
def Safe (d : DriverImage) (numMax : BitVec 32 → BitVec 32) (s : DriverState) : Prop :=
  d.DriverInv numMax s.nic ∧ (DriverOk s.trace → d.Posted s.nic)

/-- The invariant, and a property that is kept. -/
def On (d : DriverImage) (numMax : BitVec 32 → BitVec 32) (K : d.Kept) (s : DriverState) : Prop :=
  d.DriverInv numMax s.nic ∧ K.holds s

theorem On.safe {K : d.Kept} {s : DriverState} (h : d.On numMax K s) : d.Safe numMax s :=
  ⟨h.1, K.safe s h.2⟩

/-- A kept property and another one that what happens besides the calls preserves are kept
together. -/
def Kept.and (K : d.Kept) (P : DriverState → Prop)
    (hP : ∀ s t, d.Harmless s t → P s → P t) : d.Kept where
  holds s := K.holds s ∧ P s
  closed s t hst h := ⟨K.closed s t hst h.1, hP s t hst h.2⟩
  safe s h := K.safe s h.1

theorem Harmless.goal {s t : DriverState} (h : d.Harmless s t) {q : Fin 2} {i : ℕ}
    (hi : i < queueSize) {f : Field} (hg : d.Goal q i f (d.field s.nic.st.ram q i f)) :
    d.Goal q i f (d.field t.nic.st.ram q i f) := by
  rcases h.fields q i hi f with hsame | hgoal
  · rw [hsame]
    exact hg
  · exact hgoal

theorem Harmless.postedAt {s t : DriverState} (h : d.Harmless s t) {i : ℕ} (hi : i < queueSize)
    (hp : d.PostedAt i s.nic.st.ram) : d.PostedAt i t.nic.st.ram :=
  fun f => h.goal hi (hp f)

theorem Harmless.live {s t : DriverState} (h : d.Harmless s t) {q : Fin 2} (hl : s.nic.Live q) :
    t.nic.Live q := by
  obtain ⟨hattached, hready⟩ := hl
  refine ⟨?_, ?_⟩
  · rw [h.attached]
    exact hattached
  · rw [h.frame]
    exact hready

theorem Harmless.posted {s t : DriverState} (h : d.Harmless s t) (hp : d.Posted s.nic) :
    d.Posted t.nic :=
  ⟨fun q => h.live (hp.live q), fun i hi => h.postedAt hi (hp.posted i hi)⟩

/-- What leaves the NIC, the reads and `DRIVER_OK` as they are is harmless: it cannot undo
anything that the driver has brought about. -/
theorem Same.harmless {s t : DriverState} (h : d.Same s.nic t.nic)
    (hreads : readsOf t.trace = readsOf s.trace) (hok : DriverOk t.trace → DriverOk s.trace) :
    d.Harmless s t :=
  ⟨h.attached, h.frame, hreads, hok, fun _ _ hi f => .inl (h.tables.field hi f)⟩

theorem stable_on (K : d.Kept) : d.world.Stable (d.On numMax K) := by
  intro s e t he h
  obtain ⟨hsame, htrace, -⟩ := h.1.env_cases he
  exact ⟨h.1.same hsame,
    K.closed s t (hsame.harmless (by rw [htrace]) (by rw [htrace]; exact id)) h.2⟩

/-! ## Calls

One triple for each kind of call. A call is one access of the driver to the kernel or to its
memory; the device may write between any two. -/

/-- A call of the driver that reads no register and is not the one that says it is ready. -/
def Plain : DriverOp → Prop
  | .mmioRead _ => False
  | op => op ≠ driverOkCall

theorem Plain.reads {op : DriverOp} (h : Plain op) (trace : List (DriverOp × BitVec 32))
    (r : BitVec 32) : readsOf (trace ++ [(op, r)]) = readsOf trace := by
  rw [readsOf, List.filterMap_append, readsOf]
  cases op with
  | mmioRead addr => exact h.elim
  | _ => exact List.append_nil _

theorem Plain.ok {op : DriverOp} (h : Plain op) {trace : List (DriverOp × BitVec 32)}
    {r : BitVec 32} (hok : DriverOk (trace ++ [(op, r)])) : DriverOk trace := by
  obtain ⟨r', hmem⟩ := hok
  rcases List.mem_append.mp hmem with hmem | hmem
  · exact ⟨r', hmem⟩
  · have hop : driverOkCall = op := congrArg Prod.fst (List.mem_singleton.mp hmem)
    cases op with
    | mmioRead addr => exact h.elim
    | _ => exact (h hop.symm).elim

/-- A plain call that leaves the kernel and the device alone. -/
theorem harmless_still {op : DriverOp} (hop : Plain op) (s : DriverState) (r : BitVec 32) :
    d.Harmless s { s with trace := s.trace ++ [(op, r)] } :=
  Same.harmless (s := s) (t := { s with trace := _ }) (Same.refl s.nic) (hop.reads s.trace r) hop.ok

/-- A plain call with a store in the tables. -/
theorem harmless_field {op : DriverOp} (hop : Plain op) {s t : DriverState} {r : BitVec 32}
    (htrace : t.trace = s.trace ++ [(op, r)]) {q : Fin 2} {i : ℕ} (hi : i < queueSize) {f : Field}
    {v : ℕ} (ht : t.nic = (s.write (d.entry q i + f.off) (toLe f.size v)).nic)
    (hv : d.Goal q i f (v % 256 ^ f.size)) : d.Harmless s t := by
  refine ⟨?_, ?_, ?_, ?_, fun q' i' hi' f' => ?_⟩
  · rw [ht]
    rfl
  · rw [ht]
    rfl
  · rw [htrace]
    exact hop.reads _ _
  · rw [htrace]
    exact hop.ok
  · rw [ht]
    change d.field (s.nic.st.ram.write _ _) q' i' f' = _ ∨
      d.Goal q' i' f' (d.field (s.nic.st.ram.write _ _) q' i' f')
    rw [field_write hi hi']
    split
    · rename_i hsame
      obtain ⟨rfl, rfl, rfl⟩ := hsame
      exact .inr hv
    · exact .inl rfl

section Specs

variable (K : d.Kept)

/-- A triple of the driver: from a state with `P`, every run of `p` is safe, and it leaves a state
with `Q` of its value. -/
abbrev Spec {α : Type} (d : DriverImage) (numMax : BitVec 32 → BitVec 32)
    (P : DriverState → Prop) (p : Driver α) (Q : α → DriverState → Prop) : Prop :=
  Triple d.world (d.Safe numMax) P p Q

/-- **A call**, from a property that is kept to others, one for each answer that may come back. -/
theorem spec_perform {op : DriverOp} (R : BitVec 32 → d.Kept)
    (hact : ∀ s r t, d.On numMax K s → driverAct s op r = some t → d.On numMax (R r) t) :
    d.Spec numMax (d.On numMax K) (perform op) fun r => d.On numMax (R r) :=
  triple_perform (fun r => stable_on (R r)) (fun _ => On.safe) (fun _ _ => On.safe) hact

/-- A call whose answer is not looked at. -/
theorem spec_unit {P : DriverState → Prop} {op : DriverOp} {R : d.Kept}
    (h : d.Spec numMax P (perform op) fun _ => d.On numMax R) :
    d.Spec numMax P (do let _ ← perform op) fun _ => d.On numMax R :=
  triple_bind h fun _ => triple_pure fun _ hs => ⟨hs.safe, hs⟩

/-- A call that only loads or logs does nothing to what is kept. -/
theorem spec_still {op : DriverOp} (hop : (∃ off n, op = .load off n) ∨
    ∃ tag val, op = .log tag val) :
    d.Spec numMax (d.On numMax K) (perform op) fun _ => d.On numMax K := by
  have hplain : Plain op := by
    rcases hop with ⟨off, n, rfl⟩ | ⟨tag, val, rfl⟩ <;> exact DriverOp.noConfusion
  refine spec_perform K (fun _ => K) fun s r t h hact => ?_
  rw [act_still (.inr hop) hact]
  exact ⟨h.1, K.closed _ _ (harmless_still hplain s r) h.2⟩

/-- A call of `nic_queue_notify` for one of the two queues is answered by 0, and changes nothing
that is kept. -/
theorem spec_notify {queueIdx : BitVec 32} (hq : ¬ 1 < queueIdx) :
    d.Spec numMax (d.On numMax K) (perform (.queueNotify queueIdx)) fun r s =>
      d.On numMax K s ∧ r = 0 := by
  have hplain : Plain (.queueNotify queueIdx) := DriverOp.noConfusion
  refine (spec_perform K (fun r => K.and (fun _ => r = 0) fun _ _ _ hr => hr)
    fun s r t h hact => ?_).post fun r s hs => ⟨⟨hs.1, hs.2.1⟩, hs.2.2⟩
  obtain ⟨hr, rfl⟩ := h.1.act_queueNotify hq hact
  exact ⟨h.1, K.closed _ _ (harmless_still hplain s r) h.2, hr⟩

/-- A store into a static other than the two tables keeps everything that is known of the tables.
-/
theorem spec_store {a : ℕ × ℕ} (ha : a ∈ d.others) {off : ℕ} {bytes : List (BitVec 8)}
    (hlow : a.1 ≤ off) (hhigh : off + bytes.length ≤ a.1 + a.2) :
    d.Spec numMax (d.On numMax K) (perform (.nic (.store off bytes))) fun _ =>
      d.On numMax K := by
  have hplain : Plain (.nic (.store off bytes)) := by
    intro he
    cases he
  refine spec_perform K (fun _ => K) fun s r t h hact => ?_
  have hsame : d.Same s.nic (s.write (d.mem.base + off) bytes).nic :=
    write_others ha (by omega) (by omega)
  rw [h.1.act_store hact]
  exact ⟨h.1.same hsame, K.closed _ _ (Same.harmless (t := { s.write _ bytes with trace := _ })
    hsame (hplain.reads _ _) hplain.ok) h.2⟩

/-- A field holds `v`, or what it is to hold, whatever was stored in between. -/
def FieldIs (d : DriverImage) (q : Fin 2) (i : ℕ) (f : Field) (s : DriverState) : Prop :=
  d.Goal q i f (d.field s.nic.st.ram q i f)

/-- **A store in a descriptor** brings about the goal of its field, and keeps those of all the
others. -/
theorem spec_field {q : Fin 2} {i : ℕ} (hi : i < queueSize) {f : Field} {off : ℕ} {v : ℕ}
    (hoff : d.mem.base + off = d.entry q i + f.off) (hlt : v < 256 ^ f.size)
    (hv : d.Goal q i f v) (hfits : ∀ s, d.On numMax K s → d.Fits s.nic.st.ram q i f v) :
    d.Spec numMax (d.On numMax K) (perform (.nic (.store off (toLe f.size v)))) fun _ =>
      d.On numMax (K.and (d.FieldIs q i f) fun _ _ hst => hst.goal hi) := by
  have hplain : Plain (.nic (.store off (toLe f.size v))) := by
    intro he
    cases he
  refine spec_perform K _ fun s r t h hact => ?_
  rw [h.1.act_store hact, hoff]
  have hgoal : d.Goal q i f (v % 256 ^ f.size) := by
    rw [Nat.mod_eq_of_lt hlt]
    exact hv
  have hharm := harmless_field (s := s) (r := r) (t := { s.write (d.entry q i + f.off)
    (toLe f.size v) with trace := _ }) hplain rfl hi rfl hgoal
  refine ⟨h.1.withRam rfl rfl (h.1.tables.store hi (hfits s h)), K.closed _ _ hharm h.2, ?_⟩
  change d.Goal q i f (d.field (s.nic.st.ram.write _ _) q i f)
  rw [field_write hi hi, if_pos ⟨rfl, rfl, rfl⟩]
  exact hgoal

/-- Where the kernel answered zero the address is set, and elsewhere the queue is not attached. -/
def SetOrIdle (d : DriverImage) (q : Fin 2) (i : ℕ) (r : BitVec 32) (s : DriverState) : Prop :=
  (r = 0 → d.FieldIs q i .addr s) ∧ (r ≠ 0 → s.nic.attached q = false)

theorem SetOrIdle.closed {q : Fin 2} {i : ℕ} (hi : i < queueSize) {r : BitVec 32}
    (s t : DriverState) (hst : d.Harmless s t) (h : d.SetOrIdle q i r s) : d.SetOrIdle q i r t :=
  ⟨fun hr => hst.goal hi (h.1 hr), fun hr => hst.attached ▸ h.2 hr⟩

/-- **`nic_dma_set_buf`** of a descriptor, for its own buffer: the kernel accepts it, and the
address in the table is that of the buffer. -/
theorem spec_setBuf {q : Fin 2} {i : ℕ} (hi : i < queueSize) {ring idx bufOff len : BitVec 32}
    (hring : ring.toNat = q.val) (hidx : idx.toNat = i)
    (hbuf : d.mem.base + bufOff.toNat = d.buf q i) (hlen : len ≠ 0 ∧ len.toNat ≤ frameMax) :
    d.Spec numMax (d.On numMax K) (perform (.nic (.dmaSetBuf ring idx bufOff len))) fun r =>
      d.On numMax (K.and (d.SetOrIdle q i r) (SetOrIdle.closed hi)) := by
  have hplain : Plain (.nic (.dmaSetBuf ring idx bufOff len)) := by
    intro he
    cases he
  refine spec_perform K _ fun s r t h hact => ?_
  have htrace := (act_dmaSetBuf hact).1
  rcases h.1.act_setBuf hi hring hidx hbuf hact with ⟨hr, hnic, hwhy⟩ | ⟨hr, hnic⟩
  · obtain ⟨nic, trace⟩ := t
    dsimp only at hnic htrace
    subst hnic htrace
    refine ⟨h.1, K.closed _ _ (harmless_still hplain s r) h.2, fun he => (hr he).elim, fun _ => ?_⟩
    by_contra hattached
    rcases hwhy (by simpa using hattached) with hzero | hgt
    · exact hlen.1 hzero
    · omega
  · have hlt : d.buf q i < 256 ^ Field.addr.size := d.buf_lt q hi
    have hgoal : d.Goal q i .addr (d.buf q i % 256 ^ Field.addr.size) := Nat.mod_eq_of_lt hlt
    have hinv : d.DriverInv numMax t.nic := by
      rw [hnic]
      exact h.1.withRam rfl rfl (h.1.tables.store hi rfl)
    refine ⟨hinv, K.closed _ _ (harmless_field hplain htrace hi hnic hgoal) h.2, fun _ => ?_,
      fun he => (he hr).elim⟩
    rw [FieldIs, hnic]
    change d.Goal q i .addr (d.field (s.nic.st.ram.write _ _) q i .addr)
    rw [field_write hi hi, if_pos ⟨rfl, rfl, rfl⟩]
    exact hgoal

/-- **`write_desc_meta`**, after the address is set: the three remaining fields are stored, and
the descriptor is as it should be. -/
theorem spec_writeDescMeta {q : Fin 2} {i : ℕ} (hi : i < queueSize) {idx : BitVec 16}
    {len : BitVec 32} {flags : BitVec 16} (hidx : idx.toNat = i)
    (hlen : d.Goal q i .len len.toNat) (hflags : d.Goal q i .flags flags.toNat)
    (haddr : ∀ s, K.holds s → d.FieldIs q i .addr s) :
    d.Spec numMax (d.On numMax K) (writeDescMeta (d.desc q) idx len flags 0) fun _ =>
      d.On numMax (K.and (fun s => ∀ f, d.FieldIs q i f s)
        fun _ _ hst h f => hst.goal hi (h f)) := by
  have hsmall := d.placed.small
  have hinside := d.desc_inside q
  have hsize : queueSize = 8 := rfl
  have hoff : ∀ k : BitVec 32, k.toNat < 16 →
      d.mem.base + (d.desc q + idx.setWidth 32 * 16 + k).toNat = d.entry q i + k.toNat := by
    intro k hk
    have hmul : (idx.setWidth 32 * 16 : BitVec 32).toNat = 16 * i := by
      rw [BitVec.toNat_mul, BitVec.toNat_setWidth, hidx, show (16 : BitVec 32).toNat = 16 from rfl]
      omega
    have hsum : (d.desc q + idx.setWidth 32 * 16).toNat = (d.desc q).toNat + 16 * i := by
      rw [BitVec.toNat_add_of_lt (by omega), hmul]
    rw [BitVec.toNat_add_of_lt (by omega), hsum, entry]
    omega
  have hflagsFit : d.Fits (fun _ => 0#8) q i .flags flags.toNat := by
    rw [Goal] at hflags
    split at hflags
    · rename_i hq
      exact .inr ⟨hq, hflags⟩
    · exact .inl hflags
  refine triple_bind (spec_unit (spec_field K hi (f := .len) (hoff 8 (by decide)) len.isLt hlen
    fun s h => ⟨hlen.1, haddr s h.2⟩)) fun _ => ?_
  refine triple_bind (spec_unit (spec_field _ hi (f := .flags) (hoff 12 (by decide)) flags.isLt
    hflags fun s h => hflagsFit)) fun _ => ?_
  refine (spec_unit (spec_field _ hi (f := .next) (q := q) (v := 0) (hoff 14 (by decide))
    (by decide) rfl fun s h => trivial)).post fun _ s h => ⟨h.1, ?_⟩
  obtain ⟨-, ⟨⟨hK, hlen⟩, hflags⟩, hnext⟩ := h
  refine ⟨hK, fun f => ?_⟩
  cases f with
  | addr => exact haddr s hK
  | len => exact hlen
  | flags => exact hflags
  | next => exact hnext

/-! ## Functions that may fail

The driver's own functions return an error where the kernel refuses. Their triples have a second
postcondition for it, which says why they failed. -/

/-- A triple of a function that may fail. -/
abbrev SpecT {α : Type} (d : DriverImage) (numMax : BitVec 32 → BitVec 32)
    (P : DriverState → Prop) (p : OptionT (Script DriverOp (BitVec 32)) α)
    (Q : α → DriverState → Prop) (E : DriverState → Prop) : Prop :=
  Triple d.world (d.Safe numMax) P p.run (orElse Q E)

/-- **A call whose answer has to be zero**: with any other answer the function fails, and what
held for it holds. -/
theorem spec_callOk {P E : DriverState → Prop} {Q : Unit → DriverState → Prop} {op : DriverOp}
    {R : BitVec 32 → DriverState → Prop} (h : d.Spec numMax P (perform op) R)
    (hR : ∀ r s, R r s → d.Safe numMax s) (hQ : ∀ s, R 0 s → Q () s)
    (hE : ∀ r s, r ≠ 0 → R r s → E s) (hsafe : ∀ s, E s → d.Safe numMax s) :
    d.SpecT numMax P (callOk op) Q E := by
  refine tripleT_bind hsafe (tripleT_lift h hR) fun r => ?_
  split
  · rename_i hr
    exact tripleT_pure fun s hs => ⟨hR r s hs, hQ s (hr ▸ hs)⟩
  · rename_i hr
    exact tripleT_failure fun s hs => ⟨hR r s hs, hE r s hr hs⟩

/-- What holds where a function failed because a queue is not attached. -/
def Unattached (d : DriverImage) (numMax : BitVec 32 → BitVec 32) (K : d.Kept) (q : Fin 2)
    (s : DriverState) : Prop :=
  d.On numMax K s ∧ s.nic.attached q = false

theorem bufOff_eq (d : DriverImage) {i : BitVec 32} (hi : i.toNat < queueSize) :
    d.mem.base + (d.statics.bufOff i).toNat = d.buf 0 i.toNat := by
  have hbufs := d.others_inside (a := (d.statics.rxBufs.toNat, queueSize * frameMax))
    (by simp [others])
  have hsmall := d.placed.small
  have hle := frameMax_le i.toNat hi
  have hmul : (i * .ofNat 32 frameMax).toNat = frameMax * i.toNat := by
    rw [BitVec.toNat_mul, show (BitVec.ofNat 32 frameMax).toNat = frameMax from rfl, Nat.mul_comm,
      Nat.mod_eq_of_lt (by omega)]
  rw [Statics.bufOff, BitVec.toNat_add_of_lt (by omega), hmul, buf, if_pos rfl]
  omega

/-- **A receive descriptor is posted.** The kernel writes the address of its buffer, and the
driver the three fields beside it. -/
theorem spec_setRxDesc {i : BitVec 32} (hi : i.toNat < queueSize) :
    d.SpecT numMax (d.On numMax K) (setRxDesc d.statics i)
      (fun _ => d.On numMax (K.and (fun s => d.PostedAt i.toNat s.nic.st.ram)
        fun _ _ hst => hst.postedAt hi))
      (d.Unattached numMax K 0) := by
  have hlow : (i.setWidth 16).toNat = i.toNat := by
    rw [BitVec.toNat_setWidth]
    exact Nat.mod_eq_of_lt (Nat.lt_trans hi (by decide))
  have hlen : (BitVec.ofNat 32 frameMax).toNat = frameMax := rfl
  have hring : ringRx.toNat = (0 : Fin 2).val := rfl
  let K₁ := K.and (d.FieldIs 0 i.toNat .addr) fun _ _ hst => hst.goal hi
  have hset : d.SpecT numMax (d.On numMax K) (callOk (.nic (.dmaSetBuf ringRx i
      (d.statics.bufOff i) (.ofNat 32 frameMax)))) (fun _ => d.On numMax K₁)
      (d.Unattached numMax K 0) :=
    spec_callOk
      (spec_setBuf K hi hring rfl (d.bufOff_eq hi) ⟨by decide, hlen.le⟩)
      (fun r s => On.safe) (fun s hs => ⟨hs.1, hs.2.1, hs.2.2.1 rfl⟩)
      (fun r s hr hs => ⟨⟨hs.1, hs.2.1⟩, hs.2.2.2 hr⟩) fun s hs => hs.1.safe
  have hmeta : d.Spec numMax (d.On numMax K₁) (writeDescMeta d.statics.rxDesc (i.setWidth 16)
      (.ofNat 32 frameMax) descWrite 0) fun _ => d.On numMax
        (K.and (fun s => d.PostedAt i.toNat s.nic.st.ram) fun _ _ hst => hst.postedAt hi) :=
    (spec_writeDescMeta K₁ (q := 0) hi hlow ⟨hlen.le, fun _ => hlen⟩ rfl
      fun s hs => hs.2).post fun _ s hs => ⟨hs.1, hs.2.1.1, hs.2.2⟩
  exact tripleT_bind (fun s hs => hs.1.safe) hset fun _ => tripleT_lift hmeta fun _ s => On.safe

/-- **The first loop** posts the descriptors it goes through, and keeps those that were posted
before. -/
theorem spec_populateDescs {is : List ℕ} (his : ∀ i ∈ is, i < queueSize) (K : d.Kept) :
    d.SpecT numMax (d.On numMax K) (populateDescs d.statics is)
      (fun _ => d.On numMax (K.and (fun s => ∀ i ∈ is, d.PostedAt i s.nic.st.ram)
        fun _ _ hst h i hi => hst.postedAt (his i hi) (h i hi)))
      (d.Unattached numMax K 0) := by
  induction is generalizing K with
  | nil =>
    exact tripleT_pure fun s hs => ⟨hs.safe, hs.1, hs.2, fun i hi => by cases hi⟩
  | cons i is ih =>
    have hi : (BitVec.ofNat 32 i).toNat = i := by
      have hlt := his i List.mem_cons_self
      rw [BitVec.toNat_ofNat]
      exact Nat.mod_eq_of_lt (Nat.lt_trans hlt (by decide))
    have hlt : (BitVec.ofNat 32 i).toNat < queueSize := by
      rw [hi]
      exact his i List.mem_cons_self
    refine tripleT_bind (fun s hs => hs.1.safe) (spec_setRxDesc K hlt) fun _ => ?_
    refine (ih (fun j hj => his j (List.mem_cons_of_mem _ hj)) _).post fun o s hs => ?_
    cases o with
    | none => exact ⟨⟨hs.1.1, hs.1.2.1⟩, hs.2⟩
    | some a =>
      obtain ⟨hinv, ⟨hK, hposted⟩, hrest⟩ := hs
      refine ⟨hinv, hK, fun j hj => ?_⟩
      rcases List.mem_cons.mp hj with rfl | hj
      · rwa [hi] at hposted
      · exact hrest j hj

/-! ## Other statics

The stores besides descriptors: rings, buffers and the transmit buffer. None of them overlaps a
descriptor table. -/

/-- A store of 16 bits in another static. -/
theorem spec_writeU16Le {a : ℕ × ℕ} (ha : a ∈ d.others) {off : BitVec 32} {val : BitVec 16}
    (hlow : a.1 ≤ off.toNat) (hhigh : off.toNat + 2 ≤ a.1 + a.2) :
    d.Spec numMax (d.On numMax K) (writeU16Le off val) fun _ => d.On numMax K :=
  spec_unit (spec_store K ha hlow (by rwa [length_toLe]))

/-- A load of 16 bits from the driver's memory changes nothing that is kept. -/
theorem spec_readU16Le (off : BitVec 32) :
    d.Spec numMax (d.On numMax K) (readU16Le off) fun _ => d.On numMax K :=
  triple_bind (spec_still K (.inl ⟨_, _, rfl⟩)) fun _ => triple_pure fun _ hs => ⟨hs.safe, hs⟩

/-- A slot of an available ring is written, which lies outside both descriptor tables. -/
theorem spec_writeSlot (q : Fin 2) {slot : BitVec 32} (hslot : slot.toNat < queueSize)
    (val : BitVec 16) :
    d.Spec numMax (d.On numMax K) (writeU16Le (d.avail q + 4 + slot * 2) val) fun _ =>
      d.On numMax K := by
  have hinside := d.others_inside (d.avail_mem q)
  have hsmall := d.placed.small
  have hsize : queueSize = 8 := rfl
  have hmul : (slot * 2).toNat = 2 * slot.toNat := by
    rw [BitVec.toNat_mul, show (2 : BitVec 32).toNat = 2 from rfl]
    omega
  have hfour : (d.avail q + 4).toNat = (d.avail q).toNat + 4 :=
    BitVec.toNat_add_of_lt (by rw [show (4 : BitVec 32).toNat = 4 from rfl]; omega)
  have hoff : (d.avail q + 4 + slot * 2).toNat = (d.avail q).toNat + 4 + 2 * slot.toNat := by
    rw [BitVec.toNat_add_of_lt (by omega), hfour, hmul]
  exact spec_writeU16Le K (d.avail_mem q) (by omega) (by omega)

/-- The index of an available ring is written, which lies outside both descriptor tables. -/
theorem spec_writeIdx (q : Fin 2) (val : BitVec 16) :
    d.Spec numMax (d.On numMax K) (writeU16Le (d.avail q + 2) val) fun _ => d.On numMax K := by
  have hinside := d.others_inside (d.avail_mem q)
  have hsmall := d.placed.small
  have hoff : (d.avail q + 2).toNat = (d.avail q).toNat + 2 :=
    BitVec.toNat_add_of_lt (by rw [show (2 : BitVec 32).toNat = 2 from rfl]; omega)
  exact spec_writeU16Le K (d.avail_mem q) (by omega) (by omega)

/-- **The second loop** fills the available ring, and leaves the descriptors as the first loop
made them. The induction is on the indices that are left. -/
theorem spec_populateAvail {is : List ℕ} (his : ∀ i ∈ is, i < queueSize) :
    d.Spec numMax (d.On numMax K) (populateAvail d.statics is) fun _ => d.On numMax K := by
  induction is with
  | nil => exact triple_pure fun s hs => ⟨hs.safe, hs⟩
  | cons i is ih =>
    have hi : (BitVec.ofNat 32 i).toNat = i := by
      have hlt := his i List.mem_cons_self
      rw [BitVec.toNat_ofNat]
      exact Nat.mod_eq_of_lt (Nat.lt_trans hlt (by decide))
    have hslot : (BitVec.ofNat 32 i).toNat < queueSize := by
      rw [hi]
      exact his i List.mem_cons_self
    exact triple_bind (spec_writeSlot K 0 hslot _) fun _ =>
      ih fun j hj => his j (List.mem_cons_of_mem _ hj)

/-- **All receive descriptors are posted**, by the first loop, unless a call to the kernel fails.
-/
theorem spec_populateRx :
    d.SpecT numMax (d.On numMax K) (populateRx d.statics)
      (fun _ => d.On numMax (K.and (fun s => ∀ i < queueSize, d.PostedAt i s.nic.st.ram)
        fun _ _ hst h i hi => hst.postedAt hi (h i hi)))
      (d.Unattached numMax K 0) := by
  have hrange : ∀ i ∈ List.range queueSize, i < queueSize := fun i hi => List.mem_range.mp hi
  have hE : ∀ s, d.Unattached numMax K 0 s → d.Safe numMax s := fun s hs => hs.1.safe
  let K₁ := K.and (fun s => ∀ i < queueSize, d.PostedAt i s.nic.st.ram)
    fun _ _ hst h i hi => hst.postedAt hi (h i hi)
  have hdescs : d.SpecT numMax (d.On numMax K) (populateDescs d.statics (List.range queueSize))
      (fun _ => d.On numMax K₁) (d.Unattached numMax K 0) :=
    (spec_populateDescs hrange K).post fun o s hs => by
      cases o with
      | none => exact hs
      | some a => exact ⟨hs.1, hs.2.1, fun i hi => hs.2.2 i (List.mem_range.mpr hi)⟩
  refine tripleT_bind hE hdescs fun _ => ?_
  have hflags : d.Spec numMax (d.On numMax K₁) (writeU16Le (d.avail 0) 0) fun _ =>
      d.On numMax K₁ := spec_writeU16Le K₁ (d.avail_mem 0) le_rfl (by omega)
  refine tripleT_bind hE (tripleT_lift hflags fun _ s => On.safe) fun _ => ?_
  refine tripleT_bind hE (tripleT_lift (spec_populateAvail K₁ hrange) fun _ s => On.safe)
    fun _ => ?_
  refine tripleT_bind hE (tripleT_lift (spec_writeIdx K₁ 0 _) fun _ s => On.safe) fun _ => ?_
  refine tripleT_bind hE (tripleT_lift (spec_writeU16Le K₁
    (a := (d.statics.rxAvailNext.toNat, 2)) (by simp [others]) le_rfl le_rfl) fun _ s => On.safe)
    fun _ => ?_
  exact spec_callOk (spec_notify K₁ (by decide)) (fun r s hs => hs.1.safe) (fun s hs => hs.1)
    (fun r s hr hs => (hr hs.2).elim) hE

/-! ## What the stack asks for

After the device is up the driver serves requests. None of them touches a register that matters.
-/

/-- **A frame is sent** from `TX_BUF`: whatever the device answers, what is kept stays kept. -/
theorem spec_driverTxSend {len : BitVec 32} (hlen : len ≠ 0) :
    d.Spec numMax (d.On numMax K) (driverTxSend d.statics d.statics.txBuf len) fun _ =>
      d.On numMax K := by
  rw [driverTxSend]
  split
  · exact triple_pure fun s hs => ⟨hs.safe, hs⟩
  rename_i hfits
  have hle : len.toNat ≤ frameMax := Nat.not_lt.mp hfits
  have hzero : (0 : ℕ) < queueSize := by decide
  have hring : ringTx.toNat = (1 : Fin 2).val := rfl
  refine triple_bind (spec_setBuf K hzero hring rfl rfl ⟨hlen, hle⟩) fun r => ?_
  split
  · exact triple_pure fun s hs => ⟨hs.safe, hs.1, hs.2.1⟩
  rename_i hr
  rw [ne_eq, not_not] at hr
  have hflags : d.Goal 1 0 .flags (0 : BitVec 16).toNat := rfl
  let K₁ := K.and (d.FieldIs 1 0 .addr) fun _ _ hst => hst.goal hzero
  have hmeta : d.Spec numMax (d.On numMax K₁) (writeDescMeta d.statics.txDesc 0 len 0 0)
      fun _ => d.On numMax K :=
    (spec_writeDescMeta K₁ (q := 1) hzero rfl ⟨hle, fun he => by cases he⟩ hflags
      fun s hs => hs.2).post fun _ s hs => ⟨hs.1, hs.2.1.1⟩
  refine triple_bind (hmeta.pre fun s hs => ⟨hs.1, hs.2.1, hs.2.2.1 hr⟩) fun _ => ?_
  refine triple_bind (spec_readU16Le K _) fun seen => ?_
  refine triple_bind (spec_writeSlot K 1 ?_ _) fun _ => triple_bind (spec_writeIdx K 1 _) fun _ =>
    (spec_notify K (by decide)).post fun _ s hs => hs.1
  rw [BitVec.toNat_setWidth, BitVec.toNat_umod]
  exact Nat.lt_of_le_of_lt (Nat.mod_le _ _) (Nat.mod_lt _ (by decide))

theorem spec_driverRxPop :
    d.Spec numMax (d.On numMax K) (driverRxPop d.statics) fun _ => d.On numMax K := by
  refine triple_bind (spec_readU16Le K _) fun deviceIdx => ?_
  refine triple_bind (spec_readU16Le K _) fun seen => ?_
  split
  · exact triple_pure fun s hs => ⟨hs.safe, hs⟩
  refine triple_bind (spec_still K (.inl ⟨_, _, rfl⟩)) fun descId => ?_
  refine triple_bind (spec_still K (.inl ⟨_, _, rfl⟩)) fun usedLen => ?_
  refine triple_bind (spec_writeU16Le K (a := (d.statics.rxUsedSeen.toNat, 2)) (by simp [others])
    le_rfl le_rfl) fun _ => ?_
  split <;> exact triple_pure fun s hs => ⟨hs.safe, hs⟩

/-- **A buffer is given back**: the driver writes a slot and an index of the ring, and notifies
the device. -/
theorem spec_driverRxRecycle (descIdx : BitVec 32) :
    d.Spec numMax (d.On numMax K) (driverRxRecycle d.statics descIdx) fun _ => d.On numMax K := by
  rw [driverRxRecycle]
  split
  · exact triple_pure fun s hs => ⟨hs.safe, hs⟩
  rename_i hlt
  refine triple_bind (R := fun _ => d.On numMax K)
    ((spec_setRxDesc K (Nat.not_le.mp hlt)).post fun o s hs => ?_) fun o => ?_
  · cases o with
    | none => exact hs.1
    | some a => exact ⟨hs.1, hs.2.1⟩
  cases o with
  | none => exact triple_pure fun s hs => ⟨hs.safe, hs⟩
  | some a =>
    refine triple_bind (spec_readU16Le K _) fun next => ?_
    refine triple_bind (spec_writeSlot K 0 ?_ _) fun _ => ?_
    · rw [BitVec.toNat_setWidth, BitVec.toNat_umod]
      exact Nat.lt_of_le_of_lt (Nat.mod_le _ _) (Nat.mod_lt _ (by decide))
    refine triple_bind (spec_writeU16Le K (a := (d.statics.rxAvailNext.toNat, 2))
      (by simp [others]) le_rfl le_rfl) fun _ => ?_
    exact triple_bind (spec_writeIdx K 0 _) fun _ =>
      (spec_notify K (by decide)).post fun _ s hs => hs.1

/-- **Whatever the stack asks for** keeps what is kept, whatever the device does meanwhile. -/
theorem spec_serve (request : Request) :
    d.Spec numMax (d.On numMax K) (serve d.statics request) fun _ => d.On numMax K := by
  cases request with
  | rxPop => exact triple_bind (spec_driverRxPop K) fun _ => triple_pure fun s hs => ⟨hs.safe, hs⟩
  | rxRecycle descIdx =>
    exact triple_bind (spec_driverRxRecycle K descIdx) fun _ =>
      triple_pure fun s hs => ⟨hs.safe, hs⟩
  | consumeTx frame =>
    obtain ⟨frame, hframe⟩ := frame
    have hmem : (d.statics.txBuf.toNat, frameMax) ∈ d.others := by simp [others]
    have hhdr : netHdrLen = 12 := rfl
    have hmax : frameMax = 1536 := rfl
    refine triple_bind (spec_store K hmem le_rfl (by rw [List.length_replicate]; omega))
      fun _ => ?_
    refine triple_bind (spec_store K hmem (Nat.le_add_right _ _) (by dsimp only; omega))
      fun _ => ?_
    refine triple_bind (spec_driverTxSend K ?_) fun _ => triple_pure fun s hs => ⟨hs.safe, hs⟩
    intro he
    have hzero : (frame.length + netHdrLen) % 2 ^ 32 = 0 := by
      rw [← BitVec.toNat_ofNat]
      exact congrArg BitVec.toNat he
    omega

end Specs

/-! ## Bringing the device up

The state of the handshake, as two properties: up to the write that says the driver is ready, and
from there on. -/

/-- Before the device is told that the driver is ready: what was read, and the queues that are
live. -/
structure Before (reads : List (BitVec 32) → Prop) (live : Fin 2 → Prop) (s : DriverState) :
    Prop where
  reads : reads (readsOf s.trace)
  silent : ¬ DriverOk s.trace
  down : ¬ Initialized s.nic
  live : ∀ q, live q → s.nic.Live q

/-- What holds after the descriptors are posted: the reads are as they were to be, and the NIC is
not up yet. -/
structure After (d : DriverImage) (reads : List (BitVec 32) → Prop) (s : DriverState) : Prop where
  reads : reads (readsOf s.trace)
  posted : d.Posted s.nic
  down : ¬ Initialized s.nic

/-- The address of the NIC is the one that was read last. -/
def MacRead (s : DriverState) : Prop :=
  ∃ net reads lo hi, netOf s.nic = some net ∧ readsOf s.trace = reads ++ [lo, hi] ∧
    net.mac = (hi.setWidth 16 : BitVec 16) ++ lo

/-- **How it ends**, whatever the device answers: it is told `DRIVER_OK` only with everything
posted, and the NIC is up exactly if the answers qualify. -/
structure Outcome (d : DriverImage) (numMax : BitVec 32 → BitVec 32) (s : DriverState) : Prop where
  told : DriverOk s.trace → d.Posted s.nic
  up : Initialized s.nic ↔ Qualifies numMax (readsOf s.trace)
  ready : Initialized s.nic → d.Posted s.nic ∧ MacRead s

theorem Harmless.netOf {s t : DriverState} (h : d.Harmless s t) : netOf t.nic = netOf s.nic := by
  rw [DriverImage.netOf, h.frame]
  rfl

theorem Harmless.initialized {s t : DriverState} (h : d.Harmless s t) :
    Initialized t.nic ↔ Initialized s.nic := by
  rw [Initialized, Initialized, h.netOf]

def before (d : DriverImage) (reads : List (BitVec 32) → Prop) (live : Fin 2 → Prop) : d.Kept where
  holds := Before reads live
  closed _ _ hst h := ⟨hst.reads ▸ h.reads, fun hok => h.silent (hst.ok hok),
    fun hup => h.down (hst.initialized.mp hup), fun q hq => hst.live (h.live q hq)⟩
  safe _ h hok := (h.silent hok).elim

def after (d : DriverImage) (reads : List (BitVec 32) → Prop) : d.Kept where
  holds := d.After reads
  closed _ _ hst h := ⟨hst.reads ▸ h.reads, hst.posted h.posted,
    fun hup => h.down (hst.initialized.mp hup)⟩
  safe _ h _ := h.posted

def outcome (d : DriverImage) (numMax : BitVec 32 → BitVec 32) : d.Kept where
  holds := d.Outcome numMax
  closed s t hst h := by
    refine ⟨fun hok => hst.posted (h.told (hst.ok hok)), ?_, fun hup => ?_⟩
    · rw [hst.initialized, hst.reads]
      exact h.up
    · obtain ⟨hposted, hmac⟩ := h.ready (hst.initialized.mp hup)
      refine ⟨hst.posted hposted, ?_⟩
      rw [MacRead, hst.netOf, hst.reads]
      exact hmac
  safe s h := h.told

/-- It ends where the device does not qualify. -/
theorem Before.outcome {reads : List (BitVec 32) → Prop} {live : Fin 2 → Prop} {s : DriverState}
    (h : Before reads live s) (hbad : ¬ Qualifies numMax (readsOf s.trace)) :
    d.Outcome numMax s :=
  ⟨fun hok => (h.silent hok).elim, ⟨fun hup => (h.down hup).elim, fun hq => (hbad hq).elim⟩,
    fun hup => (h.down hup).elim⟩

theorem not_allOk {reads : List (BitVec 32)} {k : ℕ} {v : BitVec 32} (hk : reads[k]? = some v)
    (hv : ¬ AnswerOk k v) : ¬ AllOk reads :=
  fun h => hv (h k v hk)

theorem AllOk.snoc {reads : List (BitVec 32)} {v : BitVec 32} (h : AllOk reads)
    (hv : AnswerOk reads.length v) : AllOk (reads ++ [v]) := by
  intro k w hw
  rcases Nat.lt_trichotomy k reads.length with hlt | rfl | hgt
  · rw [List.getElem?_append_left hlt] at hw
    exact h k w hw
  · rw [List.getElem?_concat_length] at hw
    rwa [← Option.some.inj hw]
  · rw [List.getElem?_eq_none (by rw [List.length_append, List.length_singleton]; omega)] at hw
    cases hw

/-! ### Steps

The steps of the handshake, each from the property before it to the one after it. -/

section Steps

variable {K : d.Kept} {E : DriverState → Prop}

theorem readsOf_read (trace : List (DriverOp × BitVec 32)) (addr v : BitVec 32) :
    readsOf (trace ++ [(.mmioRead addr, v)]) = readsOf trace ++ [v] :=
  List.filterMap_append

theorem driverOk_read {trace : List (DriverOp × BitVec 32)} {addr v : BitVec 32}
    (h : DriverOk (trace ++ [(.mmioRead addr, v)])) : DriverOk trace := by
  obtain ⟨r, hmem⟩ := h
  rcases List.mem_append.mp hmem with hmem | hmem
  · exact ⟨r, hmem⟩
  · cases List.mem_singleton.mp hmem

/-- **A register is read**, and what holds afterwards may depend on the value. The device may
answer anything. -/
theorem spec_nicRead32 (K' : BitVec 32 → d.Kept) {offset : BitVec 32}
    (hread : ∀ s addr v, K.holds s →
      (K' v).holds { s with trace := s.trace ++ [(.mmioRead addr, v)] }) :
    d.SpecT numMax (d.On numMax K) (nicRead32 offset) (fun v => d.On numMax (K' v)) E :=
  tripleT_lift (spec_perform K K' fun s r t h hact => by
    rw [act_still (.inl ⟨_, rfl⟩) hact]
    exact ⟨h.1, hread s _ r h.2⟩) fun _ _ => On.safe

theorem spec_read_before {reads : List (BitVec 32)} {live : Fin 2 → Prop} {offset : BitVec 32} :
    d.SpecT numMax (d.On numMax (d.before (· = reads) live)) (nicRead32 offset)
      (fun v => d.On numMax (d.before (· = reads ++ [v]) live)) E :=
  spec_nicRead32 (fun v => d.before (· = reads ++ [v]) live) fun _ _ _ h =>
    ⟨by rw [readsOf_read, h.reads], fun hok => h.silent (driverOk_read hok), h.down, h.live⟩

theorem spec_read_after {reads : List (BitVec 32) → Prop} {offset : BitVec 32} :
    d.SpecT numMax (d.On numMax (d.after reads)) (nicRead32 offset)
      (fun v => d.On numMax (d.after fun rs => ∃ rs', rs = rs' ++ [v] ∧ reads rs')) E :=
  spec_nicRead32 (fun v => d.after fun rs => ∃ rs', rs = rs' ++ [v] ∧ reads rs')
    fun _ _ _ h => ⟨⟨_, readsOf_read _ _ _, h.reads⟩, h.posted, h.down⟩

/-- A configuration register is written. None of these is one of the address registers, so that no
ring moves. -/
theorem spec_nicWrite32 (K' : d.Kept) {offset val : BitVec 32} (hreg : offset ∈ configRegs)
    (hwrite : ∀ s, d.On numMax K s → K'.holds
      ⟨⟨{ s.nic.st with nic := s.nic.st.nic.write32 offset val }, s.nic.attached⟩,
        s.trace ++ [(.nic (.mmioWrite (nicBase + offset) val), 0)]⟩)
    (hsafe : ∀ s, E s → d.Safe numMax s) :
    d.SpecT numMax (d.On numMax K) (nicWrite32 offset val) (fun _ => d.On numMax K') E := by
  refine spec_callOk (spec_perform K (fun r => K'.and (fun _ => r = 0) fun _ _ _ hr => hr)
    fun s r t h hact => ?_) (fun r s => On.safe) (fun s hs => ⟨hs.1, hs.2.1⟩)
    (fun r s hr hs => (hr hs.2.2).elim) hsafe
  obtain ⟨rfl, htrace, hnic⟩ := h.1.act_write32 hreg hact
  obtain ⟨nic, trace⟩ := t
  dsimp only at htrace hnic
  subst htrace hnic
  exact ⟨h.1.write32 hreg, hwrite s h, rfl⟩

/-- **A register is written before the queues are attached**, where it cannot be the one that
tells the device to go. -/
theorem spec_write_before {reads : List (BitVec 32) → Prop} {offset val : BitVec 32}
    (hreg : offset ∈ configRegs) (hval : offset = virtioMmioStatus → val ≠ statusReady)
    (hsafe : ∀ s, E s → d.Safe numMax s) :
    d.SpecT numMax (d.On numMax (d.before reads fun _ => False)) (nicWrite32 offset val)
      (fun _ => d.On numMax (d.before reads fun _ => False)) E := by
  have hplain : Plain (.nic (.mmioWrite (nicBase + offset) val)) := by
    intro he
    rw [driverOkCall, DriverOp.nic.injEq, NicCall.mmioWrite.injEq] at he
    exact hval (add_left_cancel he.1) he.2
  exact spec_nicWrite32 _ hreg (fun s h => ⟨by rw [hplain.reads]; exact h.2.reads,
    fun hok => h.2.silent (hplain.ok hok), h.2.down, fun _ hq => hq.elim⟩) hsafe

/-- A check of the driver: what follows may assume what was checked, and otherwise the function
fails with what held before. -/
theorem spec_require {α : Type} {P : DriverState → Prop} {c : Prop} [Decidable c]
    {f : Unit → OptionT (Script DriverOp (BitVec 32)) α} {Q : α → DriverState → Prop}
    (hf : c → d.SpecT numMax P (f ()) Q E) (hE : ¬ c → ∀ s, P s → d.Safe numMax s ∧ E s) :
    d.SpecT numMax P (require c >>= f) Q E := by
  rw [require]
  split
  · rename_i hc
    exact hf hc
  · rename_i hc
    exact triple_pure (hE hc)

/-- **A queue is attached**, and a device that has no room for it does not qualify. -/
theorem spec_attachQueue {reads : List (BitVec 32) → Prop} {live : Fin 2 → Prop} (q : Fin 2) :
    d.SpecT numMax (d.On numMax (d.before reads live))
      (attachQueue (.ofNat 32 q.val) (d.desc q) (d.avail q) (d.used q))
      (fun _ => d.On numMax (d.before (fun rs => reads rs ∧
        queueSize ≤ (numMax (.ofNat 32 q.val)).toNat) fun q' => q' = q ∨ live q'))
      (d.On numMax (d.outcome numMax)) := by
  let K := d.before reads live
  let K' : BitVec 32 → d.Kept := fun r =>
    (d.before reads fun q' => r = 0 ∧ q' = q ∨ q' ≠ q ∧ live q').and
      (fun _ => r = 0 ↔ queueSize ≤ (numMax (.ofNat 32 q.val)).toNat) fun _ _ _ h => h
  have hcall : d.Spec numMax (d.On numMax K) (perform (.nic (.attachQueue (.ofNat 32 q.val)
      (d.desc q) (d.avail q) (d.used q) (.ofNat 32 queueSize)))) fun r => d.On numMax (K' r) := by
    refine spec_perform K K' fun s r t h hact => ?_
    obtain ⟨htrace, hone⟩ := h.1.act_attach rfl hact
    have hplain : Plain (.nic (.attachQueue (.ofNat 32 q.val) (d.desc q) (d.avail q) (d.used q)
        (.ofNat 32 queueSize))) := by
      intro he
      cases he
    refine ⟨hone.inv, ⟨?_, fun hok => ?_, ?_, ?_⟩, hone.offers⟩
    · rw [htrace, hplain.reads]
      exact h.2.reads
    · rw [htrace] at hok
      exact h.2.silent (hplain.ok hok)
    · rw [Initialized, netOf, hone.caps]
      exact h.2.down
    · rintro q' (⟨hr, rfl⟩ | ⟨hne, hlive⟩)
      · exact hone.live hr
      · exact hone.others q' hne (h.2.live q' hlive)
  refine spec_callOk hcall (fun r s => On.safe) (fun s hs => ?_) (fun r s hr hs => ?_)
    fun s => On.safe
  · obtain ⟨hinv, hbefore, hroom⟩ := hs
    refine ⟨hinv, ⟨hbefore.reads, hroom.mp rfl⟩, hbefore.silent, hbefore.down,
      fun q' hq' => hbefore.live q' ?_⟩
    by_cases hsame : q' = q
    · exact .inl ⟨rfl, hsame⟩
    · exact .inr ⟨hsame, hq'.resolve_left hsame⟩
  · exact ⟨hs.1, hs.2.1.outcome fun hq => hr (hs.2.2.mpr (hq.room q))⟩

/-- **The self-check passes**: the kernel refuses the two calls that it has to refuse. -/
theorem spec_probe (hsafe : ∀ s, E s → d.Safe numMax s) :
    d.SpecT numMax (d.On numMax K) (probe d.statics) (fun _ => d.On numMax K) E := by
  have hprobe : ∀ (K : d.Kept) (idx bufOff : BitVec 32),
      (bufOff = BitVec.allOnes 32 - 64 ∨ idx = .ofNat 32 queueSize) →
      d.Spec numMax (d.On numMax K) (perform (.nic (.dmaSetBuf ringRx idx bufOff
        (.ofNat 32 frameMax)))) fun r => d.On numMax
          (K.and (fun _ => r = hostEInval) fun _ _ _ hr => hr) := by
    intro K idx bufOff hargs
    have hplain : Plain (.nic (.dmaSetBuf ringRx idx bufOff (.ofNat 32 frameMax))) := by
      intro he
      cases he
    refine spec_perform K _ fun s r t h hact => ?_
    obtain ⟨hr, hnic⟩ := h.1.act_probe hargs hact
    have htrace := (act_dmaSetBuf hact).1
    obtain ⟨nic, trace⟩ := t
    dsimp only at htrace hnic
    subst htrace hnic
    exact ⟨h.1, K.closed _ _ (harmless_still hplain s r) h.2, hr⟩
  refine tripleT_bind hsafe (tripleT_lift (hprobe K _ _ (.inl rfl)) fun _ _ => On.safe)
    fun rcOob => ?_
  refine tripleT_bind hsafe (tripleT_lift (spec_still _ (.inr ⟨_, _, rfl⟩)) fun _ _ => On.safe)
    fun _ => ?_
  refine tripleT_bind hsafe (tripleT_lift (hprobe _ _ _ (.inr rfl)) fun _ _ => On.safe)
    fun rcIdx => ?_
  refine tripleT_bind hsafe (tripleT_lift (spec_still _ (.inr ⟨_, _, rfl⟩)) fun _ _ => On.safe)
    fun _ => ?_
  rw [require]
  split
  · exact tripleT_pure fun s hs => ⟨hs.safe, hs.1, hs.2.1.1⟩
  · rename_i hbad
    exact tripleT_failure fun s hs => (hbad fun hne => hne.elim (· hs.2.1.2) (· hs.2.2)).elim

end Steps

/-! ### From the first register to the address

The steps put together. Where the device answers wrong, the driver stops, and what was read shows
that the device does not qualify. -/

/-- Where a register read wrong, the device does not qualify. -/
theorem outcome_of_wrong {reads : List (BitVec 32)} {live : Fin 2 → Prop} {k : ℕ} {v : BitVec 32}
    (hk : reads[k]? = some v) (hv : ¬ AnswerOk k v) {s : DriverState}
    (h : d.On numMax (d.before (· = reads) live) s) :
    d.Safe numMax s ∧ d.On numMax (d.outcome numMax) s :=
  ⟨h.safe, h.1, h.2.outcome fun hq => not_allOk hk hv (h.2.reads ▸ hq.answers)⟩

/-- The driver has the answers it wants, all but the address. -/
def Answered (reads : List (BitVec 32)) : Prop := AllOk reads ∧ reads.length = 6

/-- **The device is the expected one**, or does not qualify, as one of the answers so far is
wrong. -/
theorem spec_negotiate :
    d.SpecT numMax (d.On numMax (d.before (· = []) fun _ => False)) negotiate
      (fun _ => d.On numMax (d.before Answered fun _ => False))
      (d.On numMax (d.outcome numMax)) := by
  have hsafe : ∀ s, d.On numMax (d.outcome numMax) s → d.Safe numMax s := fun s => On.safe
  have hwrite : ∀ {reads : List (BitVec 32)} (offset val : BitVec 32), offset ∈ configRegs →
      (offset = virtioMmioStatus → val ≠ statusReady) →
      ∀ {f : Unit → OptionT (Script DriverOp (BitVec 32)) Unit},
      d.SpecT numMax (d.On numMax (d.before (· = reads) fun _ => False)) (f ())
        (fun _ => d.On numMax (d.before Answered fun _ => False))
        (d.On numMax (d.outcome numMax)) →
      d.SpecT numMax (d.On numMax (d.before (· = reads) fun _ => False))
        (nicWrite32 offset val >>= f)
        (fun _ => d.On numMax (d.before Answered fun _ => False))
        (d.On numMax (d.outcome numMax)) := by
    intro reads offset val hreg hval f hf
    exact tripleT_bind hsafe (spec_write_before hreg hval hsafe) fun _ => hf
  refine tripleT_bind hsafe spec_read_before fun magic => ?_
  refine spec_require (fun hmagic => ?_) fun hbad s => outcome_of_wrong (k := 0) rfl hbad
  refine tripleT_bind hsafe spec_read_before fun version => ?_
  refine spec_require (fun hversion => ?_) fun hbad s => outcome_of_wrong (k := 1) rfl hbad
  refine tripleT_bind hsafe spec_read_before fun deviceId => ?_
  refine spec_require (fun hdevice => ?_) fun hbad s => outcome_of_wrong (k := 2) rfl hbad
  refine hwrite _ _ (by decide) (by decide) ?_
  refine hwrite _ _ (by decide) (by decide) ?_
  refine hwrite _ _ (by decide) (by decide) ?_
  refine hwrite _ _ (by decide) (by decide) ?_
  refine tripleT_bind hsafe spec_read_before fun devFeatLo => ?_
  refine hwrite _ _ (by decide) (by decide) ?_
  refine tripleT_bind hsafe spec_read_before fun devFeatHi => ?_
  refine spec_require (fun hhi => ?_) fun hbad s => outcome_of_wrong (k := 4) rfl hbad
  refine spec_require (fun hlo => ?_) fun hbad s => outcome_of_wrong (k := 3) rfl hbad
  refine hwrite _ _ (by decide) (by decide) ?_
  refine hwrite _ _ (by decide) (by decide) ?_
  refine hwrite _ _ (by decide) (by decide) ?_
  refine hwrite _ _ (by decide) (by decide) ?_
  refine hwrite _ _ (by decide) (by decide) ?_
  refine tripleT_bind hsafe spec_read_before fun status => ?_
  rw [require]
  split
  · rename_i hstatus
    have hnil : AllOk [] := fun k v hk => by cases hk
    have hall :=
      (((((hnil.snoc hmagic).snoc hversion).snoc hdevice).snoc hlo).snoc hhi).snoc hstatus
    exact tripleT_pure fun s hs => ⟨hs.safe, hs.1, hs.2.reads ▸ ⟨hall, rfl⟩, hs.2.silent, hs.2.down,
      hs.2.live⟩
  · rename_i hbad
    exact tripleT_failure fun s => outcome_of_wrong (k := 5) rfl hbad

/-- The last write of a status: the driver is ready. -/
theorem spec_driverOk {reads : List (BitVec 32) → Prop}
    (hsafe : ∀ s, E s → d.Safe numMax s) :
    d.SpecT numMax (d.On numMax ((d.before reads fun _ => True).and
        (fun s => ∀ i < queueSize, d.PostedAt i s.nic.st.ram)
        fun _ _ hst h i hi => hst.postedAt hi (h i hi)))
      (nicWrite32 virtioMmioStatus statusReady) (fun _ => d.On numMax (d.after reads)) E := by
  refine spec_nicWrite32 (d.after reads) (by decide) (fun s h => ?_) hsafe
  obtain ⟨-, hbefore, hposted⟩ := h
  have hsame : s.nic.st.nic.write32 virtioMmioStatus statusReady = s.nic.st.nic := rfl
  refine ⟨?_, ?_, hbefore.down⟩
  · change reads (readsOf (s.trace ++ [_]))
    rw [readsOf, List.filterMap_append]
    exact (List.append_nil _).symm ▸ hbefore.reads
  · rw [hsame]
    exact ⟨fun q => hbefore.live q trivial, hposted⟩

/-- What was read once the device is up. -/
def Completed (numMax : BitVec 32 → BitVec 32) (mac : BitVec 32 × BitVec 32)
    (reads : List (BitVec 32)) : Prop :=
  Qualifies numMax reads ∧ ∃ rest hi, reads = rest ++ [mac.1, hi] ∧ mac.2 = hi &&& 0xFFFF

/-- **The device is brought up**, or does not qualify. The stages of the driver are put together
here, one triple after the other. -/
theorem spec_initVirtio :
    d.SpecT numMax (d.On numMax (d.before (· = []) fun _ => False)) (initVirtio d.statics)
      (fun mac => d.On numMax (d.after (Completed numMax mac)))
      (d.On numMax (d.outcome numMax)) := by
  have hsafe : ∀ s, d.On numMax (d.outcome numMax) s → d.Safe numMax s := fun s => On.safe
  refine tripleT_bind hsafe spec_negotiate fun _ => ?_
  refine tripleT_bind hsafe (spec_attachQueue 0) fun _ => ?_
  refine tripleT_bind hsafe (spec_attachQueue 1) fun _ => ?_
  refine tripleT_bind hsafe (spec_probe hsafe) fun _ => ?_
  -- the receive queue is attached, so that no buffer is refused
  refine tripleT_bind hsafe (R := fun _ => d.On numMax ((d.before (fun rs => (Answered rs ∧
    queueSize ≤ (numMax (.ofNat 32 0)).toNat) ∧ queueSize ≤ (numMax (.ofNat 32 1)).toNat)
      fun _ => True).and (fun s => ∀ i < queueSize, d.PostedAt i s.nic.st.ram)
        fun _ _ hst h i hi => hst.postedAt hi (h i hi)))
    ((spec_populateRx (d := d) (d.before (fun rs => (Answered rs ∧
      queueSize ≤ (numMax (.ofNat 32 0)).toNat) ∧ queueSize ≤ (numMax (.ofNat 32 1)).toNat)
        fun q' => q' = 1 ∨ q' = 0 ∨ False)).post fun o s hs => ?_) fun _ => ?_
  · cases o with
    | none =>
      have hlive : s.nic.Live 0 := hs.1.2.live 0 (.inr (.inl rfl))
      exact absurd hlive.1 (by rw [hs.2]; exact Bool.false_ne_true)
    | some a =>
      obtain ⟨hinv, hbefore, hposted⟩ := hs
      refine ⟨hinv, ⟨hbefore.reads, hbefore.silent, hbefore.down, fun q _ => hbefore.live q ?_⟩,
        hposted⟩
      rcases Fin.exists_fin_two.mp ⟨q, rfl⟩ with hq | hq
      · exact .inr (.inl hq)
      · exact .inl hq
  refine tripleT_bind hsafe (spec_driverOk hsafe) fun _ => ?_
  refine tripleT_bind hsafe spec_read_after fun lo => ?_
  refine tripleT_bind hsafe spec_read_after fun hi => ?_
  refine tripleT_pure fun s hs => ⟨hs.safe, hs.1, ?_, hs.2.posted, hs.2.down⟩
  obtain ⟨rs₁, hrs₁, rs, rfl, ⟨⟨hall, hlen⟩, hrx⟩, htx⟩ := hs.2.reads
  have hall₁ : AllOk (rs ++ [lo]) := hall.snoc (by rw [hlen]; trivial)
  have hlen₁ : (rs ++ [lo]).length = 7 := by rw [List.length_append, hlen, List.length_singleton]
  refine ⟨⟨hrs₁ ▸ hall₁.snoc (by rw [hlen₁]; trivial), fun q => ?_⟩, rs, hi, ?_, rfl⟩
  · rcases Fin.exists_fin_two.mp ⟨q, rfl⟩ with rfl | rfl
    · exact hrx
    · exact htx
  · rw [hrs₁, List.append_assoc]
    rfl

/-- The kernel's NIC object after a change of it. -/
theorem netOf_modifyNet {s : NicRun} {net : Net} (hnet : netOf s = some net) (f : Net → Net) :
    (s.st.caps.modifyNet 0 f).objectPools.nets.get 0 = some (f net) := by
  rw [CapState.modifyNet, Pool.get_modify, if_pos rfl]
  exact congrArg (Option.map f) hnet

/-- **The driver's entry**, from the first instruction on: the triple that the theorem about runs
reads off. -/
theorem spec_driverStart :
    d.Spec numMax (d.On numMax (d.before (· = []) fun _ => False)) (driverStart d.statics)
      fun _ => d.On numMax (d.outcome numMax) := by
  have hlog : d.Spec numMax (d.On numMax (d.before (· = []) fun _ => False))
      (perform (.log 0x57415200 0xC0DE0001)) fun _ =>
        d.On numMax (d.before (· = []) fun _ => False) := spec_still _ (.inr ⟨_, _, rfl⟩)
  refine triple_bind hlog fun _ => triple_bind spec_initVirtio fun o => ?_
  cases o with
  | none => exact triple_pure fun s hs => ⟨hs.safe, hs⟩
  | some mac =>
    obtain ⟨macLow, macHigh⟩ := mac
    refine spec_unit (spec_perform _ (fun _ => d.outcome numMax) fun s r t h hact => ?_)
    obtain ⟨net, hnet⟩ := h.1.net
    have hnew := netOf_modifyNet hnet fun net =>
      { net with mac := (macHigh.setWidth 16 : BitVec 16) ++ macLow, initialized := true }
    obtain ⟨hqual, rest, hi, hreads, hhigh⟩ := h.2.reads
    have hplain : Plain (.setMac macLow macHigh) := DriverOp.noConfusion
    have hmac : (macHigh.setWidth 16 : BitVec 16) = hi.setWidth 16 := by
      rw [show macHigh = hi &&& 0xFFFF from hhigh, BitVec.setWidth_and]
      exact BitVec.and_allOnes
    rw [h.1.act_setMac hact]
    refine ⟨⟨h.1.memory, h.1.cap, ⟨_, hnew⟩, h.1.numMax, h.1.rings, h.1.ringOf, h.1.queues,
      h.1.tables⟩, fun _ => ⟨h.2.posted.live, h.2.posted.posted⟩, ?_, fun _ =>
        ⟨⟨h.2.posted.live, h.2.posted.posted⟩, _, rest, macLow, hi, hnew, ?_, ?_⟩⟩
    · rw [hplain.reads]
      exact ⟨fun _ => hqual, fun _ => ⟨_, hnew, rfl⟩⟩
    · rw [hplain.reads]
      exact hreads
    · rw [← hmac]

/-! ## Every run

The triples are about the driver alone; `machine_always` turns them into properties of all states
of all runs, the device's writes included. -/

/-- A table of zeros is one of free descriptors. -/
theorem tables_of_zero {ram : Ram}
    (h : ∀ a ∈ d.statics.rings, ∀ k < a.2, ram (d.mem.base + a.1 + k) = 0#8) : d.Tables ram := by
  have hzero : ∀ q, ∀ i < queueSize, ∀ f, d.field ram q i f = 0 := by
    intro q i hi f
    have hin := f.inside
    have hmem : ((d.desc q).toNat, 16 * queueSize) ∈ d.statics.rings := by
      rw [desc]
      split <;> simp [Statics.rings]
    have hbytes : ∀ j < f.size, ram (d.entry q i + f.off + j) = 0#8 := fun j hj => by
      rw [entry, Nat.add_assoc, Nat.add_assoc]
      exact h _ hmem _ (by omega)
    calc d.field ram q i f = Ram.le (fun _ => 0#8) 0 f.size :=
          Ram.le_congr fun j hj => by rw [hbytes j hj]
      _ = 0 := by cases f <;> decide
  exact fun q i hi => ⟨.inl (hzero q i hi .len), .inl (hzero q i hi .flags)⟩

/-- The driver starts with the invariant, and nothing read. -/
theorem on_of_starts {c : DriverState × Driver Unit} (h : d.Starts numMax c) :
    d.On numMax (d.before (· = []) fun _ => False) c.1 := by
  obtain ⟨-, htrace, ram, hnic, hzero⟩ := h
  obtain ⟨⟨nic, trace⟩, p⟩ := c
  dsimp only at htrace hnic
  subst htrace hnic
  have hobject : ∃ net, (bootState .qemu).objectPools.nets.get 0 = some net ∧
      net.initialized = false := ⟨_, rfl, rfl⟩
  obtain ⟨net₀, hobject, hdown⟩ := hobject
  refine ⟨⟨rfl, ?_, ⟨_, hobject⟩, rfl, fun _ => .inl rfl, fun q hq => ?_, fun q hlive => ?_,
    tables_of_zero hzero⟩, rfl, fun hok => ?_, ?_, fun _ hq => hq.elim⟩
  · exact capAt_bootState .qemu _
  · cases hq
  · cases hlive.1
  · obtain ⟨r, hr⟩ := hok
    cases hr
  · rintro ⟨net, hnet, hup⟩
    rw [← Option.some.inj (hobject.symm.trans hnet), hdown] at hup
    cases hup

/-- What holds in every run: what the driver keeps at every call, and what it leads to. -/
theorem machine_always (d : DriverImage) (numMax : BitVec 32 → BitVec 32) :
    (d.machine numMax).Always fun c =>
      d.Safe numMax c.1 ∧ ∀ a, c.2 = .done a → d.On numMax (d.outcome numMax) c.1 := by
  refine World.always_of_triple (fun s p hinit => ?_) (fun k => spec_serve (d.outcome numMax) k)
    (stable_on _)
  obtain rfl : p = driverStart d.statics := hinit.1
  exact ⟨_, stable_on _, on_of_starts hinit, spec_driverStart⟩

/-- **The driver keeps its device fenced in**, in every state of every run, whatever the device
does between its calls: each descriptor names bytes of the linear memory, and the device writes
in receive buffers and used rings only. -/
theorem driver_fenced (d : DriverImage) (numMax : BitVec 32 → BitVec 32) :
    (d.machine numMax).Always fun c => d.Fenced c.1 :=
  (d.machine_always numMax).mono fun _ h => h.1.1.fenced

/-- **Bringing up the device.** It is told that the driver is ready only with both queues live
and all receive buffers posted; and whenever the driver is done with a call, the kernel takes
the NIC to be up exactly where the device qualifies, with the address that the device has. -/
theorem bringup_exact (d : DriverImage) (numMax : BitVec 32 → BitVec 32) :
    (d.machine numMax).Always fun c =>
      (DriverOk c.1.trace → d.Posted c.1.nic) ∧
      ∀ a, c.2 = .done a →
        (Initialized c.1.nic ↔ Qualifies numMax (readsOf c.1.trace)) ∧
        (Initialized c.1.nic → d.Posted c.1.nic ∧ MacRead c.1) :=
  (d.machine_always numMax).mono fun _ h =>
    ⟨h.1.2, fun a ha => ⟨(h.2 a ha).2.up, (h.2 a ha).2.ready⟩⟩

/-- A driver whose statics and buffers all lie in one page of memory. -/
def onePage : DriverImage where
  mem := pageAt
  statics :=
    { rxDesc := 0, rxAvail := 0x80, rxUsed := 0xA0, txDesc := 0x100, txAvail := 0x180
      txUsed := 0x1A0, rxUsedSeen := 0x1E4, rxAvailNext := 0x1E6, txUsedSeen := 0x1E8
      rxBufs := 0x200, txBuf := 0x3200 }
  placed := ⟨by decide, by decide, by decide, by decide, by decide, by decide⟩

example : ∃ c, (onePage.machine fun _ => 8).init c :=
  ⟨(⟨.booted (some pageAt) (fun _ => 0#8) fun _ => 8, []⟩, driverStart onePage.statics), rfl, rfl,
    _, rfl, fun _ _ _ _ => rfl⟩

end DriverImage

end Wari
