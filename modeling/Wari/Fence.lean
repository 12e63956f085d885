import Wari.Descriptors
import Wari.NicDriver

/-!
# The device of the shipped driver is fenced in

What each call of the driver does to the descriptor tables, from where the driver makes it. The
length of a descriptor is stored only where its address is the buffer's, and this is what the
proof has to follow through the program; the rest is one invariant that every call keeps.
-/

namespace Wari

open Lib (Ram Apart Script World Machine toLe length_toLe)
open Virtio (queueSize frameMax netHdrLen descWrite ringRx ringTx)

namespace DriverImage

variable {d : DriverImage}

/-! ## Where things are

The tables, rings and buffers are statics of the driver, at fixed offsets of its memory. That they
lie in it and apart is a property of the image. -/

/-- The descriptor table of a queue, as an offset in the driver's memory. -/
def desc (d : DriverImage) (q : Fin 2) : BitVec 32 :=
  if q = 0 then d.statics.rxDesc else d.statics.txDesc

/-- The available ring of a queue, as an offset in the driver's memory. -/
def avail (d : DriverImage) (q : Fin 2) : BitVec 32 :=
  if q = 0 then d.statics.rxAvail else d.statics.txAvail

/-- The used ring of a queue, as an offset in the driver's memory. -/
def used (d : DriverImage) (q : Fin 2) : BitVec 32 :=
  if q = 0 then d.statics.rxUsed else d.statics.txUsed

/-- Physical address of descriptor `i` of a queue. -/
def entry (d : DriverImage) (q : Fin 2) (i : ℕ) : ℕ := d.mem.base + (d.desc q).toNat + 16 * i

/-- Physical address of the buffer that descriptor `i` of a queue is for. -/
def buf (d : DriverImage) (q : Fin 2) (i : ℕ) : ℕ :=
  if q = 0 then d.mem.base + d.statics.rxBufs.toNat + frameMax * i
  else d.mem.base + d.statics.txBuf.toNat

/-- The statics but for the two descriptor tables, each with its offset and its size. -/
def others (d : DriverImage) : List (ℕ × ℕ) :=
  [(d.statics.rxAvail.toNat, 4 + 2 * queueSize), (d.statics.rxUsed.toNat, 4 + 8 * queueSize),
    (d.statics.txAvail.toNat, 4 + 2 * queueSize), (d.statics.txUsed.toNat, 4 + 8 * queueSize),
    (d.statics.rxUsedSeen.toNat, 2), (d.statics.rxAvailNext.toNat, 2),
    (d.statics.txUsedSeen.toNat, 2), (d.statics.rxBufs.toNat, queueSize * frameMax),
    (d.statics.txBuf.toNat, frameMax)]

theorem desc_apart (d : DriverImage) {a : ℕ × ℕ} (ha : a ∈ d.others) (q : Fin 2) :
    Apart a.1 a.2 (d.desc q).toNat (16 * queueSize) := by
  have hpairs := d.placed.apart
  simp only [Statics.rings, Statics.buffers, List.cons_append, List.nil_append,
    List.pairwise_cons, List.mem_cons, List.not_mem_nil, or_false, forall_eq_or_imp, forall_eq]
    at hpairs
  obtain ⟨⟨r₁, r₂, -, r₄, r₅, r₆, r₇, r₈, r₉, r₁₀⟩, ⟨-, t₁, -⟩, ⟨t₂, -⟩,
    ⟨t₃, t₄, t₅, t₆, t₇, t₈, t₉⟩, -⟩ := hpairs
  simp only [others, List.mem_cons, List.not_mem_nil, or_false] at ha
  rw [desc]
  split
  · rcases ha with rfl | rfl | rfl | rfl | rfl | rfl | rfl | rfl | rfl
    exacts [r₁.symm, r₂.symm, r₄.symm, r₅.symm, r₆.symm, r₇.symm, r₈.symm, r₉.symm, r₁₀.symm]
  · rcases ha with rfl | rfl | rfl | rfl | rfl | rfl | rfl | rfl | rfl
    exacts [t₁, t₂, t₃.symm, t₄.symm, t₅.symm, t₆.symm, t₇.symm, t₈.symm, t₉.symm]

theorem tables_apart (d : DriverImage) :
    Apart d.statics.rxDesc.toNat (16 * queueSize) d.statics.txDesc.toNat (16 * queueSize) := by
  have hpairs := d.placed.apart
  simp only [Statics.rings, Statics.buffers, List.cons_append, List.nil_append,
    List.pairwise_cons, List.mem_cons, List.not_mem_nil, or_false, forall_eq_or_imp, forall_eq]
    at hpairs
  exact hpairs.1.2.2.1

theorem desc_inside (d : DriverImage) (q : Fin 2) :
    (d.desc q).toNat + 16 * queueSize ≤ d.mem.len := by
  have hin := d.placed.inside
  rw [desc]
  split
  · exact hin (d.statics.rxDesc.toNat, 16 * queueSize) (by simp [Statics.rings])
  · exact hin (d.statics.txDesc.toNat, 16 * queueSize) (by simp [Statics.rings])

theorem others_inside (d : DriverImage) {a : ℕ × ℕ} (ha : a ∈ d.others) :
    a.1 + a.2 ≤ d.mem.len := by
  refine d.placed.inside a ?_
  simp only [others, List.mem_cons, List.not_mem_nil, or_false] at ha
  rcases ha with rfl | rfl | rfl | rfl | rfl | rfl | rfl | rfl | rfl <;>
    simp [Statics.rings, Statics.buffers]

/-! ## The descriptor tables

The descriptors are looked at by field, since the driver writes them so and the device may read
between two stores. -/

/-- Nothing of `[a, a + n)` is in a descriptor table. -/
def Offside (d : DriverImage) (a n : ℕ) : Prop :=
  ∀ q, Apart a n (d.mem.base + (d.desc q).toNat) (16 * queueSize)

/-- What is in one of the other statics is in no table. -/
theorem offside_of_mem {a : ℕ × ℕ} (ha : a ∈ d.others) {x n : ℕ} (hlow : d.mem.base + a.1 ≤ x)
    (hhigh : x + n ≤ d.mem.base + a.1 + a.2) : d.Offside x n := by
  intro q
  have hapart := d.desc_apart ha q
  rw [Apart] at hapart ⊢
  omega

/-- The two memories have the same descriptor tables. -/
def SameTables (d : DriverImage) (ram ram' : Ram) : Prop :=
  ∀ q, ∀ k < 16 * queueSize,
    ram' (d.mem.base + (d.desc q).toNat + k) = ram (d.mem.base + (d.desc q).toNat + k)

theorem Offside.same {a : ℕ} {bytes : List (BitVec 8)} (h : d.Offside a bytes.length) (ram : Ram) :
    d.SameTables ram (ram.write a bytes) := by
  intro q k hk
  have hq := h q
  rw [Apart] at hq
  exact Ram.write_apart (by omega)

/-- The fields of a descriptor, in the order in which they lie there. -/
inductive Field where
  | addr
  | len
  | flags
  | next
  deriving DecidableEq

/-- The offset of a field in its descriptor. -/
def Field.off : Field → ℕ
  | .addr => 0
  | .len => 8
  | .flags => 12
  | .next => 14

/-- The number of bytes that a field takes. -/
def Field.size : Field → ℕ
  | .addr => 8
  | .len => 4
  | .flags => 2
  | .next => 2

theorem Field.inside (f : Field) : f.off + f.size ≤ 16 := by
  cases f <;> decide

theorem Field.apart {f f' : Field} (h : f ≠ f') : Apart f.off f.size f'.off f'.size := by
  cases f <;> cases f' <;> first | exact absurd rfl h | decide

/-- A field of descriptor `i` of a queue. -/
def field (d : DriverImage) (ram : Ram) (q : Fin 2) (i : ℕ) (f : Field) : ℕ :=
  ram.le (d.entry q i + f.off) f.size

/-- What a field of a descriptor is to hold. -/
def Goal (d : DriverImage) (q : Fin 2) (i : ℕ) : Field → ℕ → Prop
  | .addr, v => v = d.buf q i
  | .len, v => v ≤ frameMax ∧ (q = 0 → v = frameMax)
  | .flags, v => v = if q = 0 then descWrite.toNat else 0
  | .next, v => v = 0

/-- Receive descriptor `i` is posted: it is its buffer, to be written to. -/
def PostedAt (d : DriverImage) (i : ℕ) (ram : Ram) : Prop :=
  ∀ f, d.Goal 0 i f (d.field ram 0 i f)

theorem SameTables.field {ram ram' : Ram} (h : d.SameTables ram ram') {q : Fin 2} {i : ℕ}
    (hi : i < queueSize) (f : Field) : d.field ram' q i f = d.field ram q i f := by
  have hin := f.inside
  refine Ram.le_congr fun j hj => ?_
  have hsame := h q (16 * i + f.off + j) (by omega)
  rw [entry]
  convert hsame using 2 <;> omega

/-- Descriptors do not overlap, in one table or between the two. -/
theorem entry_apart (d : DriverImage) {q q' : Fin 2} {i i' : ℕ} (hi : i < queueSize)
    (hi' : i' < queueSize) (hne : ¬ (q' = q ∧ i' = i)) :
    Apart (d.entry q i) 16 (d.entry q' i') 16 := by
  have htables := d.tables_apart
  have hsize : queueSize = 8 := rfl
  rw [Apart] at htables ⊢
  rw [entry, entry, desc, desc]
  fin_cases q <;> fin_cases q' <;> simp at hne ⊢ <;> omega

/-- **A field** after another was stored: the field itself has the new value, and every other has
the one it had. -/
theorem field_write {ram : Ram} {q q' : Fin 2} {i i' : ℕ} (hi : i < queueSize)
    (hi' : i' < queueSize) (f f' : Field) (v : ℕ) :
    d.field (ram.write (d.entry q i + f.off) (toLe f.size v)) q' i' f' =
      if q' = q ∧ i' = i ∧ f' = f then v % 256 ^ f.size else d.field ram q' i' f' := by
  have hin := f.inside
  have hin' := f'.inside
  rw [field, field]
  split
  · rename_i hsame
    obtain ⟨rfl, rfl, rfl⟩ := hsame
    exact Ram.le_write_self _ _ _ _
  · rename_i hne
    refine Ram.le_write_apart ?_
    rw [length_toLe]
    by_cases hentry : q' = q ∧ i' = i
    · obtain ⟨rfl, rfl⟩ := hentry
      have hfields : Apart f.off f.size f'.off f'.size :=
        Field.apart fun he => hne ⟨rfl, rfl, he.symm⟩
      rw [Apart] at hfields ⊢
      omega
    · have hsep := d.entry_apart hi hi' hentry
      rw [Apart] at hsep ⊢
      omega

/-- Descriptor `i` of the queue is for its buffer: it names no byte, or bytes of that buffer, and
only one of a receive buffer can be written to. The first is how a descriptor looks before its
length is stored. -/
structure Entry (d : DriverImage) (ram : Ram) (q : Fin 2) (i : ℕ) : Prop where
  holds : d.field ram q i .len = 0 ∨
    d.field ram q i .len ≤ frameMax ∧ d.field ram q i .addr = d.buf q i
  flags : d.field ram q i .flags = 0 ∨ q = 0 ∧ d.field ram q i .flags = 2

/-- All descriptors of both tables are for their own buffers: it is this that keeps the device
inside. -/
def Tables (d : DriverImage) (ram : Ram) : Prop := ∀ q, ∀ i < queueSize, d.Entry ram q i

theorem SameTables.tables {ram ram' : Ram} (h : d.SameTables ram ram') (ht : d.Tables ram) :
    d.Tables ram' := by
  intro q i hi
  obtain ⟨hholds, hflags⟩ := ht q i hi
  refine ⟨?_, ?_⟩
  · rw [h.field hi, h.field hi]
    exact hholds
  · rw [h.field hi]
    exact hflags

/-- What may be stored in a field: the buffer's address, a length that fits where the address is
the buffer's, the flags of the queue, and any index. This is the one condition on stores that the
proof rests on. -/
def Fits (d : DriverImage) (ram : Ram) (q : Fin 2) (i : ℕ) : Field → ℕ → Prop
  | .addr, v => v = d.buf q i
  | .len, v => v ≤ frameMax ∧ d.field ram q i .addr = d.buf q i
  | .flags, v => v = 0 ∨ q = 0 ∧ v = 2
  | .next, _ => True

theorem frameMax_le (i : ℕ) (hi : i < queueSize) :
    frameMax * i + frameMax ≤ queueSize * frameMax := by
  rw [show frameMax = 1536 from rfl]
  omega

/-- The buffer of a descriptor lies in the memory, as all statics do. -/
theorem buf_inside (d : DriverImage) (q : Fin 2) {i : ℕ} (hi : i < queueSize) :
    d.mem.base ≤ d.buf q i ∧ d.buf q i + frameMax ≤ d.mem.base + d.mem.len := by
  have hrx := d.others_inside (a := (d.statics.rxBufs.toNat, queueSize * frameMax))
    (by simp [others])
  have htx := d.others_inside (a := (d.statics.txBuf.toNat, frameMax)) (by simp [others])
  have hle := frameMax_le i hi
  rw [buf]
  split <;> constructor <;> omega

/-- The address of a buffer fits its field. -/
theorem buf_lt (d : DriverImage) (q : Fin 2) {i : ℕ} (hi : i < queueSize) :
    d.buf q i < 2 ^ 64 := by
  have hinside := d.buf_inside q hi
  have hfits := d.mem.fits
  have hmax : frameMax = 1536 := rfl
  omega

/-- **A store** of what fits keeps the tables: the one field that changes is as the driver writes
it. -/
theorem Tables.store {ram : Ram} (h : d.Tables ram) {q : Fin 2} {i : ℕ} (hi : i < queueSize)
    {f : Field} {v : ℕ} (hv : d.Fits ram q i f v) :
    d.Tables (ram.write (d.entry q i + f.off) (toLe f.size v)) := by
  have hmax : frameMax = 1536 := rfl
  intro q' i' hi'
  obtain ⟨hholds, hflags⟩ := h q' i' hi'
  constructor
  · rw [field_write hi hi', field_write hi hi']
    cases f with
    | addr =>
      have hlt := d.buf_lt q hi
      by_cases hsame : q' = q ∧ i' = i
      · obtain ⟨rfl, rfl⟩ := hsame
        obtain rfl : v = d.buf q' i' := hv
        refine hholds.imp (fun hzero => by simpa using hzero) fun hheld => ?_
        refine ⟨by simpa using hheld.1, ?_⟩
        rw [if_pos ⟨rfl, rfl, rfl⟩]
        exact Nat.mod_eq_of_lt (by rw [Field.size]; omega)
      · rw [if_neg fun he => hsame ⟨he.1, he.2.1⟩, if_neg fun he => hsame ⟨he.1, he.2.1⟩]
        exact hholds
    | len =>
      obtain ⟨hle, haddr⟩ := hv
      by_cases hsame : q' = q ∧ i' = i
      · obtain ⟨rfl, rfl⟩ := hsame
        refine .inr ⟨?_, by simpa using haddr⟩
        rw [if_pos ⟨rfl, rfl, rfl⟩]
        exact (Nat.mod_le _ _).trans hle
      · rw [if_neg fun he => hsame ⟨he.1, he.2.1⟩, if_neg fun he => hsame ⟨he.1, he.2.1⟩]
        exact hholds
    | flags => simpa using hholds
    | next => simpa using hholds
  · rw [field_write hi hi']
    split
    · rename_i hsame
      obtain ⟨rfl, rfl, rfl⟩ := hsame
      rcases hv with rfl | ⟨rfl, rfl⟩
      · exact .inl rfl
      · exact .inr ⟨rfl, rfl⟩
    · exact hflags

/-! ## The invariant

It has to hold between any two calls of the driver, that is, also while a descriptor is half
written. -/

/-- Physical address of an offset in the driver's memory. -/
def pa (d : DriverImage) (off : BitVec 32) : BitVec 64 := .ofNat 64 (d.mem.base + off.toNat)

/-- The registers of a queue the driver attached. -/
def table (d : DriverImage) (q : Fin 2) : Virtqueue where
  num := .ofNat 32 queueSize
  ready := true
  descLow := (d.pa (d.desc q)).setWidth 32
  descHigh := (d.pa (d.desc q) >>> 32).setWidth 32
  driverLow := (d.pa (d.avail q)).setWidth 32
  driverHigh := (d.pa (d.avail q) >>> 32).setWidth 32
  deviceLow := (d.pa (d.used q)).setWidth 32
  deviceHigh := (d.pa (d.used q) >>> 32).setWidth 32

theorem toNat_pa {d : DriverImage} {off : BitVec 32} (h : off.toNat < d.mem.len) :
    (d.pa off).toNat = d.mem.base + off.toNat := by
  have hfits := d.mem.fits
  rw [pa, BitVec.toNat_ofNat, Nat.mod_eq_of_lt (by omega)]

theorem table_entry (d : DriverImage) (q : Fin 2) (i : ℕ) :
    (d.table q).entry i = d.entry q i := by
  have hinside := d.desc_inside q
  have hsize : queueSize = 8 := rfl
  have hdesc : (d.table q).desc = d.mem.base + (d.desc q).toNat := by
    rw [Virtqueue.desc, table, toNat_halves, toNat_pa (by omega)]
  rw [Virtqueue.entry, hdesc, entry]

theorem used_mem (d : DriverImage) (q : Fin 2) :
    ((d.used q).toNat, 4 + 8 * queueSize) ∈ d.others := by
  rw [used]
  split <;> simp [others]

theorem table_device (d : DriverImage) (q : Fin 2) :
    (d.table q).device = d.mem.base + (d.used q).toNat := by
  have hinside := d.others_inside (d.used_mem q)
  have hsize : queueSize = 8 := rfl
  dsimp only at hinside
  rw [Virtqueue.device, table, toNat_halves, toNat_pa (by omega)]

/-- What holds whenever the driver makes a call: the queues that are live have the driver's own
tables, the descriptors are for their buffers as far as they are written, and the kernel's table
has no ring but these. -/
structure DriverInv (d : DriverImage) (numMax : BitVec 32 → BitVec 32) (s : NicRun) : Prop where
  memory : s.st.memory = some d.mem
  cap : s.st.caps.capAt (procIdTier2Net, 0) = rootCap .net 0 rightsRw
  net : ∃ net, s.st.caps.objectPools.nets.get 0 = some net
  numMax : s.st.nic.numMax = numMax
  /-- a ring is recorded as the driver's, if it is -/
  rings : ∀ q, s.st.dmaRings procIdTier2Net q = .empty ∨
    s.st.dmaRings procIdTier2Net q = ⟨d.desc q, .ofNat 32 queueSize⟩
  /-- and the ring of an attached queue is -/
  ringOf : ∀ q, s.attached q = true →
    s.st.dmaRings procIdTier2Net q = ⟨d.desc q, .ofNat 32 queueSize⟩
  queues : ∀ q, s.Live q → s.st.nic.queues q = d.table q
  tables : d.Tables s.st.ram

/-- The two differ outside the descriptor tables only. -/
structure Same (d : DriverImage) (s t : NicRun) : Prop where
  attached : t.attached = s.attached
  frame : t.st = { s.st with ram := t.st.ram }
  tables : d.SameTables s.st.ram t.st.ram

theorem Same.refl (s : NicRun) : d.Same s s := ⟨rfl, rfl, fun _ _ _ => rfl⟩

variable {numMax : BitVec 32 → BitVec 32} {s t : NicRun}

theorem DriverInv.withRam (h : d.DriverInv numMax s) (hattached : t.attached = s.attached)
    (hframe : t.st = { s.st with ram := t.st.ram }) (htables : d.Tables t.st.ram) :
    d.DriverInv numMax t := by
  obtain ⟨st, attached⟩ := t
  dsimp only at hattached hframe htables
  subst hattached
  rw [hframe]
  exact ⟨h.memory, h.cap, h.net, h.numMax, h.rings, h.ringOf, h.queues, htables⟩

theorem DriverInv.same (h : d.DriverInv numMax s) (hst : d.Same s t) : d.DriverInv numMax t :=
  h.withRam hst.attached hst.frame (hst.tables.tables h.tables)

/-- No descriptor of the driver refers to another table: it stores the flags 0 and
`VIRTQ_DESC_F_WRITE` and no others. -/
theorem DriverInv.direct (h : d.DriverInv numMax s) (q : Fin 2) {i : ℕ}
    (hi : i < (d.table q).num.toNat) : descIndirect s.st.ram ((d.table q).entry i) = false := by
  rw [table_entry]
  rcases (h.tables q i hi).flags with hzero | ⟨-, hwrite⟩
  · have hzero : s.st.ram.le (d.entry q i + 12) 2 = 0 := hzero
    rw [descIndirect, hzero]
    rfl
  · have hwrite : s.st.ram.le (d.entry q i + 12) 2 = 2 := hwrite
    rw [descIndirect, hwrite]
    rfl

/-- **What the device comes to** is a descriptor of the queue's own table. -/
theorem DriverInv.reached (h : d.DriverInv numMax s) {q : Fin 2} {table : DescTable} {i : ℕ}
    (hreach : (d.table q).Reaches s.st.ram table i) :
    i < queueSize ∧ table.entry i = d.entry q i := by
  obtain ⟨rfl, hi⟩ := hreach.direct fun _ => h.direct q
  exact ⟨hi, d.table_entry q i⟩

/-- **The descriptors stay in the memory**: whatever the device follows leads it to a buffer of
the driver. -/
theorem DriverInv.contained (h : d.DriverInv numMax s) : Contained s := by
  intro mem hmem q hlive table i hreach
  obtain rfl : d.mem = mem := Option.some.inj (h.memory.symm.trans hmem)
  rw [h.queues q hlive] at hreach
  obtain ⟨hi, hentry⟩ := h.reached hreach
  have hinside := d.buf_inside q hi
  rw [hentry]
  rcases (h.tables q i hi).holds with hzero | ⟨hle, haddr⟩
  · exact .inl hzero
  · have haddr : descAddr s.st.ram (d.entry q i) = d.buf q i := haddr
    have hle : descLen s.st.ram (d.entry q i) ≤ frameMax := hle
    exact .inr (by omega)

/-! ### What happens besides the calls

The device writes where writable descriptors let it. By the invariant that is in receive buffers,
and in the used rings. -/

/-- A store in another static leaves the tables as they are. -/
theorem write_others {s : DriverState} {a : ℕ × ℕ} (ha : a ∈ d.others) {x : ℕ}
    {bytes : List (BitVec 8)} (hlow : d.mem.base + a.1 ≤ x)
    (hhigh : x + bytes.length ≤ d.mem.base + a.1 + a.2) : d.Same s.nic (s.write x bytes).nic :=
  ⟨rfl, rfl, (offside_of_mem ha hlow hhigh).same _⟩

/-- What a store changes is where it stores. -/
theorem write_ne {s : DriverState} {x y : ℕ} {bytes : List (BitVec 8)}
    (h : (s.write x bytes).nic.st.ram y ≠ s.nic.st.ram y) : x ≤ y ∧ y < x + bytes.length := by
  by_contra hout
  exact h (Ram.write_apart (by omega))

/-- What the device writes next in a buffer is in a receive buffer. -/
theorem DriverInv.dma {s t : DriverState} (h : d.DriverInv numMax s.nic) {q : Fin 2}
    {slot : ℕ} {hops : List DescHop} {off : ℕ} {bytes : List (BitVec 8)}
    (he : d.env s (.dma q slot hops off bytes) = some t) :
    d.Same s.nic t.nic ∧ t.trace = s.trace ∧
      ∀ y, t.nic.st.ram y ≠ s.nic.st.ram y → d.Writable y := by
  rw [env] at he
  split at he
  swap
  · cases he
  rename_i hlive
  rw [Bool.and_eq_true] at hlive
  rw [h.queues q hlive] at he
  split at he
  · cases he
  rename_i table i hchase
  have hreach : (d.table q).Reaches s.nic.st.ram table i := Virtqueue.chase_reaches hchase
  obtain ⟨hi, hentry⟩ := h.reached hreach
  split at he
  swap
  · cases he
  rename_i hok
  rw [hentry] at hok he
  obtain ⟨hwritable, hlen⟩ := hok
  obtain ⟨hholds, hflags⟩ := h.tables q i hi
  have hq : q = 0 := by
    rcases hflags with hzero | ⟨hq, -⟩
    · have hzero : s.nic.st.ram.le (d.entry q i + 12) 2 = 0 := hzero
      rw [descWritable, hzero] at hwritable
      cases hwritable
    · exact hq
  subst hq
  obtain rfl := Option.some.inj he
  rcases hholds with hzero | ⟨hle, haddr⟩
  · -- no byte is written
    have hzero : descLen s.nic.st.ram (d.entry 0 i) = 0 := hzero
    obtain rfl : bytes = [] := List.length_eq_zero_iff.mp (by omega)
    have hsame : ∀ x y, (s.write x []).nic.st.ram y = s.nic.st.ram y := fun x y =>
      Ram.write_apart (by simp; omega)
    exact ⟨⟨rfl, rfl, fun _ _ _ => hsame _ _⟩, rfl, fun y hy => (hy (hsame _ y)).elim⟩
  · have haddr : descAddr s.nic.st.ram (d.entry 0 i) = d.buf 0 i := haddr
    have hle : descLen s.nic.st.ram (d.entry 0 i) ≤ frameMax := hle
    have hbufs := frameMax_le i hi
    rw [haddr, buf, if_pos rfl]
    refine ⟨write_others (a := (d.statics.rxBufs.toNat, queueSize * frameMax)) (by simp [others])
      (by omega) (by omega), rfl, fun y hy => .inl ?_⟩
    have hin := write_ne hy
    omega

/-- **What happens besides the calls** leaves the tables as they are, and what the device writes
is in a receive buffer or in a used ring. -/
theorem DriverInv.env_cases {s t : DriverState} (h : d.DriverInv numMax s.nic) {e : NicEvent}
    (he : d.env s e = some t) :
    d.Same s.nic t.nic ∧ t.trace = s.trace ∧
      (e.IsDevice → ∀ y, t.nic.st.ram y ≠ s.nic.st.ram y → d.Writable y) := by
  cases e with
  | stack off bytes =>
    rw [env] at he
    split at he
    swap
    · cases he
    rename_i hok
    obtain rfl := Option.some.inj he
    have hoff : d.Offside (d.mem.base + off) bytes.length := by
      intro q
      have hdesc := hok.2 ((d.desc q).toNat, 16 * queueSize) (by
        rw [desc]
        split <;> simp [Statics.rings])
      rw [Apart] at hdesc ⊢
      omega
    exact ⟨⟨rfl, rfl, hoff.same _⟩, rfl, fun hdev => hdev.elim⟩
  | dma q slot hops off bytes =>
    obtain ⟨hsame, htrace, hwrites⟩ := h.dma he
    exact ⟨hsame, htrace, fun _ => hwrites⟩
  | used q off bytes =>
    rw [env] at he
    split at he
    swap
    · cases he
    rename_i hok
    obtain ⟨hlive, hlen⟩ := hok
    rw [Bool.and_eq_true] at hlive
    rw [h.queues q hlive, show (d.table q).num.toNat = queueSize from rfl] at hlen
    obtain rfl := Option.some.inj he
    rw [h.queues q hlive, table_device]
    refine ⟨write_others (d.used_mem q) (by omega) (by omega), rfl, fun _ y hy => .inr ?_⟩
    have hin := write_ne hy
    rw [used] at hin
    split at hin
    · exact .inl (by omega)
    · exact .inr (by omega)

theorem DriverInv.fenced {s : DriverState} (h : d.DriverInv numMax s.nic) : d.Fenced s :=
  ⟨h.contained, fun _ _ hdev he => (h.env_cases he).2.2 hdev⟩

/-! ### Calls

What a call of the driver does, in a state where the invariant holds. -/

section

variable {s t : DriverState} {r : BitVec 32}

theorem DriverInv.act_store (h : d.DriverInv numMax s.nic) {off : ℕ} {bytes : List (BitVec 8)}
    (hact : driverAct s (.nic (.store off bytes)) r = some t) :
    t = { s.write (d.mem.base + off) bytes with
      trace := s.trace ++ [(.nic (.store off bytes), r)] } := by
  rw [driverAct] at hact
  split at hact
  · obtain ⟨nic, hnic, rfl⟩ := Option.map_eq_some_iff.mp hact
    rw [nicStep, h.memory] at hnic
    dsimp only at hnic
    split at hnic
    · rw [← Option.some.inj hnic]
      rfl
    · cases hnic
  · cases hact

/-- **`nic_dma_set_buf`** of the driver, past the check of its capability. -/
theorem DriverInv.dmaSetBuf_eq (h : d.DriverInv numMax s.nic) {q : Fin 2}
    {ring : BitVec 32} (hring : ring.toNat = q.val) (idx bufOff len : BitVec 32) :
    nicDmaSetBufImpl s.nic.st (procByte procIdTier2Net) ring idx bufOff len =
      match descAddrOffset (s.nic.st.dmaRings procIdTier2Net q) idx with
      | none => (eInval, s.nic.st)
      | some addrOff =>
        if spanInLinmem bufOff len d.mem.len && spanInLinmem addrOff 8 d.mem.len then
          (0, (s.write (d.mem.base + addrOff.toNat)
            (toLe 8 (d.mem.base + bufOff.toNat))).nic.st)
        else (eInval, s.nic.st) := by
  have hq : ringIndex? ring = some q := by
    rw [ringIndex?, dif_pos (by omega)]
    exact congrArg some (Fin.ext hring)
  have hcap : ((rootCap .net 0 rightsRw).isEmpty || (rootCap .net 0 rightsRw).kind != .net ||
      decide ((rootCap .net 0 rightsRw).rights &&& capRightWrite = 0#8)) = false := by decide
  rw [nicDmaSetBufImpl, procIndex?_procByte]
  dsimp only
  rw [h.cap, hcap, if_neg Bool.false_ne_true, hq, h.memory]
  dsimp only
  cases descAddrOffset (s.nic.st.dmaRings procIdTier2Net q) idx with
  | none => rfl
  | some addrOff =>
    dsimp only
    rw [← Bool.not_and]
    by_cases hspans : (spanInLinmem bufOff len d.mem.len && spanInLinmem addrOff 8 d.mem.len) = true
    · rw [hspans]
      rw [Bool.and_eq_true] at hspans
      obtain ⟨hpos, -, hle⟩ := spanInLinmem_iff.mp hspans.1
      obtain ⟨-, -, hroom⟩ := spanInLinmem_iff.mp hspans.2
      have hroom : addrOff.toNat + 8 ≤ d.mem.len := hroom
      have hlen : 0 < len.toNat := Nat.pos_of_ne_zero fun he => hpos (BitVec.eq_of_toNat_eq he)
      have hfits := d.mem.fits
      rw [BitVec.toNat_ofNat, Nat.mod_eq_of_lt (by omega), if_pos hroom, ← h.memory]
      rfl
    · rw [Bool.not_eq_true] at hspans
      rw [hspans]
      rfl

/-- What the driver's call of `nic_dma_set_buf` does, its answer known. -/
theorem act_dmaSetBuf {ring idx bufOff len : BitVec 32}
    (hact : driverAct s (.nic (.dmaSetBuf ring idx bufOff len)) r = some t) :
    t.trace = s.trace ++ [(.nic (.dmaSetBuf ring idx bufOff len), r)] ∧
    r = .ofInt 32 (nicDmaSetBufImpl s.nic.st (procByte procIdTier2Net) ring idx bufOff len).1 ∧
    t.nic = ⟨(nicDmaSetBufImpl s.nic.st (procByte procIdTier2Net) ring idx bufOff len).2,
      s.nic.attached⟩ := by
  rw [driverAct] at hact
  split at hact
  · rename_i hr
    obtain ⟨nic, hnic, rfl⟩ := Option.map_eq_some_iff.mp hact
    exact ⟨rfl, hr, (Option.some.inj hnic).symm⟩
  · cases hact

/-- **A descriptor and its buffer**: refused, or the address is set; and it is set where the
queue is attached and the span is one of the buffer. -/
theorem DriverInv.act_setBuf (h : d.DriverInv numMax s.nic) {q : Fin 2} {i : ℕ}
    (hi : i < queueSize) {ring idx bufOff len : BitVec 32} (hring : ring.toNat = q.val)
    (hidx : idx.toNat = i) (hbuf : d.mem.base + bufOff.toNat = d.buf q i)
    (hact : driverAct s (.nic (.dmaSetBuf ring idx bufOff len)) r = some t) :
    r ≠ 0 ∧ t.nic = s.nic ∧ (s.nic.attached q = true → len = 0 ∨ frameMax < len.toNat) ∨
    r = 0 ∧ t.nic = (s.write (d.entry q i + Field.addr.off)
      (toLe Field.addr.size (d.buf q i))).nic := by
  obtain ⟨-, hr, hnic⟩ := act_dmaSetBuf hact
  rw [h.dmaSetBuf_eq hring] at hr hnic
  have hinval : BitVec.ofInt 32 eInval ≠ 0 := by decide
  have hsize : queueSize = 8 := rfl
  have hmax : frameMax = 1536 := rfl
  have hdesc := d.desc_inside q
  have hsmall := d.placed.small
  have hoffset : s.nic.st.dmaRings procIdTier2Net q = ⟨d.desc q, .ofNat 32 queueSize⟩ →
      ∃ addrOff, descAddrOffset (s.nic.st.dmaRings procIdTier2Net q) idx = some addrOff ∧
        addrOff.toNat = (d.desc q).toNat + 16 * i := by
    intro hrecord
    have hmul : (idx * descSize).toNat = 16 * i := by
      rw [BitVec.toNat_mul, hidx, show descSize.toNat = 16 from rfl]
      omega
    have hsome : descAddrOffset ⟨d.desc q, .ofNat 32 queueSize⟩ idx =
        some (d.desc q + idx * descSize) := by
      have hlt : ¬ (BitVec.ofNat 32 queueSize ≤ idx) := by
        change ¬ (queueSize ≤ idx.toNat)
        omega
      have hmax : ¬ (DmaRing.maxRingEntries < BitVec.ofNat 32 queueSize) := by decide
      rw [descAddrOffset, if_neg]
      · dsimp only
        rw [checkedAdd, hmul, if_pos (by omega)]
      · rintro (hactive | hle | hgt)
        · cases hactive
        · exact hlt hle
        · exact hmax hgt
    refine ⟨_, hrecord ▸ hsome, ?_⟩
    rw [BitVec.toNat_add_of_lt (by omega), hmul]
  rcases h.rings q with hempty | hrecord
  · rw [hempty] at hr hnic
    have hnone : descAddrOffset .empty idx = none := rfl
    rw [hnone] at hr hnic
    refine .inl ⟨hr ▸ hinval, hnic, fun hattached => ?_⟩
    have hfull := h.ringOf q hattached
    rw [hempty, DmaRing.empty, DmaRing.mk.injEq] at hfull
    exact absurd hfull.2 (by decide)
  · obtain ⟨addrOff, hsome, haddr⟩ := hoffset hrecord
    rw [hsome] at hr hnic
    dsimp only at hr hnic
    split at hr
    · rename_i hspans
      rw [if_pos hspans] at hnic
      have hentry : d.mem.base + addrOff.toNat = d.entry q i + Field.addr.off := by
        rw [haddr, entry, Field.off]
        omega
      rw [hentry, hbuf] at hnic
      exact .inr ⟨hr, hnic⟩
    · rename_i hspans
      rw [if_neg hspans] at hnic
      refine .inl ⟨hr ▸ hinval, hnic, fun _ => ?_⟩
      have hinside := d.buf_inside q hi
      by_contra hlen
      rw [not_or, Nat.not_lt] at hlen
      refine hspans ?_
      rw [Bool.and_eq_true, spanInLinmem_iff, spanInLinmem_iff]
      have hfield : (8 : BitVec 32).toNat = 8 := rfl
      refine ⟨⟨hlen.1, ?_, ?_⟩, by decide, ?_, ?_⟩ <;> omega

/-- **The self-check** is refused, both calls of it, which is what the driver wants to see. -/
theorem DriverInv.act_probe (h : d.DriverInv numMax s.nic) {idx bufOff : BitVec 32}
    (hprobe : bufOff = BitVec.allOnes 32 - 64 ∨ idx = .ofNat 32 queueSize)
    (hact : driverAct s (.nic (.dmaSetBuf ringRx idx bufOff (.ofNat 32 frameMax))) r = some t) :
    r = Driver.hostEInval ∧ t.nic = s.nic := by
  obtain ⟨-, hr, hnic⟩ := act_dmaSetBuf hact
  have hring : ringRx.toNat = (0 : Fin 2).val := rfl
  have hrefused : nicDmaSetBufImpl s.nic.st (procByte procIdTier2Net) ringRx idx bufOff
      (.ofNat 32 frameMax) = (eInval, s.nic.st) := by
    rw [h.dmaSetBuf_eq hring]
    rcases hprobe with rfl | rfl
    · have hspan :
          spanInLinmem (BitVec.allOnes 32 - 64) (.ofNat 32 frameMax) d.mem.len = false := by
        rw [Bool.eq_false_iff]
        intro hin
        exact absurd (spanInLinmem_iff.mp hin).2.1 (by decide)
      cases descAddrOffset (s.nic.st.dmaRings procIdTier2Net 0) idx with
      | none => rfl
      | some addrOff =>
        dsimp only
        rw [hspan]
        rfl
    · have hnone : descAddrOffset (s.nic.st.dmaRings procIdTier2Net 0) (.ofNat 32 queueSize) =
          none := by
        rcases h.rings 0 with hring | hring <;> rw [hring] <;> rfl
      rw [hnone]
  rw [hrefused] at hr hnic
  exact ⟨hr, hnic⟩

/-- The registers that the driver writes itself, none of which holds an address. -/
def configRegs : List (BitVec 32) :=
  [virtioMmioStatus, Driver.virtioMmioDeviceFeaturesSel, Driver.virtioMmioDriverFeatures,
    Driver.virtioMmioDriverFeaturesSel]

/-- **A write of the driver to a register** is let through, as the register holds no address. -/
theorem DriverInv.act_write32 (h : d.DriverInv numMax s.nic) {offset val : BitVec 32}
    (hreg : offset ∈ configRegs)
    (hact : driverAct s (.nic (.mmioWrite (nicBase + offset) val)) r = some t) :
    r = 0 ∧ t.trace = s.trace ++ [(.nic (.mmioWrite (nicBase + offset) val), r)] ∧
      t.nic = ⟨{ s.nic.st with nic := s.nic.st.nic.write32 offset val }, s.nic.attached⟩ := by
  have hcheck : s.nic.st.caps.checkCap (procIdTier2Net, 0) .net capRightWrite = .ok () := by
    rw [CapState.checkCap, h.cap]
    rfl
  have hpasses : isNetMmioAccess (nicBase + offset).toNat 4 = true ∧
      isDmaAddrRegister (nicBase + offset).toNat 4 = false ∧
        nicBase + offset - nicBase = offset := by
    simp only [configRegs, List.mem_cons, List.not_mem_nil, or_false] at hreg
    rcases hreg with rfl | rfl | rfl | rfl <;> decide
  have hout : hostNetMmioWrite32 s.nic.st (nicBase + offset) val =
      (0, { s.nic.st with nic := s.nic.st.nic.write32 offset val }) := by
    rw [hostNetMmioWrite32, hcheck]
    dsimp only
    rw [hpasses.1, hpasses.2.1, hpasses.2.2]
    rfl
  rw [driverAct] at hact
  split at hact
  swap
  · cases hact
  rename_i hr
  obtain ⟨nic, hnic, rfl⟩ := Option.map_eq_some_iff.mp hact
  rw [nicAnswer, hout] at hr
  rw [nicStep, hout] at hnic
  exact ⟨hr, rfl, (Option.some.inj hnic).symm⟩

/-- And does nothing to a queue, but for the reset. -/
theorem write32_configRegs {offset : BitVec 32} (hreg : offset ∈ configRegs) (nic : VirtioNic)
    (val : BitVec 32) :
    (nic.write32 offset val).numMax = nic.numMax ∧
    ((nic.write32 offset val).queues = nic.queues ∨
      (offset = virtioMmioStatus ∧ val = 0) ∧
        (nic.write32 offset val).queues = fun _ => Virtqueue.reset) := by
  simp only [configRegs, List.mem_cons, List.not_mem_nil, or_false] at hreg
  rcases hreg with rfl | rfl | rfl | rfl
  · by_cases hval : val = 0
    · subst hval
      exact ⟨rfl, .inr ⟨⟨rfl, rfl⟩, rfl⟩⟩
    · have hsame : nic.write32 virtioMmioStatus val = nic := by
        change (if val = 0 then _ else nic) = nic
        exact if_neg hval
      rw [hsame]
      exact ⟨rfl, .inl rfl⟩
  all_goals exact ⟨rfl, .inl rfl⟩

theorem DriverInv.write32 (h : d.DriverInv numMax s.nic) {offset val : BitVec 32}
    (hreg : offset ∈ configRegs) : d.DriverInv numMax
      ⟨{ s.nic.st with nic := s.nic.st.nic.write32 offset val }, s.nic.attached⟩ := by
  obtain ⟨hnum, hqueues⟩ := write32_configRegs hreg s.nic.st.nic val
  refine ⟨h.memory, h.cap, h.net, hnum.trans h.numMax, h.rings, h.ringOf, fun q hlive => ?_,
    h.tables⟩
  obtain ⟨hattached, hready⟩ := hlive
  dsimp only at hready ⊢
  rcases hqueues with hsame | ⟨-, hreset⟩
  · rw [hsame] at hready ⊢
    exact h.queues q ⟨hattached, hready⟩
  · rw [hreset] at hready
    cases hready

theorem avail_mem (d : DriverImage) (q : Fin 2) :
    ((d.avail q).toNat, 4 + 2 * queueSize) ∈ d.others := by
  rw [avail]
  split <;> simp [others]

theorem desc_aligned (d : DriverImage) (q : Fin 2) :
    (d.desc q).toNat % 16 = 0 ∧ (d.avail q).toNat % 2 = 0 ∧ (d.used q).toNat % 4 = 0 := by
  have hdesc := d.placed.desc
  have havail := d.placed.avail
  have hused := d.placed.used
  rw [desc, avail, used]
  split
  · exact ⟨hdesc.1, havail.1, hused.1⟩
  · exact ⟨hdesc.2, havail.2, hused.2⟩

/-- The driver's rings pass the kernel's checks: they are aligned, small enough and inside the
memory. -/
theorem DriverInv.recordable (h : d.DriverInv numMax s.nic) {q : Fin 2} {queueIdx : BitVec 32}
    (hq : queueIdx.toNat = q.val) :
    Recordable s.nic.st (procByte procIdTier2Net) queueIdx (d.desc q) (d.avail q) (d.used q)
      (.ofNat 32 queueSize) procIdTier2Net q d.mem := by
  have hdesc := d.desc_inside q
  have havail := d.others_inside (d.avail_mem q)
  have hused := d.others_inside (d.used_mem q)
  have hsmall := d.placed.small
  obtain ⟨hdesc₁, havail₁, hused₁⟩ := d.desc_aligned q
  have hsize : (BitVec.ofNat 32 queueSize).toNat = 8 := rfl
  have hnum : queueSize = 8 := rfl
  exact
    { proc := procIndex?_procByte _
      present := by rw [h.cap]; rfl
      kind := by rw [h.cap]; rfl
      rights := by rw [h.cap]; decide
      queue := by
        rw [ringIndex?, dif_pos (by omega)]
        exact congrArg some (Fin.ext hq)
      size := by decide
      aligned := ⟨(Lib.and_low_eq_zero _ (k := 4) (by decide)).mpr hdesc₁,
        (Lib.and_low_eq_zero _ (k := 1) (by decide)).mpr havail₁,
        (Lib.and_low_eq_zero _ (k := 2) (by decide)).mpr hused₁⟩
      memory := h.memory
      desc := by omega
      avail := by omega
      used := by omega
      fits := ringFits_iff.mpr (by omega) }

/-- What `nic_attach_queue` does where its checks pass. -/
theorem nicAttachQueueImpl_recordable {s : NicState} {procId : BitVec 8}
    {queueIdx descOff availOff usedOff queueSize : BitVec 32} {p : Proc} {q : Fin 2} {mem : LinMem}
    (h : Recordable s procId queueIdx descOff availOff usedOff queueSize p q mem) :
    nicAttachQueueImpl s procId queueIdx descOff availOff usedOff queueSize =
      ((s.nic.configureQueue queueIdx queueSize (.ofNat 64 (mem.base + descOff.toNat))
          (.ofNat 64 (mem.base + availOff.toNat)) (.ofNat 64 (mem.base + usedOff.toNat))).1,
        { s with
          dmaRings := recorded s.dmaRings p q ⟨descOff, queueSize⟩
          nic := (s.nic.configureQueue queueIdx queueSize (.ofNat 64 (mem.base + descOff.toNat))
            (.ofNat 64 (mem.base + availOff.toNat))
            (.ofNat 64 (mem.base + usedOff.toNat))).2 }) := by
  rw [← nicAttachQueueOn_qemu, nicAttachQueueOn_eq .qemu h]
  rfl

/-- What `nic_attach_queue` leaves behind, whether the device offers the descriptors or not. -/
structure AttachedOne (d : DriverImage) (numMax : BitVec 32 → BitVec 32) (s t : NicRun)
    (q : Fin 2) (r : BitVec 32) : Prop where
  inv : d.DriverInv numMax t
  ram : t.st.ram = s.st.ram
  caps : t.st.caps = s.st.caps
  offers : r = 0 ↔ queueSize ≤ (numMax (.ofNat 32 q.val)).toNat
  live : r = 0 → t.Live q
  others : ∀ q', q' ≠ q → s.Live q' → t.Live q'

/-- `nic_attach_queue` at the device: the queue is selected, and configured where the device
offers the descriptors. -/
theorem configureQueue_eq (nic : VirtioNic) (queueIdx queueSize : BitVec 32)
    (descPa availPa usedPa : BitVec 64) :
    nic.configureQueue queueIdx queueSize descPa availPa usedPa =
      if nic.numMax queueIdx < queueSize then (eInval, { nic with sel := queueIdx })
      else (0, ({ nic with sel := queueIdx } : VirtioNic).onQueue fun _ =>
        { num := queueSize
          ready := true
          descLow := descPa.setWidth 32
          descHigh := (descPa >>> 32).setWidth 32
          driverLow := availPa.setWidth 32
          driverHigh := (availPa >>> 32).setWidth 32
          deviceLow := usedPa.setWidth 32
          deviceHigh := (usedPa >>> 32).setWidth 32 }) := by
  have hlicensed : isNetMmioAddr (nicBase + virtioMmioQueueSel).toNat = true := by decide
  have hsel : nic.write32 virtioMmioQueueSel queueIdx = { nic with sel := queueIdx } := rfl
  split
  · rename_i hlt
    rw [VirtioNic.configureQueue, hlicensed, Bool.not_true, if_neg Bool.false_ne_true]
    dsimp only
    rw [hsel, if_pos hlt]
  · rename_i hge
    rcases nic.configureQueue_cases queueIdx queueSize descPa availPa usedPa with ⟨hne, -⟩ | heq
    · exact (hne ((Board.attach_fst .qemu nic queueIdx queueSize descPa availPa usedPa).mpr
        ⟨rfl, BitVec.not_lt.mp hge⟩)).elim
    · exact heq

/-- What the driver's own `nic_attach_queue` does, with its own rings as the arguments. -/
theorem DriverInv.attachQueue_eq (h : d.DriverInv numMax s.nic) {q : Fin 2} {queueIdx : BitVec 32}
    (hq : queueIdx.toNat = q.val) :
    nicAttachQueueImpl s.nic.st (procByte procIdTier2Net) queueIdx (d.desc q) (d.avail q)
        (d.used q) (.ofNat 32 queueSize) =
      let rings := recorded s.nic.st.dmaRings procIdTier2Net q ⟨d.desc q, .ofNat 32 queueSize⟩
      if numMax queueIdx < .ofNat 32 queueSize then
        (eInval, { s.nic.st with
          dmaRings := rings
          nic := ⟨queueIdx, s.nic.st.nic.queues, s.nic.st.nic.numMax⟩ })
      else
        (0, { s.nic.st with
          dmaRings := rings
          nic := ⟨queueIdx, Function.update s.nic.st.nic.queues q (d.table q),
            s.nic.st.nic.numMax⟩ }) := by
  rw [nicAttachQueueImpl_recordable (h.recordable hq), configureQueue_eq, ← h.numMax]
  split
  · rfl
  · have hsel : ({ s.nic.st.nic with sel := queueIdx } : VirtioNic).sel.toNat = q.val := hq
    rw [VirtioNic.onQueue_eq hsel]
    rfl

/-- A queue of the driver is recorded, and the invariant now covers that queue as well. -/
theorem DriverInv.record (h : d.DriverInv numMax s.nic) {q : Fin 2} {sel : BitVec 32}
    {queues : Fin 2 → Virtqueue} {attached : Fin 2 → Bool}
    (hothers : ∀ q', q' ≠ q → attached q' = s.nic.attached q' ∧ queues q' = s.nic.st.nic.queues q')
    (hself : attached q = true → (queues q).ready = true → queues q = d.table q) :
    d.DriverInv numMax ⟨{ s.nic.st with
      dmaRings := recorded s.nic.st.dmaRings procIdTier2Net q ⟨d.desc q, .ofNat 32 queueSize⟩
      nic := ⟨sel, queues, s.nic.st.nic.numMax⟩ }, attached⟩ := by
  have hrecorded : ∀ q', recorded s.nic.st.dmaRings procIdTier2Net q
      ⟨d.desc q, .ofNat 32 queueSize⟩ procIdTier2Net q' =
      if q' = q then ⟨d.desc q, .ofNat 32 queueSize⟩ else s.nic.st.dmaRings procIdTier2Net q' := by
    intro q'
    rw [recorded, Function.update_self]
    exact Function.update_apply _ _ _ _
  refine ⟨h.memory, h.cap, h.net, h.numMax, fun q' => ?_, fun q' hq' => ?_, fun q' hlive => ?_,
    h.tables⟩
  · dsimp only
    rw [hrecorded]
    split
    · rename_i hsame
      exact .inr (by rw [hsame])
    · exact h.rings q'
  · dsimp only at hq' ⊢
    rw [hrecorded]
    split
    · rename_i hsame
      rw [hsame]
    · rename_i hne
      rw [(hothers q' hne).1] at hq'
      exact h.ringOf q' hq'
  · obtain ⟨hattached, hready⟩ := hlive
    dsimp only at hattached hready ⊢
    by_cases hsame : q' = q
    · subst hsame
      exact hself hattached hready
    · rw [(hothers q' hsame).1] at hattached
      rw [(hothers q' hsame).2] at hready ⊢
      exact h.queues q' ⟨hattached, hready⟩

/-- **A queue is attached** where the device offers eight descriptors, and is refused where it
offers less. -/
theorem DriverInv.act_attach (h : d.DriverInv numMax s.nic) {q : Fin 2} {queueIdx : BitVec 32}
    (hq : queueIdx = .ofNat 32 q.val)
    (hact : driverAct s (.nic (.attachQueue queueIdx (d.desc q) (d.avail q) (d.used q)
      (.ofNat 32 queueSize))) r = some t) :
    t.trace = s.trace ++ [(.nic (.attachQueue queueIdx (d.desc q) (d.avail q) (d.used q)
      (.ofNat 32 queueSize)), r)] ∧ d.AttachedOne numMax s.nic t.nic q r := by
  have hqv : queueIdx.toNat = q.val := by
    have hlt := q.isLt
    rw [hq, BitVec.toNat_ofNat]
    omega
  rw [driverAct] at hact
  split at hact
  swap
  · cases hact
  rename_i hr
  obtain ⟨nic, hnic, rfl⟩ := Option.map_eq_some_iff.mp hact
  refine ⟨rfl, ?_⟩
  rw [nicAnswer, h.attachQueue_eq hqv] at hr
  rw [nicStep, h.attachQueue_eq hqv] at hnic
  dsimp only at hr hnic
  by_cases hlt : numMax queueIdx < .ofNat 32 queueSize
  · rw [if_pos hlt] at hr hnic
    have hne : ¬ (BitVec.ofInt 32 eInval = 0) := by decide
    have hoff : ∀ q', (if eInval = 0 ∧ queueIdx.toNat = q'.val then true
        else s.nic.attached q') = s.nic.attached q' :=
      fun q' => if_neg fun he => absurd he.1 (by decide)
    obtain rfl := Option.some.inj hnic
    subst hr
    refine ⟨h.record (fun q' _ => ⟨hoff q', rfl⟩) fun hattached hready => ?_, rfl, rfl, ?_,
      fun he => (hne he).elim, fun q' _ hlive => ⟨(hoff q').trans hlive.1, hlive.2⟩⟩
    · exact h.queues q ⟨(hoff q).symm.trans hattached, hready⟩
    · exact ⟨fun he => (hne he).elim, fun hle => absurd hlt (Nat.not_lt.mpr (hq ▸ hle))⟩
  · rw [if_neg hlt] at hr hnic
    have hothers : ∀ q', q' ≠ q → (if (0 : ℤ) = 0 ∧ queueIdx.toNat = q'.val then true
        else s.nic.attached q') = s.nic.attached q' := fun q' hne =>
      if_neg fun he => hne (Fin.ext (he.2.symm.trans hqv))
    obtain rfl := Option.some.inj hnic
    subst hr
    have htable : Function.update s.nic.st.nic.queues q (d.table q) q = d.table q :=
      Function.update_self _ _ _
    refine ⟨h.record (fun q' hne => ⟨hothers q' hne, Function.update_of_ne hne _ _⟩)
      fun _ _ => htable, rfl, rfl, ⟨fun _ => ?_, fun _ => rfl⟩, fun _ => ⟨if_pos ⟨rfl, hqv⟩, ?_⟩,
      fun q' hne hlive => ⟨(hothers q' hne).trans hlive.1, ?_⟩⟩
    · rw [hq] at hlt
      exact Nat.not_lt.mp hlt
    · change (Function.update s.nic.st.nic.queues q (d.table q) q).ready = true
      rw [htable]
      rfl
    · change (Function.update s.nic.st.nic.queues q (d.table q) q').ready = true
      rw [Function.update_of_ne hne]
      exact hlive.2

/-- A load, a register read and a line of the log change nothing. -/
theorem act_still {op : DriverOp}
    (hop : (∃ addr, op = .mmioRead addr) ∨ (∃ off n, op = .load off n) ∨
      ∃ tag val, op = .log tag val) (hact : driverAct s op r = some t) :
    t = { s with trace := s.trace ++ [(op, r)] } := by
  rcases hop with ⟨addr, rfl⟩ | ⟨off, n, rfl⟩ | ⟨tag, val, rfl⟩ <;> rw [driverAct] at hact
  · split at hact
    · exact (Option.some.inj hact).symm
    · cases hact
  · split at hact
    · cases hact
    · split at hact
      · exact (Option.some.inj hact).symm
      · cases hact
  · split at hact
    · exact (Option.some.inj hact).symm
    · cases hact

/-- **The device is notified**, which changes nothing but the trace. -/
theorem DriverInv.act_queueNotify (h : d.DriverInv numMax s.nic) {queueIdx : BitVec 32}
    (hq : ¬ 1 < queueIdx) (hact : driverAct s (.queueNotify queueIdx) r = some t) :
    r = 0 ∧ t = { s with trace := s.trace ++ [(.queueNotify queueIdx, r)] } := by
  have hcap : ((rootCap .net 0 rightsRw).isEmpty || (rootCap .net 0 rightsRw).kind != .net ||
      decide ((rootCap .net 0 rightsRw).rights &&& capRightWrite = 0#8)) = false := by decide
  have hout : nicQueueNotifyImpl s.nic.st (procByte procIdTier2Net) queueIdx = 0 := by
    rw [nicQueueNotifyImpl, procIndex?_procByte]
    dsimp only
    rw [h.cap, hcap, if_neg Bool.false_ne_true, if_neg hq]
  rw [driverAct, hout] at hact
  split at hact
  · rename_i hr
    exact ⟨hr, (Option.some.inj hact).symm⟩
  · cases hact

/-- **The kernel learns the address**, and marks the NIC as up. Nothing that the device follows
changes. -/
theorem DriverInv.act_setMac (h : d.DriverInv numMax s.nic) {macLow macHigh : BitVec 32}
    (hact : driverAct s (.setMac macLow macHigh) r = some t) :
    t = ⟨⟨{ s.nic.st with caps := s.nic.st.caps.modifyNet 0 fun net =>
        { net with mac := (macHigh.setWidth 16 : BitVec 16) ++ macLow, initialized := true } },
      s.nic.attached⟩, s.trace ++ [(.setMac macLow macHigh, r)]⟩ := by
  obtain ⟨net, hnet⟩ := h.net
  have hout : nicSetMacImpl s.nic.st (procByte procIdTier2Net) macLow macHigh =
      (0, { s.nic.st with
        caps := s.nic.st.caps.modifyNet 0 fun net =>
          { net with
            mac := (macHigh.setWidth 16 : BitVec 16) ++ macLow
            initialized := true } }) := by
    have hindex : (rootCap .net 0 rightsRw).poolIndex = 0 := rfl
    rw [nicSetMacImpl, procIndex?_procByte]
    dsimp only
    rw [h.cap, if_neg (by decide), if_neg (by decide), if_neg (by decide), hindex, hnet]
  rw [driverAct, hout] at hact
  dsimp only at hact
  split at hact
  · exact (Option.some.inj hact).symm
  · cases hact

end

end DriverImage

end Wari
