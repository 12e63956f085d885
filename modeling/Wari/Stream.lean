import Wari.Ipc
import Wari.Lib.Machine
import Wari.Lib.Window

/-!
# Readers of the audit stream

The ring keeps the last 128 records, and its writer never waits: a reader that falls
behind is given the oldest record that is left, and computes from its number what it
missed. Numbers are `u64`. As long as fewer than `2 ^ 64` records are written,
`stream_accounts`: what a reader has read, and the gaps it can compute, are
everything from its start to where it stands. The number wraps after that, and a
reader that slept through all of it is told that there is nothing new.
-/

namespace Wari

open Lib (Machine Window Reads gaps)

/-! ## What was emitted

The records from the first one on, as a list, of which the ring has the last. -/

/-- What one call of `emit` is asked to record. -/
structure Emission where
  kind : EventKind
  a : BitVec 16
  b : BitVec 32

/-- The record of an emission under a number. -/
def Emission.record (m : Emission) (seq : BitVec 64) : Event := ⟨seq, m.kind.raw, m.a, m.b⟩

/-- The records of a stream, from its first. -/
def records (emitted : List Emission) : List Event :=
  emitted.mapIdx fun i m => m.record (BitVec.ofNat 64 i)

@[simp] theorem length_records (emitted : List Emission) :
    (records emitted).length = emitted.length := by
  simp [records]

theorem records_concat (emitted : List Emission) (m : Emission) :
    records (emitted ++ [m]) =
      records emitted ++ [m.record (BitVec.ofNat 64 emitted.length)] := by
  simp [records, List.mapIdx_append]

theorem getElem?_records {emitted : List Emission} {i : ℕ} {e : Event} :
    (records emitted)[i]? = some e ↔
      ∃ m, emitted[i]? = some m ∧ m.record (BitVec.ofNat 64 i) = e := by
  simp [records, List.getElem?_mapIdx]

/-- The stream holds these records: they are in the window of its ring, and the next
number is their count. -/
structure Events.Recorded (events : Events) (emitted : List Emission) : Prop where
  ring : Window events.ring (records emitted)
  next : events.nextSeq = BitVec.ofNat 64 emitted.length

theorem Events.recorded_new : Events.new.Recorded [] :=
  ⟨Lib.window_nil _, rfl⟩

theorem ringSlot_ofNat (n : ℕ) : n % ringCapacity = (ringSlot (BitVec.ofNat 64 n)).val := by
  change n % 128 = n % 18446744073709551616 % 128
  omega

/-- **One more record**, over the oldest: the ring holds the last of them still. -/
theorem Events.Recorded.append {events : Events} {emitted : List Emission}
    (h : events.Recorded emitted) (m : Emission) :
    (events.append m.kind m.a m.b).Recorded (emitted ++ [m]) := by
  refine ⟨?_, ?_⟩
  · have hslot : (records emitted).length % ringCapacity = (ringSlot events.nextSeq).val := by
      rw [length_records, h.next]
      exact ringSlot_ofNat _
    rw [records_concat]
    rw [← h.next]
    exact h.ring.push hslot _
  · change events.nextSeq + 1#64 = _
    rw [h.next, List.length_append, List.length_singleton, BitVec.ofNat_add]

/-- A record goes into the stream, and whoever waits for one is let go. -/
theorem Kernel.events_emit (k : Kernel) (kind : EventKind) (a : BitVec 16) (b : BitVec 32) :
    (k.emit kind a b).events = { k.events.append kind a b with ringWaiters := fun _ => none } :=
  (foldl_wakeRingWaiter_frame _ _).2.2

theorem Kernel.recorded_emit {k : Kernel} {emitted : List Emission}
    (h : k.events.Recorded emitted) (m : Emission) :
    (k.emit m.kind m.a m.b).events.Recorded (emitted ++ [m]) := by
  rw [events_emit]
  exact ⟨(h.append m).ring, (h.append m).next⟩

/-! ## A read

A read is answered by where the cursor is: behind the window, in it, or at its end. -/

namespace Events.Recorded

variable {events : Events} {emitted : List Emission}

theorem toNat_next (h : events.Recorded emitted) (hlt : emitted.length < 2 ^ 64) :
    events.nextSeq.toNat = emitted.length := by
  rw [h.next, BitVec.toNat_ofNat, Nat.mod_eq_of_lt hlt]

/-- The entry of the ring under a number of its window. -/
theorem entry (h : events.Recorded emitted) {seq : BitVec 64} (hseq : seq.toNat < emitted.length)
    (hle : emitted.length ≤ seq.toNat + ringCapacity) :
    (records emitted)[seq.toNat]? = some (events.ring (ringSlot seq)) ∧
      (events.ring (ringSlot seq)).seq = seq := by
  have hsome : seq.toNat < (records emitted).length := by rwa [length_records]
  have hget := List.getElem?_eq_getElem hsome
  rw [h.ring (ringSlot seq) seq.toNat _ rfl (by rwa [length_records]) hget]
  refine ⟨hget, ?_⟩
  obtain ⟨m, -, hm⟩ := getElem?_records.mp hget
  rw [← hm]
  exact BitVec.eq_of_toNat_eq (by rw [Emission.record, BitVec.toNat_ofNat,
    Nat.mod_eq_of_lt seq.isLt])

/-- **What a read comes to**: nothing where there is nothing new, and otherwise the
record at the cursor, or the oldest one left if that is later. -/
theorem readAt (h : events.Recorded emitted) (hlt : emitted.length < 2 ^ 64)
    (cursor : BitVec 64) :
    events.readAt cursor = .upToDate ∧ emitted.length ≤ cursor.toNat ∨
      ∃ e, (events.readAt cursor = .record e ∧ e.seq = cursor ∨
          events.readAt cursor = .lagged e ∧ cursor < e.seq) ∧
        (records emitted)[e.seq.toNat]? = some e ∧ e.seq.toNat < emitted.length := by
  have hnext := h.toNat_next hlt
  rw [Events.readAt, readPlan]
  by_cases hbehind : events.nextSeq ≤ cursor
  · rw [if_pos hbehind]
    refine .inl ⟨rfl, ?_⟩
    rw [← hnext]
    exact hbehind
  · rw [if_neg hbehind]
    have hcursor : cursor.toNat < emitted.length := by
      rw [← hnext]
      exact Nat.lt_of_not_le hbehind
    have holdest := toNat_saturatingSub events.nextSeq (BitVec.ofNat 64 ringCapacity)
    rw [hnext] at holdest
    change _ = emitted.length - 128 at holdest
    simp only
    generalize saturatingSub events.nextSeq (BitVec.ofNat 64 ringCapacity) = oldest at holdest ⊢
    right
    by_cases hlagged : cursor < oldest
    · -- the oldest record left is a lap behind the next
      rw [if_pos hlagged]
      have hleft : oldest.toNat < emitted.length := by omega
      obtain ⟨hget, hseq⟩ := h.entry hleft (by change _ ≤ _ + 128; omega)
      refine ⟨_, .inr ⟨rfl, ?_⟩, ?_, ?_⟩
      · rwa [hseq]
      · rwa [hseq]
      · rw [hseq]
        omega
    · rw [if_neg hlagged]
      rw [BitVec.lt_def] at hlagged
      obtain ⟨hget, hseq⟩ := h.entry hcursor (by change _ ≤ _ + 128; omega)
      refine ⟨_, .inl ⟨rfl, hseq⟩, ?_, ?_⟩
      · rwa [hseq]
      · rwa [hseq]

end Events.Recorded

/-! ## A reader beside the writer

The reader asks, is answered, and goes on behind what it got. The writer does not wait for it. -/

/-- The kernel, a reader of its audit stream, and what happened so far. -/
structure Watch where
  kernel : Kernel
  /-- every emission since the stream began -/
  emitted : List Emission
  /-- where the reader started -/
  start : BitVec 64
  /-- the number the reader wants next -/
  cursor : BitVec 64
  /-- the records the reader got, in order -/
  reads : List Event

/-- What can happen next: a record is emitted, or the reader reads. -/
inductive WatchStep where
  /-- a record is emitted -/
  | emit (m : Emission)
  /-- the reader reads, and goes on to one past the record it got -/
  | read

namespace Watch

/-- The reader gets a record, and wants the one after it next. -/
def got (s : Watch) (e : Event) : Watch :=
  { s with cursor := wrappingSucc e.seq, reads := s.reads ++ [e] }

/-- One step. A reader that is behind goes on at the oldest record there is. -/
def step (s : Watch) : WatchStep → Watch
  | .emit m =>
    { s with kernel := s.kernel.emit m.kind m.a m.b, emitted := s.emitted ++ [m] }
  | .read =>
    match s.kernel.events.readAt s.cursor with
    | .upToDate => s
    | .record e => s.got e
    | .lagged e => s.got e

/-- The numbers of the records that were read, in order. -/
def seqs (s : Watch) : List ℕ := s.reads.map fun e => e.seq.toNat

/-- The number of records the reader knows it missed: before each record, how far its
number is from the one wanted. -/
def missed (s : Watch) : ℕ := (gaps s.start.toNat s.seqs).sum

/-- What the reader has is in order and genuine, and nothing is unaccounted for. -/
structure Accounted (s : Watch) : Prop where
  /-- the numbers only go up -/
  increasing : s.reads.Pairwise fun e e' => e.seq < e'.seq
  /-- a record is what was emitted under its number -/
  exact : ∀ e ∈ s.reads, ∃ m, s.emitted[e.seq.toNat]? = some m ∧ e = m.record e.seq
  /-- records and gaps are everything emitted from the start to the cursor -/
  between : s.reads.length + s.missed =
    ((s.emitted.take s.cursor.toNat).drop s.start.toNat).length
  /-- a reader told that there is nothing new has accounted for everything -/
  caughtUp : s.kernel.events.readAt s.cursor = .upToDate →
    s.reads.length + s.missed = (s.emitted.drop s.start.toNat).length

end Watch

/-- A reader that starts anywhere up to the next number, of a stream with any past. -/
def streamMachine : Machine Watch WatchStep where
  init s := s.kernel.events.Recorded s.emitted ∧ s.cursor = s.start ∧ s.reads = [] ∧
    s.start ≤ s.kernel.events.nextSeq
  step s i := some (s.step i)

/-! ## Runs

What it got and what it knows it missed are all there is, up to its cursor. -/

/-- What every step keeps of the ring, the cursor and the records read. -/
structure Watch.Inv (s : Watch) : Prop where
  recorded : s.kernel.events.Recorded s.emitted
  reads : s.emitted.length < 2 ^ 64 → Reads s.start.toNat s.seqs s.cursor.toNat
  cursor : s.emitted.length < 2 ^ 64 → s.cursor.toNat ≤ s.emitted.length
  exact : s.emitted.length < 2 ^ 64 →
    ∀ e ∈ s.reads, ∃ m, s.emitted[e.seq.toNat]? = some m ∧ e = m.record e.seq

namespace Watch.Inv

variable {s : Watch}

/-- Getting a record at the cursor or later. -/
theorem got (h : s.Inv) {e : Event} (hcursor : s.cursor ≤ e.seq)
    (he : (records s.emitted)[e.seq.toNat]? = some e) (hlt : e.seq.toNat < s.emitted.length) :
    (s.got e).Inv := by
  have hnext : s.emitted.length < 2 ^ 64 → (wrappingSucc e.seq).toNat = e.seq.toNat + 1 := by
    intro hfew
    rw [wrappingSucc, BitVec.toNat_add]
    exact Nat.mod_eq_of_lt (by change _ + 1 < _; omega)
  refine ⟨h.recorded, fun hfew => ?_, fun hfew => ?_, fun hfew e' he' => ?_⟩
  · have hreads := (h.reads hfew).snoc (show s.cursor.toNat ≤ e.seq.toNat from hcursor)
    rw [← hnext hfew] at hreads
    rwa [seqs, Watch.got, List.map_append]
  · change (wrappingSucc e.seq).toNat ≤ _
    rw [hnext hfew]
    exact hlt
  · rcases List.mem_append.mp he' with hold | hnew
    · exact h.exact hfew e' hold
    · rw [List.mem_singleton.mp hnew]
      obtain ⟨m, hm, hrecord⟩ := getElem?_records.mp he
      refine ⟨m, hm, ?_⟩
      rw [BitVec.ofNat_toNat, BitVec.setWidth_eq] at hrecord
      exact hrecord.symm

theorem emit (h : s.Inv) (m : Emission) : (s.step (.emit m)).Inv := by
  have hlen : (s.emitted ++ [m]).length = s.emitted.length + 1 := by simp
  have hfewer : (s.emitted ++ [m]).length < 2 ^ 64 → s.emitted.length < 2 ^ 64 := by omega
  refine ⟨Kernel.recorded_emit h.recorded m, fun hfew => h.reads (hfewer hfew),
    fun hfew => ?_, fun hfew e he => ?_⟩
  · exact Nat.le_trans (h.cursor (hfewer hfew)) (by change _ ≤ (s.emitted ++ [m]).length; omega)
  · obtain ⟨m', hm', hrecord⟩ := h.exact (hfewer hfew) e he
    have hi : e.seq.toNat < s.emitted.length := (List.getElem?_eq_some_iff.mp hm').1
    exact ⟨m', (List.getElem?_append_left hi).trans hm', hrecord⟩

/-- **What a step keeps**: one case for a record, and one for each answer to a read. -/
theorem step (h : s.Inv) (i : WatchStep) : (s.step i).Inv := by
  cases i with
  | emit m => exact h.emit m
  | read =>
    by_cases hfew : s.emitted.length < 2 ^ 64
    · rcases h.recorded.readAt hfew s.cursor with ⟨hread, -⟩ | ⟨e, hread, he, hlt⟩
      · rwa [Watch.step, hread]
      · rcases hread with ⟨hread, hseq⟩ | ⟨hread, hlater⟩
        · rw [Watch.step, hread]
          exact h.got (hseq ▸ BitVec.le_refl _) he hlt
        · rw [Watch.step, hread]
          exact h.got (BitVec.le_of_lt hlater) he hlt
    · -- past the last number only the stream itself is told about
      have hsame : (s.step .read).kernel = s.kernel ∧ (s.step .read).emitted = s.emitted := by
        rw [Watch.step]
        split <;> exact ⟨rfl, rfl⟩
      rw [← hsame.2] at hfew
      refine ⟨?_, fun h => absurd h hfew, fun h => absurd h hfew, fun h => absurd h hfew⟩
      rw [hsame.1, hsame.2]
      exact h.recorded

/-- What the invariant says of the records, as long as their count has not come round. -/
theorem accounted (h : s.Inv) (hfew : s.emitted.length < 2 ^ 64) : s.Accounted := by
  have hreads := h.reads hfew
  have hcursor := h.cursor hfew
  have hcount : s.reads.length + s.missed = s.cursor.toNat - s.start.toNat := by
    rw [missed, ← hreads.accounts, seqs, List.length_map]
  refine ⟨?_, h.exact hfew, ?_, fun hnew => ?_⟩
  · have hpairs := hreads.increasing
    rw [seqs, List.pairwise_map] at hpairs
    exact hpairs
  · rw [hcount, List.length_drop, List.length_take]
    omega
  · rw [hcount, List.length_drop]
    rcases h.recorded.readAt hfew s.cursor with ⟨-, hle⟩ | ⟨e, hread, -⟩
    · omega
    · rcases hread with ⟨hread, -⟩ | ⟨hread, -⟩ <;>
      · rw [hnew] at hread
        cases hread

end Watch.Inv

theorem watchInv_init (s : Watch) (h : streamMachine.init s) : s.Inv := by
  obtain ⟨hrecorded, hcursor, hreads, hstart⟩ := h
  refine ⟨hrecorded, fun _ => ?_, fun hfew => ?_, fun _ e he => ?_⟩
  · rw [Watch.seqs, hreads, hcursor]
    exact .nil
  · rw [hcursor, ← hrecorded.toNat_next hfew]
    exact hstart
  · rw [hreads] at he
    cases he

/-- **Nothing is unaccounted for**, as long as the numbers last: every record was read, is still
to be read, or is known to be missed. -/
theorem stream_accounts :
    streamMachine.Always fun s => s.emitted.length < 2 ^ 64 → s.Accounted := by
  refine Machine.Always.mono (P := Watch.Inv) ?_ fun s h => h.accounted
  refine Machine.always_of_step watchInv_init fun s i t h ht => ?_
  obtain rfl := Option.some.inj ht
  exact h.step i

/-! ## The last number

The numbers have 64 bits, and a reader that sleeps through all of them sees none of it. -/

/-- A reader that starts with the stream, and has read nothing yet. -/
def sleeper : Watch := ⟨Kernel.booted .qemu, [], 0#64, 0#64, []⟩

/-- A reader that sleeps through `n` records, however many they are. -/
theorem slept (m : Emission) (n : ℕ) : ∃ t,
    streamMachine.Run sleeper (List.replicate n (.emit m)) t ∧
      t.kernel.events.Recorded t.emitted ∧ t.emitted.length = n ∧ t.cursor = 0#64 ∧
      t.start = 0#64 ∧ t.reads = [] := by
  induction n with
  | zero => exact ⟨sleeper, .nil _, Events.recorded_new, rfl, rfl, rfl, rfl⟩
  | succ n ih =>
    obtain ⟨t, hrun, hrecorded, hlen, hcursor, hstart, hreads⟩ := ih
    refine ⟨t.step (.emit m), ?_, Kernel.recorded_emit hrecorded m, ?_, hcursor, hstart, hreads⟩
    · rw [List.replicate_succ']
      exact hrun.snoc rfl
    · rw [← hlen]
      exact List.length_append

/-- **The numbers do not last**: a reader that slept through `2 ^ 64` records is told
that there is nothing new. -/
theorem wrapped_stream_loses : ¬ streamMachine.Always Watch.Accounted := by
  intro h
  obtain ⟨t, hrun, hrecorded, hlen, hcursor, hstart, hreads⟩ :=
    slept ⟨.moduleStaged, 0#16, 0#32⟩ (2 ^ 64)
  have hacc := h t ⟨sleeper, _, ⟨Events.recorded_new, rfl, rfl, BitVec.le_refl _⟩, hrun⟩
  have hnext : t.kernel.events.nextSeq = 0#64 := by
    rw [hrecorded.next, hlen]
    rfl
  have hread : t.kernel.events.readAt t.cursor = .upToDate := by
    rw [Events.readAt, hnext, hcursor]
    rfl
  have hall := hacc.caughtUp hread
  rw [Watch.missed, Watch.seqs, hreads, hstart, List.length_drop, hlen] at hall
  cases hall

end Wari
