import Wari.Lib.Padded
import Wari.Lib.PrefixFree
import Wari.Lib.Writer
import Wari.Stream

/-!
# The guard agent

A tenant that prints the audit stream: it reads a record, prints a line for it, and goes on
with the one after. Where it fell behind it prints first how many it missed. Its lines fit
their buffers whatever the records say, and from all it has printed the records can be read
off again (`report_injective`).
-/

namespace Wari

open Lib (Bytes Writer Stop ascii ofLe zeros PrefixFree history)
open Lib.Decimal (numeral)

/-- `from_raw`: the kind of a number. A number that no kind has is `None`, and the guard prints
such a record as unknown. -/
def EventKind.fromRaw : BitVec 16 → Option EventKind
  | 1#16 => some .moduleStaged
  | 2#16 => some .spawnVerified
  | 3#16 => some .spawnRejected
  | 4#16 => some .tenantExited
  | 5#16 => some .tenantFaulted
  | 6#16 => some .grantAttenuated
  | 7#16 => some .daemonRestarted
  | 8#16 => some .daemonGaveUp
  | _ => none

theorem EventKind.fromRaw_raw (kind : EventKind) : fromRaw kind.raw = some kind := by
  cases kind <;> rfl

/-- Where the agent stands: the number of the record it wants next, the lines it has still to
print before it reads, and whether it leaves after them. -/
structure GuardAgent where
  /-- the number it wants next -/
  cursor : BitVec 64
  /-- what it prints before it reads again -/
  todo : List Bytes
  /-- it is out of the loop, and exits when all is printed -/
  leaves : Bool

namespace Agent

/-! ## Lines

The guard formats into fixed buffers and would panic if a line did not fit, so a line is `none`
where a piece of it has no room. That it never is comes further down. -/

/-- A record from its 16 bytes, each field little-endian at its own offset. -/
def decode (buf : Bytes) : Event where
  seq := BitVec.ofNat 64 (ofLe (buf.take 8))
  kind := BitVec.ofNat 16 (ofLe ((buf.drop 8).take 2))
  a := BitVec.ofNat 16 (ofLe ((buf.drop 10).take 2))
  b := BitVec.ofNat 32 (ofLe ((buf.drop 12).take 4))

/-- How a kind is called on the console. Those that whoever watches should notice are in capitals.
-/
def kindName (kind : BitVec 16) : Bytes :=
  ascii <| String.toList <|
    match EventKind.fromRaw kind with
    | some .moduleStaged => "module-staged"
    | some .spawnVerified => "spawn-verified"
    | some .spawnRejected => "SPAWN-REJECTED"
    | some .tenantExited => "tenant-exited"
    | some .tenantFaulted => "TENANT-FAULTED"
    | some .grantAttenuated => "GRANT-ATTENUATED"
    | some .daemonRestarted => "daemon-restarted"
    | some .daemonGaveUp => "DAEMON-GAVE-UP"
    | none => "unknown-kind"

/-- Write a number. Its digits are put into a buffer of 20 bytes, from the end, and what is used
of the buffer is written. -/
def formatU64 (v : ℕ) (w : Writer) : Except Stop Writer :=
  match Lib.Decimal.fill 20 v [] with
  | some (_, digits) => w.put digits
  | none => .error .panics

/-- What was written, unless a piece did not fit, which is a panic. -/
def written : Except Stop Writer → Option Bytes
  | .ok w => some (w.out.take w.len)
  | .error _ => none

/-- The line for a record, formatted into a buffer of 96 bytes; `none` where the buffer is too
small, which it never is. -/
def recordLine (e : Event) : Option Bytes :=
  written do
    let w ← (Writer.new (zeros 96)).put (ascii "[guard] #".toList)
    let w ← formatU64 e.seq.toNat w
    let w ← w.put (ascii " ".toList)
    let w ← w.put (kindName e.kind)
    let w ← w.put (ascii " a=".toList)
    let w ← formatU64 e.a.toNat w
    let w ← w.put (ascii " b=".toList)
    let w ← formatU64 e.b.toNat w
    w.put (ascii "\r\n".toList)

/-- What the line for missed records is written over. The digits go over the dots, the rest of the
line follows them. -/
def lostTemplate : Bytes := ascii "[guard] LOST ..................... records\r\n".toList

/-- The line for records that the ring dropped before the agent came to read them, with how many
they were. -/
def lostLine (gap : BitVec 64) : Option Bytes :=
  written do
    let w ← formatU64 gap.toNat ⟨lostTemplate, 13⟩
    w.put (ascii " records\r\n".toList)

/-! ## The loop

The loop is told by what is left to print before the next read, since printing can be interrupted
by a switch to nobody but the kernel. -/

/-- The line that the agent prints before it reads anything. -/
def banner : Bytes := ascii "[guard] watching the audit stream\r\n".toList

/-- The line that the agent prints before it exits, when a read is answered by an error. -/
def readErr : Bytes := ascii "[guard] read err, exiting\r\n".toList

/-- The agent as it is entered: it wants record 0, and has its banner to print. -/
def start : GuardAgent := ⟨0#64, [banner], false⟩

/-- A read has returned: a record to print, maybe after a gap; nothing, and the agent asks again;
or an error, and it says so and leaves. `none` is a panic. -/
def answered (s : GuardAgent) (rc : ℤ) (buf : Bytes) : Option GuardAgent :=
  if rc = 0 ∨ rc = 2 then do
    let e := decode buf
    let lost ← if rc = 2 then (lostLine (saturatingSub e.seq s.cursor)).map ([·]) else some []
    let line ← recordLine e
    return ⟨wrappingSucc e.seq, lost ++ [line], false⟩
  else if rc = 1 then some s
  else some { s with todo := [readErr], leaves := true }

/-! ## Decoding

The agent has a decoder of its own, in another crate than the encoder. That the two fit is proved
and not assumed. -/

theorem ofNat_ofLe_toLe {w n : ℕ} (v : BitVec w) (h : 2 ^ w = 256 ^ n) :
    BitVec.ofNat w (ofLe (Lib.toLe n v.toNat)) = v := by
  rw [Lib.ofLe_toLe, ← h, Nat.mod_eq_of_lt v.isLt, BitVec.ofNat_toNat, BitVec.setWidth_eq]

/-- **The agent reads what the kernel wrote.** The agent's own decoder is a left inverse of the
encoder of the kernel, for every record. -/
theorem decode_encodeEvent (e : Event) : decode (encodeEvent e) = e := by
  obtain ⟨seq, kind, a, b⟩ := e
  have hlen : ∀ n v, (Lib.toLe n v).length = n := Lib.length_toLe
  have hseq : (encodeEvent ⟨seq, kind, a, b⟩).take 8 = Lib.toLe 8 seq.toNat :=
    List.take_left' (hlen 8 _)
  have h8 : (encodeEvent ⟨seq, kind, a, b⟩).drop 8 =
      Lib.toLe 2 kind.toNat ++ (Lib.toLe 2 a.toNat ++ Lib.toLe 4 b.toNat) :=
    List.drop_left' (hlen 8 _)
  have h10 : (encodeEvent ⟨seq, kind, a, b⟩).drop (8 + 2) =
      Lib.toLe 2 a.toNat ++ Lib.toLe 4 b.toNat := by
    rw [← List.drop_drop, h8, List.drop_left' (hlen 2 _)]
  have h12 : (encodeEvent ⟨seq, kind, a, b⟩).drop (8 + 2 + 2) = Lib.toLe 4 b.toNat := by
    rw [← List.drop_drop, h10, List.drop_left' (hlen 2 _)]
  rw [decode, hseq, h8, h10, h12, List.take_left' (hlen 2 _), List.take_left' (hlen 2 _),
    List.take_of_length_le (hlen 4 _).le, Event.mk.injEq]
  exact ⟨ofNat_ofLe_toLe seq (by decide), ofNat_ofLe_toLe kind (by decide),
    ofNat_ofLe_toLe a (by decide), ofNat_ofLe_toLe b (by decide)⟩

/-! ## What the lines say

The same lines as plain concatenations, without buffers. From here on only these are used. -/

/-- What is printed for a record, as a concatenation. It is the abstract counterpart of
`recordLine`, which goes through a buffer. -/
def recordText (e : Event) : Bytes :=
  ascii "[guard] #".toList ++ (numeral e.seq.toNat ++ (ascii " ".toList ++ (kindName e.kind ++
    (ascii " a=".toList ++ (numeral e.a.toNat ++ (ascii " b=".toList ++ (numeral e.b.toNat ++
      ascii "\r\n".toList)))))))

/-- What is printed for so many missed records. -/
def lostText (gap : ℕ) : Bytes :=
  ascii "[guard] LOST ".toList ++ (numeral gap ++ ascii " records\r\n".toList)

/-- A number is written as its decimal numeral, provided the twenty digits of the scratch buffer
are enough. -/
theorem formatU64_writes {v : ℕ} (hv : v < 10 ^ 20) : Writer.Writes (formatU64 v) (numeral v) := by
  have hput : formatU64 v = fun w => w.put (numeral v) := by
    funext w
    rw [formatU64, Lib.Decimal.fill_eq [] (by decide) hv, List.append_nil]
  rw [hput]
  exact Writer.writes_put _

theorem length_kindName (kind : BitVec 16) : (kindName kind).length ≤ 16 := by
  rw [kindName]
  rcases EventKind.fromRaw kind with _ | _ | _ | _ | _ | _ | _ | _ | _ <;> decide

theorem length_recordText (e : Event) : (recordText e).length ≤ 96 := by
  have hseq : (numeral e.seq.toNat).length ≤ 20 :=
    Lib.Decimal.length_numeral_le (by decide) (Nat.lt_trans e.seq.isLt (by decide))
  have ha : (numeral e.a.toNat).length ≤ 5 :=
    Lib.Decimal.length_numeral_le (by decide) (Nat.lt_trans e.a.isLt (by decide))
  have hb : (numeral e.b.toNat).length ≤ 10 :=
    Lib.Decimal.length_numeral_le (by decide) (Nat.lt_trans e.b.isLt (by decide))
  have hkind := length_kindName e.kind
  simp only [recordText, List.length_append]
  have htexts : (ascii "[guard] #".toList).length = 9 ∧ (ascii " ".toList).length = 1 ∧
      (ascii " a=".toList).length = 3 ∧ (ascii " b=".toList).length = 3 ∧
      (ascii "\r\n".toList).length = 2 := by decide
  omega

theorem length_lostText {gap : ℕ} (hgap : gap < 2 ^ 64) : (lostText gap).length ≤ 43 := by
  have hnum : (numeral gap).length ≤ 20 :=
    Lib.Decimal.length_numeral_le (by decide) (Nat.lt_trans hgap (by decide))
  have htexts : (ascii "[guard] LOST ".toList).length = 13 ∧
      (ascii " records\r\n".toList).length = 10 := by decide
  simp only [lostText, List.length_append]
  omega

/-- Where what is written fits, it is what was written. -/
theorem written_of_writes {p : Writer → Except Stop Writer} {text out done : Bytes} {w : Writer}
    (h : Writer.Writes p text) (hw : Writer.Holds out done w)
    (hfits : (done ++ text).length ≤ out.length) : written (p w) = some (done ++ text) := by
  rcases h out done w hw with ⟨-, w', hw', hholds⟩ | ⟨hlt, -⟩
  · rw [hw', written, hholds.len, hholds.out, List.take_left]
  · omega

/-- **The line of a record fits its buffer**, whatever its fields are: the longest kind name and
the longest numerals together stay below its 96 bytes. -/
theorem recordLine_eq (e : Event) : recordLine e = some (recordText e) := by
  have hseq := formatU64_writes (Nat.lt_trans e.seq.isLt (show 2 ^ 64 < 10 ^ 20 by decide))
  have ha := formatU64_writes (Nat.lt_trans e.a.isLt (show 2 ^ 16 < 10 ^ 20 by decide))
  have hb := formatU64_writes (Nat.lt_trans e.b.isLt (show 2 ^ 32 < 10 ^ 20 by decide))
  have hall : Writer.Writes _ (recordText e) :=
    (Writer.writes_put (ascii "[guard] #".toList)).comp (hseq.comp
      ((Writer.writes_put (ascii " ".toList)).comp ((Writer.writes_put (kindName e.kind)).comp
        ((Writer.writes_put (ascii " a=".toList)).comp (ha.comp
          ((Writer.writes_put (ascii " b=".toList)).comp (hb.comp
            (Writer.writes_put (ascii "\r\n".toList)))))))))
  exact written_of_writes hall (Writer.holds_new (zeros 96))
    (by rw [List.nil_append, Lib.length_zeros]; exact length_recordText e)

/-- **The line for missed records** fits the line it is written over: twenty digits are the most
that a number of 64 bits has. -/
theorem lostLine_eq (gap : BitVec 64) : lostLine gap = some (lostText gap.toNat) := by
  have hgap := formatU64_writes (Nat.lt_trans gap.isLt (show 2 ^ 64 < 10 ^ 20 by decide))
  have hall : Writer.Writes _ (numeral gap.toNat ++ ascii " records\r\n".toList) :=
    hgap.comp (Writer.writes_put _)
  have htemplate : Writer.Holds lostTemplate (ascii "[guard] LOST ".toList) ⟨lostTemplate, 13⟩ :=
    ⟨by decide, by decide, by decide⟩
  have hlen : lostTemplate.length = 44 := by decide
  refine written_of_writes hall htemplate ?_
  rw [hlen]
  exact Nat.le_trans (length_lostText gap.isLt) (by decide)

/-! ## The report

What is printed for a list of records, each with the gap before it, in the order in which they
were read. -/

/-- What is printed for a record where the number `cursor` was wanted. -/
def recordLines (cursor : BitVec 64) (e : Event) : List Bytes :=
  (if cursor < e.seq then [lostText (e.seq.toNat - cursor.toNat)] else []) ++ [recordText e]

/-- The number wanted after these records: one more than that of the last. It wraps as the agent's
counter does. -/
def cursorAfter (cursor : BitVec 64) (es : List Event) : BitVec 64 :=
  es.foldl (fun _ e => wrappingSucc e.seq) cursor

/-- The lines for these records, read from `cursor` on. -/
def report (cursor : BitVec 64) (es : List Event) : List Bytes :=
  history recordLines (fun _ e => wrappingSucc e.seq) cursor es

theorem cursorAfter_concat (cursor : BitVec 64) (es : List Event) (e : Event) :
    cursorAfter cursor (es ++ [e]) = wrappingSucc e.seq := by
  simp [cursorAfter]

/-- **One more record** is reported behind the others. This is how the report grows as the guard
reads on. -/
theorem report_concat (cursor : BitVec 64) (es : List Event) (e : Event) :
    report cursor (es ++ [e]) = report cursor es ++ recordLines (cursorAfter cursor es) e := by
  rw [report, Lib.history_append]
  simp [report, cursorAfter, Lib.history]

/-- A read that brings a record does not end the loop, and has a line or two printed. -/
theorem answered_got {s : GuardAgent} {rc : ℤ} (hrc : rc = 0 ∨ rc = 2) (e : Event) :
    ∃ todo, todo.length ≤ 2 ∧ (∀ line ∈ todo, line.length ≤ 96) ∧
      answered s rc (encodeEvent e) = some ⟨wrappingSucc e.seq, todo, false⟩ := by
  have hrecord := length_recordText e
  have hlost := length_lostText (saturatingSub e.seq s.cursor).isLt
  rw [answered, if_pos hrc, decode_encodeEvent]
  by_cases hgap : rc = 2
  · simp [hgap, lostLine_eq, recordLine_eq, hrecord]
    omega
  · simp [hgap, recordLine_eq, hrecord]

/-- **A record that was read** is printed, after a word on those missed before it. -/
theorem answered_record {s : GuardAgent} {rc : ℤ} {e : Event}
    (h : rc = 0 ∧ e.seq = s.cursor ∨ rc = 2 ∧ s.cursor < e.seq) :
    answered s rc (encodeEvent e) =
      some ⟨wrappingSucc e.seq, recordLines s.cursor e, false⟩ := by
  rcases h with ⟨rfl, hseq⟩ | ⟨rfl, hlater⟩
  · have hnot : ¬ s.cursor < e.seq := by
      rw [hseq]
      exact BitVec.lt_irrefl _
    simp [answered, decode_encodeEvent, recordLine_eq, recordLines, hnot]
  · simp [answered, decode_encodeEvent, recordLine_eq, lostLine_eq, recordLines, hlater,
      toNat_saturatingSub]

/-- Woken from a wait, the agent asks again. -/
@[simp] theorem answered_one (s : GuardAgent) (buf : Bytes) : answered s 1 buf = some s := by
  simp [answered]

/-- An error ends the loop: what is left to do is to print the last line, and to exit. -/
theorem answered_error {s : GuardAgent} {rc : ℤ} (h : rc < 0) (buf : Bytes) :
    answered s rc buf = some { s with todo := [readErr], leaves := true } := by
  rw [answered, if_neg (by omega), if_neg (by omega)]

/-! ## Reading the report

A line says its fields in decimal, separated by blanks and ended by a line break, so a reader can
tell where each ends. That carries over to the whole report, by induction on the list of records.
-/

theorem kindName_injective : Function.Injective fun kind : EventKind => kindName kind.raw := by
  intro kind kind' h
  cases kind <;> cases kind' <;> first | rfl | exact absurd h (by decide)

/-- No name has a blank in it, so that the blank after it ends it for whoever reads the line. -/
theorem blank_not_mem_kindName (kind : EventKind) : 0x20#8 ∉ kindName kind.raw := by
  cases kind <;> decide

/-- **A record can be read off its line.** The number, the kind's name and the two arguments each
end at a blank or at the line break, and none of them contains one. -/
theorem prefixFree_recordText :
    PrefixFree fun p : BitVec 64 × Emission => recordText (p.2.record p.1) := by
  have hblank : PrefixFree fun n => numeral n ++ [0x20#8] := Lib.prefixFree_numeral (by decide)
  have hreturn : PrefixFree fun n => numeral n ++ [0x0d#8] := Lib.prefixFree_numeral (by decide)
  have hkind : PrefixFree fun kind : EventKind => kindName kind.raw ++ [0x20#8] :=
    Lib.prefixFree_separated kindName_injective blank_not_mem_kindName
  have hargs := (hblank.after (ascii "a=".toList)).pair (hreturn.after (ascii "b=".toList))
  have hline := ((hblank.pair (hkind.pair hargs)).after (ascii "[guard] #".toList)).before
    (ascii "\n".toList)
  have hfields : Function.Injective fun p : BitVec 64 × Emission =>
      (p.1.toNat, p.2.kind, p.2.a.toNat, p.2.b.toNat) := by
    rintro ⟨seq, kind, a, b⟩ ⟨seq', kind', a', b'⟩ h
    simp only [Prod.mk.injEq] at h
    obtain ⟨hseq, rfl, ha, hb⟩ := h
    rw [BitVec.eq_of_toNat_eq hseq, BitVec.eq_of_toNat_eq ha, BitVec.eq_of_toNat_eq hb]
  intro p p' r r' heq
  refine hline.comp hfields ?_
  simpa [recordText, Emission.record, ascii] using heq

/-- A gap can be read off its line. -/
theorem prefixFree_lostText : PrefixFree lostText := by
  have hblank : PrefixFree fun n => numeral n ++ [0x20#8] := Lib.prefixFree_numeral (by decide)
  have hline := (hblank.after (ascii "[guard] LOST ".toList)).before
    (ascii "records\r\n".toList)
  intro gap gap' r r' heq
  refine hline ?_
  simpa [lostText, ascii] using heq

/-- The two kinds of lines are told apart, so a gap is never mistaken for a record. -/
theorem lostText_ne_recordText {gap : ℕ} {e : Event} {r r' : Bytes} :
    lostText gap ++ r ≠ recordText e ++ r' := by
  intro h
  have hlost : (lostText gap ++ r)[8]? = some 0x4c#8 := rfl
  have hrecord : (recordText e ++ r')[8]? = some 0x23#8 := rfl
  rw [h, hrecord] at hlost
  cases hlost

/-- **What is printed for a record** tells it: the lines are of a form in which each part ends
with something that is not in it. -/
theorem prefixFree_recordLines (cursor : BitVec 64) : PrefixFree fun p : BitVec 64 × Emission =>
    (recordLines cursor (p.2.record p.1)).flatten := by
  have hpair := (prefixFree_lostText.pair prefixFree_recordText).comp
    (g := fun p : BitVec 64 × Emission => (p.1.toNat - cursor.toNat, p))
    fun p p' h => (Prod.mk.inj h).2
  intro p p' r r' heq
  have hlines : ∀ p : BitVec 64 × Emission, (recordLines cursor (p.2.record p.1)).flatten =
      if cursor < p.1 then lostText (p.1.toNat - cursor.toNat) ++ recordText (p.2.record p.1)
      else recordText (p.2.record p.1) := by
    intro p
    change (List.flatten ((if cursor < p.1 then _ else _) ++ _)) = _
    split <;> simp [Emission.record]
  simp only [hlines] at heq
  split at heq <;> split at heq
  · exact hpair heq
  · rw [List.append_assoc] at heq
    exact (lostText_ne_recordText heq).elim
  · rw [List.append_assoc] at heq
    exact (lostText_ne_recordText heq.symm).elim
  · exact prefixFree_recordText heq

/-- **The records can be read off the report**: no two histories of the audit stream, lost
records or not, print the same text. -/
theorem report_injective (cursor : BitVec 64) :
    Function.Injective fun ps : List (BitVec 64 × Emission) =>
      (report cursor (ps.map fun p => p.2.record p.1)).flatten := by
  have hflat : ∀ (ps : List (BitVec 64 × Emission)) (c : BitVec 64),
      (report c (ps.map fun p => p.2.record p.1)).flatten =
        history (fun c p => (recordLines c (p.2.record p.1)).flatten)
          (fun _ p => wrappingSucc p.1) c ps := by
    intro ps
    induction ps with
    | nil => intro c; rfl
    | cons p ps ih =>
      intro c
      have hrest := ih (wrappingSucc p.1)
      rw [history, ← hrest, ← List.flatten_append]
      rfl
  have hne : ∀ (c : BitVec 64) (p : BitVec 64 × Emission),
      (recordLines c (p.2.record p.1)).flatten ≠ [] := by
    intro c p h
    have hmem : recordText (p.2.record p.1) ∈ recordLines c (p.2.record p.1) :=
      List.mem_append_right _ List.mem_cons_self
    cases List.flatten_eq_nil_iff.mp h _ hmem
  intro ps ps' h
  simp only [hflat] at h
  exact PrefixFree.history_injective _ prefixFree_recordLines hne cursor h

end Agent

end Wari
