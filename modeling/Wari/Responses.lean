import Wari.Json
import Wari.Requests
import Wari.Lib.Decimal
import Wari.Lib.Writer

/-!
# Responses

A response echoes the id of its request and carries a result that is JSON already. What was
written is read back by the same lookup and the same rule for ids as a request.
-/

namespace Wari

open Lib (Bytes Slice ascii Writer Stop)

/-! ## The writer

A response is head, id, middle, result and tail, each put into the buffer as a piece. -/

/-- The digits of `m` in a buffer that is filled from its end: `i` bytes are left in front of
what is there. -/
def putDigits : ℕ → ℕ → Bytes → Option (ℕ × Bytes)
  -- an index below zero
  | 0, _, _ => none
  | i + 1, m, buf =>
    let buf := (0x30#8 + BitVec.ofNat 8 (m % 10)) :: buf
    if m / 10 = 0 then some (i, buf) else putDigits i (m / 10) buf

/-- The part of its buffer of 20 bytes that `put_i64` writes. -/
def i64Text (v : ℤ) : Option Bytes :=
  match putDigits 20 v.natAbs [] with
  | none => none
  | some (i, buf) =>
    if v < 0 then
      match i with
      | 0 => none
      | _ + 1 => some (0x2D#8 :: buf)
    else some buf

/-- Write a number. The digits are written from the last to the first into a buffer of its own. -/
def putI64 (v : ℤ) (w : Writer) : Except Stop Writer :=
  match i64Text v with
  | none => .error .panics
  | some buf => w.put buf

/-- Write an id: a number, a string between quotes, or `null`, which is also what an absent one is
echoed as. -/
def putId (id : Id) (w : Writer) : Except Stop Writer :=
  match id with
  | .int v => putI64 v w
  | .str s => do
    let w ← w.put [quote]
    let w ← w.put s
    w.put [quote]
  | .null => w.put (ascii ['n', 'u', 'l', 'l'])
  | .absent => w.put (ascii ['n', 'u', 'l', 'l'])

/-- The text before the id, with the version in it. -/
def responseHead : Bytes :=
  [openBrace, quote] ++ (ascii ['j', 's', 'o', 'n', 'r', 'p', 'c'] ++ ([quote, colon, quote] ++
    (ascii ['2', '.', '0'] ++ ([quote, comma, quote] ++ (ascii ['i', 'd'] ++ [quote, colon])))))

/-- The text between the id and the result. -/
def responseMiddle : Bytes :=
  [comma, quote] ++ (ascii ['r', 'e', 's', 'u', 'l', 't'] ++ [quote, colon])

/-- The steps of `respond_result`, each of which may run out of room. -/
def writeResult (id : Id) (resultJson : Bytes) (w : Writer) : Except Stop Writer := do
  let w ← w.put responseHead
  let w ← putId id w
  let w ← w.put responseMiddle
  let w ← w.put resultJson
  w.put [closeBrace]

/-- **Serialize a success response**: the length, and the buffer. `none` is a panic. -/
def respondResult (out : Bytes) (id : Id) (resultJson : Bytes) : Option (Option ℕ × Bytes) :=
  match writeResult id resultJson (.new out) with
  | .ok w => some (some w.len, w.out)
  | .error (.full w) => some (none, w.out)
  | .error .panics => none

/-! ## Numbers

Digits are put into a small buffer from its end. The absolute value of the smallest number does
not fit, and wraps. -/

/-- What digits are read as: they stand for it, after what was read before. -/
theorem parseDigits_ok {n v : ℤ} {ds : Bytes} (h : parseDigits n ds = .ok v) :
    (∀ c ∈ ds, IsDigit c) ∧ v = n * 10 ^ ds.length + Lib.Decimal.value ds := by
  induction ds generalizing n with
  | nil =>
    obtain rfl := Except.ok.inj h
    simp
  | cons c ds ih =>
    rw [parseDigits] at h
    split at h
    · rename_i hdigit
      dsimp only at h
      split at h
      · obtain ⟨hall, rfl⟩ := ih h
        refine ⟨List.forall_mem_cons.mpr ⟨hdigit, hall⟩, ?_⟩
        rw [Lib.Decimal.value_cons, List.length_cons]
        push_cast
        ring
      · cases h
    · cases h

/-- **Digits that come to what fits** are read, to the number that they stand for. -/
theorem parseDigits_eq {n : ℕ} {ds : Bytes} (hall : ∀ c ∈ ds, IsDigit c)
    (hfits : n * 10 ^ ds.length + Lib.Decimal.value ds ≤ 2 ^ 63 - 1) :
    parseDigits n ds = .ok ((n * 10 ^ ds.length + Lib.Decimal.value ds : ℕ) : ℤ) := by
  induction ds generalizing n with
  | nil => simp [parseDigits]
  | cons c ds ih =>
    obtain ⟨hdigit, hall⟩ := List.forall_mem_cons.mp hall
    have hsum : n * 10 ^ (c :: ds).length + Lib.Decimal.value (c :: ds) =
        (n * 10 + (c - 0x30#8).toNat) * 10 ^ ds.length + Lib.Decimal.value ds := by
      rw [Lib.Decimal.value_cons, List.length_cons]
      ring
    rw [hsum] at hfits ⊢
    -- what is read so far is no more than what all of it comes to
    have hsofar : n * 10 + (c - 0x30#8).toNat ≤ 2 ^ 63 - 1 :=
      calc n * 10 + (c - 0x30#8).toNat
        _ ≤ (n * 10 + (c - 0x30#8).toNat) * 10 ^ ds.length :=
          Nat.le_mul_of_pos_right _ (Nat.pow_pos (by decide))
        _ ≤ _ := Nat.le_add_right _ _
        _ ≤ 2 ^ 63 - 1 := hfits
    have hstep : (n : ℤ) * 10 + (c - 0x30#8).toNat = ((n * 10 + (c - 0x30#8).toNat : ℕ) : ℤ) := by
      push_cast
      rfl
    have hmax : ((n * 10 + (c - 0x30#8).toNat : ℕ) : ℤ) ≤ 2 ^ 63 - 1 := by omega
    have hrange : 0x30#8 ≤ c ∧ c ≤ 0x39#8 := hdigit
    rw [parseDigits, if_pos hrange]
    dsimp only
    rw [hstep, if_pos hmax]
    exact ih hall hfits

/-- **The digits of a number**, in front of what is in the buffer. -/
structure DigitsOf (m : ℕ) (ds : Bytes) : Prop where
  ne_nil : ds ≠ []
  digits : ∀ c ∈ ds, IsDigit c
  few : ∀ k, 0 < k → m < 10 ^ k → ds.length ≤ k
  parse : (m : ℤ) ≤ 2 ^ 63 - 1 → parseDigits 0 ds = .ok m

theorem digitsOf_numeral (m : ℕ) : DigitsOf m (Lib.Decimal.numeral m) where
  ne_nil := Lib.Decimal.numeral_ne_nil m
  digits := Lib.Decimal.isDigit_numeral m
  few := fun _ => Lib.Decimal.length_numeral_le
  parse := fun hmax => by
    have hparse := parseDigits_eq (n := 0) (Lib.Decimal.isDigit_numeral m)
    rw [Lib.Decimal.value_numeral, Nat.zero_mul, Nat.zero_add] at hparse
    exact hparse (by omega)

/-- Filling the buffer from behind is the loop of the source. -/
theorem putDigits_eq_fill (i m : ℕ) (buf : Bytes) :
    putDigits i m buf = Lib.Decimal.fill i m buf := by
  induction i generalizing m buf with
  | zero => rfl
  | succ i ih =>
    rw [putDigits, Lib.Decimal.fill, ih]
    rfl

/-- **What `put_i64` writes**: the sign, and the digits of the absolute value. -/
theorem i64Text_numeral {v : ℤ} (hv : v.natAbs < 10 ^ 19) :
    i64Text v = some (if v < 0 then 0x2D#8 :: Lib.Decimal.numeral v.natAbs
      else Lib.Decimal.numeral v.natAbs) := by
  have hlen : (Lib.Decimal.numeral v.natAbs).length ≤ 19 :=
    Lib.Decimal.length_numeral_le (by decide) hv
  have hroom : 20 - (Lib.Decimal.numeral v.natAbs).length =
      (19 - (Lib.Decimal.numeral v.natAbs).length) + 1 := by omega
  rw [i64Text, putDigits_eq_fill, Lib.Decimal.fill_eq [] (by decide) (by omega), hroom,
    List.append_nil]
  dsimp only
  by_cases hneg : v < 0
  · rw [if_pos hneg, if_pos hneg]
  · rw [if_neg hneg, if_neg hneg]

/-- A number as it is written: a token, no name and no string, that is read as the number. -/
structure I64Text.Reads (v : ℤ) (text : Bytes) : Prop where
  parse : parseI64 text = .ok v
  token : ∀ levels, Token (levels + 1) text
  notName : text ≠ ascii ['n', 'u', 'l', 'l']
  notString : text.head? ≠ some quote

/-- What `put_i64` writes is read back, but for the smallest number. -/
theorem i64Text_eq {v : ℤ} (hmax : v.natAbs ≤ 2 ^ 63 - 1) :
    ∃ text, i64Text v = some text ∧ I64Text.Reads v text := by
  have heq := i64Text_numeral (v := v) (by omega)
  have hds := digitsOf_numeral v.natAbs
  generalize Lib.Decimal.numeral v.natAbs = ds at heq hds
  have hlen : ds.length ≤ 19 := hds.few 19 (by decide) (by omega)
  have hparse := hds.parse (by omega)
  obtain ⟨c, ds', hcons⟩ := List.exists_cons_of_ne_nil hds.ne_nil
  have hdigit : IsDigit c := hds.digits c (by simp [hcons])
  have hsign : c ≠ 0x2D#8 := by
    rintro rfl
    revert hdigit
    unfold IsDigit
    decide
  have hplain : ∀ d ∈ ds, isDelimiter d = false ∧ d ≠ quote ∧ d ≠ openBrace ∧ d ≠ openBracket :=
    fun d hd => (hds.digits d hd).plain
  have hfew : ¬ (ds = [] ∨ 19 < ds.length) := by
    rintro (hnil | hlong)
    · exact hds.ne_nil hnil
    · omega
  rw [heq]
  by_cases hneg : v < 0
  · rw [if_pos hneg]
    refine ⟨0x2D#8 :: ds, rfl, ?_, fun levels => literal_token (List.cons_ne_nil _ _) ?_ ?_ levels,
      ?_, ?_⟩
    · have hfirst : (0x2D#8 :: ds).head? = some 0x2D#8 := rfl
      rw [parseI64, hfirst]
      simp only [decide_true, if_true, List.drop_one, List.tail_cons, if_neg hfew, hparse,
        Except.map]
      congr 1
      omega
    · intro d hd
      rcases List.mem_cons.mp hd with rfl | hd
      · decide
      · exact (hplain d hd).1
    · intro d hd
      obtain rfl : 0x2D#8 = d := Option.some.inj hd
      decide
    · intro hname
      exact absurd (List.cons.inj hname).1 (by decide)
    · intro hhead
      exact absurd (Option.some.inj hhead) (by decide)
  · rw [if_neg hneg]
    refine ⟨ds, rfl, ?_, fun levels => literal_token hds.ne_nil (fun d hd => (hplain d hd).1)
      (fun d hd => (hplain d (List.mem_of_mem_head? hd)).2) levels, ?_, ?_⟩
    · have hfirst : ¬ ds.head? = some 0x2D#8 := by
        rw [hcons]
        exact fun h => hsign (Option.some.inj h)
      rw [parseI64]
      simp only [hfirst, decide_false, Bool.false_eq_true, if_false, if_neg hfew, hparse,
        Except.map]
      congr 1
      omega
    · rw [hcons]
      intro hname
      rw [(List.cons.inj hname).1] at hdigit
      revert hdigit
      unfold IsDigit
      decide
    · rw [hcons]
      intro hhead
      exact (hplain c (by simp [hcons])).2.1 (Option.some.inj hhead)

/-- What digits are read as fits a signed word of 64 bits. -/
theorem parseDigits_bounds {n v : ℤ} {bs : Bytes} (h : parseDigits n bs = .ok v) (hn : 0 ≤ n)
    (hmax : n ≤ 2 ^ 63 - 1) : 0 ≤ v ∧ v ≤ 2 ^ 63 - 1 := by
  induction bs generalizing n with
  | nil =>
    obtain rfl := Except.ok.inj h
    exact ⟨hn, hmax⟩
  | cons b bs ih =>
    rw [parseDigits] at h
    split at h
    · dsimp only at h
      split at h
      · rename_i hle
        exact ih h (by omega) hle
      · cases h
    · cases h

/-- A number is digits, with a sign or without. -/
theorem parseI64_ok {s : Bytes} {v : ℤ} (h : parseI64 s = .ok v) :
    ∃ ds n, ds ≠ [] ∧ parseDigits 0 ds = .ok n ∧
      (s = ds ∧ v = n ∨ s = 0x2D#8 :: ds ∧ v = -n) := by
  have hmap : ∀ {f : ℤ → ℤ} {ds : Bytes},
      (if ds = [] ∨ 19 < ds.length then .error .badNumber else (parseDigits 0 ds).map f) = .ok v →
        ds ≠ [] ∧ ∃ n, parseDigits 0 ds = .ok n ∧ v = f n := by
    intro f ds hds
    split at hds
    · cases hds
    · rename_i hlen
      rcases hparse : parseDigits 0 ds with e | n
      · simp [hparse, Except.map] at hds
      · rw [hparse] at hds
        exact ⟨fun hnil => hlen (.inl hnil), n, rfl, (Except.ok.inj hds).symm⟩
  rw [parseI64] at h
  by_cases hneg : s.head? = some 0x2D#8
  · simp only [hneg, decide_true, if_true] at h
    obtain ⟨hne, n, hparse, hv⟩ := hmap h
    obtain ⟨ds, rfl⟩ := List.head?_eq_some_iff.mp hneg
    exact ⟨ds, n, hne, hparse, .inr ⟨rfl, hv⟩⟩
  · simp only [hneg, decide_false, Bool.false_eq_true, if_false] at h
    obtain ⟨hne, n, hparse, hv⟩ := hmap h
    exact ⟨s, n, hne, hparse, .inl ⟨rfl, hv⟩⟩

theorem parseI64_bounds {s : Bytes} {v : ℤ} (h : parseI64 s = .ok v) : v.natAbs ≤ 2 ^ 63 - 1 := by
  obtain ⟨ds, n, -, hparse, hv⟩ := parseI64_ok h
  obtain ⟨hge, hle⟩ := parseDigits_bounds hparse le_rfl (by decide)
  rcases hv with ⟨-, rfl⟩ | ⟨-, rfl⟩ <;> omega

/-- A text of a number is written as one piece. -/
theorem putI64_writes {v : ℤ} {text : Bytes} (h : i64Text v = some text) :
    Writer.Writes (putI64 v) text := by
  have hput : putI64 v = fun w => w.put text := by
    funext w
    rw [putI64, h]
  rw [hput]
  exact Writer.writes_put text

/-! ## Ids

An id is written as it was read: a number, a string without escapes, or `null`. -/

/-- An id that a request can have: a number other than the smallest, or a string without quotes
and escapes. -/
def Id.Parsed : Id → Prop
  | .int v => v.natAbs ≤ 2 ^ 63 - 1
  | .str s => ∀ c ∈ s, c ≠ quote ∧ c ≠ backslash
  | .null => True
  | .absent => True

/-- The id that a response has, where an absent one becomes `null`. -/
def Id.echo : Id → Id
  | .absent => .null
  | id => id

theorem asStr_plain {raw s : Bytes} (h : asStr raw = .ok s) :
    ∀ c ∈ s, c ≠ quote ∧ c ≠ backslash := by
  rw [asStr] at h
  split at h
  · cases h
  · rename_i s' rest hstr
    split at h
    · cases h
    · obtain rfl := Except.ok.inj h
      exact (takeString_eq_ok.mp hstr).2

theorem parseId_parsed {raw : Option Slice} {id : Id} (h : parseId raw = .ok id) : id.Parsed := by
  rcases raw with _ | raw
  · obtain rfl := Except.ok.inj h
    trivial
  · rw [parseId.eq_def] at h
    dsimp only at h
    split at h
    · obtain rfl := Except.ok.inj h
      trivial
    · split at h
      · rcases hstr : asStr raw.bytes with e | s
        · rw [hstr] at h
          cases h
        · rw [hstr] at h
          obtain rfl := Except.ok.inj h
          exact asStr_plain hstr
      · rcases hint : parseI64 raw.bytes with e | v
        · rw [hint] at h
          cases h
        · rw [hint] at h
          obtain rfl := Except.ok.inj h
          exact parseI64_bounds hint

/-- A string without escapes, put between quotes, is borrowed again. -/
theorem asStr_quoted {s : Bytes} (hs : ∀ c ∈ s, c ≠ quote ∧ c ≠ backslash) :
    asStr (quote :: (s ++ [quote])) = .ok s := by
  have htrimmed : Lib.Trimmed isSpace [] (quote :: (s ++ [quote])) [] := by
    refine ⟨by simp, by simp, fun c hc => ?_, fun c hc => ?_, fun h => ?_⟩
    · obtain rfl : quote = c := Option.some.inj hc
      decide
    · have hlast : (quote :: (s ++ [quote])).getLast? = some quote := by
        rw [← List.cons_append, List.getLast?_concat]
      rw [hlast] at hc
      obtain rfl : quote = c := Option.some.inj hc
      decide
    · cases h
  have htrim : trim (quote :: (s ++ [quote])) = quote :: (s ++ [quote]) := by
    have htrim := htrimmed.trim_eq
    rwa [List.nil_append, List.append_nil] at htrim
  rw [asStr, htrim, takeString_eq_ok.mpr ⟨rfl, hs⟩]
  rfl

/-- **An id as it is written**: a token that the rule for ids reads as the id. -/
structure Id.Text (id : Id) (text : Bytes) : Prop where
  writes : Writer.Writes (putId id) text
  token : ∀ levels, Token (levels + 1) text
  parse : ∀ start, parseId (some ⟨start, text⟩) = .ok id.echo

theorem null_token (levels : ℕ) : Token (levels + 1) (ascii ['n', 'u', 'l', 'l']) :=
  jsonNames_token (by decide) levels

theorem Id.exists_text {id : Id} (h : id.Parsed) : ∃ text, id.Text text := by
  cases id with
  | int v =>
    obtain ⟨text, heq, hreads⟩ := i64Text_eq h
    refine ⟨text, ?_, hreads.token, fun start => ?_⟩
    · exact putI64_writes heq
    · rw [parseId.eq_def]
      dsimp only
      rw [if_neg hreads.notName, if_neg hreads.notString, hreads.parse]
      rfl
  | str s =>
    refine ⟨[quote] ++ (s ++ [quote]), ?_, fun levels => ?_, fun start => ?_⟩
    · exact (Writer.writes_put [quote]).comp
        ((Writer.writes_put s).comp (Writer.writes_put [quote]))
    · have hplain : scanString (s ++ [quote]) false = .ok ([], false) :=
        scanString_plain.mpr ⟨s, rfl, h⟩
      rw [Token, List.singleton_append, valueEnd_quote, hplain]
      rfl
    · rw [List.singleton_append, parseId.eq_def]
      dsimp only
      have hname : quote :: (s ++ [quote]) ≠ ascii ['n', 'u', 'l', 'l'] :=
        fun heq => absurd (List.cons.inj heq).1 (by decide)
      rw [if_neg hname, if_pos (show (quote :: (s ++ [quote])).head? = some quote from rfl),
        asStr_quoted h]
      rfl
  | null => exact ⟨_, Writer.writes_put _, null_token, fun _ => rfl⟩
  | absent => exact ⟨_, Writer.writes_put _, null_token, fun _ => rfl⟩

/-! ## The round trip

The same lookup that reads requests finds the two values in the response. -/

/-- The key that the result of a response is under. -/
def resultKey : Bytes := ascii ['r', 'e', 's', 'u', 'l', 't']

/-- The text of a response, as a concatenation. -/
def responseText (id result : Bytes) : Bytes :=
  responseHead ++ (id ++ (responseMiddle ++ (result ++ [closeBrace])))

/-- The members of a response: version, id and result. -/
def responseMembers (id result : Bytes) : List MemberText :=
  [⟨[], quote :: (ascii ['j', 's', 'o', 'n', 'r', 'p', 'c'] ++ [quote]), [], [],
      quote :: (ascii ['2', '.', '0'] ++ [quote]), []⟩,
    ⟨[], quote :: (idKey ++ [quote]), [], [], id, []⟩,
    ⟨[], quote :: (resultKey ++ [quote]), [], [], result, []⟩]

theorem responseText_eq (id result : Bytes) : responseText id result =
    openBrace :: (commaSep ((responseMembers id result).map MemberText.text) ++
      closeBrace :: []) := by
  simp [responseText, responseHead, responseMiddle, responseMembers, commaSep, MemberText.text,
    MemberText.lead, idKey, resultKey]

theorem responseMembers_inner {id result : Bytes} (hid : Token (maxDepth + 1) id)
    (hresult : Token (maxDepth + 1) result) :
    Inner (maxDepth + 1) (commaSep ((responseMembers id result).map MemberText.text))
      (responseMembers id result) := by
  have hvalid : ∀ key value : Bytes, Token (maxDepth + 1) (quote :: (key ++ [quote])) →
      Token (maxDepth + 1) value →
        (⟨[], quote :: (key ++ [quote]), [], [], value, []⟩ : MemberText).Valid (maxDepth + 1) :=
    fun key value hkey hvalue =>
      ⟨nofun, hkey, nofun, .inl ⟨quote, rfl, .inl rfl⟩, nofun, hvalue, nofun⟩
  refine inner_commaSep (List.cons_ne_nil _ _) ?_
  rw [responseMembers, List.forall_mem_cons, List.forall_mem_cons, List.forall_mem_singleton]
  exact ⟨hvalid _ _ rfl rfl, hvalid _ _ rfl hid, hvalid _ _ rfl hresult⟩

/-- **Both values are found** in the text of a response, where it was put. -/
theorem objGetRaw_response {id result : Bytes} (hid : Token (maxDepth + 1) id)
    (hresult : Token (maxDepth + 1) result) :
    (∃ start, objGetRaw (responseText id result) idKey = some ⟨start, id⟩) ∧
      ∃ start, objGetRaw (responseText id result) resultKey = some ⟨start, result⟩ := by
  have hplain : ∀ m ∈ responseMembers id result, ∃ k, Plain m.key k := by
    rw [responseMembers, List.forall_mem_cons, List.forall_mem_cons, List.forall_mem_singleton]
    exact ⟨⟨_, rfl, by decide⟩, ⟨_, rfl, by decide⟩, ⟨_, rfl, by decide⟩⟩
  have hfind : ∀ key, objGetRaw (responseText id result) key =
      ((memberSpans 1 (responseMembers id result)).find? fun e =>
        e.1 = quote :: (key ++ [quote])).map Prod.snd := fun key => by
    rw [responseText_eq]
    exact (@objGetRaw_inner [] [] _ _ nofun nofun (responseMembers_inner hid hresult) key).trans
      (findMember_plain key hplain 1)
  rw [hfind, hfind]
  exact ⟨⟨_, rfl⟩, ⟨_, rfl⟩⟩

/-- What is written is the text, or a part of it. -/
theorem writeResult_writes {id : Id} {text : Bytes} (htext : Writer.Writes (putId id) text)
    (result : Bytes) : Writer.Writes (writeResult id result) (responseText text result) :=
  (Writer.writes_put _).comp (htext.comp ((Writer.writes_put _).comp
    ((Writer.writes_put _).comp (Writer.writes_put _))))

/-- **A response echoes.** Its id is read back as the id of the request, where `null` stands
for no id, and its result is the result. It is written where it fits, and nothing behind it
is. -/
theorem respondResult_echo (body : Bytes) (r : RpcRequest) (result : Bytes)
    (hparse : parseRequest body = .ok r) (hresult : Json maxDepth result) :
    ∃ text : Bytes,
      (∃ raw, objGetRaw text idKey = some raw ∧ parseId (some raw) = .ok r.id.echo) ∧
      (∃ raw, objGetRaw text resultKey = some raw ∧ raw.bytes = result) ∧
      ∀ out, (out.length < text.length ∧
          ∃ out', respondResult out r.id result = some (none, out') ∧ out'.length = out.length) ∨
        (text.length ≤ out.length ∧ respondResult out r.id result =
          some (some text.length, text ++ out.drop text.length)) := by
  obtain ⟨obj, -, hid, -⟩ := parseRequest_ok hparse
  obtain ⟨text, htext⟩ := Id.exists_text (parseId_parsed hid)
  obtain ⟨⟨start, hfound⟩, ⟨start', hfound'⟩⟩ :=
    objGetRaw_response (htext.token maxDepth) hresult.token
  refine ⟨responseText text result, ⟨_, hfound, htext.parse start⟩, ⟨_, hfound', rfl⟩,
    fun out => ?_⟩
  rw [respondResult]
  rcases (writeResult_writes htext.writes result).run out with
    ⟨hfits, w, hw, hlen, hout⟩ | ⟨hfull, w, hw, hout⟩
  · rw [hw]
    exact .inr ⟨hfits, by simp [hlen, hout]⟩
  · rw [hw]
    exact .inl ⟨hfull, w.out, rfl, hout⟩

/-- The request with the id 7, and an empty object. -/
theorem respondResult_echo_seven :
    ∃ text : Bytes,
      (∃ raw, objGetRaw text idKey = some raw ∧ parseId (some raw) = .ok (.int 7)) ∧
      (∃ raw, objGetRaw text resultKey = some raw ∧ raw.bytes = [openBrace, closeBrace]) ∧
      ∀ out, (out.length < text.length ∧
          ∃ out', respondResult out (.int 7) [openBrace, closeBrace] = some (none, out') ∧
            out'.length = out.length) ∨
        (text.length ≤ out.length ∧ respondResult out (.int 7) [openBrace, closeBrace] =
          some (some text.length, text ++ out.drop text.length)) := by
  have hparse : parseRequest (requestBody plainId) = .ok ⟨.int 7, ascii ['m'], none⟩ := by
    decide +kernel
  have hblank : Blank [] := nofun
  have hresult : Json maxDepth [openBrace, closeBrace] := .emptyObject hblank
  exact respondResult_echo _ _ _ hparse hresult

end Wari
