import Wari.Skipper
import Wari.Lib.Checked

/-!
# Indices

The same parser over slices, index by index: it faults where an index is outside its slice,
where the stack has no frame left, and where a loop has used up its turns. It agrees with the
one that passes on what is left of a text (`valueLen_agrees`, `parseRequest_agrees`), so it
does none of this (`skipper_safe`).
-/

namespace Wari.Offsets

open Lib (Bytes Slice ascii Checked Fault)
open Lib.Checked (Agrees Safe orNone ok_bind error_bind)

/-- A program of the parser, which may be refused, and which is wrong if it reads out of bounds or
spins. -/
abbrev Parse (α : Type) : Type := Checked McpError α

/-- Refuse the text with an error of the parser's own. -/
def refuse {α : Type} (e : McpError) : Parse α := .error (.refused e)

/-! ## White space

Trimming by index, and what is left by where it lies. -/

/-- White space off the start of a slice that begins at `o`. -/
def trimFrom : ℕ → Bytes → Slice
  | o, [] => ⟨o, []⟩
  | o, c :: rest => if isSpace c then trimFrom (o + 1) rest else ⟨o, c :: rest⟩

def trimStart (s : Slice) : Slice := trimFrom s.start s.bytes

def trim (s : Slice) : Slice :=
  let s := trimStart s
  ⟨s.start, s.bytes.rdropWhile isSpace⟩

/-- The first index from `i` on that is no white space. -/
def afterSpace (s : Slice) (i : ℕ) : Parse ℕ := do
  let rest ← s.dropAt i
  return s.bytes.length - (trimStart rest).bytes.length

/-! ## The skipper

The loops of the source over bytes, with an index each. A loop has as many turns as the slice has
bytes, and one that needs more is a fault. -/

/-- The loop of `string_end`. Running out of turns is an outcome of its own, so that termination
is proved. -/
def stringEndFrom (s : Slice) : ℕ → ℕ → Bool → Parse (ℕ × Bool)
  | 0, _, _ => .error .spins
  | turns + 1, i, escaped =>
    if i < s.bytes.length then do
      let c ← s.index i
      -- the escaped character is skipped, whether it is there or not
      if c = backslash then stringEndFrom s turns (i + 2) true
      else if c = quote then return (i + 1, escaped)
      else stringEndFrom s turns (i + 1) escaped
    else refuse .badJson

/-- For a slice that starts with a quote: the length of the string, and whether escapes were
seen. -/
def stringEnd (s : Slice) : Parse (ℕ × Bool) := stringEndFrom s (s.bytes.length + 1) 1 false

/-- The loop over a number, `true`, `false` or `null`. -/
def literalFrom (s : Slice) : ℕ → ℕ → Parse ℕ
  | 0, _ => .error .spins
  | turns + 1, i =>
    if i < s.bytes.length then do
      let c ← s.index i
      if isDelimiter c then return i else literalFrom s turns (i + 1)
    else return i

/-- Skip one element, or one pair of key and value, from index `i` on. -/
def elementAt (skip : Slice → Parse ℕ) (isObject : Bool) (s : Slice) (i : ℕ) : Parse ℕ :=
  if isObject then do
    let klen ← skip (← s.dropAt i)
    let i ← afterSpace s (i + klen)
    if s.bytes[i]? ≠ some colon then refuse .badJson
    else do
      let i ← afterSpace s (i + 1)
      let vlen ← skip (← s.dropAt i)
      return i + vlen
  else do
    let vlen ← skip (← s.dropAt i)
    return i + vlen

/-- The loop over an object or an array. -/
def elementsFrom (skip : Slice → Parse ℕ) (isObject : Bool) (s : Slice) : ℕ → ℕ → Parse ℕ
  | 0, _ => .error .spins
  | turns + 1, i => do
    let rest ← s.dropAt i
    match (trimStart rest).bytes.head? with
    | none => refuse .badJson
    | some c =>
      let i := i + (rest.bytes.length - (trimStart rest).bytes.length)
      if c = closer isObject then return i + 1
      else do
        let i ← elementAt skip isObject s i
        let i ← afterSpace s i
        match s.bytes[i]? with
        | none => refuse .badJson
        | some c =>
          if c = comma then do
            let i ← afterSpace s (i + 1)
            elementsFrom skip isObject s turns i
          else if c = closer isObject then return i + 1
          else refuse .badJson

/-- **The length of the value at the start of a slice**, with this many frames left on the
stack. -/
def valueLen : ℕ → Slice → ℕ → Parse ℕ
  | 0, _, _ => .error .overflow
  | frames + 1, s, depth =>
    if maxDepth < depth then refuse .tooDeep
    else
      match s.bytes.head? with
      | none => refuse .badJson
      | some c =>
        if c = quote then do
          let (n, _) ← stringEnd s
          return n
        else if c = openBrace then
          elementsFrom (fun s => valueLen frames s (depth + 1)) true s s.bytes.length 1
        else if c = openBracket then
          elementsFrom (fun s => valueLen frames s (depth + 1)) false s s.bytes.length 1
        else do
          let i ← literalFrom s (s.bytes.length + 1) 0
          if i = 0 then refuse .badJson else return i

/-- The stack of a call at this depth: a frame for each depth from there to
`maxDepth + 1`. -/
def frames (depth : ℕ) : ℕ := maxDepth + 1 - depth + 1

/-- The contents of the string without escapes at the start of a slice, and what is after
it. -/
def takeString (s : Slice) : Parse (Slice × Slice) :=
  if s.bytes.head? ≠ some quote then refuse .badJson
  else do
    let (stop, escaped) ← stringEnd s
    if escaped then refuse .escapedString
    else do
      let k ← s.sub 1 (stop - 1)
      let rest ← s.dropAt stop
      return (k, rest)

/-! ## Members of an object

The lookup of a member by its key, on offsets. -/

/-- The loop of `obj_get_raw`, from one member to the next. -/
def lookupFrom (key : Bytes) : ℕ → Slice → Parse (Option Slice)
  | 0, _ => .error .spins
  | turns + 1, cur =>
    if cur.bytes = [] then return none
    else do
      match ← orNone (takeString cur) with
      | none => return none
      | some (k, rest) =>
        let rest := trimStart rest
        if rest.bytes.head? ≠ some colon then return none
        else do
          let rest ← rest.dropAt 1
          let rest := trimStart rest
          match ← orNone (valueLen (frames 0) rest 0) with
          | none => return none
          | some vlen =>
            let v ← rest.sub 0 vlen
            let rest ← rest.dropAt vlen
            if k.bytes = key then return some v
            else
              let rest := trimStart rest
              match rest.bytes.head? with
              | none => return none
              | some c =>
                if c = comma then do
                  let rest ← rest.dropAt 1
                  lookupFrom key turns (trimStart rest)
                else return none

/-- What is between the braces of an object. -/
def inner? (s : Slice) : Option Slice :=
  (Wari.inner? s.bytes).map fun inner => ⟨s.start + 1, inner⟩

/-- **The raw span of a member's value**, with the offset that it has in the buffer. -/
def objGetRaw (obj : Slice) (key : Bytes) : Parse (Option Slice) :=
  match inner? (trim obj) with
  | none => return none
  | some inner => lookupFrom key (inner.bytes.length + 1) (trimStart inner)

/-! ## Requests

The members that make up a request, each as the span that it borrows. -/

/-- The contents of a string without escapes, as a span of the buffer. -/
def asStr (raw : Slice) : Parse Slice := do
  let (s, rest) ← takeString (trim raw)
  if (trim rest).bytes ≠ [] then refuse .badJson else return s

/-- The object that is the text, trimmed, as a span of the buffer. -/
def objectSpan (s : Slice) : Parse Slice :=
  let t := trim s
  if t.bytes.head? ≠ some openBrace then refuse .badRequest
  else do
    let len ← valueLen (frames 0) t 0
    let rest ← t.dropAt len
    if (trim rest).bytes ≠ [] then refuse .badJson
    else t.sub 0 len

/-- The id of a request, with a string as a span of the buffer. -/
inductive SpanId where
  | int (n : ℤ)
  | str (s : Slice)
  | null
  /-- no id: a notification -/
  | absent
  deriving DecidableEq, Repr

/-- A request, with the spans that it borrows from the buffer. -/
structure SpanRequest where
  id : SpanId
  method : Slice
  params : Option Slice
  deriving DecidableEq, Repr

/-- The id, from its raw span, which it may borrow from. -/
def parseId : Option Slice → Parse SpanId
  | none => return .absent
  | some raw =>
    if raw.bytes = ascii ['n', 'u', 'l', 'l'] then return .null
    else if raw.bytes.head? = some quote then do
      let s ← asStr raw
      return .str s
    else
      match parseI64 raw.bytes with
      | .error e => refuse e
      | .ok n => return .int n

/-- The string that is the value of a member that has to be there. -/
def memberStr (obj : Slice) (key : Bytes) : Parse Slice := do
  match ← objGetRaw obj key with
  | none => refuse .badRequest
  | some raw => asStr raw

/-- **Parse one JSON-RPC 2.0 request**, at the level of offsets, where every access can go out of
bounds. -/
def parseRequest (body : Slice) : Parse SpanRequest := do
  let obj ← objectSpan body
  let ver ← memberStr obj (ascii ['j', 's', 'o', 'n', 'r', 'p', 'c'])
  if ver.bytes ≠ ascii ['2', '.', '0'] then refuse .badRequest
  else do
    let method ← memberStr obj (ascii ['m', 'e', 't', 'h', 'o', 'd'])
    let id ← parseId (← objGetRaw obj idKey)
    let params ← objGetRaw obj paramsKey
    return ⟨id, method, params⟩

/-! ## It agrees

Each program agrees with the one that passes on what is left. -/

theorem agrees_refuse {α β : Type} (R : α → β → Prop) (e : McpError) :
    Agrees R (refuse e) (.error e) := .error e

theorem agrees_return {α β : Type} {R : α → β → Prop} {a : α} {b : β} (h : R a b) :
    Agrees R (pure a : Parse α) (.ok b) := .ok h

theorem trimFrom_eq (o : ℕ) (s : Bytes) :
    ∃ w, s = w ++ Wari.trimStart s ∧ trimFrom o s = ⟨o + w.length, Wari.trimStart s⟩ := by
  induction s generalizing o with
  | nil => exact ⟨[], rfl, rfl⟩
  | cons c s ih =>
    rw [trimFrom, Wari.trimStart, List.dropWhile_cons]
    split
    · obtain ⟨w, hs, heq⟩ := ih (o + 1)
      refine ⟨c :: w, congrArg (c :: ·) hs, ?_⟩
      rw [heq, List.length_cons, Nat.add_assoc, Nat.add_comm 1]
      rfl
    · exact ⟨[], rfl, rfl⟩

@[simp] theorem trimStart_bytes (s : Slice) : (trimStart s).bytes = Wari.trimStart s.bytes := by
  obtain ⟨w, -, heq⟩ := trimFrom_eq s.start s.bytes
  rw [trimStart, heq]

@[simp] theorem trim_bytes (s : Slice) : (trim s).bytes = Wari.trim s.bytes := by
  rw [trim, Wari.trim, ← trimStart_bytes]

/-- What is trimmed at the start lies where it did before. -/
theorem trimStart_at (s : Slice) : ∃ n, s.At n (Wari.trimStart s.bytes) ∧
    trimStart s = ⟨s.start + n, Wari.trimStart s.bytes⟩ := by
  obtain ⟨w, hs, heq⟩ := trimFrom_eq s.start s.bytes
  exact ⟨w.length, ⟨w, hs, rfl⟩, heq⟩

theorem trim_start (s : Slice) :
    (trim s).start = s.start + (s.bytes.length - (Wari.trimStart s.bytes).length) := by
  obtain ⟨n, hn, heq⟩ := trimStart_at s
  have hlen := hn.length
  rw [trim, heq]
  dsimp only
  omega

theorem trim_partOf (s : Slice) : (trim s).PartOf s := by
  obtain ⟨w, hs, heq⟩ := trimFrom_eq s.start s.bytes
  refine ⟨w, (Wari.trimStart s.bytes).rtakeWhile isSpace, ?_, ?_⟩
  · rw [trim_bytes, Wari.trim, List.rdropWhile_append_rtakeWhile]
    exact hs
  · rw [trim, trimStart, heq]

/-- What is left of a slice and trimmed is what is left of it further on. -/
theorem trimStart_tail {s : Slice} {i : ℕ} {rest : Bytes} (h : s.At i rest) :
    ∃ j, s.At j (Wari.trimStart rest) ∧ i ≤ j ∧
      trimStart ⟨s.start + i, rest⟩ = ⟨s.start + j, Wari.trimStart rest⟩ := by
  obtain ⟨n, hn, heq⟩ := trimStart_at ⟨s.start + i, rest⟩
  refine ⟨i + n, h.trans hn, Nat.le_add_right i n, ?_⟩
  rw [heq, Nat.add_assoc]

theorem dropAt_one (o : ℕ) (c : BitVec 8) (rest : Bytes) :
    ((⟨o, c :: rest⟩ : Slice).dropAt 1 : Parse Slice) = .ok ⟨o + 1, rest⟩ :=
  if_pos (Nat.succ_pos _)

/-- Some white space is passed over, and the index moves on at most to the end. -/
theorem afterSpace_at {s : Slice} {i : ℕ} {rest : Bytes} (h : s.At i rest) :
    ∃ j, afterSpace s i = .ok j ∧ s.At j (Wari.trimStart rest) ∧ i ≤ j := by
  obtain ⟨n, hn, -⟩ := trimStart_at ⟨s.start + i, rest⟩
  have hlen := (h.trans hn).length
  refine ⟨i + n, ?_, h.trans hn, Nat.le_add_right i n⟩
  rw [afterSpace, h.dropAt]
  refine congrArg Except.ok ?_
  rw [trimStart_bytes]
  omega

/-! ### Strings and literals

Both end at the first byte that is none of theirs. -/

theorem stringEndFrom_agrees {s : Slice} {i turns : ℕ} {rest : Bytes} (escaped : Bool)
    (h : s.At i rest) (hturns : rest.length < turns) :
    Agrees (fun a b => a.2 = b.2 ∧ s.At a.1 b.1 ∧ i < a.1) (stringEndFrom s turns i escaped)
      (scanString rest escaped) := by
  obtain ⟨turns, rfl⟩ : ∃ t, turns = t + 1 := ⟨turns - 1, by omega⟩
  have hlen := h.length
  induction rest, escaped using scanString.induct generalizing i turns with
  | case1 escaped =>
    rw [stringEndFrom, if_neg (by simp at hlen; omega)]
    exact agrees_refuse _ _
  | case2 escaped =>
    -- the last character is a backslash: the index is past the end on the next turn
    obtain ⟨turns, rfl⟩ : ∃ t, turns = t + 1 := ⟨turns - 1, by simp at hturns; omega⟩
    rw [stringEndFrom, if_pos (by simp at hlen; omega), h.index]
    change Agrees _ (stringEndFrom s (turns + 1) (i + 2) true) _
    rw [stringEndFrom, if_neg (by simp at hlen; omega)]
    exact agrees_refuse _ _
  | case3 escaped d rest ih =>
    obtain ⟨turns, rfl⟩ : ∃ t, turns = t + 1 := ⟨turns - 1, by simp at hturns; omega⟩
    rw [stringEndFrom, if_pos (by simp at hlen; omega), h.index, scanString_escape]
    simp only [List.length_cons] at hturns
    refine (ih h.of_cons.of_cons turns (by omega) h.of_cons.of_cons.length).mono ?_
    rintro a b ⟨he, hat, hlt⟩
    exact ⟨he, hat, by omega⟩
  | case4 rest escaped hb =>
    rw [stringEndFrom, if_pos (by simp at hlen; omega), h.index, scanString_quote]
    exact agrees_return ⟨rfl, h.of_cons, Nat.lt_succ_self i⟩
  | case5 c rest escaped hb hq ih =>
    obtain ⟨turns, rfl⟩ : ∃ t, turns = t + 1 := ⟨turns - 1, by simp at hturns; omega⟩
    rw [stringEndFrom, if_pos (by simp at hlen; omega), h.index, scanString_other hb hq]
    change Agrees _ (if c = backslash then _ else if c = quote then _ else _) _
    rw [if_neg hb, if_neg hq]
    simp only [List.length_cons] at hturns
    refine (ih h.of_cons turns (by omega) h.of_cons.length).mono ?_
    rintro a b ⟨he, hat, hlt⟩
    exact ⟨he, hat, by omega⟩

theorem stringEnd_agrees (s : Slice) :
    Agrees (fun a b => a.2 = b.2 ∧ s.At a.1 b.1 ∧ 1 < a.1) (stringEnd s)
      (Wari.stringEnd s.bytes) := by
  rcases hs : s.bytes with _ | ⟨c, rest⟩
  · rw [stringEnd, stringEndFrom, if_neg (by simp [hs])]
    exact agrees_refuse _ _
  · have hat : s.At 1 rest := ⟨[c], hs, rfl⟩
    rw [stringEnd, hs]
    exact stringEndFrom_agrees false hat (Nat.lt_succ_of_lt (Nat.lt_succ_self rest.length))

theorem literalFrom_at {s : Slice} {i turns : ℕ} {rest : Bytes} (h : s.At i rest)
    (hturns : rest.length < turns) :
    ∃ j, literalFrom s turns i = .ok j ∧ s.At j (rest.dropWhile fun c => !isDelimiter c) := by
  induction rest generalizing i turns with
  | nil =>
    obtain ⟨turns, rfl⟩ : ∃ t, turns = t + 1 := ⟨turns - 1, by omega⟩
    have hlen := h.length
    refine ⟨i, ?_, h⟩
    rw [literalFrom, if_neg (by simp at hlen; omega)]
    rfl
  | cons c rest ih =>
    obtain ⟨turns, rfl⟩ : ∃ t, turns = t + 1 := ⟨turns - 1, by omega⟩
    have hlen := h.length
    simp only [List.length_cons] at hlen hturns
    rw [literalFrom, if_pos (by omega), h.index, List.dropWhile_cons]
    rcases hc : isDelimiter c with _ | _
    · obtain ⟨j, hj, hat⟩ := ih h.of_cons (by omega : rest.length < turns)
      refine ⟨j, ?_, by simpa using hat⟩
      rw [← hj]
      simp [bind, Except.bind, hc]
    · refine ⟨i, ?_, by simpa using h⟩
      simp [bind, Except.bind, hc]
      rfl

/-! ### Values

By the depth of nesting, since the stack is bounded. -/

/-- What skips a value: it agrees, and passes over something. -/
def Skips (skip : Slice → Parse ℕ) (skip' : Bytes → Except McpError Bytes) : Prop :=
  ∀ s, Agrees (fun n rest => s.At n rest ∧ 0 < n) (skip s) (skip' s.bytes)

section Skip

variable {skip : Slice → Parse ℕ} {skip' : Bytes → Except McpError Bytes} {s : Slice} {i : ℕ}
  {rest : Bytes}

/-- A value from index `i` on is skipped or refused on both levels alike, and a skipped one has at
least one byte. -/
theorem Skips.at_cases (hskip : Skips skip skip') (h : s.At i rest) :
    (∃ n rest', skip ⟨s.start + i, rest⟩ = .ok n ∧ skip' rest = .ok rest' ∧
      s.At (i + n) rest' ∧ i < i + n) ∨
    ∃ e, skip ⟨s.start + i, rest⟩ = .error (.refused e) ∧ skip' rest = .error e := by
  rcases (hskip ⟨s.start + i, rest⟩).cases with ⟨n, rest', hn, hrest', hat, hpos⟩ | herror
  · exact .inl ⟨n, rest', hn, hrest', h.trans hat, by omega⟩
  · exact .inr herror

theorem elementAt_agrees (hskip : Skips skip skip') (isObject : Bool) (h : s.At i rest) :
    Agrees (fun n rest' => s.At n rest' ∧ i < n) (elementAt skip isObject s i)
      (elementEnd skip' isObject rest) := by
  rcases hskip.at_cases h with ⟨n, rest₁, hn, hrest₁, hat, hlt⟩ | ⟨e, hn, hrest₁⟩
  · cases isObject with
    | false =>
      simp only [elementAt, elementEnd, Bool.false_eq_true, if_false, h.dropAt, ok_bind, hn, hrest₁]
      exact agrees_return ⟨hat, hlt⟩
    | true =>
      obtain ⟨j, hj, hat, hle⟩ := afterSpace_at hat
      simp only [elementAt, elementEnd, if_true, h.dropAt, ok_bind, hn, hrest₁, hj, hat.getElem?]
      rcases htrim : Wari.trimStart rest₁ with _ | ⟨c, rest₂⟩
      · exact agrees_refuse _ _
      rw [htrim] at hat
      by_cases hc : c = colon
      · obtain ⟨k, hk, hat, hle'⟩ := afterSpace_at hat.of_cons
        simp only [hc, List.head?_cons, ne_eq, not_true_eq_false, if_false, if_true, hk, ok_bind,
          hat.dropAt]
        rcases hskip.at_cases hat with ⟨m, rest₃, hm, hrest₃, hat, hlt'⟩ | ⟨e, hm, hrest₃⟩
        · rw [hm, hrest₃]
          exact agrees_return ⟨hat, by omega⟩
        · rw [hm, hrest₃]
          exact agrees_refuse _ _
      · simp only [List.head?_cons, ne_eq, Option.some.injEq, hc, not_false_eq_true, if_true,
          if_false]
        exact agrees_refuse _ _
  · cases isObject <;>
    · simp only [elementAt, elementEnd, Bool.false_eq_true, if_false, if_true, h.dropAt, ok_bind,
        hn, hrest₁]
      exact agrees_refuse _ _

theorem elementsFrom_agrees (hskip : Skips skip skip') (isObject : Bool) {turns : ℕ}
    (h : s.At i rest) (hturns : rest.length < turns) :
    Agrees (fun n rest' => s.At n rest' ∧ i < n) (elementsFrom skip isObject s turns i)
      (elementsEnd skip' isObject turns rest) := by
  induction turns generalizing i rest with
  | zero => omega
  | succ turns ih =>
    obtain ⟨j, hj, hat, hle⟩ := afterSpace_at h
    have hindex : i + (rest.length - (Wari.trimStart rest).length) = j := by
      have := h.length
      have := hat.length
      omega
    rw [elementsFrom, elementsEnd]
    simp only [h.dropAt, ok_bind, trimStart_bytes, hindex]
    rcases htrim : Wari.trimStart rest with _ | ⟨c, rest₁⟩
    · exact agrees_refuse _ _
    rw [htrim] at hat
    simp only [List.head?_cons]
    by_cases hc : c = closer isObject
    · rw [if_pos hc, if_pos hc]
      exact agrees_return ⟨hat.of_cons, by omega⟩
    rw [if_neg hc, if_neg hc]
    rcases (elementAt_agrees hskip isObject hat).cases with
      ⟨n, rest₂, hn, hrest₂, hat, hlt⟩ | ⟨e, hn, hrest₂⟩
    · obtain ⟨k, hk, hat, hle'⟩ := afterSpace_at hat
      simp only [hn, hrest₂, ok_bind, hk, hat.getElem?]
      rcases htrim₂ : Wari.trimStart rest₂ with _ | ⟨d, rest₃⟩
      · exact agrees_refuse _ _
      rw [htrim₂] at hat
      simp only [List.head?_cons]
      by_cases hcomma : d = comma
      · obtain ⟨l, hl, hat', hle''⟩ := afterSpace_at hat.of_cons
        rw [if_pos hcomma, if_pos hcomma, hl, ok_bind]
        refine (ih hat' ?_).mono ?_
        · have := h.length
          have := hat'.length
          omega
        · rintro a b ⟨ha, hlt'⟩
          exact ⟨ha, by omega⟩
      · rw [if_neg hcomma, if_neg hcomma]
        by_cases hclose : d = closer isObject
        · rw [if_pos hclose, if_pos hclose]
          exact agrees_return ⟨hat.of_cons, by omega⟩
        · rw [if_neg hclose, if_neg hclose]
          exact agrees_refuse _ _
    · rw [hn, hrest₂]
      exact agrees_refuse _ _

end Skip

/-- **The scanner agrees**, at each depth and on a stack that reaches as far as the nesting
that is accepted. -/
theorem valueLen_agrees (levels depth : ℕ) (h : levels = maxDepth + 1 - depth) :
    Skips (fun s => valueLen (levels + 1) s depth) (valueEnd levels) := by
  induction levels generalizing depth with
  | zero =>
    intro s
    dsimp only
    rw [valueLen, if_pos (by omega)]
    exact agrees_refuse _ _
  | succ levels ih =>
    intro s
    have hskip := ih (depth + 1) (by omega)
    dsimp only
    rw [valueLen, if_neg (by omega)]
    rcases hs : s.bytes with _ | ⟨c, rest⟩
    · exact agrees_refuse _ _
    have hat : s.At 1 rest := ⟨[c], hs, rfl⟩
    rw [valueEnd]
    simp only [List.head?_cons]
    by_cases hq : c = quote
    · rw [if_pos hq, if_pos hq, ← hs]
      rcases (stringEnd_agrees s).cases with ⟨a, b, ha, hb, -, hat, hlt⟩ | ⟨e, ha, hb⟩
      · rw [ha, hb]
        exact agrees_return ⟨hat, by omega⟩
      · rw [ha, hb]
        exact agrees_refuse _ _
    rw [if_neg hq, if_neg hq]
    have helements : ∀ isObject,
        Agrees (fun n rest' => s.At n rest' ∧ 0 < n)
          (elementsFrom (fun s => valueLen (levels + 1) s (depth + 1)) isObject s
            (c :: rest).length 1)
          (elementsEnd (valueEnd levels) isObject (rest.length + 1) rest) := by
      intro isObject
      refine (elementsFrom_agrees hskip isObject hat (Nat.lt_succ_self _)).mono ?_
      rintro n rest' ⟨hn, hlt⟩
      exact ⟨hn, by omega⟩
    by_cases hbrace : c = openBrace
    · rw [if_pos hbrace, if_pos hbrace]
      exact helements true
    rw [if_neg hbrace, if_neg hbrace]
    by_cases hbracket : c = openBracket
    · rw [if_pos hbracket, if_pos hbracket]
      exact helements false
    rw [if_neg hbracket, if_neg hbracket]
    obtain ⟨j, hj, hjat⟩ := literalFrom_at s.at_zero (Nat.lt_succ_self s.bytes.length)
    rw [hs] at hj hjat
    rw [hj, ok_bind, literalEnd]
    have hlen := hjat.length
    rw [hs] at hlen
    by_cases hzero : j = 0
    · rw [if_pos hzero, if_pos (by omega)]
      exact agrees_refuse _ _
    · rw [if_neg hzero, if_neg (by omega)]
      exact agrees_return ⟨hjat, Nat.pos_of_ne_zero hzero⟩

/-- The length it returns is that of a part of the slice, which is not empty. -/
theorem valueLen_frames (s : Slice) (depth : ℕ) :
    Agrees (fun n m => n = m ∧ 1 ≤ n ∧ n ≤ s.bytes.length) (valueLen (frames depth) s depth)
      (Wari.valueLen s.bytes depth) := by
  rw [Wari.valueLen]
  rcases (valueLen_agrees _ depth rfl s).cases with ⟨n, rest, hn, hrest, hat, hpos⟩ | ⟨e, hn, hrest⟩
  · dsimp only at hn
    have hlen := hat.length
    rw [frames, hn, hrest]
    have hle : n = s.bytes.length - rest.length := by omega
    exact .ok ⟨hle, hpos, by omega⟩
  · dsimp only at hn
    rw [frames, hn, hrest]
    exact .error e

/-! ### Members

The lookup walks over members; the span it returns is a part of the object. -/

theorem takeString_agrees (s : Slice) :
    Agrees (fun a b => a.1.bytes = b.1 ∧ a.1.PartOf s ∧
        ∃ n, s.At n b.2 ∧ 0 < n ∧ a.2 = ⟨s.start + n, b.2⟩)
      (takeString s) (Wari.takeString s.bytes) := by
  rw [takeString, Wari.takeString]
  by_cases hhead : s.bytes.head? ≠ some quote
  · rw [if_pos hhead, if_pos hhead]
    exact agrees_refuse _ _
  rw [if_neg hhead, if_neg hhead]
  rcases (stringEnd_agrees s).cases with ⟨⟨stop, escaped⟩, ⟨rest, e⟩, ha, hb, he, hat, hlt⟩ |
    ⟨e, ha, hb⟩
  · dsimp only at he hat hlt
    subst he
    have hlen := hat.length
    simp only [ha, hb, ok_bind]
    cases escaped with
    | true => exact agrees_refuse _ _
    | false =>
      have hstop : stop - 1 ≤ s.bytes.length := by omega
      have hone : 1 ≤ stop - 1 := by omega
      rw [if_neg Bool.false_ne_true, if_neg Bool.false_ne_true, Slice.sub_ok hone hstop, ok_bind,
        hat.dropAt, ok_bind]
      refine agrees_return ⟨?_, Slice.partOf_take hone hstop, stop, hat, by omega, rfl⟩
      dsimp only
      rw [List.drop_take]
      congr 1
      omega
  · rw [ha, hb]
    exact agrees_refuse _ _

/-- Where a piece is, that has `rest` behind it in the slice. -/
def before (s : Slice) (p : Bytes × Bytes) : Slice :=
  ⟨s.start + (s.bytes.length - p.2.length - p.1.length), p.1⟩

theorem before_at {s : Slice} {n : ℕ} {rest : Bytes} (h : s.At n rest) {p : Bytes × Bytes}
    (hp : p.1 ++ p.2 <:+ rest) :
    before ⟨s.start + n, rest⟩ p = before s p ∧ p.1 ++ p.2 <:+ s.bytes := by
  have hlen := h.length
  obtain ⟨front, hs, hfront⟩ := h
  have hle := hp.length_le
  rw [List.length_append] at hle
  refine ⟨?_, hp.trans ⟨front, hs.symm⟩⟩
  simp only [before]
  congr 1
  omega

theorem before_partOf {s : Slice} {p : Bytes × Bytes} (hp : p.1 ++ p.2 <:+ s.bytes) :
    (before s p).PartOf s := by
  obtain ⟨front, hs⟩ := hp
  refine ⟨front, p.2, hs.symm, ?_⟩
  rw [before, ← hs]
  simp only [List.length_append]
  omega

theorem orNone_agrees {α β : Type} {R : α → β → Prop} {x : Parse α} {y : Except McpError β}
    (h : Agrees R x y) :
    (∃ a b, orNone x = .ok (some a) ∧ y = .ok b ∧ R a b) ∨
      ∃ e, orNone x = .ok none ∧ y = .error e := by
  cases h with
  | ok h => exact .inl ⟨_, _, rfl, rfl, h⟩
  | error e => exact .inr ⟨e, rfl, rfl⟩

theorem lookupFrom_agrees (key : Bytes) (turns : ℕ) (cur : Slice)
    (hturns : cur.bytes.length < turns) :
    lookupFrom key turns cur =
        .ok ((Wari.lookupFrom key turns cur.bytes).map (before cur)) ∧
      ∀ p ∈ Wari.lookupFrom key turns cur.bytes, p.1 ++ p.2 <:+ cur.bytes := by
  induction turns generalizing cur with
  | zero => omega
  | succ turns ih =>
    have hnone : ∀ {p : Option (Bytes × Bytes)}, p = none →
        (pure none : Parse (Option Slice)) = .ok (p.map (before cur)) ∧
          ∀ q ∈ p, q.1 ++ q.2 <:+ cur.bytes := by
      rintro p rfl
      exact ⟨rfl, by simp⟩
    rw [lookupFrom, Wari.lookupFrom]
    by_cases hnil : cur.bytes = []
    · rw [if_pos hnil, if_pos hnil]
      exact hnone rfl
    rw [if_neg hnil, if_neg hnil]
    rcases orNone_agrees (takeString_agrees cur) with
      ⟨⟨k, r⟩, ⟨k', rest⟩, ha, hb, hk, -, n, hat, hpos, hr⟩ | ⟨e, ha, hb⟩
    · dsimp only at hk hr
      subst hr hk
      obtain ⟨j, hat, hle, htrim⟩ := trimStart_tail hat
      simp only [ha, hb, ok_bind, htrim]
      rcases hrest : Wari.trimStart rest with _ | ⟨c, rest₁⟩
      · exact hnone rfl
      rw [hrest] at hat
      simp only [List.head?_cons, ne_eq, Option.some.injEq, ite_not]
      by_cases hcolon : c = colon
      · obtain ⟨j, hat, hle', htrim⟩ := trimStart_tail hat.of_cons
        rw [if_pos hcolon, if_pos hcolon, dropAt_one, ok_bind, Nat.add_assoc, htrim]
        generalize Wari.trimStart rest₁ = text at hat htrim ⊢
        rcases orNone_agrees (valueLen_frames ⟨cur.start + j, text⟩ 0) with
          ⟨n, m, hn, hm, hnm, hpos', hlen⟩ | ⟨e, hn, hm⟩
        · subst hnm
          dsimp only at hm hlen
          have hsplit : text = text.take n ++ text.drop n := (List.take_append_drop n text).symm
          have hat' : cur.At (j + n) (text.drop n) := by
            have hlen' : (text.take n).length = n := List.length_take_of_le hlen
            rw [hsplit] at hat
            simpa [hlen'] using hat.of_append
          have hparts : text.take n ++ text.drop n <:+ text := by simp
          obtain ⟨hbefore, hsuffix⟩ := before_at (p := (text.take n, text.drop n)) hat hparts
          have hfound : (⟨cur.start + j + 0, (text.take n).drop 0⟩ : Slice) =
              before cur (text.take n, text.drop n) := by
            rw [← hbefore, before]
            simp only [List.drop_zero, List.length_drop, List.length_take]
            congr 1
            omega
          have hsub : ((⟨cur.start + j, text⟩ : Slice).sub 0 n : Parse Slice) =
              .ok ⟨cur.start + j + 0, (text.take n).drop 0⟩ := Slice.sub_ok (Nat.zero_le n) hlen
          have hdrop : ((⟨cur.start + j, text⟩ : Slice).dropAt n : Parse Slice) =
              .ok ⟨cur.start + (j + n), text.drop n⟩ := by
            rw [Slice.dropAt, if_pos hlen, Nat.add_assoc]
          simp only [hn, hm, ok_bind, hsub, hdrop]
          by_cases hkey : k.bytes = key
          · rw [if_pos hkey, if_pos hkey, hfound]
            refine ⟨rfl, fun p hp => ?_⟩
            obtain rfl := Option.some.inj hp
            exact hsuffix
          rw [if_neg hkey, if_neg hkey]
          obtain ⟨l, hat, hle'', htrim⟩ := trimStart_tail hat'
          rw [htrim]
          rcases hrest₂ : Wari.trimStart (text.drop n) with _ | ⟨d, rest₂⟩
          · exact hnone rfl
          rw [hrest₂] at hat
          simp only [List.head?_cons]
          by_cases hcomma : d = comma
          · obtain ⟨i, hat, hle₃, htrim⟩ := trimStart_tail hat.of_cons
            rw [if_pos hcomma, if_pos hcomma, dropAt_one, ok_bind, Nat.add_assoc, htrim]
            have hcur := hat.length
            obtain ⟨heq, hall⟩ := ih ⟨cur.start + i, Wari.trimStart rest₂⟩ (by
              dsimp only
              omega)
            rw [heq]
            refine ⟨congrArg Except.ok ?_, fun p hp => (before_at hat (hall p hp)).2⟩
            exact Option.map_congr fun p hp => (before_at hat (hall p hp)).1
          · rw [if_neg hcomma, if_neg hcomma]
            exact hnone rfl
        · simp only [hn, hm, ok_bind]
          exact hnone rfl
      · rw [if_neg hcolon, if_neg hcolon]
        exact hnone rfl
    · rw [ha, hb]
      exact hnone rfl

/-- What is between the braces is a part of the slice. -/
theorem inner?_partOf (s : Slice) {inner : Bytes} (h : Wari.inner? s.bytes = some inner) :
    (⟨s.start + 1, inner⟩ : Slice).PartOf s := by
  rcases hs : s.bytes with _ | ⟨c, rest⟩
  · rw [hs] at h
    cases h
  · rw [hs, Wari.inner?] at h
    split at h
    · rename_i hends
      obtain rfl := Option.some.inj h
      refine ⟨[c], [closeBrace], ?_, rfl⟩
      rw [hs, List.dropLast_append_getLast? closeBrace hends.2]
      rfl
    · cases h

/-- **A lookup agrees** with the one on texts, and what it finds lies in the object. -/
theorem objGetRaw_agrees (obj : Slice) (key : Bytes) :
    objGetRaw obj key = .ok ((Wari.objGetRaw obj.bytes key).map (Slice.shift obj.start)) ∧
      ∀ v ∈ (Wari.objGetRaw obj.bytes key).map (Slice.shift obj.start), v.PartOf obj := by
  rw [objGetRaw, inner?, Wari.objGetRaw, trim_bytes]
  rcases hinner : Wari.inner? (Wari.trim obj.bytes) with _ | inner
  · exact ⟨rfl, by simp⟩
  simp only [Option.map_some]
  obtain ⟨n, hat, htrim⟩ := trimStart_at ⟨(trim obj).start + 1, inner⟩
  have hlen := hat.length
  obtain ⟨heq, hall⟩ := lookupFrom_agrees key (inner.length + 1)
    ⟨(trim obj).start + 1 + n, Wari.trimStart inner⟩ (by
      dsimp only at hlen ⊢
      omega)
  have hpart : (⟨(trim obj).start + 1, inner⟩ : Slice).PartOf obj :=
    (inner?_partOf (trim obj) (by rwa [trim_bytes])).trans (trim_partOf obj)
  have hspan : ∀ p : Bytes × Bytes, before ⟨(trim obj).start + 1, inner⟩ p =
      Slice.shift obj.start ⟨obj.bytes.length - (Wari.trimStart obj.bytes).length + 1 +
        (inner.length - p.2.length - p.1.length), p.1⟩ := by
    intro p
    rw [before, trim_start, Slice.shift]
    congr 1
    dsimp only
    omega
  rw [htrim, heq, Option.map_map]
  refine ⟨congrArg Except.ok (Option.map_congr fun p hp => ?_), fun v hv => ?_⟩
  · exact (before_at hat (hall p hp)).1.trans (hspan p)
  · obtain ⟨p, hp, rfl⟩ := Option.map_eq_some_iff.mp hv
    have hat' := (before_at hat (hall p hp)).2
    have hpart' := (before_partOf hat').trans hpart
    rwa [hspan] at hpart'

theorem asStr_agrees (raw : Slice) :
    Agrees (fun a b => a.bytes = b ∧ a.PartOf raw) (asStr raw) (Wari.asStr raw.bytes) := by
  rw [asStr, Wari.asStr]
  rcases (takeString_agrees (trim raw)).cases with
    ⟨⟨k, r⟩, ⟨k', rest⟩, ha, hb, hk, hpart, n, hat, hpos, hr⟩ | ⟨e, ha, hb⟩
  · dsimp only at hk hpart hr
    subst hk hr
    rw [trim_bytes] at hb
    simp only [ha, hb, ok_bind, trim_bytes]
    by_cases hnil : Wari.trim rest ≠ []
    · rw [if_pos hnil, if_pos hnil]
      exact agrees_refuse _ _
    · rw [if_neg hnil, if_neg hnil]
      exact agrees_return ⟨rfl, hpart.trans (trim_partOf raw)⟩
  · rw [trim_bytes] at hb
    rw [ha, hb]
    exact agrees_refuse _ _

theorem objectSpan_agrees (s : Slice) :
    Agrees (fun a b => a.bytes = b ∧ a.PartOf s ∧
        a.start = s.start + (s.bytes.length - (Wari.trimStart s.bytes).length))
      (objectSpan s) (Wari.objectSpan s.bytes) := by
  rw [objectSpan, Wari.objectSpan]
  simp only [trim_bytes]
  by_cases hhead : (Wari.trim s.bytes).head? ≠ some openBrace
  · rw [if_pos hhead, if_pos hhead]
    exact agrees_refuse _ _
  rw [if_neg hhead, if_neg hhead]
  rcases (valueLen_frames (trim s) 0).cases with ⟨n, m, hn, hm, hnm, hpos, hlen⟩ | ⟨e, hn, hm⟩
  · subst hnm
    rw [trim_bytes] at hm
    have hdrop : ((trim s).dropAt n : Parse Slice) =
        .ok ⟨(trim s).start + n, (trim s).bytes.drop n⟩ := if_pos hlen
    simp only [hn, hm, ok_bind, hdrop, Slice.sub_ok (Nat.zero_le n) hlen, trim_bytes]
    by_cases hnil : Wari.trim ((Wari.trim s.bytes).drop n) ≠ []
    · rw [if_pos hnil, if_pos hnil]
      exact agrees_refuse _ _
    · rw [if_neg hnil, if_neg hnil]
      refine .ok ⟨rfl, ?_, ?_⟩
      · have hpart := (Slice.partOf_take (Nat.zero_le n) hlen).trans (trim_partOf s)
        rwa [trim_bytes] at hpart
      · exact trim_start s
  · rw [trim_bytes] at hm
    rw [hn, hm]
    exact agrees_refuse _ _

/-! ### Requests

The stages of the parser agree one by one, and so the parsers do. -/

/-- The id, without where it lies in the buffer. -/
def SpanId.forget : SpanId → Id
  | .int n => .int n
  | .str s => .str s.bytes
  | .null => .null
  | .absent => .absent

/-- What an id borrows: a string its span, and the others nothing. -/
def SpanId.spans : SpanId → List Slice
  | .str s => [s]
  | _ => []

/-- A request, without where its method and its id are. -/
def SpanRequest.forget (q : SpanRequest) : RpcRequest :=
  ⟨q.id.forget, q.method.bytes, q.params⟩

/-- **What a request borrows**: its method, its id, its parameters. -/
def SpanRequest.spans (q : SpanRequest) : List Slice :=
  q.method :: (q.id.spans ++ q.params.toList)

theorem parseId_agrees {body : Slice} {raw : Option Slice} (hraw : ∀ v ∈ raw, v.PartOf body) :
    Agrees (fun a b => a.forget = b ∧ ∀ s ∈ a.spans, s.PartOf body) (parseId raw)
      (Wari.parseId raw) := by
  rcases raw with _ | raw
  · exact agrees_return ⟨rfl, by simp [SpanId.spans]⟩
  simp only [parseId, Wari.parseId]
  by_cases hnull : raw.bytes = ascii ['n', 'u', 'l', 'l']
  · rw [if_pos hnull, if_pos hnull]
    exact agrees_return ⟨rfl, by simp [SpanId.spans]⟩
  rw [if_neg hnull, if_neg hnull]
  by_cases hquote : raw.bytes.head? = some quote
  · rw [if_pos hquote, if_pos hquote]
    rcases (asStr_agrees raw).cases with ⟨a, b, ha, hb, hbytes, hpart⟩ | ⟨e, ha, hb⟩
    · rw [ha, hb]
      refine .ok ⟨congrArg Id.str hbytes, ?_⟩
      simpa [SpanId.spans] using hpart.trans (hraw raw rfl)
    · rw [ha, hb]
      exact .error e
  rw [if_neg hquote, if_neg hquote]
  rcases parseI64 raw.bytes with e | n
  · exact .error e
  · exact .ok ⟨rfl, by simp [SpanId.spans]⟩

/-- Where a member is there or is not, and is a string or is none. -/
theorem memberStr_cases (obj : Slice) (key : Bytes) :
    (memberStr obj key = refuse .badRequest ∧ Wari.objGetRaw obj.bytes key = none) ∨
    ∃ raw, Wari.objGetRaw obj.bytes key = some raw ∧
      ((∃ a, memberStr obj key = .ok a ∧ Wari.asStr raw.bytes = .ok a.bytes ∧ a.PartOf obj) ∨
        ∃ e, memberStr obj key = refuse e ∧ Wari.asStr raw.bytes = .error e) := by
  obtain ⟨heq, hall⟩ := objGetRaw_agrees obj key
  rw [memberStr, heq, ok_bind]
  rcases hraw : Wari.objGetRaw obj.bytes key with _ | raw
  · exact .inl ⟨rfl, rfl⟩
  · rw [hraw] at hall
    have hpart : (Slice.shift obj.start raw).PartOf obj := hall _ rfl
    refine .inr ⟨raw, rfl, ?_⟩
    rcases (asStr_agrees (Slice.shift obj.start raw)).cases with
      ⟨a, b, ha, hb, rfl, hpart'⟩ | ⟨e, ha, hb⟩
    · exact .inl ⟨a, ha, hb, hpart'.trans hpart⟩
    · exact .inr ⟨e, ha, hb⟩

/-- **The parser agrees** with the one on texts, and what a request borrows lies in the body. -/
theorem parseRequest_agrees (body : Bytes) :
    Agrees (fun q r => q.forget = r ∧ ∀ s ∈ q.spans, s.PartOf ⟨0, body⟩)
      (parseRequest ⟨0, body⟩) (Wari.parseRequest body) := by
  rw [parseRequest, Wari.parseRequest]
  rcases (objectSpan_agrees ⟨0, body⟩).cases with
    ⟨obj, b, hobj, hb, rfl, hpart, hstart⟩ | ⟨e, hobj, hb⟩
  swap
  · dsimp only at hb
    rw [hobj, hb]
    exact .error e
  dsimp only at hb hstart
  simp only [hobj, hb, ok_bind]
  rcases memberStr_cases obj (ascii ['j', 's', 'o', 'n', 'r', 'p', 'c']) with
    ⟨hver, hraw⟩ | ⟨raw, hraw, ⟨ver, hver, hver', -⟩ | ⟨e, hver, hver'⟩⟩
  · rw [hver, hraw]
    exact .error _
  swap
  · simp only [hver, hraw, hver']
    exact .error _
  simp only [hver, hraw, hver', ok_bind]
  by_cases htwo : ver.bytes ≠ ascii ['2', '.', '0']
  · rw [if_pos htwo, if_pos htwo]
    exact .error _
  rw [if_neg htwo, if_neg htwo]
  rcases memberStr_cases obj (ascii ['m', 'e', 't', 'h', 'o', 'd']) with
    ⟨hmethod, hraw⟩ | ⟨raw, hraw, ⟨method, hmethod, hmethod', hmethodPart⟩ | ⟨e, hmethod, hmethod'⟩⟩
  · rw [hmethod, hraw]
    exact .error _
  swap
  · simp only [hmethod, hraw, hmethod']
    exact .error _
  obtain ⟨hid, hidPart⟩ := objGetRaw_agrees obj idKey
  obtain ⟨hparams, hparamsPart⟩ := objGetRaw_agrees obj paramsKey
  have hshift : Wari.parseId ((Wari.objGetRaw obj.bytes idKey).map (Slice.shift obj.start)) =
      Wari.parseId (Wari.objGetRaw obj.bytes idKey) := by
    cases Wari.objGetRaw obj.bytes idKey <;> rfl
  simp only [hmethod, hraw, hmethod', ok_bind, hid, hparams]
  rcases (parseId_agrees fun v hv => (hidPart v hv).trans hpart).cases with
    ⟨id, b, hid', hb', rfl, hidSpans⟩ | ⟨e, hid', hb'⟩
  · rw [hshift] at hb'
    simp only [hid', hb', ok_bind]
    refine .ok ⟨?_, fun s hs => ?_⟩
    · rw [SpanRequest.forget, hstart, Nat.zero_add]
    · rw [SpanRequest.spans, List.mem_cons, List.mem_append, Option.mem_toList] at hs
      rcases hs with rfl | hs | hs
      · exact hmethodPart.trans hpart
      · exact hidSpans s hs
      · exact (hparamsPart s hs).trans hpart
  · rw [hshift] at hb'
    rw [hid', hb']
    exact .error e

/-- **The skipper is safe** on any bytes. The scanner at any depth, on a stack that reaches
down to one level more than is accepted; a lookup; and the parser: each ends, indexes nothing
outside its slice, and returns what lies in it. -/
theorem skipper_safe :
    (∀ (s : Slice) (depth : ℕ), Safe (valueLen (frames depth) s depth) ∧
      ∀ n, valueLen (frames depth) s depth = .ok n → 1 ≤ n ∧ n ≤ s.bytes.length) ∧
    (∀ obj key, Safe (objGetRaw obj key) ∧
      ∀ v, objGetRaw obj key = .ok (some v) → v.PartOf obj) ∧
    ∀ body, Safe (parseRequest ⟨0, body⟩) ∧ ∀ q, parseRequest ⟨0, body⟩ = .ok q →
      ∀ s ∈ q.spans, s.start + s.bytes.length ≤ body.length ∧
        (body.drop s.start).take s.bytes.length = s.bytes := by
  refine ⟨fun s depth => ⟨(valueLen_frames s depth).safe, fun n hn => ?_⟩,
    fun obj key => ⟨?_, fun v hv => ?_⟩,
    fun body => ⟨(parseRequest_agrees body).safe, fun q hq s hs => ?_⟩⟩
  · rcases (valueLen_frames s depth).cases with ⟨n', m, hn', -, -, hbounds⟩ | ⟨e, he, -⟩
    · rw [hn', Except.ok.injEq] at hn
      exact hn ▸ hbounds
    · rw [he] at hn
      cases hn
  · intro f hf
    rw [(objGetRaw_agrees obj key).1] at hf
    cases hf
  · obtain ⟨heq, hall⟩ := objGetRaw_agrees obj key
    rw [heq, Except.ok.injEq] at hv
    exact hall v hv
  · rcases (parseRequest_agrees body).cases with ⟨q', r, hq', -, -, hspans⟩ | ⟨e, he, -⟩
    · rw [hq', Except.ok.injEq] at hq
      exact (hspans s (hq ▸ hs)).of_text
    · rw [he] at hq
      cases hq

end Wari.Offsets
