import Mathlib.Algebra.Ring.Int.Defs
import Wari.Lib.Slice

/-!
# JSON-RPC requests

A request is not parsed into a tree: a skipper finds where a value ends, and a lookup walks
the members of an object until it finds the key. Where the source counts bytes from the
start of a text, what is left of the text stands for the count.
-/

namespace Wari

open Lib (Bytes Slice ascii)

/-- The nesting of brackets that is accepted. -/
def maxDepth : ℕ := 16

/-- Why a text is refused, as the error enumeration of the source has it. -/
inductive McpError where
  /-- not the JSON shape required here -/
  | badJson
  /-- nested deeper than `maxDepth` -/
  | tooDeep
  /-- not a JSON-RPC 2.0 request -/
  | badRequest
  /-- a string needs borrowing but has escapes -/
  | escapedString
  /-- a number is not a valid `i64` -/
  | badNumber
  deriving DecidableEq, Repr

/-! ## Characters

The bytes that have a meaning to the skipper. All others are part of strings, numbers or names. -/

def quote : BitVec 8 := 0x22#8
def backslash : BitVec 8 := 0x5C#8
def comma : BitVec 8 := 0x2C#8
def colon : BitVec 8 := 0x3A#8
def openBrace : BitVec 8 := 0x7B#8
def closeBrace : BitVec 8 := 0x7D#8
def openBracket : BitVec 8 := 0x5B#8
def closeBracket : BitVec 8 := 0x5D#8

/-- White space is a blank, a tab, a carriage return or a line feed. -/
def isSpace (c : BitVec 8) : Bool := c = 0x20#8 ∨ c = 0x09#8 ∨ c = 0x0D#8 ∨ c = 0x0A#8

/-- What ends a number, `true`, `false` or `null`. -/
def isDelimiter (c : BitVec 8) : Bool :=
  c = comma ∨ c = closeBrace ∨ c = closeBracket ∨ isSpace c

/-- A text without the white space at its start. -/
def trimStart (s : Bytes) : Bytes := s.dropWhile isSpace

/-- A text without the white space at both ends. -/
def trim (s : Bytes) : Bytes := (trimStart s).rdropWhile isSpace

/-! ## The skipper

The skipper does not check what it skips beyond what it needs to find the end, so it accepts more
than JSON. Here it works on what is left of a text; `Offsets` has the indices of the source. -/

/-- The rest of a string, from inside: what is after its closing quote, and whether there
was an escape. -/
def scanString : Bytes → Bool → Except McpError (Bytes × Bool)
  | [], _ => .error .badJson
  | c :: rest, escaped =>
    if c = backslash then
      match rest with
      | [] => .error .badJson
      | _ :: rest => scanString rest true
    else if c = quote then .ok (rest, escaped)
    else scanString rest escaped

/-- What is after the string that starts at the quote the text starts with. -/
def stringEnd (s : Bytes) : Except McpError (Bytes × Bool) := scanString (s.drop 1) false

/-- What closes an object, or else an array. -/
def closer (isObject : Bool) : BitVec 8 := if isObject then closeBrace else closeBracket

/-- What is after one element, or after one pair of key and value. -/
def elementEnd (valueEnd : Bytes → Except McpError Bytes) (isObject : Bool) (s : Bytes) :
    Except McpError Bytes :=
  if isObject then
    match valueEnd s with
    | .error e => .error e
    | .ok rest =>
      match trimStart rest with
      | [] => .error .badJson
      | c :: rest => if c = colon then valueEnd (trimStart rest) else .error .badJson
  else valueEnd s

/-- What is after the closing bracket, from inside an object or an array. There is at most
one turn for each byte. -/
def elementsEnd (valueEnd : Bytes → Except McpError Bytes) (isObject : Bool) :
    ℕ → Bytes → Except McpError Bytes
  | 0, _ => .error .badJson
  | n + 1, s =>
    match trimStart s with
    | [] => .error .badJson
    | c :: rest =>
      if c = closer isObject then .ok rest
      else
        match elementEnd valueEnd isObject (c :: rest) with
        | .error e => .error e
        | .ok rest =>
          match trimStart rest with
          | [] => .error .badJson
          | c :: rest =>
            if c = comma then elementsEnd valueEnd isObject n (trimStart rest)
            else if c = closer isObject then .ok rest
            else .error .badJson

/-- What is after a number, `true`, `false` or `null`: they run to a delimiter. -/
def literalEnd (s : Bytes) : Except McpError Bytes :=
  let rest := s.dropWhile fun c => !isDelimiter c
  if rest.length = s.length then .error .badJson else .ok rest

/-- What is after the value at the start of the text, with this many levels of nesting to
go. -/
def valueEnd : ℕ → Bytes → Except McpError Bytes
  | 0, _ => .error .tooDeep
  | levels + 1, s =>
    match s with
    | [] => .error .badJson
    | c :: rest =>
      if c = quote then (stringEnd s).map Prod.fst
      else if c = openBrace then elementsEnd (valueEnd levels) true (rest.length + 1) rest
      else if c = openBracket then elementsEnd (valueEnd levels) false (rest.length + 1) rest
      else literalEnd s

/-- The length of the value at the start of the text. -/
def valueLen (s : Bytes) (depth : ℕ) : Except McpError ℕ :=
  (valueEnd (maxDepth + 1 - depth) s).map fun rest => s.length - rest.length

/-- The contents of the string without escapes at the start of the text, and what is after
it. -/
def takeString (s : Bytes) : Except McpError (Bytes × Bytes) :=
  if s.head? ≠ some quote then .error .badJson
  else
    match stringEnd s with
    | .error e => .error e
    | .ok (rest, escaped) =>
      if escaped then .error .escapedString
      else .ok ((s.drop 1).take (s.length - rest.length - 2), rest)

/-! ## Members of an object

A lookup compares the keys it can borrow, and goes on behind the value of any other. -/

/-- The value of the first member with the key, from between the braces on, and what is
after it. There is at most one turn for each byte. -/
def lookupFrom (key : Bytes) : ℕ → Bytes → Option (Bytes × Bytes)
  | 0, _ => none
  | n + 1, cur =>
    if cur = [] then none
    else
      match takeString cur with
      | .error _ => none
      | .ok (k, rest) =>
        match trimStart rest with
        | [] => none
        | c :: rest =>
          if c ≠ colon then none
          else
            let rest := trimStart rest
            match valueLen rest 0 with
            | .error _ => none
            | .ok vlen =>
              let v := rest.take vlen
              let rest := rest.drop vlen
              if k = key then some (v, rest)
              else
                match trimStart rest with
                | [] => none
                | c :: rest => if c = comma then lookupFrom key n (trimStart rest) else none

/-- What is between the braces of an object. -/
def inner? (s : Bytes) : Option Bytes :=
  match s with
  | [] => none
  | c :: rest =>
    if c = openBrace ∧ rest.getLast? = some closeBrace then some rest.dropLast else none

/-- **The raw span of a member's value**, or `none`, also where the object is malformed before the
member. -/
def objGetRaw (obj key : Bytes) : Option Slice :=
  match inner? (trim obj) with
  | none => none
  | some inner =>
    (lookupFrom key (inner.length + 1) (trimStart inner)).map fun (v, rest) =>
      -- where it starts: after the white space and the brace, and what was passed over
      ⟨obj.length - (trimStart obj).length + 1 + (inner.length - rest.length - v.length), v⟩

/-! ## Requests

Four members are looked up. The id is kept as it is written, so that the response can repeat it.
-/

/-- The contents of a string without escapes. Anything behind the string but white space is an
error. -/
def asStr (raw : Bytes) : Except McpError Bytes :=
  match takeString (trim raw) with
  | .error e => .error e
  | .ok (s, rest) => if trim rest ≠ [] then .error .badJson else .ok s

/-- Read digits after a number; `i64` bounds it. -/
def parseDigits : ℤ → Bytes → Except McpError ℤ
  | n, [] => .ok n
  | n, b :: bs =>
    if 0x30#8 ≤ b ∧ b ≤ 0x39#8 then
      let n := n * 10 + (b - 0x30#8).toNat
      if n ≤ 2 ^ 63 - 1 then parseDigits n bs else .error .badNumber
    else .error .badNumber

/-- A number without a fraction: an optional sign, and at most 19 digits. -/
def parseI64 (s : Bytes) : Except McpError ℤ :=
  let neg : Bool := s.head? = some 0x2D#8
  let digits := if neg then s.drop 1 else s
  if digits = [] ∨ 19 < digits.length then .error .badNumber
  else (parseDigits 0 digits).map fun n => if neg then -n else n

/-- The object that is the text, trimmed. Nothing but white space may follow it. -/
def objectSpan (s : Bytes) : Except McpError Bytes :=
  let t := trim s
  if t.head? ≠ some openBrace then .error .badRequest
  else
    match valueLen t 0 with
    | .error e => .error e
    | .ok len => if trim (t.drop len) ≠ [] then .error .badJson else .ok (t.take len)

/-- The id of a request, which has to be echoed in the response. -/
inductive Id where
  | int (n : ℤ)
  | str (s : Bytes)
  | null
  /-- no id: a notification, the peer expects no response -/
  | absent
  deriving DecidableEq, Repr

/-- A request, with its parameters left unparsed. -/
structure RpcRequest where
  id : Id
  method : Bytes
  /-- the raw span of the value of `params` -/
  params : Option Slice
  deriving DecidableEq, Repr

/-- The id, from its raw span: `null`, a string or a number, or none at all. -/
def parseId : Option Slice → Except McpError Id
  | none => .ok .absent
  | some raw =>
    if raw.bytes = ascii ['n', 'u', 'l', 'l'] then .ok .null
    else if raw.bytes.head? = some quote then (asStr raw.bytes).map .str
    else (parseI64 raw.bytes).map .int

/-- The key of the id. -/
def idKey : Bytes := ascii ['i', 'd']

/-- The key of the parameters. -/
def paramsKey : Bytes := ascii ['p', 'a', 'r', 'a', 'm', 's']

/-- **Parse one JSON-RPC 2.0 request**: the version is checked, then the method, then the id and
the parameters are looked up. -/
def parseRequest (body : Bytes) : Except McpError RpcRequest :=
  match objectSpan body with
  | .error e => .error e
  | .ok obj =>
    match objGetRaw obj (ascii ['j', 's', 'o', 'n', 'r', 'p', 'c']) with
    | none => .error .badRequest
    | some ver =>
      match asStr ver.bytes with
      | .error e => .error e
      | .ok ver =>
        if ver ≠ ascii ['2', '.', '0'] then .error .badRequest
        else
          match objGetRaw obj (ascii ['m', 'e', 't', 'h', 'o', 'd']) with
          | none => .error .badRequest
          | some method =>
            match asStr method.bytes with
            | .error e => .error e
            | .ok method =>
              match parseId (objGetRaw obj idKey) with
              | .error e => .error e
              | .ok id =>
                -- the span of a value, in the body
                let lead := body.length - (trimStart body).length
                .ok ⟨id, method, (objGetRaw obj paramsKey).map (Slice.shift lead)⟩

end Wari
