import Mathlib.Algebra.GroupWithZero.Nat
import Wari.Lib.Slice

/-!
# HTTP requests

A request is parsed from the front of the bytes received so far, and nothing is kept from
one call to the next: where more bytes are needed, the same buffer is parsed again with them.
Where the source has an index into the buffer, what is left of the buffer there stands for
it.
-/

namespace Wari.Http

open Lib (Bytes Slice ascii)

/-! ## Caps

The bounds of the parser, and its results. -/

def maxHeaders : ℕ := 16
def maxRequestLine : ℕ := 1024
def maxHeaderLine : ℕ := 1024
def maxBody : ℕ := 256 * 1024

/-- Why a request is refused, as the error enumeration of the source has it. -/
inductive HttpError where
  /-- a missing space, an empty target or a bad version -/
  | badRequestLine
  /-- a method that is not supported -/
  | badMethod
  /-- a header line without a colon, folded, or with white space in its name -/
  | badHeader
  /-- more than `maxHeaders` headers -/
  | tooManyHeaders
  /-- a line beyond its cap -/
  | lineTooLong
  /-- a content-length that is no number, given twice, or above `maxBody` -/
  | badContentLength
  deriving DecidableEq, Repr

inductive Method where
  | get
  | post
  | delete
  deriving DecidableEq, Repr

/-- A header. The white space around its value is left out. -/
structure Header where
  name : Slice
  value : Slice
  deriving DecidableEq, Repr

/-- A request, as slices of the buffer. Nothing is copied, and nothing is decoded. -/
structure Request where
  method : Method
  target : Slice
  headers : List Header
  body : Slice
  deriving DecidableEq, Repr

/-- What a buffer parses to: a request and the bytes it takes up, or `Partial`. -/
inductive Parse where
  | complete (request : Request) (consumed : ℕ)
  | incomplete
  deriving DecidableEq, Repr

/-- What a `usize` is: the crate is built for `wasm32` and for the host. -/
inductive Usize where
  | bits32
  | bits64
  deriving DecidableEq, Repr

def Usize.max : Usize → ℕ
  | bits32 => 2 ^ 32 - 1
  | bits64 => 2 ^ 64 - 1

/-! ## Bytes

The characters the grammar is about. Names of headers are compared without regard to case, in
ASCII. -/

def cr : BitVec 8 := 0x0D#8
def lf : BitVec 8 := 0x0A#8
def space : BitVec 8 := 0x20#8
def htab : BitVec 8 := 0x09#8
def colon : BitVec 8 := 0x3A#8

def crlf : Bytes := [cr, lf]

/-- Optional white space is a blank or a tab. -/
def isOws (c : BitVec 8) : Bool := c = space ∨ c = htab

def isAsciiDigit (c : BitVec 8) : Bool := 0x30#8 ≤ c ∧ c ≤ 0x39#8

def toAsciiLowercase (c : BitVec 8) : BitVec 8 :=
  if 0x41#8 ≤ c ∧ c ≤ 0x5A#8 then c + 0x20#8 else c

def eqIgnoreAsciiCase (a b : Bytes) : Bool :=
  a.map toAsciiLowercase = b.map toAsciiLowercase

def contentLengthName : Bytes :=
  ascii ['c', 'o', 'n', 't', 'e', 'n', 't', '-', 'l', 'e', 'n', 'g', 't', 'h']

def Method.bytes : Method → Bytes
  | get => ascii ['G', 'E', 'T']
  | post => ascii ['P', 'O', 'S', 'T']
  | delete => ascii ['D', 'E', 'L', 'E', 'T', 'E']

def http10 : Bytes := ascii ['H', 'T', 'T', 'P', '/', '1', '.', '0']
def http11 : Bytes := ascii ['H', 'T', 'T', 'P', '/', '1', '.', '1']

/-! ## Helpers

The functions of the source on slices. A slice carries its offset in the buffer, since the result
is told in offsets. -/

/-- How far the next CRLF is, if there is one in the buffer yet. -/
def findCrlf : Bytes → Option ℕ
  | [] => none
  | [_] => none
  | c :: d :: rest =>
    if c = cr ∧ d = lf then some 0 else (findCrlf (d :: rest)).map (· + 1)

/-- What is before and after the first separator. -/
def splitOnce (s : Slice) (sep : BitVec 8) : Option (Slice × Slice) :=
  match s.bytes.findIdx? (· = sep) with
  | none => none
  | some i => some (⟨s.start, s.bytes.take i⟩, ⟨s.start + i + 1, s.bytes.drop (i + 1)⟩)

/-- A slice without the white space at its two ends. White space within it stays. -/
def trimOws (v : Slice) : Slice :=
  ⟨v.start + (v.bytes.takeWhile isOws).length, (v.bytes.dropWhile isOws).rdropWhile isOws⟩

/-- The digits one after another; overflow is a refusal. -/
def addDigits (usize : Usize) : ℕ → Bytes → Option ℕ
  | n, [] => some n
  | n, b :: rest =>
    if isAsciiDigit b = false then none
    else if usize.max < n * 10 then none
    else if usize.max < n * 10 + (b - 0x30#8).toNat then none
    else addDigits usize (n * 10 + (b - 0x30#8).toNat) rest

def parseDecimal (usize : Usize) (v : Bytes) : Option ℕ :=
  if v = [] ∨ 10 < v.length then none else addDigits usize 0 v

def methodOf (name : Bytes) : Option Method :=
  if name = Method.get.bytes then some .get
  else if name = Method.post.bytes then some .post
  else if name = Method.delete.bytes then some .delete
  else none

/-! ## Parsing

The request line, then header lines up to the empty one, then the body. Each returns a refusal, or
`none` where the buffer ends too early. -/

/-- The method and the target, from the request line. -/
def requestLine (line : Slice) : Except HttpError (Method × Slice) :=
  match splitOnce line space with
  | none => .error .badRequestLine
  | some (method, rest) =>
    match splitOnce rest space with
    | none => .error .badRequestLine
    | some (target, version) =>
      match methodOf method.bytes with
      | none => .error .badMethod
      | some method =>
        if target.bytes = [] ∨ space ∈ target.bytes then .error .badRequestLine
        else if version.bytes ≠ http11 ∧ version.bytes ≠ http10 then .error .badRequestLine
        else .ok (method, target)

/-- A header line that is not empty, with the content-length given before it and after it. -/
def headerLine (usize : Usize) (line : Slice) (contentLength : Option ℕ) :
    Except HttpError (Header × Option ℕ) :=
  if line.bytes.head? = some space ∨ line.bytes.head? = some htab then .error .badHeader
  else
    match splitOnce line colon with
    | none => .error .badHeader
    | some (name, value) =>
      if name.bytes = [] ∨ name.bytes.any isOws = true then .error .badHeader
      else if eqIgnoreAsciiCase name.bytes contentLengthName = true then
        if contentLength.isSome = true then .error .badContentLength
        else
          match parseDecimal usize (trimOws value).bytes with
          | none => .error .badContentLength
          | some n =>
            if maxBody < n then .error .badContentLength
            else .ok (⟨name, trimOws value⟩, some n)
      else .ok (⟨name, trimOws value⟩, contentLength)

/-- What is known after the empty line: the headers, the content-length, and where the body
starts. -/
structure Head where
  headers : List Header
  contentLength : Option ℕ
  cursor : ℕ
  rest : Bytes
  deriving DecidableEq, Repr

/-- The header lines, with room for this many more headers; `none` is `Partial`. -/
def headersFrom (usize : Usize) (room cursor : ℕ) (rest : Bytes) (contentLength : Option ℕ)
    (headers : List Header) : Except HttpError (Option Head) :=
  match findCrlf rest with
  | none => if maxHeaderLine < rest.length then .error .lineTooLong else .ok none
  | some len =>
    if len = 0 then .ok (some ⟨headers, contentLength, cursor + 2, rest.drop 2⟩)
    else if maxHeaderLine < len then .error .lineTooLong
    else
      match headerLine usize ⟨cursor, rest.take len⟩ contentLength with
      | .error e => .error e
      | .ok (header, contentLength) =>
        match room with
        | 0 => .error .tooManyHeaders
        | room + 1 =>
          headersFrom usize room (cursor + len + 2) (rest.drop (len + 2)) contentLength
            (headers ++ [header])
termination_by structural room

/-- The request that starts with this line, where the body is there. -/
def bodyFrom (method : Method) (target : Slice) (head : Head) : Parse :=
  let bodyLen := head.contentLength.getD 0
  if head.rest.length < bodyLen then .incomplete
  else
    .complete ⟨method, target, head.headers, ⟨head.cursor, head.rest.take bodyLen⟩⟩
      (head.cursor + bodyLen)

/-- The request at the front of the buffer. -/
def parse (usize : Usize) (buf : Bytes) : Except HttpError Parse :=
  match findCrlf buf with
  | none => if maxRequestLine < buf.length then .error .lineTooLong else .ok .incomplete
  | some lineEnd =>
    if maxRequestLine < lineEnd then .error .lineTooLong
    else
      match requestLine ⟨0, buf.take lineEnd⟩ with
      | .error e => .error e
      | .ok (method, target) =>
        match headersFrom usize maxHeaders (lineEnd + 2) (buf.drop (lineEnd + 2)) none [] with
        | .error e => .error e
        | .ok none => .ok .incomplete
        | .ok (some head) => .ok (bodyFrom method target head)

end Wari.Http
