import Wari.HttpLines
import Wari.Lib.Decimal
import Wari.Lib.Writer

/-!
# HTTP responses

A response is written into a buffer: the status line, the headers this server has, and the
body. Its text is said apart from the writer (`responseText`), which writes all of it or, where
it does not fit, returns nothing.
-/

namespace Wari.Http

open Lib (Bytes ascii Writer Stop)

/-! ## Statuses

The statuses a response can have, and the line that each begins it with. -/

inductive Status where
  | ok
  /-- no body, as for a notification -/
  | accepted
  | badRequest
  | notFound
  | methodNotAllowed
  | payloadTooLarge
  | internalError
  deriving DecidableEq, Repr

def Status.line : Status → Bytes
  | ok => ascii "HTTP/1.1 200 OK\r\n".toList
  | accepted => ascii "HTTP/1.1 202 Accepted\r\n".toList
  | badRequest => ascii "HTTP/1.1 400 Bad Request\r\n".toList
  | notFound => ascii "HTTP/1.1 404 Not Found\r\n".toList
  | methodNotAllowed => ascii "HTTP/1.1 405 Method Not Allowed\r\n".toList
  | payloadTooLarge => ascii "HTTP/1.1 413 Payload Too Large\r\n".toList
  | internalError => ascii "HTTP/1.1 500 Internal Server Error\r\n".toList

/-! ## The writer

The steps of the source, on a writer that stops at the first piece it has no room for. -/

/-- Write a number. Its digits are put into a buffer of 20 bytes, from the end. -/
def putDecimal (v : ℕ) (w : Writer) : Except Stop Writer :=
  match Lib.Decimal.fill 20 v [] with
  | some (_, digits) => w.put digits
  | none => .error .panics

/-- The type of the body, which is left out where the body is empty. -/
def putContentType (contentType body : Bytes) (w : Writer) : Except Stop Writer :=
  if body ≠ [] then do
    let w ← w.put (ascii "content-type: ".toList)
    let w ← w.put contentType
    w.put (ascii "\r\n".toList)
  else .ok w

/-- The steps of `respond`, each of which may run out of room. -/
def writeResponse (status : Status) (contentType body : Bytes) (w : Writer) :
    Except Stop Writer := do
  let w ← w.put status.line
  let w ← putContentType contentType body w
  let w ← w.put (ascii "content-length: ".toList)
  let w ← putDecimal body.length w
  let w ← w.put (ascii "\r\nconnection: close\r\n\r\n".toList)
  w.put body

/-- **Build a response**: its length, if it fits, and the buffer. `none` is a panic. -/
def respond (out : Bytes) (status : Status) (contentType body : Bytes) :
    Option (Option ℕ × Bytes) :=
  match writeResponse status contentType body (.new out) with
  | .ok w => some (some w.len, w.out)
  | .error (.full w) => some (none, w.out)
  | .error .panics => none

/-! ## The text

The response as a concatenation. -/

/-- The header with the type of a body, if there is one. -/
def contentTypeText (contentType body : Bytes) : Bytes :=
  if body = [] then [] else ascii "content-type: ".toList ++ (contentType ++ crlf)

/-- The header with the length of a body. -/
def contentLengthText (body : Bytes) : Bytes :=
  ascii "content-length: ".toList ++ (Lib.Decimal.numeral body.length ++ crlf)

/-- The text of a response, as a concatenation, to compare with what the steps write. -/
def responseText (status : Status) (contentType body : Bytes) : Bytes :=
  status.line ++ (contentTypeText contentType body ++ (contentLengthText body ++
    (ascii "connection: close\r\n".toList ++ (crlf ++ body))))

/-! ## What is written

What a sequence of writes leaves in the buffer is the concatenation of the pieces, as far as they
fit. -/

/-- A number is written as its decimal numeral, without leading zeros. -/
theorem putDecimal_writes {v : ℕ} (hv : v < 10 ^ 20) :
    Writer.Writes (putDecimal v) (Lib.Decimal.numeral v) := by
  have hput : putDecimal v = fun w => w.put (Lib.Decimal.numeral v) := by
    funext w
    rw [putDecimal, Lib.Decimal.fill_eq [] (by decide) hv, List.append_nil]
  rw [hput]
  exact Writer.writes_put _

/-- Writing nothing succeeds in any room. -/
theorem writes_nothing : Writer.Writes Except.ok [] := by
  intro out done w h
  rw [List.append_nil]
  exact .inl ⟨h.fits, w, rfl, h⟩

theorem putContentType_writes (contentType body : Bytes) :
    Writer.Writes (putContentType contentType body) (contentTypeText contentType body) := by
  by_cases hbody : body = []
  · have hput : putContentType contentType body = Except.ok := by
      funext w
      rw [putContentType, if_neg (not_not.mpr hbody)]
    rw [hput, contentTypeText, if_pos hbody]
    exact writes_nothing
  · have hput : putContentType contentType body =
        ((fun w => w.put (ascii "content-type: ".toList)) >=>
          ((fun w => w.put contentType) >=> fun w => w.put (ascii "\r\n".toList))) := by
      funext w
      rw [putContentType, if_pos hbody]
      rfl
    rw [hput, contentTypeText, if_neg hbody]
    exact (Writer.writes_put _).comp ((Writer.writes_put _).comp (Writer.writes_put _))

/-- **The steps write the text**, or the part of it that fits, so that a response is cut off at
most at its end. -/
theorem writeResponse_writes (status : Status) (contentType : Bytes) {body : Bytes}
    (hbody : body.length < 10 ^ 20) :
    Writer.Writes (writeResponse status contentType body)
      (responseText status contentType body) := by
  have htext : responseText status contentType body =
      status.line ++ (contentTypeText contentType body ++ (ascii "content-length: ".toList ++
        (Lib.Decimal.numeral body.length ++
          (ascii "\r\nconnection: close\r\n\r\n".toList ++ body)))) := by
    have hclose : ascii "\r\nconnection: close\r\n\r\n".toList =
        crlf ++ (ascii "connection: close\r\n".toList ++ crlf) := by decide
    rw [responseText, contentLengthText, hclose]
    simp only [List.append_assoc]
  rw [htext]
  exact (Writer.writes_put _).comp ((putContentType_writes contentType body).comp
    ((Writer.writes_put _).comp ((putDecimal_writes hbody).comp
      ((Writer.writes_put _).comp (Writer.writes_put _)))))

/-! ## The length

The number in the header, read back by the parser of this server. -/

/-- The digits of a numeral come to the number. -/
theorem decimal_numeral (n : ℕ) : decimal (Lib.Decimal.numeral n) = n := Lib.Decimal.value_numeral n

/-- **A numeral of at most ten digits** is parsed as its number, which ties the length a response
declares to its body. -/
theorem parseDecimal_numeral {usize : Usize} {n : ℕ} (hn : n < 10 ^ 10) (hmax : n ≤ usize.max) :
    parseDecimal usize (Lib.Decimal.numeral n) = some n := by
  have hlen : (Lib.Decimal.numeral n).length ≤ 10 :=
    Lib.Decimal.length_numeral_le (by decide) hn
  have hshape : ¬ (Lib.Decimal.numeral n = [] ∨ 10 < (Lib.Decimal.numeral n).length) := by
    rintro (hnil | hlong)
    · exact Lib.Decimal.numeral_ne_nil n hnil
    · omega
  have hall : ∀ c ∈ Lib.Decimal.numeral n, isAsciiDigit c = true := fun c hc => by
    simpa [isAsciiDigit, Lib.Decimal.IsDigit] using Lib.Decimal.isDigit_numeral n c hc
  have hadd := @addDigits_eq usize (Lib.Decimal.numeral n) 0 hall (by
    rwa [Nat.zero_mul, Nat.zero_add, decimal_numeral])
  rw [Nat.zero_mul, Nat.zero_add, decimal_numeral] at hadd
  rw [parseDecimal, if_neg hshape, hadd]

/-! ## The response

For every status, type, body and buffer. -/

/-- **A response is written exactly.** It is in the buffer where it fits, and nothing behind it
is changed; where it does not, `respond` returns nothing, and the buffer is no longer or
shorter for it. The length in its header is parsed as the length of the body. -/
theorem respond_exact (usize : Usize) (out : Bytes) (status : Status) (contentType body : Bytes)
    (hbody : body.length ≤ usize.max) :
    (((responseText status contentType body).length ≤ out.length ∧
        respond out status contentType body =
          some (some (responseText status contentType body).length,
            responseText status contentType body ++
              out.drop (responseText status contentType body).length)) ∨
      (out.length < (responseText status contentType body).length ∧
        ∃ out', respond out status contentType body = some (none, out') ∧
          out'.length = out.length)) ∧
    decimal (Lib.Decimal.numeral body.length) = body.length ∧
    (body.length < 10 ^ 10 →
      parseDecimal usize (Lib.Decimal.numeral body.length) = some body.length) := by
  have hmax : usize.max < 10 ^ 20 := by cases usize <;> decide
  refine ⟨?_, decimal_numeral _, fun hten => parseDecimal_numeral hten hbody⟩
  rw [respond]
  rcases (writeResponse_writes status contentType (hbody.trans_lt hmax)).run out with
    ⟨hfits, w, hw, hlen, hout⟩ | ⟨hfull, w, hw, hout⟩
  · rw [hw]
    exact .inl ⟨hfits, by simp [hlen, hout]⟩
  · rw [hw]
    exact .inr ⟨hfull, w.out, rfl, hout⟩

/-- An error with its text, and room for it. -/
theorem respond_exact_notFound :
    let body := ascii "no such tool".toList
    let contentType := ascii "text/plain".toList
    let out := List.replicate 160 0#8
    ((responseText .notFound contentType body).length ≤ out.length ∧
        respond out .notFound contentType body =
          some (some (responseText .notFound contentType body).length,
            responseText .notFound contentType body ++
              out.drop (responseText .notFound contentType body).length) ∨
      (out.length < (responseText .notFound contentType body).length ∧
        ∃ out', respond out .notFound contentType body = some (none, out') ∧
          out'.length = out.length)) ∧
    decimal (Lib.Decimal.numeral body.length) = body.length ∧
    (body.length < 10 ^ 10 →
      parseDecimal .bits32 (Lib.Decimal.numeral body.length) = some body.length) :=
  respond_exact .bits32 (List.replicate 160 0#8) .notFound (ascii "text/plain".toList)
    (ascii "no such tool".toList) (by decide)

end Wari.Http
