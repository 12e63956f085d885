import Wari.HttpLines

/-!
# The grammar of requests

A request is a request line, header lines, an empty line and a body. A parse goes through
stages: some complete lines, and then a line that has not ended, a line that is refused, or
the empty line. From the stages comes what the parser accepts: exactly the grammar.
-/

namespace Wari.Http

open Lib (Bytes Slice)

variable {usize : Usize}

/-! ## One line of the loop

What the loop makes of its next line, by what the line is. -/

section Loop

variable {room cursor : ℕ} {line s : Bytes} {cl : Option ℕ} {headers : List Header}

theorem headersFrom_open (h : NoCrlf s) : headersFrom usize room cursor s cl headers =
    if maxHeaderLine < s.length then .error .lineTooLong else .ok none := by
  rw [headersFrom.eq_def, findCrlf_none h]

theorem headersFrom_end : headersFrom usize room cursor (crlf ++ s) cl headers =
    .ok (some ⟨headers, cl, cursor + 2, s⟩) := by
  have hfind := findCrlf_line noCrlf_nil s
  rw [List.nil_append] at hfind
  rw [headersFrom.eq_def, hfind]
  rfl

theorem headersFrom_long (h : NoCrlf line) (hlong : maxHeaderLine < line.length) :
    headersFrom usize room cursor (line ++ (crlf ++ s)) cl headers = .error .lineTooLong := by
  have hne : line.length ≠ 0 := by omega
  rw [headersFrom.eq_def, findCrlf_line h]
  simp only [if_neg hne, if_pos hlong]

section Line

variable (h : NoCrlf line) (hne : line ≠ []) (hlen : line.length ≤ maxHeaderLine)

include h hne hlen

theorem headersFrom_refused {e : HttpError}
    (hline : headerLine usize ⟨cursor, line⟩ cl = .error e) :
    headersFrom usize room cursor (line ++ (crlf ++ s)) cl headers = .error e := by
  have hpos : line.length ≠ 0 := fun h' => hne (List.length_eq_zero_iff.mp h')
  rw [headersFrom.eq_def, findCrlf_line h]
  simp only [if_neg hpos, if_neg (Nat.not_lt.mpr hlen), List.take_left, hline]

theorem headersFrom_full {header : Header} {cl' : Option ℕ}
    (hline : headerLine usize ⟨cursor, line⟩ cl = .ok (header, cl')) :
    headersFrom usize 0 cursor (line ++ (crlf ++ s)) cl headers = .error .tooManyHeaders := by
  have hpos : line.length ≠ 0 := fun h' => hne (List.length_eq_zero_iff.mp h')
  rw [headersFrom.eq_def, findCrlf_line h]
  simp only [if_neg hpos, if_neg (Nat.not_lt.mpr hlen), List.take_left, hline]

theorem headersFrom_line {header : Header} {cl' : Option ℕ}
    (hline : headerLine usize ⟨cursor, line⟩ cl = .ok (header, cl')) :
    headersFrom usize (room + 1) cursor (line ++ (crlf ++ s)) cl headers =
      headersFrom usize room (cursor + line.length + 2) s cl' (headers ++ [header]) := by
  have hpos : line.length ≠ 0 := fun h' => hne (List.length_eq_zero_iff.mp h')
  have hdrop : (line ++ (crlf ++ s)).drop (line.length + 2) = s := by
    rw [← List.drop_drop, List.drop_left, crlf]
    rfl
  rw [headersFrom.eq_def, findCrlf_line h]
  simp only [if_neg hpos, if_neg (Nat.not_lt.mpr hlen), List.take_left, hline, hdrop]

end Line

end Loop

/-! ## The lines before the body

The loop after any number of lines it has accepted, so that one more can be looked at by itself.
-/

/-- A header line as it may stand in a request: well formed, on one line, and not too long. -/
structure HeaderText.Valid (h : HeaderText) : Prop extends h.WellFormed where
  line : NoCrlf h.text
  length : h.text.length ≤ maxHeaderLine

structure RequestLine.Valid (l : RequestLine) : Prop extends l.WellFormed where
  line : NoCrlf l.text
  length : l.text.length ≤ maxRequestLine

def headerLines (hs : List HeaderText) : Bytes := hs.flatMap fun h => h.text ++ crlf

/-- The headers, in lines from the offset `o` on, each line ended by two bytes. -/
def headerSpans : ℕ → List HeaderText → List Header
  | _, [] => []
  | o, h :: hs => h.span o :: headerSpans (o + h.text.length + 2) hs

/-- The values given for the content-length, of which there may be several. -/
def lengths (hs : List HeaderText) : List Bytes := hs.flatMap HeaderText.lengths

theorem headerLines_concat (hs : List HeaderText) (h : HeaderText) :
    headerLines (hs ++ [h]) = headerLines hs ++ (h.text ++ crlf) := by
  simp [headerLines]

theorem headerSpans_concat (o : ℕ) (hs : List HeaderText) (h : HeaderText) :
    headerSpans o (hs ++ [h]) =
      headerSpans o hs ++ [h.span (o + (headerLines hs).length)] := by
  induction hs generalizing o with
  | nil => rfl
  | cons x hs ih =>
    have hlen : (headerLines (x :: hs)).length =
        x.text.length + 2 + (headerLines hs).length := by
      rw [headerLines, List.flatMap_cons, List.length_append, List.length_append, headerLines]
      rfl
    rw [List.cons_append, headerSpans, ih, headerSpans, hlen, List.cons_append]
    simp only [Nat.add_assoc]

theorem lengths_concat (hs : List HeaderText) (h : HeaderText) :
    lengths (hs ++ [h]) = lengths hs ++ h.lengths := by
  simp [lengths]

theorem HeaderText.text_ne (h : HeaderText) : h.text ≠ [] := by
  simp [HeaderText.text]

/-- Header lines that were accepted, and the content-length they declare. There are at most
sixteen, each valid, and no two declare a length. -/
structure Begun (hs : List HeaderText) (cl : Option ℕ) : Prop where
  valid : ∀ h ∈ hs, h.Valid
  count : hs.length ≤ maxHeaders
  declared : Declared (lengths hs) cl

theorem Begun.nil : Begun [] none := ⟨nofun, Nat.zero_le _, .absent⟩

theorem Declared.of_append {vs ws : List Bytes} {cl : Option ℕ} (h : Declared (vs ++ ws) cl) :
    ∃ cl', Declared vs cl' := by
  rcases vs with _ | ⟨v, vs⟩
  · exact ⟨none, .absent⟩
  · have hone := h.length_le
    rw [List.length_append, List.length_cons] at hone
    obtain rfl : ws = [] := List.length_eq_zero_iff.mp (by omega)
    rw [List.append_nil] at h
    exact ⟨cl, h⟩

theorem Begun.init {hs : List HeaderText} {h : HeaderText} {cl : Option ℕ}
    (hb : Begun (hs ++ [h]) cl) : ∃ cl', Begun hs cl' := by
  have hdecl := hb.declared
  have hcount := hb.count
  rw [lengths_concat] at hdecl
  rw [List.length_append, List.length_singleton] at hcount
  obtain ⟨cl', hcl'⟩ := hdecl.of_append
  exact ⟨cl', fun x hx => hb.valid x (List.mem_append_left _ hx), by omega, hcl'⟩

theorem Begun.concat {hs : List HeaderText} {h : HeaderText} {cl cl' : Option ℕ}
    (hb : Begun hs cl) (hh : h.Valid) (hroom : hs.length < maxHeaders)
    (hdecl : Declared (lengths hs ++ h.lengths) cl') : Begun (hs ++ [h]) cl' := by
  refine ⟨fun x hx => ?_, by simpa using hroom, by rwa [lengths_concat]⟩
  rcases List.mem_append.mp hx with hx | hx
  · exact hb.valid x hx
  · rwa [List.mem_singleton.mp hx]

/-- The loop, after these header lines: they began at `o`, and `s` is what is left. -/
def headersAfter (usize : Usize) (o : ℕ) (hs : List HeaderText) (cl : Option ℕ) (s : Bytes) :
    Except HttpError (Option Head) :=
  headersFrom usize (maxHeaders - hs.length) (o + (headerLines hs).length) s cl
    (headerSpans o hs)

section After

variable {o : ℕ} {hs : List HeaderText} {cl : Option ℕ} {line s : Bytes}

/-- **One more header line** is read, and the state goes from what was begun to what is now begun.
-/
theorem headersAfter_line (hb : Begun hs cl) {h : HeaderText} {cl' : Option ℕ}
    (hb' : Begun (hs ++ [h]) cl') (s : Bytes) :
    headersAfter usize o hs cl (h.text ++ (crlf ++ s)) =
      headersAfter usize o (hs ++ [h]) cl' s := by
  have hh : h.Valid := hb'.valid h (List.mem_append_right _ List.mem_cons_self)
  have hdecl := hb'.declared
  have hcount := hb'.count
  rw [lengths_concat] at hdecl
  rw [List.length_append, List.length_singleton] at hcount
  have hok : headerLine usize ⟨o + (headerLines hs).length, h.text⟩ cl = .ok (_, cl') :=
    (headerLine_ok hb.declared).mpr ⟨h, hh.toWellFormed, rfl, rfl, hdecl⟩
  obtain ⟨room, hroom⟩ : ∃ room, maxHeaders - hs.length = room + 1 :=
    ⟨maxHeaders - hs.length - 1, by omega⟩
  have hroom' : maxHeaders - (hs ++ [h]).length = room := by
    rw [List.length_append, List.length_singleton]
    omega
  have hcursor : o + (headerLines (hs ++ [h])).length =
      o + (headerLines hs).length + h.text.length + 2 := by
    rw [headerLines_concat]
    simp only [List.length_append, crlf, List.length_cons, List.length_nil]
    omega
  rw [headersAfter, hroom, headersFrom_line hh.line h.text_ne hh.length hok, headersAfter,
    hroom', headerSpans_concat, hcursor]

/-- **What one line does**: it is refused, whatever follows, or one more header line was
accepted. -/
theorem headersAfter_cases (usize : Usize) (o : ℕ) (hb : Begun hs cl) (hline : NoCrlf line)
    (hne : line ≠ []) (hlen : line.length ≤ maxHeaderLine) :
    (∃ e, e ≠ .lineTooLong ∧
      ∀ s, headersAfter usize o hs cl (line ++ (crlf ++ s)) = .error e) ∨
    ∃ h cl', h.text = line ∧ Begun (hs ++ [h]) cl' := by
  rcases hok : headerLine usize ⟨o + (headerLines hs).length, line⟩ cl with e | ⟨header, cl'⟩
  · exact .inl ⟨e, headerLine_error hok, fun s => headersFrom_refused hline hne hlen hok⟩
  · obtain ⟨h, hw, rfl, -, hdecl⟩ := (headerLine_ok hb.declared).mp hok
    rcases hroom : maxHeaders - hs.length with _ | room
    · refine .inl ⟨.tooManyHeaders, by decide, fun s => ?_⟩
      rw [headersAfter, hroom]
      exact headersFrom_full hline hne hlen hok
    · exact .inr ⟨h, cl', rfl, hb.concat ⟨hw, hline, hlen⟩ (by omega) hdecl⟩

end After

/-! ## Stages of a parse

How far a buffer gets, told from the front. Every buffer is at one of these, and the parser's
answer can be read off it. -/

section Stages

variable {l : RequestLine} {hs : List HeaderText} {cl : Option ℕ} {s : Bytes}

/-- What is made of the result of the loop. -/
def finish (l : RequestLine) : Except HttpError (Option Head) → Except HttpError Parse
  | .error e => .error e
  | .ok none => .ok .incomplete
  | .ok (some head) => .ok (bodyFrom l.method l.targetSpan head)

theorem parse_requestLine (hl : l.Valid) (s : Bytes) :
    parse usize (l.text ++ (crlf ++ s)) =
      finish l (headersAfter usize (l.text.length + 2) [] none s) := by
  have hok := requestLine_ok.mpr ⟨l, hl.toWellFormed, rfl, rfl, rfl⟩
  have hdrop : (l.text ++ (crlf ++ s)).drop (l.text.length + 2) = s := by
    rw [← List.drop_drop, List.drop_left, crlf]
    rfl
  have hafter : headersFrom usize maxHeaders (l.text.length + 2) s none [] =
      headersAfter usize (l.text.length + 2) [] none s := rfl
  rw [parse, findCrlf_line hl.line]
  simp only [if_neg (Nat.not_lt.mpr hl.length), List.take_left, hok, hdrop, hafter]
  rcases headersAfter usize (l.text.length + 2) [] none s with e | _ | head <;>
  · rfl

/-- **After any header lines**, in any number of steps, the parser is where the lines have brought
it. -/
theorem parse_after (hl : l.Valid) (hb : Begun hs cl) (s : Bytes) :
    parse usize (l.text ++ (crlf ++ (headerLines hs ++ s))) =
      finish l (headersAfter usize (l.text.length + 2) hs cl s) := by
  induction hs using List.reverseRecOn generalizing cl s with
  | nil =>
    cases hb.declared.unique .absent
    exact parse_requestLine hl s
  | append_singleton hs h ih =>
    obtain ⟨cl', hinit⟩ := hb.init
    rw [← headersAfter_line hinit hb, ← ih hinit, headerLines_concat]
    simp only [List.append_assoc]

/-- The complete lines at the front of a buffer, and the cap on the line after them: none yet, or
the request line and some header lines. -/
inductive Start : ℕ → Bytes → Prop
  | nothing : Start maxRequestLine []
  | lines {l : RequestLine} {hs : List HeaderText} {cl : Option ℕ} (hl : l.Valid)
      (hb : Begun hs cl) : Start maxHeaderLine (l.text ++ (crlf ++ headerLines hs))

variable {cap : ℕ} {head line : Bytes}

/-- A line that has not ended is waited for, until it is longer than any line may be. -/
theorem parse_open (usize : Usize) (h : Start cap head) (hs : NoCrlf s) : parse usize (head ++ s) =
    if cap < s.length then .error .lineTooLong else .ok .incomplete := by
  cases h with
  | nothing => rw [List.nil_append, parse, findCrlf_none hs]
  | lines hl hb =>
    simp only [List.append_assoc]
    rw [parse_after hl hb, headersAfter, headersFrom_open hs]
    split <;> rfl

/-- A line that is too long is refused, whatever follows it. -/
theorem parse_long (h : Start cap head) (hline : NoCrlf line) (hlong : cap < line.length)
    (s : Bytes) : parse usize (head ++ (line ++ (crlf ++ s))) = .error .lineTooLong := by
  cases h with
  | nothing =>
    rw [List.nil_append, parse, findCrlf_line hline]
    simp only [if_pos hlong]
  | lines hl hb =>
    simp only [List.append_assoc]
    rw [parse_after hl hb, headersAfter, headersFrom_long hline hlong, finish]

/-- **The empty line** ends the headers: what comes next is the body, at its declared length. -/
theorem parse_headed (hl : l.Valid) (hb : Begun hs cl) (s : Bytes) :
    parse usize (l.text ++ (crlf ++ (headerLines hs ++ (crlf ++ s)))) =
      .ok (bodyFrom l.method l.targetSpan ⟨headerSpans (l.text.length + 2) hs, cl,
        l.text.length + 2 + (headerLines hs).length + 2, s⟩) := by
  rw [parse_after hl hb, headersAfter, headersFrom_end, finish]

/-- **A line of allowed length** is refused, whatever follows, or is one more complete line,
or is the empty line. -/
theorem Start.line_cases (usize : Usize) (h : Start cap head) (hline : NoCrlf line)
    (hlen : line.length ≤ cap) :
    (∃ e, e ≠ .lineTooLong ∧ ∀ s, parse usize (head ++ (line ++ (crlf ++ s))) = .error e) ∨
    Start maxHeaderLine (head ++ (line ++ crlf)) ∨
    line = [] ∧ ∃ (l : RequestLine) (hs : List HeaderText) (cl : Option ℕ), l.Valid ∧
      Begun hs cl ∧ head = l.text ++ (crlf ++ headerLines hs) := by
  cases h with
  | nothing =>
    rcases hok : requestLine ⟨0, line⟩ with e | ⟨m, target⟩
    · refine .inl ⟨e, requestLine_error hok, fun s => ?_⟩
      rw [List.nil_append, parse, findCrlf_line hline]
      simp only [if_neg (Nat.not_lt.mpr hlen), List.take_left, hok]
    · obtain ⟨l, hl, rfl, -, -⟩ := requestLine_ok.mp hok
      exact .inr (.inl (.lines (l := l) ⟨hl, hline, hlen⟩ .nil))
  | @lines l hs cl hl hb =>
    by_cases hne : line = []
    · exact .inr (.inr ⟨hne, l, hs, cl, hl, hb, rfl⟩)
    rcases headersAfter_cases usize (l.text.length + 2) hb hline hne hlen with
      ⟨e, hne, hall⟩ | ⟨h, cl', rfl, hb'⟩
    · refine .inl ⟨e, hne, fun s => ?_⟩
      simp only [List.append_assoc]
      rw [parse_after hl hb, hall, finish]
    · refine .inr (.inl ?_)
      have hlines := Start.lines hl hb'
      rw [headerLines_concat] at hlines
      simpa only [List.append_assoc] using hlines

/-- How far a buffer gets: complete lines, and what stands behind them. -/
inductive Stage (usize : Usize) : Bytes → Prop
  | unfinished {cap : ℕ} {head s : Bytes} (h : Start cap head) (hs : NoCrlf s) :
      Stage usize (head ++ s)
  | long {cap : ℕ} {head line s : Bytes} (h : Start cap head) (hline : NoCrlf line)
      (hlong : cap < line.length) : Stage usize (head ++ (line ++ (crlf ++ s)))
  | refused {line s : Bytes} {e : HttpError} (he : e ≠ .lineTooLong)
      (hall : ∀ s, parse usize (line ++ (crlf ++ s)) = .error e) :
      Stage usize (line ++ (crlf ++ s))
  | headed {l : RequestLine} {hs : List HeaderText} {cl : Option ℕ} {s : Bytes} (hl : l.Valid)
      (hb : Begun hs cl) : Stage usize (l.text ++ (crlf ++ (headerLines hs ++ (crlf ++ s))))

theorem Start.stage (usize : Usize) (h : Start cap head) (s : Bytes) :
    Stage usize (head ++ s) := by
  induction hn : s.length using Nat.strong_induction_on generalizing cap head s with
  | _ n ih =>
    rcases Http.line_cases s with hs | ⟨line, r, rfl, hline⟩
    · exact .unfinished h hs
    by_cases hlong : cap < line.length
    · exact .long h hline hlong
    rcases h.line_cases usize hline (Nat.not_lt.mp hlong) with
      ⟨e, hne, hall⟩ | hnext | ⟨rfl, l, hs, cl, hl, hb, rfl⟩
    · rw [← List.append_assoc]
      refine .refused hne fun s => ?_
      rw [List.append_assoc]
      exact hall s
    · have hshort : r.length < n := by
        rw [← hn]
        simp only [List.length_append, crlf, List.length_cons]
        omega
      have hstage := ih r.length hshort hnext r rfl
      rwa [List.append_assoc, List.append_assoc] at hstage
    · rw [List.nil_append, List.append_assoc, List.append_assoc]
      exact .headed hl hb

/-- **Every buffer is at a stage.** By the lines at its front, as long as they are accepted. -/
theorem stage (usize : Usize) (buf : Bytes) : Stage usize buf :=
  Start.nothing.stage usize buf

end Stages

/-! ## Requests

The grammar as texts that are written, and the theorem that the parser accepts these and no
others. -/

/-- The text of a request, in its parts: what the grammar generates. -/
structure RequestText where
  line : RequestLine
  headers : List HeaderText
  body : Bytes

namespace RequestText

/-- What stands before the body: the request line, the headers, and the empty line. -/
def headText (t : RequestText) : Bytes :=
  t.line.text ++ (crlf ++ (headerLines t.headers ++ crlf))

def text (t : RequestText) : Bytes := t.headText ++ t.body

/-- The request that a text writes, with each slice where the text has it. -/
def request (t : RequestText) : Request :=
  ⟨t.line.method, t.line.targetSpan, headerSpans (t.line.text.length + 2) t.headers,
    ⟨t.headText.length, t.body⟩⟩

structure Valid (t : RequestText) : Prop where
  line : t.line.Valid
  headers : ∀ h ∈ t.headers, h.Valid
  count : t.headers.length ≤ maxHeaders
  body : ∃ cl, Declared (lengths t.headers) cl ∧ t.body.length = cl.getD 0

end RequestText

theorem bodyFrom_complete {m : Method} {target : Slice} {head : Head} {request : Request}
    {consumed : ℕ} (h : bodyFrom m target head = .complete request consumed) :
    head.contentLength.getD 0 ≤ head.rest.length ∧
      request = ⟨m, target, head.headers, ⟨head.cursor,
        head.rest.take (head.contentLength.getD 0)⟩⟩ ∧
      consumed = head.cursor + head.contentLength.getD 0 := by
  rw [bodyFrom] at h
  split at h
  · cases h
  · rename_i hlen
    cases h
    exact ⟨Nat.not_lt.mp hlen, rfl, rfl⟩

theorem RequestText.length_headText (t : RequestText) : t.headText.length =
    t.line.text.length + 2 + (headerLines t.headers).length + 2 := by
  simp only [headText, List.length_append, crlf, List.length_cons, List.length_nil]
  omega

/-- A request and anything behind it parses to that request, and consumes its text only. -/
theorem parse_text (usize : Usize) {t : RequestText} (ht : t.Valid) (rest : Bytes) :
    parse usize (t.text ++ rest) = .ok (.complete t.request t.text.length) := by
  obtain ⟨cl, hdecl, hbody⟩ := ht.body
  have htext : t.text ++ rest =
      t.line.text ++ (crlf ++ (headerLines t.headers ++ (crlf ++ (t.body ++ rest)))) := by
    simp [RequestText.text, RequestText.headText]
  have hlen : ¬ (t.body ++ rest).length < t.body.length := by simp
  rw [htext, parse_headed ht.line ⟨ht.headers, ht.count, hdecl⟩, bodyFrom]
  simp only [← hbody, if_neg hlen, List.take_left, ← RequestText.length_headText]
  rw [RequestText.request, RequestText.text, List.length_append]

/-- The pieces of a request: the target, the body, and the two sides of each header. -/
def Request.slices (r : Request) : List Slice :=
  r.target :: r.body :: r.headers.flatMap fun h => [h.name, h.value]

/-- The piece of the text that a slice says it is. -/
def SliceOf (buf : Bytes) (s : Slice) : Prop :=
  (buf.drop s.start).take s.bytes.length = s.bytes

theorem sliceOf_append {x y z : Bytes} {n : ℕ} (hn : n = x.length) :
    SliceOf (x ++ (y ++ z)) ⟨n, y⟩ := by
  subst hn
  rw [SliceOf, List.drop_left, List.take_left]

theorem sliceOf_headerSpans (hs : List HeaderText) {x z : Bytes} {o : ℕ} (ho : o = x.length) :
    ∀ s ∈ (headerSpans o hs).flatMap fun h => [h.name, h.value],
      SliceOf (x ++ (headerLines hs ++ z)) s := by
  induction hs generalizing x o with
  | nil => nofun
  | cons h hs ih =>
    subst ho
    have htext : x ++ (headerLines (h :: hs) ++ z) =
        (x ++ (h.text ++ crlf)) ++ (headerLines hs ++ z) := by
      simp [headerLines]
    intro s hsmem
    rw [headerSpans, List.flatMap_cons, List.mem_append] at hsmem
    rcases hsmem with hmem | hmem
    · simp only [HeaderText.span, List.mem_cons, List.not_mem_nil, or_false] at hmem
      rcases hmem with rfl | rfl
      · have hname : x ++ (headerLines (h :: hs) ++ z) = x ++ (h.name ++
            (colon :: (h.lead ++ (h.value ++ h.trail)) ++ (crlf ++ (headerLines hs ++ z)))) := by
          simp [headerLines, HeaderText.text]
        rw [hname]
        exact sliceOf_append rfl
      · have hvalue : x ++ (headerLines (h :: hs) ++ z) = (x ++ (h.name ++ colon :: h.lead)) ++
            (h.value ++ (h.trail ++ (crlf ++ (headerLines hs ++ z)))) := by
          simp [headerLines, HeaderText.text]
        rw [hvalue]
        refine sliceOf_append ?_
        simp only [List.length_append, List.length_cons]
        omega
    · rw [htext]
      refine ih ?_ s hmem
      simp only [List.length_append, crlf, List.length_cons, List.length_nil]
      omega

theorem RequestText.sliceOf (t : RequestText) (rest : Bytes) :
    ∀ s ∈ t.request.slices, SliceOf (t.text ++ rest) s := by
  intro s hs
  rw [Request.slices, List.mem_cons, List.mem_cons] at hs
  rcases hs with rfl | rfl | hs
  · have htarget : t.text ++ rest = (t.line.method.bytes ++ [space]) ++ (t.line.target ++
        (space :: t.line.version ++ (crlf ++ (headerLines t.headers ++ crlf)) ++
          (t.body ++ rest))) := by
      simp [RequestText.text, RequestText.headText, RequestLine.text]
    rw [htarget]
    exact sliceOf_append (by simp)
  · rw [RequestText.text, List.append_assoc]
    exact sliceOf_append rfl
  · have hlines : t.text ++ rest = (t.line.text ++ crlf) ++ (headerLines t.headers ++
        (crlf ++ (t.body ++ rest))) := by
      simp [RequestText.text, RequestText.headText]
    rw [hlines]
    exact sliceOf_headerSpans t.headers (by simp [crlf]) s hs

/-- What is accepted is the text of a request, and what follows it. -/
theorem parse_complete_iff {buf : Bytes} {request : Request} {consumed : ℕ} :
    parse usize buf = .ok (.complete request consumed) ↔
      ∃ (t : RequestText) (rest : Bytes), t.Valid ∧ buf = t.text ++ rest ∧
        request = t.request ∧ consumed = t.text.length := by
  constructor
  · intro h
    cases stage usize buf with
    | unfinished hstart hs =>
      rw [parse_open usize hstart hs] at h
      split at h <;> cases h
    | long hstart hline hlong =>
      rw [parse_long hstart hline hlong] at h
      cases h
    | refused he hall =>
      rw [hall] at h
      cases h
    | @headed l hs cl s hl hb =>
      rw [parse_headed hl hb] at h
      obtain ⟨hlen, rfl, rfl⟩ := bodyFrom_complete (Except.ok.inj h)
      have hbody : (s.take (cl.getD 0)).length = cl.getD 0 := List.length_take_of_le hlen
      refine ⟨⟨l, hs, s.take (cl.getD 0)⟩, s.drop (cl.getD 0),
        ⟨hl, hb.valid, hb.count, cl, hb.declared, hbody⟩, ?_, ?_, ?_⟩
      · simp [RequestText.text, RequestText.headText]
      · simp only [RequestText.request, RequestText.length_headText]
      · rw [RequestText.text, List.length_append, RequestText.length_headText, hbody]
  · rintro ⟨t, rest, ht, rfl, rfl, rfl⟩
    exact parse_text usize ht rest

/-- **The parser accepts exactly its grammar**, and returns the pieces of the text. -/
theorem parse_grammar (usize : Usize) (buf : Bytes) :
    (∀ request consumed, parse usize buf = .ok (.complete request consumed) ↔
      ∃ (t : RequestText) (rest : Bytes), t.Valid ∧ buf = t.text ++ rest ∧
        request = t.request ∧ consumed = t.text.length) ∧
      ∀ request consumed, parse usize buf = .ok (.complete request consumed) →
        ∀ s ∈ request.slices, SliceOf buf s := by
  refine ⟨fun request consumed => parse_complete_iff, fun request consumed h => ?_⟩
  obtain ⟨t, rest, -, rfl, rfl, -⟩ := parse_complete_iff.mp h
  exact t.sliceOf rest

end Wari.Http
