import Wari.Http
import Mathlib.Data.List.Infix
import Mathlib.Data.Nat.Digits.Lemmas

/-!
# Lines of a request

A line ends at its first CRLF, and the name of a header at its first colon. What a request
line, a decimal number and a header line are is said apart from the parser, which is shown
to accept exactly those.
-/

namespace Wari.Http

open Lib (Bytes Slice Trimmed)

variable {usize : Usize}

/-! ## Lines

A line goes up to the first CRLF, so it has none in it; a CR alone or an LF alone is part of it.
-/

/-- A text with no line ending in it. -/
def NoCrlf (s : Bytes) : Prop := ¬ crlf <:+: s

theorem noCrlf_cons_cons {c d : BitVec 8} {s : Bytes} :
    NoCrlf (c :: d :: s) ↔ ¬ (c = cr ∧ d = lf) ∧ NoCrlf (d :: s) := by
  rw [NoCrlf, List.infix_cons_iff, not_or]
  refine and_congr (not_congr ?_) Iff.rfl
  rw [crlf, List.cons_prefix_cons, List.cons_prefix_cons]
  simp [eq_comm]

theorem noCrlf_nil : NoCrlf [] := fun hin => by
  have := hin.length_le
  simp [crlf] at this

theorem noCrlf_short {s : Bytes} (h : s.length ≤ 1) : NoCrlf s := fun hin => by
  have := hin.length_le
  simp only [crlf, List.length_cons, List.length_nil] at this
  omega

theorem NoCrlf.of_append {s t : Bytes} (h : NoCrlf (s ++ t)) : NoCrlf s :=
  fun hin => h (hin.trans (List.prefix_append s t).isInfix)

/-- The first line ending of a line and what follows. -/
theorem findCrlf_line {line : Bytes} (h : NoCrlf line) (s : Bytes) :
    findCrlf (line ++ (crlf ++ s)) = some line.length := by
  have hne : ¬ cr = lf := by decide
  induction line with
  | nil => rw [List.nil_append, crlf, List.cons_append, List.cons_append, findCrlf,
      if_pos ⟨rfl, rfl⟩, List.length_nil]
  | cons c line ih =>
    rcases line with _ | ⟨d, line⟩
    · have hnext := ih (noCrlf_short (by simp))
      rw [List.nil_append] at hnext
      rw [List.singleton_append, crlf, List.cons_append, findCrlf,
        if_neg (fun hc => hne hc.2)]
      rw [crlf, List.cons_append] at hnext
      rw [hnext]
      rfl
    · obtain ⟨hc, hrest⟩ := noCrlf_cons_cons.mp h
      have hnext := ih hrest
      rw [List.cons_append] at hnext
      rw [List.cons_append, List.cons_append, findCrlf, if_neg hc, hnext]
      rfl

/-- Either there is no line ending, or a first line. -/
theorem line_cases (s : Bytes) :
    NoCrlf s ∨ ∃ line r, s = line ++ (crlf ++ r) ∧ NoCrlf line := by
  induction s with
  | nil => exact .inl (noCrlf_short (by simp))
  | cons c s ih =>
    rcases s with _ | ⟨d, s⟩
    · exact .inl (noCrlf_short (by simp))
    · by_cases hc : c = cr ∧ d = lf
      · obtain ⟨rfl, rfl⟩ := hc
        exact .inr ⟨[], s, rfl, noCrlf_short (by simp)⟩
      · rcases ih with hno | ⟨line, r, hs, hline⟩
        · exact .inl (noCrlf_cons_cons.mpr ⟨hc, hno⟩)
        · refine .inr ⟨c :: line, r, by rw [hs, List.cons_append], ?_⟩
          rcases line with _ | ⟨x, line⟩
          · exact noCrlf_short (by simp)
          · obtain rfl : d = x := by simpa using congrArg List.head? hs
            exact noCrlf_cons_cons.mpr ⟨hc, hline⟩

theorem findCrlf_none {s : Bytes} (h : NoCrlf s) : findCrlf s = none := by
  induction s with
  | nil => rfl
  | cons c s ih =>
    rcases s with _ | ⟨d, s⟩
    · rfl
    · obtain ⟨hc, hrest⟩ := noCrlf_cons_cons.mp h
      rw [findCrlf, if_neg hc, ih hrest]
      rfl

/-! ## Pieces of a line

Split at the first separator, and trimmed at both ends. -/

theorem splitOnce_append {o : ℕ} {x y : Bytes} {sep : BitVec 8} (h : sep ∉ x) :
    splitOnce ⟨o, x ++ sep :: y⟩ sep = some (⟨o, x⟩, ⟨o + x.length + 1, y⟩) := by
  have hfind : (x ++ sep :: y).findIdx? (fun c => decide (c = sep)) = some x.length := by
    rw [List.findIdx?_append, List.findIdx?_eq_none_iff.mpr fun c hc => ?_]
    · simp [List.findIdx?_cons]
    · exact decide_eq_false fun heq => h (heq ▸ hc)
  rw [splitOnce, hfind]
  simp

theorem splitOnce_none {o : ℕ} {x : Bytes} {sep : BitVec 8} (h : sep ∉ x) :
    splitOnce ⟨o, x⟩ sep = none := by
  rw [splitOnce, List.findIdx?_eq_none_iff.mpr fun c hc => ?_]
  exact decide_eq_false fun heq => h (heq ▸ hc)

/-- A line has the separator in it, and then it splits at the first one. -/
theorem splitOnce_cases (o : ℕ) (s : Bytes) (sep : BitVec 8) :
    sep ∉ s ∧ splitOnce ⟨o, s⟩ sep = none ∨ ∃ x y, s = x ++ sep :: y ∧ sep ∉ x ∧
      splitOnce ⟨o, s⟩ sep = some (⟨o, x⟩, ⟨o + x.length + 1, y⟩) := by
  by_cases h : sep ∈ s
  · obtain ⟨x, y, rfl, hx⟩ := List.eq_append_cons_of_mem h
    exact .inr ⟨x, y, rfl, hx, splitOnce_append hx⟩
  · exact .inl ⟨h, splitOnce_none h⟩

theorem trimOws_eq {o : ℕ} {w v w' : Bytes} (h : Trimmed isOws w v w') :
    trimOws ⟨o, w ++ (v ++ w')⟩ = ⟨o + w.length, v⟩ := by
  rw [trimOws, h.takeWhile_eq, h.trim_eq]

/-! ## The request line

Method, target and version, with one space between them. Which lines these are is said without the
functions that split them. -/

structure RequestLine where
  method : Method
  target : Bytes
  version : Bytes

namespace RequestLine

def text (l : RequestLine) : Bytes :=
  l.method.bytes ++ space :: (l.target ++ space :: l.version)

structure WellFormed (l : RequestLine) : Prop where
  target_ne : l.target ≠ []
  target : space ∉ l.target
  version : l.version = http10 ∨ l.version = http11

/-- Where the target is: behind the method and one blank. -/
def targetSpan (l : RequestLine) : Slice := ⟨l.method.bytes.length + 1, l.target⟩

end RequestLine

theorem methodOf_bytes (m : Method) : methodOf m.bytes = some m := by cases m <;> decide

theorem methodOf_eq_some {name : Bytes} {m : Method} (h : methodOf name = some m) :
    name = m.bytes := by
  rw [methodOf] at h
  split at h
  · cases h
    assumption
  split at h
  · cases h
    assumption
  split at h
  · cases h
    assumption
  · cases h

theorem space_notMem_bytes (m : Method) : space ∉ m.bytes := by cases m <;> decide

/-- **Request lines.** A line is accepted exactly if it is the text of a well-formed request line,
and with the fields of that. -/
theorem requestLine_ok {line : Bytes} {m : Method} {target : Slice} :
    requestLine ⟨0, line⟩ = .ok (m, target) ↔
      ∃ l : RequestLine, l.WellFormed ∧ l.text = line ∧ m = l.method ∧ target = l.targetSpan := by
  constructor
  · intro h
    rw [requestLine] at h
    rcases splitOnce_cases 0 line space with ⟨-, hnone⟩ | ⟨x, y, rfl, -, hsome⟩
    · rw [hnone] at h
      cases h
    rw [hsome] at h
    simp only at h
    rcases splitOnce_cases (0 + x.length + 1) y space with ⟨-, hnone⟩ | ⟨t, v, rfl, ht, hsome⟩
    · rw [hnone] at h
      cases h
    rw [hsome] at h
    simp only at h
    rcases hm : methodOf x with _ | m'
    · rw [hm] at h
      cases h
    obtain rfl := methodOf_eq_some hm
    rw [hm] at h
    simp only at h
    split at h
    · cases h
    rename_i htarget
    split at h
    · cases h
    rename_i hversion
    cases h
    refine ⟨⟨m, t, v⟩, ⟨fun hnil => htarget (.inl hnil), ht, ?_⟩, rfl, rfl, ?_⟩
    · by_contra hv
      exact hversion ⟨fun h' => hv (.inr h'), fun h' => hv (.inl h')⟩
    · rw [RequestLine.targetSpan, Nat.zero_add]
  · rintro ⟨l, hl, rfl, rfl, rfl⟩
    have htarget : ¬ (l.target = [] ∨ space ∈ l.target) :=
      fun h => h.elim hl.target_ne hl.target
    have hversion : ¬ (l.version ≠ http11 ∧ l.version ≠ http10) :=
      fun h => hl.version.elim h.2 h.1
    rw [requestLine, RequestLine.text, splitOnce_append (space_notMem_bytes l.method)]
    simp only
    rw [splitOnce_append hl.target]
    simp only [methodOf_bytes, if_neg htarget, if_neg hversion, RequestLine.targetSpan,
      Nat.zero_add]

/-- A request line that is refused is not refused for its length. -/
theorem requestLine_error {line : Slice} {e : HttpError} (h : requestLine line = .error e) :
    e ≠ .lineTooLong := by
  rintro rfl
  rw [requestLine] at h
  repeat' split at h
  all_goals cases h

/-! ## Decimal numbers

One to ten digits, and no more than a `usize` holds. -/

def digit (c : BitVec 8) : ℕ := (c - 0x30#8).toNat

/-- The number that a string of digits writes in decimal. -/
def decimal (v : Bytes) : ℕ := Nat.ofDigits 10 (v.map digit).reverse

theorem decimal_cons (c : BitVec 8) (v : Bytes) :
    decimal (c :: v) = digit c * 10 ^ v.length + decimal v := by
  rw [decimal, List.map_cons, List.reverse_cons, Nat.ofDigits_append, Nat.ofDigits_singleton,
    List.length_reverse, List.length_map, decimal]
  ring

/-- One to ten digits, and the number that they write. -/
structure Decimal (v : Bytes) (n : ℕ) : Prop where
  ne_nil : v ≠ []
  length : v.length ≤ 10
  digits : ∀ c ∈ v, isAsciiDigit c = true
  value : n = decimal v

/-- What digits come to behind a number that was read already: it is moved up by as many places.
-/
theorem addDigits_ok {v : Bytes} {n m : ℕ} (h : addDigits usize n v = some m) :
    (∀ c ∈ v, isAsciiDigit c = true) ∧ m = n * 10 ^ v.length + decimal v := by
  induction v generalizing n with
  | nil =>
    cases h
    exact ⟨nofun, by simp [decimal]⟩
  | cons c v ih =>
    rw [addDigits] at h
    split at h
    · cases h
    rename_i hc
    split at h
    · cases h
    split at h
    · cases h
    obtain ⟨hall, rfl⟩ := ih h
    refine ⟨List.forall_mem_cons.mpr ⟨by simpa using hc, hall⟩, ?_⟩
    rw [decimal_cons, List.length_cons, digit]
    ring

/-- Digits that come to what fits are added up. -/
theorem addDigits_eq {v : Bytes} {n : ℕ} (hall : ∀ c ∈ v, isAsciiDigit c = true)
    (hfits : n * 10 ^ v.length + decimal v ≤ usize.max) :
    addDigits usize n v = some (n * 10 ^ v.length + decimal v) := by
  induction v generalizing n with
  | nil => simp [addDigits, decimal]
  | cons c v ih =>
    obtain ⟨hc, hall⟩ := List.forall_mem_cons.mp hall
    have hsum : n * 10 ^ (c :: v).length + decimal (c :: v) =
        (n * 10 + digit c) * 10 ^ v.length + decimal v := by
      rw [decimal_cons, List.length_cons]
      ring
    rw [hsum] at hfits ⊢
    -- what is added up so far is no more than what all of it comes to
    have hsofar : n * 10 + digit c ≤ usize.max :=
      calc n * 10 + digit c
        _ ≤ (n * 10 + digit c) * 10 ^ v.length := Nat.le_mul_of_pos_right _ (by positivity)
        _ ≤ (n * 10 + digit c) * 10 ^ v.length + decimal v := Nat.le_add_right _ _
        _ ≤ usize.max := hfits
    have hten : ¬ usize.max < n * 10 := by omega
    rw [addDigits, if_neg (by rw [hc]; decide), if_neg hten]
    exact (if_neg (Nat.not_lt.mpr hsofar)).trans (ih hall hfits)

theorem maxBody_le_max (usize : Usize) : maxBody ≤ usize.max := by cases usize <;> decide

/-- **Content-lengths** that do not exceed the largest body: read exactly if they are one to ten
digits. -/
theorem parseDecimal_iff {v : Bytes} {n : ℕ} (hn : n ≤ maxBody) :
    parseDecimal usize v = some n ↔ Decimal v n := by
  constructor
  · intro h
    rw [parseDecimal] at h
    split at h
    · cases h
    rename_i hlen
    obtain ⟨hall, rfl⟩ := addDigits_ok h
    exact ⟨fun hv => hlen (.inl hv), Nat.not_lt.mp fun hv => hlen (.inr hv), hall, by simp⟩
  · rintro ⟨hne, hlen, hall, rfl⟩
    have hshape : ¬ (v = [] ∨ 10 < v.length) := by
      rintro (hv | hv)
      · exact hne hv
      · omega
    have hadd := @addDigits_eq usize v 0 hall (by
      rw [Nat.zero_mul, Nat.zero_add]
      exact hn.trans (maxBody_le_max usize))
    rw [parseDecimal, if_neg hshape, hadd, Nat.zero_mul, Nat.zero_add]

/-! ## Header lines

A name that is not empty, a colon, and a value with white space around it. -/

/-- A header line: the name, a colon, and the value with white space around it. -/
structure HeaderText where
  name : Bytes
  lead : Bytes
  value : Bytes
  trail : Bytes

namespace HeaderText

variable (h : HeaderText)

def text : Bytes := h.name ++ colon :: (h.lead ++ (h.value ++ h.trail))

structure WellFormed : Prop where
  name_ne : h.name ≠ []
  name : ∀ c ∈ h.name, c ≠ space ∧ c ≠ htab ∧ c ≠ colon
  value : Trimmed isOws h.lead h.value h.trail

/-- Where the name and the value are, in a line that starts at `o`. -/
def span (o : ℕ) : Header :=
  ⟨⟨o, h.name⟩, ⟨o + h.name.length + 1 + h.lead.length, h.value⟩⟩

/-- The values that a header gives for the content-length: its own, if its name is that one. -/
def lengths : List Bytes :=
  if eqIgnoreAsciiCase h.name contentLengthName = true then [h.value] else []

end HeaderText

/-- The content-length, from all the values given for it: one at most. -/
inductive Declared : List Bytes → Option ℕ → Prop
  | absent : Declared [] none
  | given {v : Bytes} {n : ℕ} (hv : Decimal v n) (hn : n ≤ maxBody) : Declared [v] (some n)

theorem Declared.isSome_iff {vs : List Bytes} {cl : Option ℕ} (h : Declared vs cl) :
    cl.isSome = true ↔ vs ≠ [] := by
  cases h <;> simp

theorem Declared.length_le {vs : List Bytes} {cl : Option ℕ} (h : Declared vs cl) :
    vs.length ≤ 1 := by
  cases h <;> simp

theorem Declared.unique {vs : List Bytes} {cl cl' : Option ℕ} (h : Declared vs cl)
    (h' : Declared vs cl') : cl = cl' := by
  cases h with
  | absent =>
    cases h'
    rfl
  | given hv =>
    cases h' with
    | given hv' => rw [hv.value, hv'.value]

theorem isOws_eq_false {c : BitVec 8} : isOws c = false ↔ c ≠ space ∧ c ≠ htab := by
  simp [isOws]

namespace HeaderText.WellFormed

variable {h : HeaderText} (hw : h.WellFormed)

include hw in
theorem colon_notMem : colon ∉ h.name := fun hc => (hw.name _ hc).2.2 rfl

include hw in
theorem not_ows : ¬ h.name.any isOws = true := by
  rw [List.any_eq_true]
  rintro ⟨c, hc, hows⟩
  rw [isOws_eq_false.mpr ⟨(hw.name c hc).1, (hw.name c hc).2.1⟩] at hows
  cases hows

include hw in
theorem not_folded : ¬ (h.text.head? = some space ∨ h.text.head? = some htab) := by
  obtain ⟨c, name, hname⟩ := List.exists_cons_of_ne_nil hw.name_ne
  have hc := hw.name c (by rw [hname]; exact List.mem_cons_self)
  have hhead : h.text.head? = some c := by rw [HeaderText.text, hname]; rfl
  rw [hhead, Option.some.injEq, Option.some.injEq]
  exact fun hor => hor.elim hc.1 hc.2.1

end HeaderText.WellFormed

/-- **Header lines.** A line is accepted exactly if it is the text of a well-formed header that
agrees with the lengths declared before. -/
theorem headerLine_ok {o : ℕ} {line : Bytes} {vs : List Bytes} {cl cl' : Option ℕ}
    {header : Header} (hcl : Declared vs cl) :
    headerLine usize ⟨o, line⟩ cl = .ok (header, cl') ↔
      ∃ h : HeaderText, h.WellFormed ∧ h.text = line ∧ header = h.span o ∧
        Declared (vs ++ h.lengths) cl' := by
  constructor
  · intro hok
    rw [headerLine] at hok
    split at hok
    · cases hok
    rcases splitOnce_cases o line colon with ⟨-, hnone⟩ | ⟨name, y, rfl, hcolon, hsome⟩
    · rw [hnone] at hok
      cases hok
    obtain ⟨w, v, w', rfl, hv⟩ := Lib.exists_trimmed isOws y
    rw [hsome] at hok
    simp only [trimOws_eq hv] at hok
    split at hok
    · cases hok
    rename_i hname
    rw [not_or, List.any_eq_true] at hname
    have hw : HeaderText.WellFormed ⟨name, w, v, w'⟩ := by
      refine ⟨hname.1, fun c hc => ?_, hv⟩
      have hows : isOws c = false := by
        by_contra h'
        exact hname.2 ⟨c, hc, by simpa using h'⟩
      obtain ⟨hspace, htab⟩ := isOws_eq_false.mp hows
      exact ⟨hspace, htab, fun heq => hcolon (heq ▸ hc)⟩
    refine ⟨⟨name, w, v, w'⟩, hw, rfl, ?_⟩
    rw [HeaderText.lengths]
    split at hok
    · rename_i hlen
      split at hok
      · cases hok
      rename_i hfirst
      rw [hcl.isSome_iff, not_not] at hfirst
      subst hfirst
      rcases hn : parseDecimal usize v with _ | n
      · rw [hn] at hok
        cases hok
      rw [hn] at hok
      simp only at hok
      split at hok
      · cases hok
      rename_i hmax
      cases hok
      rw [if_pos hlen]
      exact ⟨rfl, .given ((parseDecimal_iff (Nat.not_lt.mp hmax)).mp hn) (Nat.not_lt.mp hmax)⟩
    · rename_i hlen
      cases hok
      rw [if_neg hlen, List.append_nil]
      exact ⟨rfl, hcl⟩
  · rintro ⟨h, hw, rfl, rfl, hdecl⟩
    have hname : ¬ (h.name = [] ∨ h.name.any isOws = true) :=
      fun hor => hor.elim hw.name_ne hw.not_ows
    rw [headerLine, if_neg hw.not_folded, HeaderText.text, splitOnce_append hw.colon_notMem]
    simp only [if_neg hname, trimOws_eq hw.value]
    rw [HeaderText.lengths] at hdecl
    by_cases hlen : eqIgnoreAsciiCase h.name contentLengthName = true
    · rw [if_pos hlen] at hdecl ⊢
      -- a second content-length is not declared
      obtain rfl : vs = [] := by
        have hone := hdecl.length_le
        rw [List.length_append, List.length_singleton] at hone
        exact List.length_eq_zero_iff.mp (by omega)
      cases hcl
      cases hdecl with
      | given hv hn =>
        have hmax : ¬ maxBody < _ := Nat.not_lt.mpr hn
        simp only [(parseDecimal_iff hn).mpr hv, if_neg hmax, Option.isSome_none,
          Bool.false_eq_true, if_false, HeaderText.span]
    · rw [if_neg hlen, List.append_nil] at hdecl
      rw [if_neg hlen, hcl.unique hdecl, HeaderText.span]

/-- A header line that is refused is not refused for its length. -/
theorem headerLine_error {line : Slice} {cl : Option ℕ} {e : HttpError}
    (h : headerLine usize line cl = .error e) : e ≠ .lineTooLong := by
  rintro rfl
  rw [headerLine] at h
  repeat' split at h
  all_goals cases h

end Wari.Http
