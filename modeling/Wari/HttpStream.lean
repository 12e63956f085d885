import Wari.HttpGrammar

/-!
# Requests that come in pieces

The caller parses what it has received, and parses again when more has come. This goes well
unless a piece ends between the CR and the LF of a line that is as long as its cap allows:
the CR counts as one more byte of a line that has not ended.
-/

namespace Wari.Http

open Lib (Bytes)

variable {usize : Usize}

/-- A request or an error: more bytes are not waited for. -/
def Settled (out : Except HttpError Parse) : Prop := out ≠ .ok .incomplete

/-- Complete lines, one more line that is as long as its cap allows, and a CR. The CR counts into
the length until the LF is there, so the line seems to be too long. -/
def Cut (buf : Bytes) : Prop :=
  ∃ cap head line, Start cap head ∧ NoCrlf line ∧ line.length = cap ∧
    buf = head ++ (line ++ [cr])

/-- The first line of the text is longer than its cap. -/
def LongLine (cap : ℕ) (s : Bytes) : Prop :=
  NoCrlf s ∧ cap < s.length ∨
    ∃ line r, s = line ++ (crlf ++ r) ∧ NoCrlf line ∧ cap < line.length

/-- Complete lines, and one that is too long. -/
def TooLong (buf : Bytes) : Prop :=
  ∃ cap head s, Start cap head ∧ LongLine cap s ∧ buf = head ++ s

/-- The caller: it asks for the next piece as long as what it has is not enough. -/
def feed (usize : Usize) : Bytes → List Bytes → Except HttpError Parse
  | buf, [] => parse usize buf
  | buf, chunk :: chunks =>
    match parse usize buf with
    | .ok .incomplete => feed usize (buf ++ chunk) chunks
    | out => out

/-! ## Lines that are too long

More bytes cannot make a long line shorter. The exception is a CR at the cap, which the LF turns
into a line ending. -/

theorem NoCrlf.concat_cr {line : Bytes} (h : NoCrlf line) : NoCrlf (line ++ [cr]) := by
  have hne : lf ≠ cr := by decide
  rintro ⟨x, y, hxy⟩
  rcases List.eq_nil_or_concat y with rfl | ⟨y, c, rfl⟩
  · have hlast := congrArg List.getLast? hxy
    simp [crlf, hne] at hlast
  · rw [List.concat_eq_append, ← List.append_assoc] at hxy
    exact h ⟨x, y, (List.append_inj' hxy rfl).1⟩

theorem parse_tooLong_iff (usize : Usize) {buf : Bytes} :
    parse usize buf = .error .lineTooLong ↔ TooLong buf := by
  constructor
  · intro h
    cases stage usize buf with
    | @unfinished cap head s hstart hs =>
      rw [parse_open usize hstart hs] at h
      split at h
      · rename_i hlen
        exact ⟨cap, head, s, hstart, .inl ⟨hs, hlen⟩, rfl⟩
      · cases h
    | @long cap head line s hstart hline hlong =>
      exact ⟨cap, head, _, hstart, .inr ⟨line, s, rfl, hline, hlong⟩, rfl⟩
    | refused he hall =>
      rw [hall] at h
      exact absurd (Except.error.inj h) he
    | headed hl hb =>
      rw [parse_headed hl hb] at h
      cases h
  · rintro ⟨cap, head, s, hstart, ⟨hs, hlen⟩ | ⟨line, r, rfl, hline, hlong⟩, rfl⟩
    · rw [parse_open usize hstart hs, if_pos hlen]
    · exact parse_long hstart hline hlong r

/-- A line with no end in sight that is too long stays too long, unless all it has too much
is a CR. -/
theorem longLine_append {cap : ℕ} {s : Bytes} (hs : NoCrlf s) (hlen : cap < s.length)
    (hcut : ∀ line, line.length = cap → s ≠ line ++ [cr]) (x : Bytes) :
    LongLine cap (s ++ x) := by
  rcases line_cases (s ++ x) with hno | ⟨line, r, hline, hno⟩
  · refine .inl ⟨hno, ?_⟩
    rw [List.length_append]
    omega
  refine .inr ⟨line, r, hline, hno, ?_⟩
  rcases List.append_eq_append_iff.mp hline with ⟨t, rfl, -⟩ | ⟨t, rfl, ht⟩
  · rw [List.length_append]
    omega
  · -- the line ends within `s`, or right after a CR at its end
    rcases t with _ | ⟨c, _ | ⟨d, t⟩⟩
    · rwa [List.append_nil] at hlen
    · obtain rfl : cr = c := by simpa [crlf] using congrArg List.head? ht
      have hne : line.length ≠ cap := fun h => hcut line h rfl
      rw [List.length_append, List.length_singleton] at hlen
      omega
    · rw [crlf, List.cons_append, List.cons_append, List.cons_append, List.cons_append] at ht
      obtain ⟨hc, ht⟩ := List.cons.inj ht
      obtain ⟨hd, -⟩ := List.cons.inj ht
      exact absurd ⟨line, t, by simp [crlf, hc, hd]⟩ hs

/-! ## One buffer

A buffer that is settled, and what follows it. The cut is the one place where more bytes change
the answer. -/

theorem Cut.tooLong {buf : Bytes} (h : Cut buf) : TooLong buf := by
  obtain ⟨cap, head, line, hstart, hline, hlen, rfl⟩ := h
  refine ⟨cap, head, line ++ [cr], hstart, .inl ⟨hline.concat_cr, ?_⟩, rfl⟩
  rw [List.length_append, List.length_singleton]
  omega

/-- **A cut is refused too early**: one more byte may mend it, as the line would then have its
end. -/
theorem Cut.mended {buf : Bytes} (h : Cut buf) :
    parse usize (buf ++ [lf]) ≠ .error .lineTooLong := by
  obtain ⟨cap, head, line, hstart, hline, hlen, rfl⟩ := h
  have htext : head ++ (line ++ [cr]) ++ [lf] = head ++ (line ++ (crlf ++ [])) := by
    simp [crlf]
  rw [htext]
  rcases hstart.line_cases usize hline hlen.le with ⟨e, hne, hall⟩ | hnext | ⟨rfl, -⟩
  · rw [hall]
    exact fun h => hne (Except.error.inj h)
  · have hopen := parse_open usize hnext noCrlf_nil
    simp only [List.append_nil] at hopen ⊢
    rw [hopen, if_neg (by simp)]
    simp
  · cases hstart <;> cases hlen

theorem bodyFrom_append {m : Method} {target : Lib.Slice} {headers : List Header}
    {cl : Option ℕ} {cursor : ℕ} {s : Bytes}
    (h : bodyFrom m target ⟨headers, cl, cursor, s⟩ ≠ .incomplete) (x : Bytes) :
    bodyFrom m target ⟨headers, cl, cursor, s ++ x⟩ =
      bodyFrom m target ⟨headers, cl, cursor, s⟩ := by
  have hlen : ¬ s.length < cl.getD 0 := fun hlt => h (if_pos hlt)
  have hlen' : ¬ (s ++ x).length < cl.getD 0 := by
    rw [List.length_append]
    omega
  rw [bodyFrom, bodyFrom]
  simp only [if_neg hlen, if_neg hlen', List.take_append_of_le_length (Nat.not_lt.mp hlen)]

/-- **What is settled stays so**, where the buffer is no cut: the parser has come to its result
without looking past the end. -/
theorem parse_append {buf : Bytes} (hcut : ¬ Cut buf) (h : Settled (parse usize buf))
    (x : Bytes) : parse usize (buf ++ x) = parse usize buf := by
  cases stage usize buf with
  | @unfinished cap head s hstart hs =>
    rw [parse_open usize hstart hs] at h ⊢
    by_cases hlen : cap < s.length
    · rw [if_pos hlen, parse_tooLong_iff usize, List.append_assoc]
      refine ⟨cap, head, s ++ x, hstart, longLine_append hs hlen (fun line hl heq => ?_) x, rfl⟩
      refine hcut ⟨cap, head, line, hstart, ?_, hl, by rw [heq]⟩
      rw [heq] at hs
      exact hs.of_append
    · rw [if_neg hlen] at h
      exact absurd rfl h
  | long hstart hline hlong =>
    simp only [List.append_assoc]
    rw [parse_long hstart hline hlong, parse_long hstart hline hlong]
  | refused he hall =>
    simp only [List.append_assoc]
    rw [hall, hall]
  | headed hl hb =>
    simp only [List.append_assoc]
    rw [parse_headed hl hb] at h ⊢
    rw [parse_headed hl hb, bodyFrom_append (fun heq => h (congrArg Except.ok heq))]

theorem settled_stable_iff {buf : Bytes} :
    (Settled (parse usize buf) → ∀ x, parse usize (buf ++ x) = parse usize buf) ↔
      ¬ Cut buf := by
  refine ⟨fun h hcut => ?_, fun hcut h => parse_append hcut h⟩
  have herr := (parse_tooLong_iff usize).mpr hcut.tooLong
  have hsame := h (by rw [herr]; nofun) [lf]
  exact hcut.mended (hsame.trans herr)

/-- **The prefixes of a request**: they are all incomplete where none is a cut. -/
theorem prefixes_incomplete_iff {buf : Bytes} {request : Request} {consumed : ℕ}
    (h : parse usize buf = .ok (.complete request consumed)) :
    (∀ p, p <+: buf.take consumed → p ≠ buf.take consumed →
      parse usize p = .ok .incomplete) ↔
      ∀ p, p <+: buf.take consumed → p ≠ buf.take consumed → ¬ Cut p := by
  obtain ⟨t, rest, ht, rfl, rfl, rfl⟩ := parse_complete_iff.mp h
  rw [List.take_left]
  refine forall₃_congr fun p hp hne => ⟨fun hpart hcut => ?_, fun hcut => ?_⟩
  · rw [(parse_tooLong_iff usize).mpr hcut.tooLong] at hpart
    cases hpart
  · by_contra hsettled
    obtain ⟨r, hr⟩ := hp
    have hsame := parse_append hcut hsettled r
    have hwhole := parse_text usize ht []
    rw [List.append_nil] at hwhole
    rw [hr, hwhole] at hsame
    -- the prefix would be as long as the request
    obtain ⟨t', rest', -, hp', -, hlen⟩ := parse_complete_iff.mp hsame.symm
    have hpr := congrArg List.length hr
    rw [hp', List.length_append, List.length_append] at hpr
    obtain rfl : r = [] := List.length_eq_zero_iff.mp (by omega)
    rw [List.append_nil] at hr
    exact hne hr

/-! ## Pieces

A caller that parses again with every piece, compared with one that parses at the end. -/

/-- **Piece by piece**: as at once, where no piece ends in a cut or there is a line that is
too long. -/
theorem feed_eq_iff (buf : Bytes) (chunks : List Bytes) :
    feed usize buf chunks = parse usize (buf ++ chunks.flatten) ↔
      TooLong (buf ++ chunks.flatten) ∨ ∀ k, ¬ Cut (buf ++ (chunks.take k).flatten) := by
  induction chunks generalizing buf with
  | nil =>
    simp only [feed, List.flatten_nil, List.append_nil, List.take_nil, true_iff, forall_const]
    by_cases hcut : Cut buf
    · exact .inl hcut.tooLong
    · exact .inr hcut
  | cons chunk chunks ih =>
    by_cases hpart : parse usize buf = .ok .incomplete
    · have hcut : ¬ Cut buf := by
        intro hcut
        rw [(parse_tooLong_iff usize).mpr hcut.tooLong] at hpart
        cases hpart
      have hcuts : (∀ k, ¬ Cut (buf ++ ((chunk :: chunks).take k).flatten)) ↔
          ∀ k, ¬ Cut (buf ++ chunk ++ (chunks.take k).flatten) := by
        refine ⟨fun h k => by simpa using h (k + 1), fun h k => ?_⟩
        rcases k with _ | k
        · simpa using hcut
        · simpa using h k
      rw [feed, hpart, hcuts, List.flatten_cons, ← List.append_assoc]
      exact ih (buf ++ chunk)
    · have hfeed : feed usize buf (chunk :: chunks) = parse usize buf := by
        rw [feed]
        split
        · rename_i heq
          exact absurd heq hpart
        · rfl
      rw [hfeed]
      by_cases hcut : Cut buf
      · rw [(parse_tooLong_iff usize).mpr hcut.tooLong, eq_comm, parse_tooLong_iff]
        exact ⟨.inl, fun h => h.elim id fun hno => absurd (by simpa using hcut) (hno 0)⟩
      · have hsame := parse_append hcut hpart
        refine iff_of_true (hsame _).symm ?_
        by_contra hor
        obtain ⟨hlong, hno⟩ := not_or.mp hor
        refine hno fun k hk => hlong ?_
        -- a cut further on is refused for its length, and so is all that begins as it does
        have hshort := (parse_tooLong_iff usize).mpr hk.tooLong
        rw [hsame] at hshort
        rw [← parse_tooLong_iff usize, hsame]
        exact hshort

/-- **Prefix stability**: a result stays what it is under any continuation, exactly where there is
no cut. -/
theorem parse_prefixStable (usize : Usize) :
    (∀ buf, (Settled (parse usize buf) → ∀ x, parse usize (buf ++ x) = parse usize buf) ↔
      ¬ Cut buf) ∧
    (∀ buf request consumed, parse usize buf = .ok (.complete request consumed) →
      ((∀ p, p <+: buf.take consumed → p ≠ buf.take consumed →
        parse usize p = .ok .incomplete) ↔
          ∀ p, p <+: buf.take consumed → p ≠ buf.take consumed → ¬ Cut p)) ∧
    ∀ chunks, feed usize [] chunks = parse usize chunks.flatten ↔
      TooLong chunks.flatten ∨ ∀ k, ¬ Cut (chunks.take k).flatten :=
  ⟨fun _ => settled_stable_iff, fun _ _ _ h => prefixes_incomplete_iff h,
    fun chunks => feed_eq_iff [] chunks⟩

/-- A request line that is as long as it may be. -/
def fullLine : RequestLine := ⟨.get, List.replicate 1011 0x2F#8, http11⟩

theorem fullLine_valid : fullLine.Valid := by
  refine ⟨⟨by decide, fun h => ?_, .inr rfl⟩, fun ⟨x, y, h⟩ => ?_, by decide +kernel⟩
  · cases List.eq_of_mem_replicate h
  · have hmem : cr ∈ fullLine.text := by
      rw [← h]
      simp [crlf]
    revert hmem
    decide +kernel

theorem fullLine_cut : Cut (fullLine.text ++ [cr]) :=
  ⟨_, [], fullLine.text, .nothing, fullLine_valid.line, by decide +kernel, rfl⟩

/-- The line and a CR are an error; with the LF and an empty line they are a request. -/
theorem full_line_refused :
    parse .bits64 (fullLine.text ++ [cr]) = .error .lineTooLong ∧
      ∃ request consumed, parse .bits64 (fullLine.text ++ [cr] ++ (lf :: crlf)) =
        .ok (.complete request consumed) := by
  refine ⟨(parse_tooLong_iff .bits64).mpr fullLine_cut.tooLong, ?_⟩
  have hvalid : RequestText.Valid ⟨fullLine, [], []⟩ :=
    ⟨fullLine_valid, nofun, Nat.zero_le _, none, .absent, rfl⟩
  refine ⟨_, _, (congrArg (parse .bits64) ?_).trans (parse_text .bits64 hvalid [])⟩
  simp [RequestText.text, RequestText.headText, headerLines, crlf]

end Wari.Http
