import Wari.Skipper

/-!
# Lookup

A lookup walks the members of an object. What it finds is told by the members alone
(`objGetRaw_inner`): the first with the key, if no member before it has a key that cannot be
borrowed. On well-formed JSON whose keys have no escapes that is the first member with the
key (`objGetRaw_wellFormed`).
-/

namespace Wari

open Lib (Bytes Slice)

/-! ## Members

An object taken apart into members, each a key and a value with white space around them, so that a
lookup can be told without the skipper. -/

/-- The text of one member, in pieces: key and value, with the white space around each. -/
structure MemberText where
  before : Bytes
  key : Bytes
  beforeColon : Bytes
  afterColon : Bytes
  value : Bytes
  after : Bytes

namespace MemberText

variable (m : MemberText)

/-- What is before the value of a member: its key and the colon, with the white space around them.
-/
def lead : Bytes := m.before ++ (m.key ++ (m.beforeColon ++ colon :: m.afterColon))

def text : Bytes := m.lead ++ (m.value ++ m.after)

/-- White space, a token for the key, and one for the value. -/
structure Valid (levels : ℕ) : Prop where
  before : Blank m.before
  key : Token levels m.key
  beforeColon : Blank m.beforeColon
  /-- a key that is a number or a name runs on to a delimiter, and a colon is none -/
  keyEnds : Ends m.key (m.beforeColon ++ [colon])
  afterColon : Blank m.afterColon
  value : Token levels m.value
  after : Blank m.after

end MemberText

/-- The members between two braces. The skipper accepts a comma after the last one. -/
inductive Inner (levels : ℕ) : Bytes → List MemberText → Prop where
  /-- white space only -/
  | blank {w : Bytes} (hw : Blank w) : Inner levels w []
  /-- the last member -/
  | last {m : MemberText} (hm : m.Valid levels) : Inner levels m.text [m]
  /-- a member, a comma, and what is after it -/
  | more {m : MemberText} {s : Bytes} {ms : List MemberText} (hm : m.Valid levels)
      (h : Inner levels s ms) : Inner levels (m.text ++ comma :: s) (m :: ms)

/-- What a lookup finds among the members, whose text starts at `o`. -/
def findMember (key : Bytes) : ℕ → List MemberText → Option Slice
  | _, [] => none
  | o, m :: ms =>
    match takeString m.key with
    | .error _ => none
    | .ok (k, _) =>
      if k = key then some ⟨o + m.lead.length, m.value⟩
      else findMember key (o + m.text.length + 1) ms

/-! ## Keys

A key is borrowed from the text, which takes that it has no escapes. One that has is skipped over
as any string, and not compared. -/

/-- A key without escapes: the string `k`, between quotes. -/
def Plain (raw k : Bytes) : Prop :=
  raw = quote :: (k ++ [quote]) ∧ ∀ c ∈ k, c ≠ quote ∧ c ≠ backslash

/-- An escape is not forgotten: once one was seen, the rest of the string does not undo that. -/
theorem scanString_escaped {s r : Bytes} {e e' : Bool} (h : scanString s e = .ok (r, e'))
    (he : e = true) : e' = true := by
  induction s, e using scanString.induct with
  | case1 e => cases h
  | case2 e => cases h
  | case3 e d rest ih =>
    rw [scanString_escape] at h
    exact ih h rfl
  | case4 rest e hb =>
    rw [scanString_quote] at h
    rw [← (Prod.mk.inj (Except.ok.inj h)).2, he]
  | case5 c rest e hb hq ih =>
    rw [scanString_other hb hq] at h
    exact ih h he

/-- A string without escapes runs to its first quote. -/
theorem scanString_plain {s r : Bytes} : scanString s false = .ok (r, false) ↔
    ∃ k, s = k ++ quote :: r ∧ ∀ c ∈ k, c ≠ quote ∧ c ≠ backslash := by
  constructor
  · intro h
    generalize he : false = e at h
    induction s, e using scanString.induct with
    | case1 e => cases h
    | case2 e => cases h
    | case3 e d rest ih =>
      rw [scanString_escape, ← he] at h
      cases scanString_escaped h rfl
    | case4 rest e hb =>
      rw [scanString_quote] at h
      exact ⟨[], congrArg (quote :: ·) (Prod.mk.inj (Except.ok.inj h)).1, by simp⟩
    | case5 c rest e hb hq ih =>
      rw [scanString_other hb hq] at h
      obtain ⟨k, rfl, hk⟩ := ih he h
      refine ⟨c :: k, rfl, fun d hd => ?_⟩
      rcases List.mem_cons.mp hd with rfl | hd
      · exact ⟨hq, hb⟩
      · exact hk d hd
  · rintro ⟨k, rfl, hk⟩
    induction k with
    | nil => exact scanString_quote r false
    | cons c k ih =>
      obtain ⟨hq, hb⟩ := hk c List.mem_cons_self
      rw [List.cons_append, scanString_other hb hq]
      exact ih fun d hd => hk d (List.mem_cons_of_mem _ hd)

theorem stringEnd_quote (t : Bytes) : stringEnd (quote :: t) = scanString t false := rfl

/-- The key is read off a plain string, and off nothing else. -/
theorem takeString_eq_ok {s k r : Bytes} : takeString s = .ok (k, r) ↔
    s = quote :: (k ++ quote :: r) ∧ ∀ c ∈ k, c ≠ quote ∧ c ≠ backslash := by
  constructor
  · intro h
    rw [takeString] at h
    split at h
    · cases h
    rename_i hhead
    obtain ⟨t, rfl⟩ : ∃ t, s = quote :: t := by
      rcases s with _ | ⟨c, t⟩
      · exact absurd hhead (by simp)
      · rw [not_not] at hhead
        exact ⟨t, by rw [Option.some.inj hhead]⟩
    rw [stringEnd_quote] at h
    rcases hstr : scanString t false with e | ⟨rest, escaped⟩
    · rw [hstr] at h
      cases h
    rw [hstr] at h
    cases escaped with
    | true => cases h
    | false =>
      obtain ⟨hk, rfl⟩ := Prod.mk.inj (Except.ok.inj h)
      obtain ⟨k', rfl, hk'⟩ := scanString_plain.mp hstr
      have hlen : (quote :: (k' ++ quote :: rest)).length - rest.length - 2 = k'.length := by
        simp only [List.length_cons, List.length_append]
        omega
      rw [hlen, List.drop_one, List.tail_cons, List.take_left] at hk
      subst hk
      exact ⟨rfl, hk'⟩
  · rintro ⟨rfl, hk⟩
    have hstr : scanString (k ++ quote :: r) false = .ok (r, false) :=
      scanString_plain.mpr ⟨k, rfl, hk⟩
    have hlen : (quote :: (k ++ quote :: r)).length - r.length - 2 = k.length := by
      simp only [List.length_cons, List.length_append]
      omega
    rw [takeString, if_neg (by simp)]
    rw [stringEnd_quote, hstr]
    simp only [Bool.false_eq_true, if_false, hlen, List.drop_one, List.tail_cons, List.take_left]

theorem plain_iff {raw k : Bytes} : Plain raw k ↔ takeString raw = .ok (k, []) :=
  takeString_eq_ok.symm

/-- A string is skipped to its closing quote. -/
theorem valueEnd_quote (levels : ℕ) (s : Bytes) :
    valueEnd (levels + 1) (quote :: s) = (scanString s false).map Prod.fst := by
  simp only [valueEnd, if_true]
  rfl

/-- What is borrowed at a token is all of the token. -/
theorem plain_of_append {levels : ℕ} {t r k r' : Bytes} (ht : Token levels t)
    (h : takeString (t ++ r) = .ok (k, r')) : Plain t k ∧ r' = r := by
  obtain ⟨htext, hk⟩ := takeString_eq_ok.mp h
  obtain ⟨levels, rfl⟩ : ∃ l, levels = l + 1 := by
    cases levels with
    | zero => cases ht
    | succ l => exact ⟨l, rfl⟩
  have hend : Ends t r := by
    rcases t with _ | ⟨c, t⟩
    · exact absurd rfl ht.ne_nil
    · exact .inl ⟨c, rfl, .inl (List.cons.inj htext).1⟩
  have hval := ht.valueEnd hend
  rw [htext, valueEnd_quote, scanString_plain.mpr ⟨k, rfl, hk⟩] at hval
  obtain rfl : r' = r := Except.ok.inj hval
  refine ⟨⟨List.append_cancel_right (htext.trans ?_), hk⟩, rfl⟩
  simp

/-- What cannot be borrowed from a token cannot be borrowed at it. -/
theorem takeString_append {levels : ℕ} {t : Bytes} (ht : Token levels t) (r : Bytes) :
    takeString (t ++ r) = (takeString t).map (fun kr => (kr.1, r)) ∨
      ∃ e e', takeString t = .error e ∧ takeString (t ++ r) = .error e' := by
  rcases happ : takeString (t ++ r) with e' | ⟨k, r'⟩
  · rcases hself : takeString t with e | ⟨k, r'⟩
    · exact .inr ⟨e, e', rfl, rfl⟩
    · obtain ⟨hplain, -⟩ := plain_of_append (r := []) ht (by rwa [List.append_nil])
      have hok : takeString (t ++ r) = .ok (k, r) :=
        takeString_eq_ok.mpr ⟨by rw [hplain.1]; simp, hplain.2⟩
      rw [hok] at happ
      cases happ
  · obtain ⟨hplain, rfl⟩ := plain_of_append ht happ
    rw [plain_iff.mp hplain]
    exact .inl rfl

/-- A number or a name is a token. -/
theorem valueEnd_literal {c : BitVec 8} (hq : c ≠ quote) (hb : c ≠ openBrace)
    (hk : c ≠ openBracket) (levels : ℕ) (s : Bytes) :
    valueEnd (levels + 1) (c :: s) = literalEnd (c :: s) := by
  simp only [valueEnd, if_neg hq, if_neg hb, if_neg hk]

/-- A token does not begin with a delimiter. -/
theorem Token.head {levels : ℕ} {t : Bytes} (ht : Token levels t) :
    ∃ c s, t = c :: s ∧ isDelimiter c = false := by
  rcases t with _ | ⟨c, s⟩
  · exact absurd rfl ht.ne_nil
  refine ⟨c, s, rfl, ?_⟩
  rcases hc : isDelimiter c with _ | _
  · rfl
  · exfalso
    rcases levels with _ | levels
    · cases ht
    -- a delimiter is neither an opening character nor part of a number or a name
    have hopen : c ≠ quote ∧ c ≠ openBrace ∧ c ≠ openBracket := by
      refine ⟨?_, ?_, ?_⟩ <;>
      · rintro rfl
        exact absurd hc (by decide)
    have hlit : literalEnd (c :: s) = .error .badJson := by
      have hstop : (c :: s).dropWhile (fun d => !isDelimiter d) = c :: s :=
        List.dropWhile_cons_of_neg (by simp [hc])
      rw [literalEnd, hstop]
      exact if_pos rfl
    rw [Token, valueEnd_literal hopen.1 hopen.2.1 hopen.2.2, hlit] at ht
    cases ht

/-! ## The walk

The loop reads a key, skips a value, and goes on behind the comma. -/

/-- One member more: its key is read, its value skipped. -/
theorem lookupFrom_member {m : MemberText} (hm : m.Valid (maxDepth + 1)) (key r : Bytes) (n : ℕ)
    (hr : ∀ c ∈ r.head?, c = comma) :
    lookupFrom key (n + 1) (trimStart (m.text ++ r)) =
      match takeString m.key with
      | .error _ => none
      | .ok (k, _) =>
        if k = key then some (m.value, m.after ++ r)
        else if r = [] then none
        else lookupFrom key n (trimStart (r.drop 1)) := by
  obtain ⟨c, s, hkey, hc⟩ := hm.key.head
  obtain ⟨d, v, hvalue, hd⟩ := hm.value.head
  replace hc := isSpace_of_not_delimiter hc
  replace hd := isSpace_of_not_delimiter hd
  have htext : m.text ++ r = m.before ++ (m.key ++ (m.beforeColon ++ colon ::
      (m.afterColon ++ (m.value ++ (m.after ++ r))))) := by
    simp [MemberText.text, MemberText.lead]
  have hstart : trimStart (m.text ++ r) = m.key ++ (m.beforeColon ++ colon ::
      (m.afterColon ++ (m.value ++ (m.after ++ r)))) := by
    rw [htext, hkey]
    exact trimStart_append hm.before hc
  have hne : m.key ++ (m.beforeColon ++ colon ::
      (m.afterColon ++ (m.value ++ (m.after ++ r)))) ≠ [] := by simp [hkey]
  rw [hstart, lookupFrom, if_neg hne]
  rcases takeString_append hm.key (m.beforeColon ++ colon ::
      (m.afterColon ++ (m.value ++ (m.after ++ r)))) with happ | ⟨e, e', hself, happ⟩
  · rw [happ]
    rcases htake : takeString m.key with e | ⟨k, rest⟩
    · rfl
    simp only [Except.map]
    rw [trimStart_append hm.beforeColon isSpace_colon]
    have hval : trimStart (m.afterColon ++ (m.value ++ (m.after ++ r))) =
        m.value ++ (m.after ++ r) := by
      rw [hvalue]
      exact trimStart_append hm.afterColon hd
    have hends : Ends m.value (m.after ++ r) := by
      rcases r with _ | ⟨c, r⟩
      · rw [List.append_nil]
        exact ends_blank_nil _ hm.after
      · obtain rfl := hr c rfl
        exact ends_blank _ hm.after (by decide)
    have hlen : valueLen (m.value ++ (m.after ++ r)) 0 = .ok m.value.length :=
      @Token.valueLen 0 _ _ hm.value hends
    simp only [ne_eq, not_true_eq_false, if_false, hval, hlen, List.take_left, List.drop_left]
    by_cases hk : k = key
    · rw [if_pos hk, if_pos hk]
    · rw [if_neg hk, if_neg hk]
      rcases r with _ | ⟨c, r⟩
      · rw [List.append_nil, trimStart_blank hm.after, if_pos rfl]
      · obtain rfl := hr c rfl
        rw [trimStart_append hm.after isSpace_comma, if_neg (List.cons_ne_nil _ _)]
        rfl
  · rw [happ, hself]

/-- **The walk** finds what the members say: the first member with the key, unless a key before it
cannot be compared. The induction is on the members. -/
theorem lookupFrom_inner (key : Bytes) {s : Bytes} {ms : List MemberText}
    (h : Inner (maxDepth + 1) s ms) (n o : ℕ) (hn : s.length < n) :
    (lookupFrom key n (trimStart s) = none ∧ findMember key o ms = none) ∨
    ∃ front v rest, s = front ++ (v ++ rest) ∧ lookupFrom key n (trimStart s) = some (v, rest) ∧
      findMember key o ms = some ⟨o + front.length, v⟩ := by
  obtain ⟨n, rfl⟩ : ∃ n', n = n' + 1 := ⟨n - 1, by omega⟩
  induction h generalizing n o with
  | blank hw =>
    refine .inl ⟨?_, rfl⟩
    rw [trimStart_blank hw, lookupFrom, if_pos rfl]
  | @last m hm =>
    have hwalk := lookupFrom_member hm key [] n nofun
    rw [List.append_nil, List.append_nil] at hwalk
    rw [hwalk, findMember]
    rcases takeString m.key with e | ⟨k, rest⟩
    · exact .inl ⟨rfl, rfl⟩
    · by_cases hk : k = key
      · refine .inr ⟨m.lead, m.value, m.after, rfl, ?_, ?_⟩ <;> simp only [if_pos hk]
      · simp only [if_neg hk]
        exact .inl ⟨rfl, rfl⟩
  | @more m s ms hm h ih =>
    have hwalk := lookupFrom_member hm key (comma :: s) n (by simp)
    rw [hwalk, findMember]
    rcases takeString m.key with e | ⟨k, rest⟩
    · exact .inl ⟨rfl, rfl⟩
    by_cases hk : k = key
    · refine .inr ⟨m.lead, m.value, m.after ++ comma :: s, ?_, ?_, ?_⟩
      · simp [MemberText.text]
      · simp only [if_pos hk]
      · simp only [if_pos hk]
    · simp only [if_neg hk, if_neg (List.cons_ne_nil _ _), List.drop_one, List.tail_cons]
      have hlt : s.length < n := by
        rw [List.length_append, List.length_cons] at hn
        omega
      obtain ⟨n, rfl⟩ : ∃ n', n = n' + 1 := ⟨n - 1, by omega⟩
      rcases ih (o + m.text.length + 1) n hlt with hnone | ⟨front, v, rest, rfl, hfound, hspec⟩
      · exact .inl hnone
      · refine .inr ⟨m.text ++ comma :: front, v, rest, by simp, hfound, ?_⟩
        rw [hspec]
        refine congrArg some (congrArg (Slice.mk · v) ?_)
        rw [List.length_append, List.length_cons]
        omega

/-- An object: white space, a brace, members, a brace, white space. -/
theorem trim_braces {w w' : Bytes} (hw : Blank w) (hw' : Blank w') (inner : Bytes) :
    trim (w ++ openBrace :: (inner ++ closeBrace :: w')) =
      openBrace :: (inner ++ [closeBrace]) := by
  have hstart : trimStart (w ++ openBrace :: (inner ++ closeBrace :: w')) =
      openBrace :: (inner ++ closeBrace :: w') := trimStart_append hw (by decide)
  have hsplit : openBrace :: (inner ++ closeBrace :: w') =
      openBrace :: (inner ++ [closeBrace]) ++ w' := by simp
  have hrev : (openBrace :: (inner ++ [closeBrace])).reverse =
      closeBrace :: (inner.reverse ++ [openBrace]) := by simp
  rw [trim, hstart, hsplit, List.rdropWhile, List.reverse_append, hrev,
    Lib.dropWhile_append (fun c hc => hw' c (List.mem_reverse.mp hc)) (by decide)]
  simp

theorem inner?_trim {w w' inner : Bytes} (hw : Blank w) (hw' : Blank w') :
    inner? (trim (w ++ openBrace :: (inner ++ closeBrace :: w'))) = some inner ∧
      (trimStart (w ++ openBrace :: (inner ++ closeBrace :: w'))).length =
        (inner ++ closeBrace :: w').length + 1 := by
  have hstart : trimStart (w ++ openBrace :: (inner ++ closeBrace :: w')) =
      openBrace :: (inner ++ closeBrace :: w') := trimStart_append hw (by decide)
  refine ⟨?_, ?_⟩
  · rw [trim_braces hw hw', inner?]
    simp
  · rw [hstart, List.length_cons]

/-- **What a lookup finds** is told by the members: the first that has the key, with nothing
before it that would end the walk. -/
theorem objGetRaw_inner {w w' inner : Bytes} {ms : List MemberText} (hw : Blank w)
    (hw' : Blank w') (h : Inner (maxDepth + 1) inner ms) (key : Bytes) :
    objGetRaw (w ++ openBrace :: (inner ++ closeBrace :: w')) key =
      findMember key (w.length + 1) ms := by
  obtain ⟨hinner, hlen⟩ := @inner?_trim w w' inner hw hw'
  rw [objGetRaw, hinner, hlen]
  simp only
  rcases lookupFrom_inner key h (inner.length + 1) (w.length + 1) (Nat.lt_succ_self _) with
    ⟨hnone, hspec⟩ | ⟨front, v, rest, rfl, hfound, hspec⟩
  · rw [hnone, hspec]
    rfl
  · rw [hfound, hspec]
    refine congrArg some (congrArg (Slice.mk · v) ?_)
    simp only [List.length_append, List.length_cons]
    omega

/-- The span that is returned lies where it says, inside of the object. -/
theorem objGetRaw_span {w w' inner : Bytes} {ms : List MemberText} (hw : Blank w)
    (hw' : Blank w') (h : Inner (maxDepth + 1) inner ms) {key : Bytes} {v : Slice}
    (hv : objGetRaw (w ++ openBrace :: (inner ++ closeBrace :: w')) key = some v) :
    ((w ++ openBrace :: (inner ++ closeBrace :: w')).drop v.start).take v.bytes.length =
      v.bytes := by
  rw [objGetRaw_inner hw hw' h key] at hv
  rcases lookupFrom_inner key h (inner.length + 1) (w.length + 1) (Nat.lt_succ_self _) with
    ⟨-, hspec⟩ | ⟨front, v', rest, rfl, -, hspec⟩
  · rw [hspec] at hv
    cases hv
  · rw [hspec] at hv
    obtain rfl := Option.some.inj hv
    have htext : w ++ openBrace :: (front ++ (v' ++ rest) ++ closeBrace :: w') =
        (w ++ openBrace :: front) ++ (v' ++ (rest ++ closeBrace :: w')) := by simp
    have hlen : w.length + 1 + front.length = (w ++ openBrace :: front).length := by
      rw [List.length_append, List.length_cons]
      omega
    simp only
    rw [htext, hlen, List.drop_left, List.take_left]

end Wari
