import Wari.Mcp

/-!
# The skipper

What the skipper takes for a value depends on nothing behind it, but that a number or a name
ends where it is said to (`valueEnd_local`). So a text falls into tokens, which can be put
together again: what is found in a text is found wherever the tokens are.
-/

namespace Wari

open Lib (Bytes Slice)

/-! ## White space

What is trimmed, and where it stops. -/

/-- White space only, or nothing at all. -/
def Blank (w : Bytes) : Prop := ∀ c ∈ w, isSpace c = true

theorem Blank.append {v w : Bytes} (hv : Blank v) (hw : Blank w) : Blank (v ++ w) := by
  intro c hc
  rcases List.mem_append.mp hc with hc | hc
  · exact hv c hc
  · exact hw c hc

theorem trimStart_blank {w : Bytes} (hw : Blank w) : trimStart w = [] := Lib.dropWhile_all hw

theorem trimStart_append {w r : Bytes} {c : BitVec 8} (hw : Blank w) (hc : isSpace c = false) :
    trimStart (w ++ c :: r) = c :: r := Lib.dropWhile_append hw hc

/-- Trimming takes white space off, up to a character that is none. -/
theorem trimStart_split (s : Bytes) : ∃ w, Blank w ∧ s = w ++ trimStart s := by
  obtain ⟨w, hs, hw⟩ := Lib.dropWhile_split (p := isSpace) s
  exact ⟨w, hw, hs⟩

theorem trimStart_head {s r : Bytes} {c : BitVec 8} (h : trimStart s = c :: r) :
    isSpace c = false := Lib.dropWhile_head h

/-- White space, and a character that is none. -/
theorem trimStart_eq_cons {s r : Bytes} {c : BitVec 8} (h : trimStart s = c :: r) :
    ∃ w, Blank w ∧ isSpace c = false ∧ s = w ++ c :: r := by
  obtain ⟨w, hw, hs⟩ := trimStart_split s
  exact ⟨w, hw, trimStart_head h, h ▸ hs⟩

theorem isSpace_comma : isSpace comma = false := by decide
theorem isSpace_colon : isSpace colon = false := by decide
theorem isSpace_closer (isObject : Bool) : isSpace (closer isObject) = false := by
  cases isObject <;> decide

theorem isDelimiter_of_isSpace {c : BitVec 8} (h : isSpace c = true) : isDelimiter c = true := by
  rw [isDelimiter, h]
  simp

theorem isSpace_of_not_delimiter {c : BitVec 8} (h : isDelimiter c = false) :
    isSpace c = false := by
  rcases hc : isSpace c with _ | _
  · rfl
  · rw [isDelimiter_of_isSpace hc] at h
    cases h

/-! ## Where a value ends

A string or a bracket brings its own end; a number or a name ends at a delimiter. -/

/-- Where `x` ends, `r` may follow: `x` brings its own end, or `r` begins with a delimiter. -/
def Ends (x r : Bytes) : Prop :=
  (∃ c ∈ x.head?, c = quote ∨ c = openBrace ∨ c = openBracket) ∨
    ∀ c ∈ r.head?, isDelimiter c = true

theorem Ends.nil (x : Bytes) : Ends x [] := .inr nofun

theorem ends_delimiter (x r : Bytes) {c : BitVec 8} (h : isDelimiter c = true) :
    Ends x (c :: r) := by
  refine .inr fun d hd => ?_
  obtain rfl := Option.some.inj hd
  exact h

/-- Only the first character behind a value matters for where the value ends. -/
theorem Ends.congr {x r r' : Bytes} (h : Ends x r) (hhead : r'.head? = r.head?) : Ends x r' := by
  rcases h with h | h
  · exact .inl h
  · exact .inr fun c hc => h c (hhead ▸ hc)

/-- White space and then a delimiter may follow anything. -/
theorem ends_blank (x : Bytes) {w r : Bytes} {c : BitVec 8} (hw : Blank w)
    (hc : isDelimiter c = true) : Ends x (w ++ c :: r) := by
  cases w with
  | nil => exact ends_delimiter x r hc
  | cons d w => exact ends_delimiter x _ (isDelimiter_of_isSpace (hw d List.mem_cons_self))

theorem ends_blank_nil (x : Bytes) {w : Bytes} (hw : Blank w) : Ends x w := by
  cases w with
  | nil => exact .nil x
  | cons d w => exact ends_delimiter x _ (isDelimiter_of_isSpace (hw d List.mem_cons_self))

/-- What comes up to a character does not depend on what is behind it. -/
theorem Ends.append_cons {x w r r' : Bytes} {c : BitVec 8} (h : Ends x (w ++ c :: r)) :
    Ends x (w ++ c :: r') :=
  h.congr (by cases w <;> rfl)

/-- **Locality**: what is skipped is a token, and the token is skipped before whatever may
follow it. -/
def Local (skip : Bytes → Except McpError Bytes) : Prop :=
  ∀ s u, skip s = .ok u → ∃ x, x ≠ [] ∧ s = x ++ u ∧ Ends x u ∧
    ∀ r, Ends x r → skip (x ++ r) = .ok r

/-! ### Strings

The first quote that is not escaped. -/

theorem scanString_escape (d : BitVec 8) (rest : Bytes) (e : Bool) :
    scanString (backslash :: d :: rest) e = scanString rest true := by
  simp only [scanString, if_true]

theorem scanString_quote (rest : Bytes) (e : Bool) :
    scanString (quote :: rest) e = .ok (rest, e) := by
  rw [scanString.eq_def]
  rfl

theorem scanString_other {c : BitVec 8} (hb : c ≠ backslash) (hq : c ≠ quote) (rest : Bytes)
    (e : Bool) : scanString (c :: rest) e = scanString rest e := by
  rw [scanString.eq_def]
  simp only [if_neg hb, if_neg hq]

theorem scanString_local {s u : Bytes} {e e' : Bool} (h : scanString s e = .ok (u, e')) :
    ∃ x, s = x ++ u ∧ ∀ r, scanString (x ++ r) e = .ok (r, e') := by
  induction s, e using scanString.induct with
  | case1 e => cases h
  | case2 e => cases h
  | case3 e d rest ih =>
    rw [scanString_escape] at h
    obtain ⟨x, rfl, hx⟩ := ih h
    refine ⟨backslash :: d :: x, rfl, fun r => ?_⟩
    rw [List.cons_append, List.cons_append, scanString_escape]
    exact hx r
  | case4 rest e hb =>
    rw [scanString_quote] at h
    obtain ⟨rfl, rfl⟩ := Prod.mk.inj (Except.ok.inj h)
    exact ⟨[quote], rfl, fun r => scanString_quote r e⟩
  | case5 c rest e hb hq ih =>
    rw [scanString_other hb hq] at h
    obtain ⟨x, rfl, hx⟩ := ih h
    refine ⟨c :: x, rfl, fun r => ?_⟩
    rw [List.cons_append, scanString_other hb hq]
    exact hx r

/-! ### Numbers and names

A run of bytes up to a delimiter, whatever they are. -/

theorem literalEnd_local {s u : Bytes} (h : literalEnd s = .ok u) : ∃ x, x ≠ [] ∧ s = x ++ u ∧
    (∀ c ∈ u.head?, isDelimiter c = true) ∧
      ∀ r, (∀ c ∈ r.head?, isDelimiter c = true) → literalEnd (x ++ r) = .ok r := by
  rw [literalEnd] at h
  split at h
  · cases h
  · rename_i hlen
    obtain rfl := Except.ok.inj h
    obtain ⟨x, hs, hx⟩ := Lib.dropWhile_split (p := fun c => !isDelimiter c) s
    have hne : x ≠ [] := by
      rintro rfl
      exact hlen (congrArg List.length hs).symm
    refine ⟨x, hne, hs, fun c hc => ?_, fun r hr => ?_⟩
    · obtain ⟨r, hr⟩ : ∃ r, s.dropWhile (fun c => !isDelimiter c) = c :: r := by
        rcases hrest : s.dropWhile fun c => !isDelimiter c with _ | ⟨d, r⟩
        · rw [hrest] at hc
          cases hc
        · rw [hrest] at hc
          obtain rfl := Option.some.inj hc
          exact ⟨r, rfl⟩
      simpa using Lib.dropWhile_head hr
    · have hdrop : (x ++ r).dropWhile (fun c => !isDelimiter c) = r := by
        cases r with
        | nil => rw [List.append_nil, Lib.dropWhile_all hx]
        | cons c r => exact Lib.dropWhile_append hx (by simp [hr c rfl])
      have hlonger : ¬ r.length = (x ++ r).length := by
        have := List.length_pos_iff.mpr hne
        rw [List.length_append]
        omega
      rw [literalEnd, hdrop]
      simp only [if_neg hlonger]

/-! ### Objects and arrays

The loop over elements, one turn at a time, with what may follow an element. -/

/-- A key, a colon and a value are what a member is, if it is skipped. -/
theorem elementEnd_object {skip : Bytes → Except McpError Bytes} (hskip : Local skip)
    {s u : Bytes} (h : elementEnd skip true s = .ok u) :
    ∃ k w w' v, s = k ++ (w ++ colon :: (w' ++ (v ++ u))) ∧ Blank w ∧ Blank w' ∧
      (k ≠ [] ∧ Ends k (w ++ [colon]) ∧ ∀ r, Ends k r → skip (k ++ r) = .ok r) ∧
      (∃ d t, v = d :: t ∧ isSpace d = false) ∧ Ends v u ∧
      ∀ r, Ends v r → skip (v ++ r) = .ok r := by
  simp only [elementEnd, if_true] at h
  rcases hk : skip s with e | rest
  · rw [hk] at h
    cases h
  rw [hk] at h
  simp only at h
  obtain ⟨k, hkne, rfl, hkends, hk'⟩ := hskip s rest hk
  rcases hrest : trimStart rest with _ | ⟨c, rest₁⟩
  · rw [hrest] at h
    cases h
  rw [hrest] at h
  simp only at h
  split at h
  · rename_i hcolon
    subst hcolon
    obtain ⟨w, hw, -, rfl⟩ := trimStart_eq_cons hrest
    obtain ⟨v, hvne, hv, hends, hv'⟩ := hskip _ u h
    obtain ⟨w', hw', hrest₁⟩ := trimStart_split rest₁
    rw [hv] at hrest₁
    rw [hrest₁]
    refine ⟨k, w, w', v, rfl, hw, hw', ⟨hkne, hkends.append_cons, hk'⟩, ?_, hends, hv'⟩
    -- the value does not begin with white space
    rcases v with _ | ⟨d, t⟩
    · exact absurd rfl hvne
    · exact ⟨d, t, rfl, trimStart_head (s := rest₁) (r := t ++ u) hv⟩
  · cases h

/-- And the other way round: a key, a colon and a value are skipped. -/
theorem elementEnd_of_object {skip : Bytes → Except McpError Bytes} {k w w' v r : Bytes}
    (hw : Blank w) (hw' : Blank w')
    (hk : skip (k ++ (w ++ colon :: (w' ++ (v ++ r)))) = .ok (w ++ colon :: (w' ++ (v ++ r))))
    (hd : ∃ d t, v = d :: t ∧ isSpace d = false) (hv : skip (v ++ r) = .ok r) :
    elementEnd skip true (k ++ (w ++ colon :: (w' ++ (v ++ r)))) = .ok r := by
  obtain ⟨d, t, hdt, hd⟩ := hd
  have hstart : trimStart (w' ++ (v ++ r)) = v ++ r := by
    rw [hdt]
    exact trimStart_append hw' hd
  simp only [elementEnd, if_true, hk]
  rw [trimStart_append hw isSpace_colon]
  simp only [if_true, hstart]
  exact hv

/-- One element: its last token is followed by what follows the element. -/
theorem elementEnd_local {skip : Bytes → Except McpError Bytes} (hskip : Local skip)
    {isObject : Bool} {s u : Bytes} (h : elementEnd skip isObject s = .ok u) :
    ∃ x v, x ++ v ≠ [] ∧ s = x ++ v ++ u ∧ Ends v u ∧
      ∀ r, Ends v r → elementEnd skip isObject (x ++ v ++ r) = .ok r := by
  cases isObject with
  | false =>
    obtain ⟨v, hne, hs, hends, hv⟩ := hskip s u h
    exact ⟨[], v, hne, hs, hends, hv⟩
  | true =>
    obtain ⟨k, w, w', v, rfl, hw, hw', ⟨hkne, hkends, hk⟩, hd, hends, hv⟩ :=
      elementEnd_object hskip h
    refine ⟨k ++ w ++ colon :: w', v, by simp [hkne], by simp, hends, fun r hr => ?_⟩
    have htext : k ++ w ++ colon :: w' ++ v ++ r = k ++ (w ++ colon :: (w' ++ (v ++ r))) := by
      simp
    rw [htext]
    exact elementEnd_of_object hw hw' (hk _ hkends.append_cons) hd (hv r hr)

/-- The elements begin after the white space, so that trimming it changes nothing. -/
theorem elementsEnd_trimStart (skip : Bytes → Except McpError Bytes) (isObject : Bool) (n : ℕ)
    (s : Bytes) : elementsEnd skip isObject n (trimStart s) = elementsEnd skip isObject n s := by
  cases n with
  | zero => rfl
  | succ n =>
    rw [elementsEnd, elementsEnd]
    have htwice : trimStart (trimStart s) = trimStart s := List.dropWhile_idempotent _ _
    rw [htwice]

/-- White space between brackets is an empty list of elements. -/
theorem elementsEnd_blank (skip : Bytes → Except McpError Bytes) (isObject : Bool) (n : ℕ)
    {w : Bytes} (hw : Blank w) (r : Bytes) :
    elementsEnd skip isObject (n + 1) (w ++ closer isObject :: r) = .ok r := by
  rw [elementsEnd, trimStart_append hw (isSpace_closer isObject)]
  exact if_pos rfl

/-- An element is skipped, and it goes on with what comes after it. -/
theorem elementsEnd_element {skip : Bytes → Except McpError Bytes} {isObject : Bool}
    {w x w' t : Bytes} {c d : BitVec 8} (hw : Blank w) (hx : x.head? = some c)
    (hc : isSpace c = false) (hclose : c ≠ closer isObject) (hw' : Blank w')
    (hd : isSpace d = false)
    (helem : elementEnd skip isObject (x ++ (w' ++ d :: t)) = .ok (w' ++ d :: t)) (n : ℕ) :
    elementsEnd skip isObject (n + 1) (w ++ (x ++ (w' ++ d :: t))) =
      if d = comma then elementsEnd skip isObject n t
      else if d = closer isObject then .ok t else .error .badJson := by
  obtain ⟨y, rfl⟩ := List.head?_eq_some_iff.mp hx
  rw [List.cons_append] at helem
  rw [elementsEnd, List.cons_append, trimStart_append hw hc]
  simp only [if_neg hclose, helem, trimStart_append hw' hd, elementsEnd_trimStart]

/-- **What a turn of the loop does**: it comes to the closing bracket, or past one element. -/
theorem elementsEnd_cases {skip : Bytes → Except McpError Bytes} {isObject : Bool} {n : ℕ}
    {s u : Bytes} (h : elementsEnd skip isObject (n + 1) s = .ok u) :
    ∃ w c rest, Blank w ∧ isSpace c = false ∧ s = w ++ c :: rest ∧
      (c = closer isObject ∧ rest = u ∨
        c ≠ closer isObject ∧ ∃ w' d rest', Blank w' ∧ isSpace d = false ∧
          elementEnd skip isObject (c :: rest) = .ok (w' ++ d :: rest') ∧
          (d = comma ∧ elementsEnd skip isObject n rest' = .ok u ∨
            d ≠ comma ∧ d = closer isObject ∧ rest' = u)) := by
  rw [elementsEnd] at h
  rcases hs : trimStart s with _ | ⟨c, rest⟩
  · rw [hs] at h
    cases h
  rw [hs] at h
  simp only at h
  obtain ⟨w, hw, hc, rfl⟩ := trimStart_eq_cons hs
  refine ⟨w, c, rest, hw, hc, rfl, ?_⟩
  split at h
  · rename_i hclose
    exact .inl ⟨hclose, Except.ok.inj h⟩
  rename_i hclose
  rcases helem : elementEnd skip isObject (c :: rest) with e | rest₁
  · rw [helem] at h
    cases h
  rw [helem] at h
  simp only at h
  rcases hrest₁ : trimStart rest₁ with _ | ⟨d, rest'⟩
  · rw [hrest₁] at h
    cases h
  rw [hrest₁] at h
  simp only at h
  obtain ⟨w', hw', hd, rfl⟩ := trimStart_eq_cons hrest₁
  refine .inr ⟨hclose, w', d, rest', hw', hd, rfl, ?_⟩
  split at h
  · rename_i hcomma
    rw [elementsEnd_trimStart] at h
    exact .inl ⟨hcomma, h⟩
  rename_i hcomma
  split at h
  · rename_i hlast
    exact .inr ⟨hcomma, hlast, Except.ok.inj h⟩
  · cases h

/-- The elements up to the closing bracket are skipped, whatever is behind it. -/
theorem elementsEnd_local {skip : Bytes → Except McpError Bytes} (hskip : Local skip)
    {isObject : Bool} {n : ℕ} {s u : Bytes} (h : elementsEnd skip isObject n s = .ok u) :
    ∃ x, s = x ++ u ∧
      ∀ r m, x.length ≤ m → elementsEnd skip isObject m (x ++ r) = .ok r := by
  induction n generalizing s with
  | zero => cases h
  | succ n ih =>
    obtain ⟨w, c, rest, hw, hc, rfl, ⟨rfl, rfl⟩ |
      ⟨hclose, w', d, rest', hw', hd, helem, hafter⟩⟩ := elementsEnd_cases h
    · -- the closing bracket
      refine ⟨w ++ [closer isObject], by simp, fun r m hm => ?_⟩
      rw [List.length_append, List.length_singleton] at hm
      obtain ⟨m, rfl⟩ : ∃ m', m = m' + 1 := ⟨m - 1, by omega⟩
      rw [List.append_assoc]
      exact elementsEnd_blank skip isObject m hw r
    obtain ⟨x, v, hne, hxv, hends, hxv'⟩ := elementEnd_local hskip helem
    -- the text of the element begins with `c`
    have hhead : (x ++ v).head? = some c := by
      rcases hxv₀ : x ++ v with _ | ⟨c', y⟩
      · exact absurd hxv₀ hne
      · rw [hxv₀] at hxv
        rw [List.head?_cons, (List.cons.inj hxv).1]
    have hturn : ∀ m t, elementsEnd skip isObject (m + 1) (w ++ (x ++ v ++ (w' ++ d :: t))) =
        if d = comma then elementsEnd skip isObject m t
        else if d = closer isObject then .ok t else .error .badJson :=
      fun m _ => elementsEnd_element hw hhead hc hclose hw' hd (hxv' _ hends.append_cons) m
    rcases hafter with ⟨rfl, h⟩ | ⟨hcomma, rfl, rfl⟩
    · -- one more
      obtain ⟨z, rfl, hz⟩ := ih h
      refine ⟨w ++ (x ++ v ++ (w' ++ comma :: z)), ?_, fun r m hm => ?_⟩
      · rw [hxv]
        simp
      · simp only [List.length_append, List.length_cons] at hm
        obtain ⟨m, rfl⟩ : ∃ m', m = m' + 1 := ⟨m - 1, by omega⟩
        have htext : w ++ (x ++ v ++ (w' ++ comma :: z)) ++ r =
            w ++ (x ++ v ++ (w' ++ comma :: (z ++ r))) := by simp
        rw [htext, hturn, if_pos rfl]
        exact hz r m (by omega)
    · -- the closing bracket, after an element
      refine ⟨w ++ (x ++ v ++ (w' ++ [closer isObject])), ?_, fun r m hm => ?_⟩
      · rw [hxv]
        simp
      · simp only [List.length_append, List.length_cons] at hm
        obtain ⟨m, rfl⟩ : ∃ m', m = m' + 1 := ⟨m - 1, by omega⟩
        have htext : w ++ (x ++ v ++ (w' ++ [closer isObject])) ++ r =
            w ++ (x ++ v ++ (w' ++ closer isObject :: r)) := by simp
        rw [htext, hturn, if_neg hcomma, if_pos rfl]

/-! ### Values

By the depth of nesting: each level calls the skipper of the one below. -/

/-- **The skipper is local**: what it skips does not depend on what is behind the value. The
induction is on the levels. -/
theorem valueEnd_local (levels : ℕ) : Local (valueEnd levels) := by
  induction levels with
  | zero => intro s u h; cases h
  | succ levels ih =>
    intro s u h
    cases s with
    | nil => cases h
    | cons c rest =>
      have hends : ∀ {x : Bytes} (r : Bytes), c = quote ∨ c = openBrace ∨ c = openBracket →
          Ends (c :: x) r := fun r hc => .inl ⟨c, rfl, hc⟩
      -- an object or an array, from its opening bracket on
      have hopen : ∀ isObject,
          (∀ t : Bytes, valueEnd (levels + 1) (c :: t) =
            elementsEnd (valueEnd levels) isObject (t.length + 1) t) →
          c = quote ∨ c = openBrace ∨ c = openBracket →
          ∃ x, x ≠ [] ∧ c :: rest = x ++ u ∧ Ends x u ∧
            ∀ r, Ends x r → valueEnd (levels + 1) (x ++ r) = .ok r := by
        intro isObject heq hc
        rw [heq] at h
        obtain ⟨x, rfl, hx⟩ := elementsEnd_local ih h
        refine ⟨c :: x, List.cons_ne_nil _ _, rfl, hends u hc, fun r _ => ?_⟩
        rw [List.cons_append, heq]
        refine hx r _ ?_
        rw [List.length_append]
        omega
      by_cases hq : c = quote
      · have heq : ∀ t, valueEnd (levels + 1) (c :: t) = (scanString t false).map Prod.fst := by
          intro t
          simp only [valueEnd, if_pos hq]
          rfl
        rw [heq] at h
        rcases hstr : scanString rest false with e | ⟨u', escaped⟩
        · rw [hstr] at h
          cases h
        · rw [hstr] at h
          obtain rfl := Except.ok.inj h
          obtain ⟨x, rfl, hx⟩ := scanString_local hstr
          refine ⟨c :: x, List.cons_ne_nil _ _, rfl, hends u' (.inl hq), fun r _ => ?_⟩
          rw [List.cons_append, heq, hx]
          rfl
      by_cases hb : c = openBrace
      · refine hopen true (fun t => ?_) (.inr (.inl hb))
        simp only [valueEnd, if_neg hq, if_pos hb]
      by_cases hk : c = openBracket
      · refine hopen false (fun t => ?_) (.inr (.inr hk))
        simp only [valueEnd, if_neg hq, if_neg hb, if_pos hk]
      · have heq : ∀ t, valueEnd (levels + 1) (c :: t) = literalEnd (c :: t) := by
          intro t
          simp only [valueEnd, if_neg hq, if_neg hb, if_neg hk]
        rw [heq] at h
        obtain ⟨x, hne, hs, hu, hx⟩ := literalEnd_local h
        refine ⟨x, hne, hs, .inr hu, fun r hr => ?_⟩
        rcases x with _ | ⟨c', x⟩
        · exact absurd rfl hne
        · obtain rfl : c = c' := (List.cons.inj hs).1
          rw [List.cons_append, heq, ← List.cons_append]
          refine hx r (hr.resolve_left ?_)
          rintro ⟨d, hd, hd'⟩
          obtain rfl : c = d := Option.some.inj hd
          exact hd'.elim hq fun h => h.elim hb hk

/-! ## Tokens

What the skipper takes for a value, as a text of its own. -/

/-- A text that is one value, without anything behind it. -/
def Token (levels : ℕ) (t : Bytes) : Prop := valueEnd levels t = .ok []

theorem Token.ne_nil {levels : ℕ} {t : Bytes} (h : Token levels t) : t ≠ [] := by
  rintro rfl
  cases levels <;> cases h

/-- A token is skipped before whatever may follow it. -/
theorem Token.valueEnd {levels : ℕ} {t r : Bytes} (h : Token levels t) (hr : Ends t r) :
    valueEnd levels (t ++ r) = .ok r := by
  obtain ⟨x, -, hs, -, hx⟩ := valueEnd_local levels t [] h
  rw [List.append_nil] at hs
  rw [hs] at hr ⊢
  exact hx r hr

/-- **What is skipped is a token**, and what is left may follow it. -/
theorem token_of_valueEnd {levels : ℕ} {s u : Bytes} (h : valueEnd levels s = .ok u) :
    ∃ t, s = t ++ u ∧ Token levels t ∧ Ends t u := by
  obtain ⟨x, -, hs, hends, hx⟩ := valueEnd_local levels s u h
  refine ⟨x, hs, ?_, hends⟩
  have hnil := hx [] (.nil x)
  rwa [List.append_nil] at hnil

/-- The length of a token is what the skipper comes to, where something follows that ends it. -/
theorem Token.valueLen {depth : ℕ} {t r : Bytes} (h : Token (maxDepth + 1 - depth) t)
    (hr : Ends t r) : valueLen (t ++ r) depth = .ok t.length := by
  rw [Wari.valueLen, h.valueEnd hr]
  refine congrArg Except.ok ?_
  change (t ++ r).length - r.length = t.length
  rw [List.length_append, Nat.add_sub_cancel]

theorem token_of_valueLen {depth n : ℕ} {s : Bytes} (h : valueLen s depth = .ok n) :
    ∃ t u, s = t ++ u ∧ n = t.length ∧ Token (maxDepth + 1 - depth) t ∧ Ends t u := by
  rw [Wari.valueLen] at h
  rcases hend : Wari.valueEnd (maxDepth + 1 - depth) s with e | u
  · rw [hend] at h
    cases h
  · rw [hend] at h
    obtain rfl := Except.ok.inj h
    obtain ⟨t, rfl, ht, hends⟩ := token_of_valueEnd hend
    refine ⟨t, u, rfl, ?_, ht, hends⟩
    change (t ++ u).length - u.length = t.length
    rw [List.length_append, Nat.add_sub_cancel]

/-! ## More levels

What is skipped with few levels left is skipped with more of them as well. -/

/-- What skips the same values and maybe more. -/
def Extends (skip skip' : Bytes → Except McpError Bytes) : Prop :=
  ∀ s u, skip s = .ok u → skip' s = .ok u

theorem elementEnd_extends {skip skip' : Bytes → Except McpError Bytes}
    (hext : Extends skip skip') (isObject : Bool) :
    Extends (elementEnd skip isObject) (elementEnd skip' isObject) := by
  intro s u h
  cases isObject with
  | false => exact hext s u h
  | true =>
    simp only [elementEnd, if_true] at h ⊢
    rcases hk : skip s with e | rest
    · rw [hk] at h
      cases h
    rw [hk] at h
    rw [hext s rest hk]
    simp only at h ⊢
    rcases hrest : trimStart rest with _ | ⟨c, rest₁⟩
    · rw [hrest] at h
      cases h
    rw [hrest] at h
    simp only at h ⊢
    split at h
    · rw [if_pos ‹_›]
      exact hext _ u h
    · cases h

theorem elementsEnd_extends {skip skip' : Bytes → Except McpError Bytes}
    (hext : Extends skip skip') (isObject : Bool) (n : ℕ) :
    Extends (elementsEnd skip isObject n) (elementsEnd skip' isObject n) := by
  induction n with
  | zero => intro s u h; cases h
  | succ n ih =>
    intro s u h
    rw [elementsEnd] at h ⊢
    rcases hs : trimStart s with _ | ⟨c, rest⟩
    · rw [hs] at h
      cases h
    rw [hs] at h
    simp only at h ⊢
    split at h
    · rwa [if_pos ‹_›]
    · rw [if_neg ‹_›]
      rcases helem : elementEnd skip isObject (c :: rest) with e | rest₁
      · rw [helem] at h
        cases h
      rw [helem] at h
      rw [elementEnd_extends hext isObject _ _ helem]
      simp only at h ⊢
      rcases hrest₁ : trimStart rest₁ with _ | ⟨d, rest₂⟩
      · rw [hrest₁] at h
        cases h
      rw [hrest₁] at h
      simp only at h ⊢
      split at h
      · rw [if_pos ‹_›]
        exact ih _ _ h
      · rwa [if_neg ‹_›]

theorem valueEnd_extends (levels : ℕ) : Extends (valueEnd levels) (valueEnd (levels + 1)) := by
  induction levels with
  | zero => intro s u h; cases h
  | succ levels ih =>
    intro s u h
    cases s with
    | nil => cases h
    | cons c rest =>
      rw [Wari.valueEnd] at h ⊢
      split at h
      · rwa [if_pos ‹_›]
      · rw [if_neg ‹_›]
        split at h
        · rw [if_pos ‹_›]
          exact elementsEnd_extends ih _ _ _ _ h
        · rw [if_neg ‹_›]
          split at h
          · rw [if_pos ‹_›]
            exact elementsEnd_extends ih _ _ _ _ h
          · rwa [if_neg ‹_›]

/-- A token is one with more levels to go. -/
theorem Token.mono {levels levels' : ℕ} {t : Bytes} (h : Token levels t)
    (hle : levels ≤ levels') : Token levels' t := by
  induction hle with
  | refl => exact h
  | step _ ih => exact valueEnd_extends _ _ _ ih

end Wari
