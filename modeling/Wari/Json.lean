import Wari.Lookup

/-!
# Well-formed JSON

The grammar of JSON over bytes, with the nesting of a value. What it derives is a token
(`Json.token`), so on a well-formed object whose keys have no escapes a lookup finds the first
member with the key (`objGetRaw_wellFormed`).
-/

namespace Wari

open Lib (Bytes Slice ascii)

/-! ## The grammar

As the standard has it, over bytes. The depth is that of objects and arrays in each other, since
the skipper has a bound on it. -/

def IsDigit (c : BitVec 8) : Prop := 0x30#8 ≤ c ∧ c ≤ 0x39#8

def IsHexDigit (c : BitVec 8) : Prop :=
  IsDigit c ∨ (0x41#8 ≤ c ∧ c ≤ 0x46#8) ∨ (0x61#8 ≤ c ∧ c ≤ 0x66#8)

/-- What may follow a backslash on its own. -/
def escapes : Bytes := quote :: backslash :: ascii ['/', 'b', 'f', 'n', 'r', 't']

/-- What is between the quotes of a string. Characters that are not ASCII are the bytes of
their encoding. -/
inductive JsonChars : Bytes → Prop where
  | nil : JsonChars []
  | char {c : BitVec 8} {s : Bytes} (hcontrol : 0x20#8 ≤ c) (hq : c ≠ quote)
      (hb : c ≠ backslash) (h : JsonChars s) : JsonChars (c :: s)
  | escape {c : BitVec 8} {s : Bytes} (hc : c ∈ escapes) (h : JsonChars s) :
      JsonChars (backslash :: c :: s)
  | unicode {a b c d : BitVec 8} {s : Bytes} (ha : IsHexDigit a) (hb : IsHexDigit b)
      (hc : IsHexDigit c) (hd : IsHexDigit d) (h : JsonChars s) :
      JsonChars (backslash :: 0x75#8 :: a :: b :: c :: d :: s)

/-- A string: its characters, between two quotes. -/
def JsonString (t : Bytes) : Prop := ∃ s, JsonChars s ∧ t = quote :: (s ++ [quote])

/-- One digit or more, and nothing else. -/
def Digits (s : Bytes) : Prop := s ≠ [] ∧ ∀ c ∈ s, IsDigit c

/-- A number: a sign, an integer without leading zeros, a fraction, an exponent. -/
structure JsonNumber (t : Bytes) : Prop where
  parts : ∃ sign int frac exp : Bytes, t = sign ++ (int ++ (frac ++ exp)) ∧
    (sign = [] ∨ sign = ascii ['-']) ∧
    (int = ascii ['0'] ∨ Digits int ∧ int.head? ≠ some 0x30#8) ∧
    (frac = [] ∨ ∃ ds, Digits ds ∧ frac = ascii ['.'] ++ ds) ∧
    (exp = [] ∨ ∃ e sign ds, (e = ascii ['e'] ∨ e = ascii ['E']) ∧
      (sign = [] ∨ sign = ascii ['+'] ∨ sign = ascii ['-']) ∧ Digits ds ∧ exp = e ++ (sign ++ ds))

/-- The three names that are values. -/
def jsonNames : List Bytes :=
  [ascii ['t', 'r', 'u', 'e'], ascii ['f', 'a', 'l', 's', 'e'], ascii ['n', 'u', 'l', 'l']]

/-- Texts with commas between them, and none after the last. -/
def commaSep : List Bytes → Bytes
  | [] => []
  | [x] => x
  | x :: y :: xs => x ++ comma :: commaSep (y :: xs)

/-- One element of an array, in pieces: the value, with the white space on both sides of it. -/
structure ElementText where
  before : Bytes
  value : Bytes
  after : Bytes

def ElementText.text (e : ElementText) : Bytes := e.before ++ (e.value ++ e.after)

/-- **A value** in which objects and arrays are nested at most `d` deep. -/
inductive Json : ℕ → Bytes → Prop where
  | string {d : ℕ} {t : Bytes} (h : JsonString t) : Json d t
  | number {d : ℕ} {t : Bytes} (h : JsonNumber t) : Json d t
  | name {d : ℕ} {t : Bytes} (h : t ∈ jsonNames) : Json d t
  | emptyArray {d : ℕ} {w : Bytes} (hw : Blank w) :
      Json (d + 1) (openBracket :: (w ++ [closeBracket]))
  | array {d : ℕ} {es : List ElementText} (hne : es ≠ []) (hbefore : ∀ e ∈ es, Blank e.before)
      (hvalue : ∀ e ∈ es, Json d e.value) (hafter : ∀ e ∈ es, Blank e.after) :
      Json (d + 1) (openBracket :: (commaSep (es.map ElementText.text) ++ [closeBracket]))
  | emptyObject {d : ℕ} {w : Bytes} (hw : Blank w) :
      Json (d + 1) (openBrace :: (w ++ [closeBrace]))
  | object {d : ℕ} {ms : List MemberText} (hne : ms ≠ []) (hbefore : ∀ m ∈ ms, Blank m.before)
      (hkey : ∀ m ∈ ms, JsonString m.key) (hbeforeColon : ∀ m ∈ ms, Blank m.beforeColon)
      (hafterColon : ∀ m ∈ ms, Blank m.afterColon) (hvalue : ∀ m ∈ ms, Json d m.value)
      (hafter : ∀ m ∈ ms, Blank m.after) :
      Json (d + 1) (openBrace :: (commaSep (ms.map MemberText.text) ++ [closeBrace]))

/-- **The members of an object**, between its braces, with values nested at most `d` deep. -/
inductive JsonMembers (d : ℕ) : Bytes → List MemberText → Prop where
  | none {w : Bytes} (hw : Blank w) : JsonMembers d w []
  | some {ms : List MemberText} (hne : ms ≠ []) (hbefore : ∀ m ∈ ms, Blank m.before)
      (hkey : ∀ m ∈ ms, JsonString m.key) (hbeforeColon : ∀ m ∈ ms, Blank m.beforeColon)
      (hafterColon : ∀ m ∈ ms, Blank m.afterColon) (hvalue : ∀ m ∈ ms, Json d m.value)
      (hafter : ∀ m ∈ ms, Blank m.after) : JsonMembers d (commaSep (ms.map MemberText.text)) ms

/-! ## What is derived is a token

The skipper knows brackets and strings only. On text that the grammar derives it ends where the
grammar does. -/

/-- The closing quote is the first one that is not escaped. -/
theorem JsonChars.scanString {s : Bytes} (h : JsonChars s) (r : Bytes) (e : Bool) :
    ∃ e', scanString (s ++ quote :: r) e = .ok (r, e') := by
  induction h generalizing e with
  | nil => exact ⟨e, scanString_quote r e⟩
  | char hcontrol hq hb h ih =>
    rw [List.cons_append, scanString_other hb hq]
    exact ih e
  | escape hc h ih =>
    rw [List.cons_append, List.cons_append, scanString_escape]
    exact ih true
  | @unicode a b c d s ha hb hc hd h ih =>
    have hother : ∀ x, IsHexDigit x → x ≠ backslash ∧ x ≠ quote := by
      intro x hx
      constructor <;>
      · rintro rfl
        revert hx
        unfold IsHexDigit IsDigit
        decide
    rw [List.cons_append, List.cons_append, scanString_escape]
    simp only [List.cons_append]
    rw [scanString_other (hother a ha).1 (hother a ha).2,
      scanString_other (hother b hb).1 (hother b hb).2,
      scanString_other (hother c hc).1 (hother c hc).2,
      scanString_other (hother d hd).1 (hother d hd).2]
    exact ih true

theorem JsonString.token {t : Bytes} (h : JsonString t) (levels : ℕ) : Token (levels + 1) t := by
  obtain ⟨s, hs, rfl⟩ := h
  obtain ⟨e, he⟩ := hs.scanString [] false
  rw [Token, valueEnd_quote, he]
  rfl

/-- A run of other characters is a token. -/
theorem literal_token {t : Bytes} (hne : t ≠ []) (ht : ∀ c ∈ t, isDelimiter c = false)
    (hq : ∀ c ∈ t.head?, c ≠ quote ∧ c ≠ openBrace ∧ c ≠ openBracket) (levels : ℕ) :
    Token (levels + 1) t := by
  rcases t with _ | ⟨c, s⟩
  · exact absurd rfl hne
  obtain ⟨hquote, hbrace, hbracket⟩ := hq c rfl
  have hall : (c :: s).dropWhile (fun d => !isDelimiter d) = [] :=
    Lib.dropWhile_all fun d hd => by simp [ht d hd]
  rw [Token, valueEnd_literal hquote hbrace hbracket, literalEnd, hall]
  exact if_neg (by simp)

theorem IsDigit.plain {c : BitVec 8} (h : IsDigit c) :
    isDelimiter c = false ∧ c ≠ quote ∧ c ≠ openBrace ∧ c ≠ openBracket := by
  revert h
  unfold IsDigit
  revert c
  decide

theorem JsonNumber.token {t : Bytes} (h : JsonNumber t) (levels : ℕ) : Token (levels + 1) t := by
  obtain ⟨sign, int, frac, exp, rfl, hsign, hint, hfrac, hexp⟩ := h.parts
  -- no character of a number ends it, or opens anything
  have hall : ∀ c ∈ sign ++ (int ++ (frac ++ exp)),
      isDelimiter c = false ∧ c ≠ quote ∧ c ≠ openBrace ∧ c ≠ openBracket := by
    intro c hc
    simp only [List.mem_append] at hc
    rcases hc with hc | hc | hc | hc
    · rcases hsign with rfl | rfl
      · cases hc
      · obtain rfl := List.mem_singleton.mp hc
        decide
    · rcases hint with rfl | ⟨hds, -⟩
      · obtain rfl := List.mem_singleton.mp hc
        decide
      · exact (hds.2 c hc).plain
    · rcases hfrac with rfl | ⟨ds, hds, rfl⟩
      · cases hc
      · rcases List.mem_append.mp hc with hc | hc
        · obtain rfl := List.mem_singleton.mp hc
          decide
        · exact (hds.2 c hc).plain
    · rcases hexp with rfl | ⟨e, s, ds, he, hs, hds, rfl⟩
      · cases hc
      · simp only [List.mem_append] at hc
        rcases hc with hc | hc | hc
        · rcases he with rfl | rfl <;>
          · obtain rfl := List.mem_singleton.mp hc
            decide
        · rcases hs with rfl | rfl | rfl
          · cases hc
          · obtain rfl := List.mem_singleton.mp hc
            decide
          · obtain rfl := List.mem_singleton.mp hc
            decide
        · exact (hds.2 c hc).plain
  have hne : sign ++ (int ++ (frac ++ exp)) ≠ [] := by
    have hint' : int ≠ [] := by
      rcases hint with rfl | ⟨hds, -⟩
      · exact List.cons_ne_nil _ _
      · exact hds.1
    simp [hint']
  exact literal_token hne (fun c hc => (hall c hc).1)
    (fun c hc => (hall c (List.mem_of_mem_head? hc)).2) levels

theorem jsonNames_token {t : Bytes} (h : t ∈ jsonNames) (levels : ℕ) : Token (levels + 1) t := by
  have hall : ∀ t ∈ jsonNames, t ≠ [] ∧ ∀ c ∈ t,
      isDelimiter c = false ∧ c ≠ quote ∧ c ≠ openBrace ∧ c ≠ openBracket := by decide
  obtain ⟨hne, hchars⟩ := hall t h
  exact literal_token hne (fun c hc => (hchars c hc).1)
    (fun c hc => (hchars c (List.mem_of_mem_head? hc)).2) levels

/-- Elements, with commas between them, up to the closing bracket. An element is white space,
a core, and white space. -/
theorem elementsEnd_commaSep {skip : Bytes → Except McpError Bytes} {isObject : Bool} {β : Type}
    (before core after : β → Bytes) {es : List β} (hne : es ≠ [])
    (hbefore : ∀ e ∈ es, Blank (before e)) (hafter : ∀ e ∈ es, Blank (after e))
    (hcore : ∀ e ∈ es, ∃ c s, core e = c :: s ∧ isDelimiter c = false)
    (hskip : ∀ e ∈ es, ∀ w r c, Blank w → isDelimiter c = true →
      elementEnd skip isObject (core e ++ (w ++ c :: r)) = .ok (w ++ c :: r))
    (n : ℕ) (hn : es.length ≤ n) (r : Bytes) :
    elementsEnd skip isObject n
      (commaSep (es.map fun e => before e ++ (core e ++ after e)) ++ closer isObject :: r) =
        .ok r := by
  have hclosing : isDelimiter (closer isObject) = true := by cases isObject <;> decide
  induction es generalizing n with
  | nil => exact absurd rfl hne
  | cons e es ih =>
    obtain ⟨n, rfl⟩ : ∃ n', n = n' + 1 := by
      rw [List.length_cons] at hn
      exact ⟨n - 1, by omega⟩
    obtain ⟨c, s, hc, hdelim⟩ := hcore e List.mem_cons_self
    have hnot : c ≠ closer isObject := by
      rintro rfl
      rw [hclosing] at hdelim
      cases hdelim
    have hblank := hbefore e List.mem_cons_self
    have hblank' := hafter e List.mem_cons_self
    have hspace := isSpace_of_not_delimiter hdelim
    -- the first element, and a delimiter after it
    have hfirst : ∀ d t, isDelimiter d = true → isSpace d = false →
        elementsEnd skip isObject (n + 1) (before e ++ (core e ++ (after e ++ d :: t))) =
          if d = comma then elementsEnd skip isObject n t
          else if d = closer isObject then .ok t else .error .badJson := by
      intro d t hd hds
      exact elementsEnd_element hblank (by rw [hc]; rfl) hspace hnot hblank' hds
        (hskip e List.mem_cons_self (after e) t d hblank' hd) n
    rcases es with _ | ⟨e', es⟩
    · have hcomma : closer isObject ≠ comma := by cases isObject <;> decide
      have htext : commaSep ([e].map fun e => before e ++ (core e ++ after e)) ++
          closer isObject :: r = before e ++ (core e ++ (after e ++ closer isObject :: r)) := by
        simp [commaSep]
      rw [htext, hfirst _ _ hclosing (isSpace_closer isObject), if_neg hcomma, if_pos rfl]
    · have htext : commaSep ((e :: e' :: es).map fun e => before e ++ (core e ++ after e)) ++
          closer isObject :: r = before e ++ (core e ++ (after e ++ comma ::
            (commaSep ((e' :: es).map fun e => before e ++ (core e ++ after e)) ++
              closer isObject :: r))) := by
        simp [commaSep]
      rw [htext, hfirst comma _ (by decide) isSpace_comma, if_pos rfl]
      exact ih (List.cons_ne_nil _ _) (fun x hx => hbefore x (List.mem_cons_of_mem _ hx))
        (fun x hx => hafter x (List.mem_cons_of_mem _ hx))
        (fun x hx => hcore x (List.mem_cons_of_mem _ hx))
        (fun x hx => hskip x (List.mem_cons_of_mem _ hx)) n (by simpa using hn)

/-- What is between two brackets is walked element by element, at one level less. -/
theorem valueEnd_brace (levels : ℕ) (s : Bytes) :
    valueEnd (levels + 1) (openBrace :: s) =
      elementsEnd (valueEnd levels) true (s.length + 1) s := by
  have hq : openBrace ≠ quote := by decide
  simp only [valueEnd, if_neg hq, if_true]

theorem valueEnd_bracket (levels : ℕ) (s : Bytes) :
    valueEnd (levels + 1) (openBracket :: s) =
      elementsEnd (valueEnd levels) false (s.length + 1) s := by
  have hq : openBracket ≠ quote := by decide
  have hb : openBracket ≠ openBrace := by decide
  simp only [valueEnd, if_neg hq, if_neg hb, if_true]

theorem length_le_commaSep {xs : List Bytes} (hne : ∀ x ∈ xs, x ≠ []) :
    xs.length ≤ (commaSep xs).length := by
  induction xs with
  | nil => exact Nat.le_refl _
  | cons x xs ih =>
    have hx := List.length_pos_iff.mpr (hne x List.mem_cons_self)
    have hxs := ih fun y hy => hne y (List.mem_cons_of_mem _ hy)
    rcases xs with _ | ⟨y, ys⟩
    · exact hx
    · rw [commaSep]
      simp only [List.length_append, List.length_cons] at hxs ⊢
      omega

/-- The core of a member: its key, a colon, its value. -/
def MemberText.core (m : MemberText) : Bytes :=
  m.key ++ (m.beforeColon ++ colon :: (m.afterColon ++ m.value))

theorem MemberText.text_eq (m : MemberText) : m.text = m.before ++ (m.core ++ m.after) := by
  simp [text, lead, core]

/-- A member is skipped as a whole, up to what ends its value. -/
theorem elementEnd_member {levels : ℕ} {m : MemberText} (hm : m.Valid levels) {r : Bytes}
    (hr : Ends m.value r) : elementEnd (valueEnd levels) true (m.core ++ r) = .ok r := by
  obtain ⟨d, v, hvalue, hd⟩ := hm.value.head
  have htext : m.core ++ r =
      m.key ++ (m.beforeColon ++ colon :: (m.afterColon ++ (m.value ++ r))) := by
    simp [MemberText.core]
  rw [htext]
  exact elementEnd_of_object hm.beforeColon hm.afterColon
    (hm.key.valueEnd hm.keyEnds.append_cons) ⟨d, v, hvalue, isSpace_of_not_delimiter hd⟩
    (hm.value.valueEnd hr)

/-- A member with a string for its key. -/
theorem memberText_valid {levels : ℕ} {m : MemberText} (hbefore : Blank m.before)
    (hkey : JsonString m.key) (hbeforeColon : Blank m.beforeColon)
    (hafterColon : Blank m.afterColon) (hvalue : Token (levels + 1) m.value)
    (hafter : Blank m.after) : m.Valid (levels + 1) := by
  refine ⟨hbefore, hkey.token levels, hbeforeColon, ?_, hafterColon, hvalue, hafter⟩
  obtain ⟨s, -, hs⟩ := hkey
  exact .inl ⟨quote, by rw [hs]; rfl, .inl rfl⟩

/-- **What the grammar derives is a token**, with one level more than it is nested. -/
theorem Json.token {d : ℕ} {t : Bytes} (h : Json d t) : Token (d + 1) t := by
  induction h with
  | string h => exact h.token _
  | number h => exact h.token _
  | name h => exact jsonNames_token h _
  | emptyArray hw =>
    rw [Token, valueEnd_bracket]
    exact elementsEnd_blank _ false _ hw []
  | @array d es hne hbefore hvalue hafter ih =>
    rw [Token, valueEnd_bracket]
    have hlen : es.length ≤ (commaSep (es.map ElementText.text)).length := by
      have := @length_le_commaSep (es.map ElementText.text) (by
        simp only [List.mem_map, forall_exists_index, and_imp, forall_apply_eq_imp_iff₂]
        intro e he
        simp [ElementText.text, (ih e he).ne_nil])
      rwa [List.length_map] at this
    refine @elementsEnd_commaSep _ false _ ElementText.before ElementText.value
      ElementText.after _ hne hbefore hafter (fun e he => (ih e he).head)
      (fun e he w r c hw hc => ?_)
      _ ?_ []
    · exact (ih e he).valueEnd (ends_blank _ hw hc)
    · rw [List.length_append]
      omega
  | emptyObject hw =>
    rw [Token, valueEnd_brace]
    exact elementsEnd_blank _ true _ hw []
  | @object d ms hne hbefore hkey hbeforeColon hafterColon hvalue hafter ih =>
    rw [Token, valueEnd_brace]
    have hvalid : ∀ m ∈ ms, m.Valid (d + 1) := fun m hm =>
      memberText_valid (hbefore m hm) (hkey m hm) (hbeforeColon m hm) (hafterColon m hm)
        (ih m hm) (hafter m hm)
    have htexts : ms.map MemberText.text =
        ms.map fun m => m.before ++ (m.core ++ m.after) :=
      List.map_congr_left fun m _ => m.text_eq
    have hhead : ∀ m ∈ ms, ∃ c s, m.core = c :: s ∧ isDelimiter c = false := by
      intro m hm
      obtain ⟨c, s, hc, hdelim⟩ := (hvalid m hm).key.head
      exact ⟨c, _, by rw [MemberText.core, hc]; rfl, hdelim⟩
    have hlen : ms.length ≤ (commaSep (ms.map MemberText.text)).length := by
      have := @length_le_commaSep (ms.map MemberText.text) (by
        simp only [List.mem_map, forall_exists_index, and_imp, forall_apply_eq_imp_iff₂]
        intro m hm
        simp [MemberText.text, (ih m hm).ne_nil])
      rwa [List.length_map] at this
    rw [htexts] at hlen ⊢
    refine @elementsEnd_commaSep _ true _ MemberText.before MemberText.core
      MemberText.after _ hne hbefore hafter hhead (fun m hm w r c hw hc => ?_) _ ?_ []
    · exact elementEnd_member (hvalid m hm) (ends_blank _ hw hc)
    · rw [List.length_append]
      omega

/-! ## Lookup in a well-formed object

The lookup compares keys as they are written, so it finds the first member whose key is written
so. -/

/-- The keys of the members, as they are written, and the spans of their values; the text of
the members starts at `o`. -/
def memberSpans : ℕ → List MemberText → List (Bytes × Slice)
  | _, [] => []
  | o, m :: ms => (m.key, ⟨o + m.lead.length, m.value⟩) :: memberSpans (o + m.text.length + 1) ms

/-- Members with commas between them are what the skipper takes the inside of an object to be. -/
theorem inner_commaSep {levels : ℕ} {ms : List MemberText} (hne : ms ≠ [])
    (hvalid : ∀ m ∈ ms, m.Valid levels) :
    Inner levels (commaSep (ms.map MemberText.text)) ms := by
  induction ms with
  | nil => exact absurd rfl hne
  | cons m ms ih =>
    rcases ms with _ | ⟨m', ms⟩
    · exact .last (hvalid m List.mem_cons_self)
    · exact .more (hvalid m List.mem_cons_self)
        (ih (List.cons_ne_nil _ _) fun x hx => hvalid x (List.mem_cons_of_mem _ hx))

/-- Well-formed members, as the grammar has them, are members to the skipper. -/
theorem JsonMembers.inner {d : ℕ} {s : Bytes} {ms : List MemberText} (h : JsonMembers d s ms) :
    Inner (d + 1) s ms := by
  cases h with
  | none hw => exact .blank hw
  | some hne hbefore hkey hbeforeColon hafterColon hvalue hafter =>
    exact inner_commaSep hne fun m hm =>
      memberText_valid (hbefore m hm) (hkey m hm) (hbeforeColon m hm) (hafterColon m hm)
        (hvalue m hm).token (hafter m hm)

/-- A key without escapes is the string it stands for. -/
theorem Plain.eq_iff {raw k key : Bytes} (h : Plain raw k) :
    k = key ↔ raw = quote :: (key ++ [quote]) := by
  rw [h.1]
  constructor
  · rintro rfl
    rfl
  · intro heq
    exact List.append_cancel_right (List.cons.inj heq).2

/-- Where every key can be borrowed, the first member with the key is found. -/
theorem findMember_plain (key : Bytes) {ms : List MemberText}
    (hplain : ∀ m ∈ ms, ∃ k, Plain m.key k) (o : ℕ) :
    findMember key o ms =
      ((memberSpans o ms).find? fun e => e.1 = quote :: (key ++ [quote])).map Prod.snd := by
  induction ms generalizing o with
  | nil => rfl
  | cons m ms ih =>
    obtain ⟨k, hk⟩ := hplain m List.mem_cons_self
    rw [findMember, plain_iff.mp hk, memberSpans]
    simp only
    by_cases heq : k = key
    · rw [if_pos heq, List.find?_cons_of_pos (by simpa using hk.eq_iff.mp heq)]
      rfl
    · rw [if_neg heq, List.find?_cons_of_neg (by simpa using fun h => heq (hk.eq_iff.mpr h))]
      exact ih (fun x hx => hplain x (List.mem_cons_of_mem _ hx)) _

/-- The keys of the spans are the keys of the members. -/
theorem map_fst_memberSpans (o : ℕ) (ms : List MemberText) :
    (memberSpans o ms).map Prod.fst = ms.map MemberText.key := by
  induction ms generalizing o with
  | nil => rfl
  | cons m ms ih =>
    rw [memberSpans, List.map_cons, List.map_cons, ih]

/-- **Lookup in well-formed JSON.** In an object whose keys have no escapes, the span of the
value of the first member with the key is found, and nothing if there is no such member. -/
theorem objGetRaw_wellFormed {w w' inner : Bytes} {ms : List MemberText} (hw : Blank w)
    (hw' : Blank w') (h : JsonMembers maxDepth inner ms)
    (hplain : ∀ m ∈ ms, ∃ k, Plain m.key k) (key : Bytes) :
    let obj := w ++ openBrace :: (inner ++ closeBrace :: w')
    objGetRaw obj key = ((memberSpans (w.length + 1) ms).find? fun e =>
        e.1 = quote :: (key ++ [quote])).map Prod.snd ∧
      (objGetRaw obj key = none ↔ ∀ m ∈ ms, ¬ Plain m.key key) ∧
      ∀ v, objGetRaw obj key = some v → (obj.drop v.start).take v.bytes.length = v.bytes := by
  have hfound := (objGetRaw_inner hw hw' h.inner key).trans (findMember_plain key hplain _)
  refine ⟨hfound, ?_, fun v hv => objGetRaw_span hw hw' h.inner hv⟩
  rw [hfound, Option.map_eq_none_iff, List.find?_eq_none]
  have hkeys : (∀ e ∈ memberSpans (w.length + 1) ms, ¬ e.1 = quote :: (key ++ [quote])) ↔
      ∀ k ∈ ms.map MemberText.key, ¬ k = quote :: (key ++ [quote]) := by
    rw [← map_fst_memberSpans (w.length + 1)]
    exact (List.forall_mem_map (f := Prod.fst)
      (P := fun k => ¬ k = quote :: (key ++ [quote]))).symm
  simp only [decide_eq_true_eq]
  rw [hkeys, List.forall_mem_map]
  refine forall₂_congr fun m hm => not_congr ?_
  obtain ⟨k, hk⟩ := hplain m hm
  constructor
  · intro heq
    rwa [← hk.eq_iff.mpr heq]
  · exact fun h => h.1

/-- Two members: a string with a quote and a brace in it, and a number. -/
def sampleMembers : List MemberText :=
  [⟨[], [quote, 0x61#8, quote], [0x20#8], [], [quote, backslash, quote, closeBrace, quote], []⟩,
    ⟨[0x0A#8], [quote, 0x62#8, quote], [], [0x20#8], [0x32#8], [0x20#8]⟩]

theorem sampleMembers_json :
    JsonMembers maxDepth (commaSep (sampleMembers.map MemberText.text)) sampleMembers := by
  have hstring : Json maxDepth [quote, backslash, quote, closeBrace, quote] :=
    .string ⟨[backslash, quote, closeBrace],
      .escape (by decide) (.char (by decide) (by decide) (by decide) .nil), rfl⟩
  have hnumber : Json maxDepth [0x32#8] := by
    refine .number ⟨[], [0x32#8], [], [], rfl, .inl rfl, .inr ⟨⟨by decide, ?_⟩, by decide⟩,
      .inl rfl, .inl rfl⟩
    unfold IsDigit
    decide
  have hkey : ∀ c, 0x20#8 ≤ c → c ≠ quote → c ≠ backslash → JsonString [quote, c, quote] :=
    fun c h₁ h₂ h₃ => ⟨[c], .char h₁ h₂ h₃ .nil, rfl⟩
  refine .some (List.cons_ne_nil _ _) ?_ ?_ ?_ ?_ ?_ ?_ <;>
    rw [sampleMembers, List.forall_mem_cons, List.forall_mem_singleton]
  · exact ⟨by unfold Blank; decide, by unfold Blank; decide⟩
  · exact ⟨hkey _ (by decide) (by decide) (by decide), hkey _ (by decide) (by decide) (by decide)⟩
  · exact ⟨by unfold Blank; decide, by unfold Blank; decide⟩
  · exact ⟨by unfold Blank; decide, by unfold Blank; decide⟩
  · exact ⟨hstring, hnumber⟩
  · exact ⟨by unfold Blank; decide, by unfold Blank; decide⟩

theorem objGetRaw_wellFormed_sample :
    objGetRaw (openBrace :: (commaSep (sampleMembers.map MemberText.text) ++ [closeBrace]))
      [0x62#8] = some ⟨18, [0x32#8]⟩ := by
  have hblank : Blank [] := nofun
  have hplain : ∀ m ∈ sampleMembers, ∃ k, Plain m.key k := by
    rw [sampleMembers, List.forall_mem_cons, List.forall_mem_singleton]
    exact ⟨⟨[0x61#8], rfl, by decide⟩, ⟨[0x62#8], rfl, by decide⟩⟩
  exact (objGetRaw_wellFormed hblank hblank sampleMembers_json hplain [0x62#8]).1.trans
    (by decide)

end Wari
