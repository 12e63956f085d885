import Wari.Json

/-!
# No member is dropped

A request without an id is a notification. A lookup that fails is taken for a member that is
not there, so a key that cannot be borrowed hides every member behind it, and itself.
`parseRequest_members` says for which requests that matters: those with a member whose key
stands for the name that is looked up, and none that is spelled so before the first key that
has an escape or is no string.
-/

namespace Wari

open Lib (Bytes Slice ascii)

/-! ## What a key stands for

The names of members, with the escapes a JSON string may have. A key with an escape may be any of
the names the server looks for. -/

/-- The number that a hexadecimal digit stands for, in either case. -/
def hexValue? (c : BitVec 8) : Option ℕ :=
  if 0x30#8 ≤ c ∧ c ≤ 0x39#8 then some (c.toNat - 0x30)
  else if 0x41#8 ≤ c ∧ c ≤ 0x46#8 then some (c.toNat - 0x41 + 10)
  else if 0x61#8 ≤ c ∧ c ≤ 0x66#8 then some (c.toNat - 0x61 + 10)
  else none

/-- The number that four hexadecimal digits stand for. -/
def hex4? (a b c d : BitVec 8) : Option ℕ := do
  let a ← hexValue? a
  let b ← hexValue? b
  let c ← hexValue? c
  let d ← hexValue? d
  return ((a * 16 + b) * 16 + c) * 16 + d

/-- The bytes of a character, one to four of them by its number. -/
def utf8 (n : ℕ) : Bytes :=
  if n < 0x80 then [BitVec.ofNat 8 n]
  else if n < 0x800 then [BitVec.ofNat 8 (0xC0 + n / 64), BitVec.ofNat 8 (0x80 + n % 64)]
  else if n < 0x10000 then
    [BitVec.ofNat 8 (0xE0 + n / 4096), BitVec.ofNat 8 (0x80 + n / 64 % 64),
      BitVec.ofNat 8 (0x80 + n % 64)]
  else
    [BitVec.ofNat 8 (0xF0 + n / 262144), BitVec.ofNat 8 (0x80 + n / 4096 % 64),
      BitVec.ofNat 8 (0x80 + n / 64 % 64), BitVec.ofNat 8 (0x80 + n % 64)]

/-- The escapes of one character, and what they stand for. -/
def shortEscapes : List (BitVec 8 × BitVec 8) :=
  [(quote, quote), (backslash, backslash), (0x2F#8, 0x2F#8), (0x62#8, 0x08#8), (0x66#8, 0x0C#8),
    (0x6E#8, 0x0A#8), (0x72#8, 0x0D#8), (0x74#8, 0x09#8)]

/-- The contents of a string, and the bytes they stand for. -/
inductive Denotes : Bytes → Bytes → Prop where
  | nil : Denotes [] []
  | char {c : BitVec 8} {s k : Bytes} (hcontrol : 0x20#8 ≤ c) (hq : c ≠ quote)
      (hb : c ≠ backslash) (h : Denotes s k) : Denotes (c :: s) (c :: k)
  | escape {c x : BitVec 8} {s k : Bytes} (hc : (c, x) ∈ shortEscapes) (h : Denotes s k) :
      Denotes (backslash :: c :: s) (x :: k)
  | unicode {a b c d : BitVec 8} {n : ℕ} {s k : Bytes} (hn : hex4? a b c d = some n)
      (hsingle : n < 0xD800 ∨ 0xE000 ≤ n) (h : Denotes s k) :
      Denotes (backslash :: 0x75#8 :: a :: b :: c :: d :: s) (utf8 n ++ k)
  | pair {a b c d a' b' c' d' : BitVec 8} {hi lo : ℕ} {s k : Bytes}
      (hhi : hex4? a b c d = some hi) (hlo : hex4? a' b' c' d' = some lo)
      (hhigh : 0xD800 ≤ hi ∧ hi < 0xDC00) (hlow : 0xDC00 ≤ lo ∧ lo < 0xE000)
      (h : Denotes s k) :
      Denotes (backslash :: 0x75#8 :: a :: b :: c :: d ::
        backslash :: 0x75#8 :: a' :: b' :: c' :: d' :: s)
        (utf8 (0x10000 + (hi - 0xD800) * 0x400 + (lo - 0xDC00)) ++ k)

/-- The text of a key stands for `k`. -/
def KeyDenotes (raw k : Bytes) : Prop := ∃ s, raw = quote :: (s ++ [quote]) ∧ Denotes s k

/-- A key without escapes stands for itself. -/
theorem Plain.denotes {raw k : Bytes} (h : Plain raw k) (hcontrol : ∀ c ∈ k, 0x20#8 ≤ c) :
    KeyDenotes raw k := by
  refine ⟨k, h.1, ?_⟩
  have hchars := h.2
  clear h
  induction k with
  | nil => exact .nil
  | cons c k ih =>
    obtain ⟨hq, hb⟩ := hchars c List.mem_cons_self
    exact .char (hcontrol c List.mem_cons_self) hq hb
      (ih (fun d hd => hcontrol d (List.mem_cons_of_mem _ hd))
        fun d hd => hchars d (List.mem_cons_of_mem _ hd))

/-! ## The members of a body

The members at the top level, as the skipper tells them apart. -/

/-- The members of the object that is the body. -/
def TopMembers (body : Bytes) (ms : List MemberText) : Prop :=
  ∃ w inner w', Blank w ∧ Blank w' ∧ Inner (maxDepth + 1) inner ms ∧
    body = w ++ openBrace :: (inner ++ closeBrace :: w')

/-- A member whose key stands for the name. -/
def HasMember (name : Bytes) (ms : List MemberText) : Prop := ∃ m ∈ ms, KeyDenotes m.key name

/-- A member spelled like the name, before the first key that has an escape or is no string. -/
def Spelled (name : Bytes) (ms : List MemberText) : Prop :=
  ∃ pre m post, ms = pre ++ m :: post ∧ Plain m.key name ∧ ∀ x ∈ pre, ∃ k, Plain x.key k

/-- **What is skipped between braces** are members, one after the other. The induction is on the
turns of the loop. -/
theorem inner_of_elementsEnd {levels n : ℕ} {s u : Bytes}
    (h : elementsEnd (valueEnd levels) true n s = .ok u) :
    ∃ inner ms, s = inner ++ closeBrace :: u ∧ Inner levels inner ms := by
  induction n generalizing s with
  | zero => cases h
  | succ n ih =>
    obtain ⟨w, c, rest, hw, -, rfl, ⟨rfl, rfl⟩ | ⟨-, w', d, rest', hw', -, helem, hafter⟩⟩ :=
      elementsEnd_cases h
    · exact ⟨w, [], rfl, .blank hw⟩
    obtain ⟨k, bc, ac, v, htext, hbc, hac, ⟨hkne, hkends, hk⟩, -, -, hv⟩ :=
      elementEnd_object (valueEnd_local levels) helem
    have htoken : ∀ {t : Bytes}, (∀ r, Ends t r → valueEnd levels (t ++ r) = .ok r) →
        Token levels t := fun ht => by
      have hnil := ht [] (.nil _)
      rwa [List.append_nil] at hnil
    have hm : (⟨w, k, bc, ac, v, w'⟩ : MemberText).Valid levels :=
      ⟨hw, htoken hk, hbc, hkends, hac, htoken hv, hw'⟩
    rcases hafter with ⟨rfl, h⟩ | ⟨-, rfl, rfl⟩
    · obtain ⟨inner, ms, rfl, hinner⟩ := ih h
      refine ⟨_, _, ?_, .more hm hinner⟩
      rw [htext]
      simp [MemberText.text, MemberText.lead]
    · refine ⟨_, _, ?_, .last hm⟩
      rw [htext]
      simp [MemberText.text, MemberText.lead, closer]

/-- An object that is one token has members. -/
theorem inner_of_token {levels : ℕ} {s : Bytes} (h : Token (levels + 1) (openBrace :: s)) :
    ∃ inner ms, s = inner ++ [closeBrace] ∧ Inner levels inner ms := by
  have hq : openBrace ≠ quote := by decide
  rw [Token] at h
  simp only [valueEnd, if_neg hq, if_true] at h
  exact inner_of_elementsEnd h

theorem Inner.mono {levels levels' : ℕ} {s : Bytes} {ms : List MemberText}
    (h : Inner levels s ms) (hle : levels ≤ levels') : Inner levels' s ms := by
  have hvalid : ∀ {m : MemberText}, m.Valid levels → m.Valid levels' := fun hm =>
    { hm with key := hm.key.mono hle, value := hm.value.mono hle }
  induction h with
  | blank hw => exact .blank hw
  | last hm => exact .last (hvalid hm)
  | more hm h ih => exact .more (hvalid hm) ih

/-- Trimming takes white space off both ends, and nothing else. -/
theorem trim_split (s : Bytes) : ∃ w w', Blank w ∧ Blank w' ∧ s = w ++ (trim s ++ w') := by
  obtain ⟨w, t, w', rfl, ht⟩ := Lib.exists_trimmed isSpace s
  have htrim : trim (w ++ (t ++ w')) = t := ht.trim_eq
  exact ⟨w, w', ht.lead, ht.trail, by rw [htrim]⟩

theorem blank_of_trim {s : Bytes} (h : trim s = []) : Blank s := by
  obtain ⟨w, w', hw, hw', hs⟩ := trim_split s
  rw [hs, h]
  exact hw.append hw'

/-- **The object that is the body**, once it was found: its members are those of the body, and
white space is all that is around it. -/
theorem objectSpan_ok {body obj : Bytes} (h : objectSpan body = .ok obj) :
    (∃ ms, TopMembers body ms) ∧ ∀ ms, TopMembers body ms →
      ∃ inner, Inner (maxDepth + 1) inner ms ∧ obj = openBrace :: (inner ++ [closeBrace]) := by
  rw [objectSpan] at h
  split at h
  · cases h
  rename_i hhead
  rcases hlen : valueLen (trim body) 0 with e | len
  · rw [hlen] at h
    cases h
  rw [hlen] at h
  simp only at h
  split at h
  · cases h
  rename_i htail
  rw [not_not] at hhead htail
  obtain rfl := Except.ok.inj h
  obtain ⟨x, u, hx, rfl, htoken, -⟩ := token_of_valueLen hlen
  have hu : Blank u := by
    rw [hx, List.drop_left] at htail
    exact blank_of_trim htail
  rw [hx, List.take_left]
  constructor
  · obtain ⟨w, w', hw, hw', hbody⟩ := trim_split body
    obtain ⟨s, rfl⟩ : ∃ s, x = openBrace :: s := by
      rcases x with _ | ⟨c, s⟩
      · exact absurd rfl htoken.ne_nil
      · rw [hx] at hhead
        exact ⟨s, by rw [Option.some.inj hhead]⟩
    obtain ⟨inner, ms, rfl, hinner⟩ := @inner_of_token maxDepth _ htoken
    refine ⟨ms, w, inner, u ++ w', hw, hu.append hw', hinner.mono (Nat.le_succ _), ?_⟩
    rw [hbody, hx]
    simp
  · rintro ms ⟨w, inner, w', hw, hw', hinner, rfl⟩
    refine ⟨inner, hinner, ?_⟩
    rw [trim_braces hw hw'] at hx
    -- the text ends in a brace, so nothing is left behind the value
    rcases List.eq_nil_or_concat u with rfl | ⟨u, c, rfl⟩
    · rw [List.append_nil] at hx
      exact hx.symm
    · have hlast : openBrace :: (inner ++ [closeBrace]) = openBrace :: inner ++ [closeBrace] := rfl
      rw [hlast, List.concat_eq_append, ← List.append_assoc] at hx
      obtain rfl : closeBrace = c := List.head_eq_of_cons_eq (List.append_inj' hx rfl).2
      exact absurd (hu closeBrace (by simp)) (by decide)

/-! ## What is found

A lookup fails where no member is spelled so before the first key that cannot be borrowed. A
member behind such a key is not found at all. -/

theorem Inner.token {levels : ℕ} {s : Bytes} {ms : List MemberText} (h : Inner levels s ms) :
    ∀ m ∈ ms, Token levels m.key := by
  induction h with
  | blank hw => exact nofun
  | last hm =>
    intro m hmem
    obtain rfl := List.mem_singleton.mp hmem
    exact hm.key
  | more hm h ih =>
    intro m hmem
    rcases List.mem_cons.mp hmem with rfl | hmem
    · exact hm.key
    · exact ih m hmem

/-- **A lookup fails** when no member is spelled so before the first key that cannot be
borrowed. -/
theorem findMember_eq_none {levels : ℕ} {ms : List MemberText}
    (htoken : ∀ m ∈ ms, Token levels m.key) (name : Bytes) (o : ℕ) :
    findMember name o ms = none ↔ ¬ Spelled name ms := by
  induction ms generalizing o with
  | nil =>
    refine iff_of_true rfl ?_
    rintro ⟨pre, m, post, h, -⟩
    simp at h
  | cons m ms ih =>
    have ih' := ih (fun x hx => htoken x (List.mem_cons_of_mem _ hx)) (o + m.text.length + 1)
    rw [findMember]
    rcases htake : takeString m.key with e | ⟨k, r⟩
    · -- this key hides what is behind it
      refine iff_of_true rfl ?_
      rintro ⟨pre, m', post, h, hplain, hpre⟩
      have hfirst : ∃ k, Plain m.key k := by
        rcases pre with _ | ⟨x, pre⟩
        · rw [(List.cons.inj h).1]
          exact ⟨name, hplain⟩
        · rw [(List.cons.inj h).1]
          exact hpre x List.mem_cons_self
      obtain ⟨k, hk⟩ := hfirst
      rw [plain_iff.mp hk] at htake
      cases htake
    · obtain ⟨hplain, -⟩ := plain_of_append (r := []) (htoken m List.mem_cons_self)
        (by rwa [List.append_nil])
      simp only
      by_cases hk : k = name
      · rw [if_pos hk]
        refine iff_of_false (Option.some_ne_none _) (not_not.mpr ?_)
        exact ⟨[], m, ms, rfl, hk ▸ hplain, by simp⟩
      · rw [if_neg hk, ih', not_iff_not]
        constructor
        · rintro ⟨pre, m', post, rfl, hm', hpre⟩
          refine ⟨m :: pre, m', post, rfl, hm', fun x hx => ?_⟩
          rcases List.mem_cons.mp hx with rfl | hx
          · exact ⟨k, hplain⟩
          · exact hpre x hx
        · rintro ⟨pre, m', post, h, hm', hpre⟩
          rcases pre with _ | ⟨x, pre⟩
          · rw [← (List.cons.inj h).1] at hm'
            exact absurd (List.append_cancel_right
              (List.cons.inj (hplain.1.symm.trans hm'.1)).2) hk
          · exact ⟨pre, m', post, (List.cons.inj h).2, hm',
              fun y hy => hpre y (List.mem_cons_of_mem _ hy)⟩

/-- The two names that are looked up have no control characters. -/
theorem printable_keys : (∀ c ∈ idKey, 0x20#8 ≤ c) ∧ ∀ c ∈ paramsKey, 0x20#8 ≤ c := by decide

theorem Spelled.hasMember {name : Bytes} {ms : List MemberText} (h : Spelled name ms)
    (hcontrol : ∀ c ∈ name, 0x20#8 ≤ c) : HasMember name ms := by
  obtain ⟨pre, m, post, rfl, hm, -⟩ := h
  exact ⟨m, by simp, hm.denotes hcontrol⟩

/-- What a lookup of a name says of the members, and when that is right. -/
theorem absent_iff {levels : ℕ} {ms : List MemberText} (htoken : ∀ m ∈ ms, Token levels m.key)
    {name : Bytes} (hcontrol : ∀ c ∈ name, 0x20#8 ≤ c) (o : ℕ) :
    (findMember name o ms = none ↔ ¬ HasMember name ms) ↔
      (HasMember name ms → Spelled name ms) := by
  rw [findMember_eq_none htoken, not_iff_not]
  exact ⟨fun h => h.mpr, fun h => ⟨fun hs => hs.hasMember hcontrol, h⟩⟩

/-- Only a member that was not found is an absent id. -/
theorem parseId_absent {raw : Option Slice} : parseId raw = .ok .absent ↔ raw = none := by
  rcases raw with _ | raw
  · exact iff_of_true rfl rfl
  · refine iff_of_false (fun h => ?_) (Option.some_ne_none _)
    rw [parseId.eq_def] at h
    simp only at h
    split at h
    · cases h
    · split at h
      · rcases hstr : asStr raw.bytes with e | s <;>
        · rw [hstr] at h
          cases h
      · rcases hint : parseI64 raw.bytes with e | n <;>
        · rw [hint] at h
          cases h

/-- What the parts of a request are read from: each is the value of a member of the object. -/
theorem parseRequest_ok {body : Bytes} {r : RpcRequest} (h : parseRequest body = .ok r) :
    ∃ obj, objectSpan body = .ok obj ∧ parseId (objGetRaw obj idKey) = .ok r.id ∧
      (r.params = none ↔ objGetRaw obj paramsKey = none) := by
  rw [parseRequest] at h
  split at h
  · cases h
  rename_i obj hobj
  refine ⟨obj, hobj, ?_⟩
  split at h
  · cases h
  split at h
  · cases h
  split at h
  · cases h
  split at h
  · cases h
  split at h
  · cases h
  split at h
  · cases h
  rename_i id hid
  obtain rfl := Except.ok.inj h
  exact ⟨hid, Option.map_eq_none_iff⟩

/-- **When no member is dropped.** A request tells truly whether it has an id and parameters
exactly if a member whose key stands for the name comes with one that is spelled so, before
the first key that has an escape or is no string. -/
theorem parseRequest_members (body : Bytes) (r : RpcRequest) (h : parseRequest body = .ok r) :
    (∃ ms, TopMembers body ms) ∧ ∀ ms, TopMembers body ms →
      (((r.id = .absent ↔ ¬ HasMember idKey ms) ∧ (r.params = none ↔ ¬ HasMember paramsKey ms)) ↔
        (HasMember idKey ms → Spelled idKey ms) ∧
          (HasMember paramsKey ms → Spelled paramsKey ms)) := by
  obtain ⟨obj, hobj, hid, hparams⟩ := parseRequest_ok h
  obtain ⟨hsome, hall⟩ := objectSpan_ok hobj
  refine ⟨hsome, fun ms hms => ?_⟩
  obtain ⟨inner, hinner, rfl⟩ := hall ms hms
  have hfind : ∀ name, objGetRaw (openBrace :: (inner ++ [closeBrace])) name =
      findMember name 1 ms := fun name =>
    @objGetRaw_inner [] [] _ _ nofun nofun hinner name
  have habsent :
      r.id = .absent ↔ objGetRaw (openBrace :: (inner ++ [closeBrace])) idKey = none := by
    rw [← parseId_absent, hid, Except.ok.injEq]
  rw [habsent, hparams, hfind, hfind, absent_iff hinner.token printable_keys.1,
    absent_iff hinner.token printable_keys.2]

/-- The members of a request, with one more that has the key given. -/
def requestMembers (key : Bytes) : List MemberText :=
  [⟨[], quote :: (ascii ['j', 's', 'o', 'n', 'r', 'p', 'c'] ++ [quote]), [], [],
      quote :: (ascii ['2', '.', '0'] ++ [quote]), []⟩,
    ⟨[], quote :: (ascii ['m', 'e', 't', 'h', 'o', 'd'] ++ [quote]), [], [],
      quote :: (ascii ['m'] ++ [quote]), []⟩,
    ⟨[], key, [], [], ascii ['7'], []⟩]

/-- The body with these members. -/
def requestBody (key : Bytes) : Bytes :=
  openBrace :: (commaSep ((requestMembers key).map MemberText.text) ++ closeBrace :: [])

theorem requestBody_members {key : Bytes} (hkey : JsonString key) :
    TopMembers (requestBody key) (requestMembers key) := by
  have hblank : Blank [] := nofun
  have hname : ∀ cs : List Char, (∀ c ∈ ascii cs, 0x20#8 ≤ c ∧ c ≠ quote ∧ c ≠ backslash) →
      JsonString (quote :: (ascii cs ++ [quote])) := by
    intro cs hcs
    refine ⟨ascii cs, ?_, rfl⟩
    generalize ascii cs = s at hcs
    induction s with
    | nil => exact .nil
    | cons c s ih =>
      obtain ⟨hcontrol, hq, hb⟩ := hcs c List.mem_cons_self
      exact .char hcontrol hq hb (ih fun d hd => hcs d (List.mem_cons_of_mem _ hd))
  refine ⟨[], _, [], hblank, hblank, inner_commaSep (List.cons_ne_nil _ _) ?_, rfl⟩
  rw [requestMembers, List.forall_mem_cons, List.forall_mem_cons, List.forall_mem_singleton]
  refine ⟨?_, ?_, ?_⟩
  · exact memberText_valid hblank (hname _ (by decide)) hblank hblank
      ((hname _ (by decide)).token _) hblank
  · exact memberText_valid hblank (hname _ (by decide)) hblank hblank
      ((hname _ (by decide)).token _) hblank
  · exact memberText_valid hblank hkey hblank hblank (by rfl) hblank

/-- The key of the id, as it is written. -/
def plainId : Bytes := quote :: (idKey ++ [quote])

/-- The key of the id, with its first letter written as an escape. -/
def escapedId : Bytes := quote :: backslash :: (ascii ['u', '0', '0', '6', '9', 'd'] ++ [quote])

theorem parseRequest_members_plain :
    parseRequest (requestBody plainId) = .ok ⟨.int 7, ascii ['m'], none⟩ ∧
      (((Id.int 7 = .absent ↔ ¬ HasMember idKey (requestMembers plainId)) ∧
          ((none : Option Slice) = none ↔ ¬ HasMember paramsKey (requestMembers plainId))) ↔
        (HasMember idKey (requestMembers plainId) → Spelled idKey (requestMembers plainId)) ∧
          (HasMember paramsKey (requestMembers plainId) →
            Spelled paramsKey (requestMembers plainId))) := by
  have hparse : parseRequest (requestBody plainId) = .ok ⟨.int 7, ascii ['m'], none⟩ := by
    decide +kernel
  have hkey : JsonString plainId := ⟨idKey, .char (by decide) (by decide) (by decide)
    (.char (by decide) (by decide) (by decide) .nil), rfl⟩
  exact ⟨hparse, (parseRequest_members _ _ hparse).2 _ (requestBody_members hkey)⟩

/-- **An id is dropped**: with an escape in its key, the request is taken for a
notification. -/
theorem escaped_id_dropped : ¬ ∀ body r ms, parseRequest body = .ok r → TopMembers body ms →
    (r.id = .absent ↔ ¬ HasMember idKey ms) ∧ (r.params = none ↔ ¬ HasMember paramsKey ms) := by
  intro hall
  have hparse : parseRequest (requestBody escapedId) = .ok ⟨.absent, ascii ['m'], none⟩ := by
    decide +kernel
  have hhex : ∀ c ∈ ascii ['0', '0', '6', '9'], IsHexDigit c := by
    unfold IsHexDigit IsDigit
    decide
  have hkey : JsonString escapedId := by
    refine ⟨backslash :: ascii ['u', '0', '0', '6', '9', 'd'], ?_, rfl⟩
    exact .unicode (hhex _ (by decide)) (hhex _ (by decide)) (hhex _ (by decide))
      (hhex _ (by decide)) (.char (by decide) (by decide) (by decide) .nil)
  have hmember : HasMember idKey (requestMembers escapedId) := by
    refine ⟨⟨[], escapedId, [], [], ascii ['7'], []⟩, by simp [requestMembers],
      backslash :: ascii ['u', '0', '0', '6', '9', 'd'], rfl, ?_⟩
    exact .unicode (n := 0x69) rfl (.inl (by decide))
      (.char (by decide) (by decide) (by decide) .nil)
  exact (hall _ _ _ hparse (requestBody_members hkey)).1.mp rfl hmember

end Wari
