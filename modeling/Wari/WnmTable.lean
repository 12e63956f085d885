import Wari.Wnm

/-!
# What the loader accepts

The loader walks the table twice. The first walk passes exactly the tables whose entries have
known kinds, no kind twice, and a range behind the table and in the container; the second finds
the ranges again. Together they accept a container exactly when its header and its table are
laid out as documented, but for the reserved bytes of an entry, which neither walk reads.
-/

namespace Wari.Wnm

open Lib (ofLe readAt)

/-! ## Kinds

The walk keeps the kinds it has seen as bits of a byte. -/

theorem toU8_inj {kind kind' : WnmSection} : kind.toU8 = kind'.toU8 ↔ kind = kind' := by
  cases kind <;> cases kind' <;> decide

@[simp] theorem fromU8_toU8 (kind : WnmSection) : WnmSection.fromU8 kind.toU8 = some kind := by
  cases kind <;> rfl

/-- The bit of this kind is set among those seen. -/
def WnmSection.seenIn (kind : WnmSection) (seen : BitVec 8) : Bool :=
  seen.getLsbD (kind.toU8 - 1).toNat

/-- The walk's test of a bit asks whether the kind was seen. -/
theorem and_bit_ne_zero (seen : BitVec 8) (kind : WnmSection) :
    seen &&& 1#8 <<< (kind.toU8 - 1).toNat ≠ 0 ↔ kind.seenIn seen = true := by
  revert seen
  cases kind <;> decide +kernel

/-- The walk's setting of a bit notes that one kind was seen. -/
theorem seenIn_or_bit (seen : BitVec 8) (kind kind' : WnmSection) :
    kind'.seenIn (seen ||| 1#8 <<< (kind.toU8 - 1).toNat) = true ↔
      kind'.seenIn seen = true ∨ kind' = kind := by
  revert seen
  cases kind <;> cases kind' <;> decide +kernel

/-- The test for the required kinds asks whether each of them was seen. -/
theorem and_required_eq (seen : BitVec 8) :
    seen &&& required = required ↔
      ∀ kind ∈ [WnmSection.text, .safetyCert, .wasm], kind.seenIn seen = true := by
  revert seen
  decide +kernel

theorem fromU8_eq_some {b : BitVec 8} {kind : WnmSection} :
    WnmSection.fromU8 b = some kind ↔ b = kind.toU8 := by
  revert b
  cases kind <;> decide +kernel

/-! ## Reading

The table as a list of entries, of which there may be one list at most. -/

theorem rdU32_lt {bytes : List (BitVec 8)} {i v : ℕ} (h : rdU32 bytes i = some v) : v < 2 ^ 32 := by
  obtain ⟨bs, hread, rfl⟩ := Option.map_eq_some_iff.mp h
  have hlt := Lib.ofLe_lt bs
  rwa [Lib.length_readAt hread] at hlt

/-- Entry `i` of the table is this one. -/
structure EntryAt (bytes : List (BitVec 8)) (i : ℕ) (kind : WnmSection) (off len : ℕ) : Prop where
  kind : bytes[wnmHeaderLen + i * wnmSectionEntryLen]? = some kind.toU8
  offset : rdU32 bytes (wnmHeaderLen + i * wnmSectionEntryLen + 4) = some off
  len : rdU32 bytes (wnmHeaderLen + i * wnmSectionEntryLen + 8) = some len

/-- An entry: its kind, and where its payload is. -/
structure Entry where
  kind : WnmSection
  offset : ℕ
  len : ℕ

/-- From entry `i` on, the table has these entries. -/
def TableFrom (bytes : List (BitVec 8)) : ℕ → List Entry → Prop
  | _, [] => True
  | i, e :: entries => EntryAt bytes i e.kind e.offset e.len ∧ TableFrom bytes (i + 1) entries

/-- The payload is behind the table, and in the container. -/
def Entry.InBounds (tableEnd totalLen : ℕ) (e : Entry) : Prop :=
  tableEnd ≤ e.offset ∧ e.offset + e.len ≤ totalLen

/-! ## The first walk

It passes a table exactly where each entry is of a new kind, with its payload behind the table and
in the container. -/

/-- The first walk passes an entry of a new kind with its payload in place. -/
theorem checkEntry_entryAt {bytes : List (BitVec 8)} {tableEnd totalLen i off len : ℕ}
    {kind : WnmSection} {seen : BitVec 8} (hentry : EntryAt bytes i kind off len)
    (hbase : tableEnd ≤ off) (hroom : off + len ≤ totalLen) (htotal : totalLen < 2 ^ 32)
    (hnew : ¬ kind.seenIn seen = true) :
    checkEntry bytes tableEnd totalLen i seen =
      some (.ok (seen ||| 1#8 <<< (kind.toU8 - 1).toNat)) := by
  have hbounds : ¬ (off < tableEnd ∨ totalLen < off + len) := by omega
  have hbit : ¬ (seen &&& 1#8 <<< (kind.toU8 - 1).toNat ≠ 0) :=
    fun h => hnew ((and_bit_ne_zero seen kind).mp h)
  rw [checkEntry]
  simp only [hentry.kind, hentry.offset, hentry.len, Option.bind_eq_bind, Option.bind_some,
    fromU8_toU8, Option.isNone_some, Bool.false_eq_true, if_false, Option.pure_def]
  rw [if_neg (by omega), if_neg hbounds, if_neg hbit]

/-- **One entry** passes where it is a new kind with its payload in bounds. -/
theorem checkEntry_eq_ok {bytes : List (BitVec 8)} {tableEnd totalLen i : ℕ} {seen seen' : BitVec 8}
    (htotal : totalLen < 2 ^ 32) :
    checkEntry bytes tableEnd totalLen i seen = some (.ok seen') ↔
      ∃ e : Entry, EntryAt bytes i e.kind e.offset e.len ∧ e.InBounds tableEnd totalLen ∧
        ¬ e.kind.seenIn seen = true ∧ seen' = seen ||| 1#8 <<< (e.kind.toU8 - 1).toNat := by
  constructor
  · intro h
    rw [checkEntry] at h
    obtain ⟨kindByte, hkind, h⟩ := Option.bind_eq_some_iff.mp h
    rcases hfrom : WnmSection.fromU8 kindByte with _ | kind
    · rw [hfrom] at h
      cases h
    rw [hfrom] at h
    simp only [Option.isNone_some, Bool.false_eq_true, if_false] at h
    obtain ⟨offset, hoffset, h⟩ := Option.bind_eq_some_iff.mp h
    obtain ⟨len, hlen, h⟩ := Option.bind_eq_some_iff.mp h
    obtain rfl := fromU8_eq_some.mp hfrom
    split at h
    · cases h
    split at h
    · cases h
    rename_i hbounds
    split at h
    · cases h
    rename_i hbit
    have hin : tableEnd ≤ offset ∧ offset + len ≤ totalLen := by omega
    refine ⟨⟨kind, offset, len⟩, ⟨hkind, hoffset, hlen⟩, hin, ?_, ?_⟩
    · exact fun hseen => hbit ((and_bit_ne_zero seen kind).mpr hseen)
    · exact (Except.ok.inj (Option.some.inj h)).symm
  · rintro ⟨e, hentry, ⟨hbase, hroom⟩, hnew, rfl⟩
    exact checkEntry_entryAt hentry hbase hroom htotal hnew

/-- **The first walk** passes where the entries do, and has then seen their kinds. -/
theorem checkEntries_eq_ok {bytes : List (BitVec 8)} {tableEnd totalLen n i : ℕ}
    {seen seen' : BitVec 8} (htotal : totalLen < 2 ^ 32)
    (h : checkEntries bytes tableEnd totalLen n i seen = some (.ok seen')) :
    ∃ entries : List Entry, entries.length = n ∧ TableFrom bytes i entries ∧
      (∀ e ∈ entries, e.InBounds tableEnd totalLen) ∧ (entries.map Entry.kind).Nodup ∧
      (∀ e ∈ entries, ¬ e.kind.seenIn seen = true) ∧
      ∀ kind, kind.seenIn seen' = true ↔
        kind.seenIn seen = true ∨ kind ∈ entries.map Entry.kind := by
  induction n generalizing i seen with
  | zero =>
    obtain rfl := Except.ok.inj (Option.some.inj h)
    exact ⟨[], rfl, trivial, by simp, .nil, by simp, fun kind => by simp⟩
  | succ n ih =>
    rw [checkEntries] at h
    obtain ⟨check, hcheck, h⟩ := Option.bind_eq_some_iff.mp h
    rcases check with e | seen₁
    · cases h
    · obtain ⟨e, hentry, hin, hnew, rfl⟩ := (checkEntry_eq_ok htotal).mp hcheck
      obtain ⟨entries, rfl, htable, hbounds, hnodup, hfresh, hseen⟩ := ih h
      have hfirst : e.kind ∉ entries.map Entry.kind := by
        intro hmem
        obtain ⟨e', he', hkind⟩ := List.mem_map.mp hmem
        exact hfresh e' he' ((seenIn_or_bit seen e.kind e'.kind).mpr (.inr hkind))
      refine ⟨e :: entries, rfl, ⟨hentry, htable⟩, List.forall_mem_cons.mpr ⟨hin, hbounds⟩,
        List.nodup_cons.mpr ⟨hfirst, hnodup⟩, List.forall_mem_cons.mpr ⟨hnew, fun e' he' => ?_⟩,
        fun kind => ?_⟩
      · exact fun hold => hfresh e' he' ((seenIn_or_bit seen e.kind e'.kind).mpr (.inl hold))
      · rw [hseen, seenIn_or_bit, List.map_cons, List.mem_cons, or_assoc]

/-- Where a walk ends early, there is a reason. -/
theorem checkEntries_error {bytes : List (BitVec 8)} {tableEnd totalLen n i : ℕ}
    {seen : BitVec 8} {e : WnmCheck}
    (h : checkEntries bytes tableEnd totalLen n i seen = some (.error e)) : e ≠ .ok := by
  induction n generalizing i seen with
  | zero => cases h
  | succ n ih =>
    rw [checkEntries] at h
    obtain ⟨check, hcheck, h⟩ := Option.bind_eq_some_iff.mp h
    rcases check with e' | seen'
    · obtain rfl := Except.error.inj (Option.some.inj h)
      rintro rfl
      rw [checkEntry] at hcheck
      obtain ⟨kindByte, -, hcheck⟩ := Option.bind_eq_some_iff.mp hcheck
      split at hcheck
      · cases hcheck
      obtain ⟨offset, -, hcheck⟩ := Option.bind_eq_some_iff.mp hcheck
      obtain ⟨len, -, hcheck⟩ := Option.bind_eq_some_iff.mp hcheck
      split at hcheck
      · cases hcheck
      split at hcheck
      · cases hcheck
      dsimp only at hcheck
      split at hcheck
      · cases hcheck
      · cases hcheck
    · exact ih h

/-- **A table** that is in bounds and has no kind twice passes, and the kinds that were seen are
those in it. The induction is on the entries. -/
theorem checkEntries_table {bytes : List (BitVec 8)} {tableEnd totalLen i : ℕ} {seen : BitVec 8}
    {entries : List Entry} (htotal : totalLen < 2 ^ 32) (htable : TableFrom bytes i entries)
    (hbounds : ∀ e ∈ entries, e.InBounds tableEnd totalLen)
    (hkinds : (entries.map Entry.kind).Nodup)
    (hnew : ∀ e ∈ entries, ¬ e.kind.seenIn seen = true) :
    ∃ seen', checkEntries bytes tableEnd totalLen entries.length i seen = some (.ok seen') ∧
      ∀ kind, kind.seenIn seen' = true ↔
        kind.seenIn seen = true ∨ kind ∈ entries.map Entry.kind := by
  induction entries generalizing i seen with
  | nil => exact ⟨seen, rfl, fun kind => by simp⟩
  | cons e entries ih =>
    obtain ⟨hentry, htable⟩ := htable
    obtain ⟨hin, hbounds⟩ := List.forall_mem_cons.mp hbounds
    obtain ⟨hfirst, hkinds⟩ := List.nodup_cons.mp hkinds
    obtain ⟨hfresh, hnew⟩ := List.forall_mem_cons.mp hnew
    have hcheck := (checkEntry_eq_ok htotal).mpr ⟨e, hentry, hin, hfresh, rfl⟩
    have hnew' : ∀ e' ∈ entries,
        ¬ e'.kind.seenIn (seen ||| 1#8 <<< (e.kind.toU8 - 1).toNat) = true := by
      intro e' hmem hseen
      rcases (seenIn_or_bit seen e.kind e'.kind).mp hseen with hseen | he
      · exact hnew e' hmem hseen
      · exact hfirst (he ▸ List.mem_map_of_mem hmem)
    obtain ⟨seen', hrest, hseen⟩ := ih htable hbounds hkinds hnew'
    refine ⟨seen', ?_, fun kind => ?_⟩
    · rw [List.length_cons, checkEntries, hcheck]
      exact hrest
    · rw [hseen, seenIn_or_bit, List.map_cons, List.mem_cons, or_assoc]

/-! ## The second walk

It cannot fail after the first, and finds what is there. -/

/-- The range that was found for a kind. -/
def Found.get (f : Found) : WnmSection → Option Range
  | .text => f.text
  | .relocs => f.relocs
  | .safetyCert => f.cert
  | .wasm => f.wasm

theorem Found.get_put (f : Found) (kind kind' : WnmSection) (range : Range) :
    (f.put kind range).get kind' = if kind' = kind then some range else f.get kind' := by
  cases kind <;> cases kind' <;> rfl

/-- **The second walk** finds every entry, and nothing else, each under its kind. -/
theorem collect_table {bytes : List (BitVec 8)} {i : ℕ} {f : Found} {entries : List Entry}
    (htable : TableFrom bytes i entries) (hkinds : (entries.map Entry.kind).Nodup) :
    ∃ f', collect bytes entries.length i f = some f' ∧
      (∀ kind ∉ entries.map Entry.kind, f'.get kind = f.get kind) ∧
      ∀ e ∈ entries, f'.get e.kind = some (e.offset, e.len) := by
  induction entries generalizing i f with
  | nil => exact ⟨f, rfl, fun _ _ => rfl, by simp⟩
  | cons e entries ih =>
    obtain ⟨hentry, htable⟩ := htable
    obtain ⟨hfirst, hkinds⟩ := List.nodup_cons.mp hkinds
    obtain ⟨f', hrest, hother, hfound⟩ := ih (f := f.put e.kind (e.offset, e.len)) htable hkinds
    refine ⟨f', ?_, fun kind hkind => ?_, List.forall_mem_cons.mpr ⟨?_, hfound⟩⟩
    · rw [List.length_cons, collect]
      simp only [hentry.kind, hentry.offset, hentry.len, fromU8_toU8, Option.bind_eq_bind,
        Option.bind_some]
      exact hrest
    · rw [List.map_cons, List.mem_cons, not_or] at hkind
      rw [hother kind hkind.2, Found.get_put, if_neg hkind.1]
    · rw [hother e.kind hfirst, Found.get_put, if_pos rfl]

/-- The range of a kind in a plan. -/
def LoadPlan.range? (plan : LoadPlan) : WnmSection → Option Range
  | .text => some plan.text
  | .relocs => plan.relocs
  | .safetyCert => some plan.safetyCert
  | .wasm => some plan.wasm

/-! ## The layout

The check as a whole, against the layout said as a structure. -/

/-- The kinds that a module must have. -/
def requiredKinds : List WnmSection := [.text, .safetyCert, .wasm]

/-- The first byte after a table of `n` entries. -/
def tableEnd (n : ℕ) : ℕ := wnmHeaderLen + n * wnmSectionEntryLen

/-- The layout of a container, but for the reserved bytes of its entries. -/
structure LaidOut (bytes : List (BitVec 8)) (totalLen : ℕ) (entries : List Entry) : Prop where
  header : wnmHeaderLen ≤ bytes.length
  magic : readAt bytes 0 4 = some wnmMagic
  version : rdU16 bytes 4 = some wnmAbiVersion
  count : rdU16 bytes 6 = some entries.length
  total : rdU32 bytes 8 = some totalLen
  /-- the container is in the buffer, and its table in the container -/
  fits : totalLen ≤ bytes.length
  room : tableEnd entries.length ≤ totalLen
  table : TableFrom bytes 0 entries
  bounds : ∀ e ∈ entries, e.InBounds (tableEnd entries.length) totalLen
  kinds : (entries.map Entry.kind).Nodup
  complete : ∀ kind ∈ requiredKinds, kind ∈ entries.map Entry.kind

/-- The reserved bytes of the first `n` entries are zero. -/
def ReservedZero (bytes : List (BitVec 8)) (n : ℕ) : Prop :=
  ∀ i < n, readAt bytes (wnmHeaderLen + i * wnmSectionEntryLen + 1) 3 = some (List.replicate 3 0#8)

/-- **The documented layout**: the one that is checked, with the reserved bytes zero. -/
def Documented (bytes : List (BitVec 8)) : Prop :=
  ∃ totalLen entries, LaidOut bytes totalLen entries ∧ ReservedZero bytes entries.length

/-- There are only four kinds, so that distinct ones are at most four. -/
theorem length_le_of_nodup {kinds : List WnmSection} (h : kinds.Nodup) : kinds.length ≤ 4 := by
  have hsub : kinds ⊆ [.text, .relocs, .safetyCert, .wasm] := by
    intro kind _
    cases kind <;> simp
  exact (List.subperm_of_subset h hsub).length_le

section Loader

variable {bytes : List (BitVec 8)} {totalLen : ℕ} {entries : List Entry}

/-- The first walk has seen the kinds that are required. -/
theorem LaidOut.exists_seen (h : LaidOut bytes totalLen entries) :
    ∃ seen, checkEntries bytes (tableEnd entries.length) totalLen entries.length 0 0 =
      some (.ok seen) ∧ seen &&& required = required := by
  have hnew : ∀ e ∈ entries, ¬ e.kind.seenIn 0 = true := fun e _ => by simp [WnmSection.seenIn]
  obtain ⟨seen, hwalk, hseen⟩ :=
    checkEntries_table (rdU32_lt h.total) h.table h.bounds h.kinds hnew
  exact ⟨seen, hwalk, (and_required_eq seen).mpr fun kind hkind =>
    (hseen kind).mpr (.inr (h.complete kind hkind))⟩

/-- **The check passes** on what is laid out: header, table and required kinds, in turn. -/
theorem LaidOut.validateHeader_eq (h : LaidOut bytes totalLen entries) :
    validateHeader bytes = some .ok := by
  obtain ⟨seen, hwalk, hall⟩ := h.exists_seen
  have hfew := length_le_of_nodup h.kinds
  have hfits := h.fits
  have hroom := h.room
  have hlong := h.header
  have htable : wnmHeaderLen + entries.length * wnmSectionEntryLen = tableEnd entries.length := rfl
  rw [List.length_map] at hfew
  rw [tableEnd] at hroom
  rw [validateHeader]
  simp only [h.magic, h.version, h.count, h.total, Option.bind_eq_bind, Option.bind_some,
    Option.pure_def, ne_eq, not_true, if_false]
  rw [if_neg (by omega), if_neg (by rw [wnmMaxSections]; omega), if_neg (by omega),
    if_neg (by rw [wnmHeaderLen, wnmSectionEntryLen]; omega), if_neg (by omega), htable, hwalk]
  simp only [Option.bind_some, hall, not_true, if_false]

/-- **It passes on nothing else**: whatever is accepted has the layout. -/
theorem exists_laidOut (h : validateHeader bytes = some .ok) :
    ∃ totalLen entries, LaidOut bytes totalLen entries := by
  rw [validateHeader] at h
  split at h
  · cases h
  rename_i hlong
  obtain ⟨magic, hmagic, h⟩ := Option.bind_eq_some_iff.mp h
  split at h
  · cases h
  rename_i hmagic'
  obtain ⟨version, hversion, h⟩ := Option.bind_eq_some_iff.mp h
  split at h
  · cases h
  rename_i hversion'
  obtain ⟨n, hcount, h⟩ := Option.bind_eq_some_iff.mp h
  split at h
  · cases h
  obtain ⟨totalLen, htotal, h⟩ := Option.bind_eq_some_iff.mp h
  split at h
  · cases h
  rename_i hfits
  dsimp only at h
  split at h
  · cases h
  split at h
  · cases h
  rename_i hroom
  obtain ⟨check, hwalk, h⟩ := Option.bind_eq_some_iff.mp h
  rcases check with e | seen
  · exact absurd (Option.some.inj h) (checkEntries_error hwalk)
  dsimp only at h
  split at h
  · cases h
  rename_i hall
  obtain ⟨entries, rfl, htable, hbounds, hkinds, -, hseen⟩ :=
    checkEntries_eq_ok (rdU32_lt htotal) hwalk
  obtain rfl := not_not.mp hmagic'
  obtain rfl := not_not.mp hversion'
  refine ⟨totalLen, entries, Nat.not_lt.mp hlong, hmagic, hversion, hcount, htotal, by omega,
    Nat.not_lt.mp hroom, htable, hbounds, hkinds, fun kind hkind => ?_⟩
  have hkind := (hseen kind).mp ((and_required_eq seen).mp (not_not.mp hall) kind hkind)
  simpa [WnmSection.seenIn] using hkind

/-- **The loader's plan** of what is laid out has the ranges of the entries, and no other. -/
theorem LaidOut.loadPlan_eq (h : LaidOut bytes totalLen entries) :
    ∃ plan, loadPlan bytes = some (.ok plan) ∧ ∀ kind range, plan.range? kind = some range ↔
      ∃ e ∈ entries, e.kind = kind ∧ range = (e.offset, e.len) := by
  obtain ⟨f, hwalk, hother, hfound⟩ := collect_table (f := .empty) h.table h.kinds
  have hget : ∀ kind range, f.get kind = some range ↔
      ∃ e ∈ entries, e.kind = kind ∧ range = (e.offset, e.len) := by
    intro kind range
    by_cases hmem : kind ∈ entries.map Entry.kind
    · obtain ⟨e, he, rfl⟩ := List.mem_map.mp hmem
      rw [hfound e he]
      constructor
      · intro hrange
        exact ⟨e, he, rfl, (Option.some.inj hrange).symm⟩
      · rintro ⟨e', he', hkind, rfl⟩
        rw [List.inj_on_of_nodup_map h.kinds he' he hkind]
    · rw [hother kind hmem]
      refine iff_of_false (fun hrange => ?_) ?_
      · cases kind <;> cases hrange
      · rintro ⟨e, he, rfl, -⟩
        exact hmem (List.mem_map_of_mem he)
  have hsome : ∀ kind ∈ requiredKinds, ∃ range, f.get kind = some range := by
    intro kind hkind
    obtain ⟨e, he, rfl⟩ := List.mem_map.mp (h.complete kind hkind)
    exact ⟨_, hfound e he⟩
  obtain ⟨text, htext⟩ := hsome .text (by simp [requiredKinds])
  obtain ⟨cert, hcert⟩ := hsome .safetyCert (by simp [requiredKinds])
  obtain ⟨wasm, hwasm⟩ := hsome .wasm (by simp [requiredKinds])
  refine ⟨⟨text, f.relocs, cert, wasm⟩, ?_, fun kind range => ?_⟩
  · have htext : f.text = some text := htext
    have hcert : f.cert = some cert := hcert
    have hwasm : f.wasm = some wasm := hwasm
    rw [loadPlan, h.validateHeader_eq]
    simp only [Option.bind_eq_bind, Option.bind_some, ne_eq, not_true, if_false, h.count, hwalk,
      htext, hcert, hwasm, Option.pure_def]
  · rw [← hget kind range]
    cases kind with
    | text => rw [htext]; rfl
    | relocs => rfl
    | safetyCert => rw [hcert]; rfl
    | wasm => rw [hwasm]; rfl

/-- The loader has a plan only for what the check passes. -/
theorem validateHeader_of_loadPlan {plan : LoadPlan} (h : loadPlan bytes = some (.ok plan)) :
    validateHeader bytes = some .ok := by
  rw [loadPlan] at h
  obtain ⟨check, hcheck, h⟩ := Option.bind_eq_some_iff.mp h
  split at h
  · cases h
  · rename_i hok
    rw [hcheck, not_not.mp hok]

/-- The count of entries is in the header. -/
theorem LaidOut.length_eq {totalLen' : ℕ} {entries' : List Entry}
    (h : LaidOut bytes totalLen entries) (h' : LaidOut bytes totalLen' entries') :
    entries.length = entries'.length :=
  Option.some.inj (h.count.symm.trans h'.count)

end Loader

/-! ## The documented layout

The documentation has the reserved bytes of an entry zero. The check does not read them. -/

/-- Where the bytes are laid out as documented but for the reserved bytes, these are zero. -/
def ReservedRespected (bytes : List (BitVec 8)) : Prop :=
  ∀ totalLen entries, LaidOut bytes totalLen entries → ReservedZero bytes entries.length

/-- What accepts what is laid out, whatever the reserved bytes, accepts the documented layout
exactly where they are zero. -/
theorem accepts_documented_iff {bytes : List (BitVec 8)} {accepts : Prop}
    (haccepts : accepts ↔ ∃ totalLen entries, LaidOut bytes totalLen entries) :
    (accepts ↔ Documented bytes) ↔ ReservedRespected bytes := by
  rw [haccepts]
  constructor
  · intro hiff totalLen entries h
    obtain ⟨totalLen', entries', h', hzero⟩ := hiff.mp ⟨totalLen, entries, h⟩
    rwa [h.length_eq h']
  · intro hzero
    constructor
    · rintro ⟨totalLen, entries, h⟩
      exact ⟨totalLen, entries, h, hzero totalLen entries h⟩
    · rintro ⟨totalLen, entries, h, -⟩
      exact ⟨totalLen, entries, h⟩

/-- **What the loader accepts.** The check passes exactly the documented layout, if and only if
no reserved byte is set where all else is as documented. The loader has a plan exactly where the
check passes, and its ranges are behind the table and in the container. -/
theorem loader_accepts (bytes : List (BitVec 8)) :
    ((validateHeader bytes = some .ok ↔ Documented bytes) ↔ ReservedRespected bytes) ∧
    (((∃ plan, loadPlan bytes = some (.ok plan)) ↔ Documented bytes) ↔
      ReservedRespected bytes) ∧
    ((∃ plan, loadPlan bytes = some (.ok plan)) ↔ validateHeader bytes = some .ok) ∧
    ∀ plan, loadPlan bytes = some (.ok plan) → ∃ totalLen entries, LaidOut bytes totalLen entries ∧
      ∀ kind range, plan.range? kind = some range →
        tableEnd entries.length ≤ range.1 ∧ range.1 + range.2 ≤ totalLen := by
  have hcheck : validateHeader bytes = some .ok ↔
      ∃ totalLen entries, LaidOut bytes totalLen entries := by
    constructor
    · exact exists_laidOut
    · rintro ⟨totalLen, entries, h⟩
      exact h.validateHeader_eq
  have hplan : (∃ plan, loadPlan bytes = some (.ok plan)) ↔ validateHeader bytes = some .ok := by
    constructor
    · rintro ⟨plan, h⟩
      exact validateHeader_of_loadPlan h
    · intro h
      obtain ⟨totalLen, entries, hlaid⟩ := exists_laidOut h
      obtain ⟨plan, heq, -⟩ := hlaid.loadPlan_eq
      exact ⟨plan, heq⟩
  refine ⟨accepts_documented_iff hcheck, accepts_documented_iff (hplan.trans hcheck), hplan,
    fun plan h => ?_⟩
  obtain ⟨totalLen, entries, hlaid⟩ := exists_laidOut (validateHeader_of_loadPlan h)
  obtain ⟨plan', heq, hranges⟩ := hlaid.loadPlan_eq
  obtain rfl : plan' = plan := Except.ok.inj (Option.some.inj (heq.symm.trans h))
  refine ⟨totalLen, entries, hlaid, fun kind range hrange => ?_⟩
  obtain ⟨e, he, -, rfl⟩ := (hranges kind range).mp hrange
  exact hlaid.bounds e he

/-- Three empty sections, and a reserved byte of the first entry is one. -/
def reservedSet : List (BitVec 8) :=
  wnmMagic ++ ([1, 0] ++ ([3, 0] ++ ([48, 0, 0, 0] ++
    ([1, 1, 0, 0, 48, 0, 0, 0, 0, 0, 0, 0] ++ ([3, 0, 0, 0, 48, 0, 0, 0, 0, 0, 0, 0] ++
      [4, 0, 0, 0, 48, 0, 0, 0, 0, 0, 0, 0])))))

/-- A container with a reserved byte set is accepted all the same. -/
theorem loader_accepts_reservedSet :
    ¬ ∀ bytes, validateHeader bytes = some .ok ↔ Documented bytes := by
  intro hall
  obtain ⟨totalLen, entries, h, hzero⟩ := (hall reservedSet).mp (by decide +kernel)
  have hcount : entries.length = 3 := by
    have hread : rdU16 reservedSet 6 = some 3 := by decide +kernel
    exact Option.some.inj (h.count.symm.trans hread)
  have hfirst := hzero 0 (by omega)
  exact absurd hfirst (by decide +kernel)

end Wari.Wnm
