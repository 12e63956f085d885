import Wari.WnmTable

/-!
# The loader finds what was packed

A packed container is a header, the table and the payloads, one after the other. Both walks of
the loader read such a table entry by entry.
-/

namespace Wari.Wnm

open Lib (toLe ofLe readAt writeAt readAt_middle writeAt_middle length_toLe ofLe_toLe)

/-! ## The layout

A container written down as the concatenation of its parts, without the buffer it is built in. -/

/-- A table entry: the kind, three reserved bytes that are zero, the offset and the length. -/
def entryBytes (kind : WnmSection) (off len : ℕ) : List (BitVec 8) :=
  kind.toU8 :: (List.replicate 3 0#8 ++ (toLe 4 off ++ toLe 4 len))

/-- The table, where the first payload lies at `off`. -/
def tableBytes : ℕ → List Section → List (BitVec 8)
  | _, [] => []
  | off, s :: sections =>
    entryBytes s.kind off s.data.length ++ tableBytes (off + s.data.length) sections

/-- The payloads, one after the other and without gaps. -/
def payloads (sections : List Section) : List (BitVec 8) := sections.flatMap Section.data

/-- The header: the magic, the version, the number of sections and the length of the whole. -/
def headerBytes (n totalLen : ℕ) : List (BitVec 8) :=
  wnmMagic ++ (toLe 2 wnmAbiVersion ++ (toLe 2 n ++ toLe 4 totalLen))

/-- The first byte after the table, which is where the first payload goes. -/
def payloadBase (sections : List Section) : ℕ :=
  wnmHeaderLen + sections.length * wnmSectionEntryLen

/-- The size of the container: header, table and payloads. -/
def encodedSize (sections : List Section) : ℕ :=
  payloadBase sections + (sections.map fun s => s.data.length).sum

/-- A container with the sections in this order. -/
def container (sections : List Section) : List (BitVec 8) :=
  headerBytes sections.length (encodedSize sections) ++
    (tableBytes (payloadBase sections) sections ++ payloads sections)

/-- The sections, each with the place of its payload. -/
def placed : ℕ → List Section → List (Section × ℕ)
  | _, [] => []
  | off, s :: sections => (s, off) :: placed (off + s.data.length) sections

/-- The entries of these sections, with the first payload at `off` and the others behind it. -/
def entriesOf (off : ℕ) (sections : List Section) : List Entry :=
  (placed off sections).map fun p => ⟨p.1.kind, p.2, p.1.data.length⟩

@[simp] theorem length_entryBytes (kind : WnmSection) (off len : ℕ) :
    (entryBytes kind off len).length = 12 := by
  simp [entryBytes]

@[simp] theorem length_tableBytes (off : ℕ) (sections : List Section) :
    (tableBytes off sections).length = sections.length * 12 := by
  induction sections generalizing off with
  | nil => rw [tableBytes, List.length_nil, List.length_nil, Nat.zero_mul]
  | cons s sections ih =>
    rw [tableBytes, List.length_append, length_entryBytes, ih, List.length_cons]
    omega

@[simp] theorem length_headerBytes (n totalLen : ℕ) : (headerBytes n totalLen).length = 12 := by
  simp [headerBytes, wnmMagic]

theorem length_payloads (sections : List Section) :
    (payloads sections).length = (sections.map fun s => s.data.length).sum :=
  List.length_flatMap

theorem payloads_cons (s : Section) (sections : List Section) :
    payloads (s :: sections) = s.data ++ payloads sections :=
  List.flatMap_cons

theorem length_container (sections : List Section) :
    (container sections).length = encodedSize sections := by
  rw [container, List.length_append, List.length_append, length_headerBytes, length_tableBytes,
    length_payloads, encodedSize, payloadBase, wnmHeaderLen, wnmSectionEntryLen]
  omega

/-- Every section has a place in the container. -/
theorem exists_placed {s : Section} {sections : List Section} (h : s ∈ sections) (off : ℕ) :
    ∃ place, (s, place) ∈ placed off sections := by
  induction sections generalizing off with
  | nil => cases h
  | cons s' sections ih =>
    rcases List.mem_cons.mp h with rfl | hmem
    · exact ⟨off, List.mem_cons_self⟩
    · obtain ⟨place, hplace⟩ := ih hmem (off + s'.data.length)
      exact ⟨place, List.mem_cons_of_mem _ hplace⟩

/-- **The payload is at its place**: what is read there, at the length in the entry, is the data
of the section. -/
theorem readAt_placed (front : List (BitVec 8)) {s : Section} {place : ℕ} {sections : List Section}
    (h : (s, place) ∈ placed front.length sections) :
    readAt (front ++ payloads sections) place s.data.length = some s.data := by
  induction sections generalizing front with
  | nil => cases h
  | cons s' sections ih =>
    rw [payloads_cons]
    rcases List.mem_cons.mp h with he | hmem
    · obtain ⟨rfl, rfl⟩ := Prod.mk.inj he
      exact readAt_middle _ rfl rfl rfl
    · rw [← List.append_assoc]
      exact ih _ (by rwa [List.length_append])

/-! ## Packing

The packer fills a buffer of zeros, at two places that move independently. The loop invariant says
what the buffer is at both. -/

/-- One section is written over zeros: its entry, and its payload. -/
theorem writeSection_zeros {front mid rest : List (BitVec 8)} {i off : ℕ} (s : Section)
    (hfront : front.length = 12 + i * 12) (hoff : off = front.length + 12 + mid.length) :
    writeSection (front ++ (List.replicate 12 0#8 ++
        (mid ++ (List.replicate s.data.length 0#8 ++ rest)))) i off s =
      some (front ++ (entryBytes s.kind off s.data.length ++ (mid ++ (s.data ++ rest)))) := by
  generalize hout : mid ++ (List.replicate s.data.length 0#8 ++ rest) = out
  have hkind : writeAt (front ++ (List.replicate 12 0#8 ++ out)) (12 + i * 12) [s.kind.toU8] =
      some (front ++ ([s.kind.toU8] ++ (List.replicate 11 0#8 ++ out))) :=
    writeAt_middle _ [0#8] rfl hfront.symm rfl
  have hat : writeAt (front ++ ([s.kind.toU8] ++ (List.replicate 11 0#8 ++ out)))
        (12 + i * 12 + 4) (toLe 4 off) =
      some ((front ++ (s.kind.toU8 :: List.replicate 3 0#8)) ++
        (toLe 4 off ++ (List.replicate 4 0#8 ++ out))) := by
    refine writeAt_middle _ (List.replicate 4 0#8) ?_ ?_ ?_
    · simp [List.replicate_succ]
    · simp [hfront]
    · simp
  have hlen : writeAt ((front ++ (s.kind.toU8 :: List.replicate 3 0#8)) ++
        (toLe 4 off ++ (List.replicate 4 0#8 ++ out))) (12 + i * 12 + 8) (toLe 4 s.data.length) =
      some ((front ++ (s.kind.toU8 :: List.replicate 3 0#8) ++ toLe 4 off) ++
        (toLe 4 s.data.length ++ out)) := by
    refine writeAt_middle _ (List.replicate 4 0#8) ?_ ?_ ?_
    · rw [List.append_assoc _ (toLe 4 off)]
    · simp [hfront]
    · simp
  have hdata : writeAt ((front ++ (s.kind.toU8 :: List.replicate 3 0#8) ++ toLe 4 off) ++
        (toLe 4 s.data.length ++ out)) off s.data =
      some ((front ++ entryBytes s.kind off s.data.length ++ mid) ++ (s.data ++ rest)) := by
    refine writeAt_middle _ (List.replicate s.data.length 0#8) ?_ ?_ List.length_replicate
    · simp [← hout, entryBytes]
    · simp [hoff]
      omega
  rw [writeSection, wnmHeaderLen, wnmSectionEntryLen]
  simp only [hkind, hat, hlen, hdata, Option.bind_eq_bind, Option.bind_some]
  simp only [List.append_assoc]

/-- **The loop** writes the rest of the table and of the payloads over zeros. -/
theorem writeSections_zeros (sections : List Section) {front : List (BitVec 8)}
    (mid : List (BitVec 8)) {i : ℕ} (off : ℕ)
    (hfront : front.length = 12 + i * 12)
    (hoff : off = front.length + sections.length * 12 + mid.length) :
    writeSections (front ++ (List.replicate (sections.length * 12) 0#8 ++
        (mid ++ List.replicate (payloads sections).length 0#8))) i off sections =
      some (front ++ (tableBytes off sections ++ (mid ++ payloads sections)),
        off + (payloads sections).length) := by
  induction sections generalizing front mid i off with
  | nil => rfl
  | cons s sections ih =>
    have hzeros : front ++ (List.replicate ((s :: sections).length * 12) 0#8 ++
          (mid ++ List.replicate (payloads (s :: sections)).length 0#8)) =
        front ++ (List.replicate 12 0#8 ++
          ((List.replicate (sections.length * 12) 0#8 ++ mid) ++
            (List.replicate s.data.length 0#8 ++
              List.replicate (payloads sections).length 0#8))) := by
      rw [List.length_cons, Nat.succ_mul, Nat.add_comm, ← List.replicate_append_replicate,
        payloads_cons, List.length_append, ← List.replicate_append_replicate]
      simp only [List.append_assoc]
    have hcursor : off = front.length + 12 +
        (List.replicate (sections.length * 12) 0#8 ++ mid).length := by
      rw [List.length_append, List.length_replicate, hoff, List.length_cons]
      omega
    have hrest : front ++ (entryBytes s.kind off s.data.length ++
          ((List.replicate (sections.length * 12) 0#8 ++ mid) ++
            (s.data ++ List.replicate (payloads sections).length 0#8))) =
        (front ++ entryBytes s.kind off s.data.length) ++
          (List.replicate (sections.length * 12) 0#8 ++
            ((mid ++ s.data) ++ List.replicate (payloads sections).length 0#8)) := by
      simp only [List.append_assoc]
    rw [hzeros, writeSections, writeSection_zeros s hfront hcursor]
    simp only [Option.bind_eq_bind, Option.bind_some]
    rw [hrest, ih, tableBytes, payloads_cons, List.length_append]
    · simp only [List.append_assoc, Nat.add_assoc]
    · rw [List.length_append, length_entryBytes, hfront]
      omega
    · rw [List.length_append, List.length_append, length_entryBytes, hoff, List.length_cons]
      omega

/-- Sections of distinct kinds have no duplicate among them. -/
theorem duplicate?_eq_none {sections : List Section} (h : (sections.map Section.kind).Nodup) :
    duplicate? sections = none := by
  induction sections with
  | nil => rfl
  | cons s sections ih =>
    cases sections with
    | nil => rfl
    | cons s' sections =>
      rw [List.map_cons, List.nodup_cons, List.map_cons] at h
      rw [duplicate?, if_neg fun he => h.1 (List.mem_cons.mpr (.inl (toU8_inj.mp he)))]
      exact ih h.2

theorem length_le_of_nodup_kinds {sections : List Section}
    (h : (sections.map Section.kind).Nodup) : sections.length ≤ 4 := by
  have hle := length_le_of_nodup h
  rwa [List.length_map] at hle

theorem sortByKind_perm (sections : List Section) : (sortByKind sections).Perm sections :=
  List.perm_insertionSort _ sections

/-- The size does not depend on the order. -/
theorem encodedSize_perm {sections sections' : List Section} (h : sections.Perm sections') :
    encodedSize sections = encodedSize sections' := by
  rw [encodedSize, payloadBase, h.length_eq, (h.map _).sum_nat, encodedSize, payloadBase]

/-- **What is packed**: a container with the sections sorted by kind, each payload at the offset
its entry tells. -/
theorem encode_eq {sections : List Section} (hkinds : (sections.map Section.kind).Nodup)
    (hsize : encodedSize sections < 2 ^ 32) :
    encode sections = some (.ok (container (sortByKind sections))) := by
  have hperm := sortByKind_perm sections
  have hkinds' : ((sortByKind sections).map Section.kind).Nodup :=
    (hperm.map Section.kind).nodup_iff.mpr hkinds
  rw [← encodedSize_perm hperm] at hsize
  rw [encode]
  generalize sortByKind sections = sorted at hkinds' hsize
  dsimp only
  rw [duplicate?_eq_none hkinds']
  have hfew := length_le_of_nodup_kinds hkinds'
  dsimp only
  rw [if_neg (by rw [wnmMaxSections]; omega)]
  have htotal : wnmHeaderLen + sorted.length * wnmSectionEntryLen +
      (sorted.map fun s => s.data.length).sum = encodedSize sorted := rfl
  rw [htotal, if_neg (Nat.not_le.mpr hsize)]
  generalize hrest : List.replicate (sorted.length * 12) 0#8 ++
    ([] ++ List.replicate (payloads sorted).length 0#8) = rest
  have hzeros : List.replicate (encodedSize sorted) 0#8 = List.replicate 12 0#8 ++ rest := by
    rw [← hrest, List.nil_append, List.replicate_append_replicate, List.replicate_append_replicate,
      length_payloads, encodedSize, payloadBase, wnmHeaderLen, wnmSectionEntryLen, Nat.add_assoc]
  have hmagic : writeAt (List.replicate (encodedSize sorted) 0#8) 0 wnmMagic =
      some (wnmMagic ++ (List.replicate 8 0#8 ++ rest)) :=
    writeAt_middle [] (List.replicate 4 0#8) (by rw [hzeros]; rfl) rfl rfl
  have hversion : writeAt (wnmMagic ++ (List.replicate 8 0#8 ++ rest)) 4 (toLe 2 wnmAbiVersion) =
      some (wnmMagic ++ (toLe 2 wnmAbiVersion ++ (List.replicate 6 0#8 ++ rest))) :=
    writeAt_middle _ (List.replicate 2 0#8) rfl rfl rfl
  have hcount : writeAt (wnmMagic ++ (toLe 2 wnmAbiVersion ++ (List.replicate 6 0#8 ++ rest))) 6
        (toLe 2 sorted.length) =
      some ((wnmMagic ++ toLe 2 wnmAbiVersion) ++ (toLe 2 sorted.length ++
        (List.replicate 4 0#8 ++ rest))) :=
    writeAt_middle _ (List.replicate 2 0#8) rfl rfl rfl
  have hlen : writeAt ((wnmMagic ++ toLe 2 wnmAbiVersion) ++ (toLe 2 sorted.length ++
        (List.replicate 4 0#8 ++ rest))) 8 (toLe 4 (encodedSize sorted)) =
      some ((wnmMagic ++ toLe 2 wnmAbiVersion ++ toLe 2 sorted.length) ++
        (toLe 4 (encodedSize sorted) ++ rest)) :=
    writeAt_middle _ (List.replicate 4 0#8) (by rw [List.append_assoc _ (toLe 2 sorted.length)])
      (by simp [wnmMagic]) rfl
  have hheader : (wnmMagic ++ toLe 2 wnmAbiVersion ++ toLe 2 sorted.length) ++
        (toLe 4 (encodedSize sorted) ++ rest) =
      headerBytes sorted.length (encodedSize sorted) ++ rest := by
    simp only [headerBytes, List.append_assoc]
  have hloop := writeSections_zeros sorted [] (i := 0) (payloadBase sorted)
    (length_headerBytes sorted.length (encodedSize sorted)) (by
      rw [length_headerBytes, payloadBase, wnmHeaderLen, wnmSectionEntryLen]
      rfl)
  rw [hrest, ← hheader] at hloop
  have hend : payloadBase sorted + (payloads sorted).length = encodedSize sorted := by
    rw [length_payloads, encodedSize]
  have hbase : wnmHeaderLen + sorted.length * wnmSectionEntryLen = payloadBase sorted := rfl
  simp only [hmagic, hversion, hcount, hlen, hbase, hloop, hend, Option.bind_eq_bind,
    Option.bind_some, if_true]
  simp only [container, headerBytes, List.append_assoc, List.nil_append]

/-! ## Finding the sections again

The loader checks and collects in two walks over the table. On a packed table neither can fail. -/

/-- A number that was packed is read back. -/
theorem rdU16_middle {bytes : List (BitVec 8)} (front rest : List (BitVec 8)) {v i : ℕ}
    (hbytes : bytes = front ++ (toLe 2 v ++ rest)) (hi : i = front.length) (hv : v < 2 ^ 16) :
    rdU16 bytes i = some v := by
  rw [rdU16, readAt_middle front hbytes hi (length_toLe 2 v).symm, Option.map_some, ofLe_toLe,
    Nat.mod_eq_of_lt (by omega)]

theorem rdU32_middle {bytes : List (BitVec 8)} (front rest : List (BitVec 8)) {v i : ℕ}
    (hbytes : bytes = front ++ (toLe 4 v ++ rest)) (hi : i = front.length) (hv : v < 2 ^ 32) :
    rdU32 bytes i = some v := by
  rw [rdU32, readAt_middle front hbytes hi (length_toLe 4 v).symm, Option.map_some, ofLe_toLe,
    Nat.mod_eq_of_lt (by omega)]

theorem entryAt_middle {bytes front rest : List (BitVec 8)} {i off len : ℕ} {kind : WnmSection}
    (hbytes : bytes = front ++ (entryBytes kind off len ++ rest))
    (hfront : front.length = 12 + i * 12) (hoff : off < 2 ^ 32) (hlen : len < 2 ^ 32) :
    EntryAt bytes i kind off len := by
  rw [entryBytes] at hbytes
  refine ⟨?_, ?_, ?_⟩
  · rw [wnmHeaderLen, wnmSectionEntryLen, ← hfront, hbytes, List.getElem?_append_right le_rfl,
      Nat.sub_self]
    rfl
  · refine rdU32_middle (front ++ kind.toU8 :: List.replicate 3 0#8)
      (toLe 4 len ++ rest) ?_ ?_ hoff
    · rw [hbytes]
      simp only [List.append_assoc, List.cons_append]
    · rw [List.length_append, hfront]
      rfl
  · refine rdU32_middle (front ++ (kind.toU8 :: List.replicate 3 0#8 ++ toLe 4 off))
      rest ?_ ?_ hlen
    · rw [hbytes]
      simp only [List.append_assoc, List.cons_append]
    · rw [List.length_append, hfront]
      rfl

@[simp] theorem length_entriesOf (off : ℕ) (sections : List Section) :
    (entriesOf off sections).length = sections.length := by
  induction sections generalizing off with
  | nil => rfl
  | cons s sections ih => exact congrArg (· + 1) (ih _)

@[simp] theorem kinds_entriesOf (off : ℕ) (sections : List Section) :
    (entriesOf off sections).map Entry.kind = sections.map Section.kind := by
  induction sections generalizing off with
  | nil => rfl
  | cons s sections ih => exact congrArg (s.kind :: ·) (ih _)

theorem mem_entriesOf {s : Section} {place off : ℕ} {sections : List Section}
    (h : (s, place) ∈ placed off sections) :
    ⟨s.kind, place, s.data.length⟩ ∈ entriesOf off sections :=
  List.mem_map_of_mem h

/-- The payloads lie one behind the other, so that each lies within the bytes from the first to
the last. -/
theorem entriesOf_bounds (off : ℕ) (sections : List Section) :
    ∀ e ∈ entriesOf off sections, e.InBounds off (off + (payloads sections).length) := by
  induction sections generalizing off with
  | nil => exact fun e he => by cases he
  | cons s sections ih =>
    rw [payloads_cons, List.length_append]
    refine List.forall_mem_cons.mpr ⟨⟨le_rfl, by simp⟩, fun e he => ?_⟩
    obtain ⟨hoff, hend⟩ := ih (off + s.data.length) e he
    exact ⟨by omega, by omega⟩

/-- **The table** that is read has the entries that were written. The induction is on the
sections, each of which moves the cursor by one entry. -/
theorem tableFrom_tableBytes (sections : List Section) {bytes front rest : List (BitVec 8)}
    {i off : ℕ} (hbytes : bytes = front ++ (tableBytes off sections ++ rest))
    (hfront : front.length = 12 + i * 12) (hroom : off + (payloads sections).length < 2 ^ 32) :
    TableFrom bytes i (entriesOf off sections) := by
  induction sections generalizing front i off with
  | nil => trivial
  | cons s sections ih =>
    rw [tableBytes, List.append_assoc] at hbytes
    rw [payloads_cons, List.length_append] at hroom
    have hoff : off < 2 ^ 32 := by omega
    have hlen : s.data.length < 2 ^ 32 := by omega
    refine ⟨entryAt_middle hbytes hfront hoff hlen, ?_⟩
    rw [← List.append_assoc] at hbytes
    exact ih hbytes (by rw [List.length_append, length_entryBytes, hfront]; omega) (by omega)

section

variable {sections : List Section}

/-- The header of a container, as the loader reads it. -/
theorem container_header (hcount : sections.length ≤ 4) (hsize : encodedSize sections < 2 ^ 32) :
    readAt (container sections) 0 4 = some wnmMagic ∧
    rdU16 (container sections) 4 = some wnmAbiVersion ∧
    rdU16 (container sections) 6 = some sections.length ∧
    rdU32 (container sections) 8 = some (encodedSize sections) := by
  rw [container, headerBytes]
  generalize tableBytes (payloadBase sections) sections ++ payloads sections = rest
  simp only [List.append_assoc]
  refine ⟨readAt_middle [] rfl rfl rfl, rdU16_middle wnmMagic _ rfl rfl (by decide), ?_, ?_⟩
  · exact rdU16_middle (wnmMagic ++ toLe 2 wnmAbiVersion)
      (toLe 4 (encodedSize sections) ++ rest) (by simp only [List.append_assoc]) rfl
      (by omega)
  · exact rdU32_middle (wnmMagic ++ (toLe 2 wnmAbiVersion ++ toLe 2 sections.length))
      rest (by simp only [List.append_assoc]) rfl hsize

/-- **A container** with the required sections is laid out as documented, so that whoever checks
it passes it. -/
theorem container_laidOut (hkinds : (sections.map Section.kind).Nodup)
    (hrequired : ∀ kind ∈ [WnmSection.text, .safetyCert, .wasm],
      kind ∈ sections.map Section.kind)
    (hsize : encodedSize sections < 2 ^ 32) :
    LaidOut (container sections) (encodedSize sections)
      (entriesOf (payloadBase sections) sections) := by
  have hcount := length_le_of_nodup_kinds hkinds
  obtain ⟨hmagic, hversion, hn, htotal⟩ := container_header hcount hsize
  have hlen := length_container sections
  have hpayloads : payloadBase sections + (payloads sections).length = encodedSize sections := by
    rw [length_payloads, encodedSize]
  have hbase : payloadBase sections = 12 + sections.length * 12 := rfl
  have hlayout : container sections = headerBytes sections.length (encodedSize sections) ++
      (tableBytes (payloadBase sections) sections ++ payloads sections) := rfl
  have hbounds := entriesOf_bounds (payloadBase sections) sections
  rw [hpayloads] at hbounds
  refine ⟨?_, hmagic, hversion, ?_, htotal, hlen.ge, ?_, ?_, ?_, ?_, ?_⟩
  · rw [wnmHeaderLen]
    omega
  · rw [hn, length_entriesOf]
  · rw [length_entriesOf, tableEnd, wnmHeaderLen, wnmSectionEntryLen]
    omega
  · exact tableFrom_tableBytes sections hlayout (length_headerBytes ..) (hpayloads ▸ hsize)
  · rwa [length_entriesOf]
  · rwa [kinds_entriesOf]
  · rwa [kinds_entriesOf]

/-- **The plan of a container** has the payload of every section, and relocations exactly where
it has such a section. -/
theorem loadPlan_container (hkinds : (sections.map Section.kind).Nodup)
    (hrequired : ∀ kind ∈ [WnmSection.text, .safetyCert, .wasm],
      kind ∈ sections.map Section.kind)
    (hsize : encodedSize sections < 2 ^ 32) :
    ∃ plan, loadPlan (container sections) = some (.ok plan) ∧
      (plan.relocs.isSome = true ↔ .relocs ∈ sections.map Section.kind) ∧
      ∀ s ∈ sections, ∃ range, plan.range? s.kind = some range ∧
        readAt (container sections) range.1 range.2 = some s.data := by
  have hlaid := container_laidOut hkinds hrequired hsize
  obtain ⟨plan, hplan, hranges⟩ := hlaid.loadPlan_eq
  refine ⟨plan, hplan, ?_, fun s hs => ?_⟩
  · rw [Option.isSome_iff_exists, ← kinds_entriesOf (payloadBase sections), List.mem_map]
    constructor
    · rintro ⟨range, hrange⟩
      obtain ⟨e, he, hkind, -⟩ := (hranges .relocs range).mp hrange
      exact ⟨e, he, hkind⟩
    · rintro ⟨e, he, hkind⟩
      exact ⟨_, (hranges .relocs _).mpr ⟨e, he, hkind, rfl⟩⟩
  · obtain ⟨place, hplace⟩ := exists_placed hs (payloadBase sections)
    refine ⟨(place, s.data.length),
      (hranges s.kind _).mpr ⟨_, mem_entriesOf hplace, rfl, rfl⟩, ?_⟩
    rw [container, ← List.append_assoc]
    refine readAt_placed (headerBytes _ _ ++ tableBytes _ sections) ?_
    rwa [List.length_append, length_headerBytes, length_tableBytes]

end

/-- **Round trip.** What is packed in any order is found again, each section's payload in its
range. An absent optional section is absent in the plan as well. -/
theorem loadPlan_encode (sections : List Section) (hkinds : (sections.map Section.kind).Nodup)
    (hrequired : ∀ kind ∈ [WnmSection.text, .safetyCert, .wasm],
      kind ∈ sections.map Section.kind)
    (hsize : encodedSize sections < 2 ^ 32) :
    ∃ bytes plan, encode sections = some (.ok bytes) ∧ bytes.length = encodedSize sections ∧
      loadPlan bytes = some (.ok plan) ∧
      (plan.relocs.isSome = true ↔ .relocs ∈ sections.map Section.kind) ∧
      ∀ s ∈ sections, ∃ range, plan.range? s.kind = some range ∧
        readAt bytes range.1 range.2 = some s.data := by
  have hperm := sortByKind_perm sections
  have hperm' := hperm.map Section.kind
  have hsize' : encodedSize (sortByKind sections) = encodedSize sections := encodedSize_perm hperm
  obtain ⟨plan, hplan, hrelocs, hranges⟩ := loadPlan_container (hperm'.nodup_iff.mpr hkinds)
    (fun kind hkind => hperm'.mem_iff.mpr (hrequired kind hkind)) (hsize' ▸ hsize)
  refine ⟨_, plan, encode_eq hkinds hsize, ?_, hplan, ?_, fun s hs => ?_⟩
  · rw [length_container, hsize']
  · rw [hrelocs, hperm'.mem_iff]
  · exact hranges s (hperm.mem_iff.mpr hs)

/-- A container packed out of order, with an empty payload. -/
theorem loadPlan_encode_three :
    ∃ bytes plan, encode [⟨.wasm, [0, 0x61, 0x73, 0x6D]⟩, ⟨.text, []⟩, ⟨.safetyCert, [1]⟩] =
        some (.ok bytes) ∧
      bytes.length = encodedSize [⟨.wasm, [0, 0x61, 0x73, 0x6D]⟩, ⟨.text, []⟩, ⟨.safetyCert, [1]⟩] ∧
      loadPlan bytes = some (.ok plan) ∧
      (plan.relocs.isSome = true ↔
        .relocs ∈ [(⟨.wasm, [0, 0x61, 0x73, 0x6D]⟩ : Section), ⟨.text, []⟩, ⟨.safetyCert, [1]⟩].map
          Section.kind) ∧
      ∀ s ∈ [(⟨.wasm, [0, 0x61, 0x73, 0x6D]⟩ : Section), ⟨.text, []⟩, ⟨.safetyCert, [1]⟩],
        ∃ range, plan.range? s.kind = some range ∧
          readAt bytes range.1 range.2 = some s.data :=
  loadPlan_encode [⟨.wasm, [0, 0x61, 0x73, 0x6D]⟩, ⟨.text, []⟩, ⟨.safetyCert, [1]⟩] (by decide)
    (by decide) (by decide)

end Wari.Wnm
