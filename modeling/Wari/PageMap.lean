import Wari.Lib.Ram
import Wari.PageTable
import Wari.Types

/-!
# The kernel's page map

At boot the kernel maps its memory onto itself, one range after another. The tables between
the root and the leaves are made when a page first needs them, from pages of the allocator.
`Kvm.Tree` is what the tables keep: no page is used twice, and all are taken from the
allocator. From it, a new page in the map leaves the others as they were, and after any
sequence of ranges the map is the identity on what they covered (`pageMap_correct`).
-/

namespace Wari

/-! ## Building the map

The functions of the source on memory as bytes. A table is a page, and an entry eight bytes of it.
-/

/-- The 64-bit word at an address of RAM, least significant byte first. -/
def readWord (ram : Lib.Ram) (addr : BitVec 64) : BitVec 64 :=
  BitVec.ofNat 64 (ram.le addr.toNat 8)

/-- What building the map works on: RAM, and the allocator of its pages. -/
structure Kvm where
  ram : Lib.Ram
  alloc : BitmapAllocator

namespace Kvm

/-- Read an entry of the table at `table`. -/
def readPte (k : Kvm) (table index : BitVec 64) : Pte :=
  ⟨readWord k.ram (table + index * 8#64)⟩

/-- Write an entry of the table at `table`. -/
def writePte (k : Kvm) (table index : BitVec 64) (pte : Pte) : Kvm :=
  { k with ram := k.ram.write (table + index * 8#64).toNat (Lib.toLe 8 pte.bits.toNat) }

/-- Fill a page with zeros, which as a table maps nothing. -/
def zeroPage (k : Kvm) (addr : BitVec 64) : Kvm :=
  { k with ram := k.ram.write addr.toNat (List.replicate pageSize 0#8) }

/-- Allocate one zeroed page. Only a heap that is used up is reported as such. -/
def allocZeroedPage (k : Kvm) : Except KernelError (BitVec 64 × Kvm) :=
  match k.alloc.alloc with
  | (.error .outOfMemory, _) => .error .outOfPages
  | (.error _, _) => .error .invalidArgument
  | (.ok page, alloc) => .ok (page, { k with alloc := alloc }.zeroPage page)

/-- The table an entry points to; a new one, if the entry is not valid. -/
def walkOrCreate (k : Kvm) (table index : BitVec 64) : Except KernelError (BitVec 64 × Kvm) :=
  let existing := k.readPte table index
  if existing.isValid then
    -- a leaf where a branch was expected: the table is malformed
    if !existing.isBranch then .error .invalidArgument else .ok (existing.physAddr, k)
  else
    match k.allocZeroedPage with
    | .error e => .error e
    | .ok (newTable, k) => .ok (newTable, k.writePte table index (.branch newTable))

/-- Map a single page, with tables made on the way where there are none. -/
def mapPage (k : Kvm) (root va pa : BitVec 64) (flags : PteFlags) : Except KernelError Kvm :=
  let (vpn2, vpn1, vpn0, _) := vaParts va
  match k.walkOrCreate root vpn2 with
  | .error e => .error e
  | .ok (l1, k) =>
    match k.walkOrCreate l1 vpn1 with
    | .error e => .error e
    | .ok (l0, k) => .ok (k.writePte l0 vpn0 (.new pa flags))

/-- The loop of `mapRange`, for at most `n` turns. -/
def mapFrom (root endAligned : BitVec 64) (flags : PteFlags) :
    ℕ → BitVec 64 → Kvm → Except KernelError Kvm
  | 0, _, k => .ok k
  | n + 1, addr, k =>
    if addr < endAligned then
      match k.mapPage root addr addr flags with
      | .error e => .error e
      | .ok k => mapFrom root endAligned flags n (addr + BitVec.ofNat 64 pageSize) k
    else .ok k

/-- Map the pages of `[start, end)` onto themselves. The loop has a turn for each page. -/
def mapRange (k : Kvm) (root start endAddr : BitVec 64) (flags : PteFlags) :
    Except KernelError Kvm :=
  let startAligned := start &&& ~~~(BitVec.ofNat 64 pageSize - 1#64)
  let endAligned :=
    (endAddr + BitVec.ofNat 64 pageSize - 1#64) &&& ~~~(BitVec.ofNat 64 pageSize - 1#64)
  mapFrom root endAligned flags ((endAligned - startAligned).toNat / pageSize) startAligned k

end Kvm

/-- A range that is to be mapped onto itself, with its flags. -/
structure MapRange where
  start : BitVec 64
  endAddr : BitVec 64
  flags : PteFlags

/-- The range, rounded out to whole pages, has the address in it. -/
def MapRange.covers (r : MapRange) (va : BitVec 64) : Bool :=
  r.start.toNat / pageSize * pageSize ≤ va.toNat ∧
    va.toNat < (r.endAddr.toNat + (pageSize - 1)) / pageSize * pageSize

/-- Map one range after another, until one fails. -/
def Kvm.mapRanges (k : Kvm) (root : BitVec 64) : List MapRange → Except KernelError Kvm
  | [] => .ok k
  | r :: rs =>
    match k.mapRange root r.start r.endAddr r.flags with
    | .error e => .error e
    | .ok k => k.mapRanges root rs

/-! ## The tables in memory

The memory read as a store of tables, of which the library has the general facts. -/

namespace Kvm

/-- The tables that lie in memory, as the walk of the hardware sees them. -/
def tables (k : Kvm) : Lib.Tables (BitVec 52) (BitVec 9) Pte := view (readWord k.ram)

/-- Where the entries of a table are: at eight bytes each, from the start of its page. -/
theorem toNat_entry (page : BitVec 52) (i : BitVec 9) :
    (pageAddr page + i.setWidth 64 * 8#64).toNat = page.toNat * 4096 + i.toNat * 8 := by
  have hmul : (i.setWidth 64 * 8#64).toNat = i.toNat * 8 := by
    rw [BitVec.toNat_mul, BitVec.toNat_setWidth, BitVec.toNat_ofNat]
    have := i.isLt
    omega
  rw [BitVec.toNat_add, hmul, toNat_pageAddr]
  have := i.isLt
  have := page.isLt
  omega

/-- A word that was written is read back. -/
theorem readWord_write_self (ram : Lib.Ram) (addr v : BitVec 64) :
    readWord (ram.write addr.toNat (Lib.toLe 8 v.toNat)) addr = v := by
  rw [readWord, Lib.Ram.le_write_self]
  apply BitVec.eq_of_toNat_eq
  rw [BitVec.toNat_ofNat]
  have := v.isLt
  omega

/-- **An entry is written** in its slot, and every other slot of every table is as it was. -/
theorem tables_writePte (k : Kvm) (page : BitVec 52) (i : BitVec 9) (pte : Pte) :
    (k.writePte (pageAddr page) (i.setWidth 64) pte).tables =
      k.tables.set page i (slotOf pte) := by
  funext t j
  rw [Lib.Tables.set_apply]
  change slotOf ⟨readWord (k.ram.write _ _) _⟩ = _
  by_cases hc : t = page ∧ j = i
  · obtain ⟨rfl, rfl⟩ := hc
    rw [if_pos ⟨rfl, rfl⟩, readWord_write_self]
  · rw [if_neg hc, readWord, Lib.Ram.le_write_apart]
    · rfl
    · rw [Lib.Apart, toNat_entry, toNat_entry, Lib.length_toLe]
      rw [← BitVec.toNat_inj, ← BitVec.toNat_inj (x := j)] at hc
      have := i.isLt
      have := j.isLt
      omega

/-- **A page of zeros** is a table of empty slots, since zero is no valid entry. -/
theorem tables_zeroPage (k : Kvm) (page : BitVec 52) :
    (k.zeroPage (pageAddr page)).tables = Function.update k.tables page fun _ => .empty := by
  funext t j
  rw [Function.update_apply]
  change slotOf ⟨readWord (k.ram.write _ _) _⟩ = _
  have hj := j.isLt
  split
  · rename_i ht
    subst ht
    have hzero : (k.ram.write (pageAddr t).toNat (List.replicate pageSize 0#8)).le
        (pageAddr t + j.setWidth 64 * 8#64).toNat 8 = 0 := by
      have hbytes : ∀ n < 8, k.ram.write (pageAddr t).toNat (List.replicate pageSize 0#8)
          ((pageAddr t + j.setWidth 64 * 8#64).toNat + n) = 0#8 := by
        intro n hn
        rw [toNat_entry, toNat_pageAddr, Nat.add_assoc, Lib.Ram.write_inside]
        · rw [List.getD_replicate]
          rw [pageSize]
          omega
        · rw [List.length_replicate, pageSize]
          omega
      rw [Lib.Ram.le, List.map_congr_left fun n hn => hbytes n (List.mem_range.mp hn)]
      rfl
    rw [readWord, hzero]
    rfl
  · rename_i ht
    rw [readWord, Lib.Ram.le_write_apart]
    · rfl
    · rw [Lib.Apart, toNat_entry, toNat_pageAddr, List.length_replicate, pageSize]
      rw [← BitVec.toNat_inj] at ht
      omega

/-! ## The tree

Below the root each table hangs at one place, and every table is on a page of its own. So a write
into a slot can be seen from one path only. -/

/-- The page is one of the allocator's, and taken. -/
def Taken (a : BitmapAllocator) (t : BitVec 52) : Prop :=
  ∃ i < a.totalPages, a.bitmap.get i = true ∧
    pageAddr t = a.baseAddr + BitVec.ofNat 64 (i * pageSize)

/-- The tables below the root: each is at the end of one path, of two indices at most, and on a
page that is taken. A table that hung at two places would let one page's entry change another's.
-/
structure Tree (k : Kvm) (root : BitVec 52) : Prop where
  unshared : k.tables.Unshared root
  depth : ∀ q t, k.tables.tableAt root q = some t → q.length ≤ 2
  taken : ∀ q t, k.tables.tableAt root q = some t → Taken k.alloc t

variable {k k' : Kvm} {root : BitVec 52}

/-- **A new page** is one that was not taken, now is, and is full of empty slots. -/
theorem allocZeroedPage_spec {addr : BitVec 64} (h : k.allocZeroedPage = .ok (addr, k')) :
    ∃ b, addr = pageAddr b ∧ ¬ Taken k.alloc b ∧ Taken k'.alloc b ∧
      (∀ t, Taken k.alloc t → Taken k'.alloc t) ∧
      k'.tables = Function.update k.tables b fun _ => .empty := by
  rw [allocZeroedPage] at h
  rcases k.alloc.alloc_cases with ⟨hout, -⟩ | ⟨i, hi, hclear, -, bitmap, halloc, hget⟩
  · rw [hout] at h
    cases h
  · rw [halloc] at h
    obtain ⟨rfl, rfl⟩ := Prod.mk.inj (Except.ok.inj h)
    have haligned : (k.alloc.baseAddr + BitVec.ofNat 64 (i * pageSize)).toNat % pageSize = 0 := by
      have := k.alloc.aligned
      rw [BitVec.toNat_add, BitVec.toNat_ofNat]
      simp only [pageSize] at *
      omega
    obtain ⟨b, hb⟩ : ∃ b, k.alloc.baseAddr + BitVec.ofNat 64 (i * pageSize) = pageAddr b :=
      ⟨_, (pageAddr_pageOf haligned).symm⟩
    rw [hb]
    refine ⟨b, rfl, ?_, ⟨i, hi, ?_, hb.symm⟩, ?_, tables_zeroPage _ _⟩
    · -- two pages of the allocator at one address are the same page
      rintro ⟨j, hj, hset, haddr⟩
      rw [← hb, BitVec.add_right_inj, ← BitVec.toNat_inj, BitVec.toNat_ofNat,
        BitVec.toNat_ofNat] at haddr
      have hroom := k.alloc.room
      have hij : i = j := by
        simp only [pageSize, maxPages] at *
        omega
      rw [hij, hset] at hclear
      cases hclear
    · exact (hget i).trans (if_pos rfl)
    · rintro t ⟨j, hj, hset, haddr⟩
      refine ⟨j, hj, ?_, haddr⟩
      change bitmap.get j = true
      rw [hget]
      split
      · rfl
      · exact hset

/-- A fresh page is not below the root. -/
theorem Tree.fresh (h : k.Tree root) {b : BitVec 52} (hb : ¬ Taken k.alloc b)
    (q : List (BitVec 9)) : k.tables.tableAt root q ≠ some b :=
  fun hq => hb (h.taken q b hq)

/-- The tables stay as they are when a page that is not among them is zeroed. -/
theorem Tree.tables_same (h : k.Tree root) {b : BitVec 52} (hb : ¬ Taken k.alloc b)
    (hk : k'.tables = Function.update k.tables b fun _ => .empty) :
    ∀ q t, k.tables.tableAt root q = some t → k'.tables t = k.tables t := by
  intro q t hq
  rw [hk, Function.update_of_ne]
  rintro rfl
  exact h.fresh hb q hq

/-- What making room for a page leaves: a tree with the tables it had, and the leaves. -/
structure Grown (k k' : Kvm) (root : BitVec 52) : Prop where
  tree : k'.Tree root
  tables : ∀ q t, k.tables.tableAt root q = some t → k'.tables.tableAt root q = some t
  leaves : ∀ q j, k'.tables.leafAt root q j = k.tables.leafAt root q j

/-- **One level down**: the table is there, or is made from a fresh page, which no other slot
refers to. -/
theorem Tree.walkOrCreate (h : k.Tree root) {p : List (BitVec 9)} {t : BitVec 52}
    (hp : k.tables.tableAt root p = some t) (hlen : p.length ≤ 1) {i : BitVec 9}
    {addr : BitVec 64} (hwalk : k.walkOrCreate (pageAddr t) (i.setWidth 64) = .ok (addr, k')) :
    ∃ b, addr = pageAddr b ∧ k.Grown k' root ∧ k'.tables.tableAt root (p ++ [i]) = some b := by
  have hslot : k.tables t i = slotOf (k.readPte (pageAddr t) (i.setWidth 64)) := rfl
  rw [Kvm.walkOrCreate] at hwalk
  split at hwalk
  · -- the entry points to a table
    rename_i hvalid
    split at hwalk
    · cases hwalk
    · rename_i hbranch
      obtain ⟨rfl, rfl⟩ := Prod.mk.inj (Except.ok.inj hwalk)
      refine ⟨_, (Pte.pageAddr_physAddr _).symm, ⟨h, fun _ _ hq => hq, fun _ _ => rfl⟩, ?_⟩
      have hleaf : (k.readPte (pageAddr t) (i.setWidth 64)).isLeaf = false := by
        rw [Pte.isBranch, hvalid] at hbranch
        rw [Pte.isLeaf, hvalid]
        simpa using hbranch
      rw [Lib.Tables.tableAt_snoc, hp, Option.bind_some, hslot, slotOf, hvalid, hleaf]
      rfl
  · rename_i hvalid
    have hempty : k.tables t i = .empty := by
      rw [hslot, slotOf, Bool.not_eq_true _ |>.mp hvalid]
      rfl
    rcases hnew : k.allocZeroedPage with e | ⟨newTable, k₁⟩
    · rw [hnew] at hwalk
      cases hwalk
    · rw [hnew] at hwalk
      obtain ⟨rfl, rfl⟩ := Prod.mk.inj (Except.ok.inj hwalk)
      obtain ⟨b, rfl, hfree, htaken, hkeep, htables⟩ := allocZeroedPage_spec hnew
      have hsame := h.tables_same hfree htables
      -- the fresh page is zeroed, then hung into the tree
      have hp₁ : k₁.tables.tableAt root p = some t :=
        (Lib.Tables.tableAt_congr hsame p).trans hp
      have hun₁ : k₁.tables.Unshared root := h.unshared.congr hsame
      have hempty₁ : k₁.tables t i = .empty := by rw [hsame p t hp, hempty]
      have hfresh₁ : ∀ q, k₁.tables.tableAt root q ≠ some b := fun q hq => by
        rw [Lib.Tables.tableAt_congr hsame] at hq
        exact h.fresh hfree q hq
      have hblank₁ : ∀ j, k₁.tables b j = .empty := fun j => by rw [htables, Function.update_self]
      have hset : (k₁.writePte (pageAddr t) (i.setWidth 64) (.branch (pageAddr b))).tables =
          k₁.tables.set t i (.branch b) := by
        rw [tables_writePte, slotOf_branch]
      have hat : ∀ q, (k₁.writePte (pageAddr t) (i.setWidth 64)
          (.branch (pageAddr b))).tables.tableAt root q =
            if q = p ++ [i] then some b else k.tables.tableAt root q := by
        intro q
        rw [hset, Lib.Tables.tableAt_set_branch hun₁ hp₁ hempty₁ hfresh₁ hblank₁,
          Lib.Tables.tableAt_congr hsame]
      have hnone : k.tables.tableAt root (p ++ [i]) = none :=
        Lib.Tables.tableAt_of_empty hp hempty
      refine ⟨b, rfl,
        ⟨⟨?_, fun q s hq => ?_, fun q s hq => ?_⟩, fun q s hq => ?_, fun q j => ?_⟩, ?_⟩
      · rw [hset]
        exact hun₁.set_branch hp₁ hempty₁ hfresh₁ hblank₁
      · rw [hat] at hq
        split at hq
        · rename_i heq
          rw [heq, List.length_append]
          exact Nat.succ_le_succ hlen
        · exact h.depth q s hq
      · rw [hat] at hq
        split at hq
        · obtain rfl := Option.some.inj hq
          exact htaken
        · exact hkeep s (h.taken q s hq)
      · rw [hat, if_neg, hq]
        rintro rfl
        rw [hnone] at hq
        cases hq
      · rw [hset, Lib.Tables.leafAt_set_branch hun₁ hp₁ hempty₁ hfresh₁ hblank₁,
          Lib.Tables.leafAt_congr hsame]
      · rw [hat, if_pos rfl]

/-- **One page more in the map**, and the tables are a tree as before. -/
theorem Tree.mapPage (h : k.Tree root) {va : BitVec 64} {page : BitVec 52} {flags : PteFlags}
    (hflags : flags.Maps)
    (hmap : k.mapPage (pageAddr root) va (pageAddr page) flags = .ok k') :
    k'.Tree root ∧ ∀ q j, k'.tables.leafAt root q j =
      if q = [index2 va, index1 va] ∧ j = index0 va then some (.new (pageAddr page) flags)
      else k.tables.leafAt root q j := by
  rw [Kvm.mapPage, vaParts_eq] at hmap
  simp only at hmap
  rcases h₁ : k.walkOrCreate (pageAddr root) ((index2 va).setWidth 64) with e | ⟨l1, k₁⟩
  · rw [h₁] at hmap
    cases hmap
  rw [h₁] at hmap
  simp only at hmap
  obtain ⟨t₁, rfl, hgrown₁, ht₁⟩ := h.walkOrCreate (p := []) rfl (by simp) h₁
  rcases h₀ : k₁.walkOrCreate (pageAddr t₁) ((index1 va).setWidth 64) with e | ⟨l0, k₀⟩
  · rw [h₀] at hmap
    cases hmap
  rw [h₀] at hmap
  obtain rfl := Except.ok.inj hmap
  obtain ⟨t₀, rfl, hgrown₀, ht₀⟩ := hgrown₁.tree.walkOrCreate ht₁ (by simp) h₀
  have hset : (k₀.writePte (pageAddr t₀) ((index0 va).setWidth 64)
      (.new (pageAddr page) flags)).tables =
        k₀.tables.set t₀ (index0 va) (.leaf (.new (pageAddr page) flags)) := by
    rw [tables_writePte, slotOf_new page hflags]
  -- at the last level there are no branches
  have hold : Lib.Tables.child? (k₀.tables t₀ (index0 va)) = none := by
    rcases hchild : Lib.Tables.child? (k₀.tables t₀ (index0 va)) with _ | b
    · rfl
    · have hlong : k₀.tables.tableAt root ([] ++ [index2 va] ++ [index1 va] ++ [index0 va]) =
          some b := by
        rw [Lib.Tables.tableAt_snoc, ht₀, Option.bind_some, hchild]
      exact absurd (hgrown₀.tree.depth _ _ hlong) (by simp)
  refine ⟨⟨?_, fun q s hq => ?_, fun q s hq => ?_⟩, fun q j => ?_⟩
  · rw [hset]
    exact hgrown₀.tree.unshared.set_leaf hold
  · rw [hset, Lib.Tables.tableAt_set_leaf hold] at hq
    exact hgrown₀.tree.depth q s hq
  · rw [hset, Lib.Tables.tableAt_set_leaf hold] at hq
    exact hgrown₀.tree.taken q s hq
  · rw [hset, Lib.Tables.leafAt_set_leaf hgrown₀.tree.unshared ht₀ hold, hgrown₀.leaves,
      hgrown₁.leaves]
    rfl

/-! ## Pages and ranges

What mapping a page, a range and a list of ranges does to what the walk finds. Later ranges go
over earlier ones. -/

/-- What the walk of the hardware finds at an address. -/
def resolve (k : Kvm) (root : BitVec 52) (va : BitVec 64) : Option WalkResult :=
  walk (pageAddr root) va (readWord k.ram)

/-- The three indices of an address are its page, up to 39 bits. -/
theorem indices_eq_iff (va w : BitVec 64) :
    ([index2 w, index1 w] = [index2 va, index1 va] ∧ index0 w = index0 va) ↔
      w.toNat / 4096 % 2 ^ 27 = va.toNat / 4096 % 2 ^ 27 := by
  have hnat : ∀ (x : BitVec 64) (n : ℕ), (x.extractLsb' n 9).toNat = x.toNat / 2 ^ n % 2 ^ 9 := by
    intro x n
    rw [BitVec.extractLsb'_toNat, Nat.shiftRight_eq_div_pow]
  simp only [List.cons.injEq, and_true, index2, index1, index0, ← BitVec.toNat_inj, hnat]
  omega

/-- The offset of an address in its page. -/
theorem toNat_offset (va : BitVec 64) : (va &&& 0xFFF#64).toNat = va.toNat % 4096 := by
  have hmask : (0xFFF#64).toNat = 2 ^ 12 - 1 := by decide
  exact Lib.toNat_and_mask va hmask

/-- The walk does not look above 39 bits. -/
theorem resolve_low (k : Kvm) (root : BitVec 52) (va : BitVec 64) :
    k.resolve root va = k.resolve root (va &&& 0x7FFFFFFFFF#64) := by
  have hmask : (0x7FFFFFFFFF#64).toNat = 2 ^ 39 - 1 := by decide
  have hlow : (va &&& 0x7FFFFFFFFF#64).toNat = va.toNat % 2 ^ 39 := Lib.toNat_and_mask va hmask
  obtain ⟨hpath, hlast⟩ := (indices_eq_iff va (va &&& 0x7FFFFFFFFF#64)).mpr (by
    rw [hlow]
    omega)
  have hoffset : va &&& 0x7FFFFFFFFF#64 &&& 0xFFF#64 = va &&& 0xFFF#64 := by
    rw [BitVec.and_assoc]
    rfl
  rw [resolve, resolve, walk_eq, walk_eq, hpath, hlast, hoffset]

/-- An address is its page and its offset. -/
theorem page_add_offset (va : BitVec 64) : pageAddr (pageOf va) + (va &&& 0xFFF#64) = va := by
  apply BitVec.eq_of_toNat_eq
  rw [BitVec.toNat_add, toNat_pageAddr, toNat_pageOf, toNat_offset]
  have := va.isLt
  omega

/-- **A page mapped onto itself** is what the walk finds there, and elsewhere it finds what it
found before. -/
theorem Tree.mapPage_resolve (h : k.Tree root) {addr : BitVec 64} {flags : PteFlags}
    (haddr : addr.toNat % pageSize = 0) (hlow : addr.toNat < 2 ^ 39) (hflags : flags.Maps)
    (hmap : k.mapPage (pageAddr root) addr addr flags = .ok k') :
    k'.Tree root ∧ ∀ va : BitVec 64, va.toNat < 2 ^ 39 → k'.resolve root va =
      if addr.toNat ≤ va.toNat ∧ va.toNat < addr.toNat + pageSize then some ⟨va, flags⟩
      else k.resolve root va := by
  have hpage : pageAddr (pageOf addr) = addr := pageAddr_pageOf haddr
  have hsteps : k.mapPage (pageAddr root) addr (pageAddr (pageOf addr)) flags = .ok k' := by
    rwa [hpage]
  obtain ⟨htree, hleaf⟩ := h.mapPage hflags hsteps
  refine ⟨htree, fun va hva => ?_⟩
  have hsame : (addr.toNat ≤ va.toNat ∧ va.toNat < addr.toNat + pageSize) ↔
      va.toNat / 4096 = addr.toNat / 4096 := by
    simp only [pageSize] at *
    omega
  rw [resolve, walk_eq]
  change Option.map _ (k'.tables.leafAt root _ _) = _
  rw [hleaf]
  by_cases hin : addr.toNat ≤ va.toNat ∧ va.toNat < addr.toNat + pageSize
  · have hidx := (indices_eq_iff addr va).mpr (by rw [hsame.mp hin])
    have hof : pageOf addr = pageOf va := by
      apply BitVec.eq_of_toNat_eq
      rw [toNat_pageOf, toNat_pageOf, hsame.mp hin]
    rw [if_pos hidx, if_pos hin, Option.map_some, Pte.physAddr_new, Pte.flags_new, hof,
      page_add_offset]
  · have hidx : ¬ ([index2 va, index1 va] = [index2 addr, index1 addr] ∧
        index0 va = index0 addr) := by
      rw [indices_eq_iff]
      intro heq
      refine hin (hsame.mpr ?_)
      omega
    rw [if_neg hidx, if_neg hin, resolve, walk_eq]
    rfl

/-- Two ranges, one after the other, as one. -/
theorem if_joined {α : Type} {a b c v : ℕ} (x y : α) (hab : a ≤ b) (hbc : b ≤ c) :
    (if b ≤ v ∧ v < c then x else if a ≤ v ∧ v < b then x else y) =
      if a ≤ v ∧ v < c then x else y := by
  split_ifs <;> first | rfl | omega

/-- **The loop** maps the pages from its address to the end, by induction on how many are left. -/
theorem Tree.mapFrom {endAligned : BitVec 64} {flags : PteFlags} (hflags : flags.Maps)
    (hend : endAligned.toNat % pageSize = 0) (hlow : endAligned.toNat ≤ 2 ^ 39) (n : ℕ)
    {addr : BitVec 64} {k : Kvm} (h : k.Tree root) (haddr : addr.toNat % pageSize = 0)
    (hturns : endAligned.toNat ≤ addr.toNat + n * pageSize)
    (hmap : Kvm.mapFrom (pageAddr root) endAligned flags n addr k = .ok k') :
    k'.Tree root ∧ ∀ va : BitVec 64, va.toNat < 2 ^ 39 → k'.resolve root va =
      if addr.toNat ≤ va.toNat ∧ va.toNat < endAligned.toNat then some ⟨va, flags⟩
      else k.resolve root va := by
  induction n generalizing addr k with
  | zero =>
    obtain rfl := Except.ok.inj hmap
    exact ⟨h, fun va _ => (if_neg (by omega)).symm⟩
  | succ n ih =>
    rw [Kvm.mapFrom] at hmap
    split at hmap
    · rename_i hlt
      rw [BitVec.lt_def] at hlt
      rcases hpage : k.mapPage (pageAddr root) addr addr flags with e | k₁
      · rw [hpage] at hmap
        cases hmap
      · rw [hpage] at hmap
        obtain ⟨htree, hresolve⟩ := h.mapPage_resolve haddr (by omega) hflags hpage
        have hnext : (addr + BitVec.ofNat 64 pageSize).toNat = addr.toNat + pageSize := by
          rw [BitVec.toNat_add, BitVec.toNat_ofNat]
          simp only [pageSize] at *
          omega
        obtain ⟨htree', hresolve'⟩ := ih htree (by rw [hnext]; simpa using haddr)
          (by rw [hnext]; rw [Nat.succ_mul] at hturns; omega) hmap
        refine ⟨htree', fun va hva => ?_⟩
        rw [hresolve' va hva, hresolve va hva, hnext]
        refine if_joined _ _ (Nat.le_add_right _ _) ?_
        simp only [pageSize] at *
        omega
    · rename_i hge
      rw [BitVec.lt_def] at hge
      obtain rfl := Except.ok.inj hmap
      exact ⟨h, fun va _ => (if_neg (by omega)).symm⟩

/-- Rounding down to a page boundary is what the mask of the source does. -/
theorem toNat_align (x : BitVec 64) :
    (x &&& ~~~(BitVec.ofNat 64 pageSize - 1#64)).toNat = x.toNat / pageSize * pageSize := by
  have hones : BitVec.ofNat 64 pageSize - 1#64 = (BitVec.allOnes 12).setWidth 64 := by decide
  have hmask : x &&& ~~~(BitVec.ofNat 64 pageSize - 1#64) = pageAddr (pageOf x) := by
    refine BitVec.eq_of_getLsbD_eq fun i hi => ?_
    rw [hones, BitVec.getLsbD_and, BitVec.getLsbD_not, BitVec.getLsbD_setWidth,
      BitVec.getLsbD_allOnes, pageAddr, pageOf, BitVec.getLsbD_append, BitVec.getLsbD_extractLsb']
    by_cases hlt : i < 12
    · simp [hlt, hi]
    · have hoff : i - 12 < 52 := by omega
      have hback : 12 + (i - 12) = i := by omega
      simp [hlt, hi, hoff, hback]
  rw [hmask, toNat_pageAddr, toNat_pageOf]
  rfl

/-- **A range mapped onto itself**, rounded out to whole pages: the walk finds it, and finds
everything else as before. -/
theorem Tree.mapRange (h : k.Tree root) {r : MapRange} (hflags : r.flags.Maps)
    (hlow : r.endAddr.toNat ≤ 2 ^ 39)
    (hmap : k.mapRange (pageAddr root) r.start r.endAddr r.flags = .ok k') :
    k'.Tree root ∧ ∀ va : BitVec 64, va.toNat < 2 ^ 39 → k'.resolve root va =
      if r.covers va = true then some ⟨va, r.flags⟩ else k.resolve root va := by
  rw [Kvm.mapRange] at hmap
  set startAligned := r.start &&& ~~~(BitVec.ofNat 64 pageSize - 1#64) with hstart
  set endAligned := (r.endAddr + BitVec.ofNat 64 pageSize - 1#64) &&&
    ~~~(BitVec.ofNat 64 pageSize - 1#64) with hend
  have hs : startAligned.toNat = r.start.toNat / pageSize * pageSize := by
    rw [hstart, toNat_align]
  have hround : (r.endAddr + BitVec.ofNat 64 pageSize - 1#64).toNat =
      r.endAddr.toNat + (pageSize - 1) := by
    rw [BitVec.toNat_sub, BitVec.toNat_add, BitVec.toNat_ofNat, BitVec.toNat_ofNat]
    simp only [pageSize]
    omega
  have he : endAligned.toNat = (r.endAddr.toNat + (pageSize - 1)) / pageSize * pageSize := by
    rw [hend, toNat_align, hround]
  have hturns : endAligned.toNat ≤
      startAligned.toNat + (endAligned - startAligned).toNat / pageSize * pageSize := by
    have := startAligned.isLt
    rw [BitVec.toNat_sub]
    simp only [pageSize] at *
    omega
  obtain ⟨htree, hresolve⟩ := h.mapFrom hflags (by rw [he]; exact Nat.mul_mod_left _ _)
    (by rw [he]; simp only [pageSize]; omega) _ (by rw [hs]; exact Nat.mul_mod_left _ _) hturns hmap
  refine ⟨htree, fun va hva => ?_⟩
  rw [hresolve va hva, MapRange.covers, hs, he]
  simp only [decide_eq_true_eq]

/-- **Ranges mapped onto themselves**: an address is mapped as the last range that covers it
says. -/
theorem Tree.mapRanges {rs : List MapRange} (hflags : ∀ r ∈ rs, r.flags.Maps)
    (hlow : ∀ r ∈ rs, r.endAddr.toNat ≤ 2 ^ 39) {k : Kvm} (h : k.Tree root)
    (hmap : k.mapRanges (pageAddr root) rs = .ok k') :
    k'.Tree root ∧ ∀ va : BitVec 64, va.toNat < 2 ^ 39 → k'.resolve root va =
      ((rs.reverse.find? fun r => r.covers va).map fun r => ⟨va, r.flags⟩).or
        (k.resolve root va) := by
  induction rs generalizing k with
  | nil =>
    obtain rfl := Except.ok.inj hmap
    exact ⟨h, fun va _ => rfl⟩
  | cons r rs ih =>
    rw [Kvm.mapRanges] at hmap
    rcases hr : k.mapRange (pageAddr root) r.start r.endAddr r.flags with e | k₁
    · rw [hr] at hmap
      cases hmap
    · rw [hr] at hmap
      obtain ⟨htree, hresolve⟩ := h.mapRange (hflags r List.mem_cons_self)
        (hlow r List.mem_cons_self) hr
      obtain ⟨htree', hresolve'⟩ := ih (fun s hs => hflags s (List.mem_cons_of_mem _ hs))
        (fun s hs => hlow s (List.mem_cons_of_mem _ hs)) htree hmap
      refine ⟨htree', fun va hva => ?_⟩
      rw [hresolve' va hva, hresolve va hva, List.reverse_cons, List.find?_append]
      generalize (rs.reverse.find? fun r => r.covers va) = found
      by_cases hc : r.covers va = true
      · have hlast : [r].find? (fun r => r.covers va) = some r := by simp [hc]
        rw [if_pos hc, hlast]
        rcases found <;> rfl
      · have hlast : [r].find? (fun r => r.covers va) = none := by simp [hc]
        rw [if_neg hc, hlast]
        rcases found <;> rfl

/-- **A fresh root** has no table below it, and maps nothing, as it was filled with zeros. -/
theorem tree_root {addr : BitVec 64} (h : k.allocZeroedPage = .ok (addr, k')) :
    addr = pageAddr (pageOf addr) ∧ k'.Tree (pageOf addr) ∧
      ∀ va, k'.resolve (pageOf addr) va = none := by
  obtain ⟨b, rfl, -, htaken, -, htables⟩ := allocZeroedPage_spec h
  rw [pageOf_pageAddr]
  have hat : ∀ q, q ≠ [] → k'.tables.tableAt b q = none := by
    rintro (_ | ⟨i, q⟩) hq
    · exact absurd rfl hq
    · rw [Lib.Tables.tableAt_cons, htables, Function.update_self]
      rfl
  have honly : ∀ q t, k'.tables.tableAt b q = some t → q = [] ∧ t = b := by
    intro q t hq
    by_cases hnil : q = []
    · rw [hnil] at hq
      exact ⟨hnil, (Option.some.inj hq).symm⟩
    · rw [hat q hnil] at hq
      cases hq
  refine ⟨rfl, ⟨fun p q t hp hq => ?_, fun q t hq => ?_, fun q t hq => ?_⟩, fun va => ?_⟩
  · rw [(honly p t hp).1, (honly q t hq).1]
  · rw [(honly q t hq).1]
    exact Nat.zero_le _
  · rw [(honly q t hq).2]
    exact htaken
  · rw [resolve, walk_eq]
    change Option.map _ (k'.tables.leafAt b _ _) = _
    rw [Lib.Tables.leafAt, hat _ (by simp)]
    rfl

end Kvm

/-- **The page map.** After any ranges were mapped onto themselves below a fresh root, an address
is mapped onto itself as the last range that covers it says, and not at all where none does. -/
theorem pageMap_correct (k₀ k₁ k : Kvm) (root : BitVec 64) (ranges : List MapRange)
    (hroot : k₀.allocZeroedPage = .ok (root, k₁)) (hflags : ∀ r ∈ ranges, r.flags.Maps)
    (hlow : ∀ r ∈ ranges, r.endAddr.toNat ≤ 2 ^ 39) (hmap : k₁.mapRanges root ranges = .ok k) :
    (∀ va : BitVec 64, va.toNat < 2 ^ 39 → walk root va (readWord k.ram) =
      (ranges.reverse.find? fun r => r.covers va).map fun r => ⟨va, r.flags⟩) ∧
    (∀ va, walk root va (readWord k.ram) =
      walk root (va &&& 0x7FFFFFFFFF#64) (readWord k.ram)) ∧
    (∀ p q t, k.tables.tableAt (pageOf root) p = some t →
      k.tables.tableAt (pageOf root) q = some t → p = q) := by
  obtain ⟨haddr, htree, hnone⟩ := Kvm.tree_root hroot
  rw [haddr] at hmap
  obtain ⟨htree', hresolve⟩ := htree.mapRanges hflags hlow hmap
  have hwalk : ∀ va, walk root va (readWord k.ram) = k.resolve (pageOf root) va := by
    intro va
    rw [Kvm.resolve, ← haddr]
  refine ⟨fun va hva => ?_, fun va => ?_, htree'.unshared⟩
  · rw [hwalk, hresolve va hva, hnone, Option.or_none]
  · rw [hwalk, hwalk]
    exact Kvm.resolve_low k (pageOf root) va

/-- A heap of eight pages, in RAM that is not zero. -/
def smallHeap : Kvm :=
  ⟨fun _ => 0xFF#8, ⟨.empty, 0x80000000#64, 8, by decide, by decide, by decide⟩⟩

/-- A page of device registers, and the heap. -/
def smallRanges : List MapRange :=
  [⟨0x10000000#64, 0x10001000#64, kernelRw⟩, ⟨0x80000FFF#64, 0x80001001#64, kernelRo⟩]

theorem pageMap_correct_small : ∃ root k₁ k, smallHeap.allocZeroedPage = .ok (root, k₁) ∧
    k₁.mapRanges root smallRanges = .ok k ∧
      walk root 0x80000123#64 (readWord k.ram) = some ⟨0x80000123#64, kernelRo⟩ := by
  have hsome : (smallHeap.allocZeroedPage.toOption.bind fun r =>
      (r.2.mapRanges r.1 smallRanges).toOption).isSome = true := by decide +kernel
  rcases hroot : smallHeap.allocZeroedPage with e | ⟨root, k₁⟩
  · rw [hroot] at hsome
    cases hsome
  · rw [hroot] at hsome
    rcases hmap : k₁.mapRanges root smallRanges with e | k
    · change (k₁.mapRanges root smallRanges).toOption.isSome = true at hsome
      rw [hmap] at hsome
      cases hsome
    · refine ⟨root, k₁, k, rfl, hmap, ?_⟩
      have hflags : ∀ r ∈ smallRanges, r.flags.Maps := by
        simp only [smallRanges, List.forall_mem_cons]
        exact ⟨⟨rfl, rfl⟩, ⟨rfl, rfl⟩, nofun⟩
      rw [(pageMap_correct smallHeap k₁ k root smallRanges hroot hflags (by decide) hmap).1
        0x80000123#64 (by decide)]
      decide +kernel

end Wari
