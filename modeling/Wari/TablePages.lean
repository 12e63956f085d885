import Wari.PageMap
import Mathlib.Order.Interval.Finset.Nat

/-!
# The pages the tables take

The map makes a table where a page first needs it. So it takes one page of the allocator for
the root, one for each gigabyte in which a page is mapped and one for each two megabytes: the
first ones the allocator has (`Kvm.Built`). Mapping a list of ranges then succeeds exactly if
the allocator has that many pages, and fails as the allocator does otherwise
(`Kvm.mapRanges_total`).
-/

namespace Wari

/-- The pages that a range covers, the last one also where it covers it in part. -/
def MapRange.pages (r : MapRange) : Finset ℕ :=
  Finset.Ico (r.start.toNat / pageSize) ((r.endAddr.toNat + (pageSize - 1)) / pageSize)

/-- The pages that any of these ranges covers. -/
def pagesOf : List MapRange → Finset ℕ
  | [] => ∅
  | r :: rs => r.pages ∪ pagesOf rs

theorem mem_pagesOf {rs : List MapRange} {p : ℕ} : p ∈ pagesOf rs ↔ ∃ r ∈ rs, p ∈ r.pages := by
  induction rs with
  | nil => simp [pagesOf]
  | cons r rs ih => simp [pagesOf, ih]

/-- The tables of the last level that pages need. -/
def lastTables (S : Finset ℕ) : Finset ℕ := S.image (· / 512)

/-- The tables between these pages and the root: one for each gigabyte that they touch. -/
def middleTables (S : Finset ℕ) : Finset ℕ := S.image (· / 512 ^ 2)

/-- How many pages the tables take, the root among them. -/
def tablePages (S : Finset ℕ) : ℕ := 1 + (middleTables S).card + (lastTables S).card

theorem tablePages_mono {S T : Finset ℕ} (h : S ⊆ T) : tablePages S ≤ tablePages T := by
  have hmiddle := Finset.card_le_card (Finset.image_subset_image (f := (· / 512 ^ 2)) h)
  have hlast := Finset.card_le_card (Finset.image_subset_image (f := (· / 512)) h)
  rw [tablePages, tablePages, middleTables, middleTables, lastTables, lastTables]
  omega

/-- **One page more** needs the tables that are not there yet: two at most, and mostly none. -/
theorem tablePages_insert (p : ℕ) (S : Finset ℕ) :
    tablePages (insert p S) = tablePages S + (if p / 512 ^ 2 ∈ middleTables S then 0 else 1) +
      if p / 512 ∈ lastTables S then 0 else 1 := by
  rw [tablePages, tablePages, middleTables, lastTables, Finset.image_insert, Finset.image_insert]
  change 1 + (insert _ (middleTables S)).card + (insert _ (lastTables S)).card = _
  rw [Finset.card_insert_eq_ite, Finset.card_insert_eq_ite]
  split_ifs <;> omega

/-- The most pages that the tables of a range take. -/
def MapRange.tables (r : MapRange) : ℕ :=
  ((r.endAddr.toNat + (2 ^ 30 - 1)) / 2 ^ 30 - r.start.toNat / 2 ^ 30) +
    ((r.endAddr.toNat + (2 ^ 21 - 1)) / 2 ^ 21 - r.start.toNat / 2 ^ 21)

theorem MapRange.card_tables_le (r : MapRange) :
    (middleTables r.pages).card + (lastTables r.pages).card ≤ r.tables := by
  have hmiddle : middleTables r.pages ⊆ Finset.Ico (r.start.toNat / 2 ^ 30)
      ((r.endAddr.toNat + (2 ^ 30 - 1)) / 2 ^ 30) := by
    rw [middleTables, Finset.image_subset_iff]
    intro p hp
    simp only [pages, pageSize, Finset.mem_Ico] at hp ⊢
    omega
  have hlast : lastTables r.pages ⊆ Finset.Ico (r.start.toNat / 2 ^ 21)
      ((r.endAddr.toNat + (2 ^ 21 - 1)) / 2 ^ 21) := by
    rw [lastTables, Finset.image_subset_iff]
    intro p hp
    simp only [pages, pageSize, Finset.mem_Ico] at hp ⊢
    omega
  have hcard := Nat.add_le_add (Finset.card_le_card hmiddle) (Finset.card_le_card hlast)
  rwa [Nat.card_Ico, Nat.card_Ico] at hcard

/-- Ranges take no more tables than each alone. -/
theorem tablePages_le (rs : List MapRange) :
    tablePages (pagesOf rs) ≤ 1 + (rs.map MapRange.tables).sum := by
  induction rs with
  | nil => simp [tablePages, pagesOf, middleTables, lastTables]
  | cons r rs ih =>
    have hr := r.card_tables_le
    have hmiddle := Finset.card_union_le (middleTables r.pages) (middleTables (pagesOf rs))
    have hlast := Finset.card_union_le (lastTables r.pages) (lastTables (pagesOf rs))
    rw [middleTables, middleTables, ← Finset.image_union] at hmiddle
    rw [lastTables, lastTables, ← Finset.image_union] at hlast
    rw [tablePages] at ih
    rw [pagesOf, tablePages, List.map_cons, List.sum_cons]
    simp only [middleTables, lastTables] at *
    omega

/-! ## The allocator

The allocator hands out the lowest free page, so from a fresh one pages come in order. -/

namespace BitmapAllocator

/-- The first `n` pages are allocated, and no other. -/
def Filled (a : BitmapAllocator) (n : ℕ) : Prop := a.Represents (Finset.range n)

/-- The pages of one allocator are those of the other. -/
structure SamePages (a b : BitmapAllocator) : Prop where
  base : b.baseAddr = a.baseAddr
  total : b.totalPages = a.totalPages

variable {a b c : BitmapAllocator} {n : ℕ}

theorem SamePages.trans (h : a.SamePages b) (h' : b.SamePages c) : a.SamePages c :=
  ⟨h'.base.trans h.base, h'.total.trans h.total⟩

/-- **The next page** is allocated, in the order of the addresses, as none was ever given back. -/
theorem Filled.alloc (h : a.Filled n) (hn : n < a.totalPages) :
    ∃ b, a.alloc = (.ok (a.baseAddr + BitVec.ofNat 64 (n * pageSize)), b) ∧ b.Filled (n + 1) ∧
      a.SamePages b := by
  rcases a.alloc_cases with ⟨-, hfull⟩ | ⟨i, hi, hclear, hlow, bitmap, halloc, hget⟩
  · exact absurd ((h.mem n).mp (hfull n hn)) Finset.notMem_range_self
  · have hin : i = n := by
      have hle : n ≤ i := by simpa using (h.get_eq_false i).mp hclear
      by_contra hne
      have hlt : n < i := Nat.lt_of_le_of_ne hle (Ne.symm hne)
      exact absurd ((h.mem n).mp (hlow n hlt)) Finset.notMem_range_self
    subst hin
    have hnext := h.insert hi hget
    rw [← Finset.range_add_one] at hnext
    exact ⟨_, halloc, hnext, rfl, rfl⟩

/-- No page is left once as many were allocated as there are. -/
theorem Filled.alloc_full (h : a.Filled n) (hn : a.totalPages ≤ n) :
    a.alloc = (.error .outOfMemory, a) := by
  rcases a.alloc_cases with ⟨halloc, -⟩ | ⟨i, hi, hclear, -⟩
  · exact halloc
  · have hle : n ≤ i := by simpa using (h.get_eq_false i).mp hclear
    omega

end BitmapAllocator

/-! ## One page

Mapping a page makes the tables on its path that are not there yet, and needs a page for each. -/

namespace Kvm

/-- The state after a table was asked for at the path `q`: the table is there, on page `b`, and
`n` pages are taken. -/
structure Hung (k k' : Kvm) (root : BitVec 52) (q : List (BitVec 9)) (b : BitVec 52) (n : ℕ) :
    Prop where
  tree : k'.Tree root
  tables : ∀ r, k'.tables.tableAt root r = if r = q then some b else k.tables.tableAt root r
  leaves : ∀ r j, k'.tables.leafAt root r j = k.tables.leafAt root r j
  filled : k'.alloc.Filled n
  pages : k.alloc.SamePages k'.alloc

variable {k k' : Kvm} {root : BitVec 52} {n : ℕ}

/-- A page is allocated while there is one. -/
theorem allocZeroedPage_filled (h : k.alloc.Filled n) :
    if n < k.alloc.totalPages then
      ∃ addr k', k.allocZeroedPage = .ok (addr, k') ∧ k'.alloc.Filled (n + 1) ∧
        k.alloc.SamePages k'.alloc
    else k.allocZeroedPage = .error .outOfPages := by
  split
  · rename_i hn
    obtain ⟨b, halloc, hfilled, hpages⟩ := h.alloc hn
    have hnew : k.allocZeroedPage = .ok (k.alloc.baseAddr + BitVec.ofNat 64 (n * pageSize),
        { k with alloc := b }.zeroPage (k.alloc.baseAddr + BitVec.ofNat 64 (n * pageSize))) := by
      rw [allocZeroedPage, halloc]
    exact ⟨_, _, hnew, hfilled, hpages⟩
  · rename_i hn
    rw [allocZeroedPage, h.alloc_full (Nat.not_lt.mp hn)]

/-- How many pages it takes to have a table at a path. -/
def missing (k : Kvm) (root : BitVec 52) (q : List (BitVec 9)) : ℕ :=
  if (k.tables.tableAt root q).isSome then 0 else 1

theorem missing_some {q : List (BitVec 9)} {t : BitVec 52}
    (h : k.tables.tableAt root q = some t) : k.missing root q = 0 := by
  rw [missing, h]
  rfl

theorem missing_none {q : List (BitVec 9)} (h : k.tables.tableAt root q = none) :
    k.missing root q = 1 := by
  rw [missing, h]
  rfl

/-- **One level down**, where no leaf is in the way: the table is there already, or takes the
next page. -/
theorem Tree.walkOrCreate_total (h : k.Tree root) {p : List (BitVec 9)} {t : BitVec 52}
    (hp : k.tables.tableAt root p = some t) (hlen : p.length ≤ 1) {i : BitVec 9}
    (hleaf : k.tables.leafAt root p i = none) (hfilled : k.alloc.Filled n)
    (hn : n ≤ k.alloc.totalPages) :
    if n + k.missing root (p ++ [i]) ≤ k.alloc.totalPages then
      ∃ b k', k.walkOrCreate (pageAddr t) (i.setWidth 64) = .ok (pageAddr b, k') ∧
        k.Hung k' root (p ++ [i]) b (n + k.missing root (p ++ [i]))
    else k.walkOrCreate (pageAddr t) (i.setWidth 64) = .error .outOfPages := by
  have hslot : k.tables t i = slotOf (k.readPte (pageAddr t) (i.setWidth 64)) := rfl
  have hat : k.tables.tableAt root (p ++ [i]) = Lib.Tables.child? (k.tables t i) := by
    rw [Lib.Tables.tableAt_snoc, hp, Option.bind_some]
  have hnot : Lib.Tables.leaf? (k.tables t i) = none := by
    rw [Lib.Tables.leafAt, hp] at hleaf
    exact hleaf
  rcases slotOf_cases (k.readPte (pageAddr t) (i.setWidth 64)) with
    ⟨hvalid, hs⟩ | ⟨hvalid, hl, hs⟩ | ⟨hvalid, hl, hs⟩
  · -- no table yet
    have hempty : k.tables t i = .empty := hslot.trans hs
    have hnone : k.tables.tableAt root (p ++ [i]) = none := by
      rw [hat, hempty]
      rfl
    rw [missing_none hnone]
    have hnew := allocZeroedPage_filled hfilled
    split at hnew
    · rename_i hlt
      obtain ⟨addr, k₁, hnew, hfilled₁, hpages⟩ := hnew
      rw [if_pos (Nat.succ_le_of_lt hlt)]
      obtain ⟨b, rfl, hfree, -, -, htables⟩ := allocZeroedPage_spec hnew
      have hwalk : k.walkOrCreate (pageAddr t) (i.setWidth 64) =
          .ok (pageAddr b, k₁.writePte (pageAddr t) (i.setWidth 64) (.branch (pageAddr b))) := by
        rw [Kvm.walkOrCreate, hvalid, hnew]
        rfl
      obtain ⟨-, -, hgrown, -⟩ := h.walkOrCreate hp hlen hwalk
      refine ⟨b, _, hwalk, hgrown.tree, fun r => ?_, hgrown.leaves, hfilled₁, hpages⟩
      have hsame := h.tables_same hfree htables
      rw [tables_writePte, slotOf_branch,
        Lib.Tables.tableAt_set_branch (h.unshared.congr hsame)
          ((Lib.Tables.tableAt_congr hsame p).trans hp) (by rw [hsame p t hp, hempty])
          (fun q hq => h.fresh hfree q (by rwa [Lib.Tables.tableAt_congr hsame] at hq))
          (fun j => by rw [htables, Function.update_self]),
        Lib.Tables.tableAt_congr hsame]
    · rename_i hge
      rw [if_neg (by omega), Kvm.walkOrCreate, hvalid, hnew]
      rfl
  · -- no leaf is in the way
    rw [hslot, hs] at hnot
    cases hnot
  · have hsome : k.tables.tableAt root (p ++ [i]) =
        some (pageOf (k.readPte (pageAddr t) (i.setWidth 64)).physAddr) := by
      rw [hat, hslot, hs]
      rfl
    have hbranch : (k.readPte (pageAddr t) (i.setWidth 64)).isBranch = true := by
      rw [Pte.isLeaf, hvalid] at hl
      rw [Pte.isBranch, hvalid]
      simpa using hl
    have hwalk : k.walkOrCreate (pageAddr t) (i.setWidth 64) =
        .ok (pageAddr (pageOf (k.readPte (pageAddr t) (i.setWidth 64)).physAddr), k) := by
      rw [Kvm.walkOrCreate, hvalid, hbranch, Pte.pageAddr_physAddr]
      rfl
    rw [missing_some hsome, Nat.add_zero, if_pos hn]
    refine ⟨_, k, hwalk, h, fun r => ?_, fun _ _ => rfl, hfilled, rfl, rfl⟩
    split
    · rename_i hr
      rw [hr, hsome]
    · rfl

/-- The pages `S` are mapped: the tables are those they need, on the first pages of the allocator
`a`, and leaves are at the last level only. The last is what keeps a later range from running into
a leaf where it needs a table. -/
structure Built (k : Kvm) (a : BitmapAllocator) (root : BitVec 52) (S : Finset ℕ) : Prop where
  tree : k.Tree root
  flat : ∀ q j pte, k.tables.leafAt root q j = some pte → q.length = 2
  middle : ∀ i, (k.tables.tableAt root [i]).isSome ↔ i.toNat ∈ middleTables S
  last : ∀ i j, (k.tables.tableAt root [i, j]).isSome ↔ i.toNat * 512 + j.toNat ∈ lastTables S
  filled : k.alloc.Filled (tablePages S)
  fits : tablePages S ≤ k.alloc.totalPages
  pages : a.SamePages k.alloc

variable {a : BitmapAllocator} {S : Finset ℕ}

theorem Built.leafAt_none (h : k.Built a root S) {q : List (BitVec 9)} (hq : q.length ≠ 2)
    (j : BitVec 9) : k.tables.leafAt root q j = none := by
  rcases hleaf : k.tables.leafAt root q j with _ | pte
  · rfl
  · exact absurd (h.flat q j pte hleaf) hq

/-- The indices of a page below `2 ^ 39`. -/
theorem toNat_index (va : BitVec 64) (hlow : va.toNat < 2 ^ 39) :
    (index2 va).toNat = va.toNat / pageSize / 512 ^ 2 ∧
    (index2 va).toNat * 512 + (index1 va).toNat = va.toNat / pageSize / 512 := by
  have hnat : ∀ n, (va.extractLsb' n 9).toNat = va.toNat / 2 ^ n % 2 ^ 9 := fun n => by
    rw [BitVec.extractLsb'_toNat, Nat.shiftRight_eq_div_pow]
  rw [index2, index1, hnat, hnat, pageSize]
  omega

theorem Built.tablePages_insert (h : k.Built a root S) {va : BitVec 64}
    (hlow : va.toNat < 2 ^ 39) : tablePages (insert (va.toNat / pageSize) S) = tablePages S +
      k.missing root [index2 va] + k.missing root [index2 va, index1 va] := by
  obtain ⟨hmiddle, hlast⟩ := toNat_index va hlow
  rw [Wari.tablePages_insert, ← hmiddle, ← hlast, missing, missing]
  simp only [h.middle, h.last]

/-- What making room for a page leaves: a tree with a table at the last level of its path. -/
structure Room (k k' : Kvm) (a : BitmapAllocator) (root : BitVec 52) (va : BitVec 64)
    (t : BitVec 52) (n : ℕ) : Prop where
  tree : k'.Tree root
  at_last : k'.tables.tableAt root [index2 va, index1 va] = some t
  tables : ∀ q, (k'.tables.tableAt root q).isSome ↔
    (q = [index2 va, index1 va] ∨ q = [index2 va] ∨ (k.tables.tableAt root q).isSome)
  filled : k'.alloc.Filled n
  pages : a.SamePages k'.alloc

/-- **Room for a page** is made if the tables fit, and fails for want of a page if they do not. -/
theorem Built.room (h : k.Built a root S) {va : BitVec 64} (hlow : va.toNat < 2 ^ 39)
    (flags : PteFlags) :
    if tablePages (insert (va.toNat / pageSize) S) ≤ a.totalPages then
      ∃ t k', k.mapPage (pageAddr root) va va flags =
          .ok (k'.writePte (pageAddr t) ((index0 va).setWidth 64) (.new va flags)) ∧
        k.Room k' a root va t (tablePages (insert (va.toNat / pageSize) S))
    else k.mapPage (pageAddr root) va va flags = .error .outOfPages := by
  have hpages := h.tablePages_insert hlow
  have htotal := h.pages.total
  -- the middle table
  have hstep := h.tree.walkOrCreate_total (p := []) rfl (by simp) (i := index2 va)
    (h.leafAt_none (by simp) _) h.filled h.fits
  rw [List.nil_append, htotal] at hstep
  by_cases hle : tablePages S + k.missing root [index2 va] ≤ a.totalPages
  swap
  · rw [if_neg hle] at hstep
    rw [if_neg (by omega), Kvm.mapPage, vaParts_eq]
    simp only [hstep]
  rw [if_pos hle] at hstep
  obtain ⟨t₁, k₁, hwalk₁, hung₁⟩ := hstep
  have hat₁ : k₁.tables.tableAt root [index2 va] = some t₁ := by rw [hung₁.tables, if_pos rfl]
  have hsame : k₁.tables.tableAt root [index2 va, index1 va] =
      k.tables.tableAt root [index2 va, index1 va] := by
    rw [hung₁.tables, if_neg (by simp)]
  have hmissing : k₁.missing root [index2 va, index1 va] =
      k.missing root [index2 va, index1 va] := by
    rw [missing, missing, hsame]
  have htotal₁ : k₁.alloc.totalPages = a.totalPages := (h.pages.trans hung₁.pages).total
  -- the last one
  have hstep := hung₁.tree.walkOrCreate_total hat₁ le_rfl (i := index1 va)
    (by rw [hung₁.leaves]; exact h.leafAt_none (by simp) _) hung₁.filled (by rwa [htotal₁])
  rw [List.singleton_append, hmissing, htotal₁, ← hpages] at hstep
  split at hstep
  · rename_i hle
    rw [if_pos hle]
    obtain ⟨t₀, k₀, hwalk₀, hung₀⟩ := hstep
    refine ⟨t₀, k₀, ?_, hung₀.tree, by rw [hung₀.tables, if_pos rfl], fun q => ?_, hung₀.filled,
      (h.pages.trans hung₁.pages).trans hung₀.pages⟩
    · rw [Kvm.mapPage, vaParts_eq]
      simp only [hwalk₁, hwalk₀]
    · rw [hung₀.tables, hung₁.tables]
      split_ifs with hlast hmiddle <;> simp [*]
  · rename_i hgt
    rw [if_neg hgt, Kvm.mapPage, vaParts_eq]
    simp only [hwalk₁, hstep]

/-- **One page more** costs as many pages as it needs new tables, or fails for want of them. -/
theorem Built.mapPage (h : k.Built a root S) {va : BitVec 64} {flags : PteFlags}
    (haligned : va.toNat % pageSize = 0) (hlow : va.toNat < 2 ^ 39) (hflags : flags.Maps) :
    if tablePages (insert (va.toNat / pageSize) S) ≤ a.totalPages then
      ∃ k', k.mapPage (pageAddr root) va va flags = .ok k' ∧
        k'.Built a root (insert (va.toNat / pageSize) S)
    else k.mapPage (pageAddr root) va va flags = .error .outOfPages := by
  have hroom := h.room hlow flags
  split at hroom
  swap
  · rename_i hgt
    rwa [if_neg hgt]
  rename_i hle
  rw [if_pos hle]
  obtain ⟨t, k₀, hmap, hroom⟩ := hroom
  refine ⟨_, hmap, ?_⟩
  have hpage : pageAddr (pageOf va) = va := pageAddr_pageOf haligned
  have hslot : slotOf (.new va flags) = .leaf (.new va flags) := hpage ▸ slotOf_new _ hflags
  have hmap' : k.mapPage (pageAddr root) va (pageAddr (pageOf va)) flags =
      .ok (k₀.writePte (pageAddr t) ((index0 va).setWidth 64) (.new va flags)) := by
    rwa [hpage]
  obtain ⟨htree, hleaf⟩ := h.tree.mapPage hflags hmap'
  -- no table is at the end of three indices
  have hdeep : Lib.Tables.child? (k₀.tables t (index0 va)) = none := by
    rcases hchild : Lib.Tables.child? (k₀.tables t (index0 va)) with _ | b
    · rfl
    · have hlong : k₀.tables.tableAt root ([index2 va, index1 va] ++ [index0 va]) = some b := by
        rw [Lib.Tables.tableAt_snoc, hroom.at_last, Option.bind_some, hchild]
      exact absurd (hroom.tree.depth _ _ hlong) (by simp)
  have htables : ∀ q, ((k₀.writePte (pageAddr t) ((index0 va).setWidth 64)
      (.new va flags)).tables.tableAt root q).isSome ↔
        (q = [index2 va, index1 va] ∨ q = [index2 va] ∨ (k.tables.tableAt root q).isSome) := by
    intro q
    rw [tables_writePte, hslot, Lib.Tables.tableAt_set_leaf hdeep, hroom.tables]
  obtain ⟨hmiddle, hlast⟩ := toNat_index va hlow
  refine ⟨htree, fun q j pte hq => ?_, fun i => ?_, fun i j => ?_, hroom.filled, ?_, hroom.pages⟩
  · rw [hleaf] at hq
    split at hq
    · rename_i hat
      rw [hat.1]
      rfl
    · exact h.flat q j pte hq
  · rw [htables, middleTables, Finset.image_insert, Finset.mem_insert, ← hmiddle, BitVec.toNat_inj]
    change _ ↔ _ ∨ _ ∈ middleTables S
    simp [h.middle]
  · have hij : i.toNat * 512 + j.toNat = (index2 va).toNat * 512 + (index1 va).toNat ↔
        i = index2 va ∧ j = index1 va := by
      rw [← BitVec.toNat_inj, ← BitVec.toNat_inj (x := j)]
      have := j.isLt
      have := (index1 va).isLt
      omega
    rw [htables, lastTables, Finset.image_insert, Finset.mem_insert, ← hlast, hij]
    change _ ↔ _ ∨ _ ∈ lastTables S
    simp [h.last]
  · rwa [← hroom.pages.total] at hle

/-! ## Ranges

The tables that a set of pages needs, counted. A range needs no more than its length says. -/

/-- The pages from one to another, without the first. -/
theorem insert_Ico_union {p q : ℕ} (h : p < q) (S : Finset ℕ) :
    Finset.Ico (p + 1) q ∪ insert p S = Finset.Ico p q ∪ S := by
  have hIco : insert p (Finset.Ico (p + 1) q) = Finset.Ico p q := by
    ext x
    simp only [Finset.mem_Ico, Finset.mem_insert]
    omega
  rw [Finset.union_insert, ← Finset.insert_union, hIco]

/-- **The loop** needs the tables of the pages up to the end, and fails exactly if there are too
few. -/
theorem Built.mapFrom {endAligned : BitVec 64} {flags : PteFlags} (hflags : flags.Maps)
    (hend : endAligned.toNat % pageSize = 0) (hlow : endAligned.toNat ≤ 2 ^ 39) (m : ℕ)
    {addr : BitVec 64} {k : Kvm} {S : Finset ℕ} (h : k.Built a root S)
    (haddr : addr.toNat % pageSize = 0) (hturns : endAligned.toNat ≤ addr.toNat + m * pageSize) :
    if tablePages (Finset.Ico (addr.toNat / pageSize) (endAligned.toNat / pageSize) ∪ S) ≤
        a.totalPages then
      ∃ k', Kvm.mapFrom (pageAddr root) endAligned flags m addr k = .ok k' ∧ k'.Built a root
        (Finset.Ico (addr.toNat / pageSize) (endAligned.toNat / pageSize) ∪ S)
    else Kvm.mapFrom (pageAddr root) endAligned flags m addr k = .error .outOfPages := by
  have hfits := h.fits
  rw [h.pages.total] at hfits
  induction m generalizing addr k S with
  | zero =>
    rw [Finset.Ico_eq_empty_of_le (Nat.div_le_div_right (by omega)), Finset.empty_union,
      if_pos hfits]
    exact ⟨k, rfl, h⟩
  | succ m ih =>
    rw [Kvm.mapFrom]
    by_cases hlt : addr < endAligned
    · rw [if_pos hlt]
      rw [BitVec.lt_def] at hlt
      have hpages : addr.toNat / pageSize < endAligned.toNat / pageSize := by
        simp only [pageSize] at *
        omega
      have hnext : (addr + BitVec.ofNat 64 pageSize).toNat = addr.toNat + pageSize := by
        rw [BitVec.toNat_add, BitVec.toNat_ofNat]
        simp only [pageSize] at *
        omega
      have hnextPage : (addr + BitVec.ofNat 64 pageSize).toNat / pageSize =
          addr.toNat / pageSize + 1 := by
        rw [hnext, pageSize, Nat.add_div_right _ (by decide)]
      rw [← insert_Ico_union hpages]
      have hpage := h.mapPage haddr (by omega) hflags
      split at hpage
      · rename_i hle
        obtain ⟨k₁, hmap, hbuilt⟩ := hpage
        rw [hmap]
        have hrest := ih hbuilt (by rw [hnext]; simpa using haddr)
          (by rw [hnext]; rw [Nat.succ_mul] at hturns; omega) hle
        rwa [hnextPage] at hrest
      · rename_i hgt
        rw [hpage, if_neg fun hle => hgt ((tablePages_mono Finset.subset_union_right).trans hle)]
    · rw [if_neg hlt]
      rw [BitVec.lt_def] at hlt
      rw [Finset.Ico_eq_empty_of_le (Nat.div_le_div_right (by omega)), Finset.empty_union,
        if_pos hfits]
      exact ⟨k, rfl, h⟩

/-- **A range** costs what its pages cost, by induction on the pages. -/
theorem Built.mapRange (h : k.Built a root S) {r : MapRange} (hflags : r.flags.Maps)
    (hlow : r.endAddr.toNat ≤ 2 ^ 39) :
    if tablePages (r.pages ∪ S) ≤ a.totalPages then
      ∃ k', k.mapRange (pageAddr root) r.start r.endAddr r.flags = .ok k' ∧
        k'.Built a root (r.pages ∪ S)
    else k.mapRange (pageAddr root) r.start r.endAddr r.flags = .error .outOfPages := by
  rw [Kvm.mapRange]
  set startAligned := r.start &&& ~~~(BitVec.ofNat 64 pageSize - 1#64) with hstart
  set endAligned := (r.endAddr + BitVec.ofNat 64 pageSize - 1#64) &&&
    ~~~(BitVec.ofNat 64 pageSize - 1#64) with hend
  have hs : startAligned.toNat = r.start.toNat / pageSize * pageSize := by
    rw [hstart, toNat_align]
  have hround : (r.endAddr + BitVec.ofNat 64 pageSize - 1#64).toNat =
      r.endAddr.toNat + (pageSize - 1) := by
    rw [BitVec.toNat_sub, BitVec.toNat_add, BitVec.toNat_ofNat, BitVec.toNat_ofNat]
    simp only [pageSize]
    omega
  have he : endAligned.toNat = (r.endAddr.toNat + (pageSize - 1)) / pageSize * pageSize := by
    rw [hend, toNat_align, hround]
  have hturns : endAligned.toNat ≤
      startAligned.toNat + (endAligned - startAligned).toNat / pageSize * pageSize := by
    have := startAligned.isLt
    rw [BitVec.toNat_sub]
    simp only [pageSize] at *
    omega
  have hpos : 0 < pageSize := by decide
  have hloop := Built.mapFrom hflags (by rw [he]; exact Nat.mul_mod_left _ _)
    (by rw [he]; simp only [pageSize]; omega) _ h (by rw [hs]; exact Nat.mul_mod_left _ _) hturns
  rwa [hs, he, Nat.mul_div_cancel _ hpos, Nat.mul_div_cancel _ hpos] at hloop

/-- **Ranges**, one after another: the tables needed are those of all pages together. -/
theorem Built.mapRanges {rs : List MapRange} (hflags : ∀ r ∈ rs, r.flags.Maps)
    (hlow : ∀ r ∈ rs, r.endAddr.toNat ≤ 2 ^ 39) {k : Kvm} {S : Finset ℕ} (h : k.Built a root S) :
    if tablePages (pagesOf rs ∪ S) ≤ a.totalPages then
      ∃ k', k.mapRanges (pageAddr root) rs = .ok k' ∧ k'.Built a root (pagesOf rs ∪ S)
    else k.mapRanges (pageAddr root) rs = .error .outOfPages := by
  induction rs generalizing k S with
  | nil =>
    have hfits := h.fits
    rw [h.pages.total] at hfits
    rw [pagesOf, Finset.empty_union, if_pos hfits]
    exact ⟨k, rfl, h⟩
  | cons r rs ih =>
    have hunion : pagesOf (r :: rs) ∪ S = pagesOf rs ∪ (r.pages ∪ S) := by
      rw [pagesOf, Finset.union_assoc, Finset.union_left_comm]
    rw [hunion, Kvm.mapRanges]
    have hrange := h.mapRange (hflags r List.mem_cons_self) (hlow r List.mem_cons_self)
    split at hrange
    · obtain ⟨k₁, hmap, hbuilt⟩ := hrange
      rw [hmap]
      exact ih (fun s hs => hflags s (List.mem_cons_of_mem _ hs))
        (fun s hs => hlow s (List.mem_cons_of_mem _ hs)) hbuilt
    · rename_i hgt
      rw [hrange, if_neg fun hle => hgt ((tablePages_mono Finset.subset_union_right).trans hle)]

/-- **A fresh root** is the first table, and maps nothing. -/
theorem built_root (h : k.alloc.Filled 0) : ∃ b k', k.allocZeroedPage = .ok (pageAddr b, k') ∧
    k'.Built k.alloc b ∅ := by
  have hnew := allocZeroedPage_filled h
  rw [if_pos k.alloc.pages] at hnew
  obtain ⟨addr, k', hnew, hfilled, hpages⟩ := hnew
  obtain ⟨b, rfl, -, -, -, htables⟩ := allocZeroedPage_spec hnew
  obtain ⟨-, htree, -⟩ := tree_root hnew
  rw [pageOf_pageAddr] at htree
  have hat : ∀ i q, k'.tables.tableAt b (i :: q) = none := fun i q => by
    rw [Lib.Tables.tableAt_cons, htables, Function.update_self]
    rfl
  refine ⟨b, k', hnew, htree, fun q j pte hq => ?_, fun i => ?_, fun i j => ?_, hfilled, ?_,
    hpages⟩
  · rw [Lib.Tables.leafAt] at hq
    rcases q with _ | ⟨i, q⟩
    · rw [Lib.Tables.tableAt_nil, Option.bind_some, htables, Function.update_self] at hq
      cases hq
    · rw [hat] at hq
      cases hq
  · rw [hat]
    simp [middleTables]
  · rw [hat]
    simp [lastTables]
  · rw [hpages.total]
    exact k.alloc.pages

/-- **What the map takes.** Below a fresh root, any ranges are mapped if the pool has a page for
the root, one for each gigabyte in which a page is mapped, and one for each two megabytes; and
with a page less the mapping fails. -/
theorem mapRanges_total {base : BitVec 64} {numPages : ℕ} {a : BitmapAllocator}
    (hnew : BitmapAllocator.new base numPages = some a) (ram : Lib.Ram) (rs : List MapRange)
    (hflags : ∀ r ∈ rs, r.flags.Maps) (hlow : ∀ r ∈ rs, r.endAddr.toNat ≤ 2 ^ 39) :
    ∃ root k₁, allocZeroedPage ⟨ram, a⟩ = .ok (pageAddr root, k₁) ∧
      (tablePages (pagesOf rs) ≤ numPages → ∃ k, k₁.mapRanges (pageAddr root) rs = .ok k ∧
        k.alloc.allocatedCount = tablePages (pagesOf rs) ∧
        ∀ q t, k.tables.tableAt root q = some t → ∃ i < tablePages (pagesOf rs),
          pageAddr t = base + BitVec.ofNat 64 (i * pageSize)) ∧
      (numPages < tablePages (pagesOf rs) →
        k₁.mapRanges (pageAddr root) rs = .error .outOfPages) := by
  obtain ⟨hrep, hmanaged⟩ := BitmapAllocator.new_represents hnew
  have hbase : a.baseAddr = base :=
    BitVec.eq_of_toNat_eq (congrArg Pages.base hmanaged)
  have htotal : a.totalPages = numPages := congrArg Pages.n hmanaged
  obtain ⟨root, k₁, hroot, hbuilt⟩ := built_root (k := ⟨ram, a⟩) hrep
  have hranges := hbuilt.mapRanges hflags hlow
  rw [Finset.union_empty, htotal] at hranges
  refine ⟨root, k₁, hroot, fun hle => ?_, fun hgt => ?_⟩
  · rw [if_pos hle] at hranges
    obtain ⟨k, hmap, hbuilt'⟩ := hranges
    refine ⟨k, hmap, ?_, fun q t hq => ?_⟩
    · rw [hbuilt'.filled.allocatedCount, Finset.card_range]
    · obtain ⟨i, hi, htaken, haddr⟩ := hbuilt'.tree.taken q t hq
      rw [hbuilt'.pages.base, hbase] at haddr
      exact ⟨i, Finset.mem_range.mp ((hbuilt'.filled.mem i).mp htaken), haddr⟩
  · rwa [if_neg (Nat.not_le.mpr hgt)] at hranges

/-- Five pages of eight: two ranges, far apart. -/
theorem mapRanges_total_small : ∃ root k₁ k, smallHeap.allocZeroedPage = .ok (root, k₁) ∧
    k₁.mapRanges root smallRanges = .ok k ∧ k.alloc.allocatedCount = 5 := by
  have hnew : BitmapAllocator.new 0x80000000#64 8 = some smallHeap.alloc :=
    dif_pos ⟨by decide, by decide, by decide⟩
  have hflags : ∀ r ∈ smallRanges, r.flags.Maps := by
    simp only [smallRanges, List.forall_mem_cons]
    exact ⟨⟨rfl, rfl⟩, ⟨rfl, rfl⟩, fun r hr => by cases hr⟩
  have hfive : tablePages (pagesOf smallRanges) = 5 := by decide
  obtain ⟨root, k₁, hroot, hmapped, -⟩ :=
    mapRanges_total hnew smallHeap.ram smallRanges hflags (by decide)
  obtain ⟨k, hmap, hcount, -⟩ := hmapped (by rw [hfive]; decide)
  exact ⟨_, k₁, k, hroot, hmap, hcount.trans hfive⟩

end Kvm

end Wari
