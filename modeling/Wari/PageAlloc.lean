import Wari.Lib.Bitmap
import Wari.Lib.Server
import Mathlib.Data.Finset.Card
import Mathlib.Data.BitVec

/-!
# The page allocator

Physical pages are handed out from a bitmap of 64-bit words. `Pages` is what the bitmap is
for: a finite set of page numbers. Whatever sequence of operations arrives, at whatever
addresses, the bitmap answers as the set does (`pageAlloc_refines`).
-/

namespace Wari

/-- The number of bytes of a page. -/
def pageSize : ℕ := 4096

/-- The largest number of pages that a bitmap can track. -/
def maxPages : ℕ := 32768

/-- The number of words of a bitmap. -/
def bitmapWords : ℕ := maxPages / 64

/-- Why an operation of the allocator fails, as the error enumeration of the source has it. -/
inductive AllocError where
  /-- all managed pages are allocated -/
  | outOfMemory
  /-- the page is not currently allocated; or it is, and was to be marked -/
  | doubleFree
  /-- the address is outside the managed pages -/
  | invalidAddress
  /-- the address is not at a page boundary -/
  | notAligned
  deriving DecidableEq, Repr

/-- An allocator whose parameters `init` has checked. The checks are fields, so that nobody has to
make them again. -/
structure BitmapAllocator where
  /-- which pages are allocated -/
  bitmap : Lib.Bitmap 64 bitmapWords
  baseAddr : BitVec 64
  totalPages : ℕ
  aligned : baseAddr.toNat % pageSize = 0
  pages : 0 < totalPages
  room : totalPages ≤ maxPages

namespace BitmapAllocator

/-- `new` and then `init`: all pages are free, and what `init` asserts holds. -/
def new (base : BitVec 64) (numPages : ℕ) : Option BitmapAllocator :=
  if h : base.toNat % pageSize = 0 ∧ 0 < numPages ∧ numPages ≤ maxPages then
    some ⟨.empty, base, numPages, h.1, h.2.1, h.2.2⟩
  else none

variable (a : BitmapAllocator)

/-- How many words hold a page; the last one may be used in part. -/
def wordsUsed : ℕ := (a.totalPages + 63) / 64

/-- The words that hold a page, in order. -/
def usedWords : List (Fin bitmapWords) := (List.finRange bitmapWords).take a.wordsUsed

/-- The first word that is not full settles it: its first clear bit is the page, or is past
the last one. -/
def allocIn : List (Fin bitmapWords) → Except AllocError (BitVec 64) × BitmapAllocator
  | [] => (.error .outOfMemory, a)
  | wordIdx :: rest =>
    let word := a.bitmap.words wordIdx
    if word = BitVec.allOnes 64 then allocIn rest
    else
      let bitIdx := (~~~word).ctz.toNat
      let pageIdx := wordIdx * 64 + bitIdx
      if a.totalPages ≤ pageIdx then (.error .outOfMemory, a)
      else
        (.ok (a.baseAddr + BitVec.ofNat 64 (pageIdx * pageSize)),
          { a with bitmap := a.bitmap.insertAt wordIdx bitIdx })

/-- Allocate one page, the first that is free. -/
def alloc : Except AllocError (BitVec 64) × BitmapAllocator := a.allocIn a.usedWords

/-- The word that the bit of a page is in. -/
def wordOf (page : { i // i < a.totalPages }) : Fin bitmapWords :=
  ⟨page / 64, Nat.div_lt_of_lt_mul (page.2.trans_le a.room)⟩

/-- The page at an address, or which of the two things is wrong with it. -/
def pageAt (addr : BitVec 64) : Except AllocError { i // i < a.totalPages } :=
  if addr.toNat % pageSize ≠ 0 then .error .notAligned
  else if addr < a.baseAddr then .error .invalidAddress
  else
    let pageIdx := (addr - a.baseAddr).toNat / pageSize
    if h : a.totalPages ≤ pageIdx then .error .invalidAddress
    else .ok ⟨pageIdx, Nat.lt_of_not_le h⟩

/-- Free the page at an address. A page that is free already is a double free. -/
def free (addr : BitVec 64) : Except AllocError Unit × BitmapAllocator :=
  match a.pageAt addr with
  | .error e => (.error e, a)
  | .ok page =>
    let bitIdx := page.1 % 64
    if a.bitmap.words (a.wordOf page) &&& 1#64 <<< bitIdx = 0#64 then (.error .doubleFree, a)
    else (.ok (), { a with bitmap := a.bitmap.eraseAt (a.wordOf page) bitIdx })

/-- Reserve the page at an address. A page that is reserved already is reported as a double free
as well. -/
def markAllocated (addr : BitVec 64) : Except AllocError Unit × BitmapAllocator :=
  match a.pageAt addr with
  | .error e => (.error e, a)
  | .ok page =>
    let bitIdx := page.1 % 64
    if a.bitmap.words (a.wordOf page) &&& 1#64 <<< bitIdx ≠ 0#64 then (.error .doubleFree, a)
    else (.ok (), { a with bitmap := a.bitmap.insertAt (a.wordOf page) bitIdx })

/-- Whether the page at an address is allocated. -/
def isAllocated (addr : BitVec 64) : Bool :=
  if addr.toNat % pageSize ≠ 0 ∨ addr < a.baseAddr then false
  else
    let pageIdx := (addr - a.baseAddr).toNat / pageSize
    if h : a.totalPages ≤ pageIdx then false
    else
      a.bitmap.words (a.wordOf ⟨pageIdx, Nat.lt_of_not_le h⟩) &&& 1#64 <<< (pageIdx % 64) ≠ 0#64

/-- How many pages are allocated, counted word by word. -/
def allocatedCount : ℕ := (a.usedWords.map fun i => (a.bitmap.words i).cpop.toNat).sum

/-- How many pages are free, by subtraction. -/
def freeCount : ℕ := a.totalPages - a.allocatedCount

end BitmapAllocator

/-! ## A set of pages

What the bitmap is for. The set answers the same requests, and knows nothing of words and bits. -/

/-- What the allocator is asked, by its public functions. -/
inductive PageRequest where
  | alloc
  | free (addr : BitVec 64)
  | markAllocated (addr : BitVec 64)
  | isAllocated (addr : BitVec 64)
  | allocatedCount
  | freeCount

/-- What it replies: an address, that it is done, whether the page is allocated, a count. -/
inductive PageReply where
  | page (result : Except AllocError ℕ)
  | done (result : Except AllocError Unit)
  | answer (allocated : Bool)
  | count (n : ℕ)
  deriving DecidableEq

/-- A request that was refused, with whatever error. -/
def PageReply.Failed : PageReply → Prop
  | .page result => ∃ e, result = .error e
  | .done result => ∃ e, result = .error e
  | _ => False

namespace BitmapAllocator

/-- The allocator as a server: what it answers to a request, and what it is after that. -/
def request : Lib.Server BitmapAllocator PageRequest PageReply
  | a, .alloc => (.page (a.alloc.1.map BitVec.toNat), a.alloc.2)
  | a, .free addr => (.done (a.free addr).1, (a.free addr).2)
  | a, .markAllocated addr => (.done (a.markAllocated addr).1, (a.markAllocated addr).2)
  | a, .isAllocated addr => (.answer (a.isAllocated addr), a)
  | a, .allocatedCount => (.count a.allocatedCount, a)
  | a, .freeCount => (.count a.freeCount, a)

end BitmapAllocator

/-- Pages `0`, …, `n - 1`, of which page `i` is at address `base + i * pageSize`. -/
structure Pages where
  base : ℕ
  n : ℕ

namespace Pages

variable (r : Pages)

/-- The page at an address, by the arithmetic of the natural numbers. -/
def pageAt (addr : ℕ) : Except AllocError ℕ :=
  if ¬ pageSize ∣ addr then .error .notAligned
  else if ∃ i < r.n, addr = r.base + i * pageSize then .ok ((addr - r.base) / pageSize)
  else .error .invalidAddress

/-- Allocate the lowest free page, which is put into the set. -/
def alloc (S : Finset ℕ) : Except AllocError ℕ × Finset ℕ :=
  match (List.range r.n).find? (· ∉ S) with
  | none => (.error .outOfMemory, S)
  | some i => (.ok (r.base + i * pageSize), insert i S)

/-- Free the page at an address, which is taken out of the set. -/
def free (S : Finset ℕ) (addr : ℕ) : Except AllocError Unit × Finset ℕ :=
  match r.pageAt addr with
  | .error e => (.error e, S)
  | .ok i => if i ∈ S then (.ok (), S.erase i) else (.error .doubleFree, S)

/-- Allocate the page at an address, which is put into the set. -/
def markAllocated (S : Finset ℕ) (addr : ℕ) : Except AllocError Unit × Finset ℕ :=
  match r.pageAt addr with
  | .error e => (.error e, S)
  | .ok i => if i ∈ S then (.error .doubleFree, S) else (.ok (), insert i S)

/-- The set as a server, with the same requests and the same replies. -/
def request : Lib.Server (Finset ℕ) PageRequest PageReply
  | S, .alloc => (.page (r.alloc S).1, (r.alloc S).2)
  | S, .free addr => (.done (r.free S addr.toNat).1, (r.free S addr.toNat).2)
  | S, .markAllocated addr =>
    (.done (r.markAllocated S addr.toNat).1, (r.markAllocated S addr.toNat).2)
  | S, .isAllocated addr =>
    (.answer (decide (∃ i ∈ S, addr.toNat = r.base + i * pageSize)), S)
  | S, .allocatedCount => (.count S.card, S)
  | S, .freeCount => (.count (r.n - S.card), S)

end Pages

/-! ## One operation

The operations on the bitmap, page by page. A search looks for a word with a clear bit, and for
the lowest such bit in it. -/

namespace BitmapAllocator

variable (a : BitmapAllocator)

theorem allocIn_eq (l : List (Fin bitmapWords)) : a.allocIn l =
    match l.find? fun k => a.bitmap.words k ≠ BitVec.allOnes 64 with
    | none => (.error .outOfMemory, a)
    | some k =>
      if a.totalPages ≤ k * 64 + (~~~a.bitmap.words k).ctz.toNat then (.error .outOfMemory, a)
      else
        (.ok (a.baseAddr + BitVec.ofNat 64 ((k * 64 + (~~~a.bitmap.words k).ctz.toNat) * pageSize)),
          { a with bitmap := a.bitmap.insertAt k (~~~a.bitmap.words k).ctz.toNat }) := by
  induction l with
  | nil => rfl
  | cons k rest ih =>
    rw [allocIn]
    by_cases hfull : a.bitmap.words k = BitVec.allOnes 64
    · rw [if_pos hfull, ih, List.find?_cons_of_neg (by simpa using hfull)]
    · rw [if_neg hfull, List.find?_cons_of_pos (by simpa using hfull)]

/-- A word that is full holds only ones. -/
theorem get_of_full {k : Fin bitmapWords} (h : a.bitmap.words k = BitVec.allOnes 64) {i : ℕ}
    (hi : i / 64 = k) : a.bitmap.get i = true := by
  have hlt : i / 64 < bitmapWords := hi ▸ k.isLt
  have hfin : (⟨i / 64, hlt⟩ : Fin bitmapWords) = k := Fin.ext hi
  rw [Lib.Bitmap.get_of_lt _ hlt, hfin]
  exact Lib.Bitmap.getLsbD_of_eq_allOnes h (Nat.mod_lt i (by decide))

/-- **Allocation**: the lowest page whose bit is clear, if there is one. -/
theorem alloc_cases :
    (a.alloc = (.error .outOfMemory, a) ∧ ∀ i < a.totalPages, a.bitmap.get i = true) ∨
    ∃ i < a.totalPages, a.bitmap.get i = false ∧ (∀ j < i, a.bitmap.get j = true) ∧
      ∃ bitmap : Lib.Bitmap 64 bitmapWords,
        a.alloc = (.ok (a.baseAddr + BitVec.ofNat 64 (i * pageSize)), { a with bitmap := bitmap }) ∧
          ∀ j, bitmap.get j = if j = i then true else a.bitmap.get j := by
  have hused : a.wordsUsed ≤ bitmapWords := by
    have := a.room
    simp only [wordsUsed, bitmapWords, maxPages] at *
    omega
  rw [alloc, allocIn_eq]
  rcases hfind : a.usedWords.find? fun k => a.bitmap.words k ≠ BitVec.allOnes 64 with _ | k
  · -- every word in use is full
    refine .inl ⟨rfl, fun i hi => ?_⟩
    have hword : i / 64 < a.wordsUsed := by
      rw [wordsUsed]
      omega
    have hmem : (⟨i / 64, hword.trans_le hused⟩ : Fin bitmapWords) ∈ a.usedWords := by
      rw [usedWords, List.mem_take_iff_getElem]
      exact ⟨i / 64, by simpa using ⟨hword, hword.trans_le hused⟩, by simp⟩
    have hfull := List.find?_eq_none.mp hfind _ hmem
    exact a.get_of_full (by simpa using hfull) rfl
  · obtain ⟨hk, -, hbelow⟩ := Lib.Bitmap.find?_take_finRange hfind
    obtain ⟨hlt, hclear, hset⟩ := Lib.Bitmap.first_clear (of_decide_eq_true hk)
    have hlow : ∀ j < k * 64 + (~~~a.bitmap.words k).ctz.toNat, a.bitmap.get j = true := by
      intro j hj
      by_cases hjk : j / 64 < k
      · have hfull := hbelow ⟨j / 64, hjk.trans k.isLt⟩ hjk
        exact a.get_of_full (by simpa using hfull) rfl
      · have hjeq : j = k * 64 + j % 64 := by omega
        rw [hjeq, Lib.Bitmap.get_word _ _ (Nat.mod_lt j (by decide))]
        exact hset _ (by omega)
    simp only
    split
    · rename_i hpast
      exact .inl ⟨rfl, fun i hi => hlow i (hi.trans_le hpast)⟩
    · rename_i hin
      refine .inr ⟨_, Nat.lt_of_not_le hin, ?_, hlow, _, rfl, fun j => ?_⟩
      · rw [Lib.Bitmap.get_word _ _ hlt, hclear]
      · exact Lib.Bitmap.get_insertAt _ _ hlt j

/-- The bit of a page is what the source's mask picks out of its word. -/
theorem get_page (page : { i // i < a.totalPages }) :
    a.bitmap.words (a.wordOf page) &&& 1#64 <<< (page.1 % 64) = 0#64 ↔
      a.bitmap.get page = false := by
  rw [Lib.Bitmap.and_one_shiftLeft_eq_zero _ (Nat.mod_lt _ (by decide)),
    Lib.Bitmap.get_of_lt _ (a.wordOf page).isLt]
  rfl

/-- The number of a page, from its word and its bit. -/
theorem page_eq (page : { i // i < a.totalPages }) : a.wordOf page * 64 + page.1 % 64 = page :=
  Nat.div_add_mod' _ _

/-- The pages that it manages, as a range of addresses. -/
def managed : Pages := ⟨a.baseAddr.toNat, a.totalPages⟩

/-- An address at or above the base that is at a page boundary is that of a page. -/
theorem eq_page {addr : BitVec 64} (hpage : addr.toNat % pageSize = 0)
    (hle : ¬ addr < a.baseAddr) :
    addr.toNat = a.baseAddr.toNat + (addr - a.baseAddr).toNat / pageSize * pageSize := by
  have haligned := a.aligned
  have hle' : a.baseAddr ≤ addr := BitVec.not_lt.mp hle
  rw [BitVec.toNat_sub_of_le hle']
  rw [BitVec.le_def] at hle'
  simp only [pageSize] at *
  omega

/-- No other page is at the address of a page. -/
theorem page_unique {addr : BitVec 64} (hpage : addr.toNat % pageSize = 0)
    (hle : ¬ addr < a.baseAddr) {i : ℕ} (h : addr.toNat = a.baseAddr.toNat + i * pageSize) :
    i = (addr - a.baseAddr).toNat / pageSize := by
  have heq := a.eq_page hpage hle
  rw [h, Nat.add_left_cancel_iff] at heq
  exact Nat.eq_of_mul_eq_mul_right (by decide) heq

/-- A page is at a page boundary at or above the base. -/
theorem page_aligned {addr : BitVec 64} {i : ℕ}
    (h : addr.toNat = a.baseAddr.toNat + i * pageSize) :
    addr.toNat % pageSize = 0 ∧ ¬ addr < a.baseAddr := by
  have haligned := a.aligned
  rw [BitVec.lt_def]
  simp only [pageSize] at *
  omega

/-- **Addresses** are resolved alike by the words and by the numbers. -/
theorem pageAt_eq (addr : BitVec 64) :
    a.managed.pageAt addr.toNat = (a.pageAt addr).map Subtype.val := by
  rw [Pages.pageAt, pageAt]
  by_cases hpage : addr.toNat % pageSize = 0
  · rw [if_neg (not_not.mpr (Nat.dvd_of_mod_eq_zero hpage)), if_neg (not_not.mpr hpage)]
    by_cases hbelow : addr < a.baseAddr
    · have hnone : ¬ ∃ i < a.managed.n, addr.toNat = a.managed.base + i * pageSize :=
        fun ⟨i, _, hi⟩ => (a.page_aligned hi).2 hbelow
      rw [if_neg hnone, if_pos hbelow]
      rfl
    · rw [if_neg hbelow]
      have heq := a.eq_page hpage hbelow
      by_cases hpast : a.totalPages ≤ (addr - a.baseAddr).toNat / pageSize
      · have hnone : ¬ ∃ i < a.managed.n, addr.toNat = a.managed.base + i * pageSize := by
          rintro ⟨i, hlt, hi⟩
          rw [a.page_unique hpage hbelow hi] at hlt
          exact absurd hpast (Nat.not_le.mpr hlt)
        simp only
        rw [if_neg hnone, dif_pos hpast]
        rfl
      · have hsome : ∃ i < a.managed.n, addr.toNat = a.managed.base + i * pageSize :=
          ⟨_, Nat.lt_of_not_le hpast, heq⟩
        have hsub : addr.toNat - a.managed.base = (addr - a.baseAddr).toNat :=
          (BitVec.toNat_sub_of_le (BitVec.not_lt.mp hbelow)).symm
        simp only
        rw [if_pos hsome, dif_neg hpast, hsub]
        rfl
  · rw [if_pos fun h => hpage (Nat.mod_eq_zero_of_dvd h), if_pos hpage]
    rfl

/-! ## The set it holds

Which set a bitmap holds, and that requests keep the two together. -/

/-- The bitmap holds the set `S` of pages, and no bit past the last page is set. The second part
is what lets a full word be told from one that only looks full. -/
structure Represents (S : Finset ℕ) : Prop where
  mem : ∀ i, a.bitmap.get i = true ↔ i ∈ S
  lt : ∀ i ∈ S, i < a.totalPages

variable {a} {S : Finset ℕ}

theorem Represents.get_eq_false (h : a.Represents S) (i : ℕ) :
    a.bitmap.get i = false ↔ i ∉ S := by
  rw [← h.mem i, Bool.not_eq_true]

theorem Represents.allocatedCount (h : a.Represents S) : a.allocatedCount = S.card := by
  have hused : a.wordsUsed ≤ bitmapWords := by
    have := a.room
    simp only [wordsUsed, bitmapWords, maxPages] at *
    omega
  rw [BitmapAllocator.allocatedCount, usedWords, Lib.Bitmap.sum_cpop _ _ hused,
    Nat.count_eq_card_filter_range]
  congr 1
  ext i
  rw [Finset.mem_filter, Finset.mem_range, h.mem i, and_iff_right_iff_imp]
  intro hi
  have := h.lt i hi
  rw [wordsUsed]
  omega

theorem Represents.isAllocated (h : a.Represents S) (addr : BitVec 64) :
    a.isAllocated addr = decide (∃ i ∈ S, addr.toNat = a.managed.base + i * pageSize) := by
  rw [BitmapAllocator.isAllocated]
  by_cases hout : addr.toNat % pageSize ≠ 0 ∨ addr < a.baseAddr
  · have hnone : ¬ ∃ i ∈ S, addr.toNat = a.managed.base + i * pageSize := by
      rintro ⟨i, -, hi⟩
      obtain ⟨hpage, hle⟩ := a.page_aligned hi
      exact hout.elim (fun h => h hpage) hle
    rw [if_pos hout, decide_eq_false hnone]
  · rw [not_or, not_not] at hout
    obtain ⟨hpage, hle⟩ := hout
    have hmem : (∃ i ∈ S, addr.toNat = a.managed.base + i * pageSize) ↔
        (addr - a.baseAddr).toNat / pageSize ∈ S := by
      constructor
      · rintro ⟨i, hi, heq⟩
        rwa [← a.page_unique hpage hle heq]
      · exact fun hi => ⟨_, hi, a.eq_page hpage hle⟩
    rw [if_neg (not_or.mpr ⟨not_not.mpr hpage, hle⟩), decide_eq_decide.mpr hmem]
    simp only
    split
    · rename_i hpast
      exact (decide_eq_false fun hi => absurd (h.lt _ hi) (Nat.not_lt.mpr hpast)).symm
    · rename_i hin
      refine decide_eq_decide.mpr ?_
      rw [← h.mem, Ne, a.get_page ⟨_, Nat.lt_of_not_le hin⟩, Bool.not_eq_false]

/-- The set with one more page is represented by the bitmap with one more bit. -/
theorem Represents.insert (h : a.Represents S) {i : ℕ} (hi : i < a.totalPages)
    {bitmap : Lib.Bitmap 64 bitmapWords}
    (hget : ∀ j, bitmap.get j = if j = i then true else a.bitmap.get j) :
    ({ a with bitmap := bitmap } : BitmapAllocator).Represents (insert i S) := by
  refine ⟨fun j => ?_, fun j hj => ?_⟩
  · rw [Finset.mem_insert, ← h.mem j]
    change bitmap.get j = true ↔ _
    rw [hget]
    by_cases hj : j = i <;> simp [hj]
  · rcases Finset.mem_insert.mp hj with rfl | hj
    · exact hi
    · exact h.lt j hj

/-- The set with one page less is represented by the bitmap with one bit less. -/
theorem Represents.erase (h : a.Represents S) {i : ℕ} {bitmap : Lib.Bitmap 64 bitmapWords}
    (hget : ∀ j, bitmap.get j = if j = i then false else a.bitmap.get j) :
    ({ a with bitmap := bitmap } : BitmapAllocator).Represents (S.erase i) := by
  refine ⟨fun j => ?_, fun j hj => h.lt j (Finset.mem_of_mem_erase hj)⟩
  rw [Finset.mem_erase, ← h.mem j]
  change bitmap.get j = true ↔ _
  rw [hget]
  by_cases hj : j = i <;> simp [hj]

theorem Represents.alloc (h : a.Represents S)
    (hfit : a.baseAddr.toNat + a.totalPages * pageSize ≤ 2 ^ 64) :
    a.alloc.1.map BitVec.toNat = (a.managed.alloc S).1 ∧
      a.alloc.2.Represents (a.managed.alloc S).2 := by
  rw [Pages.alloc]
  rcases a.alloc_cases with ⟨hout, hfull⟩ | ⟨i, hi, hclear, hset, bitmap, halloc, hget⟩
  · have hnone : (List.range a.managed.n).find? (· ∉ S) = none := by
      refine List.find?_eq_none.mpr fun i hi => ?_
      have hmem := (h.mem i).mp (hfull i (List.mem_range.mp hi))
      simpa using hmem
    rw [hout, hnone]
    exact ⟨rfl, h⟩
  · have hsome : (List.range a.managed.n).find? (· ∉ S) = some i := by
      refine List.find?_range_eq_some.mpr ⟨?_, List.mem_range.mpr hi, fun j hj => ?_⟩
      · simpa using (h.get_eq_false i).mp hclear
      · simpa using (h.mem j).mp (hset j hj)
    -- the address does not wrap
    have haddr : (a.baseAddr + BitVec.ofNat 64 (i * pageSize)).toNat =
        a.managed.base + i * pageSize := by
      have hle : i * pageSize + pageSize ≤ a.totalPages * pageSize := by
        rw [← Nat.succ_mul]
        exact Nat.mul_le_mul_right _ hi
      rw [BitVec.toNat_add, BitVec.toNat_ofNat]
      simp only [managed, pageSize] at *
      omega
    rw [halloc, hsome]
    exact ⟨congrArg Except.ok haddr, h.insert hi hget⟩

theorem Represents.free (h : a.Represents S) (addr : BitVec 64) :
    (a.free addr).1 = (a.managed.free S addr.toNat).1 ∧
      (a.free addr).2.Represents (a.managed.free S addr.toNat).2 := by
  rw [BitmapAllocator.free, Pages.free, pageAt_eq]
  rcases a.pageAt addr with e | page
  · exact ⟨rfl, h⟩
  · simp only [Except.map, a.get_page, h.get_eq_false]
    by_cases hmem : page.1 ∈ S
    · rw [if_neg (not_not.mpr hmem), if_pos hmem]
      refine ⟨rfl, h.erase fun j => ?_⟩
      rw [Lib.Bitmap.get_eraseAt _ _ (Nat.mod_lt _ (by decide)), a.page_eq]
    · rw [if_pos hmem, if_neg hmem]
      exact ⟨rfl, h⟩

theorem Represents.markAllocated (h : a.Represents S) (addr : BitVec 64) :
    (a.markAllocated addr).1 = (a.managed.markAllocated S addr.toNat).1 ∧
      (a.markAllocated addr).2.Represents (a.managed.markAllocated S addr.toNat).2 := by
  rw [BitmapAllocator.markAllocated, Pages.markAllocated, pageAt_eq]
  rcases a.pageAt addr with e | page
  · exact ⟨rfl, h⟩
  · simp only [Except.map, Ne, a.get_page, h.get_eq_false, not_not]
    by_cases hmem : page.1 ∈ S
    · rw [if_pos hmem, if_pos hmem]
      exact ⟨rfl, h⟩
    · rw [if_neg hmem, if_neg hmem]
      refine ⟨rfl, h.insert page.2 fun j => ?_⟩
      rw [Lib.Bitmap.get_insertAt _ _ (Nat.mod_lt _ (by decide)), a.page_eq]

/-- No operation changes what is managed, nor how many pages there are. -/
theorem managed_request (a : BitmapAllocator) (q : PageRequest) :
    (a.request q).2.managed = a.managed := by
  cases q with
  | alloc =>
    rcases a.alloc_cases with ⟨h, -⟩ | ⟨i, -, -, -, bitmap, h, -⟩
    · rw [request, h]
    · rw [request, h]
      rfl
  | free addr =>
    simp only [request, BitmapAllocator.free]
    split
    · rfl
    · split <;> rfl
  | markAllocated addr =>
    simp only [request, BitmapAllocator.markAllocated]
    split
    · rfl
    · split <;> rfl
  | isAllocated addr => rfl
  | allocatedCount => rfl
  | freeCount => rfl

/-- **A request that fails changes nothing**, whichever request it is. -/
theorem request_failed (a : BitmapAllocator) (q : PageRequest) (h : (a.request q).1.Failed) :
    (a.request q).2 = a := by
  cases q with
  | alloc =>
    rcases a.alloc_cases with ⟨hout, -⟩ | ⟨i, -, -, -, bitmap, halloc, -⟩
    · rw [request, hout]
    · rw [request, halloc] at h
      obtain ⟨e, he⟩ := h
      cases he
  | free addr =>
    obtain ⟨e, he⟩ := h
    simp only [request, BitmapAllocator.free] at he ⊢
    split at he
    · rfl
    · split at he
      · rw [if_pos ‹_›]
      · cases he
  | markAllocated addr =>
    obtain ⟨e, he⟩ := h
    simp only [request, BitmapAllocator.markAllocated] at he ⊢
    split at he
    · rfl
    · split at he
      · rw [if_pos ‹_›]
      · cases he
  | isAllocated addr => exact h.elim
  | allocatedCount => exact h.elim
  | freeCount => exact h.elim

/-- **Every request** is answered as the set answers it, and leaves a bitmap for the set that is
left. -/
theorem Represents.request (h : a.Represents S)
    (hfit : a.baseAddr.toNat + a.totalPages * pageSize ≤ 2 ^ 64) (q : PageRequest) :
    (a.request q).1 = (a.managed.request S q).1 ∧
      (a.request q).2.Represents (a.managed.request S q).2 := by
  cases q with
  | alloc =>
    obtain ⟨hreply, hrep⟩ := h.alloc hfit
    exact ⟨congrArg PageReply.page hreply, hrep⟩
  | free addr =>
    obtain ⟨hreply, hrep⟩ := h.free addr
    exact ⟨congrArg PageReply.done hreply, hrep⟩
  | markAllocated addr =>
    obtain ⟨hreply, hrep⟩ := h.markAllocated addr
    exact ⟨congrArg PageReply.done hreply, hrep⟩
  | isAllocated addr => exact ⟨congrArg PageReply.answer (h.isAllocated addr), h⟩
  | allocatedCount => exact ⟨congrArg PageReply.count h.allocatedCount, h⟩
  | freeCount =>
    refine ⟨congrArg PageReply.count ?_, h⟩
    rw [freeCount, h.allocatedCount]
    rfl

theorem new_represents {base : BitVec 64} {n : ℕ} (h : new base n = some a) :
    a.Represents ∅ ∧ a.managed = ⟨base.toNat, n⟩ := by
  rw [new] at h
  split at h
  · obtain rfl := Option.some.inj h
    refine ⟨⟨fun i => ?_, fun i hi => absurd hi (Finset.notMem_empty i)⟩, rfl⟩
    change Lib.Bitmap.empty.get i = true ↔ _
    simp
  · cases h

end BitmapAllocator

/-- What the allocator promises of a sequence of requests, once it is set up. -/
def PagesRefined (base : BitVec 64) (n : ℕ) : Prop :=
  ∃ a₀, BitmapAllocator.new base n = some a₀ ∧ ∀ requests,
    let a := (BitmapAllocator.request.serve a₀ requests).2
    let S := ((Pages.mk base.toNat n).request.serve ∅ requests).2
    (BitmapAllocator.request.serve a₀ requests).1 =
        ((Pages.mk base.toNat n).request.serve ∅ requests).1 ∧
      (∀ i, a.bitmap.get i = true ↔ i ∈ S) ∧ (∀ i, n ≤ i → a.bitmap.get i = false) ∧
      ∀ q, (a.request q).1.Failed → (a.request q).2 = a

/-- **The allocator is a set of pages**, as long as they are in the address space. -/
theorem pageAlloc_refines (base : BitVec 64) (n : ℕ) (haligned : base.toNat % pageSize = 0)
    (hpages : 0 < n) (hroom : n ≤ maxPages) (hfit : base.toNat + n * pageSize ≤ 2 ^ 64) :
    PagesRefined base n := by
  obtain ⟨a₀, hnew⟩ : ∃ a₀, BitmapAllocator.new base n = some a₀ :=
    ⟨_, dif_pos ⟨haligned, hpages, hroom⟩⟩
  obtain ⟨hrep₀, hmanaged₀⟩ := BitmapAllocator.new_represents hnew
  refine ⟨a₀, hnew, fun requests => ?_⟩
  obtain ⟨hreplies, hrep, hmanaged⟩ := Lib.Server.serve_refines BitmapAllocator.request
    (Pages.mk base.toNat n).request
    (R := fun a S => a.Represents S ∧ a.managed = ⟨base.toNat, n⟩) (fun a S q ⟨h, hm⟩ => by
      have hfit' : a.managed.base + a.managed.n * pageSize ≤ 2 ^ 64 := by
        rw [hm]
        exact hfit
      obtain ⟨hreply, hnext⟩ := h.request hfit' q
      rw [hm] at hreply hnext
      exact ⟨hreply, hnext, (a.managed_request q).trans hm⟩) ⟨hrep₀, hmanaged₀⟩ requests
  refine ⟨hreplies, hrep.mem, fun i hi => (hrep.get_eq_false i).mpr fun hmem => ?_,
    fun q => BitmapAllocator.request_failed _ q⟩
  have hlt : i < (BitmapAllocator.request.serve a₀ requests).2.managed.n := hrep.lt i hmem
  rw [hmanaged] at hlt
  exact absurd hi (Nat.not_le.mpr hlt)

/-- The pages of a board with 128 MiB of memory. -/
theorem pageAlloc_refines_ram : PagesRefined 0x80000000#64 32768 :=
  pageAlloc_refines 0x80000000#64 32768 (by decide) (by decide) (by decide) (by decide)

/-- **An address wraps** where the pages run past the end of the address space: the second
page is handed out at address zero. -/
theorem wrapped_page : ¬ ∀ (base : BitVec 64) (n : ℕ), base.toNat % pageSize = 0 → 0 < n →
    n ≤ maxPages → PagesRefined base n := by
  intro hall
  obtain ⟨a₀, hnew, hrefined⟩ := hall 0xFFFFFFFFFFFFF000#64 2 (by decide) (by decide) (by decide)
  obtain ⟨hreplies, -⟩ := hrefined [.alloc, .alloc]
  rw [BitmapAllocator.new, dif_pos (by decide)] at hnew
  rw [← Option.some.inj hnew] at hreplies
  exact absurd hreplies (by decide +kernel)

end Wari
