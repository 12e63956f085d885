import Wari.Lib.Rounding
import Wari.Lib.Server

/-!
# The kernel heap

The allocator behind the kernel's heap: a cursor into an arena that only moves up. A request
takes the first place at or above the cursor with its alignment, if the arena has room for it
there; nothing is ever given back.
-/

namespace Wari.BumpAllocator

/-- What is asked for. The alignment is a power of two, and the size, rounded up to it, no more
than `isize::MAX`. -/
structure Layout where
  size : BitVec 64
  align : BitVec 64
  /-- the logarithm of the alignment -/
  log : ℕ
  align_eq : align.toNat = 2 ^ log
  size_le : size.toNat + align.toNat ≤ 2 ^ 63

/-- The two words behind the allocator, which only ever moves its cursor up. -/
structure Heap where
  /-- next free byte in the arena -/
  cursor : BitVec 64
  /-- exclusive upper bound of the arena -/
  finish : BitVec 64
  deriving DecidableEq, Repr

/-- An arena that nothing has been taken from. -/
def init (start finish : BitVec 64) : Heap := ⟨start, finish⟩

/-- `ptr::null_mut()`, which stands for a refused request. -/
def null : BitVec 64 := 0#64

/-- Take a block: its address, or `null` where the sum overflows or the arena is used up. -/
def alloc : Lib.Server Heap Layout (BitVec 64) := fun heap layout =>
  let aligned := (heap.cursor + layout.align - 1#64) &&& ~~~(layout.align - 1#64)
  if aligned.toNat + layout.size.toNat < 2 ^ 64 then
    let newCursor := aligned + layout.size
    if newCursor > heap.finish then (null, heap)
    else (aligned, { heap with cursor := newCursor })
  else (null, heap)

/-! ## One request

The source computes in words and checks for overflow. Below `2 ^ 56` no sum overflows, so the
check decides only whether there is room. -/

/-- A request, what it was answered, and the heap before and after it. -/
structure Call where
  layout : Layout
  ptr : BitVec 64
  before : Heap
  after : Heap

namespace Call

/-- There is a place for the block in what is left of the arena. -/
def Fits (c : Call) : Prop :=
  ∃ addr, c.before.cursor.toNat ≤ addr ∧ c.layout.align.toNat ∣ addr ∧
    addr + c.layout.size.toNat ≤ c.before.finish.toNat

/-- Where the block of a call ends, exclusively. -/
def stop (c : Call) : ℕ := c.ptr.toNat + c.layout.size.toNat

/-- The block is aligned, and lies in what was left of the arena; the cursor goes behind it. -/
structure Met (c : Call) : Prop where
  aligned : c.layout.align.toNat ∣ c.ptr.toNat
  cursor_le : c.before.cursor.toNat ≤ c.ptr.toNat
  stop_le : c.stop ≤ c.before.finish.toNat
  after : c.after = { c.before with cursor := BitVec.ofNat 64 c.stop }

/-- The call is answered by `null`, and the heap is as it was. -/
structure Refused (c : Call) : Prop where
  null : c.ptr = null
  after : c.after = c.before

end Call

/-- The allocator answers a request, with the heap before it and after it. -/
def Heap.call (heap : Heap) (layout : Layout) : Call :=
  ⟨layout, (alloc heap layout).1, heap, (alloc heap layout).2⟩

/-- The allocator answers one request after another. -/
def Heap.calls (heap : Heap) : List Layout → List Call
  | [] => []
  | layout :: layouts => heap.call layout :: (heap.call layout).after.calls layouts

section Call

variable {heap : Heap} (layout : Layout)

/-- Where a block of the layout would be put. -/
def Heap.place (heap : Heap) (layout : Layout) : ℕ :=
  Lib.roundUp layout.align.toNat heap.cursor.toNat

theorem Layout.align_pos : 0 < layout.align.toNat := by
  rw [layout.align_eq]
  exact Nat.two_pow_pos _

/-- A cursor below `2 ^ 56` and an alignment of at most `2 ^ 63` have their sum in a word, and
then there is room for the size. -/
theorem Heap.place_add_lt (h : heap.cursor.toNat < 2 ^ 56) :
    heap.place layout + layout.size.toNat < 2 ^ 64 := by
  have hsize := layout.size_le
  have hpos := layout.align_pos
  have hplace := Lib.roundUp_le_add layout.align.toNat heap.cursor.toNat
  rw [place]
  omega

/-- The words compute the place, as long as the cursor is small enough that rounding up does not
overflow. -/
theorem Heap.toNat_aligned (h : heap.cursor.toNat < 2 ^ 56) :
    ((heap.cursor + layout.align - 1#64) &&& ~~~(layout.align - 1#64)).toNat =
      heap.place layout := by
  have hsize := layout.size_le
  rw [place, layout.align_eq]
  exact Lib.toNat_roundUp layout.align_eq (by omega)

/-- **What a request does**, in numbers instead of words, so that the rest is arithmetic of
natural numbers. -/
theorem alloc_eq (h : heap.cursor.toNat < 2 ^ 56) :
    alloc heap layout =
      if heap.place layout + layout.size.toNat ≤ heap.finish.toNat then
        (BitVec.ofNat 64 (heap.place layout),
          { heap with cursor := BitVec.ofNat 64 (heap.place layout + layout.size.toNat) })
      else (null, heap) := by
  have haligned := heap.toNat_aligned layout h
  have hsum := heap.place_add_lt layout h
  rw [← haligned] at hsum
  rw [alloc, if_pos hsum, ← haligned, BitVec.ofNat_toNat, BitVec.setWidth_eq, BitVec.ofNat_add,
    BitVec.ofNat_toNat, BitVec.ofNat_toNat, BitVec.setWidth_eq, BitVec.setWidth_eq]
  by_cases hfits : ((heap.cursor + layout.align - 1#64) &&& ~~~(layout.align - 1#64)).toNat +
      layout.size.toNat ≤ heap.finish.toNat
  · rw [if_pos hfits, if_neg]
    rw [gt_iff_lt, BitVec.lt_def, BitVec.toNat_add_of_lt hsum]
    omega
  · rw [if_neg hfits, if_pos]
    rw [gt_iff_lt, BitVec.lt_def, BitVec.toNat_add_of_lt hsum]
    omega

/-- There is a place exactly where the first one leaves room. -/
theorem fits_iff : (heap.call layout).Fits ↔
    heap.place layout + layout.size.toNat ≤ heap.finish.toNat := by
  constructor
  · rintro ⟨addr, hcursor, hdvd, hroom⟩
    have hleast : heap.place layout ≤ addr := Lib.roundUp_le layout.align_pos hcursor hdvd
    change addr + layout.size.toNat ≤ heap.finish.toNat at hroom
    omega
  · intro hroom
    exact ⟨heap.place layout, Lib.le_roundUp layout.align_pos _, Lib.dvd_roundUp _ _, hroom⟩

/-- **One request**: the block is put at the first place there is, or there is none. -/
theorem call_cases (h : heap.cursor.toNat < 2 ^ 56) :
    (heap.call layout).Fits ∧ (heap.call layout).Met ∨
      ¬ (heap.call layout).Fits ∧ (heap.call layout).Refused := by
  have hsum := heap.place_add_lt layout h
  rw [fits_iff]
  by_cases hfits : heap.place layout + layout.size.toNat ≤ heap.finish.toNat
  · have halloc := alloc_eq layout h
    rw [if_pos hfits] at halloc
    have hptr : (heap.call layout).ptr.toNat = heap.place layout := by
      change (alloc heap layout).1.toNat = _
      rw [halloc, BitVec.toNat_ofNat]
      exact Nat.mod_eq_of_lt (by omega)
    refine .inl ⟨hfits, ?_, ?_, ?_, ?_⟩
    · rw [hptr]
      exact Lib.dvd_roundUp _ _
    · rw [hptr]
      exact Lib.le_roundUp layout.align_pos _
    · rw [Call.stop, hptr]
      exact hfits
    · rw [Call.stop, hptr]
      change (alloc heap layout).2 = _
      rw [halloc]
      rfl
  · have halloc := alloc_eq layout h
    rw [if_neg hfits] at halloc
    exact .inr ⟨hfits, congrArg Prod.fst halloc, congrArg Prod.snd halloc⟩

end Call

/-! ## All of them

The cursor never goes back, so blocks lie one behind the other, in the order they were asked for.
-/

/-- The cursor is in the arena. With the order of the requests this is all that keeps two blocks
apart. -/
structure Within (start finish : BitVec 64) (heap : Heap) : Prop where
  start_le : start.toNat ≤ heap.cursor.toNat
  cursor_le : heap.cursor.toNat ≤ finish.toNat
  finish : heap.finish = finish

section Calls

variable {start finish : BitVec 64} {heap : Heap}

theorem Within.init (hle : start.toNat ≤ finish.toNat) : Within start finish (init start finish) :=
  ⟨Nat.le_refl _, hle, rfl⟩

/-- Where a block that was put ends, the cursor is. -/
theorem Call.Met.toNat_cursor {c : Call} (h : c.Met) : c.after.cursor.toNat = c.stop := by
  have hstop := h.stop_le
  have hfinish := c.before.finish.isLt
  rw [h.after, BitVec.toNat_ofNat]
  exact Nat.mod_eq_of_lt (by omega)

/-- **What a request keeps.** The cursor does not go back, and it stays in the arena. -/
theorem Within.call (h : Within start finish heap) (hend : finish.toNat < 2 ^ 56)
    (layout : Layout) :
    Within start finish (heap.call layout).after ∧
      heap.cursor.toNat ≤ (heap.call layout).after.cursor.toNat := by
  have hcursor := h.cursor_le
  have hstart := h.start_le
  rcases call_cases layout (Nat.lt_of_le_of_lt hcursor hend) with ⟨-, hmet⟩ | ⟨-, hrefused⟩
  · have hptr : heap.cursor.toNat ≤ (heap.call layout).stop :=
      hmet.cursor_le.trans (Nat.le_add_right _ _)
    have hstop : (heap.call layout).stop ≤ finish.toNat := by
      have := hmet.stop_le
      rwa [← h.finish]
    refine ⟨⟨?_, ?_, ?_⟩, ?_⟩
    · rw [hmet.toNat_cursor]
      exact hstart.trans hptr
    · rw [hmet.toNat_cursor]
      exact hstop
    · rw [hmet.after]
      exact h.finish
    · rw [hmet.toNat_cursor]
      exact hptr
  · rw [hrefused.after]
    exact ⟨h, Nat.le_refl _⟩

/-- No later request is answered below the cursor. -/
theorem Within.cursor_le_before (h : Within start finish heap) (hend : finish.toNat < 2 ^ 56)
    {layouts : List Layout} {c : Call} (hc : c ∈ heap.calls layouts) :
    heap.cursor.toNat ≤ c.before.cursor.toNat := by
  induction layouts generalizing heap with
  | nil => cases hc
  | cons layout layouts ih =>
    obtain ⟨hafter, hmono⟩ := h.call hend layout
    rcases List.mem_cons.mp hc with rfl | hc
    · exact Nat.le_refl _
    · exact hmono.trans (ih hafter hc)

/-- What holds of a request made along the way. -/
structure Call.Sound (start finish : BitVec 64) (c : Call) : Prop where
  before : Within start finish c.before
  after : Within start finish c.after
  mono : c.before.cursor.toNat ≤ c.after.cursor.toNat
  cases : c.Fits ∧ c.Met ∨ ¬ c.Fits ∧ c.Refused

theorem Within.calls (h : Within start finish heap) (hend : finish.toNat < 2 ^ 56)
    (layouts : List Layout) : ∀ c ∈ heap.calls layouts, c.Sound start finish := by
  induction layouts generalizing heap with
  | nil => simp [Heap.calls]
  | cons layout layouts ih =>
    obtain ⟨hafter, hmono⟩ := h.call hend layout
    rw [Heap.calls, List.forall_mem_cons]
    exact ⟨⟨h, hafter, hmono, call_cases layout (Nat.lt_of_le_of_lt h.cursor_le hend)⟩, ih hafter⟩

/-- **The blocks lie one behind the other**: each begins where the cursor was left by the one
before it, or later. -/
theorem Within.pairwise (h : Within start finish heap) (hend : finish.toNat < 2 ^ 56)
    (layouts : List Layout) :
    (heap.calls layouts).Pairwise fun c d => c.Fits → d.Fits → c.stop ≤ d.ptr.toNat := by
  induction layouts generalizing heap with
  | nil => exact .nil
  | cons layout layouts ih =>
    obtain ⟨hafter, -⟩ := h.call hend layout
    refine .cons (fun d hd hfits hdfits => ?_) (ih hafter)
    have hcursor := hafter.cursor_le_before hend hd
    rcases call_cases layout (Nat.lt_of_le_of_lt h.cursor_le hend) with ⟨-, hmet⟩ | ⟨hno, -⟩
    · rw [hmet.toNat_cursor] at hcursor
      rcases (hafter.calls hend layouts d hd).cases with ⟨-, hdmet⟩ | ⟨hno, -⟩
      · exact hcursor.trans hdmet.cursor_le
      · exact absurd hdfits hno
    · exact absurd hfits hno

/-- **The kernel heap.** Each request gets an aligned block of what is left of the arena, or,
where there is no place for one, `null` and nothing changes; the cursor goes up within the arena,
and no two blocks meet. In particular a small request can still be met after a large one was
refused. -/
theorem heap_sound (hle : start.toNat ≤ finish.toNat) (hend : finish.toNat < 2 ^ 56)
    (layouts : List Layout) :
    (∀ c ∈ (init start finish).calls layouts, c.Sound start finish ∧
      (0 < start.toNat → (c.ptr = null ↔ ¬ c.Fits))) ∧
    ((init start finish).calls layouts).Pairwise
      fun c d => c.Fits → d.Fits → c.stop ≤ d.ptr.toNat := by
  have hinit : Within start finish (init start finish) := .init hle
  refine ⟨fun c hc => ?_, hinit.pairwise hend layouts⟩
  have hsound := hinit.calls hend layouts c hc
  refine ⟨hsound, fun hpos => ?_⟩
  rcases hsound.cases with ⟨hfits, hmet⟩ | ⟨hno, hrefused⟩
  · refine iff_of_false (fun hnull => ?_) (not_not.mpr hfits)
    have hptr := hsound.before.start_le.trans hmet.cursor_le
    rw [hnull, null] at hptr
    exact absurd hptr (Nat.not_le.mpr hpos)
  · exact iff_of_true hrefused.null hno

/-- Twenty-four bytes at a multiple of eight, a page, and more than there is. -/
def requests : List Layout :=
  [⟨24#64, 8#64, 3, by decide, by decide⟩, ⟨4096#64, 4096#64, 12, by decide, by decide⟩,
    ⟨65536#64, 1#64, 0, by decide, by decide⟩]

theorem heap_sound_requests :
    (∀ c ∈ (init 0x80401004#64 0x80404000#64).calls requests,
      c.Sound 0x80401004#64 0x80404000#64 ∧
      (0 < (0x80401004#64).toNat → (c.ptr = null ↔ ¬ c.Fits))) ∧
    ((init 0x80401004#64 0x80404000#64).calls requests).Pairwise
      fun c d => c.Fits → d.Fits → c.stop ≤ d.ptr.toNat :=
  heap_sound (by decide) (by decide) requests

end Calls

end Wari.BumpAllocator
