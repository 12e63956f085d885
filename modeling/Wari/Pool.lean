import Wari.Types
import Mathlib.Logic.Function.Basic
import Mathlib.Data.List.FinRange
import Mathlib.Data.Nat.ModEq

/-!
# Fixed-capacity slab pool and bounded queue

The two allocation-free containers behind the kernel objects: `Pool`, a slab
whose indices are stable, and `BoundedQueue`, a circular FIFO. A queue carries
the invariant of its indices, so that a queue with a stray head cannot be built;
what it holds is `BoundedQueue.toList`, oldest first, and `push` and `pop` are
characterised on that list.
-/

namespace Wari

/-! ## Pool

A slab: an index stays with its value until it is deallocated, and the lowest free one is used
next. -/

/-- A slab pool of fixed capacity, whose entries are found by their index. -/
structure Pool (α : Type) (N : ℕ) where
  /-- the slots, `none` where free -/
  slots : Fin N → Option α

namespace Pool

variable {α : Type} {N : ℕ}

/-- Every slot empty. -/
def new : Pool α N := ⟨fun _ => none⟩

/-- Insert a value into the first available slot, returning the slot index. -/
def alloc (pool : Pool α N) (value : α) : Except KernelError (ℕ × Pool α N) :=
  match (List.finRange N).find? fun i => (pool.slots i).isNone with
  | some i => .ok (i, ⟨Function.update pool.slots i (some value)⟩)
  | none => .error .outOfHandles

/-- Read access to a pool slot; `none` where the slot is free, or the index is past the end. -/
def get (pool : Pool α N) (index : ℕ) : Option α :=
  if h : index < N then pool.slots ⟨index, h⟩ else none

/-- `if let Some(obj) = pool.get_mut(index) { *obj = f(obj) }`. -/
def modify (pool : Pool α N) (index : ℕ) (f : α → α) : Pool α N :=
  if h : index < N then
    ⟨Function.update pool.slots ⟨index, h⟩ ((pool.slots ⟨index, h⟩).map f)⟩
  else pool

/-- Remove and return the value at `index`, with the pool it leaves. -/
def dealloc (pool : Pool α N) (index : ℕ) : Except KernelError α × Pool α N :=
  if h : index < N then
    match pool.slots ⟨index, h⟩ with
    | some value => (.ok value, ⟨Function.update pool.slots ⟨index, h⟩ none⟩)
    | none => (.error .invalidArgument, pool)
  else (.error .invalidArgument, pool)

@[simp] theorem get_new (index : ℕ) : (new : Pool α N).get index = none := by
  rw [get]
  split <;> rfl

theorem get_of_le {pool : Pool α N} {index : ℕ} (h : N ≤ index) : pool.get index = none :=
  dif_neg (by omega)

/-- Only an index below the capacity is allocated. -/
theorem lt_of_get {pool : Pool α N} {index : ℕ} {a : α} (h : pool.get index = some a) :
    index < N := by
  by_contra hge
  rw [get_of_le (by omega)] at h
  cases h

theorem get_modify (pool : Pool α N) (index : ℕ) (f : α → α) (j : ℕ) :
    (pool.modify index f).get j = if j = index then (pool.get index).map f else pool.get j := by
  simp only [modify, get]
  by_cases hi : index < N
  · by_cases hj : j = index
    · subst hj
      simp [hi]
    · by_cases hjN : j < N
      · simp [hi, hjN, hj, Function.update_of_ne]
      · simp [hjN, hj]
  · by_cases hj : j = index
    · subst hj
      simp [hi]
    · simp [hi, hj]

/-- Writing back what is there changes nothing. -/
theorem modify_eq_self {pool : Pool α N} {index : ℕ} {f : α → α}
    (h : ∀ a, pool.get index = some a → f a = a) : pool.modify index f = pool := by
  by_cases hi : index < N
  · have hslot : (pool.slots ⟨index, hi⟩).map f = pool.slots ⟨index, hi⟩ := by
      rcases hv : pool.slots ⟨index, hi⟩ with _ | a
      · rfl
      · exact congrArg some (h a (by rw [get, dif_pos hi, hv]))
    rw [modify, dif_pos hi, hslot, Function.update_eq_self]
  · rw [modify, dif_neg hi]

theorem get_dealloc (pool : Pool α N) (index j : ℕ) :
    (pool.dealloc index).2.get j = if j = index then none else pool.get j := by
  simp only [dealloc, get]
  by_cases hi : index < N
  · rw [dif_pos hi]
    by_cases hj : j = index
    · subst hj
      rcases hv : pool.slots ⟨j, hi⟩ with _ | v <;> simp [hi, hv]
    · rcases hv : pool.slots ⟨index, hi⟩ with _ | v
      · simp [hj]
      · by_cases hjN : j < N
        · simp [hjN, hj, Function.update_of_ne]
        · simp [hjN, hj]
  · rw [dif_neg hi]
    by_cases hj : j = index
    · subst hj
      simp [hi]
    · simp [hj]

/-- **What allocation does**: the index was free, and is the only one that
changes. -/
theorem alloc_ok {pool pool' : Pool α N} {value : α} {i : ℕ}
    (h : pool.alloc value = .ok (i, pool')) :
    i < N ∧ pool.get i = none ∧ ∀ j, pool'.get j = if j = i then some value else pool.get j := by
  rw [alloc] at h
  split at h
  · rename_i k hk
    obtain ⟨rfl, rfl⟩ : k.val = i ∧ _ = pool' := by
      have := Except.ok.inj h
      exact ⟨congrArg Prod.fst this, congrArg Prod.snd this⟩
    have hfree : pool.slots k = none := by
      simpa using List.find?_some hk
    refine ⟨k.isLt, by simp [get, hfree], fun j => ?_⟩
    by_cases hj : j = k.val
    · subst hj
      simp [get]
    · simp only [get]
      by_cases hjN : j < N
      · have hne : (⟨j, hjN⟩ : Fin N) ≠ k := fun e => hj (congrArg Fin.val e)
        simp [hjN, hj, Function.update_of_ne hne]
      · simp [hjN, hj]
  · cases h

/-- A pool with a free index can allocate. -/
theorem alloc_isSome {pool : Pool α N} {i : ℕ} (hi : i < N) (h : pool.get i = none) (value : α) :
    ∃ j pool', pool.alloc value = .ok (j, pool') := by
  rw [alloc]
  rcases hfind : (List.finRange N).find? fun i => (pool.slots i).isNone with _ | k
  · have hsome := List.find?_eq_none.mp hfind ⟨i, hi⟩ (List.mem_finRange _)
    rw [get, dif_pos hi] at h
    rw [h] at hsome
    exact absurd rfl hsome
  · exact ⟨_, _, rfl⟩

end Pool

/-! ## BoundedQueue

A ring of cells with a head and a length. The cells in the window behind the head are filled, all
others empty; the type says so. -/

/-- The index `i` places after `h` on a ring of `N`. -/
def ring {N : ℕ} (hN : 0 < N) (h i : ℕ) : Fin N := ⟨(h + i) % N, Nat.mod_lt _ hN⟩

/-- Two offsets below the capacity that land on one index are one offset. -/
theorem ring_inj {N : ℕ} (hN : 0 < N) {h i j : ℕ} (hi : i < N) (hj : j < N)
    (he : ring hN h i = ring hN h j) : i = j := by
  have hmod : i ≡ j [MOD N] := Nat.ModEq.add_left_cancel' h (congrArg Fin.val he)
  rwa [Nat.ModEq, Nat.mod_eq_of_lt hi, Nat.mod_eq_of_lt hj] at hmod

/-- Stepping the start of a ring by one is stepping the offset by one. -/
theorem ring_next {N : ℕ} (hN : 0 < N) (h i : ℕ) :
    ring hN ((h + 1) % N) i = ring hN h (i + 1) := by
  apply Fin.ext
  change ((h + 1) % N + i) % N = (h + (i + 1)) % N
  rw [Nat.mod_add_mod, Nat.add_assoc, Nat.add_comm 1 i]

theorem ring_zero {N : ℕ} (hN : 0 < N) {h : ℕ} (hh : h < N) : ring hN h 0 = ⟨h, hh⟩ :=
  Fin.ext (by simp [ring, Nat.mod_eq_of_lt hh])

/-- One lap on is the cell that one started at. -/
theorem ring_lap {N : ℕ} (hN : 0 < N) {h : ℕ} (hh : h < N) : ring hN h N = ⟨h, hh⟩ :=
  Fin.ext (by simp [ring, Nat.mod_eq_of_lt hh])

/-- Fixed-size FIFO. The source keeps `head`, `tail` and `len` in `u16`; the
bounds below make its casts lossless at every capacity up to `u16::MAX`. -/
structure BoundedQueue (α : Type) (N : ℕ) where
  /-- the buffer -/
  items : Fin N → Option α
  /-- index of the oldest item -/
  head : ℕ
  /-- index the next item goes to -/
  tail : ℕ
  /-- number of items -/
  len : ℕ
  len_le : len ≤ N
  head_lt : 0 < N → head < N
  tail_eq : 0 < N → tail = (head + len) % N
  filled : ∀ (hN : 0 < N) (i : ℕ), i < N → (items (ring hN head i)).isSome = decide (i < len)

namespace BoundedQueue

variable {α : Type} {N : ℕ}

/-- The empty queue. -/
def new : BoundedQueue α N where
  items := fun _ => none
  head := 0
  tail := 0
  len := 0
  len_le := Nat.zero_le N
  head_lt := id
  tail_eq := fun _ => by simp
  filled := fun _ i _ => by simp

theorem tail_lt (q : BoundedQueue α N) (hN : 0 < N) : q.tail < N := by
  rw [q.tail_eq hN]
  exact Nat.mod_lt _ hN

theorem tail_ring (q : BoundedQueue α N) (hN : 0 < N) :
    (⟨q.tail, q.tail_lt hN⟩ : Fin N) = ring hN q.head q.len :=
  Fin.ext (q.tail_eq hN)

/-- Filling the tail slot fills the offset `len`, and leaves every other offset as it was. -/
theorem filled_push (q : BoundedQueue α N) (h : q.len < N) (value : α) (hN : 0 < N) (i : ℕ)
    (hi : i < N) :
    (Function.update q.items ⟨q.tail, q.tail_lt hN⟩ (some value) (ring hN q.head i)).isSome =
      decide (i < q.len + 1) := by
  rw [q.tail_ring hN]
  by_cases hl : i = q.len
  · subst hl
    simp
  · have hne : ring hN q.head i ≠ ring hN q.head q.len := fun he => hl (ring_inj hN hi h he)
    have hiff : i < q.len + 1 ↔ i < q.len := by omega
    rw [Function.update_of_ne hne, q.filled hN i hi]
    simp [hiff]

/-- Emptying the head slot and stepping the head shifts every offset down. -/
theorem filled_pop (q : BoundedQueue α N) (hN : 0 < N) (i : ℕ) (hi : i < N) :
    (Function.update q.items ⟨q.head, q.head_lt hN⟩ none
      (ring hN ((q.head + 1) % N) i)).isSome = decide (i < q.len - 1) := by
  have hle := q.len_le
  rw [ring_next hN]
  by_cases hlast : i + 1 = N
  · -- one lap on: the slot just emptied
    rw [hlast, ring_lap hN (q.head_lt hN), Function.update_self]
    have : ¬ i < q.len - 1 := by omega
    simp [this]
  · have hne : ring hN q.head (i + 1) ≠ ⟨q.head, q.head_lt hN⟩ := by
      intro he
      rw [← ring_zero hN (q.head_lt hN)] at he
      have := ring_inj hN (by omega) hN he
      omega
    have hiff : i + 1 < q.len ↔ i < q.len - 1 := by omega
    rw [Function.update_of_ne hne, q.filled hN (i + 1) (by omega)]
    simp [hiff]

/-- Push to the tail; the value comes back if the queue is full. -/
def push (q : BoundedQueue α N) (value : α) : Except α (BoundedQueue α N) :=
  if h : q.len < N then
    .ok {
      items := Function.update q.items ⟨q.tail, q.tail_lt (by omega)⟩ (some value)
      head := q.head
      tail := (q.tail + 1) % N
      len := q.len + 1
      len_le := h
      head_lt := q.head_lt
      tail_eq := fun hN => by rw [q.tail_eq hN, Nat.mod_add_mod, Nat.add_assoc]
      filled := q.filled_push h value }
  else .error value

/-- Pop from the head; `none` if the queue is empty. -/
def pop (q : BoundedQueue α N) : Option α × BoundedQueue α N :=
  if h : q.len = 0 then (none, q)
  else
    have hN : 0 < N := (Nat.pos_of_ne_zero h).trans_le q.len_le
    (q.items ⟨q.head, q.head_lt hN⟩,
      { items := Function.update q.items ⟨q.head, q.head_lt hN⟩ none
        head := (q.head + 1) % N
        tail := q.tail
        len := q.len - 1
        len_le := (Nat.sub_le q.len 1).trans q.len_le
        head_lt := fun _ => Nat.mod_lt _ hN
        tail_eq := fun _ => by
          rw [q.tail_eq hN, Nat.mod_add_mod,
            show q.head + 1 + (q.len - 1) = q.head + q.len by omega]
        filled := q.filled_pop })

/-- The item at offset `i` from the head. -/
def item (q : BoundedQueue α N) (i : ℕ) : Option α :=
  if hN : 0 < N then q.items (ring hN q.head i) else none

/-- What the queue holds, oldest first, which is all that the proofs about endpoints look at. -/
def toList (q : BoundedQueue α N) : List α := (List.range q.len).filterMap q.item

/-! ### The queue as a list

What the queue is to everybody else: a list, oldest first. -/

theorem item_eq (q : BoundedQueue α N) (hN : 0 < N) (i : ℕ) :
    q.item i = q.items (ring hN q.head i) := dif_pos hN

theorem item_isSome (q : BoundedQueue α N) {i : ℕ} (h : i < q.len) : ∃ a, q.item i = some a := by
  have hiN : i < N := h.trans_le q.len_le
  have hN : 0 < N := by omega
  have hf := q.filled hN i hiN
  rw [decide_eq_true h, ← item_eq] at hf
  exact Option.isSome_iff_exists.mp hf

@[simp] theorem toList_new : (new : BoundedQueue α N).toList = [] := rfl

theorem length_toList (q : BoundedQueue α N) : q.toList.length = q.len := by
  have hall : ∀ l : List ℕ, (∀ i ∈ l, i < q.len) → (l.filterMap q.item).length = l.length := by
    intro l
    induction l with
    | nil => intro _; rfl
    | cons i l ih =>
      intro h
      obtain ⟨a, ha⟩ := q.item_isSome (h i List.mem_cons_self)
      rw [List.filterMap_cons_some ha, List.length_cons, List.length_cons,
        ih fun j hj => h j (List.mem_cons_of_mem _ hj)]
  rw [toList, hall _ fun i hi => List.mem_range.mp hi, List.length_range]

/-- What a successful push writes: one item behind those that are there. -/
theorem item_push {q q' : BoundedQueue α N} {value : α} (h : q.push value = .ok q') :
    q'.len = q.len + 1 ∧ q'.item q.len = some value ∧ ∀ i < q.len, q'.item i = q.item i := by
  rw [push] at h
  split at h
  · rename_i hlen
    have hN : 0 < N := by omega
    obtain rfl := Except.ok.inj h
    refine ⟨rfl, ?_, fun i hi => ?_⟩
    · rw [item_eq _ hN]
      simp only [q.tail_ring hN, Function.update_self]
    · have hne : ring hN q.head i ≠ ring hN q.head q.len := fun he => by
        have := ring_inj hN (hi.trans hlen) hlen he
        omega
      rw [item_eq _ hN, item_eq _ hN]
      simp only [q.tail_ring hN, Function.update_of_ne hne]
  · cases h

/-- **A push appends** to what the queue holds. -/
theorem push_ok {q q' : BoundedQueue α N} {value : α} (h : q.push value = .ok q') :
    q'.toList = q.toList ++ [value] := by
  obtain ⟨hlen, hnew, hold⟩ := item_push h
  rw [toList, hlen, List.range_succ, List.filterMap_append]
  congr 1
  · exact List.filterMap_congr fun i hi => hold i (List.mem_range.mp hi)
  · simp [hnew]

/-- A push fails exactly when the queue is full, and hands the value back. -/
theorem push_error {q : BoundedQueue α N} {value v : α} (h : q.push value = .error v) :
    v = value ∧ q.toList.length = N := by
  rw [push] at h
  split at h
  · cases h
  · have hle := q.len_le
    rw [length_toList]
    exact ⟨(Except.error.inj h).symm, by omega⟩

/-- **A pop takes the oldest**, or there is nothing to take. -/
theorem pop_eq (q : BoundedQueue α N) :
    (q.toList = [] ∧ q.pop = (none, q)) ∨
      ∃ a q', q.pop = (some a, q') ∧ q.toList = a :: q'.toList := by
  by_cases hlen : q.len = 0
  · left
    refine ⟨?_, by rw [pop, dif_pos hlen]⟩
    rw [toList, hlen]
    rfl
  · right
    have hN : 0 < N := (Nat.pos_of_ne_zero hlen).trans_le q.len_le
    obtain ⟨a, ha⟩ := q.item_isSome (Nat.pos_of_ne_zero hlen)
    have hhead : q.items ⟨q.head, q.head_lt hN⟩ = some a := by
      rw [← ha, item_eq q hN, ring_zero hN (q.head_lt hN)]
    have hrest : ∀ i < q.len - 1, q.pop.2.item i = q.item (i + 1) := by
      intro i hi
      have hle := q.len_le
      have hne : ring hN q.head (i + 1) ≠ ⟨q.head, q.head_lt hN⟩ := by
        intro he
        rw [← ring_zero hN (q.head_lt hN)] at he
        have := ring_inj hN (by omega) hN he
        omega
      rw [item_eq _ hN, item_eq _ hN, pop, dif_neg hlen]
      simp only [ring_next hN, Function.update_of_ne hne]
    refine ⟨a, q.pop.2, ?_, ?_⟩
    · rw [pop]
      rw [dif_neg hlen]
      exact Prod.ext hhead rfl
    · have hlen' : q.pop.2.len = q.len - 1 := by rw [pop, dif_neg hlen]
      rw [toList, show q.len = (q.len - 1) + 1 by omega, List.range_succ_eq_map,
        List.filterMap_cons_some ha, List.filterMap_map, toList, hlen']
      congr 1
      exact List.filterMap_congr fun i hi => (hrest i (List.mem_range.mp hi)).symm

end BoundedQueue

end Wari
