import Wari.Lib.Server
import Wari.Pool

/-!
# The queue in its cells

`BoundedQueue` as the source declares it: an array of optional cells, and the head, the tail
and the length in sixteen bits each. From the empty queue on it does what the queue of
`Pool.lean` does, and that one what a list with room for `N` elements does.
-/

namespace Wari

variable {α : Type} {N : ℕ}

/-! ## Requests

The queue is compared with a list by what it answers, request by request. -/

/-- What a queue is asked for: to take a value in, or to give the oldest out. -/
inductive QueueOp (α : Type) where
  | push (value : α)
  | pop
  deriving DecidableEq, Repr

/-- What a queue answers. A value that does not fit is handed back. -/
inductive QueueReply (α : Type) where
  /-- the value is in the queue -/
  | pushed
  /-- the queue is full, and the value comes back -/
  | overflow (value : α)
  /-- the oldest item, `none` if there is none -/
  | popped (value : Option α)
  deriving DecidableEq, Repr

/-- A list with room for `N` elements, the oldest first. -/
def fifo (N : ℕ) : Lib.Server (List α) (QueueOp α) (QueueReply α)
  | items, .push value =>
    if items.length < N then (.pushed, items ++ [value]) else (.overflow value, items)
  | [], .pop => (.popped none, [])
  | oldest :: items, .pop => (.popped (some oldest), items)

/-- The queue with its invariant as a server: what it answers to a request, and the queue it is
after that. -/
def BoundedQueue.request : Lib.Server (BoundedQueue α N) (QueueOp α) (QueueReply α)
  | q, .push value =>
    match q.push value with
    | .ok q' => (.pushed, q')
    | .error value => (.overflow value, q)
  | q, .pop => (.popped q.pop.1, q.pop.2)

/-! ## The cells

The source keeps a head, a tail and a length, and could overrun its array or overflow in each. In
the model such a step is `none`. -/

/-- The fields of the queue, in the integers the source keeps them in. -/
structure QueueCells (α : Type) (N : ℕ) where
  items : Fin N → Option α
  head : BitVec 16
  tail : BitVec 16
  len : BitVec 16

namespace QueueCells

/-- The empty queue, as `BoundedQueue::new` makes it. -/
def new : QueueCells α N := ⟨fun _ => none, 0#16, 0#16, 0#16⟩

/-- Push to the tail. `none` where an index is past the cells, or the length overflows. -/
def push (q : QueueCells α N) (value : α) : Option (QueueReply α × QueueCells α N) :=
  if q.len.toNat ≥ N then some (.overflow value, q)
  else if htail : q.tail.toNat < N then
    if q.len = 0xFFFF#16 then none
    else some (.pushed, {
      items := Function.update q.items ⟨q.tail.toNat, htail⟩ (some value)
      head := q.head
      tail := BitVec.ofNat 16 ((q.tail.toNat + 1) % N)
      len := q.len + 1#16 })
  else none

/-- Pop from the head. `none` where an index is past the cells. -/
def pop (q : QueueCells α N) : Option (QueueReply α × QueueCells α N) :=
  if q.len = 0#16 then some (.popped none, q)
  else if hhead : q.head.toNat < N then
    some (.popped (q.items ⟨q.head.toNat, hhead⟩), {
      items := Function.update q.items ⟨q.head.toNat, hhead⟩ none
      head := BitVec.ofNat 16 ((q.head.toNat + 1) % N)
      tail := q.tail
      len := q.len - 1#16 })
  else none

def step (q : QueueCells α N) : QueueOp α → Option (QueueReply α × QueueCells α N)
  | .push value => q.push value
  | .pop => q.pop

/-- One request after another: the answers, and the queue after them. -/
def run (q : QueueCells α N) : List (QueueOp α) → Option (List (QueueReply α) × QueueCells α N)
  | [] => some ([], q)
  | op :: ops => do
    let (reply, q) ← q.step op
    let (replies, q) ← q.run ops
    return (reply :: replies, q)

/-- The cells in the window behind the head hold the list, and the others nothing. -/
structure Holds (q : QueueCells α N) (items : List α) : Prop where
  room : items.length ≤ N
  len : q.len.toNat = items.length
  head : 0 < N → q.head.toNat < N
  tail : 0 < N → q.tail.toNat = (q.head.toNat + items.length) % N
  cells : ∀ (hN : 0 < N) (i : ℕ), i < N → q.items (ring hN q.head.toNat i) = items[i]?

namespace Holds

variable {q : QueueCells α N} {items : List α}

/-- Where there is no room, a push changes nothing. -/
theorem push_full (h : q.Holds items) (hfull : items.length = N) (value : α) :
    q.push value = some (.overflow value, q) := by
  have hlen : q.len.toNat ≥ N := by rw [h.len, hfull]
  rw [push, if_pos hlen]

/-- Where there is nothing, a pop changes nothing. -/
theorem pop_empty (h : q.Holds items) (hempty : items = []) :
    q.pop = some (.popped none, q) := by
  have hlen : q.len = 0#16 := by
    apply BitVec.eq_of_toNat_eq
    rw [h.len, hempty]
    rfl
  rw [pop, if_pos hlen]

end Holds

end QueueCells

/-! ## From the list to the queue

The queue with its invariant is already a list with a bound. -/

namespace BoundedQueue

/-- **One request** to the queue is one to its list: the same reply, and the list of what is left.
-/
theorem request_fifo (q : BoundedQueue α N) (op : QueueOp α) :
    (q.request op).1 = (fifo N q.toList op).1 ∧
      (q.request op).2.toList = (fifo N q.toList op).2 := by
  cases op with
  | push value =>
    rcases hpush : q.push value with v | q'
    · obtain ⟨rfl, hfull⟩ := push_error hpush
      have hroom : ¬ q.toList.length < N := by omega
      simp [request, fifo, hpush, hroom]
    · have hlist : q'.toList = q.toList ++ [value] := push_ok hpush
      have hroom : q.toList.length < N := by
        have hle := q'.len_le
        rw [← length_toList, hlist, List.length_append, List.length_singleton] at hle
        exact hle
      simp [request, fifo, hpush, hroom, hlist]
  | pop =>
    rcases pop_eq q with ⟨hnil, hpop⟩ | ⟨a, q', hpop, hlist⟩
    · simp [request, fifo, hpop, hnil]
    · simp [request, fifo, hpop, hlist]

end BoundedQueue

/-! ## From the queue to its cells

The tail is head and length modulo the capacity as long as these fit their sixteen bits. -/

namespace BoundedQueue

/-- The queue in its cells: the three indices as the words that the source has. -/
def cells (q : BoundedQueue α N) : QueueCells α N :=
  ⟨q.items, BitVec.ofNat 16 q.head, BitVec.ofNat 16 q.tail, BitVec.ofNat 16 q.len⟩

theorem toNat_index {n : ℕ} (hN : N ≤ 65535) (h : n ≤ N) : (BitVec.ofNat 16 n).toNat = n := by
  rw [BitVec.toNat_ofNat]
  exact Nat.mod_eq_of_lt (by omega)

/-- The length fits its sixteen bits, and so do the indices of a queue with room for anything
at all. -/
theorem toNat_len (hN : N ≤ 65535) (q : BoundedQueue α N) : q.cells.len.toNat = q.len :=
  toNat_index hN q.len_le

theorem toNat_head (hN : N ≤ 65535) (q : BoundedQueue α N) (hpos : 0 < N) :
    q.cells.head.toNat = q.head :=
  toNat_index hN (q.head_lt hpos).le

theorem toNat_tail (hN : N ≤ 65535) (q : BoundedQueue α N) (hpos : 0 < N) :
    q.cells.tail.toNat = q.tail :=
  toNat_index hN (q.tail_lt hpos).le

@[simp] theorem cells_new : (new : BoundedQueue α N).cells = .new := rfl

/-- **A push**, in the cells, is the push of the queue with its invariant: no index overflows its
word. -/
theorem cells_push (hN : N ≤ 65535) (q : BoundedQueue α N) (value : α) :
    q.cells.push value = some ((q.request (.push value)).1, (q.request (.push value)).2.cells) := by
  by_cases hlen : q.len < N
  · have htail : q.cells.tail.toNat = q.tail := q.toNat_tail hN (by omega)
    have hfull : ¬ q.cells.len.toNat ≥ N := by
      rw [q.toNat_len hN]
      omega
    have hmax : ¬ q.cells.len = 0xFFFF#16 := by
      intro heq
      have := q.toNat_len hN
      rw [heq, BitVec.toNat_ofNat] at this
      omega
    have hlt : q.cells.tail.toNat < N := by
      rw [htail]
      exact q.tail_lt (by omega)
    have hplace : (⟨q.cells.tail.toNat, hlt⟩ : Fin N) = ⟨q.tail, q.tail_lt (by omega)⟩ :=
      Fin.ext htail
    rw [QueueCells.push, if_neg hfull, dif_pos hlt, if_neg hmax, hplace, htail, request, push,
      dif_pos hlen]
    simp only [cells, BitVec.ofNat_add]
  · have hfull : q.cells.len.toNat ≥ N := by
      rw [q.toNat_len hN]
      omega
    rw [QueueCells.push, if_pos hfull, request, push, dif_neg hlen]

/-- **A pop**, in the cells, is the pop of the queue with its invariant. -/
theorem cells_pop (hN : N ≤ 65535) (q : BoundedQueue α N) :
    q.cells.pop = some ((q.request .pop).1, (q.request .pop).2.cells) := by
  have htoNat : q.cells.len.toNat = q.len := q.toNat_len hN
  by_cases hlen : q.len = 0
  · have hempty : q.cells.len = 0#16 := BitVec.eq_of_toNat_eq (htoNat.trans hlen)
    rw [QueueCells.pop, if_pos hempty, request, pop, dif_pos hlen]
  · have hpos : 0 < N := (Nat.pos_of_ne_zero hlen).trans_le q.len_le
    have hempty : ¬ q.cells.len = 0#16 := by
      intro heq
      rw [heq] at htoNat
      exact hlen htoNat.symm
    have hhead : q.cells.head.toNat = q.head := q.toNat_head hN hpos
    have hlt : q.cells.head.toNat < N := hhead.trans_lt (q.head_lt hpos)
    have hplace : (⟨q.cells.head.toNat, hlt⟩ : Fin N) = ⟨q.head, q.head_lt hpos⟩ := Fin.ext hhead
    have hless : q.cells.len - 1#16 = BitVec.ofNat 16 (q.len - 1) := by
      apply BitVec.eq_of_toNat_eq
      have hle : 1#16 ≤ q.cells.len := by
        rw [BitVec.le_def, htoNat]
        exact Nat.pos_of_ne_zero hlen
      rw [BitVec.toNat_sub_of_le hle, htoNat, toNat_index hN ((Nat.sub_le _ 1).trans q.len_le)]
      rfl
    rw [QueueCells.pop, if_neg hempty, dif_pos hlt, hplace, hhead, hless, request, pop,
      dif_neg hlen]
    rfl

/-- One request to the cells is one to the queue. -/
theorem cells_step (hN : N ≤ 65535) (q : BoundedQueue α N) (op : QueueOp α) :
    q.cells.step op = some ((q.request op).1, (q.request op).2.cells) := by
  cases op with
  | push value => exact q.cells_push hN value
  | pop => exact q.cells_pop hN

/-- So are many operations in a row, by induction on the operations. -/
theorem cells_run (hN : N ≤ 65535) (q : BoundedQueue α N) (ops : List (QueueOp α)) :
    q.cells.run ops = some ((request.serve q ops).1, (request.serve q ops).2.cells) := by
  induction ops generalizing q with
  | nil => rfl
  | cons op ops ih =>
    rw [QueueCells.run, q.cells_step hN op]
    simp [ih, Lib.Server.serve]

theorem map_some_toList (q : BoundedQueue α N) :
    q.toList.map some = (List.range q.len).map q.item := by
  have hall : ∀ l : List ℕ, (∀ i ∈ l, i < q.len) →
      (l.filterMap q.item).map some = l.map q.item := by
    intro l
    induction l with
    | nil => intro _; rfl
    | cons i l ih =>
      intro h
      obtain ⟨a, ha⟩ := q.item_isSome (h i List.mem_cons_self)
      rw [List.filterMap_cons_some ha, List.map_cons, List.map_cons, ha,
        ih fun j hj => h j (List.mem_cons_of_mem _ hj)]
  exact hall _ fun i hi => List.mem_range.mp hi

/-- An element of the list is the item at its offset. -/
theorem getElem?_toList (q : BoundedQueue α N) {i : ℕ} (h : i < q.len) :
    q.toList[i]? = q.item i := by
  obtain ⟨a, ha⟩ := q.item_isSome h
  have hmap : (q.toList.map some)[i]? = some (q.item i) := by
    rw [map_some_toList, List.getElem?_map, List.getElem?_range h, Option.map_some]
  rw [List.getElem?_map, ha] at hmap
  obtain ⟨a', ha', hsome⟩ := Option.map_eq_some_iff.mp hmap
  rw [ha', hsome, ha]

/-- The cells of a queue hold what the queue holds, in order. -/
theorem cells_holds (hN : N ≤ 65535) (q : BoundedQueue α N) : q.cells.Holds q.toList where
  room := by
    rw [length_toList]
    exact q.len_le
  len := by rw [q.toNat_len hN, length_toList]
  head := fun hpos => (q.toNat_head hN hpos).trans_lt (q.head_lt hpos)
  tail := fun hpos => by
    rw [q.toNat_tail hN hpos, q.toNat_head hN hpos, length_toList]
    exact q.tail_eq hpos
  cells := fun hpos i hi => by
    have hfilled := q.filled hpos i hi
    rw [q.toNat_head hN hpos]
    by_cases hlt : i < q.len
    · rw [getElem?_toList q hlt, item_eq q hpos]
      rfl
    · rw [decide_eq_false hlt, Option.isSome_eq_false_iff, Option.isNone_iff_eq_none] at hfilled
      rw [List.getElem?_eq_none (by rw [length_toList]; omega)]
      exact hfilled

end BoundedQueue

/-! ## The refinement

Both steps put together, for any number of requests. -/

/-- **The queue in its cells is a list with room for `N` elements.** Nothing it does is out of
range, its answers are those of the list, and its cells hold what the list has; a push it has no
room for and a pop it has nothing for leave every cell as it is. -/
theorem boundedQueue_refines (hN : N ≤ 65535) (ops : List (QueueOp α)) :
    ∃ replies items q, (fifo N).serve [] ops = (replies, items) ∧
      (QueueCells.new : QueueCells α N).run ops = some (replies, q) ∧ q.Holds items ∧
      (items.length = N → ∀ value, q.push value = some (.overflow value, q)) ∧
      (items = [] → q.pop = some (.popped none, q)) := by
  obtain ⟨hreplies, hlist⟩ := Lib.Server.serve_refines BoundedQueue.request (fifo N)
    (R := fun q items => q.toList = items)
    (fun q items op h => by
      subst h
      exact q.request_fifo op)
    BoundedQueue.toList_new ops
  have hrun := BoundedQueue.cells_run hN .new ops
  have hholds := BoundedQueue.cells_holds hN (BoundedQueue.request.serve .new ops).2
  rw [hreplies] at hrun
  rw [hlist] at hholds
  exact ⟨_, _, _, rfl, hrun, hholds, hholds.push_full, hholds.pop_empty⟩

/-- With two cells, and the head coming round to the first one again. -/
theorem boundedQueue_refines_two :
    ∃ replies items q, (fifo 2).serve [] [.push 1, .push 2, .pop, .push 3, .push 4, .pop] =
        (replies, items) ∧
      (QueueCells.new : QueueCells ℕ 2).run
        [.push 1, .push 2, .pop, .push 3, .push 4, .pop] = some (replies, q) ∧ q.Holds items ∧
      (items.length = 2 → ∀ value, q.push value = some (.overflow value, q)) ∧
      (items = [] → q.pop = some (.popped none, q)) :=
  boundedQueue_refines (by decide) _

end Wari
