import Wari.Dma
import Wari.EntryFields
import Wari.Heap
import Wari.Interrupts
import Wari.TablePages

/-!
# The kernel's address space

At boot the kernel maps its image, its stack and heaps and the devices of the board onto
themselves, and turns translation on. A linker script per board says where the image is
(`Image`). On every such image `kvmInit` succeeds, and what the hardware then finds is
`flagsAt`: text is executable, constants are read-only, everything else that is mapped is data,
and nothing is both written and executed (`kvmInit_total`). The boot stack grows towards the
pages the tables take, so these must leave it room.
-/

namespace Wari

open BumpAllocator (Heap)

/-! ## The board

The devices that are mapped: the console, the controller, and the windows of the network card. -/

/-- `uart_base`. -/
def Board.uartBase : Board → ℕ
  | .qemu => 0x10000000
  | .vf2 => 0x10000000
  | .r2s => 0xd4017000

/-- `net_windows`. -/
def Board.netWindows : Board → List MmioWindow
  | .qemu => netMmioWindows
  | .vf2 => [⟨0x16030000, 0x20000⟩, ⟨0x10230000, 0x10000⟩, ⟨0x13020000, 0x10000⟩,
      ⟨0x13030000, 0x1000⟩, ⟨0x17000000, 0x10000⟩, ⟨0x17010000, 0x1000⟩]
  | .r2s => []

/-- `mmio_regions`. -/
def Board.mmioRegions : Board → List MmioWindow
  | .qemu => [⟨0x10001000, 0x8000⟩]
  | .vf2 => [⟨0x16030000, 0x20000⟩, ⟨0x10230000, 0x10000⟩, ⟨0x13020000, 0x10000⟩,
      ⟨0x13030000, 0x1000⟩, ⟨0x17000000, 0x10000⟩, ⟨0x17010000, 0x1000⟩]
  | .r2s => []

/-- `PLIC_MMIO_LEN`. -/
def plicMmioLen : ℕ := 0x400000

/-- The device registers that are mapped: the UART, the interrupt controller, and the regions of
the board. -/
def Board.devices (board : Board) : List MmioWindow :=
  ⟨board.uartBase, pageSize⟩ :: ⟨board.plicBase, plicMmioLen⟩ :: board.mmioRegions

/-! ## The image

A linker script says in which order the sections come, what they are aligned to, and that they fit
the RAM. `Image` is any image laid out so, whatever the sizes of its sections. -/

/-- The symbols that the linker script defines, as the addresses that they have. -/
structure Symbols where
  textStart : BitVec 64
  textEnd : BitVec 64
  rodataStart : BitVec 64
  rodataEnd : BitVec 64
  dataStart : BitVec 64
  dataEnd : BitVec 64
  bssStart : BitVec 64
  bssEnd : BitVec 64
  stackBottom : BitVec 64
  stackTop : BitVec 64
  /-- `_end` -/
  endAddr : BitVec 64
  heapEnd : BitVec 64
  runtimeHeapStart : BitVec 64
  runtimeHeapEnd : BitVec 64

/-- What is mapped, in the order in which it is mapped. Where ranges overlap, the later one
stands. -/
def kernelRanges (board : Board) (sym : Symbols) : List MapRange :=
  [⟨sym.textStart, sym.textEnd, kernelRx⟩, ⟨sym.rodataStart, sym.rodataEnd, kernelRo⟩,
    ⟨sym.dataStart, sym.dataEnd, kernelRw⟩, ⟨sym.bssStart, sym.bssEnd, kernelRw⟩,
    ⟨sym.stackBottom, sym.stackTop, kernelRw⟩,
    -- the pool of the page allocator, and the arena of the heap
    ⟨sym.endAddr, sym.heapEnd, kernelRw⟩, ⟨sym.runtimeHeapStart, sym.runtimeHeapEnd, kernelRw⟩] ++
  board.devices.map fun w => ⟨BitVec.ofNat 64 w.base, BitVec.ofNat 64 (w.base + w.len), kernelRw⟩

/-- What `init` leaves: the tables, the word for `satp`, and the heap behind the kernel. -/
structure BootMap where
  kvm : Kvm
  satp : BitVec 64
  heap : Heap

/-- `kvm::init`. It is `none` where an assertion of the page allocator fails. -/
def kvmInit (board : Board) (sym : Symbols) (ram : Lib.Ram) : Option (Except KernelError BootMap) :=
  let heapStart := sym.endAddr
  if sym.heapEnd ≤ heapStart ∨ heapStart.toNat % pageSize ≠ 0 then some (.error .invalidArgument)
  else
    let numPages := (sym.heapEnd - heapStart).toNat / pageSize
    if numPages = 0 then some (.error .outOfPages)
    else
      (BitmapAllocator.new heapStart numPages).map fun alloc => do
        let (root, k) ← Kvm.allocZeroedPage ⟨ram, alloc⟩
        let k ← k.mapRanges root (kernelRanges board sym)
        return ⟨k, makeSatp root 0, BumpAllocator.init sym.runtimeHeapStart sym.runtimeHeapEnd⟩

/-- `ORIGIN` of the RAM in the board's linker script. -/
def Board.ramOrigin : Board → ℕ
  | .qemu => 0x80200000
  | .vf2 => 0x40200000
  | .r2s => 0x00200000

/-- `LENGTH`. -/
def Board.ramLength : Board → ℕ
  | .qemu => 128 * 2 ^ 20
  | .vf2 => 256 * 2 ^ 20
  | .r2s => 256 * 2 ^ 20

/-- The symbols as the board's linker script lays them out. -/
structure Image (board : Board) extends Symbols where
  text_start : textStart.toNat = board.ramOrigin
  /-- the sections, each within the pages before the next -/
  aligned : ∀ a ∈ [textEnd, rodataStart, rodataEnd, dataStart, dataEnd, bssStart, bssEnd, endAddr],
    a.toNat % pageSize = 0
  order : [textStart, textEnd, rodataStart, rodataEnd, dataStart, dataEnd, bssStart, bssEnd,
    endAddr].Pairwise fun a b => a.toNat ≤ b.toNat
  fits : endAddr.toNat ≤ board.ramOrigin + board.ramLength
  /-- the stack and the pool share one region -/
  stack_bottom : stackBottom = endAddr
  stack_top : stackTop = endAddr + 0x100000#64
  heap_end : heapEnd = endAddr + 0x100000#64
  runtime_heap_start : runtimeHeapStart = endAddr + 0x100000#64
  runtime_heap_end : runtimeHeapEnd = endAddr + 0x1100000#64

/-! ## What the hardware finds

The map as translation sees it, against what an address is to be mapped as. The second is said by
cases of where the address lies, without the ranges that are mapped. -/

/-- The table that `satp` names, as a physical address. -/
def BootMap.root (b : BootMap) : BitVec 64 := (satpPpn b.satp).setWidth 64 <<< 12

/-- What an address is translated to by the hardware walk, from the table in `satp` on. -/
def BootMap.translate (b : BootMap) (va : BitVec 64) : Option WalkResult :=
  walk b.root va (readWord b.kvm.ram)

/-- How an address is to be mapped, written down section by section, or `none` where it is not. -/
def flagsAt (board : Board) (sym : Symbols) (va : ℕ) : Option PteFlags :=
  if sym.textStart.toNat ≤ va ∧ va < sym.textEnd.toNat then some kernelRx
  else if sym.rodataStart.toNat ≤ va ∧ va < sym.rodataEnd.toNat then some kernelRo
  else if (sym.dataStart.toNat ≤ va ∧ va < sym.dataEnd.toNat) ∨
      (sym.bssStart.toNat ≤ va ∧ va < sym.bssEnd.toNat) ∨
      (sym.endAddr.toNat ≤ va ∧ va < sym.runtimeHeapEnd.toNat) ∨
      addrInWindows va board.devices then some kernelRw
  else none

/-- How much of the pool the tables may take: 160 pages of 256. -/
def tableRoom : ℕ := 160 * pageSize

/-- **The kernel's address space** is what it is to be: each address is translated to itself or
not at all, with the rights of what is there; nothing is both writable and executable; and the
pool of pages is what is left after the tables. -/
structure KernelMap (board : Board) (sym : Symbols) (b : BootMap) : Prop where
  map : ∀ va : BitVec 64, va.toNat < 2 ^ 39 →
    b.translate va = (flagsAt board sym va.toNat).map fun flags => ⟨va, flags⟩
  /-- above, the addresses below are repeated -/
  repeats : ∀ va, b.translate va = b.translate (va &&& 0x7FFFFFFFFF#64)
  wx : ∀ va r, b.translate va = some r →
    ¬ (r.flags.contains .WRITE = true ∧ r.flags.contains .EXECUTE = true)
  /-- the tables lie at the bottom of the pool -/
  tables : ∀ q t, b.kvm.tables.tableAt (pageOf b.root) q = some t →
    sym.endAddr.toNat ≤ (pageAddr t).toNat ∧
      (pageAddr t).toNat + pageSize ≤ sym.endAddr.toNat + tableRoom
  /-- what the driver may touch is there -/
  windows : ∀ addr width : ℕ, accessInWindows addr width board.netWindows →
    ∀ i < width, b.translate (BitVec.ofNat 64 (addr + i)) =
      some ⟨BitVec.ofNat 64 (addr + i), kernelRw⟩
  /-- the heap is there, and above the stack -/
  heap : ∀ layouts, ∀ c ∈ b.heap.calls layouts, c.Fits → ∀ i < c.layout.size.toNat,
    sym.stackTop.toNat ≤ c.ptr.toNat ∧
      b.translate (c.ptr + BitVec.ofNat 64 i) = some ⟨c.ptr + BitVec.ofNat 64 i, kernelRw⟩

/-! ## The ranges

The ranges do not overlap, since sections are in order and devices are below the RAM. So an
address is in one of them at most. -/

namespace Image

variable {board : Board} (im : Image board)

/-- The sections in numbers: one behind the other, from the origin of RAM to its end. -/
theorem layout :
    im.textStart.toNat = board.ramOrigin ∧ im.textStart.toNat ≤ im.textEnd.toNat ∧
    im.textEnd.toNat ≤ im.rodataStart.toNat ∧ im.rodataStart.toNat ≤ im.rodataEnd.toNat ∧
    im.rodataEnd.toNat ≤ im.dataStart.toNat ∧ im.dataStart.toNat ≤ im.dataEnd.toNat ∧
    im.dataEnd.toNat ≤ im.bssStart.toNat ∧ im.bssStart.toNat ≤ im.bssEnd.toNat ∧
    im.bssEnd.toNat ≤ im.endAddr.toNat := by
  have horder := im.order
  simp only [List.pairwise_cons, List.mem_cons, forall_eq_or_imp] at horder
  exact ⟨im.text_start, horder.1.1, horder.2.1.1, horder.2.2.1.1, horder.2.2.2.1.1,
    horder.2.2.2.2.1.1, horder.2.2.2.2.2.1.1, horder.2.2.2.2.2.2.1.1, horder.2.2.2.2.2.2.2.1.1⟩

/-- RAM ends long before the addresses do, so that none of the sums below overflows. -/
theorem endAddr_lt : im.endAddr.toNat + 0x1100000 < 2 ^ 32 := by
  have hfits := im.fits
  cases board <;> simp only [Board.ramOrigin, Board.ramLength] at hfits <;> omega

theorem toNat_heapEnd : im.heapEnd.toNat = im.endAddr.toNat + 0x100000 := by
  have := im.endAddr_lt
  rw [im.heap_end, BitVec.toNat_add]
  change (_ + 0x100000) % _ = _
  omega

theorem toNat_stackTop : im.stackTop.toNat = im.endAddr.toNat + 0x100000 := by
  rw [im.stack_top, ← im.heap_end, im.toNat_heapEnd]

theorem toNat_runtimeHeapStart : im.runtimeHeapStart.toNat = im.endAddr.toNat + 0x100000 := by
  rw [im.runtime_heap_start, ← im.heap_end, im.toNat_heapEnd]

theorem toNat_runtimeHeapEnd : im.runtimeHeapEnd.toNat = im.endAddr.toNat + 0x1100000 := by
  have := im.endAddr_lt
  rw [im.runtime_heap_end, BitVec.toNat_add]
  change (_ + 0x1100000) % _ = _
  omega

end Image

theorem devices_le (board : Board) : ∀ w ∈ board.devices, w.base % pageSize = 0 ∧
    w.len % pageSize = 0 ∧ w.base + w.len < 2 ^ 32 ∧ (w.base + w.len ≤ board.ramOrigin ∨
      board.ramOrigin + board.ramLength + 0x1100000 ≤ w.base) := by
  cases board <;> decide

/-- **Every window is mapped**: a driver that is allowed an address does not fault the kernel with
it. -/
theorem windows_mapped (board : Board) : ∀ w ∈ board.netWindows, ∃ d ∈ board.devices,
    d.base ≤ w.base ∧ w.base + w.len ≤ d.base + d.len := by
  cases board <;> decide

/-- A range of whole pages covers what lies in it. -/
theorem covers_iff {r : MapRange} (hstart : r.start.toNat % pageSize = 0)
    (hend : r.endAddr.toNat % pageSize = 0) (va : BitVec 64) :
    r.covers va = true ↔ r.start.toNat ≤ va.toNat ∧ va.toNat < r.endAddr.toNat := by
  rw [MapRange.covers, decide_eq_true_iff]
  simp only [pageSize] at *
  omega

/-- The device registers, range by range: a range covers exactly the addresses of its window, as
the windows are whole pages. -/
theorem device_covers (board : Board) {w : MmioWindow} (hw : w ∈ board.devices) (va : BitVec 64) :
    (MapRange.mk (BitVec.ofNat 64 w.base) (BitVec.ofNat 64 (w.base + w.len)) kernelRw).covers va =
      w.contains va.toNat := by
  obtain ⟨hbase, hlen, hlt, -⟩ := devices_le board w hw
  have hstart : (BitVec.ofNat 64 w.base).toNat = w.base := by
    rw [BitVec.toNat_ofNat]
    omega
  have hend : (BitVec.ofNat 64 (w.base + w.len)).toNat = w.base + w.len := by
    rw [BitVec.toNat_ofNat]
    omega
  rw [Bool.eq_iff_iff, covers_iff (by rw [hstart]; exact hbase) (by
    rw [hend]
    simp only [pageSize] at *
    omega), hstart, hend, MmioWindow.contains, Bool.and_eq_true, decide_eq_true_iff,
    decide_eq_true_iff]

namespace Image

variable {board : Board} (im : Image board)

/-- Where there is data to be written: outside the text and the constants. -/
theorem writable_apart {va : ℕ}
    (h : (im.dataStart.toNat ≤ va ∧ va < im.dataEnd.toNat) ∨
      (im.bssStart.toNat ≤ va ∧ va < im.bssEnd.toNat) ∨
      (im.endAddr.toNat ≤ va ∧ va < im.runtimeHeapEnd.toNat) ∨
      addrInWindows va board.devices) : va < im.textStart.toNat ∨ im.rodataEnd.toNat ≤ va := by
  obtain ⟨h₀, h₁, h₂, h₃, h₄, h₅, h₆, h₇, h₈⟩ := im.layout
  have hfits := im.fits
  rcases h with h | h | h | h
  · omega
  · omega
  · omega
  · obtain ⟨w, hw, hin⟩ := List.any_eq_true.mp h
    rw [MmioWindow.contains, Bool.and_eq_true, decide_eq_true_iff, decide_eq_true_iff] at hin
    obtain ⟨-, -, -, hlow | hhigh⟩ := devices_le board w hw <;> omega

/-- **The ranges say how an address is to be mapped**, and where two of them cover it they agree.
-/
theorem exists_range_iff (va : BitVec 64) (f : PteFlags) :
    (∃ r ∈ kernelRanges board im.toSymbols, r.covers va = true ∧ r.flags = f) ↔
      flagsAt board im.toSymbols va.toNat = some f := by
  have halign : ∀ a ∈ [im.textEnd, im.rodataStart, im.rodataEnd, im.dataStart, im.dataEnd,
    im.bssStart, im.bssEnd, im.endAddr], a.toNat % pageSize = 0 := im.aligned
  simp only [List.mem_cons, forall_eq_or_imp, List.not_mem_nil, false_implies, implies_true,
    and_true] at halign
  obtain ⟨a₁, a₂, a₃, a₄, a₅, a₆, a₇, a₈⟩ := halign
  obtain ⟨h₀, h₁, h₂, h₃, h₄, h₅, h₆, h₇, h₈⟩ := im.layout
  have a₀ : im.textStart.toNat % pageSize = 0 := by
    rw [h₀]
    cases board <;> decide
  have hheap := im.toNat_heapEnd
  have hstack := im.toNat_stackTop
  have hruntime := im.toNat_runtimeHeapStart
  have hruntime' := im.toNat_runtimeHeapEnd
  have hbottom : im.stackBottom.toNat = im.endAddr.toNat := by rw [im.stack_bottom]
  have hdevices : (∃ w ∈ board.devices, w.contains va.toNat = true) ↔
      addrInWindows va.toNat board.devices = true := by
    rw [addrInWindows, List.any_eq_true]
  have hranges : (∃ r ∈ kernelRanges board im.toSymbols, r.covers va = true ∧ r.flags = f) ↔
      ((im.textStart.toNat ≤ va.toNat ∧ va.toNat < im.textEnd.toNat) ∧ kernelRx = f) ∨
      ((im.rodataStart.toNat ≤ va.toNat ∧ va.toNat < im.rodataEnd.toNat) ∧ kernelRo = f) ∨
      ((im.dataStart.toNat ≤ va.toNat ∧ va.toNat < im.dataEnd.toNat) ∨
        (im.bssStart.toNat ≤ va.toNat ∧ va.toNat < im.bssEnd.toNat) ∨
        (im.endAddr.toNat ≤ va.toNat ∧ va.toNat < im.runtimeHeapEnd.toNat) ∨
        addrInWindows va.toNat board.devices) ∧ kernelRw = f := by
    have hdev : (∃ r, (∃ w ∈ board.devices, MapRange.mk (BitVec.ofNat 64 w.base)
        (BitVec.ofNat 64 (w.base + w.len)) kernelRw = r) ∧ r.covers va = true ∧ r.flags = f) ↔
          addrInWindows va.toNat board.devices = true ∧ kernelRw = f := by
      rw [← hdevices]
      constructor
      · rintro ⟨_, ⟨w, hw, rfl⟩, hc, hf⟩
        rw [device_covers board hw] at hc
        exact ⟨⟨w, hw, hc⟩, hf⟩
      · rintro ⟨⟨w, hw, hc⟩, hf⟩
        exact ⟨_, ⟨w, hw, rfl⟩, (device_covers board hw va).trans hc, hf⟩
    have hpages : (im.endAddr.toNat + 0x100000) % pageSize = 0 := by
      simp only [pageSize] at *
      omega
    have hpages' : (im.endAddr.toNat + 0x1100000) % pageSize = 0 := by
      simp only [pageSize] at *
      omega
    simp only [kernelRanges, List.mem_append, List.mem_cons, List.not_mem_nil, or_false,
      List.mem_map, or_and_right, exists_or, exists_eq_left, hdev]
    rw [covers_iff a₀ a₁, covers_iff a₂ a₃, covers_iff a₄ a₅, covers_iff a₆ a₇,
      covers_iff (by rw [hbottom]; exact a₈) (by rw [hstack]; exact hpages),
      covers_iff a₈ (by rw [hheap]; exact hpages),
      covers_iff (by rw [hruntime]; exact hpages) (by rw [hruntime']; exact hpages')]
    dsimp only
    rw [hbottom, hstack, hheap, hruntime, hruntime']
    have hpool : im.endAddr.toNat ≤ va.toNat ∧ va.toNat < im.endAddr.toNat + 0x1100000 ↔
        (im.endAddr.toNat ≤ va.toNat ∧ va.toNat < im.endAddr.toNat + 0x100000) ∨
        (im.endAddr.toNat + 0x100000 ≤ va.toNat ∧
          va.toNat < im.endAddr.toNat + 0x1100000) := by omega
    simp only [hpool, or_and_right, or_assoc, or_self_left]
  rw [hranges, flagsAt]
  have hapart := @writable_apart board im va.toNat
  split_ifs with ht hr hw
  · have hr : ¬ (im.rodataStart.toNat ≤ va.toNat ∧ va.toNat < im.rodataEnd.toNat) := by omega
    have hw := mt hapart (by omega)
    simp only [ht, hr, hw, true_and, false_and, or_false, Option.some.injEq]
  · have hw := mt hapart (by omega)
    simp only [ht, hr, hw, true_and, false_and, or_false, false_or, Option.some.injEq]
  · simp only [ht, hr, hw, true_and, false_and, false_or, Option.some.injEq]
  · simp only [ht, hr, hw, false_and, or_false]

theorem flagsAt_writable {va : ℕ}
    (h : (im.dataStart.toNat ≤ va ∧ va < im.dataEnd.toNat) ∨
      (im.bssStart.toNat ≤ va ∧ va < im.bssEnd.toNat) ∨
      (im.endAddr.toNat ≤ va ∧ va < im.runtimeHeapEnd.toNat) ∨
      addrInWindows va board.devices) : flagsAt board im.toSymbols va = some kernelRw := by
  have hapart := im.writable_apart h
  have hlayout := im.layout
  rw [flagsAt, if_neg (by omega), if_neg (by omega), if_pos h]

/-- The windows of the driver are device registers. -/
theorem flagsAt_window {addr width i : ℕ}
    (h : accessInWindows addr width board.netWindows = true) (hi : i < width) :
    addr + i < 2 ^ 32 ∧ flagsAt board im.toSymbols (addr + i) = some kernelRw := by
  obtain ⟨w, hw, hallows⟩ := List.any_eq_true.mp h
  obtain ⟨d, hd, hlow, hhigh⟩ := windows_mapped board w hw
  rw [MmioWindow.allows] at hallows
  split_ifs at hallows
  rw [Bool.and_eq_true, decide_eq_true_iff, decide_eq_true_iff] at hallows
  obtain ⟨-, -, hlt, -⟩ := devices_le board d hd
  have hin : addrInWindows (addr + i) board.devices = true := by
    refine List.any_eq_true.mpr ⟨d, hd, ?_⟩
    rw [MmioWindow.contains, Bool.and_eq_true, decide_eq_true_iff, decide_eq_true_iff]
    omega
  exact ⟨by omega, im.flagsAt_writable (.inr (.inr (.inr hin)))⟩

/-- The blocks of the heap are in its arena. -/
theorem flagsAt_heap {layouts : List BumpAllocator.Layout} {c : BumpAllocator.Call}
    (hc : c ∈ (BumpAllocator.init im.runtimeHeapStart im.runtimeHeapEnd).calls layouts)
    (hfits : c.Fits) {i : ℕ} (hi : i < c.layout.size.toNat) :
    im.stackTop.toNat ≤ c.ptr.toNat ∧ (c.ptr + BitVec.ofNat 64 i).toNat < 2 ^ 32 ∧
      flagsAt board im.toSymbols (c.ptr + BitVec.ofNat 64 i).toNat = some kernelRw := by
  have hend := im.endAddr_lt
  have hstart := im.toNat_runtimeHeapStart
  have hfinish := im.toNat_runtimeHeapEnd
  have hstack := im.toNat_stackTop
  have hsound := (BumpAllocator.Within.init (by omega)).calls (by omega) layouts c hc
  have hmet := (hsound.cases.resolve_right fun hno => hno.1 hfits).2
  have hlow := hsound.before.start_le.trans hmet.cursor_le
  have hhigh := hmet.stop_le
  rw [hsound.before.finish, BumpAllocator.Call.stop] at hhigh
  have haddr : (c.ptr + BitVec.ofNat 64 i).toNat = c.ptr.toNat + i := by
    rw [BitVec.toNat_add, BitVec.toNat_ofNat]
    omega
  rw [haddr]
  exact ⟨by omega, by omega, im.flagsAt_writable (.inr (.inr (.inl (by omega))))⟩

/-- **The tables fit**, whatever the size of the sections: RAM and the devices lie in a few
gigabytes. -/
theorem tablePages_le : tablePages (pagesOf (kernelRanges board im.toSymbols)) ≤ 160 := by
  obtain ⟨h₀, h₁, h₂, h₃, h₄, h₅, h₆, h₇, h₈⟩ := im.layout
  have hheap := im.toNat_heapEnd
  have hstack := im.toNat_stackTop
  have hruntime := im.toNat_runtimeHeapStart
  have hruntime' := im.toNat_runtimeHeapEnd
  have hbottom : im.stackBottom.toNat = im.endAddr.toNat := by rw [im.stack_bottom]
  have hfits := im.fits
  -- everything but the devices is in RAM
  have hram : pagesOf (kernelRanges board im.toSymbols) ⊆
      pagesOf (⟨im.textStart, im.runtimeHeapEnd, kernelRw⟩ :: board.devices.map fun w =>
        ⟨BitVec.ofNat 64 w.base, BitVec.ofNat 64 (w.base + w.len), kernelRw⟩) := by
    intro p hp
    obtain ⟨r, hr, hin⟩ := mem_pagesOf.mp hp
    rw [mem_pagesOf]
    rcases List.mem_append.mp hr with hr | hr
    · refine ⟨_, List.mem_cons_self, ?_⟩
      simp only [List.mem_cons, List.not_mem_nil, or_false] at hr
      simp only [MapRange.pages, pageSize, Finset.mem_Ico] at hin ⊢
      rcases hr with rfl | rfl | rfl | rfl | rfl | rfl | rfl <;> dsimp only at hin <;> omega
    · exact ⟨r, List.mem_cons_of_mem _ hr, hin⟩
  refine (tablePages_mono hram).trans ((Wari.tablePages_le _).trans ?_)
  rw [List.map_cons, List.sum_cons, MapRange.tables]
  dsimp only
  rw [h₀, hruntime']
  cases board with
  | qemu =>
    have hdevices : ((Board.qemu.devices.map fun w => MapRange.mk (BitVec.ofNat 64 w.base)
        (BitVec.ofNat 64 (w.base + w.len)) kernelRw).map MapRange.tables).sum = 7 := by decide
    rw [hdevices]
    simp only [Board.ramOrigin, Board.ramLength] at *
    omega
  | vf2 =>
    have hdevices : ((Board.vf2.devices.map fun w => MapRange.mk (BitVec.ofNat 64 w.base)
        (BitVec.ofNat 64 (w.base + w.len)) kernelRw).map MapRange.tables).sum = 17 := by decide
    rw [hdevices]
    simp only [Board.ramOrigin, Board.ramLength] at *
    omega
  | r2s =>
    have hdevices : ((Board.r2s.devices.map fun w => MapRange.mk (BitVec.ofNat 64 w.base)
        (BitVec.ofNat 64 (w.base + w.len)) kernelRw).map MapRange.tables).sum = 5 := by decide
    rw [hdevices]
    simp only [Board.ramOrigin, Board.ramLength] at *
    omega

end Image

/-! ## At boot

Mapping needs pages for its tables. A count of them for any sizes of the sections shows that the
pool has enough. -/

theorem kernelRanges_maps (board : Board) (sym : Symbols) :
    ∀ r ∈ kernelRanges board sym, r.flags.Maps := by
  have hrx : kernelRx.Maps := ⟨by decide, by decide⟩
  have hro : kernelRo.Maps := ⟨by decide, by decide⟩
  have hrw : kernelRw.Maps := ⟨by decide, by decide⟩
  intro r hr
  rcases List.mem_append.mp hr with hr | hr
  · simp only [List.mem_cons, List.not_mem_nil, or_false] at hr
    rcases hr with rfl | rfl | rfl | rfl | rfl | rfl | rfl
    exacts [hrx, hro, hrw, hrw, hrw, hrw, hrw]
  · obtain ⟨w, -, rfl⟩ := List.mem_map.mp hr
    exact hrw

variable {board : Board}

theorem Image.ranges_low (im : Image board) :
    ∀ r ∈ kernelRanges board im.toSymbols, r.endAddr.toNat ≤ 2 ^ 39 := by
  have hlayout := im.layout
  have hend := im.endAddr_lt
  have hheap := im.toNat_heapEnd
  have hstack := im.toNat_stackTop
  have hruntime := im.toNat_runtimeHeapEnd
  intro r hr
  rcases List.mem_append.mp hr with hr | hr
  · simp only [List.mem_cons, List.not_mem_nil, or_false] at hr
    rcases hr with rfl | rfl | rfl | rfl | rfl | rfl | rfl <;> dsimp only <;> omega
  · obtain ⟨w, hw, rfl⟩ := List.mem_map.mp hr
    obtain ⟨-, -, hlt, -⟩ := devices_le board w hw
    change (BitVec.ofNat 64 (w.base + w.len)).toNat ≤ _
    rw [BitVec.toNat_ofNat]
    omega

/-- **`init` succeeds**, on the pages from `_end` on, as there are enough of them for the tables.
-/
theorem Image.kvmInit_built (im : Image board) (ram : Lib.Ram) :
    ∃ b root, kvmInit board im.toSymbols ram = some (.ok b) ∧
      b.satp = makeSatp (pageAddr root) 0 ∧
      b.heap = BumpAllocator.init im.runtimeHeapStart im.runtimeHeapEnd ∧
      (∀ va : BitVec 64, va.toNat < 2 ^ 39 → b.kvm.resolve root va =
        ((kernelRanges board im.toSymbols).reverse.find? fun r => r.covers va).map
          fun r => ⟨va, r.flags⟩) ∧
      b.kvm.alloc.baseAddr = im.endAddr ∧ b.kvm.Tree root ∧
      b.kvm.alloc.Filled (tablePages (pagesOf (kernelRanges board im.toSymbols))) := by
  have hend := im.endAddr_lt
  have hheap := im.toNat_heapEnd
  have haligned : im.endAddr.toNat % pageSize = 0 := im.aligned _ (by simp)
  have hpages : (im.heapEnd - im.endAddr).toNat / pageSize = 256 := by
    rw [BitVec.toNat_sub, hheap, pageSize]
    omega
  have hnew : BitmapAllocator.new im.endAddr 256 =
      some ⟨.empty, im.endAddr, 256, haligned, by decide, by decide⟩ :=
    dif_pos ⟨haligned, by decide, by decide⟩
  obtain ⟨root, k₁, hroot, hbuilt⟩ :=
    Kvm.built_root (k := ⟨ram, _⟩) (BitmapAllocator.new_represents hnew).1
  have hranges := hbuilt.mapRanges (kernelRanges_maps board im.toSymbols) im.ranges_low
  rw [Finset.union_empty, if_pos (im.tablePages_le.trans (show 160 ≤ 256 by decide))] at hranges
  obtain ⟨k, hmap, hbuilt'⟩ := hranges
  obtain ⟨-, htree, hnone⟩ := Kvm.tree_root hroot
  rw [pageOf_pageAddr] at htree hnone
  obtain ⟨-, hresolve⟩ := htree.mapRanges (kernelRanges_maps board im.toSymbols) im.ranges_low hmap
  refine ⟨⟨k, makeSatp (pageAddr root) 0, _⟩, root, ?_, rfl, rfl, fun va hva => ?_,
    hbuilt'.pages.base, hbuilt'.tree, hbuilt'.filled⟩
  swap
  · rw [hresolve va hva, hnone, Option.or_none]
  rw [kvmInit]
  dsimp only
  rw [if_neg, hpages, if_neg (by decide), hnew, Option.map_some, hroot]
  · change some (((k₁.mapRanges (pageAddr root) _) >>= _ : Except KernelError BootMap)) = _
    rw [hmap]
    rfl
  · rw [not_or, not_not, BitVec.not_le, BitVec.lt_def]
    exact ⟨by omega, haligned⟩

/-- What is mapped, read from the root of a table rather than from the state that built it. -/
theorem Image.resolve_eq (im : Image board) {k : Kvm} {root : BitVec 52}
    (h : ∀ va : BitVec 64, va.toNat < 2 ^ 39 → k.resolve root va =
      ((kernelRanges board im.toSymbols).reverse.find? fun r => r.covers va).map
        fun r => ⟨va, r.flags⟩) {va : BitVec 64} (hva : va.toNat < 2 ^ 39) :
    k.resolve root va = (flagsAt board im.toSymbols va.toNat).map fun flags => ⟨va, flags⟩ := by
  rw [h va hva]
  rcases hfind : (kernelRanges board im.toSymbols).reverse.find? fun r => r.covers va with _ | r
  · rcases hflags : flagsAt board im.toSymbols va.toNat with _ | f
    · rw [hfind]
      rfl
    · obtain ⟨r, hr, hcovers, -⟩ := (im.exists_range_iff va f).mpr hflags
      exact absurd hcovers (List.find?_eq_none.mp hfind r (List.mem_reverse.mpr hr))
  · have hflags : flagsAt board im.toSymbols va.toNat = some r.flags :=
      (im.exists_range_iff va r.flags).mp ⟨r, List.mem_reverse.mp (List.mem_of_find?_eq_some hfind),
        List.find?_some (p := fun r : MapRange => r.covers va) hfind, rfl⟩
    rw [hfind, hflags]
    rfl

/-- Flags in use do not both write and execute. -/
theorem flagsAt_wx {sym : Symbols} {va : ℕ} {f : PteFlags} (h : flagsAt board sym va = some f) :
    ¬ (f.contains .WRITE = true ∧ f.contains .EXECUTE = true) := by
  rw [flagsAt] at h
  split_ifs at h <;> obtain rfl := Option.some.inj h <;> decide

/-- **The kernel's address space.** On every image that the board's linker script lays out, and
whatever is in memory, `init` succeeds. An address is then translated to itself: text may be
read and executed, constants read, data, stack, heaps and devices read and written, and no
address anything else. The tables are in the lower 160 of the 256 pages that the stack comes
down to; the registers that the driver is licensed for and the blocks of the heap are mapped. -/
theorem kvmInit_total (board : Board) (im : Image board) (ram : Lib.Ram) :
    ∃ b, kvmInit board im.toSymbols ram = some (.ok b) ∧ KernelMap board im.toSymbols b := by
  obtain ⟨b, root, hinit, hsatp, hheap, hresolve, hbase, htree, hfilled⟩ := im.kvmInit_built ram
  refine ⟨b, hinit, ?_⟩
  have hend := im.endAddr_lt
  -- the tables are on the first pages
  have hplace : ∀ q t, b.kvm.tables.tableAt root q = some t →
      im.endAddr.toNat ≤ (pageAddr t).toNat ∧
        (pageAddr t).toNat + pageSize ≤ im.endAddr.toNat + tableRoom := by
    intro q t hq
    obtain ⟨i, hi, hset, haddr⟩ := htree.taken q t hq
    have hlt : i < tablePages (pagesOf (kernelRanges board im.toSymbols)) :=
      Finset.mem_range.mp ((hfilled.mem i).mp hset)
    have hle := im.tablePages_le
    rw [haddr, hbase, BitVec.toNat_add, BitVec.toNat_ofNat]
    simp only [tableRoom, pageSize] at *
    omega
  have hroot : b.root = pageAddr root := by
    have haligned : (pageAddr root).toNat % pageSize = 0 := by
      rw [toNat_pageAddr]
      exact Nat.mul_mod_left _ _
    obtain ⟨-, hhigh⟩ := hplace [] root rfl
    have hlow : (pageAddr root).toNat < 2 ^ 56 := by
      simp only [tableRoom, pageSize] at hhigh
      omega
    rw [BootMap.root, hsatp]
    exact (readBack haligned hlow).satp 0
  have hwalk : ∀ va, b.translate va = b.kvm.resolve root va := fun va => by
    rw [BootMap.translate, hroot, Kvm.resolve]
  have hmap : ∀ va : BitVec 64, va.toNat < 2 ^ 39 →
      b.translate va = (flagsAt board im.toSymbols va.toNat).map fun flags => ⟨va, flags⟩ :=
    fun va hva => (hwalk va).trans (im.resolve_eq hresolve hva)
  have hrepeats : ∀ va, b.translate va = b.translate (va &&& 0x7FFFFFFFFF#64) := fun va => by
    rw [hwalk, hwalk]
    exact Kvm.resolve_low b.kvm root va
  refine ⟨hmap, hrepeats, fun va r hr => ?_, fun q t hq => ?_, fun addr width hacc i hi => ?_,
    fun layouts c hc hfits i hi => ?_⟩
  · have hmask : (0x7FFFFFFFFF#64).toNat = 2 ^ 39 - 1 := by decide
    have hlow : (va &&& 0x7FFFFFFFFF#64).toNat = va.toNat % 2 ^ 39 := Lib.toNat_and_mask va hmask
    rw [hrepeats, hmap _ (by omega)] at hr
    obtain ⟨f, hf, rfl⟩ := Option.map_eq_some_iff.mp hr
    exact flagsAt_wx hf
  · rw [hroot, pageOf_pageAddr] at hq
    exact hplace q t hq
  · obtain ⟨hlt, hflags⟩ := im.flagsAt_window hacc hi
    have haddr : (BitVec.ofNat 64 (addr + i)).toNat = addr + i := by
      rw [BitVec.toNat_ofNat]
      omega
    rw [hmap _ (by omega), haddr, hflags]
    rfl
  · obtain ⟨hstack, hlt, hflags⟩ := im.flagsAt_heap (hheap ▸ hc) hfits hi
    exact ⟨hstack, by rw [hmap _ (by omega), hflags]; rfl⟩

/-- Sections of one page each. -/
instance (board : Board) : Inhabited (Image board) where
  default := {
    textStart := BitVec.ofNat 64 board.ramOrigin
    textEnd := BitVec.ofNat 64 (board.ramOrigin + 0x1000)
    rodataStart := BitVec.ofNat 64 (board.ramOrigin + 0x1000)
    rodataEnd := BitVec.ofNat 64 (board.ramOrigin + 0x2000)
    dataStart := BitVec.ofNat 64 (board.ramOrigin + 0x2000)
    dataEnd := BitVec.ofNat 64 (board.ramOrigin + 0x3000)
    bssStart := BitVec.ofNat 64 (board.ramOrigin + 0x3000)
    bssEnd := BitVec.ofNat 64 (board.ramOrigin + 0x4000)
    stackBottom := BitVec.ofNat 64 (board.ramOrigin + 0x4000)
    stackTop := BitVec.ofNat 64 (board.ramOrigin + 0x4000) + 0x100000#64
    endAddr := BitVec.ofNat 64 (board.ramOrigin + 0x4000)
    heapEnd := BitVec.ofNat 64 (board.ramOrigin + 0x4000) + 0x100000#64
    runtimeHeapStart := BitVec.ofNat 64 (board.ramOrigin + 0x4000) + 0x100000#64
    runtimeHeapEnd := BitVec.ofNat 64 (board.ramOrigin + 0x4000) + 0x1100000#64
    text_start := by cases board <;> rfl
    aligned := by cases board <;> simp [Board.ramOrigin, pageSize]
    order := by cases board <;> simp [Board.ramOrigin]
    fits := by cases board <;> decide
    stack_bottom := rfl
    stack_top := rfl
    heap_end := rfl
    runtime_heap_start := rfl
    runtime_heap_end := rfl }

end Wari
