import Wari.Meeting
import Wari.Lib.Slice

/-!
# The console

What a tenant prints goes through the UART driver, a WASM module like any other: `fd_write`
copies the text into the driver's memory, and the driver hands it to the transmitter byte by
byte, each after it has seen the transmitter empty. The kernel lets the driver read and write
eight bytes of registers. With registers one byte apart the line status is among them. With
registers four bytes apart it is not: the read is refused, the refusal reads as "empty", and
the driver never waits (`console_whole_iff`).
-/

namespace Wari

open Lib (Bytes readAt writeAt toLe ofLe)

/-! ## The transmitter

A byte that is handed over waits in a FIFO of 16 until the line takes it. How fast the line is,
and what the status register shows besides "empty", is up to the hardware. Bytes handed to a full
FIFO are lost, as on the chip. -/

/-- The bytes that the transmit FIFO holds. -/
abbrev uartFifoLen : ℕ := 16

/-- `UART_LSR_THRE`: the transmit FIFO is empty. -/
def uartLsrThre : BitVec 8 := 0x20#8

/-- The transmitter of the UART. `handed` and `sent` are records of what happened: every byte
written to the register, and those of them that the FIFO took. -/
structure Uart where
  /-- what it was handed, in order -/
  handed : Bytes
  /-- what of that it took: these bytes go out on the line -/
  sent : Bytes
  /-- how many of them have not gone out yet -/
  waiting : ℕ
  /-- how often a register was read or written -/
  accesses : ℕ

/-- What is up to the hardware: how many bytes the line takes between two accesses, and what the
status register shows besides the bit the driver looks at. -/
structure UartHw where
  /-- how many bytes go out on the line before an access -/
  pace : ℕ → ℕ
  /-- the other bits of the line status at an access -/
  bits : ℕ → BitVec 8

/-- The line never stops for good. Without this the driver's poll would not return, as it has no
bound. -/
def UartHw.Live (hw : UartHw) : Prop := ∀ n, ∃ m, n ≤ m ∧ 0 < hw.pace m

/-- The board the driver is built for. -/
inductive UartPlatform where
  | qemu
  | vf2
  deriving DecidableEq, Repr

namespace UartPlatform

/-- `UART_BASE`. -/
def uartBase : UartPlatform → BitVec 32
  | qemu => 0x10000000#32
  | vf2 => 0x10000000#32

/-- `UART_REG_STRIDE`. -/
def uartRegStride : UartPlatform → BitVec 32
  | qemu => 1#32
  | vf2 => 4#32

/-- The address of the line status register, which is register 5. -/
def lsrAddr (plat : UartPlatform) : BitVec 32 := plat.uartBase + 5#32 * plat.uartRegStride

/-- The address of the transmit holding register, which is register 0. -/
def thrAddr (plat : UartPlatform) : BitVec 32 := plat.uartBase + 0#32 * plat.uartRegStride

end UartPlatform

namespace Uart

/-- The transmitter goes on until the next access. -/
def drain (hw : UartHw) (u : Uart) : Uart :=
  { u with waiting := u.waiting - hw.pace u.accesses, accesses := u.accesses + 1 }

/-- A register is read. The line status shows the hardware's own bits, but for the one that tells
whether the FIFO is empty. -/
def read (hw : UartHw) (plat : UartPlatform) (u : Uart) (addr : BitVec 32) : BitVec 8 × Uart :=
  let bits := hw.bits u.accesses
  let u := u.drain hw
  if addr = plat.lsrAddr then
    (bits &&& ~~~uartLsrThre ||| if u.waiting = 0 then uartLsrThre else 0#8, u)
  else (bits, u)

/-- A register is written. A byte for which the FIFO has no room is lost. -/
def write (hw : UartHw) (plat : UartPlatform) (u : Uart) (addr : BitVec 32) (val : BitVec 8) :
    Uart :=
  let u := u.drain hw
  if addr = plat.thrAddr then
    if u.waiting < uartFifoLen then
      { u with handed := u.handed ++ [val], sent := u.sent ++ [val], waiting := u.waiting + 1 }
    else { u with handed := u.handed ++ [val] }
  else u

end Uart

/-! ## The driver's host functions

The kernel checks the capability and the address of every access, and an access outside of the
eight bytes is refused. What the driver makes of a refused read is the crux of this module. -/

/-- `UART_MMIO_BASE`. -/
def uartMmioBase : ℕ := 0x10000000
/-- `UART_MMIO_LEN`. -/
def uartMmioLen : ℕ := 8

/-- Is `addr` inside the register window that the driver was given? -/
def isUartMmioAddr (addr : ℕ) : Bool :=
  decide (uartMmioBase ≤ addr) && decide (addr < uartMmioBase + uartMmioLen)

section Driver

variable (hw : UartHw) (plat : UartPlatform) (caps : CapState)

/-- Does the driver hold the receiving side of the UART endpoint? -/
def CapState.checkUart : Except ℤ Unit :=
  caps.checkCap (procIdTier2Uart, slotPrimary) .endpoint capRightRead

/-- Read a register for the driver. A refusal is all ones, which a driver cannot tell from a
register that reads so. -/
def hostMmioRead8 (u : Uart) (addr : BitVec 32) : BitVec 32 × Uart :=
  match caps.checkUart with
  | .error _ => (BitVec.allOnes 32, u)
  | .ok () =>
    if isUartMmioAddr addr.toNat then
      let (byte, u) := u.read hw plat addr
      (byte.setWidth 32, u)
    else (BitVec.allOnes 32, u)

/-- Write a register for the driver: the capability is checked first, then the window. -/
def hostMmioWrite8 (u : Uart) (addr val : BitVec 32) : ℤ × Uart :=
  match caps.checkUart with
  | .error _ => (ePerm, u)
  | .ok () =>
    if isUartMmioAddr addr.toNat then (0, u.write hw plat addr (val.setWidth 8)) else (eInval, u)

/-! ## The driver

The driver is a WASM module of its own and polls without a bound. The loops here have fuel, and
`putBytes_ends` says that on a line that goes on they need only finitely much. -/

/-- Poll the line status until the transmitter is empty. `none` is a driver that still polls after
`fuel` reads, not a driver that gave up. -/
def pollLsr : ℕ → Uart → Option Uart
  | 0, _ => none
  | fuel + 1, u =>
    let (word, u) := hostMmioRead8 hw plat caps u plat.lsrAddr
    let lsr := word.setWidth 8
    if lsr &&& uartLsrThre ≠ 0#8 then some u else pollLsr fuel u

/-- Wait until the FIFO is empty, and hand over one byte. -/
def putByte (fuel : ℕ) (b : BitVec 8) (u : Uart) : Option (ℤ × Uart) := do
  let u ← pollLsr hw plat caps fuel u
  return hostMmioWrite8 hw plat caps u plat.thrAddr (b.setWidth 32)

/-- Hand over one byte after another, up to the first that is refused. -/
def putBytes (fuel : ℕ) : Bytes → Uart → Option (ℤ × Uart)
  | [], u => some (0, u)
  | b :: bs, u => do
    let (r, u) ← putByte hw plat caps fuel b u
    if r ≠ 0 then return (r, u)
    putBytes fuel bs u

/-- The driver's `write`: byte by byte, and the answer is the length, or the first error. -/
def driverWrite (fuel : ℕ) (buf : Bytes) (u : Uart) : Option (ℤ × Uart) := do
  let (r, u) ← putBytes hw plat caps fuel buf u
  if r ≠ 0 then return (r, u)
  return ((BitVec.ofNat 32 buf.length).toInt, u)

/-! ## Printing

A text goes from the memory of a tenant into that of the driver, and from there byte by byte to
the transmitter. -/

/-- `SCRATCH_OFFSET`. -/
def scratchOffset : ℕ := 0x80000

/-- The driver, once it is installed, with the memory it exports, and the transmitter behind it.
-/
structure Console where
  driver : Option (Option Bytes)
  uart : Uart

/-- Push bytes to the UART through the driver. -/
def tier2UartWrite (fuel : ℕ) (console : Console) (bytes : Bytes) :
    Option (Except KernelError ℕ × Console) :=
  match console.driver with
  | none => some (.error .driverError, console)
  | some none => some (.error .driverError, console)
  | some (some memory) =>
    match writeAt memory scratchOffset bytes with
    | none => some (.error .driverError, console)
    | some memory =>
      match readAt memory scratchOffset bytes.length with
      | none => some (.error .driverError, { console with driver := some (some memory) })
      | some buf => do
        let (r, u) ← driverWrite hw plat caps fuel buf console.uart
        let console : Console := ⟨some (some memory), u⟩
        if r < 0 then return (.error .driverError, console)
        return (.ok r.toNat, console)

end Driver

/-- `WASI_ESUCCESS`. -/
def wasiEsuccess : BitVec 32 := 0#32
/-- `WASI_EBADF`. -/
def wasiEbadf : BitVec 32 := 8#32
/-- `WASI_EFAULT`. -/
def wasiEfault : BitVec 32 := 21#32
/-- `WASI_EIO`. -/
def wasiEio : BitVec 32 := 29#32
/-- `WASI_EPERM`. -/
def wasiEperm : BitVec 32 := 63#32

/-- `FD_WRITE_MAX`. -/
def fdWriteMax : ℕ := 256

namespace Kernel

/-- Write a count into the caller's memory. An address that leads out of it is a fault. -/
def writeNwritten (k : Kernel) (p : Proc) (nwrittenPtr : BitVec 32) (count : ℕ) :
    BitVec 32 × Kernel :=
  match k.writeMemory p nwrittenPtr (toLe 4 count) with
  | .error _ => (wasiEfault, k)
  | .ok k => (wasiEsuccess, k)

/-- Print the first text of the caller's list. The others are ignored, and so is what is beyond
256 bytes, as in the source. -/
def hostFdWrite (hw : UartHw) (plat : UartPlatform) (fuel : ℕ) (k : Kernel) (console : Console)
    (p : Proc) (fd iovsPtr iovsLen nwrittenPtr : BitVec 32) :
    Option (BitVec 32 × Kernel × Console) :=
  match k.caps.checkCap (p, slotPrimary) .endpoint capRightWrite with
  | .error _ => some (wasiEperm, k, console)
  | .ok () =>
    if fd ≠ 1#32 then some (wasiEbadf, k, console)
    else if iovsLen = 0#32 then
      let (errno, k) := k.writeNwritten p nwrittenPtr 0
      some (errno, k, console)
    else
      match k.memoryOf p with
      | none => some (wasiEfault, k, console)
      | some memory =>
        match readAt memory iovsPtr.toNat 8 with
        | none => some (wasiEfault, k, console)
        | some iov =>
          let bufOffset := ofLe (iov.take 4)
          let bufLen := ofLe (iov.drop 4)
          match readAt memory bufOffset (min bufLen fdWriteMax) with
          | none => some (wasiEfault, k, console)
          | some bytes => do
            let (written, console) ← tier2UartWrite hw plat k.caps fuel console bytes
            match written with
            | .error _ => return (wasiEio, k, console)
            | .ok n =>
              let (errno, k) := k.writeNwritten p nwrittenPtr n
              return (errno, k, console)

/-- How `proc_exit(code)` ends the caller. Without the cap it ends all the same, as the call must
not return, but with -1. -/
def hostProcExit (k : Kernel) (p : Proc) (code : BitVec 32) : Ending :=
  match k.caps.checkCap (p, slotExit) .endpoint capRightWrite with
  | .error _ => .exited (BitVec.allOnes 32)
  | .ok () => .exited code

end Kernel

/-! ## Waiting for the transmitter

With registers one byte apart the status register is read and the wait is real. With registers
four bytes apart it lies outside of the window, and the refusal, all ones, has the "empty" bit
set. -/

section Poll

variable {hw : UartHw} {plat : UartPlatform} {caps : CapState} {u u' : Uart} {fuel : ℕ}

theorem lsr_empty (bits : BitVec 8) :
    (bits &&& ~~~uartLsrThre ||| uartLsrThre) &&& uartLsrThre ≠ 0#8 := by
  revert bits
  decide

theorem lsr_busy (bits : BitVec 8) : (bits &&& ~~~uartLsrThre ||| 0#8) &&& uartLsrThre = 0#8 := by
  revert bits
  decide

/-- Without the cap every read says that the transmitter is empty. -/
theorem pollLsr_refused {e : ℤ} (hcap : caps.checkUart = .error e) (fuel : ℕ) (u : Uart) :
    pollLsr hw plat caps (fuel + 1) u = some u := by
  simp [pollLsr, hostMmioRead8, hcap, uartLsrThre]

/-- Registers four bytes apart have their line status outside of the window. -/
theorem pollLsr_vf2 (fuel : ℕ) (u : Uart) : pollLsr hw .vf2 caps (fuel + 1) u = some u := by
  rcases hcap : caps.checkUart with e | ⟨⟩
  · exact pollLsr_refused hcap fuel u
  · have hout : isUartMmioAddr (UartPlatform.lsrAddr .vf2).toNat = false := by decide
    simp [pollLsr, hostMmioRead8, hcap, hout, uartLsrThre]

/-- One poll, where the line status can be read. -/
theorem pollLsr_qemu (hcap : caps.checkUart = .ok ()) (fuel : ℕ) (u : Uart) :
    pollLsr hw .qemu caps (fuel + 1) u =
      if (u.drain hw).waiting = 0 then some (u.drain hw)
      else pollLsr hw .qemu caps fuel (u.drain hw) := by
  have hin : isUartMmioAddr (UartPlatform.lsrAddr .qemu).toNat = true := by decide
  rw [pollLsr]
  simp only [hostMmioRead8, hcap, hin, if_true, Uart.read]
  by_cases hempty : (u.drain hw).waiting = 0
  · simp only [hempty, if_true, BitVec.setWidth_setWidth_of_le _ (show 8 ≤ 32 by decide),
      BitVec.setWidth_eq]
    rw [if_pos (lsr_empty _)]
  · simp only [hempty, if_false, BitVec.setWidth_setWidth_of_le _ (show 8 ≤ 32 by decide),
      BitVec.setWidth_eq]
    rw [if_neg (not_not.mpr (lsr_busy _))]

/-- **Once the driver has waited** the transmitter is empty, which is what the bit it waits for
stands for on QEMU. -/
theorem pollLsr_empty (hcap : caps.checkUart = .ok ())
    (h : pollLsr hw .qemu caps fuel u = some u') :
    u'.waiting = 0 ∧ u'.handed = u.handed ∧ u'.sent = u.sent := by
  induction fuel generalizing u with
  | zero => cases h
  | succ fuel ih =>
    rw [pollLsr_qemu hcap] at h
    split at h
    · rename_i hempty
      obtain rfl := Option.some.inj h
      exact ⟨hempty, rfl, rfl⟩
    · have hrest := ih h
      exact hrest

/-- Waiting hands nothing over, however long it takes. -/
theorem pollLsr_same (h : pollLsr hw plat caps fuel u = some u') :
    u'.handed = u.handed ∧ u'.sent = u.sent := by
  rcases hcap : caps.checkUart with e | ⟨⟩
  · cases fuel with
    | zero => cases h
    | succ fuel =>
      rw [pollLsr_refused hcap] at h
      obtain rfl := Option.some.inj h
      exact ⟨rfl, rfl⟩
  · cases plat with
    | qemu => exact (pollLsr_empty hcap h).2
    | vf2 =>
      cases fuel with
      | zero => cases h
      | succ fuel =>
        rw [pollLsr_vf2] at h
        obtain rfl := Option.some.inj h
        exact ⟨rfl, rfl⟩

/-- The line goes on, so the wait comes to its end. -/
theorem pollLsr_ends (hlive : hw.Live) (plat : UartPlatform) (caps : CapState) (u : Uart) :
    ∃ fuel₀ u', ∀ fuel, fuel₀ ≤ fuel → pollLsr hw plat caps fuel u = some u' := by
  have hfirst : (∀ fuel, pollLsr hw plat caps (fuel + 1) u = some u) →
      ∃ fuel₀ u', ∀ fuel, fuel₀ ≤ fuel → pollLsr hw plat caps fuel u = some u' := by
    intro h
    refine ⟨1, u, fun fuel hfuel => ?_⟩
    obtain ⟨fuel, rfl⟩ := Nat.exists_eq_add_of_le' hfuel
    exact h fuel
  rcases hcap : caps.checkUart with e | ⟨⟩
  · exact hfirst fun fuel => pollLsr_refused hcap fuel u
  · cases plat with
    | vf2 => exact hfirst fun fuel => pollLsr_vf2 fuel u
    | qemu =>
      clear hfirst
      -- on how many bytes wait, and then on when the next one goes out
      induction hw₀ : u.waiting using Nat.strongRecOn generalizing u with
      | ind n ih =>
        obtain ⟨m, hm, hpos⟩ := hlive u.accesses
        induction hd : m - u.accesses generalizing u with
        | zero =>
          have hacc : u.accesses = m := by omega
          have hdrain : (u.drain hw).waiting = n - hw.pace m := by
            rw [Uart.drain, hw₀, hacc]
          by_cases hempty : (u.drain hw).waiting = 0
          · refine ⟨1, u.drain hw, fun fuel hfuel => ?_⟩
            obtain ⟨fuel, rfl⟩ := Nat.exists_eq_add_of_le' hfuel
            rw [pollLsr_qemu hcap, if_pos hempty]
          · obtain ⟨fuel₀, u', hpoll⟩ := ih _ (by omega) (u.drain hw) rfl
            refine ⟨fuel₀ + 1, u', fun fuel hfuel => ?_⟩
            obtain ⟨fuel, rfl⟩ :=
              Nat.exists_eq_add_of_le' (Nat.le_trans (Nat.le_add_left _ _) hfuel)
            rw [pollLsr_qemu hcap, if_neg hempty]
            exact hpoll fuel (by omega)
        | succ d ihd =>
          have hnext : (u.drain hw).accesses = u.accesses + 1 := rfl
          have hle : (u.drain hw).waiting ≤ n := by
            rw [Uart.drain, ← hw₀]
            exact Nat.sub_le _ _
          by_cases hempty : (u.drain hw).waiting = 0
          · refine ⟨1, u.drain hw, fun fuel hfuel => ?_⟩
            obtain ⟨fuel, rfl⟩ := Nat.exists_eq_add_of_le' hfuel
            rw [pollLsr_qemu hcap, if_pos hempty]
          · have hrest : ∃ fuel₀ u', ∀ fuel, fuel₀ ≤ fuel →
                pollLsr hw .qemu caps fuel (u.drain hw) = some u' := by
              rcases Nat.lt_or_eq_of_le hle with hlt | heq
              · exact ih _ hlt (u.drain hw) rfl
              · exact ihd (u.drain hw) heq (by omega) (by omega)
            obtain ⟨fuel₀, u', hpoll⟩ := hrest
            refine ⟨fuel₀ + 1, u', fun fuel hfuel => ?_⟩
            obtain ⟨fuel, rfl⟩ :=
              Nat.exists_eq_add_of_le' (Nat.le_trans (Nat.le_add_left _ _) hfuel)
            rw [pollLsr_qemu hcap, if_neg hempty]
            exact hpoll fuel (by omega)

end Poll

/-! ## Handing over

What a text does to the transmitter, byte by byte: how much was handed over, and how much of it
was taken. -/

section Hand

variable {hw : UartHw} {plat : UartPlatform} {caps : CapState} {u u' : Uart} {fuel : ℕ} {r : ℤ}
  {b : BitVec 8} {buf : Bytes}

/-- A byte that is handed over is taken where the FIFO has room. -/
theorem Uart.write_thr (hw : UartHw) (plat : UartPlatform) (u : Uart) (b : BitVec 8) :
    (u.write hw plat plat.thrAddr b).handed = u.handed ++ [b] ∧
      (u.write hw plat plat.thrAddr b).sent =
        if (u.drain hw).waiting < uartFifoLen then u.sent ++ [b] else u.sent := by
  rw [Uart.write]
  simp only [if_true]
  split
  · exact ⟨rfl, rfl⟩
  · exact ⟨rfl, rfl⟩

/-- The driver may write the transmit register on both boards, as the register lies in the window.
-/
theorem hostMmioWrite8_thr (hcap : caps.checkUart = .ok ()) (u : Uart) (b : BitVec 8) :
    hostMmioWrite8 hw plat caps u plat.thrAddr (b.setWidth 32) =
      (0, u.write hw plat plat.thrAddr b) := by
  have hin : isUartMmioAddr plat.thrAddr.toNat = true := by
    cases plat <;> decide
  simp only [hostMmioWrite8, hcap, hin, if_true,
    BitVec.setWidth_setWidth_of_le _ (show 8 ≤ 32 by decide), BitVec.setWidth_eq]

/-- Without the capability nothing is handed over: the wait ends, and the write is refused. -/
theorem putByte_refused {e : ℤ} (hcap : caps.checkUart = .error e)
    (h : putByte hw plat caps fuel b u = some (r, u')) : r = ePerm ∧ u' = u := by
  obtain ⟨u₁, hpoll, hput⟩ := Option.bind_eq_some_iff.mp h
  obtain rfl : u₁ = u := by
    cases fuel with
    | zero => cases hpoll
    | succ fuel =>
      rw [pollLsr_refused hcap] at hpoll
      exact (Option.some.inj hpoll).symm
  simp only [hostMmioWrite8, hcap] at hput
  cases hput
  exact ⟨rfl, rfl⟩

/-- **One byte**: it is handed over, and where the driver waits it is taken, since it waits until
the FIFO is empty. -/
theorem putByte_handed (hcap : caps.checkUart = .ok ())
    (h : putByte hw plat caps fuel b u = some (r, u')) :
    r = 0 ∧ u'.handed = u.handed ++ [b] ∧ (plat = .qemu → u'.sent = u.sent ++ [b]) := by
  obtain ⟨u₁, hpoll, hput⟩ := Option.bind_eq_some_iff.mp h
  rw [hostMmioWrite8_thr hcap] at hput
  cases hput
  obtain ⟨hhanded, hsent⟩ := u₁.write_thr hw plat b
  refine ⟨rfl, by rw [hhanded, (pollLsr_same hpoll).1], fun hplat => ?_⟩
  subst hplat
  have hempty := (pollLsr_empty hcap hpoll).1
  have hroom : (u₁.drain hw).waiting < uartFifoLen := by
    rw [Uart.drain, hempty, Nat.zero_sub]
    exact Nat.zero_lt_succ 15
  rw [hsent, if_pos hroom, (pollLsr_same hpoll).2]

/-- **A text.** All of it is handed over, in order, and with registers one byte apart all of it is
taken. -/
theorem putBytes_handed (hcap : caps.checkUart = .ok ())
    (h : putBytes hw plat caps fuel buf u = some (r, u')) :
    r = 0 ∧ u'.handed = u.handed ++ buf ∧ (plat = .qemu → u'.sent = u.sent ++ buf) := by
  induction buf generalizing u with
  | nil =>
    cases h
    exact ⟨rfl, (List.append_nil _).symm, fun _ => (List.append_nil _).symm⟩
  | cons b bs ih =>
    obtain ⟨⟨r₁, u₁⟩, hbyte, hrest⟩ := Option.bind_eq_some_iff.mp h
    obtain ⟨rfl, hhanded, hsent⟩ := putByte_handed hcap hbyte
    obtain ⟨hr, hhanded', hsent'⟩ := ih hrest
    refine ⟨hr, ?_, fun hplat => ?_⟩
    · rw [hhanded', hhanded, List.append_assoc, List.singleton_append]
    · rw [hsent' hplat, hsent hplat, List.append_assoc, List.singleton_append]

/-- Without the cap the driver stops at the first byte. -/
theorem putBytes_refused {e : ℤ} (hcap : caps.checkUart = .error e)
    (h : putBytes hw plat caps fuel buf u = some (r, u')) :
    u' = u ∧ (buf ≠ [] → r = ePerm) := by
  cases buf with
  | nil =>
    cases h
    exact ⟨rfl, fun hne => (hne rfl).elim⟩
  | cons b bs =>
    obtain ⟨⟨r₁, u₁⟩, hbyte, hrest⟩ := Option.bind_eq_some_iff.mp h
    obtain ⟨rfl, rfl⟩ := putByte_refused hcap hbyte
    have hstop : (ePerm : ℤ) ≠ 0 := by decide
    simp only [if_pos hstop] at hrest
    cases hrest
    exact ⟨rfl, fun _ => rfl⟩

theorem putByte_ends (hlive : hw.Live) (plat : UartPlatform) (caps : CapState) (b : BitVec 8)
    (u : Uart) : ∃ fuel₀ out, ∀ fuel, fuel₀ ≤ fuel → putByte hw plat caps fuel b u = some out := by
  obtain ⟨fuel₀, u', hpoll⟩ := pollLsr_ends hlive plat caps u
  refine ⟨fuel₀, hostMmioWrite8 hw plat caps u' plat.thrAddr (b.setWidth 32), fun fuel hfuel => ?_⟩
  rw [putByte, hpoll fuel hfuel]
  rfl

/-- **Every text comes to its end**, be it handed over or refused: each byte waits for as long as
the hardware takes, and no longer. -/
theorem putBytes_ends (hlive : hw.Live) (plat : UartPlatform) (caps : CapState) (buf : Bytes)
    (u : Uart) :
    ∃ fuel₀ out, ∀ fuel, fuel₀ ≤ fuel → putBytes hw plat caps fuel buf u = some out := by
  induction buf generalizing u with
  | nil => exact ⟨0, (0, u), fun _ _ => rfl⟩
  | cons b bs ih =>
    obtain ⟨fuel₁, ⟨r₁, u₁⟩, hbyte⟩ := putByte_ends hlive plat caps b u
    by_cases hr : r₁ = 0
    · obtain ⟨fuel₂, out, hrest⟩ := ih u₁
      refine ⟨max fuel₁ fuel₂, out, fun fuel hfuel => ?_⟩
      rw [putBytes, hbyte fuel (Nat.le_trans (Nat.le_max_left _ _) hfuel)]
      simp only [Option.bind_eq_bind, Option.bind_some, hr, ne_eq, not_true_eq_false, if_false]
      exact hrest fuel (Nat.le_trans (Nat.le_max_right _ _) hfuel)
    · refine ⟨fuel₁, (r₁, u₁), fun fuel hfuel => ?_⟩
      rw [putBytes, hbyte fuel hfuel]
      simp only [Option.bind_eq_bind, Option.bind_some, ne_eq, hr, not_false_eq_true, if_true]
      rfl

end Hand

/-! ## Which texts are whole

The FIFO may be full when the driver starts, so a driver that does not wait loses a byte of any
text that has one. -/

section Whole

variable {hw : UartHw} {plat : UartPlatform} {caps : CapState} {u u' : Uart} {fuel : ℕ} {r : ℤ}
  {b : BitVec 8} {buf : Bytes}

/-- A byte is taken at most once, and a byte that finds the FIFO full is not taken at all. -/
theorem putByte_sent_le (hcap : caps.checkUart = .ok ())
    (h : putByte hw plat caps fuel b u = some (r, u')) :
    u'.sent.length ≤ u.sent.length + 1 := by
  obtain ⟨u₁, hpoll, hput⟩ := Option.bind_eq_some_iff.mp h
  rw [hostMmioWrite8_thr hcap] at hput
  cases hput
  rw [(u₁.write_thr hw plat b).2, ← (pollLsr_same hpoll).2]
  split
  · rw [List.length_append, List.length_singleton]
  · exact Nat.le_succ _

theorem putBytes_sent_le (hcap : caps.checkUart = .ok ())
    (h : putBytes hw plat caps fuel buf u = some (r, u')) :
    u'.sent.length ≤ u.sent.length + buf.length := by
  induction buf generalizing u with
  | nil =>
    cases h
    exact Nat.le_refl _
  | cons b bs ih =>
    obtain ⟨⟨r₁, u₁⟩, hbyte, hrest⟩ := Option.bind_eq_some_iff.mp h
    obtain ⟨rfl, -⟩ := putByte_handed hcap hbyte
    have hfirst := putByte_sent_le hcap hbyte
    have hothers := ih hrest
    rw [List.length_cons]
    omega

/-- Hardware that has just begun to send a full FIFO. -/
def uartHwBusy : UartHw := ⟨fun n => if n = 0 then 0 else 1, fun _ => 0#8⟩

theorem live_uartHwBusy : uartHwBusy.Live := fun n => ⟨n + 1, Nat.le_succ n, Nat.one_pos⟩

/-- A UART with a full FIFO, and with nothing handed over yet. -/
def uartFull : Uart := ⟨[], [], uartFifoLen, 0⟩

/-- A driver that does not wait loses a byte. -/
theorem putBytes_loses (hcap : caps.checkUart = .ok ()) (hbuf : buf ≠ [])
    (h : putBytes uartHwBusy .vf2 caps fuel buf uartFull = some (r, u')) :
    u'.sent.length < buf.length := by
  cases buf with
  | nil => exact (hbuf rfl).elim
  | cons b bs =>
    obtain ⟨⟨r₁, u₁⟩, hbyte, hrest⟩ := Option.bind_eq_some_iff.mp h
    obtain ⟨u₀, hpoll, hput⟩ := Option.bind_eq_some_iff.mp hbyte
    obtain rfl : u₀ = uartFull := by
      cases fuel with
      | zero => cases hpoll
      | succ fuel =>
        rw [pollLsr_vf2] at hpoll
        exact (Option.some.inj hpoll).symm
    rw [hostMmioWrite8_thr hcap] at hput
    cases hput
    have hlost := (uartFull.write_thr uartHwBusy .vf2 b).2
    have hothers := putBytes_sent_le hcap hrest
    rw [hlost, if_neg (by decide), uartFull, List.length_nil] at hothers
    rw [List.length_cons]
    omega

/-- **Which texts are whole**: with registers one byte apart every text goes out as it is,
whatever the pace of the line. With registers four bytes apart no text is safe, but the empty
one. -/
theorem console_whole_iff (hcap : caps.checkUart = .ok ()) (plat : UartPlatform) (buf : Bytes) :
    (∀ hw : UartHw, hw.Live → ∀ u : Uart, u.waiting ≤ uartFifoLen →
      ∃ fuel r u', driverWrite hw plat caps fuel buf u = some (r, u') ∧
        u'.sent = u.sent ++ buf) ↔ plat = .qemu ∨ buf = [] := by
  constructor
  · intro h
    by_contra hnot
    obtain ⟨hplat, hbuf⟩ := not_or.mp hnot
    obtain rfl : plat = .vf2 := by
      cases plat with
      | qemu => exact (hplat rfl).elim
      | vf2 => rfl
    obtain ⟨fuel, r, u', hwrite, hsent⟩ := h uartHwBusy live_uartHwBusy uartFull (Nat.le_refl _)
    obtain ⟨⟨r₁, u₁⟩, hput, hret⟩ := Option.bind_eq_some_iff.mp hwrite
    obtain rfl : u₁ = u' := by
      obtain ⟨rfl, -⟩ := putBytes_handed hcap hput
      cases hret
      rfl
    have hlost := putBytes_loses hcap hbuf hput
    rw [hsent, uartFull, List.nil_append] at hlost
    exact Nat.lt_irrefl _ hlost
  · intro h hw hlive u _
    obtain ⟨fuel, ⟨r, u'⟩, hput⟩ := putBytes_ends hlive plat caps buf u
    have hput := hput fuel (Nat.le_refl _)
    obtain ⟨rfl, -, hsent⟩ := putBytes_handed hcap hput
    refine ⟨fuel, (BitVec.ofNat 32 buf.length).toInt, u', ?_, ?_⟩
    · rw [driverWrite, hput]
      rfl
    · rcases h with hplat | rfl
      · exact hsent hplat
      · cases hput
        exact (List.append_nil _).symm

/-- Boot gives the driver the endpoint that every register access asks for. -/
theorem checkUart_bootState (board : Board) : (bootState board).checkUart = .ok () := by
  cases board <;> rfl

/-- As the kernel boots, the condition is not met: on the VisionFive 2 a newline can be lost. -/
theorem console_whole_iff_booted :
    ¬ ∀ hw : UartHw, hw.Live → ∀ u : Uart, u.waiting ≤ uartFifoLen →
      ∃ fuel r u', driverWrite hw .vf2 (bootState .vf2) fuel [0x0a#8] u = some (r, u') ∧
        u'.sent = u.sent ++ [0x0a#8] := by
  rw [console_whole_iff (checkUart_bootState .vf2) .vf2 [0x0a#8]]
  simp

end Whole

/-! ## Printing

What one call of the driver hands over, as a relation between the console before it and after. -/

/-- The driver is installed, with room for a text. -/
def Console.Ready (console : Console) : Prop :=
  ∃ memory, console.driver = some (some memory) ∧ scratchOffset + fdWriteMax ≤ memory.length

section Print

variable {hw : UartHw} {plat : UartPlatform} {caps : CapState} {console console' : Console}
  {fuel : ℕ} {bytes : Bytes} {written : Except KernelError ℕ}

/-- The text is handed over in order, and on QEMU it is sent as well. -/
structure Console.Prints (plat : UartPlatform) (console console' : Console) (text : Bytes) :
    Prop where
  handed : console'.uart.handed = console.uart.handed ++ text
  sent : plat = .qemu → console'.uart.sent = console.uart.sent ++ text
  ready : console.Ready → console'.Ready

theorem Console.Prints.nothing (plat : UartPlatform) (console : Console) :
    Console.Prints plat console console [] :=
  ⟨(List.append_nil _).symm, fun _ => (List.append_nil _).symm, id⟩

theorem toInt_length {n : ℕ} (h : n ≤ fdWriteMax) : (BitVec.ofNat 32 n).toInt = n := by
  have hn : n ≤ 256 := h
  rw [BitVec.toInt_eq_toNat_of_lt, BitVec.toNat_ofNat, Nat.mod_eq_of_lt (by omega)]
  rw [BitVec.toNat_ofNat, Nat.mod_eq_of_lt (by omega)]
  omega

/-- **The driver's answer** is true: either all of the text was handed over or nothing. -/
theorem tier2UartWrite_prints (hlen : bytes.length ≤ fdWriteMax)
    (h : tier2UartWrite hw plat caps fuel console bytes = some (written, console')) :
    written = .ok bytes.length ∧ Console.Prints plat console console' bytes ∨
      (∃ e, written = .error e) ∧ Console.Prints plat console console' [] ∧
        (console.Ready → caps.checkUart ≠ .ok ()) := by
  have hidle : ∀ {e : KernelError}, (console.Ready → False) →
      some (Except.error e, console) = some (written, console') →
      written = .ok bytes.length ∧ Console.Prints plat console console' bytes ∨
        (∃ e, written = .error e) ∧ Console.Prints plat console console' [] ∧
          (console.Ready → caps.checkUart ≠ .ok ()) := by
    intro e hno heq
    obtain ⟨rfl, rfl⟩ := Prod.mk.inj (Option.some.inj heq)
    exact .inr ⟨⟨e, rfl⟩, .nothing plat console, fun hready => (hno hready).elim⟩
  rw [tier2UartWrite] at h
  split at h
  · rename_i hdriver
    refine hidle ?_ h
    rintro ⟨memory, hmem, -⟩
    rw [hdriver] at hmem
    cases hmem
  · rename_i hdriver
    refine hidle ?_ h
    rintro ⟨memory, hmem, -⟩
    rw [hdriver] at hmem
    cases hmem
  · rename_i memory hdriver
    have hroom : console.Ready → scratchOffset + fdWriteMax ≤ memory.length := by
      rintro ⟨memory', hmem, hle⟩
      rw [hdriver] at hmem
      obtain rfl := Option.some.inj (Option.some.inj hmem)
      exact hle
    split at h
    · rename_i hwrite
      refine hidle (fun hready => ?_) h
      have hsome := Lib.writeAt_isSome.mpr
        (Nat.le_trans (Nat.add_le_add_left hlen scratchOffset) (hroom hready))
      rw [hwrite] at hsome
      cases hsome
    · rename_i memory' hwrite
      have hready : ∀ u, console.Ready → Console.Ready ⟨some (some memory'), u⟩ := by
        intro u hready
        refine ⟨memory', rfl, ?_⟩
        rw [Lib.length_writeAt hwrite]
        exact hroom hready
      rw [Lib.readAt_writeAt hwrite] at h
      simp only at h
      obtain ⟨⟨r, u⟩, hdrive, hret⟩ := Option.bind_eq_some_iff.mp h
      obtain ⟨⟨r₁, u₁⟩, hput, hans⟩ := Option.bind_eq_some_iff.mp hdrive
      rcases hcap : caps.checkUart with e | ⟨⟩
      · -- refused, unless there was nothing to print
        obtain ⟨rfl, hrefused⟩ := putBytes_refused hcap hput
        by_cases hbytes : bytes = []
        · subst hbytes
          cases hput
          cases hans
          cases hret
          exact .inl ⟨rfl, (List.append_nil _).symm, fun _ => (List.append_nil _).symm, hready _⟩
        · obtain rfl := hrefused hbytes
          cases hans
          cases hret
          exact .inr ⟨⟨_, rfl⟩, ⟨(List.append_nil _).symm, fun _ => (List.append_nil _).symm,
            hready _⟩, fun _ hok => (by cases hok)⟩
      · obtain ⟨rfl, hhanded, hsent⟩ := putBytes_handed hcap hput
        cases hans
        rw [toInt_length hlen, if_neg (Int.not_lt.mpr (Int.natCast_nonneg _))] at hret
        cases hret
        exact .inl ⟨by rw [Int.toNat_natCast], hhanded, hsent, hready _⟩

theorem driverWrite_ends (hlive : hw.Live) (plat : UartPlatform) (caps : CapState) (buf : Bytes)
    (u : Uart) :
    ∃ fuel₀ out, ∀ fuel, fuel₀ ≤ fuel → driverWrite hw plat caps fuel buf u = some out := by
  obtain ⟨fuel₀, ⟨r, u'⟩, hput⟩ := putBytes_ends hlive plat caps buf u
  by_cases hr : r = 0
  · refine ⟨fuel₀, ((BitVec.ofNat 32 buf.length).toInt, u'), fun fuel hfuel => ?_⟩
    simp [driverWrite, hput fuel hfuel, hr]
  · refine ⟨fuel₀, (r, u'), fun fuel hfuel => ?_⟩
    simp [driverWrite, hput fuel hfuel, hr]

/-- **The driver comes to its end.** Hardware that is live empties its FIFO, so that enough fuel
gives the same result from then on. -/
theorem tier2UartWrite_ends (hlive : hw.Live) (plat : UartPlatform) (caps : CapState)
    (console : Console) (bytes : Bytes) :
    ∃ fuel₀ out, ∀ fuel, fuel₀ ≤ fuel →
      tier2UartWrite hw plat caps fuel console bytes = some out := by
  rcases hdriver : console.driver with _ | _ | memory
  · exact ⟨0, _, fun fuel _ => by rw [tier2UartWrite, hdriver]⟩
  · exact ⟨0, _, fun fuel _ => by rw [tier2UartWrite, hdriver]⟩
  · rcases hwrite : writeAt memory scratchOffset bytes with _ | memory'
    · refine ⟨0, (.error .driverError, console), fun fuel _ => ?_⟩
      simp [tier2UartWrite, hdriver, hwrite]
    · have hread := Lib.readAt_writeAt hwrite
      obtain ⟨fuel₀, ⟨r, u⟩, hdrive⟩ := driverWrite_ends hlive plat caps bytes console.uart
      by_cases hr : r < 0
      · refine ⟨fuel₀, (.error .driverError, ⟨some (some memory'), u⟩), fun fuel hfuel => ?_⟩
        simp [tier2UartWrite, hdriver, hwrite, hread, hdrive fuel hfuel, hr]
      · refine ⟨fuel₀, (.ok r.toNat, ⟨some (some memory'), u⟩), fun fuel hfuel => ?_⟩
        simp [tier2UartWrite, hdriver, hwrite, hread, hdrive fuel hfuel, hr]

end Print

/-! ## What `fd_write` does

The host function answers in the order of its checks: capability, descriptor, the caller's memory,
the driver, and the count it writes back. -/

namespace Kernel

/-- The text a caller asks for: the first of its list, and 256 bytes of it at most. -/
def fdText (k : Kernel) (p : Proc) (iovsPtr : BitVec 32) : Option Bytes := do
  let memory ← k.memoryOf p
  let iov ← readAt memory iovsPtr.toNat 8
  readAt memory (ofLe (iov.take 4)) (min (ofLe (iov.drop 4)) fdWriteMax)

/-- `fd_write` prints `text`, returns `errno`, and leaves the kernel and the console so. Its
fields relate the four: an error before the driver means that nothing was printed, and success
that the text was handed over whole and its length written back. -/
structure FdWritten (plat : UartPlatform) (k : Kernel) (console : Console) (p : Proc)
    (fd iovsPtr iovsLen nwrittenPtr : BitVec 32) (text : Bytes) (errno : BitVec 32) (k' : Kernel)
    (console' : Console) : Prop where
  prints : Console.Prints plat console console' text
  /-- nothing is printed but the text the caller asked for, and only with the cap -/
  licensed : text ≠ [] → k.caps.checkCap (p, slotPrimary) .endpoint capRightWrite = .ok () ∧
    fd = 1#32 ∧ iovsLen ≠ 0#32 ∧ k.fdText p iovsPtr = some text
  /-- on success the caller is told how much was printed, which is all -/
  told : errno = wasiEsuccess →
    k.writeMemory p nwrittenPtr (toLe 4 text.length) = .ok k' ∧
      (iovsLen ≠ 0#32 → k.fdText p iovsPtr = some text)
  /-- on failure nothing was, unless it is that the caller cannot be told -/
  failed : errno ≠ wasiEsuccess → k' = k ∧ (text ≠ [] → errno = wasiEfault ∧
    ∃ e, k.writeMemory p nwrittenPtr (toLe 4 text.length) = .error e)
  /-- where the driver works, nothing else can fail -/
  served : console.Ready → k.caps.checkUart = .ok () →
    k.caps.checkCap (p, slotPrimary) .endpoint capRightWrite = .ok () → fd = 1#32 →
      iovsLen ≠ 0#32 → ∀ asked, k.fdText p iovsPtr = some asked → text = asked

section FdWrite

variable {hw : UartHw} {plat : UartPlatform} {fuel : ℕ} {k k' : Kernel}
  {console console' : Console} {p : Proc} {fd iovsPtr iovsLen nwrittenPtr errno : BitVec 32}

/-- A call that fails before it prints leaves the console and the kernel as they were. -/
theorem FdWritten.refused {errno : BitVec 32} (herrno : errno ≠ wasiEsuccess)
    (hwhy : k.caps.checkCap (p, slotPrimary) .endpoint capRightWrite = .ok () → fd = 1#32 →
      iovsLen ≠ 0#32 → k.fdText p iovsPtr = none) :
    FdWritten plat k console p fd iovsPtr iovsLen nwrittenPtr [] errno k console where
  prints := .nothing plat console
  licensed := fun hne => (hne rfl).elim
  told := fun h => (herrno h).elim
  failed := fun _ => ⟨rfl, fun hne => (hne rfl).elim⟩
  served := by
    intro _ _ hcap hfd hlen asked hasked
    rw [hwhy hcap hfd hlen] at hasked
    cases hasked

/-- The count is delivered, or else the caller's pointer leads out of its memory. -/
theorem writeNwritten_cases (k : Kernel) (p : Proc) (nwrittenPtr : BitVec 32) (count : ℕ) :
    (∃ k', k.writeMemory p nwrittenPtr (toLe 4 count) = .ok k' ∧
        k.writeNwritten p nwrittenPtr count = (wasiEsuccess, k')) ∨
      ∃ e, k.writeMemory p nwrittenPtr (toLe 4 count) = .error e ∧
        k.writeNwritten p nwrittenPtr count = (wasiEfault, k) := by
  rw [writeNwritten]
  rcases k.writeMemory p nwrittenPtr (toLe 4 count) with e | k'
  · exact .inr ⟨e, rfl, rfl⟩
  · exact .inl ⟨k', rfl, rfl⟩

/-- **What a call has done** when it returns: what was printed, what was written to memory, and
which of the two was refused. -/
theorem hostFdWrite_written
    (h : hostFdWrite hw plat fuel k console p fd iovsPtr iovsLen nwrittenPtr =
      some (errno, k', console')) :
    ∃ text, FdWritten plat k console p fd iovsPtr iovsLen nwrittenPtr text errno k' console' := by
  rw [hostFdWrite] at h
  rcases hcap : k.caps.checkCap (p, slotPrimary) .endpoint capRightWrite with e | ⟨⟩
  · rw [hcap] at h
    cases h
    exact ⟨[], .refused (by decide) fun hok => (by rw [hcap] at hok; cases hok)⟩
  rw [hcap] at h
  simp only at h
  split at h
  · rename_i hfd
    cases h
    exact ⟨[], .refused (by decide) fun _ hok => (hfd hok).elim⟩
  split at h
  · rename_i hlen
    cases h
    refine ⟨[], .nothing plat console, fun hne => (hne rfl).elim, fun hok => ?_, fun hbad => ?_,
      fun _ _ _ _ hne => (hne hlen).elim⟩
    · rcases k.writeNwritten_cases p nwrittenPtr 0 with ⟨k₁, hwrite, hout⟩ | ⟨e, hwrite, hout⟩
      · rw [hout]
        exact ⟨hwrite, fun hne => (hne hlen).elim⟩
      · rw [hout] at hok
        cases hok
    · rcases k.writeNwritten_cases p nwrittenPtr 0 with ⟨k₁, hwrite, hout⟩ | ⟨e, hwrite, hout⟩
      · rw [hout] at hbad
        exact (hbad rfl).elim
      · rw [hout]
        exact ⟨rfl, fun hne => (hne rfl).elim⟩
  rename_i hfd hlen
  rw [not_not] at hfd
  split at h
  · rename_i hmem
    cases h
    exact ⟨[], .refused (by decide) fun _ _ _ => by rw [fdText, hmem]; rfl⟩
  rename_i memory hmem
  split at h
  · rename_i hiov
    cases h
    exact ⟨[], .refused (by decide) fun _ _ _ => by simp [fdText, hmem, hiov]⟩
  rename_i iov hiov
  split at h
  · rename_i hbytes
    cases h
    exact ⟨[], .refused (by decide) fun _ _ _ => by simp [fdText, hmem, hiov, hbytes]⟩
  rename_i bytes hbytes
  have hasked : k.fdText p iovsPtr = some bytes := by simp [fdText, hmem, hiov, hbytes]
  have hmax : bytes.length ≤ fdWriteMax := by
    rw [Lib.length_readAt hbytes]
    exact Nat.min_le_right _ _
  obtain ⟨⟨written, console₁⟩, hdrive, hret⟩ := Option.bind_eq_some_iff.mp h
  rcases tier2UartWrite_prints hmax hdrive with ⟨rfl, hprints⟩ | ⟨⟨e, rfl⟩, hprints, hwhy⟩
  · cases hret
    refine ⟨bytes, hprints, fun _ => ⟨hcap, hfd, hlen, hasked⟩, fun hok => ?_, fun hbad => ?_,
      fun _ _ _ _ _ asked h => Option.some.inj (hasked.symm.trans h)⟩
    · rcases k.writeNwritten_cases p nwrittenPtr bytes.length with ⟨k₁, hwrite, hout⟩ | ⟨e, -, hout⟩
      · rw [hout]
        exact ⟨hwrite, fun _ => hasked⟩
      · rw [hout] at hok
        cases hok
    · rcases k.writeNwritten_cases p nwrittenPtr bytes.length with ⟨k₁, -, hout⟩ | ⟨e, hwrite, hout⟩
      · rw [hout] at hbad
        exact (hbad rfl).elim
      · rw [hout]
        exact ⟨rfl, fun _ => ⟨rfl, e, hwrite⟩⟩
  · cases hret
    exact ⟨[], hprints, fun hne => (hne rfl).elim, fun hok => (by cases hok),
      fun _ => ⟨rfl, fun hne => (hne rfl).elim⟩, fun hready huart => (hwhy hready huart).elim⟩

/-- **A call returns**, whatever it is called with: from some amount of fuel on the outcome is
always the same. -/
theorem hostFdWrite_ends (hlive : hw.Live) (plat : UartPlatform) (k : Kernel) (console : Console)
    (p : Proc) (fd iovsPtr iovsLen nwrittenPtr : BitVec 32) :
    ∃ fuel₀ out, ∀ fuel, fuel₀ ≤ fuel →
      hostFdWrite hw plat fuel k console p fd iovsPtr iovsLen nwrittenPtr = some out := by
  rcases hcap : k.caps.checkCap (p, slotPrimary) .endpoint capRightWrite with e | ⟨⟩
  · exact ⟨0, _, fun _ _ => by rw [hostFdWrite, hcap]⟩
  by_cases hfd : fd = 1#32
  swap
  · exact ⟨0, (wasiEbadf, k, console), fun _ _ => by simp [hostFdWrite, hcap, hfd]⟩
  by_cases hlen : iovsLen = 0#32
  · exact ⟨0, ((k.writeNwritten p nwrittenPtr 0).1, (k.writeNwritten p nwrittenPtr 0).2, console),
      fun _ _ => by simp [hostFdWrite, hcap, hfd, hlen]⟩
  have hfault : ∀ {fuel : ℕ}, k.fdText p iovsPtr = none →
      hostFdWrite hw plat fuel k console p fd iovsPtr iovsLen nwrittenPtr =
        some (wasiEfault, k, console) := by
    intro fuel hnone
    rcases hmem : k.memoryOf p with _ | memory
    · simp [hostFdWrite, hcap, hfd, hlen, hmem]
    · rcases hiov : readAt memory iovsPtr.toNat 8 with _ | iov
      · simp [hostFdWrite, hcap, hfd, hlen, hmem, hiov]
      · rcases hbytes : readAt memory (ofLe (iov.take 4)) (min (ofLe (iov.drop 4)) fdWriteMax) with
          _ | bytes
        · simp [hostFdWrite, hcap, hfd, hlen, hmem, hiov, hbytes]
        · simp [fdText, hmem, hiov, hbytes] at hnone
  rcases htext : k.fdText p iovsPtr with _ | bytes
  · exact ⟨0, _, fun _ _ => hfault htext⟩
  · obtain ⟨memory, hmem, hrest⟩ := Option.bind_eq_some_iff.mp htext
    obtain ⟨iov, hiov, hbytes⟩ := Option.bind_eq_some_iff.mp hrest
    obtain ⟨fuel₀, ⟨written, console'⟩, hdrive⟩ :=
      tier2UartWrite_ends hlive plat k.caps console bytes
    rcases written with e | n
    · exact ⟨fuel₀, (wasiEio, k, console'), fun fuel hfuel => by
        simp [hostFdWrite, hcap, hfd, hlen, hmem, hiov, hbytes, hdrive fuel hfuel]⟩
    · exact ⟨fuel₀, ((k.writeNwritten p nwrittenPtr n).1, (k.writeNwritten p nwrittenPtr n).2,
        console'), fun fuel hfuel => by
        simp [hostFdWrite, hcap, hfd, hlen, hmem, hiov, hbytes, hdrive fuel hfuel]⟩

/-- **Printing**: whatever a tenant passes and whatever its memory holds, the call returns, and
what it prints, returns and changes agree. -/
theorem fdWrite_exact (hlive : hw.Live) (plat : UartPlatform) (k : Kernel) (console : Console)
    (p : Proc) (fd iovsPtr iovsLen nwrittenPtr : BitVec 32) :
    ∃ text errno k' console', (∃ fuel₀, ∀ fuel, fuel₀ ≤ fuel →
        hostFdWrite hw plat fuel k console p fd iovsPtr iovsLen nwrittenPtr =
          some (errno, k', console')) ∧
      FdWritten plat k console p fd iovsPtr iovsLen nwrittenPtr text errno k' console' := by
  obtain ⟨fuel₀, ⟨errno, k', console'⟩, hends⟩ :=
    hostFdWrite_ends hlive plat k console p fd iovsPtr iovsLen nwrittenPtr
  obtain ⟨text, hwritten⟩ := hostFdWrite_written (hends fuel₀ (Nat.le_refl _))
  exact ⟨text, errno, k', console', ⟨fuel₀, hends⟩, hwritten⟩

/-- Linear memory with a text in it, behind the vector that names it. -/
def memoryOfHello : Bytes := toLe 4 16 ++ toLe 4 6 ++ toLe 8 0 ++ Lib.ascii "hello\n".toList

/-- As the kernel boots, with a tenant that says hello, a driver that works and a line that is
busy. -/
theorem fdWrite_exact_booted :
    let k := (booted .qemu).setInstance procIdTier1Hello ⟨some memoryOfHello, false, 0⟩
    let console : Console :=
      ⟨some (some (List.replicate (scratchOffset + fdWriteMax) 0#8)), uartFull⟩
    ∃ text errno k' console', ((∃ fuel₀, ∀ fuel, fuel₀ ≤ fuel →
        hostFdWrite uartHwBusy .qemu fuel k console procIdTier1Hello 1#32 0#32 1#32 8#32 =
          some (errno, k', console')) ∧
      FdWritten .qemu k console procIdTier1Hello 1#32 0#32 1#32 8#32 text errno k' console') ∧
      console'.uart.sent = Lib.ascii "hello\n".toList := by
  intro k console
  obtain ⟨text, errno, k', console', hends, hwritten⟩ := fdWrite_exact live_uartHwBusy .qemu k
    console procIdTier1Hello 1#32 0#32 1#32 8#32
  have hready : console.Ready := ⟨_, rfl, Nat.le_of_eq (List.length_replicate ..).symm⟩
  have hasked : k.fdText procIdTier1Hello 0#32 = some (Lib.ascii "hello\n".toList) := by decide
  have htext := hwritten.served hready (checkUart_bootState .qemu) (by decide) rfl (by decide) _
    hasked
  refine ⟨text, errno, k', console', ⟨hends, hwritten⟩, ?_⟩
  rw [hwritten.prints.sent rfl, htext]
  rfl

end FdWrite

end Kernel

end Wari
