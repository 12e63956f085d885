import Mathlib.Data.List.Pairwise
import Mathlib.Logic.Function.Basic
import Wari.Lib.Server
import Wari.Types

/-!
# Windows for accepting

A tenant waits for a connection by calling `socket_accept` again and again. The kernel bounds
that: the first call on a handle opens a window, and a call after the window's end is answered
without the driver. The windows live in a table by handle; what they are for is told by the calls
and their results alone (`windowAfter`).

Ticks are milliseconds of a clock that does not wrap. What the driver returns is arbitrary.
-/

namespace Wari.Accept

/-! ## The calls

Each call of the socket layer is given the driver as it is during the call, so a driver may change
its mind between two calls, be missing, or trap. -/

/-- `ACCEPT_TRACK_SLOTS` -/
abbrev acceptTrackSlots : ℕ := 8

/-- `ACCEPT_DEADLINE_MS` -/
def acceptDeadlineMs : ℕ := 60000

/-- `E_TIMEDOUT` -/
def eTimedout : BitVec 32 := BitVec.ofInt 32 (-7)

/-- Has the budget run out? The subtraction is `saturating_sub`, so that a clock that went back
never expires a window. -/
def deadlineExceeded (firstMs nowMs budgetMs : ℕ) : Bool := decide (budgetMs ≤ nowMs - firstMs)

/-- A call of the kernel to an export of the driver. -/
inductive DriverCall where
  | poll (timestampMs : ℕ)
  | socketCreate (proto : BitVec 32)
  | socketClose (handle : BitVec 32)
  | socketBind (handle ipBe port : BitVec 32)
  | socketListen (handle backlog : BitVec 32)
  | socketAccept (handle : BitVec 32)
  | socketSendCanned (handle : BitVec 32)
  deriving DecidableEq, Repr

/-- What the driver returns to a call, `none` where it traps. -/
abbrev Driver : Type := DriverCall → Option (BitVec 32)

/-- A line that the accept path prints on the console: when a window opens, when it has expired,
and when a connection is accepted. -/
inductive Line where
  | opened (handle : BitVec 32) (t0 : ℕ)
  | expired (handle : BitVec 32) (tickMs t0 : ℕ)
  | accepted (handle : BitVec 32)
  deriving DecidableEq, Repr

/-- What comes of a call: its result, the calls to the driver, and the lines on the console. The
calls are recorded since half of the promise is that the driver is not asked. -/
structure Outcome where
  result : Except KernelError (BitVec 32)
  asked : List DriverCall
  printed : List Line

/-- The tables by handle: the tick of the first accept, and whether the time-out was already told
on the console. -/
structure Windows where
  /-- `ACCEPT_FIRST_MS` -/
  first : Fin acceptTrackSlots → Option ℕ
  /-- `ACCEPT_EXPIRED_LOGGED` -/
  logged : Fin acceptTrackSlots → Bool

/-- The two tables at boot: no handle has a window open, and none has its expiry logged. -/
def Windows.idle : Windows := ⟨fun _ => none, fun _ => false⟩

/-- A call to the driver. It fails if the driver is not installed, or traps. -/
def ask (driver : Option Driver) (call : DriverCall) :
    Except KernelError (BitVec 32) × List DriverCall :=
  match driver with
  | none => (.error .driverError, [])
  | some d =>
    match d call with
    | none => (.error .driverError, [call])
    | some rc => (.ok rc, [call])

/-- A call to the driver, and another one if it does not fail. -/
def askThen (driver : Option Driver) (call next : DriverCall) :
    Except KernelError (BitVec 32 × BitVec 32) × List DriverCall :=
  match ask driver call with
  | (.error e, asked) => (.error e, asked)
  | (.ok rc, asked) =>
    ((ask driver next).1.map fun rc' => (rc, rc'), asked ++ (ask driver next).2)

namespace Windows

/-- Closing a socket or accepting a connection on it clears both entries of the handle; a handle
past the tables has none to clear. -/
def clear (w : Windows) (handle : BitVec 32) : Windows :=
  if h : handle.toNat < acceptTrackSlots then
    ⟨Function.update w.first ⟨handle.toNat, h⟩ none,
      Function.update w.logged ⟨handle.toNat, h⟩ false⟩
  else w

/-- `socket_accept` behind the gate: drive one poll, and ask for a connection. -/
def drive (w : Windows) (driver : Option Driver) (handle : BitVec 32) (tickMs : ℕ)
    (printed : List Line) : Outcome × Windows :=
  match askThen driver (.poll tickMs) (.socketAccept handle) with
  | (.error e, asked) => (⟨.error e, asked, printed⟩, w)
  | (.ok (_, rc), asked) =>
    if rc = 1 ∧ handle.toNat < acceptTrackSlots then
      (⟨.ok rc, asked, printed ++ [.accepted handle]⟩, w.clear handle)
    else (⟨.ok rc, asked, printed⟩, w)

def socketAccept (w : Windows) (driver : Option Driver) (handle : BitVec 32) (tickMs : ℕ) :
    Outcome × Windows :=
  if h : handle.toNat < acceptTrackSlots then
    match w.first ⟨handle.toNat, h⟩ with
    | none =>
      drive { w with first := Function.update w.first ⟨handle.toNat, h⟩ (some tickMs) } driver
        handle tickMs [.opened handle tickMs]
    | some t0 =>
      if deadlineExceeded t0 tickMs acceptDeadlineMs then
        if w.logged ⟨handle.toNat, h⟩ then (⟨.ok eTimedout, [], []⟩, w)
        else
          (⟨.ok eTimedout, [], [.expired handle tickMs t0]⟩,
            { w with logged := Function.update w.logged ⟨handle.toNat, h⟩ true })
      else drive w driver handle tickMs []
  else drive w driver handle tickMs []

/-- A call that is passed on to the driver. -/
def passOn (w : Windows) (driver : Option Driver) (call : DriverCall) : Outcome × Windows :=
  (⟨(ask driver call).1, (ask driver call).2, []⟩, w)

def poll (w : Windows) (driver : Option Driver) (timestampMs : ℕ) : Outcome × Windows :=
  w.passOn driver (.poll timestampMs)

def socketCreate (w : Windows) (driver : Option Driver) (proto : BitVec 32) : Outcome × Windows :=
  w.passOn driver (.socketCreate proto)

def socketBind (w : Windows) (driver : Option Driver) (handle ipBe port : BitVec 32) :
    Outcome × Windows :=
  w.passOn driver (.socketBind handle ipBe port)

def socketListen (w : Windows) (driver : Option Driver) (handle backlog : BitVec 32) :
    Outcome × Windows :=
  w.passOn driver (.socketListen handle backlog)

/-- The window is closed first, whatever the driver then does. -/
def socketClose (w : Windows) (driver : Option Driver) (handle : BitVec 32) : Outcome × Windows :=
  (w.clear handle).passOn driver (.socketClose handle)

/-- The driver is polled behind the reply, to send it. -/
def socketSendCanned (w : Windows) (driver : Option Driver) (handle : BitVec 32) (tickMs : ℕ) :
    Outcome × Windows :=
  let (replies, asked) := askThen driver (.socketSendCanned handle) (.poll tickMs)
  (⟨replies.map Prod.fst, asked, []⟩, w)

end Windows

/-- A call to the socket layer, with the arguments it is made with. Those that read the clock
carry the tick they read. -/
inductive SocketCall where
  | poll (timestampMs : ℕ)
  | create (proto : BitVec 32)
  | close (handle : BitVec 32)
  | bind (handle ipBe port : BitVec 32)
  | listen (handle backlog : BitVec 32)
  | accept (handle : BitVec 32) (tickMs : ℕ)
  | sendCanned (handle : BitVec 32) (tickMs : ℕ)
  deriving DecidableEq, Repr

/-- The tick that a call reads the clock at. The calls that only configure a socket do not look at
the clock. -/
def SocketCall.tick : SocketCall → Option ℕ
  | .poll tick => some tick
  | .accept _ tick => some tick
  | .sendCanned _ tick => some tick
  | _ => none

/-- A call, and the driver as it is during the call. -/
structure Event where
  call : SocketCall
  driver : Option Driver

/-- **The socket layer** as a server: from the tables and one call, with the driver that is there
to answer it, what comes of the call and the tables after it. -/
def respond : Lib.Server Windows Event Outcome
  | w, ⟨.poll tick, driver⟩ => w.poll driver tick
  | w, ⟨.create proto, driver⟩ => w.socketCreate driver proto
  | w, ⟨.close handle, driver⟩ => w.socketClose driver handle
  | w, ⟨.bind handle ipBe port, driver⟩ => w.socketBind driver handle ipBe port
  | w, ⟨.listen handle backlog, driver⟩ => w.socketListen driver handle backlog
  | w, ⟨.accept handle tick, driver⟩ => w.socketAccept driver handle tick
  | w, ⟨.sendCanned handle tick, driver⟩ => w.socketSendCanned driver handle tick

/-! ## Windows told by the calls

The specification. A window of a handle is its first accept since it was last closed or accepted,
and that is a function of the calls and of what came of each; no table is in it. -/

/-- The window of a handle after a call, by what came of it: a close ends it, and so does an
accept that succeeds; another accept opens one, if there is none. -/
def windowAfter (handle : BitVec 32) (window : Option ℕ) (e : Event × Outcome) : Option ℕ :=
  match e.1.call with
  | .close handle' => if handle' = handle then none else window
  | .accept handle' tick =>
    if handle' = handle then
      if e.2.result.toOption = some 1 then none else window.or (some tick)
    else window
  | _ => window

/-- The calls from boot on, with what came of each. -/
def past (events : List Event) : List (Event × Outcome) :=
  events.zip (respond.serve .idle events).1

/-- The first accept of the handle's window, if one is open. -/
def windowStart (handle : BitVec 32) (events : List Event) : Option ℕ :=
  (past events).foldl (windowAfter handle) none

/-- The tables after these calls, from boot on. -/
def windows (events : List Event) : Windows := (respond.serve .idle events).2

/-- What comes of the next call, once these were made. -/
def outcomeAfter (events : List Event) (e : Event) : Outcome := (respond (windows events) e).1

/-- The window is over at a tick: it is open, and its first accept is at least a deadline ago. -/
def Expired (handle : BitVec 32) (events : List Event) (tick : ℕ) : Prop :=
  ∃ t0, windowStart handle events = some t0 ∧ t0 + acceptDeadlineMs ≤ tick

/-- The call timed out, and the driver was not asked. -/
def Outcome.TimedOut (o : Outcome) : Prop := o.result = .ok eTimedout ∧ o.asked = []

/-- The entry of a handle in the table. -/
def Windows.firstOf (w : Windows) (handle : BitVec 32) : Option ℕ :=
  if h : handle.toNat < acceptTrackSlots then w.first ⟨handle.toNat, h⟩ else none

/-! ## One call

Every call either leaves the entry of a handle alone, clears it, or opens a window where there was
none. -/

section Step

variable {w : Windows} {driver : Option Driver} {handle handle' : BitVec 32} {tick : ℕ}
  {printed : List Line}

/-- What the driver does for an accept: a poll, and its answer. -/
def answer (driver : Option Driver) (handle : BitVec 32) (tick : ℕ) :
    Except KernelError (BitVec 32) × List DriverCall :=
  ((askThen driver (.poll tick) (.socketAccept handle)).1.map Prod.snd,
    (askThen driver (.poll tick) (.socketAccept handle)).2)

/-- Where an entry of the table is written, the window of its handle is what was written, and that
of every other handle is as it was. -/
theorem firstOf_update (w : Windows) {logged : Fin acceptTrackSlots → Bool} {o : Option ℕ}
    (h : handle'.toNat < acceptTrackSlots) :
    Windows.firstOf ⟨Function.update w.first ⟨handle'.toNat, h⟩ o, logged⟩ handle =
      if handle' = handle then o else w.firstOf handle := by
  by_cases heq : handle' = handle
  · subst heq
    rw [Windows.firstOf, dif_pos h, if_pos rfl]
    exact Function.update_self ..
  · rw [if_neg heq, Windows.firstOf, Windows.firstOf]
    by_cases htracked : handle.toNat < acceptTrackSlots
    · have hne : (⟨handle.toNat, htracked⟩ : Fin acceptTrackSlots) ≠ ⟨handle'.toNat, h⟩ :=
        fun hfin => heq (BitVec.eq_of_toNat_eq (Fin.mk.inj hfin).symm)
      rw [dif_pos htracked, dif_pos htracked]
      exact Function.update_of_ne hne ..
    · rw [dif_neg htracked, dif_neg htracked]

theorem firstOf_clear (w : Windows) :
    (w.clear handle').firstOf handle = if handle' = handle then none else w.firstOf handle := by
  rw [Windows.clear]
  by_cases h : handle'.toNat < acceptTrackSlots
  · rw [dif_pos h]
    exact firstOf_update w h
  · rw [dif_neg h]
    by_cases heq : handle' = handle
    · subst heq
      rw [if_pos rfl, Windows.firstOf, dif_neg h]
    · rw [if_neg heq]

/-- Behind the gate the result is the driver's own answer, with the calls the driver was asked on
the way. -/
theorem drive_answer :
    (w.drive driver handle tick printed).1.result = (answer driver handle tick).1 ∧
    (w.drive driver handle tick printed).1.asked = (answer driver handle tick).2 := by
  rw [Windows.drive, answer]
  rcases askThen driver (.poll tick) (.socketAccept handle) with ⟨e | ⟨rc, rc'⟩, asked⟩
  · exact ⟨rfl, rfl⟩
  · dsimp only
    split <;> exact ⟨rfl, rfl⟩

/-- An accept that succeeds ends the window, and no other does. -/
theorem drive_windows : (w.drive driver handle tick printed).2 =
    if (answer driver handle tick).1.toOption = some 1 then w.clear handle else w := by
  rw [Windows.drive, answer]
  rcases askThen driver (.poll tick) (.socketAccept handle) with ⟨e | ⟨rc, rc'⟩, asked⟩
  · rfl
  · have hsuccess : ((Except.ok (rc, rc')).map Prod.snd : Except KernelError (BitVec 32)).toOption =
        some rc' := rfl
    dsimp only
    rw [hsuccess]
    by_cases hrc : rc' = 1
    · subst hrc
      rw [if_pos rfl]
      by_cases h : handle.toNat < acceptTrackSlots
      · rw [if_pos ⟨rfl, h⟩]
      · rw [if_neg fun hboth => h hboth.2, Windows.clear, dif_neg h]
    · rw [if_neg fun hboth => hrc hboth.1, if_neg fun heq => hrc (Option.some.inj heq)]

/-- **What an accept does**: it times out at the end of the window, or lets the driver answer, in
a window that is open. -/
theorem socketAccept_cases (w : Windows) (driver : Option Driver) (handle : BitVec 32) (tick : ℕ) :
    (∃ t0, w.firstOf handle = some t0 ∧ t0 + acceptDeadlineMs ≤ tick ∧
      (w.socketAccept driver handle tick).1.TimedOut ∧
      (w.socketAccept driver handle tick).2.first = w.first) ∨
    ((∀ t0, w.firstOf handle = some t0 → tick < t0 + acceptDeadlineMs) ∧
      ∃ (w' : Windows) (printed : List Line),
        w.socketAccept driver handle tick = w'.drive driver handle tick printed ∧
        (handle.toNat < acceptTrackSlots →
          w'.firstOf handle = (w.firstOf handle).or (some tick)) ∧
        ∀ handle', handle' ≠ handle → w'.firstOf handle' = w.firstOf handle') := by
  by_cases h : handle.toNat < acceptTrackSlots
  swap
  · have hfirst : w.firstOf handle = none := dif_neg h
    rw [hfirst, Windows.socketAccept, dif_neg h]
    exact .inr ⟨fun t0 ht0 => (by cases ht0), w, [], rfl, fun htracked => absurd htracked h,
      fun _ _ => rfl⟩
  have hfirst : w.firstOf handle = w.first ⟨handle.toNat, h⟩ := dif_pos h
  rw [hfirst, Windows.socketAccept, dif_pos h]
  rcases hslot : w.first ⟨handle.toNat, h⟩ with _ | t0
  · refine .inr ⟨fun t0 ht0 => (by cases ht0), _, _, rfl, fun _ => ?_, fun handle' hne => ?_⟩
    · exact (firstOf_update w h).trans (if_pos rfl)
    · exact (firstOf_update w h).trans (if_neg hne.symm)
  · dsimp only
    by_cases hover : t0 + acceptDeadlineMs ≤ tick
    · have hexceeded : deadlineExceeded t0 tick acceptDeadlineMs = true := by
        rw [deadlineExceeded, decide_eq_true_eq]
        omega
      rw [if_pos hexceeded]
      refine .inl ⟨t0, rfl, hover, ?_⟩
      split <;> exact ⟨⟨rfl, rfl⟩, rfl⟩
    · have hexceeded : ¬ deadlineExceeded t0 tick acceptDeadlineMs = true := by
        rw [acceptDeadlineMs] at hover
        rw [deadlineExceeded, decide_eq_true_eq, acceptDeadlineMs]
        omega
      rw [if_neg hexceeded]
      refine .inr ⟨fun t ht => ?_, w, [], rfl, fun _ => ?_, fun _ _ => rfl⟩
      · obtain rfl := Option.some.inj ht
        exact Nat.not_le.mp hover
      · rw [hfirst, hslot]
        rfl

/-- **The table** follows the calls and what comes of them: after a call, a handle's entry is what
the history says it should be. One case for each kind of call. -/
theorem respond_firstOf (h : handle.toNat < acceptTrackSlots) (w : Windows) (e : Event) :
    (respond w e).2.firstOf handle =
      windowAfter handle (w.firstOf handle) (e, (respond w e).1) := by
  obtain ⟨call, driver⟩ := e
  cases call with
  | poll | create | bind | listen | sendCanned => rfl
  | close handle' => exact firstOf_clear w
  | accept handle' tick =>
    have hcall : respond w ⟨.accept handle' tick, driver⟩ = w.socketAccept driver handle' tick :=
      rfl
    rw [hcall, windowAfter]
    dsimp only
    rcases socketAccept_cases w driver handle' tick with
      ⟨t0, ht0, -, ⟨hresult, -⟩, hsame⟩ | ⟨-, w', printed, hdrive, hself, hother⟩
    · have htimedOut : (Except.ok eTimedout : Except KernelError (BitVec 32)).toOption ≠ some 1 :=
        by decide
      have hkept : (w.socketAccept driver handle' tick).2.firstOf handle = w.firstOf handle := by
        rw [Windows.firstOf, hsame, Windows.firstOf]
      rw [hresult, if_neg htimedOut, hkept]
      by_cases heq : handle' = handle
      · subst heq
        rw [if_pos rfl, ht0]
        rfl
      · rw [if_neg heq]
    · rw [hdrive, drive_answer.1, drive_windows, apply_ite (Windows.firstOf · handle),
        firstOf_clear]
      by_cases heq : handle' = handle
      · subst heq
        rw [if_pos rfl, if_pos rfl, hself h]
      · rw [if_neg heq, if_neg heq, ite_self, hother handle (Ne.symm heq)]

end Step

/-! ## Runs

The table agrees with the calls after every run. What is asked of accepts follows from that and
from the order of the ticks. -/

section Run

variable {handle : BitVec 32} {events es : List Event} {e : Event} {tick tick' : ℕ}

theorem windows_append (events : List Event) (e : Event) :
    windows (events ++ [e]) = (respond (windows events) e).2 := by
  rw [windows, Lib.Server.serve_append]
  rfl

/-- **The table is what the calls tell**: a handle's entry is the start of its window, read off
the history of calls and outcomes alone. The induction is on the calls, and the step lemma has one
case for each kind. -/
theorem firstOf_windows (h : handle.toNat < acceptTrackSlots) (events : List Event) :
    (windows events).firstOf handle = windowStart handle events := by
  have hidle : Windows.idle.firstOf handle = none := dif_pos h
  have hfold := @Lib.Server.serve_fold _ _ _ _ respond (fun w => w.firstOf handle)
    (windowAfter handle) (respond_firstOf h) .idle events
  rw [windows, hfold, hidle]
  rfl

theorem windowStart_append (h : handle.toNat < acceptTrackSlots) (events : List Event) (e : Event) :
    windowStart handle (events ++ [e]) =
      windowAfter handle (windowStart handle events) (e, outcomeAfter events e) := by
  rw [← firstOf_windows h, windows_append, respond_firstOf h, firstOf_windows h]
  rfl

/-- A call that is neither an accept nor a close of the handle leaves the handle's window as it
was. -/
theorem windowAfter_other (hclose : e.call ≠ .close handle)
    (haccept : ∀ t, e.call ≠ .accept handle t) (window : Option ℕ) (o : Outcome) :
    windowAfter handle window (e, o) = window := by
  rw [windowAfter]
  rcases hcall : e.call with t | p | handle' | ⟨handle', ip, port⟩ | ⟨handle', n⟩ | ⟨handle', t⟩ |
    ⟨handle', t⟩
  case close => exact if_neg fun heq => hclose (by rw [hcall, heq])
  case accept => exact if_neg fun heq => haccept t (by rw [hcall, heq])
  all_goals rfl

/-- An accept on a handle times out where its window is over, and otherwise is answered by the
driver. -/
theorem outcomeAfter_accept (h : handle.toNat < acceptTrackSlots)
    (hcall : e.call = .accept handle tick) (events : List Event) :
    Expired handle events tick ∧ (outcomeAfter events e).TimedOut ∨
      ¬ Expired handle events tick ∧
        ((outcomeAfter events e).result, (outcomeAfter events e).asked) =
          answer e.driver handle tick := by
  obtain ⟨call, driver⟩ := e
  dsimp only at hcall
  subst hcall
  rw [Expired, ← firstOf_windows h]
  rcases socketAccept_cases (windows events) driver handle tick with
    ⟨t0, ht0, hover, htimedOut, -⟩ | ⟨hopen, w', printed, hdrive, -⟩
  · exact .inl ⟨⟨t0, ht0, hover⟩, htimedOut⟩
  · refine .inr ⟨?_, ?_⟩
    · rintro ⟨t0, ht0, hover⟩
      exact absurd hover (Nat.not_le.mpr (hopen t0 ht0))
    · have hout : outcomeAfter events ⟨.accept handle tick, driver⟩ =
          (w'.drive driver handle tick printed).1 := congrArg Prod.fst hdrive
      rw [hout, drive_answer.1, drive_answer.2]

/-- A window that is over stays so, until the handle is closed. -/
theorem Expired.append (h : handle.toNat < acceptTrackSlots) (hover : Expired handle events tick)
    (hopen : ∀ e ∈ es, e.call ≠ .close handle)
    (hticks : ∀ e ∈ es, ∀ t, e.call.tick = some t → tick ≤ t) :
    Expired handle (events ++ es) tick := by
  induction es generalizing events with
  | nil => rwa [List.append_nil]
  | cons e es ih =>
    obtain ⟨hclose, hopen⟩ := List.forall_mem_cons.mp hopen
    obtain ⟨htick, hticks⟩ := List.forall_mem_cons.mp hticks
    rw [List.append_cons]
    refine ih ?_ hopen hticks
    obtain ⟨t0, ht0, hle⟩ := hover
    refine ⟨t0, ?_, hle⟩
    rw [windowStart_append h, ht0]
    by_cases haccept : ∃ t, e.call = .accept handle t
    · -- an accept here times out
      obtain ⟨t, hcall⟩ := haccept
      have hlate : tick ≤ t := htick t (by rw [hcall]; rfl)
      rcases outcomeAfter_accept h hcall events with ⟨-, hresult, -⟩ | ⟨hnot, -⟩
      · simp [windowAfter, hcall, hresult, Except.toOption, eTimedout]
      · exact absurd ⟨t0, ht0, Nat.le_trans hle hlate⟩ hnot
    · exact windowAfter_other hclose (not_exists.mp haccept) _ _

/-- A handle without a window does not get one as long as nobody calls accept on it. -/
theorem windowStart_eq_none (h : handle.toNat < acceptTrackSlots)
    (hnone : windowStart handle events = none)
    (hes : ∀ e ∈ es, ∀ t, e.call ≠ .accept handle t) :
    windowStart handle (events ++ es) = none := by
  induction es generalizing events with
  | nil => rwa [List.append_nil]
  | cons e es ih =>
    obtain ⟨hcall, hes⟩ := List.forall_mem_cons.mp hes
    rw [List.append_cons]
    refine ih ?_ hes
    rw [windowStart_append h, hnone]
    by_cases hclose : e.call = .close handle
    · simp [windowAfter, hclose]
    · exact windowAfter_other hclose hcall _ _

/-- A reply of the driver comes from exactly two calls of it: the poll that drives the stack, and
the accept itself. -/
theorem answer_ok {driver : Option Driver} {rc : BitVec 32}
    (hok : (answer driver handle tick).1 = .ok rc) :
    (answer driver handle tick).2 = [.poll tick, .socketAccept handle] ∧
      ∃ d, driver = some d ∧ d (.socketAccept handle) = some rc := by
  rw [answer, askThen] at hok ⊢
  cases driver with
  | none => cases hok
  | some d =>
    rcases hpoll : d (.poll tick) with _ | polled
    · simp only [ask, hpoll] at hok
      cases hok
    · rcases haccept : d (.socketAccept handle) with _ | rc'
      · simp only [ask, hpoll, haccept] at hok
        cases hok
      · simp only [ask, hpoll, haccept] at hok ⊢
        obtain rfl := Except.ok.inj hok
        exact ⟨rfl, d, rfl, haccept⟩

/-- Where the ticks of a run never go back, no earlier call read a later one. -/
theorem tick_le {before rest : List Event}
    (hticks : ((before ++ e :: rest).filterMap fun e => e.call.tick).Pairwise (· ≤ ·))
    (he : e.call.tick = some tick) : ∀ b ∈ rest, ∀ t, b.call.tick = some t → tick ≤ t := by
  rw [List.pairwise_filterMap, List.pairwise_append, List.pairwise_cons] at hticks
  exact fun b hb t ht => hticks.2.1.1 b hb tick he t ht

/-- An accept that is timed out early is timed out by the driver. -/
theorem timedOut_cases (h : handle.toNat < acceptTrackSlots) (hcall : e.call = .accept handle tick)
    (hresult : (outcomeAfter events e).result = .ok eTimedout) :
    Expired handle events tick ∨
      ((outcomeAfter events e).asked = [.poll tick, .socketAccept handle] ∧
        ∃ d, e.driver = some d ∧ d (.socketAccept handle) = some eTimedout) := by
  rcases outcomeAfter_accept h hcall events with ⟨hover, -⟩ | ⟨-, hanswer⟩
  · exact .inl hover
  · obtain ⟨hfirst, hsecond⟩ := Prod.mk.inj hanswer
    rw [hsecond]
    exact .inr (answer_ok (hfirst.symm.trans hresult))

theorem Expired.timedOut (h : handle.toNat < acceptTrackSlots)
    (hcall : e.call = .accept handle tick') (hover : Expired handle events tick)
    (hle : tick ≤ tick') : (outcomeAfter events e).TimedOut := by
  obtain ⟨t0, ht0, hend⟩ := hover
  rcases outcomeAfter_accept h hcall events with ⟨-, htimedOut⟩ | ⟨hnot, -⟩
  · exact htimedOut
  · exact absurd ⟨t0, ht0, Nat.le_trans hend hle⟩ hnot

/-- A call that ends the window: a close, or an accept that succeeds. -/
def Ends (handle : BitVec 32) (events : List Event) (e : Event) : Prop :=
  e.call = .close handle ∨
    ∃ t, e.call = .accept handle t ∧ (outcomeAfter events e).result = .ok 1

theorem Ends.windowStart (h : handle.toNat < acceptTrackSlots) (hends : Ends handle events e) :
    windowStart handle (events ++ [e]) = none := by
  rw [windowStart_append h, windowAfter]
  rcases hends with hcall | ⟨t, hcall, hresult⟩
  · simp [hcall]
  · simp [hcall, hresult, Except.toOption]

/-- An accept that is not answered by a connection, on a handle without a window, opens one at its
own tick. -/
theorem windowStart_accept (h : handle.toNat < acceptTrackSlots)
    (hcall : e.call = .accept handle tick) (hnone : windowStart handle events = none)
    (hresult : (outcomeAfter events e).result ≠ .ok 1) :
    windowStart handle (events ++ [e]) = some tick := by
  have hfailed : (outcomeAfter events e).result.toOption ≠ some 1 := by
    rcases hr : (outcomeAfter events e).result with err | rc
    · exact fun hsome => by cases hsome
    · exact fun hsome => hresult (by rw [hr, Option.some.inj hsome])
  rw [windowStart_append h, windowAfter]
  simp only [hcall, if_pos, if_neg hfailed, hnone]
  rfl

/-- A call that neither closes the handle nor accepts on it leaves its entry alone. -/
theorem firstOf_other (h : handle.toNat < acceptTrackSlots) (hclose : e.call ≠ .close handle)
    (haccept : ∀ t, e.call ≠ .accept handle t) :
    (windows (events ++ [e])).firstOf handle = (windows events).firstOf handle := by
  rw [windows_append, respond_firstOf h]
  exact windowAfter_other hclose haccept _ _

/-- **Windows.** In every run from boot in which the ticks do not go back, for every handle that
is tracked:

* the table has what the calls tell;
* an accept times out only where the window is over, or the driver was asked and itself returned
  that code;
* once the window is over, accepts time out without the driver until the handle is closed;
* after a close or an accept that succeeds no window is open, the next accept is answered by the
  driver, and unless it succeeds the window counts from it;
* other calls leave the entry of the handle alone. -/
theorem accept_windows {handle : BitVec 32} {events : List Event}
    (h : handle.toNat < acceptTrackSlots)
    (hticks : (events.filterMap fun e => e.call.tick).Pairwise (· ≤ ·)) :
    (∀ before after, events = before ++ after →
      (windows before).firstOf handle = windowStart handle before) ∧
    (∀ before e after tick, events = before ++ e :: after → e.call = .accept handle tick →
      (outcomeAfter before e).result = .ok eTimedout →
      Expired handle before tick ∨
        ((outcomeAfter before e).asked = [.poll tick, .socketAccept handle] ∧
          ∃ d, e.driver = some d ∧ d (.socketAccept handle) = some eTimedout)) ∧
    (∀ before e between e' after tick tick',
      events = before ++ e :: (between ++ e' :: after) → e.call = .accept handle tick →
      Expired handle before tick → (∀ b ∈ between, b.call ≠ .close handle) →
      e'.call = .accept handle tick' →
      (outcomeAfter before e).TimedOut ∧ (outcomeAfter (before ++ e :: between) e').TimedOut) ∧
    (∀ before e between e' after tick, events = before ++ e :: (between ++ e' :: after) →
      Ends handle before e → (∀ b ∈ between, ∀ t, b.call ≠ .accept handle t) →
      e'.call = .accept handle tick →
      windowStart handle (before ++ e :: between) = none ∧
        ((outcomeAfter (before ++ e :: between) e').result,
          (outcomeAfter (before ++ e :: between) e').asked) = answer e'.driver handle tick ∧
        ((outcomeAfter (before ++ e :: between) e').result ≠ .ok 1 →
          windowStart handle (before ++ e :: between ++ [e']) = some tick)) ∧
    ∀ before e after, events = before ++ e :: after → e.call ≠ .close handle →
      (∀ t, e.call ≠ .accept handle t) →
      (windows (before ++ [e])).firstOf handle = (windows before).firstOf handle := by
  refine ⟨fun before after _ => firstOf_windows h before,
    fun before e after tick _ hcall hresult => timedOut_cases h hcall hresult, ?_, ?_,
    fun before e after _ hclose haccept => firstOf_other h hclose haccept⟩
  · rintro before e between e' after tick tick' rfl hcall hover hopen hcall'
    have htick : e.call.tick = some tick := by rw [hcall]; rfl
    have hlater := tick_le hticks htick
    have hbetween : ∀ b ∈ e :: between, ∀ t, b.call.tick = some t → tick ≤ t := by
      refine List.forall_mem_cons.mpr ⟨fun t ht => ?_, fun b hb =>
        hlater b (List.mem_append_left _ hb)⟩
      exact Nat.le_of_eq (Option.some.inj (htick.symm.trans ht))
    have hopen' : ∀ b ∈ e :: between, b.call ≠ .close handle :=
      List.forall_mem_cons.mpr ⟨fun heq => (by rw [hcall] at heq; cases heq), hopen⟩
    have hle : tick ≤ tick' :=
      hlater e' (List.mem_append_right _ List.mem_cons_self) tick' (by rw [hcall']; rfl)
    exact ⟨hover.timedOut h hcall (Nat.le_refl tick),
      (hover.append h hopen' hbetween).timedOut h hcall' hle⟩
  · rintro before e between e' after tick rfl hends hbetween hcall'
    have hnone : windowStart handle (before ++ e :: between) = none := by
      rw [List.append_cons]
      exact windowStart_eq_none h (hends.windowStart h) hbetween
    refine ⟨hnone, ?_, windowStart_accept h hcall' hnone⟩
    rcases outcomeAfter_accept h hcall' (before ++ e :: between) with
      ⟨⟨t0, ht0, -⟩, -⟩ | ⟨-, hanswer⟩
    · rw [hnone] at ht0
      cases ht0
    · exact hanswer

/-- A driver that returns one code to everything. -/
def constant (rc : BitVec 32) : Option Driver := some fun _ => some rc

/-- A handle waits in vain, times out twice, is closed and waits again. -/
def waiting : List Event :=
  [⟨.accept 0 1000, constant 0⟩, ⟨.accept 0 61000, constant 1⟩, ⟨.poll 62000, constant 0⟩,
    ⟨.accept 0 63000, constant 1⟩, ⟨.close 0, none⟩, ⟨.accept 0 64000, constant 0⟩]

/-- Its second wait is answered by the driver, and counts from its start. -/
theorem accept_windows_waiting :
    (waiting.filterMap fun e => e.call.tick).Pairwise (· ≤ ·) ∧
      (outcomeAfter (waiting.take 1) ⟨.accept 0 61000, constant 1⟩).TimedOut ∧
      (outcomeAfter (waiting.take 3) ⟨.accept 0 63000, constant 1⟩).TimedOut ∧
      windowStart 0 waiting = some 64000 := by
  have hticks : (waiting.filterMap fun e => e.call.tick).Pairwise (· ≤ ·) := by decide
  obtain ⟨-, -, hover, hfresh, -⟩ :=
    @accept_windows 0 waiting (by decide) hticks
  obtain ⟨hsecond, hthird⟩ := hover (waiting.take 1) ⟨.accept 0 61000, constant 1⟩
    [⟨.poll 62000, constant 0⟩] ⟨.accept 0 63000, constant 1⟩ (waiting.drop 4) 61000 63000 rfl rfl
    ⟨1000, rfl, by decide⟩ (by simp) rfl
  obtain ⟨-, -, hwindow⟩ := hfresh (waiting.take 4) ⟨.close 0, none⟩ []
    ⟨.accept 0 64000, constant 0⟩ [] 64000 rfl (.inl rfl) (by simp) rfl
  exact ⟨hticks, hsecond, hthird, hwindow (by decide)⟩

/-- A driver that itself returns the code makes an accept time out as soon as the window opens. So
a time-out alone does not say that the window is over. -/
theorem accept_windows_early :
    (outcomeAfter [] ⟨.accept 0 0, constant eTimedout⟩).result = .ok eTimedout ∧
      windowStart 0 [⟨.accept 0 0, constant eTimedout⟩] = some 0 ∧ ¬ Expired 0 [] 0 := by
  refine ⟨rfl, rfl, ?_⟩
  rintro ⟨t0, ht0, -⟩
  cases ht0

end Run

end Wari.Accept
