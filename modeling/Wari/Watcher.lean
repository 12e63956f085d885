import Wari.Console
import Wari.Post

/-!
# The guard in the system

The guard agent as one tenant among the others, from boot. It takes its steps when the
scheduler lets it, the console is shared with whoever prints, and what the others do is up
to them. Whatever they do, the guard's lines on the console are the report of the records it
read, and these with the gaps it reports are everything that was recorded up to where it
stands; asleep, it has accounted for everything there is (`guard_audits`).
-/

namespace Wari

open Lib (Bytes Machine Reads gaps readAt ofLe)

/-! ## The machine

The guard is followed by what it still has to print and by its cursor (`GuardAgent`), not by its
instructions. Its steps name the memory it happens to have then, of which only the text it points
at matters, so any placement of its buffers is covered. Everybody else is a step of the system, or
a call of `fd_write`. -/

/-- The system with a guard in it. The last three fields are not in the system: they record what
happened, so that what the guard says can be compared with what there was to say. -/
structure Watcher where
  kernel : Kernel
  console : Console
  /-- where the guard stands, once it is entered -/
  agent : Option GuardAgent
  /-- where its last read was to put the record -/
  buf : BitVec 32
  /-- what was handed to the console, and by whom -/
  wrote : List (Proc × Bytes)
  /-- every record since boot -/
  told : List Event
  /-- the records the guard got -/
  reads : List Event

/-- What can happen next: a step of the guard, of another tenant, or of the system around them. -/
inductive WatcherCall where
  /-- a step that is not the guard's, and does not print -/
  | system (call : SystemCall)
  /-- another tenant prints -/
  | write (q : Proc) (fd iovsPtr iovsLen nwrittenPtr : BitVec 32) (fuel : ℕ)
  /-- the guard is dispatched; at first `image` is the memory its module comes with, if the
  module loads -/
  | enter (image : Option Bytes)
  /-- the guard prints its next line; `memory` is what it has in its memory then -/
  | print (memory : Bytes) (iovsPtr nwrittenPtr : BitVec 32) (fuel : ℕ)
  /-- the guard reads the next record -/
  | read (memory : Bytes) (outPtr : BitVec 32)
  /-- the guard exits -/
  | exit

/-- The list of one text is at `iovsPtr`, and the text where it says. This is what the guard's
`print` sets up on its stack before it calls `fd_write`. -/
def pointsAt (memory : Bytes) (iovsPtr : BitVec 32) (text : Bytes) : Bool :=
  match readAt memory iovsPtr.toNat 8 with
  | none => false
  | some iov =>
    ofLe (iov.drop 4) == text.length && readAt memory (ofLe (iov.take 4)) text.length == some text

namespace Watcher

/-- A step to `k`. What the kernel recorded meanwhile is noted. -/
def move (s : Watcher) (k : Kernel) : Watcher :=
  { s with kernel := k, told := s.told ++ s.kernel.news k }

/-- A call of `fd_write` by `q` has come back. What was handed to the UART in it is `q`'s. -/
def printed (s : Watcher) (q : Proc) (k : Kernel) (console : Console) : Watcher :=
  { s.move k with
    console := console
    wrote := s.wrote ++ [(q, console.uart.handed.drop s.console.uart.handed.length)] }

/-- The guard's read returns. Told to ask again (`1`) it goes back to its read with the cursor it
had; any other answer moves it on as its loop says. -/
def answered (s : Watcher) (p : Proc) (rc : ℤ) : Option Watcher := do
  let a ← s.agent
  let buf := s.kernel.bufferAt p s.buf
  let a ← Agent.answered a rc buf
  return { s with
    agent := some a
    reads := if rc = 0 ∨ rc = 2 then s.reads ++ [Agent.decode buf] else s.reads }

/-- The guard was dispatched: it starts, or comes back from its read with what the kernel has for
it, or is at its end and has nothing left to do. -/
def entered (s : Watcher) (p : Proc) : Option Watcher :=
  match s.kernel.tier1Pool p with
  | none => some s
  | some slot =>
    match s.agent with
    | none => some { s with agent := some Agent.start }
    | some _ => s.answered p slot.pendingResume

/-- One step. A step of the others is any but one by `p`, and one that prints is told apart, since
it needs the console. -/
def step (ed25519 : Ed25519) (hw : UartHw) (plat : UartPlatform) (p : Proc) (s : Watcher) :
    WatcherCall → Option Watcher
  | .system call =>
    if call.caller = some (procByte p) ∨ call.caller = some (procByte procIdTier2Uart) then none
    else (systemStep ed25519 s.kernel call).map s.move
  | .write q fd iovsPtr iovsLen nwrittenPtr fuel =>
    if q ≠ p ∧ s.kernel.stateAt q = some .running then
      (s.kernel.hostFdWrite hw plat fuel s.console q fd iovsPtr iovsLen nwrittenPtr).map
        fun out => s.printed q out.2.1 out.2.2
    else none
  | .enter image =>
    (s.kernel.turn (.dispatch p (image.map some))).bind fun k => (s.move k).entered p
  | .print memory iovsPtr nwrittenPtr fuel =>
    match s.agent with
    | some ⟨cursor, line :: todo, leaves⟩ =>
      if pointsAt memory iovsPtr line then do
        let k ← s.kernel.turn (.compute p memory)
        let out ← k.hostFdWrite hw plat fuel s.console p 1#32 iovsPtr 1#32 nwrittenPtr
        -- what it returns is not looked at
        return { (s.move k).printed p out.2.1 out.2.2 with agent := some ⟨cursor, todo, leaves⟩ }
      else none
    | _ => none
  | .read memory outPtr =>
    match s.agent with
    | some ⟨cursor, [], false⟩ =>
      if outPtr.toNat + 16 ≤ memory.length then do
        let k ← s.kernel.turn (.compute p memory)
        let s : Watcher := { s.move k with buf := outPtr }
        let lo := cursor.setWidth 32
        let hi := (cursor >>> 32).setWidth 32
        let k' ← k.turn (.eventRead p lo hi outPtr)
        match (k.eventReadImpl p lo hi outPtr).1 with
        | none => return s.move k'
        | some rc => (s.move k').answered p rc
      else none
    | _ => none
  | .exit =>
    match s.agent with
    | some ⟨_, [], true⟩ => (s.kernel.turn (.finish p (s.kernel.hostProcExit p 0#32))).map s.move
    | _ => none

end Watcher

/-- The system from boot, with `p` for the guard, if it is ever brought up, and a console that
nothing was handed to. -/
def watcherMachine (ed25519 : Ed25519) (board : Board) (hw : UartHw) (plat : UartPlatform)
    (p : Proc) : Machine Watcher WatcherCall where
  init s := s.kernel = .booted board ∧ s.console.Ready ∧ s.console.uart.handed = [] ∧
    s.console.uart.sent = [] ∧ s.agent = none ∧ s.wrote = [] ∧ s.told = [] ∧ s.reads = []
  step := Watcher.step ed25519 hw plat p

/-! ## What is promised

The promises speak of the console and of the record of the run only: what was handed to the UART
and by whom, every record since boot, and the records the guard got. -/

namespace Kernel

/-- `p` may print: its stdout capability is there. Without it `fd_write` answers `EPERM` and the
guard, which ignores the answer, says nothing. -/
def mayPrint (k : Kernel) (p : Proc) : Prop :=
  k.caps.checkCap (p, slotPrimary) .endpoint capRightWrite = .ok ()

/-- `p` may read the audit stream: it has the capability for it. -/
def mayRead (k : Kernel) (p : Proc) : Prop :=
  k.caps.checkCap (p, slotEventlog) .eventLog capRightRead = .ok ()

end Kernel

namespace Watcher

/-- What the guard has printed on the console, line by line. -/
def lines (s : Watcher) (p : Proc) : List Bytes :=
  (s.wrote.filter fun w => w.1 = p).map Prod.snd

/-- What a guard that stands at `a` has to say: its banner, the report of the records it got, and,
where it is about to leave, why. -/
def script (s : Watcher) (a : GuardAgent) : List Bytes :=
  Agent.banner :: (Agent.report 0#64 s.reads ++ if a.leaves then [Agent.readErr] else [])

/-- The numbers of the records the guard got. -/
def seqs (s : Watcher) : List ℕ := s.reads.map fun e => e.seq.toNat

/-- How many records it knows that it missed, by the gaps in the numbers it read. -/
def missed (s : Watcher) : ℕ := (gaps 0 s.seqs).sum

/-- The guard's account of the audit stream. No record the kernel ever made is missing from it
without a gap that says how many are, and none is in it that the kernel did not make. -/
structure Audited (s : Watcher) (plat : UartPlatform) (p : Proc) : Prop where
  /-- the console shows what was printed, text after text, and on one of the boards all of it
  goes out -/
  whole : s.console.uart.handed = (s.wrote.map Prod.snd).flatten ∧
    (plat = .qemu → s.console.uart.sent = s.console.uart.handed)
  /-- a guard that may print has printed the report of what it got, up to what it is about to
  print -/
  reported : s.kernel.mayPrint p → ∀ a, s.agent = some a → s.lines p ++ a.todo = s.script a
  /-- what it got is in order and genuine -/
  increasing : s.reads.Pairwise fun e e' => e.seq < e'.seq
  genuine : ∀ e ∈ s.reads, s.told[e.seq.toNat]? = some e
  /-- records and gaps are everything up to where it stands -/
  accounted : ∀ a, s.agent = some a →
    s.reads.length + s.missed = a.cursor.toNat ∧ a.cursor.toNat ≤ s.told.length
  /-- asleep, it has accounted for all there is, and said so -/
  asleep : s.kernel.awaitsRecord p → s.reads.length + s.missed = s.told.length ∧
    (s.kernel.mayPrint p → s.lines p = Agent.banner :: Agent.report 0#64 s.reads)
  /-- as long as it may read, it does not stop -/
  loyal : s.kernel.mayRead p → ∀ a, s.agent = some a → a.leaves = false ∧ ¬ s.kernel.overAt p

end Watcher

/-! ## Steps and what they keep

The invariant has two halves. `Sane` is about the kernel and the console and is kept by
everybody's steps for the same reasons. `Kept` is about the guard, and the steps of the others
keep it because they cannot touch a process that is queued at no endpoint (`Kernel.Beside`). -/

namespace Kernel

section Steps

variable {k k' : Kernel} {p q : Proc}

theorem checkCap_congr {st st' : CapState} {a : Place} (h : st'.capAt a = st.capAt a)
    (kind : ObjectKind) (rights : BitVec 8) :
    st'.checkCap a kind rights = st.checkCap a kind rights := by
  simp only [CapState.checkCap, h]

/-- Nothing is new where no record came in. -/
theorem news_eq_nil (h : k'.events.nextSeq = k.events.nextSeq) : k.news k' = [] := by
  simp [news, h]

theorem Beside.ring (h : k.Beside k' p) (hmem : p ∈ k'.ringWaiterList) : p ∈ k.ringWaiterList := by
  cases h with
  | still _ _ hring => exact hring.mp hmem
  | woken hring => exact hring
  | spawned _ _ _ _ hring => exact hring hmem

/-- A guard among those who wait is asleep. -/
theorem Post.asleep {o : Option GuardAgent} (h : k.Post p o) (hmem : p ∈ k.ringWaiterList) :
    k.awaitsRecord p := by
  cases h with
  | out _ hring => exact (hring hmem).elim
  | runs _ _ _ hring => exact (hring hmem).elim
  | waits hstate => exact hstate
  | woken _ _ _ _ _ hring => exact (hring hmem).elim
  | left _ hring => exact (hring hmem).elim

/-- A write to the memory of a running tenant is a step of that tenant. -/
theorem writeMemory_turn {ptr : BitVec 32} {bytes : Bytes} (hrun : k.stateAt q = some .running)
    (h : k.writeMemory q ptr bytes = .ok k') : ∃ memory, k.turn (.compute q memory) = some k' := by
  simp only [writeMemory] at h
  split at h
  · cases h
  · rename_i slot hslot
    split at h
    · cases h
    · rename_i old hold
      split at h
      · cases h
      · rename_i memory hwrite
        obtain rfl := Except.ok.inj h
        refine ⟨memory, ?_⟩
        simp only [turn, hslot, hold]
        rw [if_pos ⟨hrun, (Lib.length_writeAt hwrite).ge⟩]

/-- Printing changes the memory of the tenant at most. -/
theorem FdWritten.turn {plat : UartPlatform} {console console' : Console}
    {fd iovsPtr iovsLen nwrittenPtr errno : BitVec 32} {text : Bytes}
    (h : FdWritten plat k console q fd iovsPtr iovsLen nwrittenPtr text errno k' console')
    (hrun : k.stateAt q = some .running) :
    k'.caps = k.caps ∧ (k' = k ∨ ∃ memory, k.turn (.compute q memory) = some k') := by
  by_cases herrno : errno = wasiEsuccess
  · have hwrite := (h.told herrno).1
    refine ⟨?_, .inr (writeMemory_turn hrun hwrite)⟩
    obtain ⟨slot, memory, -, rfl⟩ := writeMemory_ok hwrite
    rfl
  · obtain ⟨rfl, -⟩ := h.failed herrno
    exact ⟨rfl, .inl rfl⟩

/-- A text that is pointed at is what is printed. -/
theorem fdText_of_pointsAt {memory text : Bytes} {iovsPtr : BitVec 32}
    (hmem : k.memoryOf p = some memory) (h : pointsAt memory iovsPtr text = true)
    (hlen : text.length ≤ fdWriteMax) : k.fdText p iovsPtr = some text := by
  rw [pointsAt] at h
  split at h
  · cases h
  · rename_i iov hiov
    obtain ⟨hsize, hread⟩ := Bool.and_eq_true_iff.mp h
    rw [beq_iff_eq] at hsize hread
    simp [fdText, hmem, hiov, hsize, Nat.min_eq_left hlen, hread]

end Steps

end Kernel

namespace Watcher

variable {ed25519 : Ed25519} {hw : UartHw} {plat : UartPlatform} {p q : Proc} {s s' : Watcher}
  {k : Kernel}

/-- What holds of the kernel and the console whatever the guard does. The UART driver's capability
and its table entry are here since a lost one would silence the guard; `recorded` ties the ring to
the list of all records, without which a record the guard reads could not be called genuine;
`unqueued` is what makes the guard a bystander of all IPC. -/
structure Sane (s : Watcher) (plat : UartPlatform) (p : Proc) : Prop where
  rooted : s.kernel.Rooted
  driver : s.kernel.processes procIdTier2Uart ≠ none
  uart : s.kernel.caps.checkUart = .ok ()
  recorded : ∃ emitted, s.told = records emitted ∧ s.kernel.events.Recorded emitted
  unqueued : ∀ side e, p ∉ s.kernel.queue side e
  once : s.kernel.Once
  ready : s.console.Ready
  handed : s.console.uart.handed = (s.wrote.map Prod.snd).flatten
  sent : plat = .qemu → s.console.uart.sent = s.console.uart.handed

/-- What the guard has to show. Only as long as the 64-bit numbers of the records last: after a
wrap an old cursor would meet new records. -/
structure Account (s : Watcher) (p : Proc) : Prop where
  reported : ∀ a, s.agent = some a → s.kernel.mayPrint p → s.lines p ++ a.todo = s.script a
  cursor : ∀ a, s.agent = some a → a.cursor = Agent.cursorAfter 0#64 s.reads
  passed : ∀ a, s.agent = some a →
    Reads 0 s.seqs a.cursor.toNat ∧ a.cursor.toNat ≤ s.told.length
  genuine : ∀ e ∈ s.reads, s.told[e.seq.toNat]? = some e
  caught : s.kernel.awaitsRecord p → ∀ a, s.agent = some a → a.cursor.toNat = s.told.length

/-- What ties the guard's loop to its seat in the kernel. `post` says where it stands, `loyal`
that it never leaves while it may read, and `short` that each of its lines fits one call of
`fd_write`, which cuts off what is longer. -/
structure Kept (s : Watcher) (p : Proc) : Prop where
  post : s.kernel.Post p s.agent
  fresh : s.agent = none → s.reads = [] ∧ s.lines p = []
  loyal : ∀ a, s.agent = some a → a.leaves = true → ¬ s.kernel.mayRead p
  short : ∀ a, s.agent = some a → ∀ line ∈ a.todo, line.length ≤ 96
  account : s.told.length < 2 ^ 64 → s.Account p

@[simp] theorem move_self (s : Watcher) : s.move s.kernel = s := by
  simp [move, Kernel.news_eq_nil]

/-- A step of the system keeps the kernel and the console sane. The driver makes no capability
call of its own, and nobody else reaches its slots. -/
theorem Sane.move {call : SystemCall} (h : s.Sane plat p)
    (hstep : systemStep ed25519 s.kernel call = some k)
    (hcall : ∀ c, call = .cap c → c.procId ≠ procByte procIdTier2Uart)
    (hqueue : ∀ side e, p ∉ k.queue side e) : (s.move k).Sane plat p := by
  obtain ⟨hrooted, hcaps⟩ := Kernel.systemStep_capAt hstep h.rooted
  obtain ⟨hdriver, hsame⟩ := hcaps procIdTier2Uart h.driver
  obtain ⟨ms, hfew, htells⟩ := Kernel.systemStep_tells hstep
  obtain ⟨emitted, htold, hrecorded⟩ := h.recorded
  obtain ⟨hrecorded', hnews⟩ := Kernel.recorded_news hrecorded htells
    (Nat.le_trans hfew (by decide))
  refine ⟨hrooted, hdriver, ?_, ⟨emitted ++ ms, ?_, hrecorded'⟩, hqueue,
    Kernel.systemStep_once hstep h.once, h.ready, h.handed, h.sent⟩
  · change k.caps.checkCap _ _ _ = _
    rw [Kernel.checkCap_congr (hsame hcall slotPrimary)]
    exact h.uart
  · change s.told ++ s.kernel.news k = _
    rw [hnews, htold]

/-- The guard's half is kept by what leaves it alone but for its seat, and tells it what it waits
for. Both the steps of the others and the printing of another come down to this. -/
theorem Kept.moved {news : List Event} (h : s.Kept p) (hagent : s'.agent = s.agent)
    (hreads : s'.reads = s.reads) (hlines : s'.lines p = s.lines p)
    (htold : s'.told = s.told ++ news) (hpost : s'.kernel.Post p s.agent)
    (hcaps : s.agent ≠ none → ∀ slot, s'.kernel.caps.capAt (p, slot) =
      s.kernel.caps.capAt (p, slot))
    (hwaits : s'.told.length < 2 ^ 64 → s'.kernel.awaitsRecord p →
      s.kernel.awaitsRecord p ∧ news = [] ∨
        ∀ a, s.agent = some a → a.cursor.toNat = s'.told.length) : s'.Kept p := by
  have hseqs : s'.seqs = s.seqs := by rw [seqs, seqs, hreads]
  have hlen : s'.told.length = s.told.length + news.length := by rw [htold, List.length_append]
  have hcheck : ∀ a, s.agent = some a → ∀ slot kind rights,
      s'.kernel.caps.checkCap (p, slot) kind rights =
        s.kernel.caps.checkCap (p, slot) kind rights := by
    intro a ha slot kind rights
    exact Kernel.checkCap_congr (hcaps (by rw [ha]; simp) slot) kind rights
  refine ⟨hagent ▸ hpost, fun hnone => ?_, fun a ha hleaves hread => ?_,
    fun a ha => h.short a (hagent ▸ ha), fun hfew => ?_⟩
  · rw [hreads, hlines]
    exact h.fresh (hagent ▸ hnone)
  · rw [hagent] at ha
    rw [Kernel.mayRead, hcheck a ha] at hread
    exact h.loyal a ha hleaves hread
  · obtain ⟨hreported, hcursor, hpassed, hgenuine, hcaught⟩ := h.account (by omega)
    rw [← hagent] at hcheck hreported hcursor hpassed hcaught
    refine ⟨fun a ha hprint => ?_, fun a ha => ?_, fun a ha => ?_, fun e he => ?_,
      fun hwait a ha => ?_⟩
    · rw [Kernel.mayPrint, hcheck a ha] at hprint
      rw [hlines, script, hreads]
      exact hreported a ha hprint
    · rw [hreads]
      exact hcursor a ha
    · obtain ⟨hread, hle⟩ := hpassed a ha
      rw [hseqs]
      exact ⟨hread, by omega⟩
    · rw [hreads] at he
      have hget := hgenuine e he
      rw [htold, List.getElem?_append_left (List.getElem?_eq_some_iff.mp hget).1]
      exact hget
    · rcases hwaits hfew hwait with ⟨hbefore, hnone⟩ | hall
      · rw [hcaught hbefore a ha, htold, hnone, List.append_nil]
      · exact hall a (hagent ▸ ha)

/-- **A step of the others.** They may wake the guard, by a record, and can do nothing else to it;
and where they record something while it sleeps, they do wake it. -/
theorem step_system {call : SystemCall} (hsane : s.Sane plat p) (hkept : s.Kept p)
    (hstep : systemStep ed25519 s.kernel call = some k)
    (hcall : call.caller ≠ some (procByte p))
    (hdriver : ∀ c, call = .cap c → c.procId ≠ procByte procIdTier2Uart) :
    (s.move k).Sane plat p ∧ (s.move k).Kept p := by
  obtain ⟨hbeside, hheard, haloof⟩ := Kernel.systemStep_beside hstep hcall hsane.rooted.table
    ⟨hsane.unqueued, hkept.post.wait⟩
  have hcap : ∀ c, call = .cap c → c.procId ≠ procByte p := by
    rintro c rfl hc
    exact hcall (congrArg some hc)
  have hsane' := hsane.move hstep hdriver haloof.queue
  refine ⟨hsane', hkept.moved rfl rfl rfl rfl (hkept.post.beside hbeside) (fun hsome => ?_)
    fun _ hwait => .inl ?_⟩
  · obtain ⟨a, ha⟩ := Option.ne_none_iff_exists'.mp hsome
    have hpost := hkept.post
    rw [ha] at hpost
    exact ((Kernel.systemStep_capAt hstep hsane.rooted).2 p hpost.inTable).2 hcap
  · obtain ⟨hring, -⟩ := (hkept.post.beside hbeside).awaits hwait
    refine ⟨hkept.post.asleep (hbeside.ring hring), ?_⟩
    -- had there been a record, the guard would not wait
    rcases hheard with hnext | hgone
    · exact Kernel.news_eq_nil hnext
    · exact (hgone hring).elim

/-! ## The guard's steps

One lemma a step of the guard. Each names where the guard stands before and after, so that what it
printed and what it read can be compared with its script. -/

/-- What the guard knows is its own business: the kernel's half does not read the fields that
follow it. -/
theorem Sane.knowing (h : s.Sane plat p) (agent : Option GuardAgent) (buf : BitVec 32)
    (reads : List Event) :
    ({ s with agent := agent, buf := buf, reads := reads } : Watcher).Sane plat p :=
  ⟨h.rooted, h.driver, h.uart, h.recorded, h.unqueued, h.once, h.ready, h.handed, h.sent⟩

/-- A guard that may be anywhere in its loop does not wait. -/
theorem not_awaits_of_post (h : ∀ a, k.Post p (some a)) : ¬ k.awaitsRecord p := by
  intro hwait
  obtain ⟨-, a, ha, htodo, -⟩ := (h Agent.start).awaits hwait
  obtain rfl := Option.some.inj ha
  cases htodo

/-- A turn that leaves the endpoints alone keeps the guard out of the queues. -/
theorem Sane.own {t : Turn} (h : s.Sane plat p) (hturn : s.kernel.turn t = some k)
    (hendpoints : k.endpoint? = s.kernel.endpoint?) : (s.move k).Sane plat p := by
  -- no signature is checked in a turn
  have hstep : systemStep (fun _ _ _ => false) s.kernel (.turn t) = some k := hturn
  refine h.move hstep (fun c hc => (by cases hc)) fun side e => ?_
  rw [Kernel.queue_congr hendpoints]
  exact h.unqueued side e

/-- A turn of the guard, after which its loop is where it was. It leaves all endpoints alone, so
the others' queues are of no concern. -/
theorem step_own {t : Turn} (hsane : s.Sane plat p) (hkept : s.Kept p)
    (hturn : s.kernel.turn t = some k) (hendpoints : k.endpoint? = s.kernel.endpoint?)
    (hpost : k.Post p s.agent)
    (hwaits : (s.move k).told.length < 2 ^ 64 → k.awaitsRecord p →
      ∀ a, s.agent = some a → a.cursor.toNat = (s.move k).told.length) :
    (s.move k).Sane plat p ∧ (s.move k).Kept p := by
  have hstep : systemStep (fun _ _ _ => false) s.kernel (.turn t) = some k := hturn
  refine ⟨hsane.own hturn hendpoints, hkept.moved rfl rfl rfl rfl hpost (fun hsome => ?_)
    fun hfew hwait => .inr (hwaits hfew hwait)⟩
  obtain ⟨a, ha⟩ := Option.ne_none_iff_exists'.mp hsome
  have hbefore := hkept.post
  rw [ha] at hbefore
  exact ((Kernel.systemStep_capAt hstep hsane.rooted).2 p hbefore.inTable).2
    fun c hc => (by cases hc)

/-- The guard starts with nothing read and nothing printed. -/
theorem kept_start (hreads : s.reads = []) (hlines : s.lines p = [])
    (hpost : ∀ a, s.kernel.Post p (some a)) :
    ({ s with agent := some Agent.start } : Watcher).Kept p := by
  refine ⟨hpost _, fun h => (by cases h), fun a ha hleaves => ?_, fun a ha line hline => ?_,
    fun hfew => ?_⟩
  · obtain rfl := Option.some.inj ha
    cases hleaves
  · obtain rfl := Option.some.inj ha
    rw [List.mem_singleton.mp hline]
    decide
  · refine ⟨fun a ha _ => ?_, fun a ha => ?_, fun a ha => ?_, fun e he => ?_, fun hwait => ?_⟩
    · obtain rfl := Option.some.inj ha
      change s.lines p ++ [Agent.banner] = Agent.banner :: (Agent.report 0#64 s.reads ++ [])
      rw [hlines, hreads]
      rfl
    · obtain rfl := Option.some.inj ha
      change 0#64 = Agent.cursorAfter 0#64 s.reads
      rw [hreads]
      rfl
    · obtain rfl := Option.some.inj ha
      change Reads 0 (s.reads.map fun e => e.seq.toNat) 0 ∧ 0 ≤ s.told.length
      rw [hreads]
      exact ⟨.nil, Nat.zero_le _⟩
    · change e ∈ s.reads at he
      rw [hreads] at he
      cases he
    · exact (not_awaits_of_post hpost hwait).elim

/-- The guard takes note of what its read returned. -/
theorem answered_eq {a a' : GuardAgent} {rc : ℤ} (ha : s.agent = some a)
    (h : Agent.answered a rc (s.kernel.bufferAt p s.buf) = some a') :
    s.answered p rc = some { s with
      agent := some a'
      reads := if rc = 0 ∨ rc = 2 then s.reads ++ [Agent.decode (s.kernel.bufferAt p s.buf)]
        else s.reads } := by
  simp [answered, ha, h]

/-- Told to ask again, the guard is where it was. -/
theorem answered_one {a : GuardAgent} (ha : s.agent = some a) : s.answered p 1 = some s := by
  obtain ⟨kernel, console, agent, buf, wrote, told, reads⟩ := s
  obtain rfl : agent = some a := ha
  simp [answered]

/-- **The guard is dispatched.** It was ready for one of two reasons, and its seat says which: it
was never entered, or a record woke it from its read. -/
theorem step_enter {image : Option Bytes} (hsane : s.Sane plat p) (hkept : s.Kept p)
    (hturn : s.kernel.turn (.dispatch p (image.map some)) = some k)
    (hs' : (s.move k).entered p = some s') : s'.Sane plat p ∧ s'.Kept p := by
  obtain ⟨hendpoints, hend | ⟨slot', hslot', hpost, hwhy⟩⟩ :=
    Kernel.post_dispatch hkept.post hturn
  · obtain ⟨hnone, hpool, hpost⟩ := hend
    rw [entered, show (s.move k).kernel.tier1Pool p = none from hpool] at hs'
    obtain rfl := Option.some.inj hs'
    refine step_own hsane hkept hturn hendpoints (hnone ▸ hpost) fun _ hwait => ?_
    obtain ⟨-, a, ha, -⟩ := hpost.awaits hwait
    cases ha
  · rw [entered, show (s.move k).kernel.tier1Pool p = some slot' from hslot'] at hs'
    simp only at hs'
    rcases hagent : s.agent with _ | a
    · have hnone : (s.move k).agent = none := hagent
      rw [hnone] at hs'
      obtain rfl := Option.some.inj hs'
      obtain ⟨hreads, hlines⟩ := hkept.fresh hagent
      exact ⟨(hsane.own hturn hendpoints).knowing _ _ _, kept_start hreads hlines hpost⟩
    · have hsome : (s.move k).agent = some a := hagent
      rw [hsome] at hs'
      rcases hwhy with hnone | ⟨hresume, -⟩
      · rw [hagent] at hnone
        cases hnone
      · obtain ⟨hsane', hkept'⟩ := step_own hsane hkept hturn hendpoints (hagent ▸ hpost a)
          fun _ hwait => (not_awaits_of_post hpost hwait).elim
        rw [hresume, answered_one hsome] at hs'
        obtain rfl := Option.some.inj hs'
        exact ⟨hsane', hkept'⟩

/-- **The guard exits.** It is over from there on, and stays so, since nothing can be woken that
waits for nothing. -/
theorem step_exit {cursor : BitVec 64} (hsane : s.Sane plat p) (hkept : s.Kept p)
    {ending : Ending} (ha : s.agent = some ⟨cursor, [], true⟩)
    (hturn : s.kernel.turn (.finish p ending) = some k) :
    (s.move k).Sane plat p ∧ (s.move k).Kept p := by
  obtain ⟨hendpoints, hpost⟩ := Kernel.post_finish (a := ⟨cursor, [], true⟩) ⟨rfl, rfl⟩ hturn
  refine step_own hsane hkept hturn hendpoints (ha ▸ hpost) fun _ hwait => ?_
  obtain ⟨-, a, ha', -, hleaves⟩ := hpost.awaits hwait
  obtain rfl := Option.some.inj ha'
  cases hleaves

/-- The running guard has another memory after it computed, and everything else is kept. -/
theorem step_compute {memory : Bytes} {a : GuardAgent} (hsane : s.Sane plat p) (hkept : s.Kept p)
    (ha : s.agent = some a) (hturn : s.kernel.turn (.compute p memory) = some k) :
    (s.move k).Sane plat p ∧ (s.move k).Kept p ∧ (∀ a', k.Post p (some a')) ∧
      k.memoryOf p = some memory ∧ k.stateAt p = some .running := by
  have hpost := hkept.post
  rw [ha] at hpost
  obtain ⟨-, hendpoints, hmem, hrun, -⟩ := Kernel.post_compute hpost hturn a
  have hany : ∀ a', k.Post p (some a') := fun a' => (Kernel.post_compute hpost hturn a').1
  obtain ⟨hsane', hkept'⟩ := step_own hsane hkept hturn hendpoints (ha ▸ hany a)
    fun _ hwait => (not_awaits_of_post hany hwait).elim
  exact ⟨hsane', hkept', hany, hmem, hrun⟩

/-- What was handed to the console is on record. -/
theorem Sane.printing {console : Console} {text : Bytes} (h : s.Sane plat p) (q : Proc)
    (hprints : Console.Prints plat s.console console text) :
    ({ s with
      console := console
      wrote := s.wrote ++ [(q, console.uart.handed.drop s.console.uart.handed.length)] } :
        Watcher).Sane plat p := by
  have hchunk : console.uart.handed.drop s.console.uart.handed.length = text := by
    rw [hprints.handed, List.drop_left]
  refine ⟨h.rooted, h.driver, h.uart, h.recorded, h.unqueued, h.once, hprints.ready h.ready, ?_,
    fun hplat => ?_⟩
  · change console.uart.handed = _
    rw [hchunk, hprints.handed, h.handed]
    simp
  · change console.uart.sent = console.uart.handed
    rw [hprints.sent hplat, hprints.handed, h.sent hplat]

/-- **Another tenant prints.** The console now shows its text as well, whole and behind what was
there; the guard's own lines are as they were. -/
theorem step_write {fuel : ℕ} {fd iovsPtr iovsLen nwrittenPtr : BitVec 32}
    {out : BitVec 32 × Kernel × Console} (hsane : s.Sane plat p) (hkept : s.Kept p) (hq : q ≠ p)
    (hrun : s.kernel.stateAt q = some .running)
    (hwrite : s.kernel.hostFdWrite hw plat fuel s.console q fd iovsPtr iovsLen nwrittenPtr =
      some out) : (s.printed q out.2.1 out.2.2).Sane plat p ∧
      (s.printed q out.2.1 out.2.2).Kept p := by
  obtain ⟨errno, k', console'⟩ := out
  obtain ⟨text, hwritten⟩ := Kernel.hostFdWrite_written hwrite
  obtain ⟨-, hmemory⟩ := hwritten.turn hrun
  have hmoved : (s.move k').Sane plat p ∧ (s.move k').Kept p := by
    rcases hmemory with rfl | ⟨memory, hturn⟩
    · rw [move_self]
      exact ⟨hsane, hkept⟩
    · have hstep : systemStep (fun _ _ _ => false) s.kernel (.turn (.compute q memory)) =
          some k' := hturn
      refine step_system hsane hkept hstep (fun hcaller => ?_) fun c hc => (by cases hc)
      exact hq (procByte_inj (Option.some.inj hcaller))
  obtain ⟨hsane', hkept'⟩ := hmoved
  have hlines : (s.printed q k' console').lines p = (s.move k').lines p := by
    simp [lines, printed, move, List.filter_append, hq]
  have hnews : (s.printed q k' console').told = (s.move k').told ++ [] := (List.append_nil _).symm
  exact ⟨hsane'.printing q hwritten.prints, hkept'.moved rfl rfl hlines hnews hkept'.post
    (fun _ _ => rfl) fun _ hwait => .inl ⟨hwait, rfl⟩⟩

/-- **The guard prints.** Its line is short enough for one call and its list of texts is in its
memory, so the whole line is handed over, or none of it where it may not print. -/
theorem step_print {fuel : ℕ} {memory line : Bytes} {todo : List Bytes} {cursor : BitVec 64}
    {leaves : Bool} {iovsPtr nwrittenPtr : BitVec 32} {out : BitVec 32 × Kernel × Console}
    (hsane : s.Sane plat p) (hkept : s.Kept p) (ha : s.agent = some ⟨cursor, line :: todo, leaves⟩)
    (hpoints : pointsAt memory iovsPtr line = true)
    (hturn : s.kernel.turn (.compute p memory) = some k)
    (hwrite : k.hostFdWrite hw plat fuel s.console p 1#32 iovsPtr 1#32 nwrittenPtr = some out) :
    ({ (s.move k).printed p out.2.1 out.2.2 with agent := some ⟨cursor, todo, leaves⟩ } :
      Watcher).Sane plat p ∧
      ({ (s.move k).printed p out.2.1 out.2.2 with agent := some ⟨cursor, todo, leaves⟩ } :
        Watcher).Kept p := by
  obtain ⟨hsane₁, hkept₁, hany, hmem, hrun⟩ := step_compute hsane hkept ha hturn
  obtain ⟨errno, k', console'⟩ := out
  obtain ⟨text, hwritten⟩ := Kernel.hostFdWrite_written hwrite
  obtain ⟨hcaps, hmemory⟩ := hwritten.turn hrun
  have ha₁ : (s.move k).agent = some ⟨cursor, line :: todo, leaves⟩ := ha
  have hmoved : ((s.move k).move k').Sane plat p ∧ ((s.move k).move k').Kept p ∧
      ∀ a', k'.Post p (some a') := by
    rcases hmemory with rfl | ⟨memory', hturn'⟩
    · have hself : (s.move k').move k' = s.move k' := move_self (s.move k')
      rw [hself]
      exact ⟨hsane₁, hkept₁, hany⟩
    · obtain ⟨hsane₂, hkept₂, hany₂, -⟩ := step_compute hsane₁ hkept₁ ha₁ hturn'
      exact ⟨hsane₂, hkept₂, hany₂⟩
  obtain ⟨hsane₂, hkept₂, hany₂⟩ := hmoved
  refine ⟨(hsane₂.printing p hwritten.prints).knowing _ _ _, hany₂ _, fun h => (by cases h),
    fun a ha' hleaves => ?_, fun a ha' line' hline => ?_, fun hfew => ?_⟩
  · obtain rfl := Option.some.inj ha'
    exact hkept₂.loyal _ ha hleaves
  · obtain rfl := Option.some.inj ha'
    exact hkept.short _ ha line' (List.mem_cons_of_mem _ hline)
  · obtain ⟨hreported, hcursor, hpassed, hgenuine, -⟩ := hkept₂.account hfew
    refine ⟨fun a ha' hprint => ?_, fun a ha' => ?_, fun a ha' => ?_, hgenuine,
      fun hwait => (not_awaits_of_post hany₂ hwait).elim⟩
    · obtain rfl := Option.some.inj ha'
      have hscript := hreported _ ha hprint
      have hprint₁ : k.mayPrint p := by
        rw [Kernel.mayPrint, ← hcaps]
        exact hprint
      have hshort : line.length ≤ fdWriteMax :=
        Nat.le_trans (hkept.short _ ha line List.mem_cons_self) (by decide)
      have htext : text = line := hwritten.served hsane₁.ready hsane₁.uart hprint₁ rfl (by decide)
        line (Kernel.fdText_of_pointsAt hmem hpoints hshort)
      have hchunk : console'.uart.handed.drop s.console.uart.handed.length = line := by
        have hhanded : console'.uart.handed = s.console.uart.handed ++ text :=
          hwritten.prints.handed
        rw [hhanded, List.drop_left, htext]
      have hlines : ((s.move k).printed p k' console').lines p =
          ((s.move k).move k').lines p ++ [line] := by
        simp [lines, printed, move, List.filter_append, hchunk]
      change ((s.move k).printed p k' console').lines p ++ todo = _
      rw [hlines, List.append_assoc]
      exact hscript
    · obtain rfl := Option.some.inj ha'
      exact hcursor ⟨cursor, line :: todo, leaves⟩ ha
    · obtain rfl := Option.some.inj ha'
      exact hpassed ⟨cursor, line :: todo, leaves⟩ ha

/-- There is room for the guard to wait: nobody waits twice and the list has a place for every
process, so the arm of `event_read` that answers `1` is never taken. -/
theorem Sane.room {a : GuardAgent} (h : s.Sane plat p) (hpost : s.kernel.Post p (some a))
    (hrun : s.kernel.stateAt p = some .running) : s.kernel.registerWaiter p ≠ none := by
  have hnew : ∀ i, s.kernel.events.ringWaiters i ≠ some p := fun i hi =>
    hpost.not_waiting hrun (Kernel.mem_ringWaiterList.mpr ⟨i, hi⟩)
  obtain ⟨k₁, hreg⟩ := Kernel.registerWaiter_isSome hnew h.once
  rw [hreg]
  exact Option.some_ne_none k₁

/-- A guard that has caught up sleeps. This is where the account is complete: its cursor is the
number of records there are. -/
theorem read_slept {cursor : BitVec 64} {lo hi outPtr : BitVec 32} (hsane : s.Sane plat p)
    (hkept : s.Kept p) (ha : s.agent = some ⟨cursor, [], false⟩)
    (hturn : s.kernel.turn (.eventRead p lo hi outPtr) = some k)
    (hread : s.kernel.events.readAt cursor = .upToDate)
    (hnext : k.events.nextSeq = s.kernel.events.nextSeq)
    (hendpoints : k.endpoint? = s.kernel.endpoint?)
    (hpost : ∀ a : GuardAgent, a.Idle → k.Post p (some a)) :
    (s.move k).Sane plat p ∧ (s.move k).Kept p := by
  refine step_own hsane hkept hturn hendpoints (ha ▸ hpost _ ⟨rfl, rfl⟩) fun hfew _ a ha' => ?_
  have htold : (s.move k).told = s.told := by
    change s.told ++ s.kernel.news k = _
    rw [Kernel.news_eq_nil hnext, List.append_nil]
  rw [htold] at hfew ⊢
  obtain ⟨emitted, hall, hrecorded⟩ := hsane.recorded
  have hlen : s.told.length = emitted.length := by rw [hall, length_records]
  have hle := ((hkept.account hfew).passed a ha').2
  obtain rfl := Option.some.inj (ha.symm.trans ha')
  rw [hlen] at hfew hle ⊢
  have hbehind := Events.readAt_upToDate.mp hread
  rw [BitVec.le_def, hrecorded.toNat_next hfew] at hbehind
  exact Nat.le_antisymm hle hbehind

/-- A guard that gets a record prints it next, after a line on the gap where there is one. -/
theorem read_got {cursor : BitVec 64} {lo hi : BitVec 32} {rc : ℤ} {e : Event}
    (hsane : s.Sane plat p) (hkept : s.Kept p) (ha : s.agent = some ⟨cursor, [], false⟩)
    (hturn : s.kernel.turn (.eventRead p lo hi s.buf) = some k)
    (hread : rc = 0 ∧ s.kernel.events.readAt cursor = .record e ∨
      rc = 2 ∧ s.kernel.events.readAt cursor = .lagged e)
    (hevents : k.events = s.kernel.events) (hendpoints : k.endpoint? = s.kernel.endpoint?)
    (hpost : ∀ a, k.Post p (some a)) (hbuf : k.bufferAt p s.buf = encodeEvent e) :
    ∃ s', (s.move k).answered p rc = some s' ∧ s'.Sane plat p ∧ s'.Kept p := by
  obtain ⟨hsane', hkept'⟩ := step_own hsane hkept hturn hendpoints (ha ▸ hpost _)
    fun _ hwait => (not_awaits_of_post hpost hwait).elim
  have hrc : rc = 0 ∨ rc = 2 := hread.imp And.left And.left
  obtain ⟨todo, -, hshort, htodo⟩ := Agent.answered_got (s := ⟨cursor, [], false⟩) hrc e
  have hanswer := answered_eq (s := s.move k) (p := p) ha (hbuf ▸ htodo)
  have hbuf' : (s.move k).kernel.bufferAt p (s.move k).buf = encodeEvent e := hbuf
  rw [if_pos hrc, hbuf', Agent.decode_encodeEvent] at hanswer
  refine ⟨_, hanswer, hsane'.knowing _ _ _, hpost _, fun h => (by cases h), fun a ha' hleaves => ?_,
    fun a ha' => ?_, fun hfew => ?_⟩
  · obtain rfl := Option.some.inj ha'
    cases hleaves
  · obtain rfl := Option.some.inj ha'
    exact hshort
  · have htold : (s.move k).told = s.told := by
      change s.told ++ s.kernel.news k = _
      rw [Kernel.news_eq_nil (by rw [hevents]), List.append_nil]
    change (s.move k).told.length < 2 ^ 64 at hfew
    obtain ⟨hreported, hcursor, hpassed, hgenuine, -⟩ := hkept'.account hfew
    rw [htold] at hfew hpassed hgenuine
    -- the record is the one at the cursor, or a later one
    obtain ⟨emitted, hall, hrecorded⟩ := hsane.recorded
    have hlen : s.told.length = emitted.length := by rw [hall, length_records]
    obtain ⟨hplace, hget⟩ : (rc = 0 ∧ e.seq = cursor ∨ rc = 2 ∧ cursor < e.seq) ∧
        s.told[e.seq.toNat]? = some e := by
      rcases hrecorded.readAt (hlen ▸ hfew) cursor with ⟨hnone, -⟩ | ⟨e', hfound, hget, -⟩
      · rcases hread with ⟨-, hread⟩ | ⟨-, hread⟩ <;>
        · rw [hread] at hnone
          cases hnone
      · rw [← hall] at hget
        rcases hread with ⟨hrc, hread⟩ | ⟨hrc, hread⟩ <;>
        · rw [hread] at hfound
          rcases hfound with ⟨hsame, hseq⟩ | ⟨hsame, hseq⟩ <;> cases hsame
          first
          | exact ⟨.inl ⟨hrc, hseq⟩, hget⟩
          | exact ⟨.inr ⟨hrc, hseq⟩, hget⟩
    have hlater : cursor ≤ e.seq := by
      rcases hplace with ⟨-, hseq⟩ | ⟨-, hlt⟩
      · rw [hseq]
        exact BitVec.le_refl _
      · exact BitVec.le_of_lt hlt
    have hlt : e.seq.toNat < s.told.length := (List.getElem?_eq_some_iff.mp hget).1
    have hsucc : (wrappingSucc e.seq).toNat = e.seq.toNat + 1 := by
      rw [wrappingSucc, BitVec.toNat_add]
      exact Nat.mod_eq_of_lt (by change _ + 1 < _; omega)
    obtain rfl : todo = Agent.recordLines cursor e := by
      have hprints := Agent.answered_record (s := ⟨cursor, [], false⟩) hplace
      rw [htodo] at hprints
      exact (GuardAgent.mk.inj (Option.some.inj hprints)).2.1
    refine ⟨fun a ha' hprint => ?_, fun a ha' => ?_, fun a ha' => ?_, fun e' he' => ?_,
      fun hwait => (not_awaits_of_post hpost hwait).elim⟩
    · obtain rfl := Option.some.inj ha'
      have hscript := hreported ⟨cursor, [], false⟩ ha hprint
      have hwanted : cursor = Agent.cursorAfter 0#64 s.reads := hcursor ⟨cursor, [], false⟩ ha
      change (s.move k).lines p ++ [] = Agent.banner :: (Agent.report 0#64 s.reads ++ []) at hscript
      change (s.move k).lines p ++ Agent.recordLines cursor e =
        Agent.banner :: (Agent.report 0#64 (s.reads ++ [e]) ++ [])
      rw [List.append_nil] at hscript
      rw [hscript, Agent.report_concat, ← hwanted]
      simp
    · obtain rfl := Option.some.inj ha'
      exact (Agent.cursorAfter_concat 0#64 s.reads e).symm
    · obtain rfl := Option.some.inj ha'
      obtain ⟨hpast, -⟩ := hpassed ⟨cursor, [], false⟩ ha
      have hmore := hpast.snoc (show cursor.toNat ≤ e.seq.toNat from hlater)
      rw [← hsucc] at hmore
      refine ⟨?_, ?_⟩
      · change Reads 0 ((s.reads ++ [e]).map fun e => e.seq.toNat) _
        rw [List.map_append]
        exact hmore
      · change (wrappingSucc e.seq).toNat ≤ (s.move k).told.length
        rw [htold, hsucc]
        exact hlt
    · change (s.move k).told[e'.seq.toNat]? = some e'
      rw [htold]
      rcases List.mem_append.mp he' with hold | hnew
      · exact hgenuine e' hold
      · rw [List.mem_singleton.mp hnew]
        exact hget

/-- A guard that may not read is about to leave. -/
theorem read_denied {cursor : BitVec 64} {rc : ℤ} (hsane : s.Sane plat p) (hkept : s.Kept p)
    (ha : s.agent = some ⟨cursor, [], false⟩) (hpost : ∀ a, s.kernel.Post p (some a))
    (hrc : rc < 0) (hdenied : ¬ s.kernel.mayRead p) :
    ∃ s', s.answered p rc = some s' ∧ s'.Sane plat p ∧ s'.Kept p := by
  have hanswer := answered_eq (p := p) ha (Agent.answered_error hrc (s.kernel.bufferAt p s.buf))
  rw [if_neg (by omega)] at hanswer
  refine ⟨_, hanswer, hsane.knowing _ _ _, hpost _, fun h => (by cases h), fun _ _ _ => hdenied,
    fun a ha' line hline => ?_, fun hfew => ?_⟩
  · obtain rfl := Option.some.inj ha'
    rw [List.mem_singleton.mp hline]
    decide
  obtain ⟨hreported, hcursor, hpassed, hgenuine, -⟩ := hkept.account hfew
  refine ⟨fun a ha' hprint => ?_, fun a ha' => ?_, fun a ha' => ?_, hgenuine,
    fun hwait => (not_awaits_of_post hpost hwait).elim⟩
  · obtain rfl := Option.some.inj ha'
    have hscript := hreported ⟨cursor, [], false⟩ ha hprint
    change s.lines p ++ [] = Agent.banner :: (Agent.report 0#64 s.reads ++ []) at hscript
    rw [List.append_nil, List.append_nil] at hscript
    change s.lines p ++ [Agent.readErr] =
      Agent.banner :: (Agent.report 0#64 s.reads ++ [Agent.readErr])
    rw [hscript]
    rfl
  · obtain rfl := Option.some.inj ha'
    exact hcursor ⟨cursor, [], false⟩ ha
  · obtain rfl := Option.some.inj ha'
    exact hpassed ⟨cursor, [], false⟩ ha

/-- A cursor is put together again from the two halves that a call passes. -/
theorem append_halves (cursor : BitVec 64) :
    (cursor >>> 32).setWidth 32 ++ cursor.setWidth 32 = cursor := by
  grind

/-- Where the buffer is does not matter before the read. -/
theorem Kept.buffering (h : s.Kept p) (buf : BitVec 32) :
    ({ s with buf := buf } : Watcher).Kept p :=
  ⟨h.post, h.fresh, h.loyal, h.short, fun hfew =>
    have haccount := h.account hfew
    ⟨haccount.reported, haccount.cursor, haccount.passed, haccount.genuine, haccount.caught⟩⟩

/-- **The guard reads**: it gets the record at its cursor or the oldest that is left, goes to
sleep, or is refused. -/
theorem step_read {memory : Bytes} {cursor : BitVec 64} {outPtr : BitVec 32} {k' : Kernel}
    (hsane : s.Sane plat p) (hkept : s.Kept p) (ha : s.agent = some ⟨cursor, [], false⟩)
    (hfits : outPtr.toNat + 16 ≤ memory.length)
    (hturn : s.kernel.turn (.compute p memory) = some k)
    (hread : k.turn (.eventRead p (cursor.setWidth 32) ((cursor >>> 32).setWidth 32) outPtr) =
      some k') :
    ∃ s', (match (k.eventReadImpl p (cursor.setWidth 32) ((cursor >>> 32).setWidth 32) outPtr).1
        with
      | none => some (Watcher.move { s.move k with buf := outPtr } k')
      | some rc => (Watcher.move { s.move k with buf := outPtr } k').answered p rc) = some s' ∧
      s'.Sane plat p ∧ s'.Kept p := by
  obtain ⟨hsane₁, hkept₁, hany, hmem, hrun⟩ := step_compute hsane hkept ha hturn
  have hreading := Kernel.post_read (hany Agent.start) hrun hmem hfits (append_halves cursor) hread
  have hsane₂ : ({ s.move k with buf := outPtr } : Watcher).Sane plat p := hsane₁.knowing _ _ _
  have hkept₂ := hkept₁.buffering outPtr
  generalize hs₂ : ({ s.move k with buf := outPtr } : Watcher) = s₂ at hsane₂ hkept₂ ⊢
  have hk : s₂.kernel = k := by
    rw [← hs₂]
    rfl
  have ha₂ : s₂.agent = some ⟨cursor, [], false⟩ := by
    rw [← hs₂]
    exact ha
  have hbuf : s₂.buf = outPtr := by rw [← hs₂]
  subst hk hbuf
  generalize (s₂.kernel.eventReadImpl p _ _ s₂.buf).1 = rc at hreading ⊢
  cases hreading with
  | denied hrc hdenied =>
    rw [move_self]
    exact read_denied hsane₂ hkept₂ ha₂ hany hrc hdenied
  | full hfull => exact (hsane₂.room (hany Agent.start) hrun hfull).elim
  | got hgot hevents hendpoints hpost hrecord =>
    exact read_got hsane₂ hkept₂ ha₂ hread hgot hevents hendpoints hpost hrecord
  | slept hnone hnext hendpoints _ hpost =>
    obtain ⟨hsane', hkept'⟩ := read_slept hsane₂ hkept₂ ha₂ hread hnone hnext hendpoints hpost
    exact ⟨_, rfl, hsane', hkept'⟩

/-! ## Runs

Each kind of step is inverted once, and the two halves of the invariant are put together along a
run. -/

/-- A step of printing is a line printed. -/
theorem print_cases {memory : Bytes} {iovsPtr nwrittenPtr : BitVec 32} {fuel : ℕ}
    (h : s.step ed25519 hw plat p (.print memory iovsPtr nwrittenPtr fuel) = some s') :
    ∃ cursor line todo leaves k out, s.agent = some ⟨cursor, line :: todo, leaves⟩ ∧
      pointsAt memory iovsPtr line = true ∧ s.kernel.turn (.compute p memory) = some k ∧
      k.hostFdWrite hw plat fuel s.console p 1#32 iovsPtr 1#32 nwrittenPtr = some out ∧
      s' = { (s.move k).printed p out.2.1 out.2.2 with agent := some ⟨cursor, todo, leaves⟩ } := by
  simp only [step] at h
  split at h
  · rename_i cursor line todo leaves ha
    split at h
    · rename_i hpoints
      obtain ⟨k, hturn, hrest⟩ := Option.bind_eq_some_iff.mp h
      obtain ⟨out, hwrite, hs'⟩ := Option.bind_eq_some_iff.mp hrest
      exact ⟨cursor, line, todo, leaves, k, out, ha, hpoints, hturn, hwrite,
        (Option.some.inj hs').symm⟩
    · cases h
  · cases h

/-- A step of reading is a read of the kernel at the guard's cursor, with its answer taken in. -/
theorem read_cases {memory : Bytes} {outPtr : BitVec 32}
    (h : s.step ed25519 hw plat p (.read memory outPtr) = some s') :
    ∃ cursor k k', s.agent = some ⟨cursor, [], false⟩ ∧ outPtr.toNat + 16 ≤ memory.length ∧
      s.kernel.turn (.compute p memory) = some k ∧
      k.turn (.eventRead p (cursor.setWidth 32) ((cursor >>> 32).setWidth 32) outPtr) = some k' ∧
      (match (k.eventReadImpl p (cursor.setWidth 32) ((cursor >>> 32).setWidth 32) outPtr).1 with
        | none => some (Watcher.move { s.move k with buf := outPtr } k')
        | some rc => (Watcher.move { s.move k with buf := outPtr } k').answered p rc) =
          some s' := by
  simp only [step] at h
  split at h
  · rename_i cursor ha
    split at h
    · rename_i hfits
      obtain ⟨k, hturn, hrest⟩ := Option.bind_eq_some_iff.mp h
      obtain ⟨k', hread, hs'⟩ := Option.bind_eq_some_iff.mp hrest
      exact ⟨cursor, k, k', ha, hfits, hturn, hread, hs'⟩
    · cases h
  · cases h

/-- A guard that exits is at its end. -/
theorem exit_cases (h : s.step ed25519 hw plat p .exit = some s') :
    ∃ cursor k, s.agent = some ⟨cursor, [], true⟩ ∧
      s.kernel.turn (.finish p (s.kernel.hostProcExit p 0#32)) = some k ∧ s' = s.move k := by
  simp only [step] at h
  split at h
  · rename_i cursor ha
    obtain ⟨k, hturn, hs'⟩ := Option.map_eq_some_iff.mp h
    exact ⟨cursor, k, ha, hturn, hs'.symm⟩
  · cases h

/-- **What a step keeps.** Every kind of step, the guard's and the others'. -/
theorem inv_step {call : WatcherCall} (hsane : s.Sane plat p) (hkept : s.Kept p)
    (h : s.step ed25519 hw plat p call = some s') : s'.Sane plat p ∧ s'.Kept p := by
  cases call with
  | system call =>
    simp only [step] at h
    split at h
    · cases h
    · rename_i hothers
      obtain ⟨hguard, hdriver⟩ := not_or.mp hothers
      obtain ⟨k, hstep, rfl⟩ := Option.map_eq_some_iff.mp h
      refine step_system hsane hkept hstep hguard ?_
      rintro c rfl hc
      exact hdriver (congrArg some hc)
  | write q fd iovsPtr iovsLen nwrittenPtr fuel =>
    simp only [step] at h
    split at h
    · rename_i hq
      obtain ⟨out, hwrite, rfl⟩ := Option.map_eq_some_iff.mp h
      exact step_write hsane hkept hq.1 hq.2 hwrite
    · cases h
  | enter image =>
    obtain ⟨k, hturn, hs'⟩ := Option.bind_eq_some_iff.mp h
    exact step_enter hsane hkept hturn hs'
  | print memory iovsPtr nwrittenPtr fuel =>
    obtain ⟨cursor, line, todo, leaves, k, out, ha, hpoints, hturn, hwrite, rfl⟩ := print_cases h
    exact step_print hsane hkept ha hpoints hturn hwrite
  | read memory outPtr =>
    obtain ⟨cursor, k, k', ha, hfits, hturn, hread, hs'⟩ := read_cases h
    obtain ⟨s'', hs'', hsane', hkept'⟩ := step_read hsane hkept ha hfits hturn hread
    obtain rfl : s'' = s' := Option.some.inj (hs''.symm.trans hs')
    exact ⟨hsane', hkept'⟩
  | exit =>
    obtain ⟨cursor, k, ha, hturn, rfl⟩ := exit_cases h
    exact step_exit hsane hkept ha hturn

/-- At boot there is no guard yet, nothing was printed and the stream is empty. -/
theorem inv_init {board : Board}
    (h : (watcherMachine ed25519 board hw plat p).init s) : s.Sane plat p ∧ s.Kept p := by
  obtain ⟨kernel, console, agent, buf, wrote, told, reads⟩ := s
  obtain ⟨rfl, hready, hhanded, hsent, rfl, rfl, rfl, rfl⟩ := h
  have hidle := Kernel.booted_idle board
  have hring : p ∉ (Kernel.booted board).ringWaiterList := by
    rw [hidle.ring_nil]
    exact List.not_mem_nil
  refine ⟨⟨Kernel.rooted_booted board, ?_, ?_, ⟨[], rfl, Events.recorded_new⟩, fun side e => ?_,
    Kernel.once_booted board, hready, hhanded, fun _ => hsent.trans hhanded.symm⟩, ?_⟩
  · intro hnone
    cases hnone
  · exact checkUart_bootState board
  · rw [hidle.queue_nil]
    exact List.not_mem_nil
  · refine ⟨.out rfl hring (hidle.not_running p) (hidle.not_blocked p), fun _ => ⟨rfl, rfl⟩,
      fun a ha => (by cases ha), fun a ha => (by cases ha), fun _ => ?_⟩
    exact ⟨fun a ha => (by cases ha), fun a ha => (by cases ha), fun a ha => (by cases ha),
      fun e he => (by cases he), fun _ a ha => (by cases ha)⟩

/-- Every run keeps the invariant, by the step lemmas for each kind of step. -/
theorem inv_always (board : Board) :
    (watcherMachine ed25519 board hw plat p).Always fun s => s.Sane plat p ∧ s.Kept p :=
  Machine.always_of_step (fun _ h => inv_init h) fun _ _ _ h hstep => inv_step h.1 h.2 hstep

/-- What is kept is what is promised, as long as there were fewer than `2 ^ 64` records. -/
theorem Kept.audited (hsane : s.Sane plat p) (hkept : s.Kept p) (hfew : s.told.length < 2 ^ 64) :
    s.Audited plat p := by
  obtain ⟨hreported, -, hpassed, hgenuine, hcaught⟩ := hkept.account hfew
  have haccounted : ∀ a, s.agent = some a →
      s.reads.length + s.missed = a.cursor.toNat ∧ a.cursor.toNat ≤ s.told.length := by
    intro a ha
    obtain ⟨hread, hle⟩ := hpassed a ha
    have hall := hread.accounts
    rw [seqs, List.length_map] at hall
    exact ⟨hall, hle⟩
  refine ⟨⟨hsane.handed, hsane.sent⟩, fun hprint a ha => hreported a ha hprint, ?_, hgenuine,
    haccounted, fun hwait => ?_, fun hread a ha => ?_⟩
  · rcases hagent : s.agent with _ | a
    · rw [(hkept.fresh hagent).1]
      exact List.Pairwise.nil
    · have hup := (hpassed a hagent).1.increasing
      rw [seqs, List.pairwise_map] at hup
      exact hup
  · obtain ⟨-, a, ha, htodo, hleaves⟩ := hkept.post.awaits hwait
    refine ⟨(haccounted a ha).1.trans (hcaught hwait a ha), fun hprint => ?_⟩
    have hscript := hreported a ha hprint
    rw [htodo, List.append_nil, script, hleaves] at hscript
    rw [hscript]
    simp
  · have hstays : a.leaves = false := by
      rw [← Bool.not_eq_true]
      exact fun hleaves => hkept.loyal a ha hleaves hread
    refine ⟨hstays, fun hover => ?_⟩
    have hpost := hkept.post
    rw [ha] at hpost
    rw [(hpost.overs hover).2] at hstays
    cases hstays

end Watcher

/-- **The guard audits the system.** From boot, under whatever the others do and in every
order, what the guard has on the console is the report of records that are genuine and in
order, and with the gaps it reports they are everything up to where it stands: all there is
whenever it sleeps. As long as it may read it never stops. -/
theorem guard_audits (ed25519 : Ed25519) (board : Board) (hw : UartHw) (plat : UartPlatform)
    (p : Proc) :
    (watcherMachine ed25519 board hw plat p).Always fun s =>
      s.told.length < 2 ^ 64 → s.Audited plat p :=
  (Watcher.inv_always board).mono fun _ h hfew => Watcher.Kept.audited h.1 h.2 hfew

end Wari
