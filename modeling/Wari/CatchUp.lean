import Wari.Lib.Within
import Wari.Watcher

/-!
# The guard catches up

Once it runs, the guard is never stuck. If the others leave it the hart it reads what there is
and prints it, and in a bounded number of steps it sleeps: three at most for each record it did
not read yet. Only where it may not read it ends instead (`guard_catches_up`). Its `event_read`
has an answer for a caller that finds no place to wait, and a guard that got it would spin: it
never does, since there is a place for every process.
-/

namespace Wari

open Lib (Bytes Machine Reads readAt ofLe toLe zeros)

/-- The steps of a guard that runs: it prints, reads or ends. Being entered is the scheduler's
step, and not its own. -/
def WatcherCall.Own : WatcherCall → Prop
  | .print .. | .read .. | .exit => True
  | .system _ | .write .. | .enter _ => False

namespace Watcher

/-- The guard is at rest. Either it sleeps, with every record behind it and nothing left to print,
or it is over, which takes that it may not read. A guard that spins or is stuck half way is
neither. -/
def Rests (s : Watcher) (p : Proc) : Prop :=
  (s.kernel.awaitsRecord p ∧
    ∃ a, s.agent = some a ∧ a.todo = [] ∧ a.cursor.toNat = s.told.length) ∨
  (s.kernel.overAt p ∧ ¬ s.kernel.mayRead p)

/-- A read of the guard is told to ask again at once, as nothing is there and there is no place to
wait: the polling fallback, which the source calls unreachable and which would keep the hart busy.
-/
def Polls (s : Watcher) (p : Proc) : Prop :=
  ∃ cursor memory outPtr k, s.agent = some ⟨cursor, [], false⟩ ∧
    outPtr.toNat + 16 ≤ memory.length ∧ s.kernel.turn (.compute p memory) = some k ∧
    (k.eventReadImpl p (cursor.setWidth 32) ((cursor >>> 32).setWidth 32) outPtr).1 = some 1

/-- How much the guard has before it: what it is about to print, and for each record it did
not read a read and two lines. -/
def ahead (s : Watcher) : ℕ :=
  match s.agent with
  | none => 0
  | some a =>
    a.todo.length + if a.leaves then 0 else 3 * (s.told.length - a.cursor.toNat) + 2

end Watcher

/-! ## What the guard can do

A running guard always has a step: the memory it needs for the text can be chosen, the driver
comes back as long as the line goes on, and every read is answered. -/

namespace Kernel

section Guard

variable {k k' : Kernel} {p : Proc} {a : GuardAgent}

/-- Whoever may stand anywhere in its loop runs. -/
theorem running_of_post (h : ∀ a, k.Post p (some a)) : k.stateAt p = some .running := by
  cases h Agent.start with
  | runs hstate => exact hstate
  | waits _ _ _ _ _ hidle => cases hidle.1
  | woken _ _ _ _ _ _ hidle => cases hidle.1
  | left _ _ _ hdone => cases hdone.1

/-- Whoever runs may compute: every memory that is large enough is one it can leave behind. -/
theorem Post.computes (h : k.Post p (some a)) (hrun : k.stateAt p = some .running) :
    ∃ size, ∀ memory : Bytes, size ≤ memory.length →
      ∃ k', k.turn (.compute p memory) = some k' := by
  cases h with
  | @runs a slot old hstate hslot hmem =>
    refine ⟨old.length, fun memory hsize =>
      ⟨k.setInstance p { slot with memory := some memory }, ?_⟩⟩
    simp only [turn, hslot, hmem]
    exact if_pos ⟨hstate, hsize⟩
  | waits hstate => exact (not_awaits_of_running hrun hstate).elim
  | woken hstate => cases hrun.symm.trans hstate
  | left _ _ hover => exact (not_overAt_of_stateAt hrun id hover).elim

end Guard

end Kernel

/-- There are memories of every size in which a text is pointed at. -/
theorem exists_pointsAt (text : Bytes) (hlen : text.length < 2 ^ 32) (size : ℕ) :
    ∃ memory : Bytes, size ≤ memory.length ∧ pointsAt memory 0#32 text = true := by
  refine ⟨(toLe 4 8 ++ toLe 4 text.length) ++ (text ++ zeros size), ?_, ?_⟩
  · simp only [List.length_append, Lib.length_toLe, Lib.length_zeros]
    omega
  · have hiov : readAt ((toLe 4 8 ++ toLe 4 text.length) ++ (text ++ zeros size)) 0 8 =
        some (toLe 4 8 ++ toLe 4 text.length) :=
      Lib.readAt_middle [] rfl rfl (by simp)
    have htext : readAt ((toLe 4 8 ++ toLe 4 text.length) ++ (text ++ zeros size)) 8 text.length =
        some text :=
      Lib.readAt_middle _ rfl (by simp) rfl
    have hdrop : ofLe ((toLe 4 8 ++ toLe 4 text.length).drop 4) = text.length := by
      rw [List.drop_left' (Lib.length_toLe 4 8), Lib.ofLe_toLe]
      exact Nat.mod_eq_of_lt hlen
    have htake : ofLe ((toLe 4 8 ++ toLe 4 text.length).take 4) = 8 := by
      rw [List.take_left' (Lib.length_toLe 4 8), Lib.ofLe_toLe]
      rfl
    simp only [pointsAt, BitVec.toNat_ofNat, Nat.zero_mod, hiov, hdrop, htake, htext]
    simp

namespace Watcher

variable {ed25519 : Ed25519} {board : Board} {hw : UartHw} {plat : UartPlatform} {p : Proc}
  {s s' : Watcher} {k : Kernel}

/-- The guard runs, in a state that keeps the invariant. Told fewer than `2 ^ 64` records, its
cursor is what it says. -/
structure Runs (s : Watcher) (plat : UartPlatform) (p : Proc) : Prop where
  sane : s.Sane plat p
  kept : s.Kept p
  few : s.told.length < 2 ^ 64
  entered : ∃ a, s.agent = some a
  running : s.kernel.stateAt p = some .running

/-- Nothing is told where no record came in. -/
theorem told_move (h : k.events.nextSeq = s.kernel.events.nextSeq) :
    (s.move k).told = s.told := by
  change s.told ++ s.kernel.news k = _
  rw [Kernel.news_eq_nil h, List.append_nil]

/-- **The guard is never stuck.** It prints where it has a line, leaves where it is at its end,
and reads otherwise; each of these has an outcome. -/
theorem Runs.goes (h : s.Runs plat p) (hlive : hw.Live) :
    ∃ call s', call.Own ∧ s.step ed25519 hw plat p call = some s' := by
  obtain ⟨⟨cursor, todo, leaves⟩, ha⟩ := h.entered
  have hpost := h.kept.post
  rw [ha] at hpost
  obtain ⟨size, hcompute⟩ := hpost.computes h.running
  rcases todo with _ | ⟨line, todo⟩
  · cases leaves with
    | true =>
      have hturn : s.kernel.turn (.finish p (s.kernel.hostProcExit p 0#32)) =
          some (s.kernel.finish p (s.kernel.hostProcExit p 0#32)) := if_pos h.running
      exact ⟨.exit, s.move (s.kernel.finish p (s.kernel.hostProcExit p 0#32)), trivial, by
        simp [step, ha, hturn]⟩
    | false =>
      have hfits : (0#32).toNat + 16 ≤ (zeros (size + 16)).length := by simp
      obtain ⟨k, hturn⟩ := hcompute (zeros (size + 16)) (by simp)
      obtain ⟨-, -, -, -, hrun⟩ := step_compute h.sane h.kept ha hturn
      have hread : k.turn (.eventRead p (cursor.setWidth 32) ((cursor >>> 32).setWidth 32) 0#32) =
          some (Kernel.afterHostFn p (k.eventReadImpl p (cursor.setWidth 32)
            ((cursor >>> 32).setWidth 32) 0#32)) := if_pos hrun
      obtain ⟨s', hs', -⟩ := step_read h.sane h.kept ha hfits hturn hread
      refine ⟨.read (zeros (size + 16)) 0#32, s', trivial, ?_⟩
      simp only [step, ha]
      rw [if_pos hfits, hturn, Option.bind_eq_bind, Option.bind_some]
      exact (congrArg (Option.bind · _) hread).trans hs'
  · have hshort := h.kept.short _ ha line List.mem_cons_self
    obtain ⟨memory, hsize, hpoints⟩ :=
      exists_pointsAt line (Nat.lt_of_le_of_lt hshort (by decide)) size
    obtain ⟨k, hturn⟩ := hcompute memory hsize
    obtain ⟨fuel, out, hwrite⟩ :=
      Kernel.hostFdWrite_ends hlive plat k s.console p 1#32 0#32 1#32 0#32
    refine ⟨.print memory 0#32 0#32 fuel, { (s.move k).printed p out.2.1 out.2.2 with
      agent := some ⟨cursor, todo, leaves⟩ }, trivial, ?_⟩
    simp only [step, ha]
    rw [if_pos hpoints, hturn, Option.bind_eq_bind, Option.bind_some,
      hwrite fuel (Nat.le_refl fuel)]
    rfl

/-! ## What becomes of it

The variant is what the guard has before it. A printed line takes one off, and a record that is
read adds two lines and takes off three. -/

/-- Printing a line is a step that can be taken, and after it there is a line less to print. -/
theorem Runs.prints {memory : Bytes} {iovsPtr nwrittenPtr : BitVec 32} {fuel : ℕ}
    (h : s.Runs plat p)
    (hstep : s.step ed25519 hw plat p (.print memory iovsPtr nwrittenPtr fuel) = some s') :
    s'.Runs plat p ∧ s'.ahead < s.ahead := by
  obtain ⟨hsane, hkept⟩ := inv_step h.sane h.kept hstep
  obtain ⟨cursor, line, todo, leaves, k, ⟨errno, k', console⟩, ha, -, hturn, hwrite, rfl⟩ :=
    print_cases hstep
  have hpost := h.kept.post
  rw [ha] at hpost
  obtain ⟨hruns, -, -, hrun, hevents⟩ := Kernel.post_compute hpost hturn ⟨cursor, todo, leaves⟩
  obtain ⟨text, hwritten⟩ := Kernel.hostFdWrite_written hwrite
  obtain ⟨-, hmemory⟩ := hwritten.turn hrun
  obtain ⟨hrun', hevents'⟩ : k'.stateAt p = some .running ∧ k'.events = k.events := by
    rcases hmemory with rfl | ⟨memory', hturn'⟩
    · exact ⟨hrun, rfl⟩
    · obtain ⟨-, -, -, hrun', hevents'⟩ := Kernel.post_compute hruns hturn' Agent.start
      exact ⟨hrun', hevents'⟩
  have htold : ((s.move k).move k').told = s.told :=
    (told_move (s := s.move k) (congrArg Events.nextSeq hevents')).trans
      (told_move (congrArg Events.nextSeq hevents))
  refine ⟨⟨hsane, hkept, ?_, ⟨_, rfl⟩, hrun'⟩, ?_⟩
  · exact htold.symm ▸ h.few
  · have hbefore : s.ahead = (todo.length + 1) +
        if leaves then 0 else 3 * (s.told.length - cursor.toNat) + 2 := by
      simp only [ahead, ha, List.length_cons]
    have hafter : Watcher.ahead { (s.move k).printed p k' console with
        agent := some ⟨cursor, todo, leaves⟩ } = todo.length +
          if leaves then 0 else 3 * (s.told.length - cursor.toNat) + 2 := by
      rw [← htold]
      rfl
    rw [hbefore, hafter]
    omega

/-- A guard that exits is over, and was not allowed to read. -/
theorem Runs.exits (h : s.Runs plat p) (hstep : s.step ed25519 hw plat p .exit = some s') :
    s'.Rests p := by
  obtain ⟨-, hkept'⟩ := inv_step h.sane h.kept hstep
  obtain ⟨cursor, k, ha, hturn, rfl⟩ := exit_cases hstep
  have hk : k = s.kernel.finish p (s.kernel.hostProcExit p 0#32) := by
    simp only [Kernel.turn, h.running, if_true] at hturn
    exact (Option.some.inj hturn).symm
  refine .inr ⟨?_, hkept'.loyal _ ha rfl⟩
  change k.overAt p
  rw [hk]
  exact ⟨_, (Kernel.finish_ended h.running _).state, Ending.over _⟩

/-- A guard that sleeps has read everything: it went to sleep on a record that did not exist, and
none was written since. -/
theorem Kept.rests (h : s.Kept p) (hfew : s.told.length < 2 ^ 64)
    (hwaits : s.kernel.awaitsRecord p) : s.Rests p := by
  obtain ⟨-, a, ha, htodo, -⟩ := h.post.awaits hwaits
  exact .inl ⟨hwaits, a, ha, htodo, (h.account hfew).caught hwaits a ha⟩

/-- **The fallback is not reached.** A running guard is not on the list of waiters, nobody is on
it twice, and it has as many places as there are processes. -/
theorem Runs.not_polls (h : s.Runs plat p) : ¬ s.Polls p := by
  rintro ⟨cursor, memory, outPtr, k, ha, hfits, hturn, hpolls⟩
  obtain ⟨hsane, -, hany, hmem, hrun⟩ := step_compute h.sane h.kept ha hturn
  obtain ⟨k', hread⟩ : ∃ k', k.turn (.eventRead p (cursor.setWidth 32)
      ((cursor >>> 32).setWidth 32) outPtr) = some k' := ⟨_, if_pos hrun⟩
  have hreading := Kernel.post_read (hany Agent.start) hrun hmem hfits (append_halves cursor) hread
  rw [hpolls] at hreading
  cases hreading with
  | denied hrc => exact absurd hrc (by decide)
  | full hfull => exact hsane.room (hany Agent.start) hrun hfull
  | got hgot =>
    rcases hgot with ⟨hrc, -⟩ | ⟨hrc, -⟩
    · exact absurd hrc (by decide)
    · exact absurd hrc (by decide)

/-- A record less, or the guard sleeps, or may not read. -/
theorem Runs.reads {memory : Bytes} {outPtr : BitVec 32} (h : s.Runs plat p)
    (hstep : s.step ed25519 hw plat p (.read memory outPtr) = some s') :
    s'.Rests p ∨ s'.Runs plat p ∧ s'.ahead < s.ahead := by
  obtain ⟨hsane', hkept'⟩ := inv_step h.sane h.kept hstep
  obtain ⟨cursor, k, k', ha, hfits, hturn, hread, hs'⟩ := read_cases hstep
  obtain ⟨hsane, hkept, hany, hmem, hrun⟩ := step_compute h.sane h.kept ha hturn
  have hpost := h.kept.post
  rw [ha] at hpost
  obtain ⟨-, -, -, -, hevents⟩ := Kernel.post_compute hpost hturn Agent.start
  have hbefore : s.ahead = 3 * (s.told.length - cursor.toNat) + 2 := by simp [ahead, ha]
  have hreading := Kernel.post_read (hany Agent.start) hrun hmem hfits (append_halves cursor) hread
  generalize hs₂ : ({ s.move k with buf := outPtr } : Watcher) = s₂ at hs'
  have ha₂ : (s₂.move k').agent = some ⟨cursor, [], false⟩ := by
    rw [← hs₂]
    exact ha
  have hbuf : s₂.buf = outPtr := by rw [← hs₂]
  have htold : s₂.told = s.told := by
    rw [← hs₂]
    exact told_move (congrArg Events.nextSeq hevents)
  have hk : s₂.kernel = k := by
    rw [← hs₂]
    rfl
  have hmove : k'.events.nextSeq = k.events.nextSeq → (s₂.move k').told = s.told := by
    intro hsame
    refine (told_move ?_).trans htold
    rw [hk]
    exact hsame
  have hfew : k'.events.nextSeq = k.events.nextSeq → (s₂.move k').told.length < 2 ^ 64 :=
    fun hsame => (hmove hsame).symm ▸ h.few
  generalize (k.eventReadImpl p _ _ outPtr).1 = rc at hreading hs'
  cases hreading with
  | denied hrc _ =>
    right
    have hanswer := answered_eq (p := p) ha₂
      (Agent.answered_error hrc ((s₂.move k).kernel.bufferAt p (s₂.move k).buf))
    obtain rfl := Option.some.inj (hanswer.symm.trans hs')
    refine ⟨⟨hsane', hkept', hfew rfl, ⟨_, rfl⟩, hrun⟩, ?_⟩
    rw [hbefore]
    exact Nat.lt_of_lt_of_le (show 1 < 2 by decide) (Nat.le_add_left 2 _)
  | full hfull => exact (hsane.room (hany Agent.start) hrun hfull).elim
  | @got rc e k' hgot hevents' _ hpost hrecord =>
    right
    have hrc : rc = 0 ∨ rc = 2 := hgot.imp And.left And.left
    obtain ⟨todo, htodo, -, hgets⟩ := Agent.answered_got (s := ⟨cursor, [], false⟩) hrc e
    have hbuf' : (s₂.move k').buf = outPtr := hbuf
    have hanswer := answered_eq (s := s₂.move k') (p := p) ha₂
      ((congrArg _ (hbuf' ▸ hrecord)).trans hgets)
    rw [if_pos hrc] at hanswer
    obtain rfl := Option.some.inj (hanswer.symm.trans hs')
    refine ⟨⟨hsane', hkept', hfew (congrArg Events.nextSeq hevents'), ⟨_, rfl⟩,
      Kernel.running_of_post hpost⟩, ?_⟩
    -- the cursor has moved on, and not past the end
    obtain ⟨hpast, -⟩ := (h.kept.account h.few).passed _ ha
    obtain ⟨hpast', hle⟩ := (hkept'.account (hfew (congrArg Events.nextSeq hevents'))).passed _ rfl
    have hreads : s₂.reads = s.reads := by rw [← hs₂]; rfl
    rw [seqs, List.map_append] at hpast'
    change Reads 0 (s₂.reads.map _ ++ [_]) _ at hpast'
    rw [hreads] at hpast'
    have hlt : cursor.toNat < (wrappingSucc e.seq).toNat := hpast.lt_of_snoc hpast'
    change (wrappingSucc e.seq).toNat ≤ (s₂.move k').told.length at hle
    rw [hmove (congrArg Events.nextSeq hevents')] at hle
    rw [hbefore]
    change todo.length + (3 * ((s₂.move k').told.length - (wrappingSucc e.seq).toNat) + 2) < _
    rw [hmove (congrArg Events.nextSeq hevents')]
    omega
  | slept _ hnext _ hwaits _ =>
    obtain rfl := Option.some.inj hs'
    exact .inl (hkept'.rests (hfew hnext) hwaits)

/-- **A step of the guard** that does not bring it to rest brings it nearer: what it has before it
gets less. This is the whole argument for termination. -/
theorem Runs.nears {call : WatcherCall} (h : s.Runs plat p) (hown : call.Own)
    (hstep : s.step ed25519 hw plat p call = some s') :
    s'.Rests p ∨ s'.Runs plat p ∧ s'.ahead < s.ahead := by
  cases call with
  | print => exact .inr (h.prints hstep)
  | read => exact h.reads hstep
  | exit => exact .inl (h.exits hstep)
  | system | write | enter => exact hown.elim

end Watcher

/-- **The guard catches up.** In every reachable state in which it runs it comes to rest within
a bounded number of its own steps, whatever memory it computes in them, and can go on until
then. At rest it sleeps with nothing left unread, or it is over because it may not read. None of
its reads is told to poll. -/
theorem guard_catches_up (ed25519 : Ed25519) (board : Board) {hw : UartHw} (hlive : hw.Live)
    (plat : UartPlatform) (p : Proc) :
    (watcherMachine ed25519 board hw plat p).Always fun s =>
      s.told.length < 2 ^ 64 → s.kernel.stateAt p = some .running → ¬ s.Polls p ∧
        (watcherMachine ed25519 board hw plat p).Within WatcherCall.Own (fun t => t.Rests p)
          (s.ahead + 1) s := by
  refine (Watcher.inv_always board).mono fun s h hfew hrun => ?_
  have hentered : ∃ a, s.agent = some a := by
    rcases hagent : s.agent with _ | a
    · have hpost := h.2.post
      rw [hagent] at hpost
      cases hpost with
      | out _ _ hnot => exact (hnot hrun).elim
    · exact ⟨a, rfl⟩
  have hruns : s.Runs plat p := ⟨h.1, h.2, hfew, hentered, hrun⟩
  exact ⟨hruns.not_polls, Machine.within_of_variant Watcher.ahead
    (fun s hs _ => Watcher.Runs.goes hs hlive)
    (fun s i t hs _ hown hstep => Watcher.Runs.nears hs hown hstep) hruns⟩

/-- The same on a console whose line is slow: the driver waits for it, and the guard with it. -/
theorem guard_catches_up_busy :
    (watcherMachine (fun _ _ _ => false) .qemu uartHwBusy .qemu procIdTier1Hello).Always fun s =>
      s.told.length < 2 ^ 64 → s.kernel.stateAt procIdTier1Hello = some .running →
        ¬ s.Polls procIdTier1Hello ∧
        (watcherMachine (fun _ _ _ => false) .qemu uartHwBusy .qemu procIdTier1Hello).Within
          WatcherCall.Own (fun t => t.Rests procIdTier1Hello) (s.ahead + 1) s :=
  guard_catches_up (fun _ _ _ => false) .qemu live_uartHwBusy .qemu procIdTier1Hello

end Wari
