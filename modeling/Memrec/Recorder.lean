import Memrec.Runs

/-!
# The flight recorder

`memrec` forks the program to be recorded, opens its log, forks a timer, and then
polls until `$child_flag` is cleared.  The flag is cleared by `child_handler`,
which the kernel runs through `SIGCHLD`.

The signals are those of the operating system: a `SIGCHLD` that arrives while no
handler is installed is discarded, signals that arrive before the handler runs
are merged, and a child that has ended stays a zombie until `waitpid` asks for
it.

`target_exit_noticed` says that the end of the program is noticed in every run
in which it ends after the handler was installed.  `unnoticed_of_early_exit` is
about the other runs.
-/

namespace Memrec.Recorder

open Runs

/-- Where the parent is. -/
inductive Place
  | forkTarget
  | ignoreSignals
  | openLog
  | openPipe
  | forkTimer
  | newPidmem
  | closeWriter
  | installInt
  | setFlag
  | installChld
  | head
  | collect
  | wait
  | leave
  | exited
  deriving DecidableEq, Repr

/-- A child process, as `waitpid` sees it. -/
inductive Child
  | unborn
  | running
  | zombie
  | reaped
  deriving DecidableEq, Repr

/-- The parent, its two children, and the pipe of the timer. -/
structure State where
  pc : Place
  target : Child
  timer : Child
  /-- `$SIG{CHLD}` is `child_handler`. -/
  handler : Bool
  /-- A `SIGCHLD` for the target was caught and not yet handled. -/
  pendingTarget : Bool
  /-- One for the timer, or for a command that a polled object has started. -/
  pendingOther : Bool
  childFlag : Nat
  pipe : Nat
  deriving DecidableEq, Repr

/-- What happens in one step. -/
inductive Event
  | forkTarget
  | ignoreSignals
  | openLog
  | openPipe
  | forkTimer
  | newPidmem
  | closeWriter
  | installInt
  | setFlag
  | installChld
  | enter
  | collected
  | consume
  | eof
  | leave
  | finish
  | die
  | targetExit
  | timerExit
  | helperExit
  | deliver
  | tick
  | sigint
  deriving DecidableEq, Repr

/-- The parent before the first fork. -/
def boot : State where
  pc := .forkTarget
  target := .unborn
  timer := .unborn
  handler := false
  pendingTarget := false
  pendingOther := false
  childFlag := 0
  pipe := 0

/-- The effect of `waitpid` on a child. -/
def Child.reap : Child → Child
  | .zombie => .reaped
  | c => c

/-- The effect of a `KILL`. -/
def Child.kill : Child → Child
  | .running => .zombie
  | c => c

/-- The child has ended. -/
def Child.Terminated (c : Child) : Prop := c = .zombie ∨ c = .reaped

/-- `child_handler`: all zombies are reaped, and the flag is cleared if the target
is among them. -/
def childHandler (s : State) : State :=
  { s with
    target := s.target.reap
    timer := s.timer.reap
    handler := true
    pendingTarget := false
    pendingOther := false
    childFlag := if s.target = .zombie then 0 else s.childFlag }

/-- `$SIG{INT}` is `handler3`: from its installation to the end. -/
def Place.IntOn : Place → Prop
  | .setFlag | .installChld | .head | .collect | .wait | .leave => True
  | _ => False

/-- **One step.** -/
inductive Step : State → Event → State → Prop
  | forkTarget {s} (h : s.pc = .forkTarget) :
      Step s .forkTarget { s with pc := .ignoreSignals, target := .running }
  | ignoreSignals {s} (h : s.pc = .ignoreSignals) :
      Step s .ignoreSignals { s with pc := .openLog }
  | openLog {s} (h : s.pc = .openLog) : Step s .openLog { s with pc := .openPipe }
  | openPipe {s} (h : s.pc = .openPipe) : Step s .openPipe { s with pc := .forkTimer }
  | forkTimer {s} (h : s.pc = .forkTimer) :
      Step s .forkTimer { s with pc := .newPidmem, timer := .running }
  | newPidmem {s} (h : s.pc = .newPidmem) : Step s .newPidmem { s with pc := .closeWriter }
  | closeWriter {s} (h : s.pc = .closeWriter) : Step s .closeWriter { s with pc := .installInt }
  | installInt {s} (h : s.pc = .installInt) : Step s .installInt { s with pc := .setFlag }
  | setFlag {s} (h : s.pc = .setFlag) :
      Step s .setFlag { s with pc := .installChld, childFlag := 1 }
  | installChld {s} (h : s.pc = .installChld) :
      Step s .installChld { s with pc := .head, handler := true }
  | enter {s} (h : s.pc = .head) (hflag : s.childFlag = 1) :
      Step s .enter { s with pc := .collect }
  | collected {s} (h : s.pc = .collect) : Step s .collected { s with pc := .wait }
  | consume {s} (h : s.pc = .wait) (hpipe : 0 < s.pipe) :
      Step s .consume { s with pc := .head, pipe := s.pipe - 1 }
  | eof {s} (h : s.pc = .wait) (hpipe : s.pipe = 0) (htimer : s.timer.Terminated) :
      Step s .eof { s with pc := .leave }
  | leave {s} (h : s.pc = .head) (hflag : s.childFlag ≠ 1) :
      Step s .leave { s with pc := .leave }
  | finish {s} (h : s.pc = .leave) :
      Step s .finish { s with pc := .exited, timer := s.timer.kill }
  -- `pidmem->new` cannot open the status file, or a `getdata` dies
  | die {s} (h : s.pc = .newPidmem ∨ s.pc = .collect) : Step s .die { s with pc := .exited }
  | targetExit {s} (h : s.target = .running) :
      Step s .targetExit { s with target := .zombie, pendingTarget := s.handler }
  | timerExit {s} (h : s.timer = .running) :
      Step s .timerExit { s with timer := .zombie, pendingOther := s.pendingOther || s.handler }
  | helperExit {s} (h : s.pc ≠ .exited) :
      Step s .helperExit { s with pendingOther := s.pendingOther || s.handler }
  | tick {s} (h : s.timer = .running) : Step s .tick { s with pipe := s.pipe + 1 }
  -- the handlers; the `$pid` of `handler3` is the package variable, which nothing
  -- assigns, so that the target is left alone
  | deliver {s} (hrun : s.pc ≠ .exited) (h : s.pendingTarget = true ∨ s.pendingOther = true) :
      Step s .deliver (childHandler s)
  | sigint {s} (h : s.pc.IntOn) :
      Step s .sigint { s with pc := .exited, timer := s.timer.kill }
  -- before the signals are ignored, an interrupt is fatal
  | interrupted {s} (h : s.pc = .forkTarget ∨ s.pc = .ignoreSignals) :
      Step s .sigint { s with pc := .exited }

/-! ## The end of the target -/

/-- The start-up, until the handler is installed. -/
def Place.Starting : Place → Prop
  | .head | .collect | .wait | .leave | .exited => False
  | _ => True

/-- A step in which the target does not end before the handler is installed. -/
def WatchedStep (s : State) (e : Event) (t : State) : Prop :=
  Step s e t ∧ (e = .targetExit → ¬ s.pc.Starting)

/-- **What the recorder knows of its target.**  Before the handler is installed the
target has not ended; after that its end is either still to be handled or shows
in the flag. -/
structure Knows (s : State) : Prop where
  alive : s.pc.Starting → ¬ s.target.Terminated
  handler : ¬ s.pc.Starting → s.pc ≠ .exited → s.handler = true
  zombie : s.target = .zombie → s.pc ≠ .exited → s.pendingTarget = true
  reaped : s.target = .reaped → s.pc ≠ .exited → s.childFlag = 0

theorem knows_boot : Knows boot where
  alive := by simp [boot, Child.Terminated]
  handler := fun h => absurd trivial h
  zombie := by simp [boot]
  reaped := by simp [boot]

/-- The handler leaves no zombie behind, and has cleared the flag if the target was
one. -/
theorem knows_childHandler {s : State} (hs : Knows s) : Knows (childHandler s) where
  alive := by
    intro hpc
    have halive := hs.alive hpc
    unfold childHandler Child.Terminated at *
    cases htarget : s.target <;> simp_all [Child.reap]
  handler := fun _ _ => rfl
  zombie := by
    intro hz
    unfold childHandler at hz
    cases htarget : s.target <;> simp [htarget, Child.reap] at hz
  reaped := by
    intro hr hrun
    unfold childHandler at *
    cases htarget : s.target with
    | zombie => simp
    | reaped => simpa [htarget] using hs.reaped htarget hrun
    | unborn | running => simp [htarget, Child.reap] at hr

theorem knows_step {s t : State} {e : Event} (hs : Knows s) (h : WatchedStep s e t) : Knows t := by
  obtain ⟨hstep, hwatched⟩ := h
  obtain ⟨halive, hhandler, hzombie, hreaped⟩ := hs
  cases hstep with
  | deliver => exact knows_childHandler ⟨halive, hhandler, hzombie, hreaped⟩
  | targetExit =>
      have hpc := hwatched rfl
      exact ⟨fun h => absurd h hpc, hhandler, fun _ => hhandler hpc, by simp⟩
  | forkTarget h => constructor <;> simp_all [Place.Starting, Child.Terminated]
  | timerExit | helperExit | tick => exact ⟨halive, hhandler, hzombie, hreaped⟩
  | setFlag h | installChld h => constructor <;> simp_all [Place.Starting, Child.Terminated]
  | die h | interrupted h => constructor <;> simp [Place.Starting]
  | _ => constructor <;> simp_all [Place.Starting]

/-- **The end of the target is noticed.**  In every run in which the target does not
end before the handler is installed, whenever the parent is at the head of its
loop, the target has ended and no signal for it is pending, the flag is
cleared. -/
theorem target_exit_noticed {tr : List Event} {s : State} (run : Run WatchedStep boot tr s)
    (hhead : s.pc = .head) (hend : s.target.Terminated) (hnone : s.pendingTarget = false) :
    s.childFlag = 0 := by
  have hknows : Knows s :=
    run.inv (P := fun _ s => Knows s) knows_boot fun tr t e u _ ht hstep => knows_step ht hstep
  have hrun : s.pc ≠ .exited := by simp [hhead]
  rcases hend with hz | hr
  · rw [hknows.zombie hz hrun] at hnone
    exact absurd hnone (by decide)
  · exact hknows.reaped hr hrun

/-- The target ends while the parent waits for its first tick. -/
theorem target_exit_noticed_once :
    ∃ (tr : List Event) (s : State), Run WatchedStep boot tr s ∧ s.pc = .head ∧
      s.target.Terminated ∧ s.pendingTarget = false ∧ s.childFlag = 0 := by
  have ready : Run WatchedStep boot
      [.forkTarget, .ignoreSignals, .openLog, .openPipe, .forkTimer, .newPidmem, .closeWriter,
        .installInt, .setFlag, .installChld]
      ⟨.head, .running, .running, true, false, false, 1, 0⟩ :=
    ((((((((((Run.nil _).snoc ⟨.forkTarget rfl, by simp⟩).snoc ⟨.ignoreSignals rfl, by simp⟩).snoc
      ⟨.openLog rfl, by simp⟩).snoc ⟨.openPipe rfl, by simp⟩).snoc ⟨.forkTimer rfl, by simp⟩).snoc
      ⟨.newPidmem rfl, by simp⟩).snoc ⟨.closeWriter rfl, by simp⟩).snoc
      ⟨.installInt rfl, by simp⟩).snoc ⟨.setFlag rfl, by simp⟩).snoc ⟨.installChld rfl, by simp⟩
  have run : Run WatchedStep boot
      [.forkTarget, .ignoreSignals, .openLog, .openPipe, .forkTimer, .newPidmem, .closeWriter,
        .installInt, .setFlag, .installChld, .enter, .collected, .targetExit, .deliver, .tick,
        .consume]
      ⟨.head, .reaped, .running, true, false, false, 0, 0⟩ :=
    (((((ready.snoc ⟨.enter rfl rfl, by simp⟩).snoc ⟨.collected rfl, by simp⟩).snoc
      ⟨.targetExit rfl, fun _ => id⟩).snoc ⟨.deliver (by decide) (Or.inl rfl), by simp⟩).snoc
      ⟨.tick rfl, by simp⟩).snoc ⟨.consume rfl (by decide), by simp⟩
  exact ⟨_, _, run, rfl, Or.inr rfl, rfl, target_exit_noticed run rfl (Or.inr rfl) rfl⟩

/-- The steps from here to the main loop, up to and including `$child_flag = 1`. -/
def Place.toGo : Place → Nat
  | .ignoreSignals => 8
  | .openLog => 7
  | .openPipe => 6
  | .forkTimer => 5
  | .newPidmem => 4
  | .closeWriter => 3
  | .installInt => 2
  | .setFlag => 1
  | _ => 0

/-- The parent reaches its main loop without a look at the target. -/
theorem reaches_head (k : Nat) : ∀ s : State, s.pc.toGo = k + 1 →
    ∃ tr u, Run Step s tr u ∧ u.pc = .head ∧ u.target = s.target ∧
      u.pendingTarget = s.pendingTarget ∧ u.childFlag = 1 := by
  induction k with
  | zero =>
      intro s hs
      have hpc : s.pc = .setFlag := by cases hpc : s.pc <;> simp_all [Place.toGo]
      have run : Run Step s [.setFlag, .installChld]
          { s with pc := .head, childFlag := 1, handler := true } :=
        ((Run.nil s).snoc (.setFlag hpc)).snoc (.installChld rfl)
      exact ⟨_, _, run, rfl, rfl, rfl, rfl⟩
  | succ k ih =>
      intro s hs
      -- each place has one step to the next
      have hnext : ∃ e t, Step s e t ∧ t.pc.toGo = k + 1 ∧ t.target = s.target ∧
          t.pendingTarget = s.pendingTarget := by
        cases hpc : s.pc with
        | ignoreSignals => exact ⟨_, _, .ignoreSignals hpc, by simp_all [Place.toGo], rfl, rfl⟩
        | openLog => exact ⟨_, _, .openLog hpc, by simp_all [Place.toGo], rfl, rfl⟩
        | openPipe => exact ⟨_, _, .openPipe hpc, by simp_all [Place.toGo], rfl, rfl⟩
        | forkTimer => exact ⟨_, _, .forkTimer hpc, by simp_all [Place.toGo], rfl, rfl⟩
        | newPidmem => exact ⟨_, _, .newPidmem hpc, by simp_all [Place.toGo], rfl, rfl⟩
        | closeWriter => exact ⟨_, _, .closeWriter hpc, by simp_all [Place.toGo], rfl, rfl⟩
        | installInt => exact ⟨_, _, .installInt hpc, by simp_all [Place.toGo], rfl, rfl⟩
        | _ => simp [hpc, Place.toGo] at hs
      obtain ⟨e, t, hstep, hgo, htarget, hpending⟩ := hnext
      obtain ⟨tr, u, run, hpc, hu, hup, hflag⟩ := ih t hgo
      exact ⟨[e] ++ tr, u, ((Run.nil s).snoc hstep).trans run, hpc, hu.trans htarget,
        hup.trans hpending, hflag⟩

/-- A target that ends before `$child_flag = 1` can go unnoticed: the parent comes to
the head of its loop with the flag set and no signal to clear it. -/
theorem unnoticed_of_early_exit {s₀ s : State} {tr : List Event} (run : Run Step s₀ tr s)
    (hpc : 0 < s.pc.toGo) (htarget : s.target = .running) (hhandler : s.handler = false) :
    ∃ tr' u, Run Step s₀ (tr ++ [.targetExit] ++ tr') u ∧ u.pc = .head ∧ u.target.Terminated ∧
      u.pendingTarget = false ∧ u.childFlag = 1 := by
  obtain ⟨k, hk⟩ := Nat.exists_eq_add_of_lt hpc
  rw [Nat.zero_add] at hk
  obtain ⟨tr', u, hrun, hhead, hend, hpending, hflag⟩ :=
    reaches_head k { s with target := .zombie, pendingTarget := s.handler } hk
  exact ⟨tr', u, (run.snoc (.targetExit htarget)).trans hrun, hhead, Or.inl hend,
    hpending.trans hhandler, hflag⟩

/-- A target that ends at once is never noticed. -/
theorem target_exit_unnoticed :
    ∃ (tr : List Event) (s : State), Run Step boot tr s ∧ s.pc = .head ∧ s.target.Terminated ∧
      s.pendingTarget = false ∧ s.childFlag = 1 := by
  have forked :
      Run Step boot [.forkTarget] { boot with pc := .ignoreSignals, target := .running } :=
    (Run.nil boot).snoc (.forkTarget rfl)
  obtain ⟨tr, s, run, hhead, hend, hnone, hflag⟩ :=
    unnoticed_of_early_exit forked (by decide) rfl rfl
  exact ⟨_, s, run, hhead, hend, hnone, hflag⟩

end Memrec.Recorder
