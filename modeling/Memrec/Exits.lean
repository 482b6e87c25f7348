import Memrec.Collector
import Memrec.Recorder

/-!
# How the collectors end

`dlogger`, `duologger` and `memrec` fork a timer, and a timer whose reader has gone does
not notice: `SIGPIPE` is ignored.  So each way out of the collector has to kill it.

* `dlogger` does so at the end of the script and in `handler3`;
* `duologger` only in `handler3`: after a single cycle with `-S` the timer stays;
* `memrec` does so on both ways.  Its `handler3` also means to kill the recorded program,
  but the `$pid` that it declares with `our` is not the file's `my $pid`; nothing assigns
  it.

`exits_clean_iff` goes through every way out of every run.
-/

namespace Memrec

open Runs

/-- What a variable holds when its value is handed to `kill`. -/
inductive PidVar
  | timer
  | target
  | undef
  deriving DecidableEq, Repr

/-- Whom a signal is addressed to. -/
inductive Recipient
  | timer
  | target
  /-- All processes in the group of the sender. -/
  | ownGroup
  deriving DecidableEq, Repr

/-- `kill( KILL, $pid )`.  An undefined value is the number zero, which stands for the
group of the sender; a `strict` version of the language refuses it and dies. -/
def sendKill (strict : Bool) : PidVar → List Recipient
  | .timer => [.timer]
  | .target => [.target]
  | .undef => if strict then [] else [.ownGroup]

/-- Those of the addressed that are there to receive it. -/
def reached (timer target : Bool) (rs : List Recipient) : List Recipient :=
  rs.filter fun
    | .timer => timer
    | .target => target
    | .ownGroup => true

/-- **A clean exit.**  The signals reach those of `wanted` that are alive and nobody else,
and the timer does not outlive the collector. -/
def CleanExit (strict timer target : Bool) (kills : List PidVar) (wanted : List Recipient)
    (timerAfter : Bool) : Prop :=
  reached timer target (kills.flatMap (sendKill strict)) = reached timer target wanted ∧
    timerAfter = false

/-! ## `dlogger` and `duologger` -/

section Collector

variable {Obj : Type} {sc : Script} {single : Bool} {s t : Collector Obj} {e : Event Obj}

/-- The calls of `kill` with `KILL` on the two ways out. -/
def Script.kills (sc : Script) : Event Obj → List PidVar
  | .finish => match sc with
    | .dlogger => [.timer]
    | .duologger => []
  | .sigint => [.timer]
  | _ => []

/-- The collector ends on its own. -/
def Event.IsExit : Event Obj → Prop
  | .finish | .sigint => True
  | _ => False

/-- The timer lives on if it is alive and not killed. -/
theorem Step.timer_of_isExit (h : Step sc single s e t) (he : e.IsExit) :
    t.timer = (s.timer && !decide (.timer ∈ sc.kills e)) := by
  cases h with
  | finish => cases sc <;> simp [Script.kills, Script.timerAtEnd]
  | sigint => simp [Script.kills]
  | _ => exact he.elim

/-- At the end of the script the timer is alive only after a single cycle. -/
def SingleAtCleanup (single : Bool) (s : Collector Obj) : Prop :=
  s.pc = .cleanup → s.timer = true → single = true

theorem singleAtCleanup_step (hs : SingleAtCleanup single s) (h : Step sc single s e t) :
    SingleAtCleanup single t := by
  cases h with
  | cycleDone => cases single <;> simp [SingleAtCleanup]
  | testFlag =>
      intro hpc
      dsimp only at hpc
      split at hpc <;> cases hpc
  | eofOuter _ _ htimer => simp [SingleAtCleanup, htimer]
  | tick | sigusr2 => exact hs
  | timerExit => simp [SingleAtCleanup]
  | _ => simp [SingleAtCleanup]

theorem singleAtCleanup_run {st : Settings} {ins outs : List Obj} {tr : List (Event Obj)}
    (run : Run (Step sc single) (boot sc st ins outs) tr s) : SingleAtCleanup single s := by
  refine run.inv (P := fun _ s => SingleAtCleanup single s) ?_ ?_
  · simp [SingleAtCleanup, boot]
  · intro _ _ _ _ _ hs hstep
    exact singleAtCleanup_step hs hstep

theorem collector_cleanExit_iff (strict : Bool) {st : Settings} {ins outs : List Obj}
    {tr : List (Event Obj)} (run : Run (Step sc single) (boot sc st ins outs) tr s)
    (h : Step sc single s e t) (he : e.IsExit) :
    CleanExit strict s.timer false (sc.kills e) [.timer] t.timer ↔
      ¬ (sc = .duologger ∧ single = true ∧ e = .finish ∧ s.timer = true) := by
  have hsingle := singleAtCleanup_run run
  rw [h.timer_of_isExit he]
  cases h with
  | finish hpc =>
      have hsingle := hsingle hpc
      cases sc <;> cases htimer : s.timer <;>
        simp_all [CleanExit, Script.kills, reached, sendKill]
  | sigint => cases s.timer <;> simp [CleanExit, Script.kills, reached, sendKill]
  | _ => exact he.elim

end Collector

/-! ## `memrec` -/

namespace Recorder

/-- The calls of `kill` with `KILL` on the two ways out. -/
def kills : Event → List PidVar
  | .finish => [.timer]
  | .sigint => [.timer, .undef]
  | _ => []

/-- Whom they are meant for: `handler3` is to kill the recorded program, too. -/
def meantFor : Event → List Recipient
  | .sigint => [.timer, .target]
  | _ => [.timer]

/-- The recorder ends on its own, by the end of the script or by `handler3`. -/
def IsExit (s : State) : Event → Prop
  | .finish => True
  | .sigint => s.pc.IntOn
  | _ => False

/-- The timer lives on if it is alive and not killed. -/
theorem Step.timer_of_isExit {s t : State} {e : Event} (h : Step s e t) (he : IsExit s e) :
    (t.timer = .running) ↔ s.timer = .running ∧ .timer ∉ kills e := by
  have hkill : ∀ c : Child, c.kill ≠ .running := by
    intro c
    cases c <;> simp [Child.kill]
  cases h with
  | finish | sigint => simp [kills, hkill]
  | interrupted hpc =>
      rcases hpc with hpc | hpc
      · simp [IsExit, hpc, Place.IntOn] at he
      · simp [IsExit, hpc, Place.IntOn] at he
  | _ => exact he.elim

theorem cleanExit_iff (strict : Bool) {s t : State} {e : Event} (h : Step s e t)
    (he : IsExit s e) :
    CleanExit strict (decide (s.timer = .running)) (decide (s.target = .running)) (kills e)
        (meantFor e) (decide (t.timer = .running)) ↔
      (e = .sigint → strict = true ∧ s.target ≠ .running) := by
  have htimer := h.timer_of_isExit he
  cases e with
  | finish => simp [CleanExit, kills, meantFor, reached, sendKill, htimer]
  | sigint =>
      have hafter : t.timer ≠ .running := by simp [htimer, kills]
      by_cases htarget : s.target = .running
      · cases strict <;> by_cases hs : s.timer = .running <;>
          simp [CleanExit, kills, meantFor, reached, sendKill, htarget, hs]
      · cases strict <;> by_cases hs : s.timer = .running <;>
          simp [CleanExit, kills, meantFor, reached, sendKill, htarget, hs, hafter]
  | _ => exact he.elim

end Recorder

/-- **The ways out.**  In every run of `dlogger` and `duologger`, the end of the script and
`handler3` are clean exits, apart from the end of the script of `duologger -S` while the
timer is alive.  In every run of `memrec`, the end of the script is a clean exit, and
`handler3` is one only if the recorded program has ended and `kill` refuses the undefined
number. -/
theorem exits_clean_iff (Obj : Type) (strict : Bool) :
    (∀ (sc : Script) (single : Bool) (st : Settings) (ins outs : List Obj)
      (tr : List (Event Obj)) (s t : Collector Obj) (e : Event Obj),
      Run (Step sc single) (boot sc st ins outs) tr s → Step sc single s e t → e.IsExit →
      (CleanExit strict s.timer false (sc.kills e) [.timer] t.timer ↔
        ¬ (sc = .duologger ∧ single = true ∧ e = .finish ∧ s.timer = true))) ∧
    (∀ (tr : List Recorder.Event) (s t : Recorder.State) (e : Recorder.Event),
      Run Recorder.Step Recorder.boot tr s → Recorder.Step s e t → Recorder.IsExit s e →
      (CleanExit strict (decide (s.timer = .running)) (decide (s.target = .running))
          (Recorder.kills e) (Recorder.meantFor e) (decide (t.timer = .running)) ↔
        (e = .sigint → strict = true ∧ s.target ≠ .running))) := by
  refine ⟨?_, ?_⟩
  · intro sc single st ins outs tr s t e run h he
    exact collector_cleanExit_iff strict run h he
  · intro tr s t e _ h he
    exact Recorder.cleanExit_iff strict h he

/-- `duologger -S -i 1` without objects. -/
def onceOnly : Collector Unit :=
  boot .duologger (start .duologger ⟨false, false, some 1⟩ fun _ => none) [] []

/-- `memrec` at the head of its loop, with the recorded program running. -/
def recording : Recorder.State := ⟨.head, .running, .running, true, false, false, 1, 0⟩

theorem run_onceOnly :
    Run (Step .duologger true) onceOnly
      [.installUsr2, .installInt, .initFlag, .cycle 1 [] [], .leaveFor, .start 0,
        .keylist (freshData 0), .cycleDone]
      { onceOnly with
        pc := .cleanup, usr2 := true, int := true, itr := 1, data := freshData 0 } :=
  ((((((((Run.nil _).snoc (.installUsr2 rfl)).snoc (.installInt rfl)).snoc (.initFlag rfl)).snoc
    (.cycle rfl)).snoc (.leaveFor rfl (by decide))).snoc (.startOuter 0 rfl)).snoc
    (.keylist _ rfl ⟨.refl _, by simp [freshData]⟩)).snoc (.cycleDone rfl)

theorem run_recording :
    Run Recorder.Step Recorder.boot
      [.forkTarget, .ignoreSignals, .openLog, .openPipe, .forkTimer, .newPidmem, .closeWriter,
        .installInt, .setFlag, .installChld] recording :=
  ((((((((((Run.nil _).snoc (.forkTarget rfl)).snoc (.ignoreSignals rfl)).snoc
    (.openLog rfl)).snoc (.openPipe rfl)).snoc (.forkTimer rfl)).snoc (.newPidmem rfl)).snoc
    (.closeWriter rfl)).snoc (.installInt rfl)).snoc (.setFlag rfl)).snoc (.installChld rfl)

/-- `duologger -S` ends and leaves the timer running; an interrupted `memrec` leaves the
recorded program running. -/
theorem exits_leave_processes :
    (∃ (tr : List (Event Unit)) (s t : Collector Unit),
      Run (Step .duologger true) onceOnly tr s ∧ Step .duologger true s .finish t ∧
      t.timer = true ∧ ∀ strict,
        ¬ CleanExit strict s.timer false (Script.duologger.kills (.finish : Event Unit)) [.timer]
          t.timer) ∧
    ∃ (tr : List Recorder.Event) (s t : Recorder.State),
      Run Recorder.Step Recorder.boot tr s ∧ Recorder.Step s .sigint t ∧ s.pc.IntOn ∧
      t.target = .running ∧ ∀ strict,
        ¬ CleanExit strict (decide (s.timer = .running)) (decide (s.target = .running))
          (Recorder.kills .sigint) (Recorder.meantFor .sigint) (decide (t.timer = .running)) := by
  refine ⟨⟨_, _, _, run_onceOnly, .finish rfl, rfl, ?_⟩,
    ⟨_, recording, _, run_recording, .sigint trivial, trivial, rfl, ?_⟩⟩
  · intro strict h
    exact absurd h.2 (by decide)
  · intro strict h
    have hreached := h.1
    cases strict <;> exact absurd hreached (by decide)

end Memrec
