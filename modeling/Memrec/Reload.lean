import Memrec.Schedule

/-!
# How long a reload takes

`SIGUSR2` asks the collector to read its configuration file again.  The handler
only sets a flag, which the main loop tests between two cycles, so the file that
is in force goes on being used for a while.

`reload_within_one_round` bounds that while.  Once the signal has arrived, at
most one more cycle begins and at most one more round is finished before the
file is executed; and after the flag was tested, nothing at all is done for a
cycle.  As in `reload_request_kept`, the signal must not fall between the
execution of the file and the assignment that clears the flag.
-/

namespace Memrec

open Runs

variable {Obj : Type}

/-- A cycle begins. -/
def Event.isCycle : Event Obj → Bool
  | .cycle _ _ _ => true
  | _ => false

/-- A round is complete. -/
def Event.isCycleDone : Event Obj → Bool
  | .cycleDone => true
  | _ => false

/-- The rounds that can still be finished before the flag is tested. -/
def Pc.roundsLeft : Pc Obj → Nat
  | .waitOuter | .testFlag | .deleteObjs | .doCfg | .cleanup | .exited => 0
  | _ => 1

/-- The cycles that can still begin before the flag is tested. -/
def Pc.cyclesLeft : Pc Obj → Nat
  | .head => 1
  | _ => 0

/-- The flag has been tested and was set. -/
def Pc.Rereading : Pc Obj → Prop
  | .deleteObjs | .doCfg | .exited => True
  | _ => False

/-- **One step with the flag set.**  Unless the file is executed, the flag stays
set, and no step but the begin of a cycle or the end of a round uses up what is
left. -/
theorem Step.pending {sc : Script} {single : Bool} {s t : Collector Obj} {e : Event Obj}
    (h : Step sc single s e t) (hflag : s.flag = 1) (hpc : ¬ s.pc.Clearing) (he : ¬ e.IsExec) :
    t.flag = 1 ∧ ¬ t.pc.Clearing ∧
      t.pc.roundsLeft + e.isCycleDone.toNat ≤ s.pc.roundsLeft ∧
      t.pc.cyclesLeft + e.isCycle.toNat ≤ s.pc.cyclesLeft ∧
      (s.pc.Rereading → t.pc.Rereading ∧ ¬ e.IsWork ∧ ¬ e.IsCycle) ∧
      (e = .testFlag → t.pc.Rereading) := by
  cases h with
  | execCfg => exact absurd trivial he
  | installUsr2 h | installInt h | initFlag h | noteReread h | reinstall h | clearFlag h =>
      rw [h] at hpc
      exact absurd trivial hpc
  | testFlag h =>
      rw [if_pos hflag]
      simp [h, hflag, Pc.Clearing, Pc.roundsLeft, Pc.cyclesLeft, Pc.Rereading, Event.isCycle,
        Event.isCycleDone]
  | cycleDone h => cases single <;> simp [h, hflag, Pc.Clearing, Pc.roundsLeft, Pc.cyclesLeft,
      Pc.Rereading, Event.isCycle, Event.isCycleDone]
  | tick | timerExit | sigusr2 =>
      simp [hflag, hpc, Event.isCycle, Event.isCycleDone, Event.IsWork, Event.IsCycle]
  | _ =>
      simp_all [Pc.Clearing, Pc.roundsLeft, Pc.cyclesLeft, Pc.Rereading, Event.isCycle,
        Event.isCycleDone, Event.IsWork, Event.IsCycle]

/-- What can be said at any time after the signal, as long as the file is not
executed. -/
structure Pending (tr : List (Event Obj)) (s : Collector Obj) : Prop where
  flag : s.flag = 1
  pc : ¬ s.pc.Clearing
  rounds : s.pc.roundsLeft + tr.countP Event.isCycleDone ≤ 1
  cycles : s.pc.cyclesLeft + tr.countP Event.isCycle ≤ 1
  tested : .testFlag ∈ tr → s.pc.Rereading
  after : ∀ pre e post, tr = pre ++ e :: post → .testFlag ∈ pre → ¬ e.IsWork ∧ ¬ e.IsCycle

theorem pending_step {sc : Script} {single : Bool} {tr : List (Event Obj)} {s t : Collector Obj}
    {e : Event Obj} (hs : Pending tr s) (h : Step sc single s e t) (he : ¬ e.IsExec) :
    Pending (tr ++ [e]) t := by
  obtain ⟨hflag, hpc, hrounds, hcycles, hreread, htest⟩ := h.pending hs.flag hs.pc he
  have hr := hs.rounds
  have hc := hs.cycles
  refine ⟨hflag, hpc, ?_, ?_, ?_, ?_⟩
  · rw [countP_snoc]
    omega
  · rw [countP_snoc]
    omega
  · intro hmem
    rcases List.mem_append.mp hmem with hmem | hmem
    · exact (hreread (hs.tested hmem)).1
    · exact htest (List.mem_singleton.mp hmem).symm
  · intro pre f post htr hmem
    obtain rfl | ⟨post, g, rfl⟩ := post.eq_nil_or_concat'
    · obtain ⟨rfl, hf⟩ := List.append_inj' htr rfl
      obtain rfl : e = f := by simpa using hf
      exact (hreread (hs.tested hmem)).2
    · rw [← List.cons_append, ← List.append_assoc] at htr
      obtain ⟨rfl, -⟩ := List.append_inj' htr rfl
      exact hs.after pre f post rfl hmem

/-- The places from which nothing can be left over. -/
theorem Pc.left_le_one (pc : Pc Obj) : pc.roundsLeft ≤ 1 ∧ pc.cyclesLeft ≤ 1 := by
  cases pc <;> simp [Pc.roundsLeft, Pc.cyclesLeft]

/-- **A reload takes at most one round.**  In every run in which no `SIGUSR2`
falls between the execution of the file and the assignment that clears the flag,
from the arrival of the signal until the file is executed at most one cycle
begins and at most one round is finished; and once the flag was tested, nothing
is done for a cycle. -/
theorem reload_within_one_round (sc : Script) (single : Bool) (st : Settings)
    (ins outs : List Obj) {tr mid : List (Event Obj)} {s : Collector Obj}
    (run : Run (QuietStep sc single) (boot sc st ins outs) (tr ++ .sigusr2 :: mid) s)
    (hexec : ∀ e ∈ mid, ¬ e.IsExec) :
    mid.countP Event.isCycle ≤ 1 ∧ mid.countP Event.isCycleDone ≤ 1 ∧
      ∀ pre e post, mid = pre ++ e :: post → .testFlag ∈ pre → ¬ e.IsWork ∧ ¬ e.IsCycle := by
  obtain ⟨m, -, hrest⟩ := run.of_append
  obtain ⟨m', ⟨hsignal, hquiet⟩, hmid⟩ := hrest.of_cons
  have hstart : Pending [] m' := by
    have hflag : m'.flag = 1 ∧ m'.pc = m.pc := by
      cases hsignal with
      | sigusr2 => exact ⟨rfl, rfl⟩
    refine ⟨hflag.1, ?_, m'.pc.left_le_one.1, m'.pc.left_le_one.2, by simp, by simp⟩
    rw [hflag.2]
    exact hquiet rfl
  have hpending : Pending mid s := by
    refine hmid.inv (P := fun tr s => (∀ e ∈ tr, ¬ e.IsExec) → Pending tr s) (fun _ => hstart) ?_
      hexec
    intro tr t e u _ ih hstep hexec
    exact pending_step (ih fun e he => hexec e (List.mem_append_left _ he)) hstep.1
      (hexec e (by simp))
  have hrounds := hpending.rounds
  have hcycles := hpending.cycles
  exact ⟨by omega, by omega, hpending.after⟩

/-- A cycle that begins after the signal, up to the test of the flag. -/
def lateCycle : List (Event Unit) :=
  [.cycle 1 [()] [], .leaveFor, .start 0, .poll () [], .keylist (freshData 0), .cycleDone, .tick,
    .consume, .testFlag, .deleteObjs]

/-- The signal arrives just before a cycle, and the bounds are reached. -/
theorem reload_after_round :
    lateCycle.countP Event.isCycle = 1 ∧ lateCycle.countP Event.isCycleDone = 1 ∧
      ¬ (Event.deleteObjs : Event Unit).IsWork := by
  have ready : Run (QuietStep .dlogger false) (boot .dlogger Script.dlogger.defaults [()] [])
      ([.installUsr2, .installInt, .initFlag] ++ [.sigusr2]) { loopHead with flag := 1 } :=
    ((((Run.nil _).snoc ⟨.installUsr2 rfl, by simp⟩).snoc ⟨.installInt rfl, by simp⟩).snoc
      ⟨.initFlag rfl, by simp⟩).snoc ⟨.sigusr2 (by simp [loopHead]) rfl, fun _ => id⟩
  have cycle : Run (QuietStep .dlogger false) { loopHead with flag := 1 } lateCycle
      { loopHead with
        pc := .doCfg, objsIn := [], itr := 1, data := freshData 0, flag := 1 } :=
    ((((((((((Run.nil _).snoc ⟨.cycle rfl, by simp⟩).snoc ⟨.leaveFor rfl id, by simp⟩).snoc
      ⟨.startOuter 0 rfl, by simp⟩).snoc ⟨.pollOuter [] rfl, by simp⟩).snoc
      ⟨.keylist _ rfl ⟨.refl _, by simp [freshData]⟩, by simp⟩).snoc ⟨.cycleDone rfl, by simp⟩).snoc
      ⟨.tick rfl, by simp⟩).snoc ⟨.consumeOuter rfl (by decide), by simp⟩).snoc
      ⟨.testFlag rfl, by simp⟩).snoc ⟨.deleteObjs rfl, by simp⟩
  have run : Run (QuietStep .dlogger false) (boot .dlogger Script.dlogger.defaults [()] [])
      ([.installUsr2, .installInt, .initFlag] ++ .sigusr2 :: lateCycle) _ := ready.trans cycle
  have hexec : ∀ e ∈ lateCycle, ¬ e.IsExec := by simp [lateCycle, Event.IsExec]
  obtain ⟨-, -, hafter⟩ := reload_within_one_round _ _ _ _ _ run hexec
  exact ⟨rfl, rfl, (hafter lateCycle.dropLast .deleteObjs [] rfl (by simp [lateCycle])).1⟩

end Memrec
