import Memrec.LogWriter
import Memrec.Runs

/-!
# The collector

The main loop of `dlogger` and `duologger`, with the timer process at the other
end of its pipe and the signals that can arrive between any two steps.

A cycle of `duologger` has `$inner2outer - 1` inner steps, which poll `@objs_in`
and wait for a tick, and one outer step, which polls `@objs_in` and `@objs_out`,
writes the log and waits.  `dlogger` has the outer step alone.  After the wait
the loop tests `$sigusr2_flag` and rereads the configuration file if it is set.

`Step` is the relation of one step, `Event` what can be observed of it.
`reload_request_kept` is about the signal that asks for a reread: it is never
lost if it does not arrive between the execution of the file and the assignment
that clears the flag.
-/

namespace Memrec

open Perl Runs

/-- Where the collector is. -/
inductive Pc (Obj : Type)
  | installUsr2
  | installInt
  | initFlag
  | head
  | inner
  | pollInner (todo : List Obj)
  | waitInner
  | outer
  | pollOuter (todo : List Obj)
  | writing (todo : List Text)
  | waitOuter
  | testFlag
  | deleteObjs
  | doCfg
  | noteReread
  | reinstall
  | clearFlag
  | cleanup
  | exited

/-- The collector, and the state of the pipe between it and the timer. -/
structure Collector (Obj : Type) where
  pc : Pc Obj
  settings : Settings
  objsIn : List Obj
  objsOut : List Obj
  itr : Nat
  tstamp : Int
  data : List (Text × Text)
  /-- `$sigusr2_flag` -/
  flag : Nat
  /-- `$SIG{USR2}` is `handler2`; until then the signal is ignored. -/
  usr2 : Bool
  /-- `$SIG{INT}` is `handler3`. -/
  int : Bool
  /-- Ticks that are written and not yet read. -/
  pipe : Nat
  /-- The timer holds the write end of the pipe open. -/
  timer : Bool

/-- What happens in one step. -/
inductive Event (Obj : Type)
  | installUsr2
  | installInt
  | initFlag
  | cycle (n : Int) (ins outs : List Obj)
  | start (tstamp : Int)
  | poll (o : Obj) (stored : List (Text × Text))
  | die
  | polled
  | leaveFor
  | keylist (pairs : List (Text × Text))
  | write (line : Text)
  | cycleDone
  | consume
  | eof
  | testFlag
  | deleteObjs
  | execCfg (file : Cfg) (ins outs : List Obj)
  | noteReread
  | reinstall
  | clearFlag
  | finish
  | tick
  | timerExit
  | sigusr2
  | sigint

/-- `$data{$k} = $v`. -/
def store (data : List (Text × Text)) (p : Text × Text) : List (Text × Text) :=
  data.filter (fun q => q.1 ≠ p.1) ++ [p]

/-- `%data` at the beginning of a step. -/
def freshData (tstamp : Int) : List (Text × Text) := [("tstamp".toList, decimal tstamp)]

/-- The order of `sort`: character by character. -/
def sortLe (a b : Text) : Prop := a = b ∨ List.Lex (fun c d => c.toNat < d.toNat) a b

/-- The order in which the entries of `%data` are written: that of the hash,
which can be any, or that of the sorted keys. -/
def IsKeylist (s : Settings) (data pairs : List (Text × Text)) : Prop :=
  pairs.Perm data ∧ (s .sortoutput ≠ 0 → (pairs.map Prod.fst).Pairwise sortLe)

/-- `$itr < $inner2outer`; `dlogger` has no inner loop. -/
def Script.MoreInner (sc : Script) (s : Settings) (itr : Nat) : Prop :=
  match sc with
  | .dlogger => False
  | .duologger => (itr : Int) < s .inner2outer

instance (sc : Script) (s : Settings) (itr : Nat) : Decidable (sc.MoreInner s itr) :=
  match sc with
  | .dlogger => inferInstanceAs (Decidable False)
  | .duologger => inferInstanceAs (Decidable ((itr : Int) < s .inner2outer))

/-- The second list of objects; `dlogger` has only one. -/
def Script.second {Obj : Type} (sc : Script) (outs : List Obj) : List Obj :=
  match sc with
  | .dlogger => []
  | .duologger => outs

/-- `dlogger` kills the timer when its loop ends, `duologger` does not. -/
def Script.timerAtEnd (sc : Script) (timer : Bool) : Bool :=
  match sc with
  | .dlogger => false
  | .duologger => timer

variable {Obj : Type}

/-- The collector after the timer was forked. -/
def boot (sc : Script) (s : Settings) (ins outs : List Obj) : Collector Obj where
  pc := .installUsr2
  settings := s
  objsIn := ins
  objsOut := sc.second outs
  itr := 0
  tstamp := 0
  data := []
  flag := 0
  usr2 := false
  int := false
  pipe := 0
  timer := true

/-- **One step.**  `single` says that `-S` was given. -/
inductive Step (sc : Script) (single : Bool) : Collector Obj → Event Obj → Collector Obj → Prop
  | installUsr2 {s} (h : s.pc = .installUsr2) :
      Step sc single s .installUsr2 { s with pc := .installInt, usr2 := true }
  | installInt {s} (h : s.pc = .installInt) :
      Step sc single s .installInt { s with pc := .initFlag, int := true }
  | initFlag {s} (h : s.pc = .initFlag) :
      Step sc single s .initFlag { s with pc := .head, flag := 0 }
  -- `while (1)`, and `$itr = 1` of the inner loop
  | cycle {s} (h : s.pc = .head) :
      Step sc single s (.cycle (s.settings .inner2outer) s.objsIn s.objsOut)
        { s with pc := .inner, itr := 1 }
  | startInner {s} (t : Int) (h : s.pc = .inner) (hmore : sc.MoreInner s.settings s.itr) :
      Step sc single s (.start t)
        { s with pc := .pollInner s.objsIn, tstamp := t, data := freshData t }
  | pollInner {s o todo} (st : List (Text × Text)) (h : s.pc = .pollInner (o :: todo)) :
      Step sc single s (.poll o st)
        { s with pc := .pollInner todo, data := st.foldl store s.data }
  | polled {s} (h : s.pc = .pollInner []) :
      Step sc single s .polled { s with pc := .waitInner }
  -- `wait_for_timestep` in the inner loop: at the end of the file its `last`
  -- leaves the `for`
  | consumeInner {s} (h : s.pc = .waitInner) (hpipe : 0 < s.pipe) :
      Step sc single s .consume { s with pc := .inner, itr := s.itr + 1, pipe := s.pipe - 1 }
  | eofInner {s} (h : s.pc = .waitInner) (hpipe : s.pipe = 0) (htimer : s.timer = false) :
      Step sc single s .eof { s with pc := .outer }
  | leaveFor {s} (h : s.pc = .inner) (hmore : ¬ sc.MoreInner s.settings s.itr) :
      Step sc single s .leaveFor { s with pc := .outer }
  -- `last inner-iteration ... and also the outer-iteration`
  | startOuter {s} (t : Int) (h : s.pc = .outer) :
      Step sc single s (.start t)
        { s with pc := .pollOuter (s.objsIn ++ s.objsOut), tstamp := t, data := freshData t }
  | pollOuter {s o todo} (st : List (Text × Text)) (h : s.pc = .pollOuter (o :: todo)) :
      Step sc single s (.poll o st)
        { s with pc := .pollOuter todo, data := st.foldl store s.data }
  -- the lines are computed between the writes; nothing that the loop reads
  -- changes meanwhile
  | keylist {s} (pairs : List (Text × Text)) (h : s.pc = .pollOuter [])
      (hkeys : IsKeylist s.settings s.data pairs) :
      Step sc single s (.keylist pairs)
        { s with pc := .writing (formatRound s.settings s.tstamp pairs) }
  | write {s line todo} (h : s.pc = .writing (line :: todo)) :
      Step sc single s (.write line) { s with pc := .writing todo }
  | cycleDone {s} (h : s.pc = .writing []) :
      Step sc single s .cycleDone { s with pc := if single then .cleanup else .waitOuter }
  -- `wait_for_timestep` in the main loop: its `last` ends the loop
  | consumeOuter {s} (h : s.pc = .waitOuter) (hpipe : 0 < s.pipe) :
      Step sc single s .consume { s with pc := .testFlag, pipe := s.pipe - 1 }
  | eofOuter {s} (h : s.pc = .waitOuter) (hpipe : s.pipe = 0) (htimer : s.timer = false) :
      Step sc single s .eof { s with pc := .cleanup }
  | testFlag {s} (h : s.pc = .testFlag) :
      Step sc single s .testFlag { s with pc := if s.flag = 1 then .deleteObjs else .head }
  -- `reread_cfg`
  | deleteObjs {s} (h : s.pc = .deleteObjs) :
      Step sc single s .deleteObjs { s with pc := .doCfg, objsIn := [], objsOut := [] }
  | execCfg {s} (file : Cfg) (ins outs : List Obj) (h : s.pc = .doCfg) :
      Step sc single s (.execCfg file ins outs)
        { s with pc := .noteReread, settings := rereadSettings file s.settings,
                 objsIn := ins, objsOut := sc.second outs }
  | noteReread {s} (h : s.pc = .noteReread) :
      Step sc single s .noteReread { s with pc := .reinstall }
  | reinstall {s} (h : s.pc = .reinstall) :
      Step sc single s .reinstall { s with pc := .clearFlag, usr2 := true }
  | clearFlag {s} (h : s.pc = .clearFlag) :
      Step sc single s .clearFlag { s with pc := .head, flag := 0 }
  -- the end of the script, and a `getdata` that dies
  | finish {s} (h : s.pc = .cleanup) :
      Step sc single s .finish { s with pc := .exited, timer := sc.timerAtEnd s.timer }
  | dieInner {s o todo} (h : s.pc = .pollInner (o :: todo)) :
      Step sc single s .die { s with pc := .exited }
  | dieOuter {s o todo} (h : s.pc = .pollOuter (o :: todo)) :
      Step sc single s .die { s with pc := .exited }
  | tick {s} (htimer : s.timer = true) :
      Step sc single s .tick { s with pipe := s.pipe + 1 }
  | timerExit {s} (htimer : s.timer = true) :
      Step sc single s .timerExit { s with timer := false }
  -- `handler2` and `handler3`
  | sigusr2 {s} (hrun : s.pc ≠ .exited) (h : s.usr2 = true) :
      Step sc single s .sigusr2 { s with flag := 1 }
  | sigint {s} (hrun : s.pc ≠ .exited) (h : s.int = true) :
      Step sc single s .sigint { s with pc := .exited, timer := false }

/-! ## The request for a reread -/

/-- The configuration file is executed. -/
def Event.IsExec : Event Obj → Prop
  | .execCfg _ _ _ => True
  | _ => False

/-- Some `SIGUSR2` was delivered after the most recent execution of the file. -/
def Requested (tr : List (Event Obj)) : Prop := Since (· = .sigusr2) Event.IsExec tr

theorem requested_snoc_iff {tr : List (Event Obj)} {e : Event Obj} :
    Requested (tr ++ [e]) ↔ e = .sigusr2 ∨ (¬ e.IsExec ∧ Requested tr) :=
  since_snoc_iff

/-- The file has been executed, at the start or by `reread_cfg`, and the flag is
about to be set to zero. -/
def Pc.Clearing : Pc Obj → Prop
  | .installUsr2 | .installInt | .initFlag | .noteReread | .reinstall | .clearFlag => True
  | _ => False

/-- A step in which no `SIGUSR2` is delivered before a pending clearing. -/
def QuietStep (sc : Script) (single : Bool) (s : Collector Obj) (e : Event Obj)
    (t : Collector Obj) : Prop :=
  Step sc single s e t ∧ (e = .sigusr2 → ¬ s.pc.Clearing)

/-- What a step does to the flag.  Only the execution of the file leads to a
clearing. -/
theorem Step.flag_cases {sc : Script} {single : Bool} {s t : Collector Obj} {e : Event Obj}
    (h : Step sc single s e t) :
    (e.IsExec ∧ t.flag = s.flag) ∨ (e = .sigusr2 ∧ t.flag = 1 ∧ t.pc = s.pc) ∨
      (s.pc.Clearing ∧ t.flag = 0 ∧ t.pc = .head) ∨
      (¬ e.IsExec ∧ e ≠ .sigusr2 ∧ t.flag = s.flag ∧ (t.pc.Clearing → s.pc.Clearing)) := by
  cases h with
  | execCfg => exact Or.inl ⟨trivial, rfl⟩
  | sigusr2 => exact Or.inr (Or.inl ⟨rfl, rfl, rfl⟩)
  | initFlag h | clearFlag h => simp [h, Pc.Clearing]
  | cycleDone h | testFlag h =>
      refine Or.inr (Or.inr (Or.inr ⟨id, by simp, rfl, ?_⟩))
      dsimp only
      split <;> simp [Pc.Clearing]
  | tick | timerExit => exact Or.inr (Or.inr (Or.inr ⟨id, by simp, rfl, id⟩))
  | _ => simp_all [Pc.Clearing, Event.IsExec]

/-- A request that is not served shows in the flag, and there is none while the
flag waits to be cleared. -/
structure Kept (tr : List (Event Obj)) (s : Collector Obj) : Prop where
  flag : Requested tr → s.flag = 1
  none : s.pc.Clearing → ¬ Requested tr

theorem kept_step {sc : Script} {single : Bool} {tr : List (Event Obj)} {s t : Collector Obj}
    {e : Event Obj} (hs : Kept tr s) (h : QuietStep sc single s e t) : Kept (tr ++ [e]) t := by
  obtain ⟨hstep, hquiet⟩ := h
  rcases hstep.flag_cases with ⟨hexec, hflag⟩ | ⟨rfl, hflag, hpc⟩ | ⟨hclear, hflag, hpc⟩ |
    ⟨hexec, hne, hflag, hclear⟩
  · have hnone : ¬ Requested (tr ++ [e]) := by
      rw [requested_snoc_iff]
      intro hreq
      rcases hreq with rfl | ⟨hreq, -⟩
      · exact hexec
      · exact hreq hexec
    exact ⟨fun hreq => absurd hreq hnone, fun _ => hnone⟩
  · exact ⟨fun _ => hflag, fun hclear => absurd (hpc ▸ hclear) (hquiet rfl)⟩
  · have hnone : ¬ Requested (tr ++ [e]) := by
      rw [requested_snoc_iff]
      intro hreq
      rcases hreq with rfl | ⟨-, hreq⟩
      · exact hquiet rfl hclear
      · exact hs.none hclear hreq
    exact ⟨fun hreq => absurd hreq hnone, fun _ => hnone⟩
  · have hiff : Requested (tr ++ [e]) ↔ Requested tr := by
      rw [requested_snoc_iff]
      simp [hne, hexec]
    refine ⟨fun hreq => ?_, fun hpc hreq => ?_⟩
    · rw [hflag]
      exact hs.flag (hiff.mp hreq)
    · exact hs.none (hclear hpc) (hiff.mp hreq)

/-- **A request is kept.**  In every run in which no `SIGUSR2` falls between the
execution of the configuration file and the assignment that clears the flag,
every state that is reached after a request still to be served has the flag
set. -/
theorem reload_request_kept (sc : Script) (single : Bool) (st : Settings) (ins outs : List Obj)
    {tr : List (Event Obj)} {s : Collector Obj}
    (run : Run (QuietStep sc single) (boot sc st ins outs) tr s) (hreq : Requested tr) :
    s.flag = 1 := by
  have hinit : Kept [] (boot sc st ins outs) :=
    ⟨fun h => absurd h (not_since_nil _ _), fun _ => not_since_nil _ _⟩
  have hkept : Kept tr s :=
    run.inv hinit fun tr t e u _ ht hstep => kept_step ht hstep
  exact hkept.flag hreq

/-- From each of these places the collector clears the flag without executing the
file again. -/
theorem Pc.Clearing.clears {sc : Script} {single : Bool} {s : Collector Obj}
    (h : s.pc.Clearing) :
    ∃ tr u, Run (Step sc single) s tr u ∧ (∀ e ∈ tr, ¬ e.IsExec) ∧ u.flag = 0 := by
  cases hpc : s.pc with
  | installUsr2 =>
      exact ⟨[.installUsr2, .installInt, .initFlag], _,
        (((Run.nil s).snoc (.installUsr2 hpc)).snoc (.installInt rfl)).snoc (.initFlag rfl),
        by simp [Event.IsExec], rfl⟩
  | installInt =>
      exact ⟨[.installInt, .initFlag], _,
        ((Run.nil s).snoc (.installInt hpc)).snoc (.initFlag rfl), by simp [Event.IsExec], rfl⟩
  | initFlag =>
      exact ⟨[.initFlag], _, (Run.nil s).snoc (.initFlag hpc), by simp [Event.IsExec], rfl⟩
  | noteReread =>
      exact ⟨[.noteReread, .reinstall, .clearFlag], _,
        (((Run.nil s).snoc (.noteReread hpc)).snoc (.reinstall rfl)).snoc (.clearFlag rfl),
        by simp [Event.IsExec], rfl⟩
  | reinstall =>
      exact ⟨[.reinstall, .clearFlag], _,
        ((Run.nil s).snoc (.reinstall hpc)).snoc (.clearFlag rfl), by simp [Event.IsExec], rfl⟩
  | clearFlag =>
      exact ⟨[.clearFlag], _, (Run.nil s).snoc (.clearFlag hpc), by simp [Event.IsExec], rfl⟩
  | _ => simp [hpc, Pc.Clearing] at h

/-- Every request that falls into the gap is lost if nothing else happens before
the flag is cleared: the condition of `reload_request_kept` leaves out nothing
that is safe. -/
theorem request_lost_of_clearing {sc : Script} {single : Bool} {s₀ s : Collector Obj}
    {tr : List (Event Obj)} (run : Run (Step sc single) s₀ tr s) (hpc : s.pc.Clearing)
    (husr2 : s.usr2 = true) :
    ∃ tr' u, Run (Step sc single) s₀ (tr ++ [.sigusr2] ++ tr') u ∧
      Requested (tr ++ [.sigusr2] ++ tr') ∧ u.flag = 0 := by
  have hrun : s.pc ≠ .exited := by
    intro hexit
    rw [hexit] at hpc
    exact hpc
  obtain ⟨tr', u, hclear, hexec, hflag⟩ : ∃ tr' u, Run (Step sc single) { s with flag := 1 } tr' u ∧
      (∀ e ∈ tr', ¬ e.IsExec) ∧ u.flag = 0 := Pc.Clearing.clears hpc
  exact ⟨tr', u, (run.snoc (.sigusr2 hrun husr2)).trans hclear,
    (requested_snoc_iff.mpr (Or.inl rfl)).append hexec, hflag⟩

/-- `dlogger` with one object, at the head of its loop. -/
def loopHead : Collector Unit :=
  { boot .dlogger Script.dlogger.defaults [()] [] with pc := .head, usr2 := true, int := true }

/-- The request is kept from the head of the first cycle on. -/
theorem reload_request_kept_at_head :
    ∃ (tr : List (Event Unit)) (s : Collector Unit),
      Run (QuietStep .dlogger false) (boot .dlogger Script.dlogger.defaults [()] []) tr s ∧
      Requested tr ∧ s.flag = 1 := by
  have ready : Run (QuietStep .dlogger false) (boot .dlogger Script.dlogger.defaults [()] [])
      [.installUsr2, .installInt, .initFlag] loopHead :=
    (((Run.nil _).snoc ⟨.installUsr2 rfl, by simp⟩).snoc ⟨.installInt rfl, by simp⟩).snoc
      ⟨.initFlag rfl, by simp⟩
  have run := ready.snoc ⟨.sigusr2 (by simp [loopHead]) rfl, fun _ => id⟩
  have hreq :
      Requested ([.installUsr2, .installInt, .initFlag] ++ [.sigusr2] : List (Event Unit)) :=
    requested_snoc_iff.mpr (Or.inl rfl)
  exact ⟨_, _, run, hreq, reload_request_kept _ _ _ _ _ run hreq⟩

theorem run_loopHead :
    Run (Step .dlogger false) (boot .dlogger Script.dlogger.defaults [()] [])
      [.installUsr2, .installInt, .initFlag] loopHead :=
  (((Run.nil _).snoc (.installUsr2 rfl)).snoc (.installInt rfl)).snoc (.initFlag rfl)

/-- `dlogger` is asked to reread, executes the file, and is asked once more before
it clears the flag.  The second request is lost. -/
theorem reload_request_lost :
    ∃ (tr : List (Event Unit)) (s : Collector Unit),
      Run (Step .dlogger false) (boot .dlogger Script.dlogger.defaults [()] []) tr s ∧
      Requested tr ∧ s.flag = 0 := by
  have written : Run (Step .dlogger false) (boot .dlogger Script.dlogger.defaults [()] [])
      [.installUsr2, .installInt, .initFlag, .cycle 1 [()] [], .leaveFor, .start 0, .poll () [],
        .keylist (freshData 0), .cycleDone]
      { loopHead with pc := .waitOuter, itr := 1, data := freshData 0 } :=
    (((((run_loopHead.snoc (.cycle rfl)).snoc (.leaveFor rfl id)).snoc
      (.startOuter 0 rfl)).snoc (.pollOuter [] rfl)).snoc
      (.keylist _ rfl ⟨.refl _, by simp [freshData]⟩)).snoc (.cycleDone rfl)
  have executed : Run (Step .dlogger false) (boot .dlogger Script.dlogger.defaults [()] [])
      [.installUsr2, .installInt, .initFlag, .cycle 1 [()] [], .leaveFor, .start 0, .poll () [],
        .keylist (freshData 0), .cycleDone, .sigusr2, .tick, .consume, .testFlag, .deleteObjs,
        .execCfg (fun _ => none) [()] []]
      { loopHead with pc := .noteReread, itr := 1, data := freshData 0, flag := 1 } :=
    (((((written.snoc (.sigusr2 (by simp) rfl)).snoc (.tick rfl)).snoc
      (.consumeOuter rfl (by decide))).snoc (.testFlag rfl)).snoc (.deleteObjs rfl)).snoc
      (.execCfg (fun _ => none) [()] [] rfl)
  obtain ⟨tr', u, run, hreq, hflag⟩ := request_lost_of_clearing executed trivial rfl
  exact ⟨_, u, run, hreq, hflag⟩

end Memrec
