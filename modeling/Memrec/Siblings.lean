import Memrec.Schedule

/-!
# One daemon in the other

`dlogger` and `duologger` are two copies of one program.  `duologger` has an
inner loop and a second list of objects.  With `$inner2outer` at most one the
inner loop is never entered, and the two lists are polled one after the other.

So under such settings `duologger` does what `dlogger` does with the two lists
made one (`duologger_simulates`), and `dlogger` what `duologger` does with an
empty second list (`dlogger_simulates`), step by step, under any signals, ticks
and rereads.  They part where they end: `duologger` leaves its timer running.
-/

namespace Memrec

open Runs

variable {Obj : Type}

/-- The two lists made one. -/
def Event.oneList : Event Obj → Event Obj
  | .cycle n ins outs => .cycle n (ins ++ outs) []
  | .execCfg file ins outs => .execCfg file (ins ++ outs) []
  | e => e

/-- `dlogger` has one list. -/
def Event.firstList : Event Obj → Event Obj
  | .execCfg file ins _ => .execCfg file ins []
  | e => e

/-- `$inner2outer` is at most one in a file that is executed. -/
def KeepsOneLevel (e : Event Obj) : Prop :=
  ∀ file ins outs, e = .execCfg file ins outs → (file .inner2outer).getD 1 ≤ 1

/-- Places of the inner loop. -/
def Pc.Inner : Pc Obj → Prop
  | .pollInner _ | .waitInner => True
  | _ => False

/-- **The two daemons at the same place.**  The second is `dlogger`. -/
structure Siblings (s d : Collector Obj) : Prop where
  oneLevel : s.settings .inner2outer ≤ 1
  itr : s.pc = .inner → s.itr = 1
  notInner : ¬ s.pc.Inner
  same : d = { s with objsIn := s.objsIn ++ s.objsOut, objsOut := [] }

theorem siblings_boot {st : Settings} (hst : st .inner2outer ≤ 1) (ins outs : List Obj) :
    Siblings (boot .duologger st ins outs) (boot .dlogger st (ins ++ outs) []) :=
  ⟨hst, by simp [boot], id, rfl⟩

theorem oneLevel_reread {file : Cfg} {st : Settings} (hst : st .inner2outer ≤ 1)
    (hfile : (file .inner2outer).getD 1 ≤ 1) : rereadSettings file st .inner2outer ≤ 1 := by
  unfold rereadSettings execCfg
  cases hget : file .inner2outer with
  | none => exact hst
  | some n =>
      rw [hget] at hfile
      exact hfile

/-- **One step of `duologger`** is one of `dlogger`, as long as it does not end. -/
theorem siblings_step {single : Bool} {s t d : Collector Obj} {e : Event Obj}
    (hs : Siblings s d) (he : KeepsOneLevel e) (hend : e ≠ .finish)
    (h : Step .duologger single s e t) :
    ∃ d', Step .dlogger single d e.oneList d' ∧ Siblings t d' := by
  obtain ⟨hone, hitr, hinner, rfl⟩ := hs
  cases h with
  | installUsr2 h => exact ⟨_, .installUsr2 h, hone, by simp, id, rfl⟩
  | installInt h => exact ⟨_, .installInt h, hone, by simp, id, rfl⟩
  | initFlag h => exact ⟨_, .initFlag h, hone, by simp, id, rfl⟩
  | cycle h => exact ⟨_, .cycle h, hone, fun _ => rfl, id, rfl⟩
  -- the inner loop is not entered
  | startInner t h hmore =>
      have hlt : (s.itr : Int) < s.settings .inner2outer := hmore
      rw [hitr h] at hlt
      omega
  | pollInner st h | polled h | consumeInner h | eofInner h | dieInner h =>
      rw [h] at hinner
      exact absurd trivial hinner
  | leaveFor h => exact ⟨_, .leaveFor h id, hone, by simp, id, rfl⟩
  | startOuter t h =>
      refine ⟨_, .startOuter t h, hone, by simp, id, ?_⟩
      simp
  | pollOuter st h => exact ⟨_, .pollOuter st h, hone, by simp, id, rfl⟩
  | keylist pairs h hkeys => exact ⟨_, .keylist pairs h hkeys, hone, by simp, id, rfl⟩
  | write h => exact ⟨_, .write h, hone, by simp, id, rfl⟩
  | cycleDone h =>
      refine ⟨_, .cycleDone h, hone, ?_, ?_, rfl⟩
      · cases single <;> simp
      · cases single <;> exact id
  | consumeOuter h hpipe => exact ⟨_, .consumeOuter h hpipe, hone, by simp, id, rfl⟩
  | eofOuter h hpipe htimer => exact ⟨_, .eofOuter h hpipe htimer, hone, by simp, id, rfl⟩
  | testFlag h =>
      refine ⟨_, .testFlag h, hone, ?_, ?_, rfl⟩
      · dsimp only
        split <;> simp
      · dsimp only
        split <;> exact id
  | deleteObjs h => exact ⟨_, .deleteObjs h, hone, by simp, id, rfl⟩
  | execCfg file ins outs h =>
      exact ⟨_, .execCfg file (ins ++ outs) [] h, oneLevel_reread hone (he file ins outs rfl),
        by simp, id, rfl⟩
  | noteReread h => exact ⟨_, .noteReread h, hone, by simp, id, rfl⟩
  | reinstall h => exact ⟨_, .reinstall h, hone, by simp, id, rfl⟩
  | clearFlag h => exact ⟨_, .clearFlag h, hone, by simp, id, rfl⟩
  | finish h => exact absurd rfl hend
  | dieOuter h => exact ⟨_, .dieOuter h, hone, by simp, id, rfl⟩
  | tick htimer => exact ⟨_, .tick htimer, hone, hitr, hinner, rfl⟩
  | timerExit htimer => exact ⟨_, .timerExit htimer, hone, hitr, hinner, rfl⟩
  | sigusr2 hrun h => exact ⟨_, .sigusr2 hrun h, hone, hitr, hinner, rfl⟩
  | sigint hrun h => exact ⟨_, .sigint hrun h, hone, by simp, id, rfl⟩

/-- **One step of `dlogger`** is one of a `duologger` whose second list is empty,
as long as it does not end. -/
theorem siblings_step_back {single : Bool} {s d d' : Collector Obj} {e : Event Obj}
    (hs : Siblings s d) (hout : s.objsOut = []) (he : KeepsOneLevel e) (hend : e ≠ .finish)
    (h : Step .dlogger single d e d') :
    ∃ t, Step .duologger single s e.firstList t ∧ Siblings t d' ∧ t.objsOut = [] := by
  obtain ⟨hone, hitr, hinner, rfl⟩ := hs
  have hin : s.objsIn ++ s.objsOut = s.objsIn := by rw [hout, List.append_nil]
  cases h with
  | installUsr2 h => exact ⟨_, .installUsr2 h, ⟨hone, by simp, id, rfl⟩, hout⟩
  | installInt h => exact ⟨_, .installInt h, ⟨hone, by simp, id, rfl⟩, hout⟩
  | initFlag h => exact ⟨_, .initFlag h, ⟨hone, by simp, id, rfl⟩, hout⟩
  | cycle h =>
      refine ⟨{ s with pc := .inner, itr := 1 }, ?_, ⟨hone, fun _ => rfl, id, rfl⟩, hout⟩
      have hlabel : (Event.cycle (s.settings .inner2outer) (s.objsIn ++ s.objsOut) [] :
          Event Obj).firstList = .cycle (s.settings .inner2outer) s.objsIn s.objsOut := by
        rw [hin, hout]
        rfl
      rw [hlabel]
      exact .cycle h
  | startInner t h hmore => exact absurd hmore id
  | pollInner st h | polled h | consumeInner h | eofInner h | dieInner h =>
      dsimp only at h
      rw [h] at hinner
      exact absurd trivial hinner
  | leaveFor h =>
      refine ⟨_, .leaveFor h ?_, ⟨hone, by simp, id, rfl⟩, hout⟩
      show ¬ (s.itr : Int) < s.settings .inner2outer
      rw [hitr h]
      omega
  | startOuter t h =>
      refine ⟨_, .startOuter t h, ⟨hone, by simp, id, ?_⟩, hout⟩
      simp
  | pollOuter st h => exact ⟨_, .pollOuter st h, ⟨hone, by simp, id, rfl⟩, hout⟩
  | keylist pairs h hkeys => exact ⟨_, .keylist pairs h hkeys, ⟨hone, by simp, id, rfl⟩, hout⟩
  | write h => exact ⟨_, .write h, ⟨hone, by simp, id, rfl⟩, hout⟩
  | cycleDone h =>
      refine ⟨_, .cycleDone h, ⟨hone, ?_, ?_, rfl⟩, hout⟩
      · cases single <;> simp
      · cases single <;> exact id
  | consumeOuter h hpipe => exact ⟨_, .consumeOuter h hpipe, ⟨hone, by simp, id, rfl⟩, hout⟩
  | eofOuter h hpipe htimer => exact ⟨_, .eofOuter h hpipe htimer, ⟨hone, by simp, id, rfl⟩, hout⟩
  | testFlag h =>
      refine ⟨_, .testFlag h, ⟨hone, ?_, ?_, rfl⟩, hout⟩
      · dsimp only
        split <;> simp
      · dsimp only
        split <;> exact id
  | deleteObjs h => exact ⟨_, .deleteObjs h, ⟨hone, by simp, id, rfl⟩, rfl⟩
  | execCfg file ins outs h =>
      refine ⟨_, .execCfg file ins [] h, ⟨?_, by simp, id, ?_⟩, rfl⟩
      · exact oneLevel_reread hone (he file ins outs rfl)
      · simp [Script.second]
  | noteReread h => exact ⟨_, .noteReread h, ⟨hone, by simp, id, rfl⟩, hout⟩
  | reinstall h => exact ⟨_, .reinstall h, ⟨hone, by simp, id, rfl⟩, hout⟩
  | clearFlag h => exact ⟨_, .clearFlag h, ⟨hone, by simp, id, rfl⟩, hout⟩
  | finish h => exact absurd rfl hend
  | dieOuter h => exact ⟨_, .dieOuter h, ⟨hone, by simp, id, rfl⟩, hout⟩
  | tick htimer => exact ⟨_, .tick htimer, ⟨hone, hitr, hinner, rfl⟩, hout⟩
  | timerExit htimer => exact ⟨_, .timerExit htimer, ⟨hone, hitr, hinner, rfl⟩, hout⟩
  | sigusr2 hrun h => exact ⟨_, .sigusr2 hrun h, ⟨hone, hitr, hinner, rfl⟩, hout⟩
  | sigint hrun h => exact ⟨_, .sigint hrun h, ⟨hone, by simp, id, rfl⟩, hout⟩

/-! ## Whole runs -/

/-- A run in which nothing follows the end of the script. -/
theorem finish_cases {tr : List (Event Obj)}
    (hend : ∀ pre post, tr = pre ++ .finish :: post → post = []) :
    (∀ e ∈ tr, e ≠ .finish) ∨ ∃ pre, tr = pre ++ [.finish] ∧ ∀ e ∈ pre, e ≠ .finish := by
  by_cases hmem : .finish ∈ tr
  · obtain ⟨pre, post, rfl⟩ := List.append_of_mem hmem
    obtain rfl := hend pre post rfl
    refine Or.inr ⟨pre, rfl, ?_⟩
    intro e he hfinish
    subst hfinish
    obtain ⟨p, q, rfl⟩ := List.append_of_mem he
    exact absurd (hend p (q ++ [.finish]) (by simp)) (by simp)
  · refine Or.inl ?_
    intro e he hfinish
    subst hfinish
    exact hmem he

/-- **`duologger` with one level is `dlogger`.**  As long as `$inner2outer` is at
most one, every run of `duologger` up to its end is a run of `dlogger` with the
two lists made one: the same polls, the same lines, the same waits, under the
same ticks and signals. -/
theorem duologger_simulates (single : Bool) (st : Settings) (ins outs : List Obj)
    (hst : st .inner2outer ≤ 1) {tr : List (Event Obj)} {s : Collector Obj}
    (run : Run (Step .duologger single) (boot .duologger st ins outs) tr s)
    (hcfg : ∀ e ∈ tr, KeepsOneLevel e)
    (hend : ∀ pre post, tr = pre ++ .finish :: post → post = []) :
    ∃ d, Run (Step .dlogger single) (boot .dlogger st (ins ++ outs) []) (tr.map Event.oneList) d ∧
      d.pc = s.pc ∧ d.data = s.data ∧ d.settings = s.settings ∧ d.flag = s.flag := by
  have hrun : ∀ {tr : List (Event Obj)} {s : Collector Obj},
      Run (Step .duologger single) (boot .duologger st ins outs) tr s →
      (∀ e ∈ tr, KeepsOneLevel e) → (∀ e ∈ tr, e ≠ .finish) →
      ∃ d, Run (Step .dlogger single) (boot .dlogger st (ins ++ outs) [])
        (tr.map Event.oneList) d ∧ Siblings s d := by
    intro tr s run hcfg hfinish
    refine run.simulate (R := Siblings) (P := fun e => KeepsOneLevel e ∧ e ≠ .finish) ?_
      (siblings_boot hst ins outs) fun e he => ⟨hcfg e he, hfinish e he⟩
    intro s e t d hs he h
    exact siblings_step hs he.1 he.2 h
  rcases finish_cases hend with hfinish | ⟨pre, rfl, hfinish⟩
  · obtain ⟨d, hd, -, -, -, rfl⟩ := hrun run hcfg hfinish
    exact ⟨_, hd, rfl, rfl, rfl, rfl⟩
  · obtain ⟨m, hm, hlast⟩ := run.of_snoc
    obtain ⟨d, hd, -, -, -, rfl⟩ := hrun hm (fun e he => hcfg e (List.mem_append_left _ he)) hfinish
    rw [List.map_append]
    cases hlast with
    | finish h => exact ⟨_, hd.snoc (.finish h), rfl, rfl, rfl, rfl⟩

/-- `duologger -i 1`. -/
def oneLevel : Settings := start .duologger ⟨false, false, some 1⟩ fun _ => none

/-- The polls of its first cycle are those of `dlogger`. -/
theorem duologger_simulates_poll :
    ∃ d, Run (Step .dlogger false) (boot .dlogger oneLevel [0, 1] [])
      [.installUsr2, .installInt, .initFlag, .cycle 1 [0, 1] [], .leaveFor, .start 5, .poll 0 [],
        .poll 1 []] d ∧ d.pc = .pollOuter [] := by
  have run : Run (Step .duologger false) (boot .duologger oneLevel [0] [1])
      [.installUsr2, .installInt, .initFlag, .cycle 1 [0] [1], .leaveFor, .start 5, .poll 0 [],
        .poll 1 []] _ :=
    ((((((((Run.nil _).snoc (.installUsr2 rfl)).snoc (.installInt rfl)).snoc
      (.initFlag rfl)).snoc (.cycle rfl)).snoc (.leaveFor rfl (by decide))).snoc
      (.startOuter 5 rfl)).snoc (.pollOuter [] rfl)).snoc (.pollOuter [] rfl)
  obtain ⟨d, hd, hpc, -⟩ := duologger_simulates false oneLevel [0] [1] (by decide) run
    (by simp [KeepsOneLevel]) (by simp [List.cons_eq_append_iff])
  exact ⟨d, hd, hpc⟩

/-- Nothing happens to `dlogger` after its end. -/
theorem dlogger_stays {single : Bool} {s t u : Collector Obj} {e : Event Obj}
    (h : Step .dlogger single s .finish t) : ¬ Step .dlogger single t e u := by
  intro hnext
  cases h with
  | finish => cases hnext <;> simp_all [Script.timerAtEnd]

/-- **`dlogger` is `duologger` with one level** and an empty second list. -/
theorem dlogger_simulates (single : Bool) (st : Settings) (objs : List Obj)
    (hst : st .inner2outer ≤ 1) {tr : List (Event Obj)} {d : Collector Obj}
    (run : Run (Step .dlogger single) (boot .dlogger st objs []) tr d)
    (hcfg : ∀ e ∈ tr, KeepsOneLevel e) :
    ∃ s, Run (Step .duologger single) (boot .duologger st objs []) (tr.map Event.firstList) s ∧
      s.pc = d.pc ∧ s.data = d.data ∧ s.settings = d.settings ∧ s.flag = d.flag := by
  have hend : ∀ pre post, tr = pre ++ .finish :: post → post = [] := by
    intro pre post htr
    subst htr
    cases post with
    | nil => rfl
    | cons e post =>
        obtain ⟨m, -, hrest⟩ := run.of_append
        obtain ⟨m', hfinish, hrest⟩ := hrest.of_cons
        obtain ⟨u, hnext, -⟩ := hrest.of_cons
        exact absurd hnext (dlogger_stays hfinish)
  have hboot : Siblings (boot .duologger st objs []) (boot .dlogger st objs []) ∧
      (boot .duologger st objs []).objsOut = [] := by
    have h := siblings_boot hst objs []
    rw [List.append_nil] at h
    exact ⟨h, rfl⟩
  have hrun : ∀ {tr : List (Event Obj)} {d : Collector Obj},
      Run (Step .dlogger single) (boot .dlogger st objs []) tr d →
      (∀ e ∈ tr, KeepsOneLevel e) → (∀ e ∈ tr, e ≠ .finish) →
      ∃ s, Run (Step .duologger single) (boot .duologger st objs [])
        (tr.map Event.firstList) s ∧ Siblings s d ∧ s.objsOut = [] := by
    intro tr d run hcfg hfinish
    refine run.simulate (R := fun d s => Siblings s d ∧ s.objsOut = [])
      (P := fun e => KeepsOneLevel e ∧ e ≠ .finish) ?_ hboot fun e he => ⟨hcfg e he, hfinish e he⟩
    intro d e d' s hs he h
    exact siblings_step_back hs.1 hs.2 he.1 he.2 h
  rcases finish_cases hend with hfinish | ⟨pre, rfl, hfinish⟩
  · obtain ⟨s, hs, ⟨-, -, -, rfl⟩, -⟩ := hrun run hcfg hfinish
    exact ⟨s, hs, rfl, rfl, rfl, rfl⟩
  · obtain ⟨m, hm, hlast⟩ := run.of_snoc
    obtain ⟨s, hs, ⟨-, -, -, rfl⟩, -⟩ :=
      hrun hm (fun e he => hcfg e (List.mem_append_left _ he)) hfinish
    rw [List.map_append]
    cases hlast with
    | finish h => exact ⟨_, hs.snoc (.finish h), rfl, rfl, rfl, rfl⟩

/-- `dlogger -S` with no objects, from the start to its end. -/
theorem dlogger_simulates_single :
    ∃ s, Run (Step .duologger true) (boot .duologger oneLevel ([] : List Nat) [])
      [.installUsr2, .installInt, .initFlag, .cycle 1 [] [], .leaveFor, .start 5,
        .keylist (freshData 5), .cycleDone, .finish] s ∧ s.pc = .exited := by
  have run : Run (Step .dlogger true) (boot .dlogger oneLevel ([] : List Nat) [])
      [.installUsr2, .installInt, .initFlag, .cycle 1 [] [], .leaveFor, .start 5,
        .keylist (freshData 5), .cycleDone, .finish] _ :=
    (((((((((Run.nil _).snoc (.installUsr2 rfl)).snoc (.installInt rfl)).snoc
      (.initFlag rfl)).snoc (.cycle rfl)).snoc (.leaveFor rfl id)).snoc
      (.startOuter 5 rfl)).snoc (.keylist _ rfl ⟨.refl _, fun h => absurd rfl h⟩)).snoc
      (.cycleDone rfl)).snoc (.finish rfl)
  obtain ⟨s, hs, hpc, -⟩ := dlogger_simulates true oneLevel [] (by decide) run
    (by simp [KeepsOneLevel])
  exact ⟨s, hs, hpc⟩

end Memrec
