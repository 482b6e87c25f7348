import Memrec.Collector

/-!
# The two-level schedule

What a run of the collector does, read off its events.  While the timer keeps
the pipe open:

* a tick is consumed for every collection step but the one in progress
  (`Tally`);
* a cycle that began with `$inner2outer = n` polls `@objs_in` in each of
  `max(1,n)` steps, and `@objs_out` in the last one (`Progress`);
* the lines are written in that last step, from what its polls have stored
  (`StepData`);
* the configuration file is executed between two cycles.

Each is an invariant of single steps.  `collector_schedule` puts them together
for whole runs.
-/

namespace Memrec

open Perl Runs

variable {Obj : Type}

/-! ## Reading a run -/

/-- The timer writes a tick. -/
def Event.isTick : Event Obj → Bool
  | .tick => true
  | _ => false

/-- The collector reads a tick. -/
def Event.isConsume : Event Obj → Bool
  | .consume => true
  | _ => false

/-- A collection step begins. -/
def Event.isStart : Event Obj → Bool
  | .start _ => true
  | _ => false

/-- The number of ticks written. -/
def written (tr : List (Event Obj)) : Nat := tr.countP Event.isTick

/-- The number of ticks consumed. -/
def consumed (tr : List (Event Obj)) : Nat := tr.countP Event.isConsume

/-- The number of collection steps started. -/
def started (tr : List (Event Obj)) : Nat := tr.countP Event.isStart

/-- A cycle begins. -/
def Event.IsCycle : Event Obj → Prop
  | .cycle _ _ _ => True
  | _ => False

/-- Part of a cycle: collecting, writing or waiting. -/
def Event.IsWork : Event Obj → Prop
  | .start _ | .poll _ _ | .polled | .leaveFor | .keylist _ | .write _ | .cycleDone | .consume => True
  | _ => False

/-- The current cycle began with `n`, `ins` and `outs` in force, and `b` has
happened in it. -/
def CurrentCycle (tr : List (Event Obj)) (n : Int) (ins outs : List Obj)
    (b : List (Event Obj)) : Prop :=
  ∃ pre, tr = pre ++ .cycle n ins outs :: b ∧ ∀ e ∈ b, ¬ e.IsCycle

/-- The object that is polled. -/
def Event.object : Event Obj → Option Obj
  | .poll o _ => some o
  | _ => none

/-- The objects polled, in order. -/
def polls (tr : List (Event Obj)) : List Obj := tr.filterMap Event.object

/-- A step opens a new list, a poll adds to the last one. -/
def pollStep (steps : List (List Obj)) : Event Obj → List (List Obj)
  | .start _ => steps ++ [[]]
  | .poll o _ => steps.dropLast ++ [steps.getLastD [] ++ [o]]
  | _ => steps

/-- The objects polled in each collection step. -/
def pollsByStep (tr : List (Event Obj)) : List (List Obj) := tr.foldl pollStep []

/-- `max(1, $inner2outer)`; `dlogger` has one step in a cycle. -/
def Script.rounds (sc : Script) (n : Int) : Nat :=
  match sc with
  | .dlogger => 1
  | .duologger => (max 1 n).toNat

/-- The polls of a completed cycle. -/
def Script.fullCycle (sc : Script) (n : Int) (ins outs : List Obj) : List (List Obj) :=
  List.replicate (sc.rounds n - 1) ins ++ [ins ++ outs]

/-- A poll stored this pair. -/
def Event.Stores (p : Text × Text) : Event Obj → Prop
  | .poll _ st => p ∈ st
  | _ => False

/-- A poll of the current step stored the pair. -/
def StoredNow (tr : List (Event Obj)) (p : Text × Text) : Prop :=
  Since (Event.Stores p) (fun e => e.isStart = true) tr

/-- The collector is collecting or waiting. -/
def Pc.Busy : Pc Obj → Prop
  | .pollInner _ | .waitInner | .pollOuter _ | .writing _ | .waitOuter => True
  | _ => False

/-- The collector is still in its main loop, or before it. -/
def Pc.Looping : Pc Obj → Prop
  | .cleanup | .exited => False
  | _ => True

@[simp] theorem pollsByStep_snoc (tr : List (Event Obj)) (e : Event Obj) :
    pollsByStep (tr ++ [e]) = pollStep (pollsByStep tr) e := by
  simp [pollsByStep]

/-- One more poll in the current step. -/
theorem pollsByStep_poll {tr : List (Event Obj)} {steps : List (List Obj)} {done : List Obj}
    {o : Obj} {st : List (Text × Text)} (h : pollsByStep tr = steps ++ [done]) :
    pollsByStep (tr ++ [.poll o st]) = steps ++ [done ++ [o]] := by
  rw [pollsByStep_snoc, h]
  simp [pollStep]

theorem flatten_pollStep (steps : List (List Obj)) (e : Event Obj) :
    (pollStep steps e).flatten = steps.flatten ++ e.object.toList := by
  cases e with
  | poll o st =>
      obtain rfl | ⟨steps, last, rfl⟩ := steps.eq_nil_or_concat'
      · rfl
      · simp [pollStep, Event.object]
  | _ => simp [pollStep, Event.object]

theorem flatten_pollsByStep (tr : List (Event Obj)) : (pollsByStep tr).flatten = polls tr := by
  induction tr using List.reverseRecOn with
  | nil => rfl
  | append_singleton tr e ih =>
      rw [pollsByStep_snoc, flatten_pollStep, ih]
      unfold polls
      rw [List.filterMap_append]
      cases he : e.object <;> simp [he]

/-! ## Ticks and steps -/

/-- The write end of the pipe is open as long as the timer was not stopped. -/
theorem Step.timer_open {sc : Script} {single : Bool} {s t : Collector Obj} {e : Event Obj}
    (h : Step sc single s e t) (he : e ≠ .timerExit) (hs : s.pc.Looping → s.timer = true) :
    t.pc.Looping → t.timer = true := by
  cases h with
  | timerExit => exact absurd rfl he
  | tick | sigusr2 => exact hs
  | finish | sigint | dieInner | dieOuter => exact False.elim
  | _ => simp_all [Pc.Looping]

/-- One more than the ticks consumed while the collector is busy, as many
otherwise. -/
def Pc.underway : Pc Obj → Nat
  | .pollInner _ | .waitInner | .pollOuter _ | .writing _ | .waitOuter => 1
  | _ => 0

theorem Pc.Busy.underway_eq {pc : Pc Obj} (h : pc.Busy) : pc.underway = 1 := by
  cases pc <;> first | rfl | exact h.elim

theorem Pc.Busy.looping {pc : Pc Obj} (h : pc.Busy) : pc.Looping := by
  cases pc <;> trivial

/-- **The ledger of one step.**  A tick goes into the pipe or comes out of it; a
step that begins makes the collector busy, and the tick that it waits for makes
it idle again. -/
theorem Step.ledger {sc : Script} {single : Bool} {s t : Collector Obj} {e : Event Obj}
    (h : Step sc single s e t) (hopen : s.pc.Looping → s.timer = true) :
    t.pipe + e.isConsume.toNat = s.pipe + e.isTick.toNat ∧
    (t.pc.Looping → s.pc.Looping ∧
      e.isStart.toNat + s.pc.underway = e.isConsume.toNat + t.pc.underway) := by
  cases h with
  | eofInner hpc _ htimer | eofOuter hpc _ htimer =>
      rw [hopen (by simp [hpc, Pc.Looping])] at htimer
      exact absurd htimer (by decide)
  | consumeInner hpc hpos | consumeOuter hpc hpos =>
      exact ⟨Nat.sub_add_cancel hpos, fun _ => by simp [hpc, Pc.Looping, Pc.underway,
        Event.isStart, Event.isConsume]⟩
  | cycleDone hpc =>
      refine ⟨rfl, ?_⟩
      cases single with
      | true => exact False.elim
      | false => intro _; simp [hpc, Pc.Looping, Pc.underway, Event.isStart, Event.isConsume]
  | testFlag hpc =>
      refine ⟨rfl, fun _ => ?_⟩
      dsimp only
      split <;> simp [hpc, Pc.Looping, Pc.underway, Event.isStart, Event.isConsume]
  | finish | sigint | dieInner | dieOuter => exact ⟨rfl, False.elim⟩
  | tick | sigusr2 | timerExit => exact ⟨rfl, fun hloop => ⟨hloop, rfl⟩⟩
  | _ =>
      refine ⟨rfl, fun _ => ?_⟩
      simp_all [Pc.Looping, Pc.underway, Event.isStart, Event.isConsume]

/-- **No tick is lost or counted twice.** -/
structure Tally (tr : List (Event Obj)) (s : Collector Obj) : Prop where
  pipe : s.pipe + consumed tr = written tr
  steps : s.pc.Looping → started tr = consumed tr + s.pc.underway

theorem countP_snoc (p : Event Obj → Bool) (tr : List (Event Obj)) (e : Event Obj) :
    (tr ++ [e]).countP p = tr.countP p + (p e).toNat := by
  cases he : p e <;> simp [he]

theorem tally_step {sc : Script} {single : Bool} {tr : List (Event Obj)} {s t : Collector Obj}
    {e : Event Obj} (hopen : s.pc.Looping → s.timer = true) (hs : Tally tr s)
    (h : Step sc single s e t) : Tally (tr ++ [e]) t := by
  obtain ⟨hpipe, hbusy⟩ := h.ledger hopen
  obtain ⟨hp, hsteps⟩ := hs
  unfold written consumed at hp
  unfold started consumed at hsteps
  constructor
  · unfold written consumed
    rw [countP_snoc, countP_snoc]
    omega
  · intro hloop
    obtain ⟨hs, hunder⟩ := hbusy hloop
    have hcount := hsteps hs
    unfold started consumed
    rw [countP_snoc, countP_snoc]
    omega

theorem Tally.one_ahead {tr : List (Event Obj)} {s : Collector Obj} (h : Tally tr s)
    (hbusy : s.pc.Busy) : started tr = consumed tr + 1 := by
  rw [h.steps hbusy.looping, hbusy.underway_eq]

/-! ## Polls -/

theorem rounds_duologger (n : Int) : Script.duologger.rounds n = (max 1 n).toNat := rfl

theorem Script.lt_rounds {sc : Script} {s : Settings} {k : Nat} (h : sc.MoreInner s k) :
    k < sc.rounds (s .inner2outer) := by
  cases sc with
  | dlogger => exact h.elim
  | duologger =>
      unfold Script.MoreInner at h
      rw [rounds_duologger]
      omega

theorem Script.rounds_le {sc : Script} {s : Settings} {k : Nat} (h : ¬ sc.MoreInner s k)
    (hk : 1 ≤ k) : sc.rounds (s .inner2outer) ≤ k := by
  cases sc with
  | dlogger => exact hk
  | duologger =>
      unfold Script.MoreInner at h
      rw [rounds_duologger]
      omega

/-- The settings and objects that the cycle began with are in force. -/
def InForce (n : Int) (ins outs : List Obj) (s : Collector Obj) : Prop :=
  s.settings .inner2outer = n ∧ s.objsIn = ins ∧ s.objsOut = outs

/-- **How far the cycle is**, at each place of the loop. -/
def Progress (sc : Script) (n : Int) (ins outs : List Obj) (b : List (Event Obj))
    (s : Collector Obj) : Prop :=
  match s.pc with
  | .installUsr2 | .installInt | .initFlag => False
  | .inner => InForce n ins outs s ∧ ∃ k, s.itr = k + 1 ∧ k < sc.rounds n ∧
      pollsByStep b = List.replicate k ins
  | .pollInner todo => InForce n ins outs s ∧ ∃ k done, s.itr = k + 1 ∧ k + 1 < sc.rounds n ∧
      ins = done ++ todo ∧ pollsByStep b = List.replicate k ins ++ [done]
  | .waitInner => InForce n ins outs s ∧ ∃ k, s.itr = k + 1 ∧ k + 1 < sc.rounds n ∧
      pollsByStep b = List.replicate (k + 1) ins
  | .outer => InForce n ins outs s ∧ pollsByStep b = List.replicate (sc.rounds n - 1) ins
  | .pollOuter todo => ∃ done, ins ++ outs = done ++ todo ∧
      pollsByStep b = List.replicate (sc.rounds n - 1) ins ++ [done]
  | .writing _ => pollsByStep b = sc.fullCycle n ins outs
  | .exited => True
  | _ => pollsByStep b = sc.fullCycle n ins outs ∧ .cycleDone ∈ b

theorem Script.rounds_pos (sc : Script) (n : Int) : 0 < sc.rounds n := by
  cases sc with
  | dlogger => exact Nat.one_pos
  | duologger =>
      rw [rounds_duologger]
      omega

/-- A cycle that has just begun. -/
theorem progress_cycle {sc : Script} {s : Collector Obj} :
    Progress sc (s.settings .inner2outer) s.objsIn s.objsOut [] { s with pc := .inner, itr := 1 } :=
  ⟨⟨rfl, rfl, rfl⟩, 0, rfl, sc.rounds_pos _, rfl⟩

/-- An event that is no part of the loop. -/
theorem Progress.snoc_other {sc : Script} {n : Int} {ins outs : List Obj} {b : List (Event Obj)}
    {s : Collector Obj} {e : Event Obj} (h : Progress sc n ins outs b s)
    (he : pollsByStep (b ++ [e]) = pollsByStep b) : Progress sc n ins outs (b ++ [e]) s := by
  unfold Progress at h ⊢
  rw [he]
  cases hpc : s.pc <;> rw [hpc] at h <;>
    first | exact h | exact ⟨h.1, List.mem_append_left _ h.2⟩

/-- **One step of the loop.** -/
theorem progress_step {sc : Script} {single : Bool} {n : Int} {ins outs : List Obj}
    {b : List (Event Obj)} {s t : Collector Obj} {e : Event Obj}
    (hopen : s.pc.Looping → s.timer = true) (hs : Progress sc n ins outs b s)
    (h : Step sc single s e t) (he : ¬ e.IsCycle) : Progress sc n ins outs (b ++ [e]) t := by
  cases h with
  | cycle => exact absurd trivial he
  | installUsr2 hpc | installInt hpc | initFlag hpc => simp [Progress, hpc] at hs
  | eofInner hpc _ htimer | eofOuter hpc _ htimer =>
      rw [hopen (by simp [hpc, Pc.Looping])] at htimer
      exact absurd htimer (by decide)
  | startInner t hpc hmore =>
      simp only [Progress, hpc] at hs
      obtain ⟨hforce, k, hitr, -, hpolls⟩ := hs
      refine ⟨hforce, k, [], hitr, ?_, hforce.2.1.symm, ?_⟩
      · rw [← hforce.1, ← hitr]
        exact sc.lt_rounds hmore
      · rw [pollsByStep_snoc, hpolls]
        rfl
  | @pollInner o todo st hpc =>
      simp only [Progress, hpc] at hs
      obtain ⟨hforce, k, done, hitr, hk, hdone, hpolls⟩ := hs
      exact ⟨hforce, k, done ++ [o], hitr, hk, by simp [hdone], pollsByStep_poll hpolls⟩
  | polled hpc =>
      simp only [Progress, hpc] at hs
      obtain ⟨hforce, k, done, hitr, hk, hdone, hpolls⟩ := hs
      refine ⟨hforce, k, hitr, hk, ?_⟩
      rw [pollsByStep_snoc, hpolls, List.replicate_succ']
      simp [pollStep, hdone]
  | consumeInner hpc =>
      simp only [Progress, hpc] at hs
      obtain ⟨hforce, k, hitr, hk, hpolls⟩ := hs
      refine ⟨hforce, k + 1, by simp [hitr], hk, ?_⟩
      rw [pollsByStep_snoc, hpolls]
      rfl
  | leaveFor hpc hmore =>
      simp only [Progress, hpc] at hs
      obtain ⟨hforce, k, hitr, hk, hpolls⟩ := hs
      refine ⟨hforce, ?_⟩
      have hlast := sc.rounds_le hmore (by omega)
      rw [hforce.1] at hlast
      have hk : sc.rounds n - 1 = k := by omega
      rw [pollsByStep_snoc, hpolls, hk]
      rfl
  | startOuter t hpc =>
      simp only [Progress, hpc] at hs
      obtain ⟨⟨-, hin, hout⟩, hpolls⟩ := hs
      refine ⟨[], by simp [hin, hout], ?_⟩
      rw [pollsByStep_snoc, hpolls]
      rfl
  | @pollOuter o todo st hpc =>
      simp only [Progress, hpc] at hs
      obtain ⟨done, hdone, hpolls⟩ := hs
      exact ⟨done ++ [o], by simp [hdone], pollsByStep_poll hpolls⟩
  | keylist pairs hpc =>
      simp only [Progress, hpc] at hs
      obtain ⟨done, hdone, hpolls⟩ := hs
      rw [List.append_nil] at hdone
      subst hdone
      exact (pollsByStep_snoc b _).trans hpolls
  | write hpc =>
      simp only [Progress, hpc] at hs
      exact (pollsByStep_snoc b _).trans hs
  | cycleDone hpc =>
      simp only [Progress, hpc] at hs
      have hpolls : pollsByStep (b ++ [.cycleDone]) = sc.fullCycle n ins outs :=
        (pollsByStep_snoc b _).trans hs
      cases single <;> exact ⟨hpolls, by simp⟩
  | consumeOuter hpc | deleteObjs hpc | execCfg _ _ _ hpc | noteReread hpc | reinstall hpc
    | clearFlag hpc =>
      simp only [Progress, hpc] at hs
      exact ⟨(pollsByStep_snoc b _).trans hs.1, List.mem_append_left _ hs.2⟩
  | testFlag hpc =>
      simp only [Progress, hpc] at hs
      have hpolls := (pollsByStep_snoc b .testFlag).trans hs.1
      have hmem : .cycleDone ∈ b ++ [.testFlag] := List.mem_append_left _ hs.2
      by_cases hflag : s.flag = 1
      · rw [if_pos hflag]
        exact ⟨hpolls, hmem⟩
      · rw [if_neg hflag]
        exact ⟨hpolls, hmem⟩
  | finish | sigint | dieInner | dieOuter => exact trivial
  | tick | timerExit | sigusr2 => exact hs.snoc_other (pollsByStep_snoc b _)

theorem CurrentCycle.snoc {tr b : List (Event Obj)} {n : Int} {ins outs : List Obj}
    {e : Event Obj} (h : CurrentCycle tr n ins outs b) (he : ¬ e.IsCycle) :
    CurrentCycle (tr ++ [e]) n ins outs (b ++ [e]) := by
  obtain ⟨pre, rfl, hb⟩ := h
  refine ⟨pre, by simp, ?_⟩
  intro f hf
  rcases List.mem_append.mp hf with hf | hf
  · exact hb f hf
  · rw [List.mem_singleton.mp hf]
    exact he

/-- The places before the first cycle. -/
def Pc.Startup : Pc Obj → Prop
  | .installUsr2 | .installInt | .initFlag | .head | .exited => True
  | _ => False

theorem Step.startup {sc : Script} {single : Bool} {s t : Collector Obj} {e : Event Obj}
    (h : Step sc single s e t) (hpc : s.pc.Startup) (he : ¬ e.IsCycle) : t.pc.Startup := by
  cases h with
  | cycle => exact absurd trivial he
  | tick | sigusr2 | timerExit => exact hpc
  | _ => simp_all [Pc.Startup]

/-- Either no cycle has begun, or the current one is in progress. -/
def InCycle (sc : Script) (tr : List (Event Obj)) (s : Collector Obj) : Prop :=
  (s.pc.Startup ∧ ∀ e ∈ tr, ¬ e.IsCycle) ∨
  ∃ n ins outs b, CurrentCycle tr n ins outs b ∧ Progress sc n ins outs b s

theorem inCycle_step {sc : Script} {single : Bool} {tr : List (Event Obj)}
    {s t : Collector Obj} {e : Event Obj} (hopen : s.pc.Looping → s.timer = true)
    (hs : InCycle sc tr s) (h : Step sc single s e t) : InCycle sc (tr ++ [e]) t := by
  by_cases he : e.IsCycle
  · cases h with
    | cycle => exact Or.inr ⟨_, _, _, [], ⟨tr, rfl, by simp⟩, progress_cycle⟩
    | _ => exact he.elim
  · rcases hs with ⟨hpc, htr⟩ | ⟨n, ins, outs, b, hcur, hprog⟩
    · refine Or.inl ⟨?_, ?_⟩
      · exact h.startup hpc he
      · intro f hf
        rcases List.mem_append.mp hf with hf | hf
        · exact htr f hf
        · rw [List.mem_singleton.mp hf]
          exact he
    · exact Or.inr ⟨n, ins, outs, b ++ [e], hcur.snoc he, progress_step hopen hprog h he⟩

/-- The current cycle is determined by the events. -/
theorem InCycle.progress {sc : Script} {tr b : List (Event Obj)} {s : Collector Obj} {n : Int}
    {ins outs : List Obj} (h : InCycle sc tr s) (hcur : CurrentCycle tr n ins outs b) :
    Progress sc n ins outs b s := by
  obtain ⟨pre, htr, hb⟩ := hcur
  rcases h with ⟨-, hnone⟩ | ⟨n', ins', outs', b', ⟨pre', htr', hb'⟩, hprog⟩
  · exact absurd trivial (hnone (.cycle n ins outs) (by simp [htr]))
  · obtain ⟨-, hcycle, rfl⟩ := last_unique (htr'.symm.trans htr) (p := Event.IsCycle)
      trivial trivial hb' hb
    cases hcycle
    exact hprog

/-- Once the loop is entered there is a current cycle. -/
theorem InCycle.current {sc : Script} {tr : List (Event Obj)} {s : Collector Obj}
    (h : InCycle sc tr s) (hpc : ¬ s.pc.Startup) :
    ∃ n ins outs b, CurrentCycle tr n ins outs b ∧ Progress sc n ins outs b s := by
  rcases h with ⟨hstart, -⟩ | hcur
  · exact absurd hstart hpc
  · exact hcur

/-! ## What is written -/

theorem mem_foldl_store {p : Text × Text} (st : List (Text × Text)) :
    ∀ data : List (Text × Text), p ∈ st.foldl store data → p ∈ st ∨ p ∈ data := by
  induction st with
  | nil => exact fun data hp => Or.inr hp
  | cons q st ih =>
      intro data hp
      rcases ih _ hp with hp | hp
      · exact Or.inl (List.mem_cons_of_mem q hp)
      · unfold store at hp
        rcases List.mem_append.mp hp with hp | hp
        · exact Or.inr (List.mem_of_mem_filter hp)
        · rw [List.mem_singleton.mp hp]
          exact Or.inl List.mem_cons_self

/-- The current step has this timestamp. -/
def StampedNow (tr : List (Event Obj)) (tstamp : Int) : Prop :=
  Since (· = .start tstamp) (fun e => e.isStart = true) tr

/-- A line of the current step: its timestamp, and pairs that its polls have
stored. -/
def LineNow (tr : List (Event Obj)) (line : Text) : Prop :=
  ∃ (s : Settings) (tstamp : Int) (items : List (Text × Text)),
    StampedNow tr tstamp ∧ items ≠ [] ∧ line = lineText s tstamp items ∧
    ∀ p ∈ items, StoredNow tr p

theorem StoredNow.snoc {tr : List (Event Obj)} {p : Text × Text} {e : Event Obj}
    (h : StoredNow tr p) (he : ¬ e.isStart = true) : StoredNow (tr ++ [e]) p :=
  since_snoc_iff.mpr (Or.inr ⟨he, h⟩)

theorem StampedNow.snoc {tr : List (Event Obj)} {tstamp : Int} {e : Event Obj}
    (h : StampedNow tr tstamp) (he : ¬ e.isStart = true) : StampedNow (tr ++ [e]) tstamp :=
  since_snoc_iff.mpr (Or.inr ⟨he, h⟩)

theorem LineNow.snoc {tr : List (Event Obj)} {line : Text} {e : Event Obj}
    (h : LineNow tr line) (he : ¬ e.isStart = true) : LineNow (tr ++ [e]) line := by
  obtain ⟨s, tstamp, items, hstamp, hne, hline, hitems⟩ := h
  exact ⟨s, tstamp, items, hstamp.snoc he, hne, hline, fun p hp => (hitems p hp).snoc he⟩

/-- **`%data` and the lines made from it belong to the current step.** -/
structure StepData (tr : List (Event Obj)) (s : Collector Obj) : Prop where
  tstamp : s.pc.Busy → StampedNow tr s.tstamp
  data : ∀ p ∈ s.data, p.1 = "tstamp".toList ∨ StoredNow tr p
  lines : ∀ todo, s.pc = .writing todo → ∀ line ∈ todo, LineNow tr line

/-- What a step does to `$tstamp` and `%data`. -/
theorem Step.data_cases {sc : Script} {single : Bool} {s t : Collector Obj} {e : Event Obj}
    (h : Step sc single s e t) :
    (e = .start t.tstamp ∧ t.data = freshData t.tstamp) ∨
    (¬ e.isStart = true ∧ t.tstamp = s.tstamp ∧ (t.pc.Busy → s.pc.Busy) ∧
      ((∃ o st, e = .poll o st ∧ t.data = st.foldl store s.data) ∨ t.data = s.data)) := by
  cases h with
  | startInner | startOuter => exact Or.inl ⟨rfl, rfl⟩
  | pollInner st hpc | pollOuter st hpc =>
      exact Or.inr ⟨by simp [Event.isStart], rfl, by simp [hpc, Pc.Busy],
        Or.inl ⟨_, st, rfl, rfl⟩⟩
  | tick | sigusr2 | timerExit =>
      exact Or.inr ⟨by simp [Event.isStart], rfl, id, Or.inr rfl⟩
  | cycleDone hpc => exact Or.inr ⟨by simp [Event.isStart], rfl, by simp [hpc, Pc.Busy], Or.inr rfl⟩
  | testFlag hpc =>
      refine Or.inr ⟨by simp [Event.isStart], rfl, ?_, Or.inr rfl⟩
      dsimp only
      split <;> exact False.elim
  | _ => simp_all [Event.isStart, Pc.Busy]

/-- Where the lines to be written come from. -/
theorem Step.lines_cases {sc : Script} {single : Bool} {s t : Collector Obj} {e : Event Obj}
    (h : Step sc single s e t) {todo : List Text} (ht : t.pc = .writing todo) :
    ¬ e.isStart = true ∧ ((∃ line, s.pc = .writing (line :: todo)) ∨ s.pc = .writing todo ∨
      (s.pc = .pollOuter [] ∧ ∃ pairs, IsKeylist s.settings s.data pairs ∧
        todo = formatRound s.settings s.tstamp pairs)) := by
  cases h with
  | write hpc => simp_all [Event.isStart]
  | keylist pairs hpc hkeys =>
      refine ⟨by simp [Event.isStart], Or.inr (Or.inr ⟨hpc, pairs, hkeys, ?_⟩)⟩
      exact (Pc.writing.inj ht).symm
  | tick | sigusr2 | timerExit => exact ⟨by simp [Event.isStart], Or.inr (Or.inl ht)⟩
  | cycleDone | testFlag =>
      dsimp only at ht
      split at ht <;> simp at ht
  | _ => simp at ht

theorem stepData_step {sc : Script} {single : Bool} {tr : List (Event Obj)}
    {s t : Collector Obj} {e : Event Obj} (hs : StepData tr s) (h : Step sc single s e t) :
    StepData (tr ++ [e]) t := by
  refine ⟨?_, ?_, ?_⟩
  · intro hbusy
    rcases h.data_cases with ⟨he, -⟩ | ⟨he, htstamp, hpc, -⟩
    · exact since_snoc_iff.mpr (Or.inl he)
    · rw [htstamp]
      exact (hs.tstamp (hpc hbusy)).snoc he
  · intro p hp
    rcases h.data_cases with ⟨he, hdata⟩ | ⟨he, -, -, ⟨o, st, rfl, hdata⟩ | hdata⟩
    · rw [hdata, freshData, List.mem_singleton] at hp
      exact Or.inl (congrArg Prod.fst hp)
    · rw [hdata] at hp
      rcases mem_foldl_store st s.data hp with hp | hp
      · exact Or.inr (since_snoc_iff.mpr (Or.inl hp))
      · exact (hs.data p hp).imp_right fun hnow => hnow.snoc he
    · rw [hdata] at hp
      exact (hs.data p hp).imp_right fun hnow => hnow.snoc he
  · intro todo ht line hline
    obtain ⟨he, ⟨first, hpc⟩ | hpc | ⟨hpc, pairs, ⟨hperm, -⟩, rfl⟩⟩ := h.lines_cases ht
    · exact (hs.lines _ hpc line (List.mem_cons_of_mem _ hline)).snoc he
    · exact (hs.lines _ hpc line hline).snoc he
    · obtain ⟨chunks, hchunks, hflat, hne⟩ := formatRound_chunks s.settings s.tstamp pairs
      rw [hchunks] at hline
      obtain ⟨items, hitems, rfl⟩ := List.mem_map.mp hline
      have hnow : LineNow tr (lineText s.settings s.tstamp items) := by
        refine ⟨s.settings, s.tstamp, items, hs.tstamp (by rw [hpc]; trivial), hne items hitems,
          rfl, ?_⟩
        intro p hp
        have hp : p ∈ chunks.flatten := List.mem_flatten.mpr ⟨items, hitems, hp⟩
        rw [hflat, List.mem_filter] at hp
        exact (hs.data p (hperm.mem_iff.mp hp.1)).resolve_left (of_decide_eq_true hp.2)
      exact hnow.snoc he

/-! ## Between two cycles -/

/-- The places between the execution of the file and the next cycle. -/
def Pc.Between : Pc Obj → Prop
  | .noteReread | .reinstall | .clearFlag | .head | .exited => True
  | _ => False

/-- The file has been executed and no cycle has begun since. -/
def RereadNow (tr : List (Event Obj)) : Prop := Since Event.IsExec Event.IsCycle tr

theorem between_step {sc : Script} {single : Bool} {tr : List (Event Obj)}
    {s t : Collector Obj} {e : Event Obj} (hs : RereadNow tr → s.pc.Between)
    (h : Step sc single s e t) : RereadNow (tr ++ [e]) → t.pc.Between := by
  intro hnow
  rcases since_snoc_iff.mp hnow with hexec | ⟨hcycle, hnow⟩
  · cases h with
    | execCfg => trivial
    | _ => exact hexec.elim
  · have hpc := hs hnow
    cases h <;> simp_all [Pc.Between, Event.IsCycle]

theorem Step.not_isWork {sc : Script} {single : Bool} {s t : Collector Obj} {e : Event Obj}
    (h : Step sc single s e t) (hpc : s.pc.Between) : ¬ e.IsWork := by
  cases h <;> simp_all [Pc.Between, Event.IsWork]

/-! ## Whole runs -/

/-- All that holds after a run in which the timer kept the pipe open. -/
structure RunInv (sc : Script) (tr : List (Event Obj)) (s : Collector Obj) : Prop where
  timer : s.pc.Looping → s.timer = true
  tally : Tally tr s
  cycle : InCycle sc tr s
  data : StepData tr s
  between : RereadNow tr → s.pc.Between

theorem runInv_boot (sc : Script) (st : Settings) (ins outs : List Obj) :
    RunInv sc [] (boot sc st ins outs) where
  timer := fun _ => rfl
  tally := ⟨rfl, fun _ => rfl⟩
  cycle := Or.inl ⟨trivial, by simp⟩
  data := ⟨False.elim, by simp [boot], by simp [boot]⟩
  between := fun h => absurd h (not_since_nil _ _)

theorem runInv_step {sc : Script} {single : Bool} {tr : List (Event Obj)} {s t : Collector Obj}
    {e : Event Obj} (hs : RunInv sc tr s) (h : Step sc single s e t) (he : e ≠ .timerExit) :
    RunInv sc (tr ++ [e]) t where
  timer := h.timer_open he hs.timer
  tally := tally_step hs.timer hs.tally h
  cycle := inCycle_step hs.timer hs.cycle h
  data := stepData_step hs.data h
  between := between_step hs.between h

theorem runInv_run {sc : Script} {single : Bool} {st : Settings} {ins outs : List Obj}
    {tr : List (Event Obj)} {s : Collector Obj}
    (run : Run (Step sc single) (boot sc st ins outs) tr s) (hopen : .timerExit ∉ tr) :
    RunInv sc tr s := by
  refine run.inv (P := fun tr s => .timerExit ∉ tr → RunInv sc tr s)
    (fun _ => runInv_boot sc st ins outs) ?_ hopen
  intro tr t e u _ ih hstep hopen
  rw [List.mem_append, not_or, List.mem_singleton] at hopen
  exact runInv_step (ih hopen.1) hstep (Ne.symm hopen.2)

/-- **The two-level schedule**, as it shows in the events of a run. -/
structure Schedule [DecidableEq Obj] (sc : Script) (tr : List (Event Obj)) (s : Collector Obj) :
    Prop where
  /-- A tick is consumed only after it was written, -/
  consumed_le : consumed tr ≤ written tr
  /-- and the steps are one ahead of the ticks. -/
  one_ahead : s.pc.Busy → started tr = consumed tr + 1
  /-- When a cycle is done, and when the next one begins, every inner object has
  been polled in each of its steps and every outer object in the last one. -/
  polled : ∀ pre e post n ins outs b, tr = pre ++ e :: post → e = .cycleDone ∨ e.IsCycle →
    CurrentCycle pre n ins outs b →
    pollsByStep b = List.replicate (sc.rounds n - 1) ins ++ [ins ++ outs] ∧
    ∀ o, (polls b).count o = sc.rounds n * ins.count o + outs.count o
  /-- Lines are written in that last step, before its tick is consumed, from what
  its polls have stored. -/
  lines : ∀ pre line post, tr = pre ++ .write line :: post →
    LineNow pre line ∧ started pre = consumed pre + 1 ∧
    ∃ n ins outs b, CurrentCycle pre n ins outs b ∧
      pollsByStep b = List.replicate (sc.rounds n - 1) ins ++ [ins ++ outs]
  /-- The file is executed when a cycle is done, -/
  reread_after : ∀ pre e post, tr = pre ++ e :: post → e.IsExec →
    ∃ n ins outs b, CurrentCycle pre n ins outs b ∧ .cycleDone ∈ b ∧
      pollsByStep b = List.replicate (sc.rounds n - 1) ins ++ [ins ++ outs]
  /-- and nothing is done for a cycle until the next one begins. -/
  reread_before : ∀ pre e post, tr = pre ++ e :: post → RereadNow pre → ¬ e.IsWork

/-- The polls of a completed cycle, counted. -/
theorem count_polls [DecidableEq Obj] {sc : Script} {n : Int} {ins outs : List Obj}
    {b : List (Event Obj)} (h : pollsByStep b = sc.fullCycle n ins outs) (o : Obj) :
    (polls b).count o = sc.rounds n * ins.count o + outs.count o := by
  obtain ⟨k, hk⟩ := Nat.exists_eq_add_of_lt (sc.rounds_pos n)
  rw [Nat.zero_add] at hk
  rw [← flatten_pollsByStep, h, Script.fullCycle, hk, Nat.add_sub_cancel, Nat.succ_mul]
  simp [List.count_flatten, Nat.add_assoc]

/-- A cycle is done, or followed by another, only when its polls are complete. -/
theorem RunInv.full_of_closing {sc : Script} {single : Bool} {tr b : List (Event Obj)}
    {s t : Collector Obj} {e : Event Obj} {n : Int} {ins outs : List Obj} (hs : RunInv sc tr s)
    (h : Step sc single s e t) (he : e = .cycleDone ∨ e.IsCycle)
    (hcur : CurrentCycle tr n ins outs b) : pollsByStep b = sc.fullCycle n ins outs := by
  have hprog := hs.cycle.progress hcur
  unfold Progress at hprog
  rcases he with rfl | he
  · cases h with
    | cycleDone hpc => rwa [hpc] at hprog
  · cases h with
    | cycle hpc =>
        rw [hpc] at hprog
        exact hprog.1
    | _ => exact he.elim

/-- A line is written in the last step of a cycle. -/
theorem RunInv.full_of_write {sc : Script} {single : Bool} {tr : List (Event Obj)}
    {s t : Collector Obj} {line : Text} (hs : RunInv sc tr s)
    (h : Step sc single s (.write line) t) :
    LineNow tr line ∧ started tr = consumed tr + 1 ∧
    ∃ n ins outs b, CurrentCycle tr n ins outs b ∧ pollsByStep b = sc.fullCycle n ins outs := by
  cases h with
  | write hpc =>
      have hbusy : s.pc.Busy := by rw [hpc]; trivial
      refine ⟨hs.data.lines _ hpc line List.mem_cons_self, hs.tally.one_ahead hbusy, ?_⟩
      obtain ⟨n, ins, outs, b, hcur, hprog⟩ := hs.cycle.current (by rw [hpc]; exact id)
      unfold Progress at hprog
      rw [hpc] at hprog
      exact ⟨n, ins, outs, b, hcur, hprog⟩

/-- The file is executed when a cycle is done. -/
theorem RunInv.full_of_exec {sc : Script} {single : Bool} {tr : List (Event Obj)}
    {s t : Collector Obj} {e : Event Obj} (hs : RunInv sc tr s) (h : Step sc single s e t)
    (he : e.IsExec) :
    ∃ n ins outs b, CurrentCycle tr n ins outs b ∧ .cycleDone ∈ b ∧
      pollsByStep b = sc.fullCycle n ins outs := by
  cases h with
  | execCfg _ _ _ hpc =>
      obtain ⟨n, ins, outs, b, hcur, hprog⟩ := hs.cycle.current (by rw [hpc]; exact id)
      unfold Progress at hprog
      rw [hpc] at hprog
      exact ⟨n, ins, outs, b, hcur, hprog.2, hprog.1⟩
  | _ => exact he.elim

/-- **Every run keeps the schedule** while the timer keeps the pipe open. -/
theorem collector_schedule [DecidableEq Obj] (sc : Script) (single : Bool) (st : Settings)
    (ins outs : List Obj) {tr : List (Event Obj)} {s : Collector Obj}
    (run : Run (Step sc single) (boot sc st ins outs) tr s) (hopen : .timerExit ∉ tr) :
    Schedule sc tr s := by
  have hinv := runInv_run run hopen
  -- every event was enabled in a state that keeps the invariant
  have hat : ∀ pre e post, tr = pre ++ e :: post →
      ∃ m m', RunInv sc pre m ∧ Step sc single m e m' := by
    intro pre e post htr
    subst htr
    obtain ⟨m, m', hpre, hstep⟩ := run.at_label
    exact ⟨m, m', runInv_run hpre (fun hmem => hopen (by simp [hmem])), hstep⟩
  refine ⟨?_, hinv.tally.one_ahead, ?_, ?_, ?_, ?_⟩
  · have hpipe := hinv.tally.pipe
    omega
  · intro pre e post n ins outs b htr he hcur
    obtain ⟨m, m', hm, hstep⟩ := hat pre e post htr
    have hpolls := hm.full_of_closing hstep he hcur
    exact ⟨hpolls, count_polls hpolls⟩
  · intro pre line post htr
    obtain ⟨m, m', hm, hstep⟩ := hat pre _ post htr
    exact hm.full_of_write hstep
  · intro pre e post htr he
    obtain ⟨m, m', hm, hstep⟩ := hat pre e post htr
    exact hm.full_of_exec hstep he
  · intro pre e post htr hnow
    obtain ⟨m, m', hm, hstep⟩ := hat pre e post htr
    exact hstep.not_isWork (hm.between hnow)

/-- `duologger -i 2` with an object in each list. -/
def twoLevels : Collector Nat :=
  boot .duologger (start .duologger ⟨false, false, some 2⟩ fun _ => none) [0] [1]

/-- A cycle of two steps, up to the wait at its end. -/
theorem twoLevels_schedule :
    ∃ (tr : List (Event Nat)) (s : Collector Nat), Run (Step .duologger false) twoLevels tr s ∧
      .timerExit ∉ tr ∧ .cycleDone ∈ tr ∧ Schedule .duologger tr s := by
  have inner : Run (Step .duologger false) twoLevels
      [.installUsr2, .installInt, .initFlag, .cycle 2 [0] [1], .start 0, .poll 0 [], .polled,
        .tick, .consume]
      { twoLevels with pc := .inner, usr2 := true, int := true, itr := 2, data := freshData 0 } :=
    (((((((((Run.nil _).snoc (.installUsr2 rfl)).snoc (.installInt rfl)).snoc
      (.initFlag rfl)).snoc (.cycle rfl)).snoc (.startInner 0 rfl (by decide))).snoc
      (.pollInner [] rfl)).snoc (.polled rfl)).snoc (.tick rfl)).snoc
      (.consumeInner rfl (by decide))
  have outer : Run (Step .duologger false) twoLevels
      [.installUsr2, .installInt, .initFlag, .cycle 2 [0] [1], .start 0, .poll 0 [], .polled,
        .tick, .consume, .leaveFor, .start 30, .poll 0 [], .poll 1 [("load".toList, "1".toList)],
        .keylist [("tstamp".toList, "30".toList), ("load".toList, "1".toList)],
        .write "xid=30 load=1 ".toList, .cycleDone]
      { twoLevels with
        pc := .waitOuter, usr2 := true, int := true, itr := 2, tstamp := 30,
        data := [("tstamp".toList, "30".toList), ("load".toList, "1".toList)] } :=
    ((((((inner.snoc (.leaveFor rfl (by decide))).snoc (.startOuter 30 rfl)).snoc
      (.pollOuter [] rfl)).snoc (.pollOuter [("load".toList, "1".toList)] rfl)).snoc
      (.keylist _ rfl ⟨.refl _, fun h => absurd rfl h⟩)).snoc (.write rfl)).snoc (.cycleDone rfl)
  refine ⟨_, _, outer, by simp, by simp, ?_⟩
  exact collector_schedule _ _ _ _ _ outer (by simp)

end Memrec
