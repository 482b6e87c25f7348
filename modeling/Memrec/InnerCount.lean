import Memrec.NetinfoWindow
import Memrec.Schedule

/-!
# Two counts of the inner steps

`netinfo10` divides what it has summed up by `$in2out`, which its constructor copies from
`$inner2outer`.  The main loop of `duologger` polls an object of `@objs_in` in each of
`max(1, $inner2outer)` steps of a cycle.  So the average is one over the cycle only if
nothing assigns `$inner2outer` after the object was created.

Three assignments are in play: the configuration file creates the object, it may assign
the variable again, and at the start `-i` comes after the file.  A reload executes the
file without `-i`.  `polls_eq_in2out_iff` follows them through every run.
-/

namespace Memrec

open Perl Runs

/-! ## The configuration file -/

/-- The objects that a configuration file creates. -/
inductive Sensor
  | netinfo10 (id : Nat)
  | other (id : Nat)
  deriving DecidableEq, Repr

/-- The statements that matter here: `$inner2outer = w`, and `push` of a new object. -/
inductive CfgStmt
  | inner2outer (w : Int)
  | pushIn (o : Sensor)
  | pushOut (o : Sensor)
  deriving DecidableEq, Repr

/-- What the statements act on. -/
structure CfgState where
  inner2outer : Int
  vars : Netinfo10.Vars
  objsIn : List Sensor
  objsOut : List Sensor

section Execution

variable (lspci dev : Text)

/-- The constructors; the one of `netinfo10` reads two texts and sets `$in2out`. -/
def CfgState.create (st : CfgState) : Sensor → CfgState
  | .netinfo10 _ => { st with vars := (Netinfo10.new st.vars st.inner2outer lspci dev).1 }
  | .other _ => st

def CfgStmt.exec (st : CfgState) : CfgStmt → CfgState
  | .inner2outer w => { st with inner2outer := w }
  | .pushIn o => { st.create lspci dev o with objsIn := st.objsIn ++ [o] }
  | .pushOut o => { st.create lspci dev o with objsOut := st.objsOut ++ [o] }

def execStmts (st : CfgState) (stmts : List CfgStmt) : CfgState :=
  stmts.foldl (CfgStmt.exec lspci dev) st

end Execution

def CfgStmt.assigned : CfgStmt → Option Int
  | .inner2outer w => some w
  | _ => none

def CfgStmt.pushedIn : CfgStmt → Option Sensor
  | .pushIn o => some o
  | _ => none

def CfgStmt.pushedOut : CfgStmt → Option Sensor
  | .pushOut o => some o
  | _ => none

/-- The statement creates a `netinfo10` object. -/
def CfgStmt.CreatesNetinfo10 (stmt : CfgStmt) : Prop :=
  ∃ id, stmt = .pushIn (.netinfo10 id) ∨ stmt = .pushOut (.netinfo10 id)

/-- The number that statements assign to `$inner2outer` last. -/
def lastAssigned (stmts : List CfgStmt) : Option Int :=
  (stmts.filterMap CfgStmt.assigned).getLast?

/-- A configuration file that assigns `$inner2outer` and then creates a `netinfo10` object
for the inner loop, the last of them if there are several. -/
structure CountingFile where
  before : List CfgStmt
  id : Nat
  after : List CfgStmt
  w : Int
  assigns : lastAssigned before = some w
  last : ∀ stmt ∈ after, ¬ stmt.CreatesNetinfo10
  fresh : .pushIn (.netinfo10 id) ∉ before ∧ .pushOut (.netinfo10 id) ∉ before

namespace CountingFile

variable (F : CountingFile)

def sensor : Sensor := .netinfo10 F.id

def stmts : List CfgStmt := F.before ++ .pushIn F.sensor :: F.after

/-- The number in force after the file. -/
def final : Int := (lastAssigned F.after).getD F.w

def ins : List Sensor := F.stmts.filterMap CfgStmt.pushedIn

def outs : List Sensor := F.stmts.filterMap CfgStmt.pushedOut

/-- What the file assigns, with `rest` for the other variables. -/
def cfg (rest : Cfg) : Cfg := fun x => if x = .inner2outer then lastAssigned F.stmts else rest x

/-- Executing the file over what is in force, with the lists of objects empty. -/
def load (lspci dev : Text) (n : Int) (vars : Netinfo10.Vars) : CfgState :=
  execStmts lspci dev ⟨n, vars, [], []⟩ F.stmts

end CountingFile

/-! ## What a file leaves behind -/

section Loading

variable (lspci dev : Text)

theorem lastAssigned_append (xs ys : List CfgStmt) :
    lastAssigned (xs ++ ys) = (lastAssigned ys).or (lastAssigned xs) := by
  rw [lastAssigned, List.filterMap_append, List.getLast?_append]
  rfl

theorem exec_inner2outer (st : CfgState) (stmt : CfgStmt) :
    (stmt.exec lspci dev st).inner2outer = stmt.assigned.getD st.inner2outer := by
  cases stmt with
  | inner2outer w => rfl
  | pushIn o | pushOut o => cases o <;> rfl

theorem exec_objsIn (st : CfgState) (stmt : CfgStmt) :
    (stmt.exec lspci dev st).objsIn = st.objsIn ++ stmt.pushedIn.toList := by
  cases stmt with
  | inner2outer w => simp [CfgStmt.exec, CfgStmt.pushedIn]
  | pushIn o => rfl
  | pushOut o => cases o <;> simp [CfgStmt.exec, CfgStmt.pushedIn, CfgState.create]

theorem exec_objsOut (st : CfgState) (stmt : CfgStmt) :
    (stmt.exec lspci dev st).objsOut = st.objsOut ++ stmt.pushedOut.toList := by
  cases stmt with
  | inner2outer w => simp [CfgStmt.exec, CfgStmt.pushedOut]
  | pushIn o => cases o <;> simp [CfgStmt.exec, CfgStmt.pushedOut, CfgState.create]
  | pushOut o => rfl

theorem exec_vars {st : CfgState} {stmt : CfgStmt} (h : ¬ stmt.CreatesNetinfo10) :
    (stmt.exec lspci dev st).vars = st.vars := by
  cases stmt with
  | inner2outer w => rfl
  | pushIn o =>
      cases o with
      | netinfo10 id => exact absurd ⟨id, Or.inl rfl⟩ h
      | other id => rfl
  | pushOut o =>
      cases o with
      | netinfo10 id => exact absurd ⟨id, Or.inr rfl⟩ h
      | other id => rfl

/-- The number in force and the lists of objects after some statements. -/
theorem execStmts_eq (st : CfgState) (stmts : List CfgStmt) :
    (execStmts lspci dev st stmts).inner2outer = (lastAssigned stmts).getD st.inner2outer ∧
    (execStmts lspci dev st stmts).objsIn = st.objsIn ++ stmts.filterMap CfgStmt.pushedIn ∧
    (execStmts lspci dev st stmts).objsOut = st.objsOut ++ stmts.filterMap CfgStmt.pushedOut := by
  induction stmts generalizing st with
  | nil => simp [execStmts, lastAssigned]
  | cons stmt stmts ih =>
      obtain ⟨hn, hin, hout⟩ := ih (stmt.exec lspci dev st)
      have hcons : execStmts lspci dev st (stmt :: stmts) =
          execStmts lspci dev (stmt.exec lspci dev st) stmts := rfl
      rw [hcons, hn, hin, hout, exec_inner2outer, exec_objsIn, exec_objsOut]
      refine ⟨?_, ?_, ?_⟩
      · rw [← List.singleton_append, lastAssigned_append]
        have hone : lastAssigned [stmt] = stmt.assigned := by
          cases stmt <;> rfl
        rw [hone]
        cases lastAssigned stmts <;> rfl
      · cases h : stmt.pushedIn <;> simp [h]
      · cases h : stmt.pushedOut <;> simp [h]

theorem execStmts_vars {st : CfgState} {stmts : List CfgStmt}
    (h : ∀ stmt ∈ stmts, ¬ stmt.CreatesNetinfo10) :
    (execStmts lspci dev st stmts).vars = st.vars := by
  induction stmts generalizing st with
  | nil => rfl
  | cons stmt stmts ih =>
      have hrest : (execStmts lspci dev (stmt.exec lspci dev st) stmts).vars =
          (stmt.exec lspci dev st).vars := ih fun x hx => h x (by simp [hx])
      exact hrest.trans (exec_vars lspci dev (h stmt (by simp)))

namespace CountingFile

variable (F : CountingFile) (n : Int) (vars : Netinfo10.Vars)

theorem lastAssigned_stmts : lastAssigned F.stmts = some F.final := by
  have hpush : lastAssigned (.pushIn F.sensor :: F.after) = lastAssigned F.after := rfl
  rw [stmts, lastAssigned_append, hpush, F.assigns, final]
  cases lastAssigned F.after <;> rfl

/-- The constructor sees the number assigned last before it. -/
theorem load_in2out : (F.load lspci dev n vars).vars.in2out = F.w := by
  have hsplit : F.load lspci dev n vars =
      execStmts lspci dev ((CfgStmt.pushIn F.sensor).exec lspci dev
        (execStmts lspci dev ⟨n, vars, [], []⟩ F.before)) F.after := by
    rw [load, stmts, execStmts, List.foldl_append]
    rfl
  rw [hsplit, execStmts_vars lspci dev F.last]
  have hn := (execStmts_eq lspci dev ⟨n, vars, [], []⟩ F.before).1
  rw [F.assigns] at hn
  exact hn

theorem load_objsIn : (F.load lspci dev n vars).objsIn = F.ins := by
  rw [load, (execStmts_eq lspci dev _ F.stmts).2.1]
  rfl

theorem load_objsOut : (F.load lspci dev n vars).objsOut = F.outs := by
  rw [load, (execStmts_eq lspci dev _ F.stmts).2.2]
  rfl

/-- The object is once among the inner ones, -/
theorem count_ins : F.ins.count F.sensor = 1 := by
  have hbefore : F.sensor ∉ F.before.filterMap CfgStmt.pushedIn := by
    intro h
    obtain ⟨stmt, hstmt, hpush⟩ := List.mem_filterMap.mp h
    cases stmt with
    | pushIn o =>
        obtain rfl : o = F.sensor := Option.some.inj hpush
        exact F.fresh.1 hstmt
    | inner2outer w | pushOut o => cases hpush
  have hafter : F.sensor ∉ F.after.filterMap CfgStmt.pushedIn := by
    intro h
    obtain ⟨stmt, hstmt, hpush⟩ := List.mem_filterMap.mp h
    cases stmt with
    | pushIn o =>
        obtain rfl : o = F.sensor := Option.some.inj hpush
        exact F.last _ hstmt ⟨F.id, Or.inl rfl⟩
    | inner2outer w | pushOut o => cases hpush
  have hsplit : F.ins = F.before.filterMap CfgStmt.pushedIn ++
      F.sensor :: F.after.filterMap CfgStmt.pushedIn := by
    simp [ins, stmts, CfgStmt.pushedIn]
  rw [hsplit, List.count_append, List.count_cons_self, List.count_eq_zero.mpr hbefore,
    List.count_eq_zero.mpr hafter]

/-- and not among the outer ones. -/
theorem count_outs : F.outs.count F.sensor = 0 := by
  rw [List.count_eq_zero]
  intro h
  obtain ⟨stmt, hstmt, hpush⟩ := List.mem_filterMap.mp h
  cases stmt with
  | pushOut o =>
      obtain rfl : o = F.sensor := Option.some.inj hpush
      rcases List.mem_append.mp hstmt with hstmt | hstmt
      · exact F.fresh.2 hstmt
      · rcases List.mem_cons.mp hstmt with hstmt | hstmt
        · cases hstmt
        · exact F.last _ hstmt ⟨F.id, Or.inr rfl⟩
  | inner2outer w | pushIn o => cases hpush

end CountingFile

end Loading

/-! ## The objects of a cycle -/

/-- The places between the deletion of the objects and the next cycle. -/
def Pc.Reloading {Obj : Type} : Pc Obj → Prop
  | .doCfg | .noteReread | .reinstall | .clearFlag | .head | .exited => True
  | _ => False

/-- What a cycle began with stays in force until the objects are deleted. -/
def StaysInForce {Obj : Type} (tr : List (Event Obj)) (s : Collector Obj) : Prop :=
  ∀ n ins outs b, CurrentCycle tr n ins outs b → s.pc.Reloading ∨ InForce n ins outs s

section InForce

variable {Obj : Type} {sc : Script} {single : Bool} {tr : List (Event Obj)} {s t : Collector Obj}
  {e : Event Obj}

/-- What a step does to the settings and the objects. -/
theorem Step.objs_cases (h : Step sc single s e t) :
    e.IsCycle ∧ e = .cycle (t.settings .inner2outer) t.objsIn t.objsOut ∨
    ¬ e.IsCycle ∧ (t.pc.Reloading ∨
      ¬ s.pc.Reloading ∧ t.settings = s.settings ∧ t.objsIn = s.objsIn ∧
        t.objsOut = s.objsOut) := by
  cases h with
  | cycle => exact Or.inl ⟨trivial, rfl⟩
  | cycleDone hpc | testFlag hpc => simp [hpc, Pc.Reloading, Event.IsCycle]
  | tick | timerExit | sigusr2 => exact Or.inr ⟨id, (em _).imp_right fun h => ⟨h, rfl, rfl, rfl⟩⟩
  | _ => simp_all [Pc.Reloading, Event.IsCycle]

theorem Step.pc_of_cycleDone (h : Step sc single s .cycleDone t) : s.pc = .writing [] := by
  cases h with
  | cycleDone hpc => exact hpc

/-- The current cycle before one more event that begins none. -/
theorem CurrentCycle.of_snoc {n : Int} {ins outs : List Obj} {b : List (Event Obj)}
    (h : CurrentCycle (tr ++ [e]) n ins outs b) (he : ¬ e.IsCycle) :
    ∃ b', CurrentCycle tr n ins outs b' := by
  obtain ⟨pre, htr, hb⟩ := h
  obtain rfl | ⟨b, f, rfl⟩ := b.eq_nil_or_concat'
  · obtain ⟨-, hlast⟩ := List.append_inj' htr rfl
    obtain rfl : e = .cycle n ins outs := by simpa using hlast
    exact absurd trivial he
  · rw [← List.cons_append, ← List.append_assoc] at htr
    obtain ⟨rfl, -⟩ := List.append_inj' htr rfl
    exact ⟨b, pre, rfl, fun f hf => hb f (by simp [hf])⟩

theorem staysInForce_step (hs : StaysInForce tr s) (h : Step sc single s e t) :
    StaysInForce (tr ++ [e]) t := by
  intro n ins outs b hcur
  rcases h.objs_cases with ⟨hcycle, he⟩ | ⟨hcycle, hpc | ⟨hpc, hset, hin, hout⟩⟩
  · obtain ⟨pre, htr, hb⟩ := hcur
    obtain ⟨-, heq, -⟩ := last_unique (p := Event.IsCycle) htr hcycle trivial (by simp) hb
    rw [he] at heq
    obtain ⟨hn, hi, ho⟩ := Event.cycle.inj heq
    exact Or.inr ⟨hn, hi, ho⟩
  · exact Or.inl hpc
  · obtain ⟨b', hcur'⟩ := hcur.of_snoc hcycle
    obtain ⟨hn, hi, ho⟩ := (hs n ins outs b' hcur').resolve_left hpc
    exact Or.inr ⟨by rw [hset, hn], by rw [hin, hi], by rw [hout, ho]⟩

end InForce

/-! ## Runs -/

/-- What was loaded last: the file, `-i` if it was applied afterwards, and the package
variables of `netinfo10`. -/
structure Loaded where
  file : CountingFile
  i : Option Int
  vars : Netinfo10.Vars

/-- The number that the main loop uses. -/
def Loaded.inForce (L : Loaded) : Int := L.i.getD L.file.final

/-- A step of `duologger` together with what is loaded. -/
inductive LoadStep (single : Bool) :
    Collector Sensor × Loaded → Event Sensor → Collector Sensor × Loaded → Prop
  | other {s t : Collector Sensor} {e : Event Sensor} {L : Loaded} (he : ¬ e.IsExec)
      (h : Step .duologger single s e t) : LoadStep single (s, L) e (t, L)
  -- `do $cfgfile`, without a look at the command line
  | reread {s t : Collector Sensor} {e : Event Sensor} {L : Loaded} (F : CountingFile) (rest : Cfg)
      (lspci dev : Text)
      (he : e = .execCfg (F.cfg rest)
        (F.load lspci dev (s.settings .inner2outer) L.vars).objsIn
        (F.load lspci dev (s.settings .inner2outer) L.vars).objsOut)
      (h : Step .duologger single s e t) :
      LoadStep single (s, L) e
        (t, ⟨F, none, (F.load lspci dev (s.settings .inner2outer) L.vars).vars⟩)

/-- `duologger` when its main loop begins: the file was executed over the defaults, and the
command line over that. -/
def bootWith (F : CountingFile) (a : CmdLine) (rest : Cfg) (lspci dev : Text)
    (vars : Netinfo10.Vars) : Collector Sensor × Loaded :=
  let st := F.load lspci dev (Script.duologger.defaults .inner2outer) vars
  (boot .duologger (start .duologger a (F.cfg rest)) st.objsIn st.objsOut, ⟨F, a.i, st.vars⟩)

/-- What is in force is what was loaded. -/
structure LoadedInv (x : Collector Sensor × Loaded) : Prop where
  inner2outer : x.1.settings .inner2outer = x.2.inForce
  in2out : x.2.vars.in2out = x.2.file.w
  objs : x.1.pc = .doCfg ∨ x.1.pc = .exited ∨
    x.1.objsIn = x.2.file.ins ∧ x.1.objsOut = x.2.file.outs

theorem loadedInv_bootWith (F : CountingFile) (a : CmdLine) (rest : Cfg) (lspci dev : Text)
    (vars : Netinfo10.Vars) : LoadedInv (bootWith F a rest lspci dev vars) where
  inner2outer := by
    have hfile : F.cfg rest .inner2outer = some F.final := F.lastAssigned_stmts
    simp [bootWith, boot, start, CmdLine.overwrite, execCfg, hfile, Loaded.inForce]
  in2out := F.load_in2out lspci dev _ vars
  objs := Or.inr (Or.inr
    ⟨F.load_objsIn lspci dev _ vars, F.load_objsOut lspci dev _ vars⟩)

theorem loadedInv_step {single : Bool} {x y : Collector Sensor × Loaded} {e : Event Sensor}
    (hx : LoadedInv x) (h : LoadStep single x e y) : LoadedInv y := by
  cases h with
  | other he h =>
      obtain ⟨hn, hin, hobjs⟩ := hx
      cases h with
      | execCfg => exact absurd trivial he
      | deleteObjs => exact ⟨hn, hin, Or.inl rfl⟩
      | finish | sigint | dieInner | dieOuter => exact ⟨hn, hin, Or.inr (Or.inl rfl)⟩
      | tick | timerExit => exact ⟨hn, hin, hobjs⟩
      | _ => exact ⟨hn, hin, by simp_all⟩
  | reread F rest lspci dev he h =>
      subst he
      cases h with
      | execCfg _ _ _ hpc =>
          refine ⟨?_, F.load_in2out lspci dev _ _, Or.inr (Or.inr
            ⟨F.load_objsIn lspci dev _ _, F.load_objsOut lspci dev _ _⟩)⟩
          have hfile : F.cfg rest .inner2outer = some F.final := F.lastAssigned_stmts
          simp [rereadSettings, execCfg, hfile, Loaded.inForce]

/-- Forgetting what is loaded. -/
theorem LoadStep.step {single : Bool} {x y : Collector Sensor × Loaded} {e : Event Sensor}
    (h : LoadStep single x e y) : Step .duologger single x.1 e y.1 := by
  cases h with
  | other _ h => exact h
  | reread _ _ _ _ _ h => exact h

/-- What holds after every run. -/
theorem load_run {single : Bool} {F : CountingFile} {a : CmdLine} {rest : Cfg} {lspci dev : Text}
    {vars : Netinfo10.Vars} {tr : List (Event Sensor)} {x : Collector Sensor × Loaded}
    (run : Run (LoadStep single) (bootWith F a rest lspci dev vars) tr x) :
    Run (Step .duologger single) (bootWith F a rest lspci dev vars).1 tr x.1 ∧
      LoadedInv x ∧ StaysInForce tr x.1 := by
  refine run.inv (P := fun tr x => Run (Step .duologger single)
    (bootWith F a rest lspci dev vars).1 tr x.1 ∧ LoadedInv x ∧ StaysInForce tr x.1) ?_ ?_
  · refine ⟨.nil _, loadedInv_bootWith F a rest lspci dev vars, ?_⟩
    intro n ins outs b ⟨pre, htr, _⟩
    simp at htr
  · intro tr x e y _ ⟨hrun, hinv, hforce⟩ hstep
    exact ⟨hrun.snoc hstep.step, loadedInv_step hinv hstep, staysInForce_step hforce hstep.step⟩

/-- **The two counts.**  In every run in which the timer keeps the pipe open, whenever a
cycle is logged, the object has been polled `$in2out` times in it if and only if the
number assigned last before the object was created is at least one and, up to `max(1, _)`,
still in force: neither the rest of the file nor, after the start, `-i` has changed it. -/
theorem polls_eq_in2out_iff (single : Bool) (F : CountingFile) (a : CmdLine) (rest : Cfg)
    (lspci dev : Text) (vars : Netinfo10.Vars) {tr : List (Event Sensor)}
    {x y : Collector Sensor × Loaded}
    (run : Run (LoadStep single) (bootWith F a rest lspci dev vars) tr x)
    (hopen : .timerExit ∉ tr) (hdone : LoadStep single x .cycleDone y) :
    ∃ n ins outs b, CurrentCycle tr n ins outs b ∧
      (((polls b).count x.2.file.sensor : Int) = x.2.vars.in2out ↔
        x.2.file.w = max 1 (x.2.i.getD x.2.file.final)) := by
  obtain ⟨hrun, hinv, hforce⟩ := load_run run
  have hsched := runInv_run hrun hopen
  have hstep := hdone.step
  have hpc := hstep.pc_of_cycleDone
  obtain ⟨n, ins, outs, b, hcur, -⟩ := hsched.cycle.current (by rw [hpc]; exact id)
  refine ⟨n, ins, outs, b, hcur, ?_⟩
  obtain ⟨hn, hin, hout⟩ : InForce n ins outs x.1 :=
    (hforce n ins outs b hcur).resolve_left (by rw [hpc]; exact id)
  obtain ⟨hins, houts⟩ : x.1.objsIn = x.2.file.ins ∧ x.1.objsOut = x.2.file.outs := by
    simpa [hpc] using hinv.objs
  have hcount := count_polls (hsched.full_of_closing hstep (Or.inl rfl) hcur) x.2.file.sensor
  rw [← hin, ← hout, hins, houts, x.2.file.count_ins, x.2.file.count_outs, rounds_duologger,
    ← hn, hinv.inner2outer] at hcount
  rw [hcount, hinv.in2out, Loaded.inForce]
  omega

/-- The file `$inner2outer = w; push( @objs_in, netinfo10->new() );`. -/
def countsTo (w : Int) : CountingFile := ⟨[.inner2outer w], 0, [], w, rfl, by simp, by simp⟩

/-- `duologger` with this file, and with or without `-i`. -/
def countingFrom (w : Int) (i : Option Int) : Collector Sensor × Loaded :=
  bootWith (countsTo w) ⟨false, false, i⟩ (fun _ => none) [] [] ⟨0, false⟩

/-- The same at the end of its first cycle, if that has one step. -/
def atCycleEnd (w : Int) (i : Option Int) : Collector Sensor × Loaded :=
  ({ (countingFrom w i).1 with
      pc := .writing [], usr2 := true, int := true, itr := 1, data := freshData 0 },
    (countingFrom w i).2)

theorem step_atCycleEnd (w : Int) (i : Option Int) :
    LoadStep false (atCycleEnd w i) .cycleDone
      ({ (atCycleEnd w i).1 with pc := .waitOuter }, (atCycleEnd w i).2) :=
  .other id (.cycleDone rfl)

theorem run_oneStep (w : Int) (i : Option Int) (h : i.getD w ≤ 1) :
    Run (LoadStep false) (countingFrom w i)
      [.installUsr2, .installInt, .initFlag, .cycle (i.getD w) [.netinfo10 0] [], .leaveFor,
        .start 0, .poll (.netinfo10 0) [], .keylist (freshData 0)] (atCycleEnd w i) := by
  have hmore : ¬ Script.duologger.MoreInner (countingFrom w i).1.settings 1 := by
    change ¬ (1 : Int) < i.getD w
    omega
  exact (((((((((Run.nil _).snoc (.other id (.installUsr2 rfl))).snoc
    (.other id (.installInt rfl))).snoc (.other id (.initFlag rfl))).snoc
    (.other id (.cycle rfl))).snoc (.other id (.leaveFor rfl hmore))).snoc
    (.other id (.startOuter 0 rfl))).snoc (.other id (.pollOuter [] rfl))).snoc
    (.other id (.keylist _ rfl ⟨.refl _, by simp [freshData]⟩)))

/-- Without `-i` the counts of a file that assigns 1 are the same. -/
theorem polls_eq_in2out_one :
    ∃ (tr : List (Event Sensor)) (x y : Collector Sensor × Loaded) (n : Int)
      (ins outs : List Sensor) (b : List (Event Sensor)),
      Run (LoadStep false) (countingFrom 1 none) tr x ∧ .timerExit ∉ tr ∧
      LoadStep false x .cycleDone y ∧ CurrentCycle tr n ins outs b ∧
      ((polls b).count x.2.file.sensor : Int) = x.2.vars.in2out := by
  have run := run_oneStep 1 none (by decide)
  obtain ⟨n, ins, outs, b, hcur, hiff⟩ :=
    polls_eq_in2out_iff false (countsTo 1) _ _ _ _ _ run (by simp) (step_atCycleEnd 1 none)
  exact ⟨_, _, _, n, ins, outs, b, run, by simp, step_atCycleEnd 1 none, hcur, hiff.mpr rfl⟩

/-- With `-i 1` the object of a file that assigns 2 is polled once in a cycle and divides
by two. -/
theorem option_i_miscounts :
    ∃ (tr : List (Event Sensor)) (x y : Collector Sensor × Loaded) (n : Int)
      (ins outs : List Sensor) (b : List (Event Sensor)),
      Run (LoadStep false) (countingFrom 2 (some 1)) tr x ∧ .timerExit ∉ tr ∧
      LoadStep false x .cycleDone y ∧ CurrentCycle tr n ins outs b ∧
      (polls b).count x.2.file.sensor = 1 ∧ x.2.vars.in2out = 2 := by
  have run := run_oneStep 2 (some 1) (by decide)
  refine ⟨_, _, _, 1, [.netinfo10 0], [], [.leaveFor, .start 0, .poll (.netinfo10 0) [],
    .keylist (freshData 0)], run, by simp, step_atCycleEnd 2 (some 1), ?_, by decide, by decide⟩
  exact ⟨[.installUsr2, .installInt, .initFlag], rfl, by simp [Event.IsCycle]⟩

end Memrec
