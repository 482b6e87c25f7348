import Mathlib.Data.Fintype.Basic
import Mathlib.Data.Int.Basic

/-!
# Settings of the loggers

The variables that the collector loop of `dlogger` and `duologger` reads are set
in three layers.  At the start the script assigns its defaults, executes the
configuration file over them, and lets the command line have the last word.  On
a reload it only executes the configuration file again, over whatever is in
force.

So a reload forgets the command line where the new file assigns a variable, and
keeps the old file where it does not.  `reload_eq_restart_iff` says when that
makes no difference.
-/

namespace Memrec

/-- The variables that the collector loop reads. -/
inductive Setting
  | inner2outer
  | linesz
  | sortoutput
  | showxid
  | showkeys
  | verbose
  deriving DecidableEq, Repr

/-- A value for each variable. -/
abbrev Settings := Setting → Int

/-- What a configuration file assigns. -/
abbrev Cfg := Setting → Option Int

/-- The two daemons. -/
inductive Script
  | dlogger
  | duologger
  deriving DecidableEq, Repr

/-- The values in the head of the script. -/
def Script.defaults (sc : Script) : Settings
  | .inner2outer => match sc with
    | .dlogger => 1
    | .duologger => 10
  | .linesz => 5
  | .sortoutput => 0
  | .showxid => 1
  | .showkeys => 1
  | .verbose => 0

/-- The options that touch these variables: `-v`, `-V` and `-i num`. -/
structure CmdLine where
  v : Bool
  V : Bool
  i : Option Int
  deriving DecidableEq, Repr

/-- What `-v` and `-V` add to `$verbose`. -/
def CmdLine.louder (a : CmdLine) : Int := (if a.v then 1 else 0) + (if a.V then 10 else 0)

/-- `now overwrite with cmdline args`. -/
def CmdLine.overwrite (a : CmdLine) (s : Settings) : Settings
  | .verbose => s .verbose + a.louder
  | .inner2outer => a.i.getD (s .inner2outer)
  | x => s x

/-- Executing the configuration file: `require` at the start, `do` later. -/
def execCfg (file : Cfg) (s : Settings) : Settings := fun x => (file x).getD (s x)

/-- The settings in force when the main loop begins. -/
def start (sc : Script) (a : CmdLine) (file : Cfg) : Settings :=
  a.overwrite (execCfg file sc.defaults)

/-- What `reread_cfg` does to the settings. -/
def rereadSettings (file : Cfg) (s : Settings) : Settings := execCfg file s

/-! ## Reload against restart -/

/-- The command line touches the variable. -/
def CmdLine.Sets (a : CmdLine) : Setting → Prop
  | .verbose => a.louder ≠ 0
  | .inner2outer => a.i.isSome
  | _ => False

/-- A variable that a reload leaves as a restart would.  If the new file assigns
it, the command line must not touch it, or must set it to the same number with
`-i`.  If the new file does not assign it, `-i` must set it, or the old file
must have left it at its default. -/
def ReloadsAlike (sc : Script) (a : CmdLine) (old new : Cfg) (x : Setting) : Prop :=
  match new x with
  | some w => ¬ a.Sets x ∨ (x = .inner2outer ∧ a.i = some w)
  | none => (x = .inner2outer ∧ a.i.isSome) ∨ old x = none ∨ old x = some (sc.defaults x)

theorem getD_eq_iff {o : Option Int} {d : Int} : o.getD d = d ↔ o = none ∨ o = some d := by
  cases o <;> simp

theorem reload_eq_restart_at (sc : Script) (a : CmdLine) (old new : Cfg) (x : Setting) :
    rereadSettings new (start sc a old) x = start sc a new x ↔ ReloadsAlike sc a old new x := by
  unfold rereadSettings start ReloadsAlike execCfg
  cases hx : new x with
  | some w =>
      cases x with
      | inner2outer => cases hi : a.i <;> simp [CmdLine.overwrite, CmdLine.Sets, hx, hi, eq_comm]
      | verbose =>
          simp only [CmdLine.overwrite, CmdLine.Sets, hx, Option.getD_some, reduceCtorEq,
            false_and, or_false]
          omega
      | linesz | sortoutput | showxid | showkeys => simp [CmdLine.overwrite, CmdLine.Sets, hx]
  | none =>
      cases x with
      | inner2outer =>
          cases hi : a.i <;> simp [CmdLine.overwrite, hx, hi, getD_eq_iff]
      | verbose => simp [CmdLine.overwrite, hx, getD_eq_iff]
      | linesz | sortoutput | showxid | showkeys => simp [CmdLine.overwrite, hx, getD_eq_iff]

/-- **Reload against restart.**  Starting with the old file and reloading with
the new one gives the settings of a fresh start with the new file if and only
if every variable reloads alike. -/
theorem reload_eq_restart_iff (sc : Script) (a : CmdLine) (old new : Cfg) :
    rereadSettings new (start sc a old) = start sc a new ↔
      ∀ x, ReloadsAlike sc a old new x := by
  rw [funext_iff]
  exact forall_congr' (reload_eq_restart_at sc a old new)

/-- A file that assigns one variable. -/
def assigns (x : Setting) (w : Int) : Cfg := fun y => if y = x then some w else none

/-- `duologger -i 5`, reloaded after `$inner2outer = 3` was put into the file,
runs with three; and a line size taken out of the file stays in force. -/
theorem reload_ne_restart :
    rereadSettings (assigns .inner2outer 3)
        (start .duologger ⟨false, false, some 5⟩ fun _ => none) .inner2outer = 3 ∧
    start .duologger ⟨false, false, some 5⟩ (assigns .inner2outer 3) .inner2outer = 5 ∧
    rereadSettings (fun _ => none)
        (start .dlogger ⟨false, false, none⟩ (assigns .linesz 9)) .linesz = 9 ∧
    start .dlogger ⟨false, false, none⟩ (fun _ => none) .linesz = 5 := by
  decide

end Memrec
