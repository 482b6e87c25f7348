import Memrec.Pattern
import Memrec.Runs

/-!
# The load sensor

`qloadsensor` is driven by the execution daemon of the grid engine: every line on
its standard input asks for one block of values, printed between `begin` and `end`,
and a line that starts with `quit` asks it to leave.

The main loop is a machine whose steps are the statements of its body.  At the end
of the input `<STDIN>` returns `undef`, which is not a line that starts with `quit`,
and the loop goes on.  `requestDriven_iff` says for which inputs this does not
matter.
-/

namespace Memrec.Qloadsensor

open Perl Runs

/-- `%data`. -/
abbrev Data := List (Text × Text)

/-- The place in the body of the main loop. -/
inductive Pc
  | read
  | test (x : Option Text)
  | clock
  /-- `i` of the objects have been polled. -/
  | poll (i : Nat)
  /-- `each %data` has these entries left. -/
  | items (rest : Data)
  | exited
  deriving DecidableEq, Repr

/-- The script, and the part of its standard input that is still to be read. -/
structure Sensor where
  pc : Pc
  stdin : List Text
  lastTstamp : Int
  tstamp : Int
  data : Data
  deriving DecidableEq, Repr

/-- What happens in one step. -/
inductive Event
  | line (x : Text)
  | eof
  | exit
  | serve
  | clock (now : Int)
  | getdata
  | die
  /-- `print "begin\n"`. -/
  | opened
  | skipped
  | item (k v : Text)
  /-- `print "end\n"`. -/
  | closed
  deriving DecidableEq, Repr

/-- What a step prints. -/
def Event.output (hostname : Text) : Event → Text
  | .opened => "begin\n".toList
  | .item k v => hostname ++ [':'] ++ k ++ [':'] ++ v ++ ['\n']
  | .closed => "end\n".toList
  | _ => []

/-- `$x =~ m/^quit/`, where `undef` reads as the empty text. -/
def quits (x : Option Text) : Bool := (Pat.atStart (Pat.lit "quit".toList) (x.getD [])).isSome

/-- `$tstamp = time`, and one more if it is the time of the last round. -/
def stamp (now last : Int) : Int := if now = last then now + 1 else now

/-- The two entries that `%data` starts with. -/
def freshData (tstamp last : Int) : Data :=
  [("tstamp".toList, decimal tstamp), ("last_tstamp".toList, decimal last)]

/-- The keys that are not printed. -/
def isStamp (k : Text) : Bool := k == "tstamp".toList || k == "last_tstamp".toList

/-- The script before its main loop. -/
def boot (stdin : Text) (now : Int) : Sensor where
  pc := .read
  stdin := readlines stdin
  lastTstamp := now
  tstamp := 0
  data := []

/-- **One step**, for a configuration with `objs` objects. -/
inductive Step (objs : Nat) : Sensor → Event → Sensor → Prop
  | line {s x xs} (h : s.pc = .read) (hin : s.stdin = x :: xs) :
      Step objs s (.line x) { s with pc := .test (some x), stdin := xs }
  | eof {s} (h : s.pc = .read) (hin : s.stdin = []) :
      Step objs s .eof { s with pc := .test none }
  | exit {s x} (h : s.pc = .test x) (hx : quits x = true) :
      Step objs s .exit { s with pc := .exited }
  | serve {s x} (h : s.pc = .test x) (hx : quits x = false) :
      Step objs s .serve { s with pc := .clock }
  | clock {s} (now : Int) (h : s.pc = .clock) :
      Step objs s (.clock now)
        { s with
          pc := .poll 0
          tstamp := stamp now s.lastTstamp
          data := freshData (stamp now s.lastTstamp) s.lastTstamp }
  -- an object may store anything into `%data`, or die
  | getdata {s i} (data : Data) (h : s.pc = .poll i) (hi : i < objs) :
      Step objs s .getdata { s with pc := .poll (i + 1), data := data }
  | die {s i} (h : s.pc = .poll i) (hi : i < objs) : Step objs s .die { s with pc := .exited }
  -- the order in which `each` lists a hash is not specified
  | opened {s i} (rest : Data) (h : s.pc = .poll i) (hi : i = objs) (hrest : rest.Perm s.data) :
      Step objs s .opened { s with pc := .items rest }
  | skipped {s k v rest} (h : s.pc = .items ((k, v) :: rest)) (hk : isStamp k = true) :
      Step objs s .skipped { s with pc := .items rest }
  | item {s k v rest} (h : s.pc = .items ((k, v) :: rest)) (hk : isStamp k = false) :
      Step objs s (.item k v) { s with pc := .items rest }
  | closed {s} (h : s.pc = .items []) :
      Step objs s .closed { s with pc := .read, lastTstamp := s.tstamp }

/-! ## Requests -/

/-- The line that a step reads. -/
def Event.line? : Event → Option Text
  | .line x => some x
  | _ => none

/-- The lines that were read, in order. -/
def linesRead (tr : List Event) : List Text := tr.filterMap Event.line?

/-- The step reads, or tries to. -/
def Event.Reads (e : Event) : Prop := e = .eof ∨ ∃ x, e = .line x

/-- **The protocol.**  There are no more blocks than lines, nothing is printed after a
line that starts with `quit`, and after the end of the input nothing is printed and
nothing is read. -/
structure RequestDriven (hostname : Text) (tr : List Event) : Prop where
  blocks : tr.count .opened ≤ (linesRead tr).length
  quit : ∀ pre x post, tr = pre ++ .line x :: post → quits (some x) = true →
    ∀ e ∈ post, e.output hostname = []
  eof : ∀ pre post, tr = pre ++ .eof :: post →
    ∀ e ∈ post, e.output hostname = [] ∧ ¬ e.Reads

@[simp] theorem linesRead_nil : linesRead [] = [] := rfl

@[simp] theorem linesRead_cons (e : Event) (tr : List Event) :
    linesRead (e :: tr) = e.line?.toList ++ linesRead tr := by
  cases h : e.line? <;> simp [linesRead, h]

@[simp] theorem linesRead_append (tr tr' : List Event) :
    linesRead (tr ++ tr') = linesRead tr ++ linesRead tr' :=
  List.filterMap_append

theorem mem_linesRead {tr : List Event} {x : Text} (h : .line x ∈ tr) : x ∈ linesRead tr :=
  List.mem_filterMap.mpr ⟨.line x, h, rfl⟩

/-- A block is still to be printed in this iteration. -/
def Pc.owes : Pc → Nat
  | .test _ | .clock | .poll _ => 1
  | _ => 0

/-- The script has left its loop, or is about to. -/
def Pc.Leaving : Pc → Prop
  | .test x => quits x = true
  | .exited => True
  | _ => False

/-- **The account of a run.**  What was read and what is left make up the input, every
block has its line or its end of input, and a line that starts with `quit` is the
last thing the script has seen. -/
structure Account (lines : List Text) (tr : List Event) (s : Sensor) : Prop where
  input : linesRead tr ++ s.stdin = lines
  blocks : tr.count .opened + s.pc.owes ≤ (linesRead tr).length + tr.count .eof
  quit : s.pc.Leaving ∨ ∀ x ∈ linesRead tr, quits (some x) = false

variable {objs : Nat} {s t : Sensor} {tr : List Event} {e : Event}

theorem account_boot (stdin : Text) (now : Int) :
    Account (readlines stdin) [] (boot stdin now) where
  input := rfl
  blocks := by simp [boot, Pc.owes]
  quit := Or.inr (by simp)

/-- **The ledger of one step.**  A line moves from the input to what was read, a block is
owed for what was read or for its end, and a script that is leaving reads no more. -/
theorem Step.ledger (h : Step objs s e t) :
    e.line?.toList ++ t.stdin = s.stdin ∧
    [e].count .opened + t.pc.owes ≤ s.pc.owes + e.line?.toList.length + [e].count .eof ∧
    (s.pc.Leaving → e.line? = none ∧ t.pc.Leaving) ∧
    ∀ x ∈ e.line?, quits (some x) = true → t.pc.Leaving := by
  cases h with
  | line hpc hin => simp [hpc, hin, Event.line?, Pc.owes, Pc.Leaving]
  | eof hpc hin => simp [hpc, hin, Event.line?, Pc.owes, Pc.Leaving]
  | exit hpc hx => simp [hpc, hx, Event.line?, Pc.owes, Pc.Leaving]
  | serve hpc hx => simp [hpc, hx, Event.line?, Pc.owes, Pc.Leaving]
  | clock now hpc | getdata data hpc | die hpc | opened rest hpc | skipped hpc | item hpc
    | closed hpc => simp [hpc, Event.line?, Pc.owes, Pc.Leaving]

theorem Account.step {lines : List Text} (h : Account lines tr s) (hstep : Step objs s e t) :
    Account lines (tr ++ [e]) t := by
  obtain ⟨hinput, hblocks, hquit⟩ := h
  obtain ⟨hstdin, howes, hleaving, hline⟩ := hstep.ledger
  have hread : linesRead (tr ++ [e]) = linesRead tr ++ e.line?.toList := by simp
  refine ⟨?_, ?_, ?_⟩
  · rw [hread, List.append_assoc, hstdin, hinput]
  · rw [hread, List.count_append, List.count_append, List.length_append]
    omega
  · rcases hquit with hleave | hnone
    · exact Or.inl (hleaving hleave).2
    · cases he : e.line? with
      | none => exact Or.inr (by simpa [hread, he] using hnone)
      | some x =>
          cases hx : quits (some x) with
          | true => exact Or.inl (hline x he hx)
          | false =>
              refine Or.inr ?_
              intro y hy
              rw [hread, List.mem_append] at hy
              rcases hy with hy | hy
              · exact hnone y hy
              · obtain rfl : y = x := by simpa [he] using hy
                exact hx

theorem account_run {stdin : Text} {now : Int} (h : Run (Step objs) (boot stdin now) tr s) :
    Account (readlines stdin) tr s :=
  Run.inv (account_boot stdin now) (fun _ _ _ _ _ h hstep => h.step hstep) h

/-- A script that is about to leave prints nothing more. -/
theorem Step.output_of_leaving (h : Step objs s e t) (hleave : s.pc.Leaving) (hostname : Text) :
    e.output hostname = [] := by
  cases h with
  | opened rest hpc | item hpc | closed hpc =>
      rw [hpc] at hleave
      exact hleave.elim
  | _ => rfl

theorem quiet_after_quit {stdin : Text} {now : Int} (hostname : Text)
    (h : Run (Step objs) (boot stdin now) tr s) :
    ∀ pre x post, tr = pre ++ .line x :: post → quits (some x) = true →
      ∀ e ∈ post, e.output hostname = [] := by
  refine Run.inv (P := fun tr _ => ∀ pre x post, tr = pre ++ .line x :: post →
    quits (some x) = true → ∀ e ∈ post, e.output hostname = []) ?_ ?_ h
  · intro pre x post htr
    simp at htr
  · intro tr t a u hrun ih hstep pre x post htr hx e he
    obtain rfl | ⟨mid, b, rfl⟩ := post.eq_nil_or_concat'
    · simp at he
    · rw [← List.cons_append, ← List.append_assoc] at htr
      obtain ⟨rfl, hab⟩ := List.append_inj' htr rfl
      obtain rfl : a = b := by simpa using hab
      rcases List.mem_append.mp he with he | he
      · exact ih pre x mid rfl hx e he
      · rw [List.mem_singleton.mp he]
        have hmem : x ∈ linesRead (pre ++ .line x :: mid) := mem_linesRead (by simp)
        rcases (account_run hrun).quit with hpc | hnone
        · exact hstep.output_of_leaving hpc hostname
        · rw [hnone x hmem] at hx
          cases hx

/-- If the input has a line that starts with `quit`, its end is never reached. -/
theorem no_eof_of_quit {stdin : Text} {now : Int}
    (hquit : ∃ x ∈ readlines stdin, quits (some x) = true)
    (h : Run (Step objs) (boot stdin now) tr s) : .eof ∉ tr := by
  refine Run.inv (P := fun tr _ => .eof ∉ tr) (by simp) ?_ h
  intro tr t a u hrun ih hstep hmem
  rcases List.mem_append.mp hmem with hmem | hmem
  · exact ih hmem
  · obtain rfl : .eof = a := by simpa using hmem
    obtain ⟨x, hx, hq⟩ := hquit
    cases hstep with
    | eof hpc hin =>
        have hacc := account_run hrun
        have hinput := hacc.input
        rw [hin, List.append_nil] at hinput
        rcases hacc.quit with hleave | hnone
        · simp [hpc, Pc.Leaving] at hleave
        · rw [hnone x (hinput ▸ hx)] at hq
          cases hq

/-! ## The end of the input -/

/-- The objects can be polled one after the other. -/
theorem exists_polls (hpc : s.pc = .poll 0) {i : Nat} (hi : i ≤ objs) :
    ∃ tr, Run (Step objs) s tr { s with pc := .poll i } ∧
      tr.count .opened = 0 ∧ linesRead tr = [] := by
  induction i with
  | zero =>
      refine ⟨[], ?_, by simp, rfl⟩
      rw [← hpc]
      exact Run.nil s
  | succ i ih =>
      obtain ⟨tr, hrun, hcount, hlines⟩ := ih (by omega)
      refine ⟨tr ++ [.getdata], hrun.snoc (.getdata s.data rfl (by omega)), ?_, ?_⟩
      · simpa using hcount
      · simpa [Event.line?] using hlines

/-- **An iteration.**  What was read does not ask to leave, so a block is printed. -/
theorem exists_block {x : Option Text} (hpc : s.pc = .test x) (hx : quits x = false) :
    ∃ tr t, Run (Step objs) s tr t ∧ t.pc = .read ∧ t.stdin = s.stdin ∧
      tr.count .opened = 1 ∧ linesRead tr = [] := by
  have hclock : Run (Step objs) s [.serve, .clock 0] _ :=
    ((Run.nil s).snoc (.serve hpc hx)).snoc (.clock 0 rfl)
  obtain ⟨tr, hpolls, hcount, hlines⟩ := @exists_polls objs
    { s with
      pc := .poll 0
      tstamp := stamp 0 s.lastTstamp
      data := freshData (stamp 0 s.lastTstamp) s.lastTstamp } rfl objs (Nat.le_refl objs)
  have hblock := ((((hclock.trans hpolls).snoc (.opened _ rfl rfl (.refl _))).snoc
    (.skipped rfl (by decide))).snoc (.skipped rfl (by decide))).snoc (.closed rfl)
  refine ⟨_, _, hblock, rfl, rfl, ?_, ?_⟩
  · simp [hcount]
  · simpa [Event.line?] using hlines

/-- An input without a request to leave is answered to its end. -/
theorem exists_all_blocks (hpc : s.pc = .read)
    (hin : ∀ x ∈ s.stdin, quits (some x) = false) :
    ∃ tr t, Run (Step objs) s tr t ∧ t.pc = .read ∧ t.stdin = [] ∧
      tr.count .opened = (linesRead tr).length := by
  generalize hxs : s.stdin = xs at hin
  induction xs generalizing s with
  | nil => exact ⟨[], s, Run.nil s, hpc, hxs, rfl⟩
  | cons x xs ih =>
      have hread : Run (Step objs) s [.line x] { s with pc := .test (some x), stdin := xs } :=
        (Run.nil s).snoc (.line hpc hxs)
      obtain ⟨tr, t, hblock, htpc, htin, hcount, hlines⟩ :=
        @exists_block objs { s with pc := .test (some x), stdin := xs } (some x) rfl
          (hin x (by simp))
      obtain ⟨tr', u, hrest, hupc, huin, hall⟩ :=
        ih htpc htin (fun y hy => hin y (by simp [hy]))
      refine ⟨_, u, (hread.trans hblock).trans hrest, hupc, huin, ?_⟩
      simp [Event.line?, hcount, hlines, hall]
      omega

/-- **Requests and the end of the input.**  The script keeps to the protocol in all of
its runs if and only if some line of its input starts with `quit`. -/
theorem requestDriven_iff (objs : Nat) (hostname stdin : Text) (now : Int) :
    (∀ tr s, Run (Step objs) (boot stdin now) tr s → RequestDriven hostname tr) ↔
      ∃ x ∈ readlines stdin, quits (some x) = true := by
  constructor
  · intro hall
    by_contra hno
    have hin : ∀ x ∈ readlines stdin, quits (some x) = false := by
      intro x hx
      cases hq : quits (some x) with
      | false => rfl
      | true => exact absurd ⟨x, hx, hq⟩ hno
    obtain ⟨tr, t, hrun, hpc, hstdin, hcount⟩ :=
      @exists_all_blocks objs (boot stdin now) rfl hin
    -- one more iteration, for the `undef` at the end
    obtain ⟨tr', u, hblock, -, -, hone, hnone⟩ :=
      @exists_block objs { t with pc := .test none } none rfl rfl
    have hrun' := (hrun.snoc (.eof hpc hstdin)).trans hblock
    have hblocks := (hall _ _ hrun').blocks
    simp [Event.line?, hcount, hone, hnone] at hblocks
  · intro hquit tr s hrun
    have heof := no_eof_of_quit hquit hrun
    have hacc := account_run hrun
    refine ⟨?_, quiet_after_quit hostname hrun, ?_⟩
    · have hcount : tr.count .eof = 0 := List.count_eq_zero.mpr heof
      have := hacc.blocks
      omega
    · intro pre post htr
      exact absurd (by simp [htr]) heof

/-- With nothing on its input, a sensor without objects prints a block and reads
again. -/
theorem eof_not_requestDriven :
    ¬ ∀ tr s, Run (Step 0) (boot [] 0) tr s → RequestDriven "node1".toList tr := by
  intro hall
  have hrun : Run (Step 0) (boot [] 0)
      [.eof, .serve, .clock 5, .opened, .skipped, .skipped, .closed, .eof]
      { boot [] 0 with
        pc := .test none, lastTstamp := 5, tstamp := 5, data := freshData 5 0 } :=
    ((((((((Run.nil _).snoc (.eof rfl rfl)).snoc (.serve rfl rfl)).snoc (.clock 5 rfl)).snoc
      (.opened (freshData 5 0) rfl rfl (.refl _))).snoc (.skipped rfl (by decide))).snoc
      (.skipped rfl (by decide))).snoc (.closed rfl)).snoc (.eof rfl rfl)
  have hblocks := (hall _ _ hrun).blocks
  exact absurd hblocks (by decide)

end Memrec.Qloadsensor
