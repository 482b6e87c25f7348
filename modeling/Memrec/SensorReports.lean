import Memrec.Qloadsensor

/-!
# The reports of the load sensor

What `qloadsensor` prints is meant for another program, which has nothing but
the text: a line `begin`, a line `host:key:value` for each value, and a line
`end`.  `Reader` is such a program.

`reports_read_back` says that the text carries what the objects have stored.  In
every run, the report that is printed for a request is found at its place, and
its values are those of `%data` at that moment, each once.
-/

namespace Memrec.Qloadsensor

open Perl Runs

/-! ## A reader -/

/-- A text that is cut at its first colon. -/
def cut (l : Text) : Option (Text × Text) :=
  match l.dropWhile (· ≠ ':') with
  | [] => none
  | _ :: rest => some (l.takeWhile (· ≠ ':'), rest)

/-- The key and the value in a line. -/
def item? (l : Text) : Option (Text × Text) := (cut l).bind fun e => cut e.2

/-- The reports that are complete, and the one that is open. -/
structure Reader where
  done : List Data
  cur : Option Data
  deriving DecidableEq, Repr

/-- One line. -/
def Reader.line (r : Reader) (l : Text) : Reader :=
  if l = "begin".toList then { r with cur := some [] }
  else if l = "end".toList then ⟨r.done ++ r.cur.toList, none⟩
  else { r with cur := r.cur.map (· ++ (item? l).toList) }

/-- Everything that has been printed. -/
def readReports (out : Text) : Reader :=
  ((readlines out).map chomp).foldl Reader.line ⟨[], none⟩

/-! ## The lines of a run -/

/-- The line that a step prints. -/
def Event.printed (hostname : Text) : Event → Option Text
  | .opened => some "begin".toList
  | .item k v => some (hostname ++ ':' :: (k ++ ':' :: v))
  | .closed => some "end".toList
  | _ => none

/-- Everything that a run prints. -/
def output (hostname : Text) (tr : List Event) : Text := tr.flatMap (Event.output hostname)

/-- A step prints what can be read back. -/
def Event.Readable : Event → Prop
  | .item k v => ':' ∉ k ∧ '\n' ∉ k ∧ '\n' ∉ v
  | _ => True

/-- The value in a step. -/
def Event.entry : Event → Option (Text × Text)
  | .item k v => some (k, v)
  | _ => none

/-- The values of a stretch of a run. -/
def items (tr : List Event) : Data := tr.filterMap Event.entry

/-- The values that are to be reported. -/
def visible (data : Data) : Data := data.filter fun e => !isStamp e.1

/-- What a reader makes of a step. -/
def Reader.event (r : Reader) : Event → Reader
  | .opened => { r with cur := some [] }
  | .item k v => { r with cur := r.cur.map (· ++ [(k, v)]) }
  | .closed => ⟨r.done ++ r.cur.toList, none⟩
  | _ => r

/-- What a reader makes of a stretch of a run. -/
def Reader.follow (r : Reader) (tr : List Event) : Reader := tr.foldl Reader.event r

@[simp] theorem follow_nil (r : Reader) : r.follow [] = r := rfl

@[simp] theorem follow_cons (r : Reader) (e : Event) (tr : List Event) :
    r.follow (e :: tr) = (r.event e).follow tr := rfl

theorem follow_append (r : Reader) (tr tr' : List Event) :
    r.follow (tr ++ tr') = (r.follow tr).follow tr' :=
  List.foldl_append

theorem output_eq (hostname : Text) (e : Event) :
    e.output hostname = (e.printed hostname).toList.flatMap (· ++ ['\n']) := by
  cases e with
  | item k v =>
      change hostname ++ [':'] ++ k ++ [':'] ++ v ++ ['\n'] =
        (hostname ++ ':' :: (k ++ ':' :: v)) ++ ['\n'] ++ []
      simp
  | _ => rfl

/-- The text of a run is that of its lines. -/
theorem output_eq_lines (hostname : Text) (tr : List Event) :
    output hostname tr = (tr.filterMap (Event.printed hostname)).flatMap (· ++ ['\n']) := by
  induction tr with
  | nil => rfl
  | cons e tr ih =>
      unfold output at ih ⊢
      rw [List.flatMap_cons, ih, output_eq, List.filterMap_cons]
      cases e.printed hostname <;> simp

section Hostname

variable {hostname : Text} (hhost : ':' ∉ hostname ∧ '\n' ∉ hostname)

include hhost

theorem newline_notMem_printed {e : Event} (he : e.Readable) {l : Text}
    (hl : e.printed hostname = some l) : '\n' ∉ l := by
  cases e with
  | opened | closed =>
      obtain rfl := Option.some_inj.mp hl
      decide
  | item k v =>
      obtain rfl := Option.some_inj.mp hl
      simp only [List.mem_append, List.mem_cons, not_or]
      exact ⟨hhost.2, by decide, he.2.1, by decide, he.2.2⟩
  | line | eof | exit | serve | clock | getdata | die | skipped => cases hl

omit hhost in
theorem cut_append {w : Text} (hw : ':' ∉ w) (s : Text) : cut (w ++ ':' :: s) = some (w, s) := by
  have hall : ∀ c ∈ w, decide (c ≠ ':') = true :=
    fun c hc => decide_eq_true fun h => hw (h ▸ hc)
  unfold cut
  rw [List.dropWhile_append_of_pos hall, List.takeWhile_append_of_pos hall]
  simp

/-- A line with a value is read back. -/
theorem line_item {k v : Text} (hk : ':' ∉ k) (r : Reader) :
    r.line (hostname ++ ':' :: (k ++ ':' :: v)) = r.event (.item k v) := by
  have hcolon : ':' ∈ hostname ++ ':' :: (k ++ ':' :: v) := by simp
  have hbegin : hostname ++ ':' :: (k ++ ':' :: v) ≠ "begin".toList := by
    intro h
    rw [h] at hcolon
    exact absurd hcolon (by decide)
  have hend : hostname ++ ':' :: (k ++ ':' :: v) ≠ "end".toList := by
    intro h
    rw [h] at hcolon
    exact absurd hcolon (by decide)
  have hentry : item? (hostname ++ ':' :: (k ++ ':' :: v)) = some (k, v) := by
    unfold item?
    rw [cut_append hhost.1, Option.bind_some, cut_append hk]
  unfold Reader.line
  rw [if_neg hbegin, if_neg hend, hentry]
  rfl

/-- The reader has the lines of the run. -/
theorem foldl_printed {tr : List Event} (htr : ∀ e ∈ tr, e.Readable) (r : Reader) :
    (tr.filterMap (Event.printed hostname)).foldl Reader.line r = r.follow tr := by
  induction tr generalizing r with
  | nil => rfl
  | cons e tr ih =>
      have ih := ih fun e he => htr e (List.mem_cons_of_mem _ he)
      cases e with
      | item k v =>
          have hline := line_item hhost (htr _ List.mem_cons_self).1 (v := v) r
          rw [follow_cons, ← hline, ← ih]
          rfl
      | opened | closed | line | eof | exit | serve | clock | getdata | die | skipped => exact ih _

/-- **The text of a run** is read step by step. -/
theorem readReports_output {tr : List Event} (htr : ∀ e ∈ tr, e.Readable) :
    readReports (output hostname tr) = Reader.follow ⟨[], none⟩ tr := by
  have hnl : ∀ l ∈ tr.filterMap (Event.printed hostname), '\n' ∉ l := by
    intro l hl
    obtain ⟨e, he, hl⟩ := List.mem_filterMap.mp hl
    exact newline_notMem_printed hhost (htr e he) hl
  have hchomp : chomp ∘ (· ++ ['\n']) = (id : Text → Text) := by
    funext l
    exact chomp_line l
  unfold readReports
  rw [output_eq_lines, readlines_unlines hnl, List.map_map, hchomp, List.map_id]
  exact foldl_printed hhost htr _

end Hostname

/-! ## The reports of a run -/

variable {objs : Nat} {s t : Sensor} {tr : List Event} {e : Event}

/-- A report is open between `begin` and `end`. -/
def Pc.todo : Pc → Option Data
  | .items rest => some rest
  | _ => none

/-- A reader never loses a report. -/
theorem done_prefix (r : Reader) (tr : List Event) : r.done <+: (r.follow tr).done := by
  induction tr generalizing r with
  | nil => exact List.prefix_rfl
  | cons e tr ih =>
      have hstep : r.done <+: (r.event e).done := by
        cases e with
        | closed => exact List.prefix_append _ _
        | _ => exact List.prefix_rfl
      exact hstep.trans (ih _)

/-- Inside a report, the values so far and those that are left are those of `%data`. -/
theorem block_run {r : Reader} {es : Data} (hr : r.cur = some es) {rest : Data}
    (hpc : s.pc = .items rest) (hrun : Run (Step objs) s tr t) (hclosed : .closed ∉ tr) :
    r.follow tr = { r with cur := some (es ++ items tr) } ∧
      ∃ rest', t.pc = .items rest' ∧ items tr ++ visible rest' = visible rest := by
  induction tr generalizing s r es rest with
  | nil =>
      rw [hrun.of_nil]
      exact ⟨by simp [items, ← hr], rest, hpc, rfl⟩
  | cons e tr ih =>
      obtain ⟨m, hstep, htail⟩ := hrun.of_cons
      have hclosed' : .closed ∉ tr := fun h => hclosed (List.mem_cons_of_mem _ h)
      rw [follow_cons]
      cases hstep with
      | @skipped k v rest₁ hpc' hk =>
          obtain rfl : rest = (k, v) :: rest₁ := Pc.items.inj (hpc.symm.trans hpc')
          obtain ⟨hread, rest', hpc', hitems⟩ := ih hr rfl htail hclosed'
          refine ⟨hread, rest', hpc', hitems.trans ?_⟩
          unfold visible
          rw [List.filter_cons_of_neg (by simp [hk])]
      | @item k v rest₁ hpc' hk =>
          obtain rfl : rest = (k, v) :: rest₁ := Pc.items.inj (hpc.symm.trans hpc')
          have hcur : (r.event (.item k v)).cur = some (es ++ [(k, v)]) := by
            unfold Reader.event
            rw [hr]
            rfl
          obtain ⟨hread, rest', hpc', hitems⟩ := ih hcur rfl htail hclosed'
          refine ⟨?_, rest', hpc', ?_⟩
          · rw [hread, List.append_assoc]
            rfl
          · unfold visible at hitems ⊢
            rw [List.filter_cons_of_pos (by simp [hk]), ← hitems]
            rfl
      | closed hpc' => exact absurd List.mem_cons_self hclosed
      | line hpc' | eof hpc' | exit hpc' | serve hpc' | clock _ hpc' | getdata _ hpc' | die hpc'
        | opened _ hpc' =>
          rw [hpc] at hpc'
          cases hpc'

/-- The reader and the sensor: there is a report for each `end`, and one is open while the
sensor is printing. -/
theorem reader_run {stdin : Text} {now : Int} (hrun : Run (Step objs) (boot stdin now) tr s) :
    (Reader.follow ⟨[], none⟩ tr).done.length = tr.count .closed ∧
      (Reader.follow ⟨[], none⟩ tr).cur.isSome = s.pc.todo.isSome := by
  refine hrun.inv (P := fun tr s => (Reader.follow ⟨[], none⟩ tr).done.length = tr.count .closed ∧
    (Reader.follow ⟨[], none⟩ tr).cur.isSome = s.pc.todo.isSome) ⟨rfl, rfl⟩ ?_
  intro tr s e t _ ih hstep
  obtain ⟨hlen, hcur⟩ := ih
  rw [follow_append, List.count_append]
  generalize Reader.follow ⟨[], none⟩ tr = r at hlen hcur
  cases hstep with
  | closed hpc =>
      obtain ⟨es, hes⟩ : ∃ es, r.cur = some es := by
        rw [hpc] at hcur
        exact Option.isSome_iff_exists.mp hcur
      simp [Reader.event, Pc.todo, hlen, hes]
  | item hpc hk =>
      rw [hpc] at hcur
      simpa [Reader.event, Pc.todo, hlen] using hcur
  | opened _ hpc => simp [Reader.event, Pc.todo, hlen]
  | line hpc | eof hpc | exit hpc | serve hpc | clock _ hpc | getdata _ hpc | die hpc
    | skipped hpc =>
      rw [hpc] at hcur
      simpa [Reader.event, Pc.todo, hlen] using hcur

/-- **What is printed can be read back.**  Take any run in which the objects store
keys without a colon, and no line feeds.  The reader of its output has one report
for each `end`.  For a request that finds `%data` as it is in `m`, the report is at
its place, behind those of the requests before it, and has the entries of `%data`
but for the two timestamps, in some order.  While the sensor is not printing, no
report is open. -/
theorem reports_read_back (hostname : Text) (hhost : ':' ∉ hostname ∧ '\n' ∉ hostname)
    (stdin : Text) (now : Int) {pre mid post : List Event} {m s : Sensor}
    (hpre : Run (Step objs) (boot stdin now) pre m)
    (hrest : Run (Step objs) m (.opened :: (mid ++ .closed :: post)) s) (hmid : .closed ∉ mid)
    (hread : ∀ e ∈ pre ++ .opened :: (mid ++ .closed :: post), e.Readable) :
    let r := readReports (output hostname (pre ++ .opened :: (mid ++ .closed :: post)))
    r.done.length = pre.count .closed + 1 + post.count .closed ∧
      r.done[pre.count .closed]? = some (items mid) ∧ (items mid).Perm (visible m.data) ∧
      (r.cur.isSome = s.pc.todo.isSome) := by
  intro r
  have hr : r = Reader.follow ⟨[], none⟩ (pre ++ .opened :: (mid ++ .closed :: post)) :=
    readReports_output hhost hread
  obtain ⟨hlen, hcur⟩ := reader_run (hpre.trans hrest)
  obtain ⟨hbefore, -⟩ := reader_run hpre
  obtain ⟨m₁, hopened, hrun⟩ := hrest.of_cons
  obtain ⟨m₂, hblock, hafter⟩ := hrun.of_append
  obtain ⟨m₃, hclosed, -⟩ := hafter.of_cons
  rw [← hr] at hlen hcur
  refine ⟨?_, ?_, ?_, hcur⟩
  · rw [hlen, List.count_append, List.count_cons, List.count_append, List.count_cons,
      List.count_eq_zero.mpr hmid]
    simp
    omega
  · cases hopened with
    | opened rest hpc hi hperm =>
        obtain ⟨hfollow, -⟩ := block_run (r := ⟨(Reader.follow ⟨[], none⟩ pre).done, some []⟩)
          rfl rfl hblock hmid
        have hsplit : r = Reader.follow
            ⟨(Reader.follow ⟨[], none⟩ pre).done ++ [items mid], none⟩ post := by
          rw [hr, follow_append, follow_cons, follow_append, Reader.event, hfollow, follow_cons]
          rfl
        have hprefix := done_prefix ⟨(Reader.follow ⟨[], none⟩ pre).done ++ [items mid], none⟩ post
        rw [← hsplit] at hprefix
        obtain ⟨more, hmore⟩ := hprefix
        rw [← hmore, List.append_assoc, ← hbefore, List.getElem?_append_right (Nat.le_refl _)]
        simp
  · cases hopened with
    | opened rest hpc hi hperm =>
        obtain ⟨-, rest', hpc', hitems⟩ := block_run (r := ⟨[], some []⟩) rfl rfl hblock hmid
        cases hclosed with
        | closed hnil =>
            obtain rfl : rest' = [] := Pc.items.inj (hpc'.symm.trans hnil)
            have hall : items mid = visible rest := by
              rw [← hitems]
              exact (List.append_nil _).symm
            rw [hall]
            exact hperm.filter _

/-- A sensor whose object has stored a load of two. -/
def loaded : Sensor :=
  { boot [] 0 with
    pc := .poll 1
    tstamp := 5
    data := ("load".toList, "2".toList) :: freshData 5 0 }

/-- One request to it. -/
theorem reports_read_back_load :
    output "node1".toList [.line ['\n'], .serve, .clock 5, .getdata, .opened, .skipped,
        .item "load".toList "2".toList, .skipped, .closed] = "begin\nnode1:load:2\nend\n".toList ∧
      (readReports "begin\nnode1:load:2\nend\n".toList).done[0]? =
        some [("load".toList, "2".toList)] := by
  have hpre : Run (Step 1) (boot "\n".toList 0) [.line ['\n'], .serve, .clock 5, .getdata]
      loaded :=
    ((((Run.nil _).snoc (.line rfl rfl)).snoc (.serve rfl rfl)).snoc (.clock 5 rfl)).snoc
      (.getdata _ rfl (by decide))
  let printing (rest : Data) : Sensor := { loaded with pc := .items rest }
  have hopened : Step 1 loaded .opened (printing [("tstamp".toList, decimal 5),
      ("load".toList, "2".toList), ("last_tstamp".toList, decimal 0)]) :=
    .opened _ rfl rfl (.swap _ _ _)
  have hskipped (k v : Text) (rest : Data) (hk : isStamp k = true) :
      Step 1 (printing ((k, v) :: rest)) .skipped (printing rest) :=
    .skipped rfl hk
  have hitem (k v : Text) (rest : Data) (hk : isStamp k = false) :
      Step 1 (printing ((k, v) :: rest)) (.item k v) (printing rest) :=
    .item rfl hk
  have hrest : Run (Step 1) loaded
      (.opened :: ([.skipped, .item "load".toList "2".toList, .skipped] ++ [.closed]))
      { loaded with pc := .read, lastTstamp := 5 } :=
    (((((Run.nil _).snoc hopened).snoc (hskipped _ _ _ rfl)).snoc (hitem _ _ _ rfl)).snoc
      (hskipped _ _ _ rfl)).snoc (.closed rfl)
  have hread := reports_read_back "node1".toList (by decide) _ _ hpre hrest (by decide)
    (by simp [Event.Readable])
  exact ⟨by decide, hread.2.1⟩

end Memrec.Qloadsensor
