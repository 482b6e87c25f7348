import Memrec.Settings
import Memrec.Text

/-!
# The log writer

Once a round of polls is over, the main loop of `dlogger`, `duologger` and
`cronlogger` formats `%data` into log lines.  Items are collected in `$txt` until
`$linesz` of them are there; a value of more than forty characters gets a line
of its own.  With `$showxid` every line starts with the timestamp of the round,
by which a reader can put the lines together again.

The loop is translated with its accumulators.  `formatRound_chunks` says what it
computes: the items, cut into non-empty runs of consecutive ones, one line for
each.
-/

namespace Memrec

open Perl

/-- `"xid=$tstamp "`, or nothing without `$showxid`. -/
def lineHead (s : Settings) (tstamp : Int) : Text :=
  if s .showxid ≠ 0 then "xid=".toList ++ decimal tstamp ++ [' '] else []

/-- One key with its value; an empty value leaves the key alone. -/
def lineItem (s : Settings) (p : Text × Text) : Text :=
  if s .showkeys ≠ 0 then
    if p.2 = [] then p.1 ++ [' '] else p.1 ++ '=' :: p.2 ++ [' ']
  else p.2 ++ [' ']

/-- What the loop carries: `$txt`, `$n`, and the lines handed to `write_log`. -/
structure WriterState where
  txt : Text
  n : Nat
  out : List Text

/-- Start a new line. -/
def WriterState.restart (s : Settings) (tstamp : Int) (st : WriterState) : WriterState :=
  { st with txt := lineHead s tstamp, n := 0 }

/-- `write_log( $txt )`. -/
def WriterState.write (st : WriterState) : WriterState := { st with out := st.out ++ [st.txt] }

/-- `length($v) > 40`. -/
def isLong (v : Text) : Bool := decide (v.length > 40)

/-- Before a long value the previous line is dumped. -/
def WriterState.makeRoom (s : Settings) (tstamp : Int) (st : WriterState) (v : Text) :
    WriterState :=
  if isLong v then (if st.n > 0 then st.write else st).restart s tstamp else st

/-- `$txt .= ...; $n++`. -/
def WriterState.add (s : Settings) (st : WriterState) (p : Text × Text) : WriterState :=
  { st with txt := st.txt ++ lineItem s p, n := st.n + 1 }

/-- A full line, or one with a long value, is written. -/
def WriterState.flush (s : Settings) (tstamp : Int) (st : WriterState) (v : Text) :
    WriterState :=
  if (st.n : Int) = s .linesz ∨ isLong v then st.write.restart s tstamp else st

/-- The body of the loop over the keys. -/
def formatItem (s : Settings) (tstamp : Int) (st : WriterState) (p : Text × Text) :
    WriterState :=
  ((st.makeRoom s tstamp p.2).add s p).flush s tstamp p.2

/-- The lines of one round; `pairs` are the entries of `%data` in the order of
`@keylist`. -/
def formatRound (s : Settings) (tstamp : Int) (pairs : List (Text × Text)) : List Text :=
  let st := (pairs.filter fun p => p.1 ≠ "tstamp".toList).foldl (formatItem s tstamp)
    ⟨lineHead s tstamp, 0, []⟩
  if st.n > 0 then st.write.out else st.out

/-! ## What the loop computes -/

/-- The line of a run of items. -/
def lineText (s : Settings) (tstamp : Int) (ch : List (Text × Text)) : Text :=
  lineHead s tstamp ++ ch.flatMap (lineItem s)

/-- **The invariant of the loop.**  The lines written so far are those of
non-empty runs `done`, and `$txt` is the line of the run `cur` that is still
open. -/
structure WriterInv (s : Settings) (tstamp : Int) (seen : List (Text × Text))
    (done : List (List (Text × Text))) (cur : List (Text × Text)) (st : WriterState) : Prop where
  out : st.out = done.map (lineText s tstamp)
  txt : st.txt = lineText s tstamp cur
  n : st.n = cur.length
  seen : done.flatten ++ cur = seen
  nonempty : ∀ ch ∈ done, ch ≠ []

namespace WriterInv

variable {s : Settings} {tstamp : Int} {seen : List (Text × Text)}
  {done : List (List (Text × Text))} {cur : List (Text × Text)} {st : WriterState}

/-- Closing the open run, if there is anything in it. -/
theorem close (h : WriterInv s tstamp seen done cur st) (hcur : cur ≠ []) :
    WriterInv s tstamp seen (done ++ [cur]) [] (st.write.restart s tstamp) where
  out := by
    simp only [WriterState.restart, WriterState.write, h.out, h.txt, List.map_append,
      List.map_singleton]
  txt := by simp [WriterState.restart, lineText]
  n := rfl
  seen := by simpa using h.seen
  nonempty := by
    intro ch hch
    rcases List.mem_append.mp hch with hch | hch
    · exact h.nonempty ch hch
    · rw [List.mem_singleton.mp hch]
      exact hcur

/-- The dump of the previous line before a long value. -/
theorem makeRoom (h : WriterInv s tstamp seen done cur st) (v : Text) :
    ∃ done' cur', WriterInv s tstamp seen done' cur' (st.makeRoom s tstamp v) := by
  unfold WriterState.makeRoom
  by_cases hlong : isLong v
  · rw [if_pos hlong]
    by_cases hn : st.n > 0
    · rw [if_pos hn]
      refine ⟨done ++ [cur], [], h.close ?_⟩
      rw [h.n] at hn
      exact List.length_pos_iff.mp hn
    · rw [if_neg hn]
      obtain rfl : cur = [] := by
        rw [h.n] at hn
        exact List.length_eq_zero_iff.mp (by omega)
      refine ⟨done, [], ⟨h.out, ?_, rfl, h.seen, h.nonempty⟩⟩
      simp [WriterState.restart, lineText]
  · rw [if_neg hlong]
    exact ⟨done, cur, h⟩

/-- Appending an item to the open run. -/
theorem add (h : WriterInv s tstamp seen done cur st) (p : Text × Text) :
    WriterInv s tstamp (seen ++ [p]) done (cur ++ [p]) (st.add s p) where
  out := h.out
  txt := by simp [WriterState.add, h.txt, lineText]
  n := by simp [WriterState.add, h.n]
  seen := by rw [← h.seen, List.append_assoc]
  nonempty := h.nonempty

/-- One round of the loop. -/
theorem step (h : WriterInv s tstamp seen done cur st) (p : Text × Text) :
    ∃ done' cur', WriterInv s tstamp (seen ++ [p]) done' cur' (formatItem s tstamp st p) := by
  obtain ⟨done₁, cur₁, h₁⟩ := h.makeRoom p.2
  have h₂ := h₁.add p
  unfold formatItem WriterState.flush
  split
  · exact ⟨_, _, h₂.close (by simp)⟩
  · exact ⟨_, _, h₂⟩

end WriterInv

/-- The lines that a state of the loop ends with. -/
theorem WriterInv.lines {s : Settings} {tstamp : Int} {seen : List (Text × Text)}
    {done : List (List (Text × Text))} {cur : List (Text × Text)} {st : WriterState}
    (h : WriterInv s tstamp seen done cur st) :
    (if st.n > 0 then st.write.out else st.out) =
      (if cur = [] then done else done ++ [cur]).map (lineText s tstamp) := by
  rw [h.n]
  by_cases hcur : cur = []
  · rw [if_pos hcur, if_neg (by simp [hcur]), h.out]
  · rw [if_neg hcur, if_pos (List.length_pos_iff.mpr hcur)]
    exact (h.close hcur).out

/-- **Induction along the loop.**  An invariant that every item keeps holds of the state in
which the lines of the round are complete. -/
theorem formatRound_inv {s : Settings} {tstamp : Int}
    {I : List (Text × Text) → List (List (Text × Text)) → List (Text × Text) → WriterState → Prop}
    (hlines : ∀ seen done cur st, I seen done cur st → WriterInv s tstamp seen done cur st)
    (hinit : I [] [] [] ⟨lineHead s tstamp, 0, []⟩)
    (hstep : ∀ seen done cur st p, I seen done cur st →
      ∃ done' cur', I (seen ++ [p]) done' cur' (formatItem s tstamp st p))
    (pairs : List (Text × Text)) :
    ∃ done cur st, I (pairs.filter fun p => p.1 ≠ "tstamp".toList) done cur st ∧
      formatRound s tstamp pairs =
        (if cur = [] then done else done ++ [cur]).map (lineText s tstamp) := by
  have hloop : ∀ (ps seen : List (Text × Text)) done cur st, I seen done cur st →
      ∃ done' cur', I (seen ++ ps) done' cur' (ps.foldl (formatItem s tstamp) st) := by
    intro ps
    induction ps with
    | nil =>
        intro seen done cur st h
        exact ⟨done, cur, by simpa using h⟩
    | cons p ps ih =>
        intro seen done cur st h
        obtain ⟨done₁, cur₁, h₁⟩ := hstep seen done cur st p h
        obtain ⟨done', cur', h'⟩ := ih _ _ _ _ h₁
        exact ⟨done', cur', by simpa using h'⟩
  obtain ⟨done, cur, h⟩ := hloop (pairs.filter fun p => p.1 ≠ "tstamp".toList) _ _ _ _ hinit
  rw [List.nil_append] at h
  exact ⟨done, cur, _, h, (hlines _ _ _ _ h).lines⟩

/-- **The lines of a round** are those of non-empty runs of consecutive items,
and together the runs are all entries but the timestamp. -/
theorem formatRound_chunks (s : Settings) (tstamp : Int) (pairs : List (Text × Text)) :
    ∃ chunks : List (List (Text × Text)),
      formatRound s tstamp pairs = chunks.map (lineText s tstamp) ∧
      chunks.flatten = (pairs.filter fun p => p.1 ≠ "tstamp".toList) ∧
      ∀ ch ∈ chunks, ch ≠ [] := by
  obtain ⟨done, cur, st, h, hlines⟩ := formatRound_inv
    (I := WriterInv s tstamp) (fun _ _ _ _ h => h)
    ⟨rfl, by simp [lineText], rfl, rfl, by simp⟩ (fun _ _ _ _ p h => h.step p) pairs
  refine ⟨_, hlines, ?_⟩
  split
  case isTrue hcur =>
    subst hcur
    exact ⟨(List.append_nil _).symm.trans h.seen, h.nonempty⟩
  case isFalse hcur =>
    have hclose := h.close hcur
    exact ⟨(List.append_nil _).symm.trans hclose.seen, hclose.nonempty⟩

end Memrec
