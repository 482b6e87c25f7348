import Memrec.HashTable
import Memrec.Pattern

/-!
# The queue listing

`qstatinfo` reads what `qstat -f` prints: sections that start with the line of a queue
instance, under each of them one line per job, and at the end the jobs that are still
waiting.  A job that runs on several hosts, or whose tasks run in several queues, has
several lines, and the loop collects them in `%jobinfo` under its key: the list of hosts
grows and the slots are added up.

`slots_conserved` says that nothing is lost on the way: over all jobs that `getdata`
reports, the slots add up to those of the job lines.

The task id `$tid` is not among the variables that `getdata` declares.  It belongs to
the package, keeps its value from one line to the next and from one call to the next,
and is a parameter here.
-/

namespace Memrec.Qstatinfo

open Perl Pat Hash

/-! ## The module -/

/-- An entry of `%jobinfo`. -/
structure JobInfo where
  queue : Text
  hostlist : Text
  nslots : Scalar
  jobName : Text
  user : Text
  state : Text
  taskRange : Text
  deriving DecidableEq

/-- The variables of the loop that outlive a line; an undefined `$tid` reads as the empty
text. -/
structure Scan where
  host : Text
  queue : Text
  tid : Text
  jobinfo : Hash Text JobInfo

/-- `m/^\s+\-\s+PENDING JOBS/`. -/
def pendingHead : Pat Unit := do
  let _ ← many1 isSpace
  lit ['-']
  let _ ← many1 isSpace
  lit "PENDING JOBS".toList

/-- `split( /[ .\@]/, $_ )`. -/
def splitQueue (line : Text) : List Text :=
  (line.splitOnP fun c => c == ' ' || c == '.' || c == '@').rdropWhile List.isEmpty

/-- `m/(.*?)\-(.*?)\:(.*)/`. -/
def rangePattern : Pat (Text × Text × Text) := do
  let a ← lazily notNl
  lit ['-']
  let b ← lazily notNl
  lit [':']
  let c ← many notNl
  pure (a, b, c)

/-- `$1 . ',' . $2 . ',' . $3`.  The last match before this one is that of `m/q/`, which
captures nothing. -/
def rangeText (fld8 : Text) : Text :=
  match capture rangePattern fld8 with
  | some (a, b, c) => a ++ ',' :: (b ++ ',' :: c)
  | none => ",,".toList

/-- `$trange` unless there is a range. -/
def noRange : Text := "undefined,undefined,undefined".toList

/-- `$tid` and `$trange` after the branch on the state of a job. -/
def task (tid : Text) (fld : List Text) : Text × Text :=
  if (fld.getD 4 []).contains 'q' then
    if fld.getD 8 [] = [] then ([], noRange)
    -- the task id is not assigned
    else (tid, rangeText (fld.getD 8 []))
  else
    if fld.getD 8 [] = [] then ([], noRange)
    else ('.' :: fld.getD 8 [], noRange)

/-- `"$jid$tid"`. -/
def jobKey (tid : Text) (fld : List Text) : Text := fld.getD 0 [] ++ (task tid fld).1

/-- The line of a queue instance. -/
def queueLine (st : Scan) (fld : List Text) : Scan :=
  { st with queue := fld.getD 0 [], host := fld.getD 2 [] }

/-- What is stored for a job line, given the list of hosts and the slots. -/
def jobInfo (st : Scan) (fld : List Text) (hlist : Text) (nslots : Scalar) : JobInfo where
  queue := st.queue
  hostlist := hlist
  nslots := nslots
  jobName := fld.getD 2 []
  user := fld.getD 3 []
  state := fld.getD 4 []
  taskRange := (task st.tid fld).2

/-- The line of a job. -/
def jobLine (st : Scan) (fld : List Text) : Scan :=
  let key := jobKey st.tid fld
  let info :=
    match st.jobinfo.lookup key with
    | some old =>
        jobInfo st fld (old.hostlist ++ ',' :: st.host)
          (.num (numify (fld.getD 7 []) + old.nslots.value))
    | none => jobInfo st fld st.host (.text (fld.getD 7 []))
  { st with tid := (task st.tid fld).1, jobinfo := st.jobinfo.insert key info }

/-- The body of the loop, on a line without its line feed. -/
def scanLine (st : Scan) (line : Text) : Scan :=
  if "---".toList.isPrefixOf line then st
  else if "queuename".toList.isPrefixOf line then st
  else if "###".toList.isPrefixOf line then st
  else if (atStart pendingHead line).isSome then { st with host := [] }
  else if line = [] then st
  else if line.head?.any Char.isAlpha then queueLine st (splitQueue line)
  else if line.head?.any Char.isDigit then jobLine st (splitWs line)
  else st

/-- The lines of the listing. -/
def lines (listing : Text) : List Text := (readlines listing).map chomp

/-- `getdata` up to the end of the loop over the listing, with the `$tid` that it
finds. -/
def scan (tid : Text) (ls : List Text) : Scan :=
  ls.foldl scanLine ⟨"default".toList, "default".toList, tid, ∅⟩

/-- `m/(.*?)\.(.*)/`. -/
def idPattern : Pat (Text × Text) := do
  let j ← lazily notNl
  lit ['.']
  let t ← many notNl
  pure (j, t)

/-- `$jid` and `$tid` for a key. -/
def keyParts (k : Text) : Text × Text :=
  (capture idPattern k).getD (k, "undefined".toList)

/-- The entries that the last loop of `getdata` visits, in the order of `each`. -/
def reported (walk : Walk Text JobInfo) (tid : Text) (listing : Text) : List (Text × JobInfo) :=
  walk.list (scan tid (lines listing)).jobinfo

/-- `$tid` after a call: the task id of the last key that was visited, or what the loop
over the listing has left. -/
def tidLeft (walk : Walk Text JobInfo) (tid : Text) (listing : Text) : Text :=
  ((reported walk tid listing).getLast?.map fun e => (keyParts e.1).2).getD
    (scan tid (lines listing)).tid

section Output

-- how the interpreter writes a number
variable (shown : ℚ → Text)

/-- What is stored for an entry of `%jobinfo`. -/
def statusText (k : Text) (v : JobInfo) : Text :=
  "action=jobstatus job_id=".toList ++ (keyParts k).1 ++ " task_id=".toList ++ (keyParts k).2 ++
    " hostlist=".toList ++ v.hostlist ++ " queue=".toList ++ v.queue ++
    " state=".toList ++ v.state ++ " nslots=".toList ++ v.nslots.written shown ++
    " task_range=".toList ++ v.taskRange ++ " user=".toList ++ v.user ++
    " job_name=".toList ++ v.jobName

/-- `getdata`: the data hash and `$tid` afterwards. -/
def getdata (walk : Walk Text JobInfo) (tid : Text) (dref : Hash Text Text) (listing : Text) :
    Hash Text Text × Text :=
  let jobs := reported walk tid listing
  (storeAll dref (jobs.map fun e => (e.1, statusText shown e.1 e.2)), tidLeft walk tid listing)

end Output

/-! ## One line -/

/-- A job line starts with a digit. -/
def isJobLine (line : Text) : Bool := line.head?.any Char.isDigit

theorem isPrefixOf_eq_false {w l : Text} {c d : Char} (hw : w.head? = some c) (hne : c ≠ d) :
    w.isPrefixOf (d :: l) = false := by
  obtain ⟨w', rfl⟩ := List.head?_eq_some_iff.mp hw
  rw [List.isPrefixOf_cons_cons, beq_false_of_ne hne, Bool.false_and]

theorem isAlpha_of_isDigit {c : Char} (h : c.isDigit = true) : c.isAlpha = false := by
  have h9 : '9'.toNat = 57 := rfl
  have hA : 'A'.toNat = 65 := rfl
  have ha : 'a'.toNat = 97 := rfl
  rw [Char.isDigit_iff_toNat] at h
  have hupper : c.isUpper = false := by
    refine decide_eq_false ?_
    rintro ⟨hle, -⟩
    have : 'A'.toNat ≤ c.toNat := UInt32.le_iff_toNat_le.mp hle
    omega
  have hlower : c.isLower = false := by
    refine Bool.and_eq_false_iff.mpr (.inl (decide_eq_false ?_))
    intro hle
    have : 'a'.toNat ≤ c.toNat := UInt32.le_iff_toNat_le.mp hle
    omega
  exact Bool.or_eq_false_iff.mpr ⟨hupper, hlower⟩

theorem scanLine_of_isJobLine {line : Text} (h : isJobLine line = true) (st : Scan) :
    scanLine st line = jobLine st (splitWs line) := by
  cases line with
  | nil => cases h
  | cons d l =>
      have hd : d.isDigit = true := h
      have hne : ∀ c : Char, c.isDigit = false → c ≠ d := by
        rintro c hc rfl
        rw [hd] at hc
        cases hc
      have hsep : "---".toList.isPrefixOf (d :: l) = false :=
        isPrefixOf_eq_false rfl (hne '-' (by decide))
      have hhead : "queuename".toList.isPrefixOf (d :: l) = false :=
        isPrefixOf_eq_false rfl (hne 'q' (by decide))
      have hcomment : "###".toList.isPrefixOf (d :: l) = false :=
        isPrefixOf_eq_false rfl (hne '#' (by decide))
      have hpending : (atStart pendingHead (d :: l)).isSome = false := by
        simp [pendingHead, atStart, many1, not_space_of_isDigit hd]
      have halpha : (d :: l).head?.any Char.isAlpha = false := isAlpha_of_isDigit hd
      rw [scanLine, hsep, hhead, hcomment, hpending, halpha, ← isJobLine, h]
      simp

/-- The other lines change neither the jobs nor the task id. -/
theorem scanLine_of_not_isJobLine {line : Text} (h : isJobLine line = false) (st : Scan) :
    (scanLine st line).jobinfo = st.jobinfo ∧ (scanLine st line).tid = st.tid := by
  have hdigit : ¬ (line.head?.any Char.isDigit = true) := by
    rw [← isJobLine, h]
    exact Bool.false_ne_true
  simp only [scanLine, if_neg hdigit]
  repeat' split
  all_goals exact ⟨rfl, rfl⟩

/-- What a job line does to the slots: its own are added to the total. -/
theorem total_jobLine (st : Scan) (fld : List Text) :
    total (fun v => v.nslots.value) (jobLine st fld).jobinfo =
      total (fun v => v.nslots.value) st.jobinfo + fieldNum fld 7 := by
  have hinsert := total_insert (fun v : JobInfo => v.nslots.value) st.jobinfo (jobKey st.tid fld)
  cases hk : st.jobinfo.lookup (jobKey st.tid fld) with
  | none =>
      have hnew := hinsert (jobInfo st fld st.host (.text (fld.getD 7 [])))
      simp only [hk, Option.elim_none, add_zero] at hnew
      simp only [jobLine, hk, hnew]
      rfl
  | some old =>
      have hsum := hinsert (jobInfo st fld (old.hostlist ++ ',' :: st.host)
        (.num (numify (fld.getD 7 []) + old.nslots.value)))
      simp only [hk, Option.elim_some] at hsum
      have hvalue : (jobInfo st fld (old.hostlist ++ ',' :: st.host)
          (.num (numify (fld.getD 7 []) + old.nslots.value))).nslots.value =
            fieldNum fld 7 + old.nslots.value := rfl
      rw [hvalue, ← add_assoc] at hsum
      simp only [jobLine, hk]
      exact add_right_cancel hsum

/-! ## The listing -/

/-- The slot field of a job line. -/
def slotField (line : Text) : ℚ := fieldNum (splitWs line) 7

/-- Whatever the lines are, the total of the slots has grown by those of the job lines
among them. -/
theorem total_foldl_scanLine (ls : List Text) (st : Scan) :
    total (fun v => v.nslots.value) (ls.foldl scanLine st).jobinfo =
      total (fun v => v.nslots.value) st.jobinfo + ((ls.filter isJobLine).map slotField).sum := by
  induction ls generalizing st with
  | nil => simp
  | cons l ls ih =>
      rw [List.foldl_cons, ih]
      by_cases hl : isJobLine l = true
      · rw [scanLine_of_isJobLine hl, total_jobLine, List.filter_cons_of_pos hl, List.map_cons,
          List.sum_cons, add_assoc]
        rfl
      · have hkeep := scanLine_of_not_isJobLine (Bool.eq_false_iff.mpr hl) st
        rw [hkeep.1, List.filter_cons_of_neg hl]

/-- **Slots.**  Every job is stored under a key of its own, and the slots of all jobs add
up to the slot fields of all job lines: in any listing, for any `$tid` that is found, and
in any order in which the jobs are visited. -/
theorem slots_conserved (shown : ℚ → Text) (walk : Walk Text JobInfo) (tid : Text)
    (dref : Hash Text Text) (listing : Text) :
    ((reported walk tid listing).map Prod.fst).Nodup ∧
    (∀ k v, (k, v) ∈ reported walk tid listing →
      (getdata shown walk tid dref listing).1.lookup k = some (statusText shown k v)) ∧
    ((reported walk tid listing).map fun e => e.2.nslots.value).sum =
      (((lines listing).filter isJobLine).map slotField).sum := by
  have hnodup : ((reported walk tid listing).map Prod.fst).Nodup := walk.nodup _
  refine ⟨hnodup, ?_, ?_⟩
  · intro k v hmem
    have hkeys : (((reported walk tid listing).map fun e =>
        (e.1, statusText shown e.1 e.2)).map Prod.fst).Nodup := by
      rw [List.map_map]
      exact hnodup
    exact (lookup_storeAll hkeys dref).1 k _ (List.mem_map.mpr ⟨(k, v), hmem, rfl⟩)
  · rw [reported, walk.sum_eq (fun v : JobInfo => v.nslots.value), scan, total_foldl_scanLine,
      total_empty, zero_add]

end Memrec.Qstatinfo
