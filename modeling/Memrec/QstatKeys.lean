import Memrec.Qstatinfo

/-!
# The keys of the job lines

A job line says by itself under which key it belongs: the job id, and the task id behind
a dot if a task of an array job is running.  The line of a pending array job has a range
of tasks in the place of the task id, and on that branch the loop does not assign `$tid`.
The key is then made with whatever an earlier line has left there, or an earlier call.

`scan_tid_eq_nil_iff` says what is left, and `attributed_iff` for which listings every
line is recorded under its own key.  Two listings of that kind with the same job lines
report the same keys, whatever was read before them.
-/

namespace Memrec.Qstatinfo

open Perl Hash

/-! ## What a line says -/

/-- `$state =~ m/q/`. -/
def isQueued (line : Text) : Bool := ((splitWs line).getD 4 []).contains 'q'

/-- `$fld[8]`. -/
def taskField (line : Text) : Text := (splitWs line).getD 8 []

/-- The line of an array job with tasks that wait. -/
def pendingArray (line : Text) : Bool :=
  isJobLine line && isQueued line && !(taskField line).isEmpty

/-- The other job lines, which set `$tid`. -/
def setsTask (line : Text) : Bool := isJobLine line && !pendingArray line

/-- The key that a job line belongs under. -/
def ownKey (line : Text) : Text :=
  (splitWs line).getD 0 [] ++
    if isQueued line || (taskField line).isEmpty then [] else '.' :: taskField line

/-- One call, and the order in which it visits the jobs. -/
structure Poll where
  walk : Walk Text JobInfo
  listing : Text

/-- `$tid` after some calls, starting with the program. -/
def tidAfter (history : List Poll) : Text :=
  history.foldl (fun tid p => tidLeft p.walk tid p.listing) []

/-- A call that finds `tid` attributes the job lines to themselves: each is recorded
under its own key, these keys are reported and no others, and the jobs are those that a
fresh process would report. -/
structure Attributed (tid listing : Text) : Prop where
  recorded : ∀ pre l post, lines listing = pre ++ l :: post → isJobLine l = true →
    jobKey (scan tid pre).tid (splitWs l) = ownKey l
  keys : ∀ (walk : Walk Text JobInfo) k, k ∈ (reported walk tid listing).map Prod.fst ↔
    ∃ l ∈ lines listing, isJobLine l = true ∧ ownKey l = k
  fresh : ∀ walk : Walk Text JobInfo, reported walk tid listing = reported walk [] listing

/-- Above every pending array job, the nearest line that sets `$tid` has no task; if
there is none, `$tid` is empty before the call. -/
def NoStaleTask (tid : Text) (ls : List Text) : Prop :=
  ∀ pre l post, ls = pre ++ l :: post → pendingArray l = true →
    (pre.reverse.find? setsTask).elim tid taskField = []

/-! ## One line -/

variable {tid l : Text} {ls : List Text}

theorem scan_snoc (tid : Text) (ls : List Text) (l : Text) :
    scan tid (ls ++ [l]) = scanLine (scan tid ls) l := by
  simp [scan]

theorem task_line (tid l : Text) : (task tid (splitWs l)).1 =
    if taskField l = [] then [] else if isQueued l then tid else '.' :: taskField l := by
  rw [task, ← isQueued, ← taskField]
  by_cases ht : taskField l = []
  · cases hq : isQueued l <;> simp [ht]
  · cases hq : isQueued l <;> simp [ht]

/-- The branch that does not assign `$tid`. -/
theorem task_of_pendingArray (hl : pendingArray l = true) (tid : Text) :
    (task tid (splitWs l)).1 = tid := by
  simp only [pendingArray, Bool.and_eq_true, Bool.not_eq_true', List.isEmpty_eq_false_iff] at hl
  rw [task_line, if_neg hl.2, if_pos hl.1.2]

/-- On the other branches `$tid` comes from the line. -/
theorem task_of_setsTask (hl : setsTask l = true) (tid : Text) :
    (task tid (splitWs l)).1 = if taskField l = [] then [] else '.' :: taskField l := by
  rw [task_line]
  by_cases ht : taskField l = []
  · rw [if_pos ht, if_pos ht]
  · have hq : isQueued l = false := by
      obtain ⟨hjob, hq⟩ : isJobLine l = true ∧ (isJobLine l = false ∨ isQueued l = false) := by
        simpa [setsTask, pendingArray, ht] using hl
      exact hq.resolve_left (by simp [hjob])
    rw [if_neg ht, if_neg ht, hq, if_neg Bool.false_ne_true]

/-- The key of a job line is its own, unless the task id of another line goes into it. -/
theorem jobKey_eq_ownKey_iff (hl : isJobLine l = true) :
    jobKey tid (splitWs l) = ownKey l ↔ (pendingArray l = true → tid = []) := by
  rw [jobKey, ownKey, List.append_cancel_left_eq]
  by_cases hp : pendingArray l = true
  · have hq : isQueued l = true := by
      simp only [pendingArray, Bool.and_eq_true] at hp
      exact hp.1.2
    simp [task_of_pendingArray hp, hq, hp]
  · have hset : setsTask l = true := by simp [setsTask, hl, hp]
    have hown : (if isQueued l || (taskField l).isEmpty then [] else '.' :: taskField l) =
        if taskField l = [] then [] else '.' :: taskField l := by
      by_cases ht : taskField l = []
      · simp [ht]
      · have hq : isQueued l = false := by
          by_contra hq
          simp [pendingArray, hl, ht] at hp
          simp [hp] at hq
        simp [ht, hq]
    rw [task_of_setsTask hset, hown]
    simp [hp]

theorem tid_scanLine (st : Scan) :
    (scanLine st l).tid =
      if setsTask l = true then if taskField l = [] then [] else '.' :: taskField l
      else st.tid := by
  by_cases hl : isJobLine l = true
  · rw [scanLine_of_isJobLine hl]
    by_cases hset : setsTask l = true
    · rw [if_pos hset]
      exact task_of_setsTask hset st.tid
    · rw [if_neg hset]
      refine task_of_pendingArray ?_ st.tid
      simpa [setsTask, hl] using hset
  · rw [(scanLine_of_not_isJobLine (Bool.eq_false_iff.mpr hl) st).2, if_neg]
    simp [setsTask, hl]

/-- **What is left in `$tid`.**  It is empty if the last line that set it had no task, or
if no line has set it and it was empty before. -/
theorem scan_tid_eq_nil_iff (tid : Text) (ls : List Text) :
    (scan tid ls).tid = [] ↔ (ls.reverse.find? setsTask).elim tid taskField = [] := by
  induction ls using List.reverseRecOn with
  | nil => rfl
  | append_singleton ls l ih =>
      rw [scan_snoc, tid_scanLine, List.reverse_append, List.reverse_singleton,
        List.singleton_append]
      by_cases hset : setsTask l = true
      · rw [if_pos hset, List.find?_cons_of_pos hset, Option.elim_some]
        by_cases ht : taskField l = [] <;> simp [ht]
      · rw [if_neg hset, List.find?_cons_of_neg hset, ih]

/-! ## One call -/

theorem recorded_iff (tid : Text) (ls : List Text) :
    (∀ pre l post, ls = pre ++ l :: post → isJobLine l = true →
      jobKey (scan tid pre).tid (splitWs l) = ownKey l) ↔ NoStaleTask tid ls := by
  constructor
  · intro h pre l post hls hp
    have hl : isJobLine l = true := by
      simp only [pendingArray, Bool.and_eq_true] at hp
      exact hp.1.1
    rw [← scan_tid_eq_nil_iff]
    exact (jobKey_eq_ownKey_iff hl).mp (h pre l post hls hl) hp
  · intro h pre l post hls hl
    rw [jobKey_eq_ownKey_iff hl, scan_tid_eq_nil_iff]
    exact h pre l post hls

theorem NoStaleTask.init (h : NoStaleTask tid (ls ++ [l])) : NoStaleTask tid ls := by
  rintro pre m post rfl hp
  exact h pre m (post ++ [l]) (by simp) hp

/-- A fresh process is never worse off. -/
theorem NoStaleTask.fresh (h : NoStaleTask tid ls) : NoStaleTask [] ls := by
  intro pre l post hls hp
  have hsome := h pre l post hls hp
  cases hfind : pre.reverse.find? setsTask with
  | none => rfl
  | some m => rwa [hfind] at hsome

/-- The last line of a listing is recorded under its own key. -/
theorem NoStaleTask.last (h : NoStaleTask tid (ls ++ [l])) (hl : isJobLine l = true) :
    jobKey (scan tid ls).tid (splitWs l) = ownKey l :=
  (recorded_iff tid _).mpr h ls l [] rfl hl

theorem mem_jobinfo_iff (h : NoStaleTask tid ls) (k : Text) :
    k ∈ (scan tid ls).jobinfo ↔ ∃ l ∈ ls, isJobLine l = true ∧ ownKey l = k := by
  induction ls using List.reverseRecOn with
  | nil => simp [scan]
  | append_singleton ls l ih =>
      have ih := ih h.init
      rw [scan_snoc]
      by_cases hl : isJobLine l = true
      · have hmem : k ∈ (jobLine (scan tid ls) (splitWs l)).jobinfo ↔
            k = ownKey l ∨ k ∈ (scan tid ls).jobinfo := by
          rw [← h.last hl]
          exact AList.mem_insert _
        rw [scanLine_of_isJobLine hl, hmem, ih]
        constructor
        · rintro (rfl | ⟨m, hm, hjob, hkey⟩)
          · exact ⟨l, by simp, hl, rfl⟩
          · exact ⟨m, by simp [hm], hjob, hkey⟩
        · rintro ⟨m, hm, hjob, hkey⟩
          rcases List.mem_append.mp hm with hm | hm
          · exact .inr ⟨m, hm, hjob, hkey⟩
          · obtain rfl := List.mem_singleton.mp hm
            exact .inl hkey.symm
      · rw [(scanLine_of_not_isJobLine (Bool.eq_false_iff.mpr hl) _).1, ih]
        constructor
        · rintro ⟨m, hm, hjob⟩
          exact ⟨m, by simp [hm], hjob⟩
        · rintro ⟨m, hm, hjob, hkey⟩
          rcases List.mem_append.mp hm with hm | hm
          · exact ⟨m, hm, hjob, hkey⟩
          · obtain rfl := List.mem_singleton.mp hm
            exact absurd hjob hl

theorem task_range (t t' : Text) (fld : List Text) : (task t fld).2 = (task t' fld).2 := by
  unfold task
  split <;> split <;> rfl

/-- A line reads `$tid` only where it makes a key. -/
theorem scanLine_tid (st : Scan) (t : Text)
    (hkey : isJobLine l = true → jobKey t (splitWs l) = jobKey st.tid (splitWs l)) :
    ∃ u, scanLine { st with tid := t } l = { scanLine st l with tid := u } := by
  by_cases hl : isJobLine l = true
  · refine ⟨(task t (splitWs l)).1, ?_⟩
    rw [scanLine_of_isJobLine hl, scanLine_of_isJobLine hl]
    simp only [jobLine, jobInfo, task_range t st.tid]
    rw [hkey hl]
  · have hdigit : ¬ (l.head?.any Char.isDigit = true) := hl
    simp only [scanLine, if_neg hdigit]
    repeat' split
    all_goals exact ⟨t, rfl⟩

/-- Two calls that find different task ids read the same jobs from the same lines, if
neither of them has a use for what it finds. -/
theorem scan_fresh (h : NoStaleTask tid ls) :
    ∃ u, scan tid ls = { scan [] ls with tid := u } := by
  induction ls using List.reverseRecOn with
  | nil => exact ⟨tid, rfl⟩
  | append_singleton ls l ih =>
      obtain ⟨u, hu⟩ := ih h.init
      have hkey : isJobLine l = true →
          jobKey u (splitWs l) = jobKey (scan [] ls).tid (splitWs l) := by
        intro hl
        have hlast := h.last hl
        rw [hu] at hlast
        rw [h.fresh.last hl, hlast]
      rw [scan_snoc, scan_snoc, hu]
      exact scanLine_tid _ u hkey

/-! ## Calls -/

theorem mem_reported_iff (walk : Walk Text JobInfo) (tid listing k : Text) :
    k ∈ (reported walk tid listing).map Prod.fst ↔ k ∈ (scan tid (lines listing)).jobinfo := by
  rw [reported, ((walk.perm _).map Prod.fst).mem_iff, keys_pairs, AList.mem_keys]

/-- Calls that attribute the same job lines to themselves report the same keys. -/
theorem Attributed.same_keys {tid tid' listing listing' : Text} (h : Attributed tid listing)
    (h' : Attributed tid' listing')
    (hperm : ((lines listing).filter isJobLine).Perm ((lines listing').filter isJobLine))
    (walk walk' : Walk Text JobInfo) (k : Text) :
    k ∈ (reported walk tid listing).map Prod.fst ↔
      k ∈ (reported walk' tid' listing').map Prod.fst := by
  have hfilter : ∀ text, (∃ l ∈ lines text, isJobLine l = true ∧ ownKey l = k) ↔
      ∃ l ∈ (lines text).filter isJobLine, ownKey l = k := by
    intro text
    simp only [List.mem_filter, and_assoc]
  rw [h.keys walk, h'.keys walk', hfilter, hfilter]
  simp only [hperm.mem_iff]

/-- **Keys.**  After any calls, a call attributes every job line to itself exactly when
no pending array job stands in reach of a stale task id.  Two such calls report the same
keys if they read the same job lines, in whatever order and after whatever calls. -/
theorem attributed_iff (history : List Poll) (listing : Text) :
    (Attributed (tidAfter history) listing ↔
      NoStaleTask (tidAfter history) (lines listing)) ∧
    ∀ (history' : List Poll) (listing' : Text), Attributed (tidAfter history) listing →
      Attributed (tidAfter history') listing' →
      ((lines listing).filter isJobLine).Perm ((lines listing').filter isJobLine) →
      ∀ (walk walk' : Walk Text JobInfo) k,
        k ∈ (reported walk (tidAfter history) listing).map Prod.fst ↔
          k ∈ (reported walk' (tidAfter history') listing').map Prod.fst := by
  refine ⟨⟨fun h => (recorded_iff _ _).mp h.recorded, fun h => ?_⟩, ?_⟩
  · refine ⟨(recorded_iff _ _).mpr h, ?_, ?_⟩
    · intro walk k
      rw [mem_reported_iff, mem_jobinfo_iff h]
    · intro walk
      obtain ⟨u, hu⟩ := scan_fresh h
      rw [reported, reported, hu]
  · intro history' listing' h h' hperm walk walk' k
    exact h.same_keys h' hperm walk walk' k

/-- A task runs, and below it an array job waits.  The waiting job is recorded as if it
were task 3 of itself. -/
def staleListing : Text :=
  "7 0.5 a u r 06/25/2013 13:54:29 1 3\n8 0.5 b u qw 06/25/2013 13:54:29 1 1-4:1\n".toList

theorem staleListing_not_attributed : ¬ Attributed (tidAfter []) staleListing := by
  intro h
  have hkey := h.recorded ["7 0.5 a u r 06/25/2013 13:54:29 1 3".toList]
    "8 0.5 b u qw 06/25/2013 13:54:29 1 1-4:1".toList [] (by decide +kernel) (by decide)
  exact absurd hkey (by decide +kernel)

end Memrec.Qstatinfo
