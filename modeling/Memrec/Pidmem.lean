import Mathlib.Data.List.Infix
import Memrec.Tally
import Memrec.Topwatch

/-!
# The memory of a process

`pidmem` reads `/proc/$pid/status` line by line, and adds the sizes and the
number of threads to the data hash.

The loop does not ask whether a line has matched: on a line that has not, `$1`
and `$2` are what an earlier match has left there, or undefined.  `getdata_eq`
says that this makes no difference, for any file at all: a line that is counted
is followed by a match without groups, so what is left is never counted again.
So every line makes its own contribution, and each entry gets the sum of those
that have its key (`getdata_totals`).
-/

namespace Memrec.Pidmem

open Perl Pat Hash

/-! ## The module -/

/-- `m/(.*?)\:\s+(.*)/`. -/
def fieldPattern : Pat (Text × Text) := do
  let x ← lazily notNl
  lit [':']
  let _ ← many1 isSpace
  let y ← many notNl
  pure (x, y)

/-- `m/\s*(.*?)\s(.*)/`. -/
def sizePattern : Pat (Text × Text) := do
  let _ ← many isSpace
  let v ← lazily notNl
  let _ ← cls isSpace
  let m ← many notNl
  pure (v, m)

/-- `($x =~ m/^Vm/) or ($x =~ m/^StaStk/) or ($x =~ m/Brk/)`. -/
def isSize (x : Text) : Bool :=
  "Vm".toList.isPrefixOf x || "StaStk".toList.isPrefixOf x || decide ("Brk".toList <:+: x)

/-- `$x =~ m/^SleepAVG/`. -/
def isSleepAvg (x : Text) : Bool := "SleepAVG".toList.isPrefixOf x

/-- `$x =~ m/^Threads/`. -/
def isThreads (x : Text) : Bool := "Threads".toList.isPrefixOf x

/-- `convert_to_bytes( $1, $2 )` after `$y =~ m/\s*(.*?)\s(.*)/`.  Without a match, `$1`
and `$2` are those of the match before, which has no groups. -/
def sizeOf (y : Text) : ℚ :=
  let vm := (capture sizePattern y).getD ([], [])
  Topwatch.convertToBytes (numify vm.1) vm.2

/-- What the loop carries: `$1` and `$2`, empty if they are undefined, and `$dref`. -/
structure Loop where
  cap : Text × Text
  dref : Hash Text Scalar

/-- The body of the loop. -/
def readLine (st : Loop) (line : Text) : Loop :=
  let cap := (capture fieldPattern (chomp line)).getD st.cap
  if isSize cap.1 then ⟨([], []), addTo st.dref (cap.1, sizeOf cap.2)⟩
  else if isSleepAvg cap.1 then ⟨([], []), addTo st.dref (cap.1, numify cap.2)⟩
  else if isThreads cap.1 then ⟨([], []), addTo st.dref (cap.1, numify cap.2)⟩
  else ⟨cap, st.dref⟩

/-- `getdata`: the data hash afterwards. -/
def getdata (dref : Hash Text Scalar) (status : Text) : Hash Text Scalar :=
  ((readlines status).foldl readLine ⟨([], []), dref⟩).dref

/-! ## One line, one contribution -/

/-- The keys that are counted. -/
def isCounted (x : Text) : Bool := isSize x || isSleepAvg x || isThreads x

/-- What a key and its value contribute. -/
def contributionOf (cap : Text × Text) : Option (Text × ℚ) :=
  if isSize cap.1 then some (cap.1, sizeOf cap.2)
  else if isSleepAvg cap.1 || isThreads cap.1 then some (cap.1, numify cap.2)
  else none

/-- What a line contributes, by itself. -/
def contribution (line : Text) : Option (Text × ℚ) :=
  (capture fieldPattern (chomp line)).bind contributionOf

theorem readLine_dref (st : Loop) (line : Text) :
    (readLine st line).dref =
      addAll st.dref
        (contributionOf ((capture fieldPattern (chomp line)).getD st.cap)).toList := by
  unfold readLine contributionOf
  dsimp only
  generalize (capture fieldPattern (chomp line)).getD st.cap = cap
  cases hsize : isSize cap.1 <;> cases hsleep : isSleepAvg cap.1 <;>
    cases hthreads : isThreads cap.1 <;> rfl

/-- What is left in `$1` is not counted. -/
theorem readLine_cap (st : Loop) (line : Text) : isCounted (readLine st line).cap.1 = false := by
  unfold readLine
  dsimp only
  generalize (capture fieldPattern (chomp line)).getD st.cap = cap
  cases hsize : isSize cap.1 with
  | true => rfl
  | false =>
      cases hsleep : isSleepAvg cap.1 with
      | true => rfl
      | false =>
          cases hthreads : isThreads cap.1 with
          | true => rfl
          | false => simp [isCounted, hsize, hsleep, hthreads]

theorem contributionOf_of_not_counted {cap : Text × Text} (h : isCounted cap.1 = false) :
    contributionOf cap = none := by
  unfold isCounted at h
  unfold contributionOf
  simp_all

theorem contributionOf_size {key : Text} (h : isSize key) (y : Text) :
    contributionOf (key, y) = some (key, sizeOf y) :=
  if_pos h

theorem contributionOf_count {key : Text} (hsize : ¬ isSize key) (h : isCounted key) (y : Text) :
    contributionOf (key, y) = some (key, numify y) := by
  have hcounted : isSleepAvg key || isThreads key := by
    unfold isCounted at h
    simpa [hsize] using h
  exact (if_neg hsize).trans (if_pos hcounted)

/-- A line that does not match contributes nothing, whatever `$1` holds. -/
theorem contributionOf_getD {cap : Text × Text} (h : isCounted cap.1 = false) (line : Text) :
    contributionOf ((capture fieldPattern (chomp line)).getD cap) = contribution line := by
  unfold contribution
  cases capture fieldPattern (chomp line) with
  | none => exact contributionOf_of_not_counted h
  | some found => rfl

/-- **Stale captures make no difference.** -/
theorem getdata_eq (dref : Hash Text Scalar) (status : Text) :
    getdata dref status = addAll dref ((readlines status).filterMap contribution) := by
  have hloop : ∀ (lines : List Text) (st : Loop), isCounted st.cap.1 = false →
      (lines.foldl readLine st).dref = addAll st.dref (lines.filterMap contribution) := by
    intro lines
    induction lines with
    | nil => exact fun st _ => rfl
    | cons line lines ih =>
        intro st hst
        have hdref := readLine_dref st line
        rw [contributionOf_getD hst] at hdref
        rw [List.foldl_cons, ih _ (readLine_cap st line), hdref, List.filterMap_cons]
        cases contribution line <;> rfl
  exact hloop _ _ rfl

/-- **Totals.**  Whatever stands in the file, an entry is increased by the contributions of
the lines that have its key, in any order, and an entry without a contribution is left
alone. -/
theorem getdata_totals (dref : Hash Text Scalar) (status : Text) (k : Text) :
    let es := (readlines status).filterMap contribution
    (k ∈ es.map Prod.fst →
      (getdata dref status).lookup k = some (.num (valueAt dref k + share es k))) ∧
    (k ∉ es.map Prod.fst → (getdata dref status).lookup k = dref.lookup k) := by
  intro es
  rw [getdata_eq]
  exact ⟨fun hk => lookup_addAll_of_mem hk dref, fun hk => lookup_addAll_of_notMem hk dref⟩

/-! ## The file of the kernel -/

/-- A name that stands in front of a colon. -/
def IsName (key : Text) : Prop := ':' ∉ key ∧ '\n' ∉ key

instance : DecidablePred IsName := fun _ => inferInstanceAs (Decidable (_ ∧ _))

/-- A line of the status file, by what it says. -/
inductive Field
  /-- A size, in kilobytes. -/
  | size (key : Text) (pad kb : Nat) (hname : IsName key) (hsize : isSize key)
  /-- A number. -/
  | count (key : Text) (n : Nat) (hname : IsName key) (hsize : ¬ isSize key)
      (hcount : isCounted key)
  /-- Anything else, such as the name of the program. -/
  | other (key value : Text) (hname : IsName key) (hvalue : '\n' ∉ value) (hother : ¬ isCounted key)

namespace Field

/-- The key of a line. -/
def key : Field → Text
  | size key .. => key
  | count key .. => key
  | other key .. => key

/-- What stands behind the colon and the tab. -/
def value : Field → Text
  | size _ pad kb .. => List.replicate pad ' ' ++ (decimal kb ++ " kB".toList)
  | count _ n .. => decimal n
  | other _ value .. => value

/-- The line, without its end. -/
def line (f : Field) : Text := f.key ++ ':' :: '\t' :: f.value

/-- What the line says, in bytes if it is a size. -/
def entry : Field → Option (Text × ℚ)
  | size key _ kb .. => some (key, kb * 1024)
  | count key n .. => some (key, n)
  | other .. => none

/-- The number in it. -/
def amount : Field → ℕ
  | size _ _ kb .. => kb * 1024
  | count _ n .. => n
  | other .. => 0

theorem entry_eq {f : Field} {e : Text × ℚ} (h : f.entry = some e) :
    e = (f.key, (f.amount : ℚ)) := by
  cases f with
  | size key pad kb hname hsize =>
      rw [← Option.some_inj, ← h]
      simp [entry, Field.key, amount]
  | count key n hname hsize hcount => exact (Option.some_inj.mp h).symm
  | other key value hname hvalue hother => cases h

theorem share_entries (fields : List Field) (k : Text) :
    share (fields.filterMap entry) k =
      (((fields.filter fun f => f.key = k).map amount).sum : ℕ) := by
  induction fields with
  | nil => rfl
  | cons f fields ih =>
      have hentry : share f.entry.toList k = if f.key = k then (f.amount : ℚ) else 0 := by
        cases he : f.entry with
        | none =>
            have hzero : f.amount = 0 := by
              cases f with
              | size | count => cases he
              | other => rfl
            simp [hzero]
        | some e =>
            rw [entry_eq he, Option.toList_some, share_cons, share_nil, add_zero]
      have hcons : (f :: fields).filterMap entry = f.entry.toList ++ fields.filterMap entry := by
        rw [List.filterMap_cons]
        cases f.entry <;> rfl
      rw [hcons, share_append, hentry, ih]
      by_cases hk : f.key = k
      · rw [if_pos hk, List.filter_cons_of_pos (by simpa using hk), List.map_cons, List.sum_cons,
          Nat.cast_add]
      · rw [if_neg hk, List.filter_cons_of_neg (by simpa using hk), zero_add]

theorem isName_key (f : Field) : IsName f.key := by
  cases f <;> assumption

theorem newline_notMem_value (f : Field) : '\n' ∉ f.value := by
  cases f with
  | size key pad kb hname hsize =>
      have hdec : '\n' ∉ decimal kb := notMem_decimal rfl (by decide) kb
      unfold value
      simp only [List.mem_append, not_or]
      exact ⟨fun h => absurd (List.eq_of_mem_replicate h) (by decide), hdec, by decide⟩
  | count key n hname hsize hcount => exact notMem_decimal rfl (by decide) n
  | other key value hname hvalue hother => exact hvalue

theorem newline_notMem_line (f : Field) : '\n' ∉ f.line := by
  unfold line
  simp only [List.mem_append, List.mem_cons, not_or]
  exact ⟨f.isName_key.2, by decide, by decide, f.newline_notMem_value⟩

/-- The key is what stands in front of the first colon, whatever is in the value. -/
theorem capture_line (f : Field) :
    capture fieldPattern f.line = some (f.key, f.value.dropWhile isSpace) := by
  have hvalue : ∀ c ∈ f.value.dropWhile isSpace, notNl c := by
    intro c hc
    have hne : c ≠ '\n' := fun h => f.newline_notMem_value (h ▸ (List.dropWhile_sublist _).mem hc)
    simpa [notNl] using hne
  have hname : ∀ c ∈ f.key, notNl c := by
    intro c hc
    have hne : c ≠ '\n' := fun h => f.isName_key.2 (h ▸ hc)
    simpa [notNl] using hne
  refine capture_here (r := ((f.key, f.value.dropWhile isSpace), [])) ?_
  apply head?_bind_lazily_first hname
  · rw [bind_apply, show lit [':'] (':' :: '\t' :: f.value) = [((), '\t' :: f.value)] from
      lit_append [':'] _, List.flatMap_singleton]
    apply head?_bind_many1_of (by decide)
    rw [head?_bind_many, List.takeWhile_eq_self_iff.mpr hvalue,
      List.dropWhile_eq_nil_iff.mpr hvalue]
  · intro u₁ u₂ hsplit hne
    obtain ⟨c, u₂, rfl⟩ := List.exists_cons_of_ne_nil hne
    have hc : ':' ≠ c := by
      intro h
      apply f.isName_key.1
      rw [hsplit, h]
      simp
    rw [bind_apply, lit_eq_nil]
    · rfl
    · rw [List.cons_append, List.cons_prefix_cons]
      exact fun h => hc h.1

/-- A number behind a stretch of blanks. -/
theorem dropWhile_pad (pad n : Nat) (s : Text) :
    (List.replicate pad ' ' ++ (decimal n ++ s)).dropWhile isSpace = decimal n ++ s := by
  have hblank : ∀ c ∈ List.replicate pad ' ', isSpace c = true := by
    intro c hc
    rw [List.eq_of_mem_replicate hc]
    rfl
  obtain ⟨d, ds, hd⟩ := List.exists_cons_of_ne_nil (decimal_ne_nil n)
  have hfirst : isSpace d = false := decimal_not_space n d (by simp [hd])
  rw [List.dropWhile_append_of_pos hblank, hd, List.cons_append,
    List.dropWhile_cons_of_neg (by simp [hfirst])]

theorem capture_size (kb : Nat) :
    capture sizePattern (decimal kb ++ " kB".toList) = some (decimal kb, "kB".toList) := by
  have hspace := decimal_not_space kb
  have hline : ∀ c ∈ decimal kb, notNl c := by
    intro c hc
    have hne : c ≠ '\n' := fun h => by
      have := hspace c hc
      rw [h] at this
      cases this
    simpa [notNl] using hne
  have hdrop := dropWhile_pad 0 kb " kB".toList
  rw [List.replicate_zero, List.nil_append] at hdrop
  refine capture_here (r := ((decimal kb, "kB".toList), [])) ?_
  apply head?_bind_many_of
  rw [hdrop]
  apply head?_bind_lazily_first hline
  · exact rfl
  · intro u₁ u₂ hsplit hne
    obtain ⟨c, u₂, rfl⟩ := List.exists_cons_of_ne_nil hne
    have hc : isSpace c = false := hspace c (by simp [hsplit])
    rw [List.cons_append, bind_apply, cls_cons, if_neg (by simp [hc])]
    rfl

/-- A line says what is added. -/
theorem contribution_line (f : Field) : contribution (f.line ++ ['\n']) = f.entry := by
  unfold contribution
  rw [chomp_line, f.capture_line, Option.bind_some]
  cases f with
  | size key pad kb hname hsize =>
      have hsizeOf : sizeOf (decimal kb ++ " kB".toList) = kb * 1024 := by
        rw [sizeOf, capture_size, Option.getD_some, numify_decimal]
        rfl
      have hdrop := dropWhile_pad pad kb " kB".toList
      refine (contributionOf_size hsize _).trans ?_
      rw [value, hdrop, hsizeOf]
      rfl
  | count key n hname hsize hcount =>
      have hdrop := dropWhile_pad 0 n []
      rw [List.replicate_zero, List.nil_append, List.append_nil] at hdrop
      refine (contributionOf_count hsize hcount _).trans ?_
      rw [value, hdrop, numify_decimal]
      rfl
  | other key value hname hvalue hother =>
      apply contributionOf_of_not_counted
      simpa [Field.key] using hother

end Field

/-- The status file of a process. -/
def statusFile (fields : List Field) : Text := fields.flatMap fun f => f.line ++ ['\n']

/-- What a status file says. -/
theorem contributions_statusFile (fields : List Field) :
    (readlines (statusFile fields)).filterMap contribution = fields.filterMap Field.entry := by
  have hlines : readlines (statusFile fields) = (fields.map Field.line).map (· ++ ['\n']) := by
    rw [← readlines_unlines, List.flatMap_map]
    · rfl
    · intro l hl
      obtain ⟨f, -, rfl⟩ := List.mem_map.mp hl
      exact f.newline_notMem_line
  rw [hlines, List.map_map, List.filterMap_map]
  apply List.filterMap_congr
  intro f _
  exact f.contribution_line

end Memrec.Pidmem
