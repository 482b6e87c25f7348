import Memrec.Tracer

/-!
# What a trace line counts

The name of a call is cut out of a line by `s/(\S+)\(.*//`.  The run of characters
before the bracket is greedy and takes brackets as well, so the name ends at the last
bracket of the first stretch without blanks that has one.  That need not be the bracket
of the call: a file name among the arguments may bring its own.

`traceLine_counted_iff` says which lines are counted for the function they call.  It
holds with and without the process id that `-f` puts in front, which has no bracket and
is skipped.
-/

namespace Memrec.Tracer

open Perl Pat

/-- The process id in front of a line, if one is printed. -/
def pidTag : Option Nat → Text
  | none => []
  | some pid => "[pid ".toList ++ decimal pid ++ "] ".toList

/-- The line that the tracer prints for a call of `f` with arguments `a` that returned
`r`. -/
def traceLine (pid : Option Nat) (f a r : Text) : Text :=
  pidTag pid ++ (f ++ '(' :: (a ++ (") = ".toList ++ r)))

/-- After any lines, the line adds one to the count of `f` and nothing to any other. -/
def CountsOnce (env : Env) (f line : Text) : Prop :=
  ∀ before : List Text, (scan env (before ++ [line])).data =
    Function.update (scan env before).data f ((scan env before).data f + 1)

/-! ## Stretches -/

/-- A stretch with a bracket has a last one. -/
theorem exists_last_bracket {s : Text} (h : '(' ∈ s.takeWhile nonSpace) :
    ∃ u v, s = u ++ '(' :: v ∧ (∀ c ∈ u, isSpace c = false) ∧ '(' ∉ v.takeWhile nonSpace := by
  induction s with
  | nil => simp at h
  | cons c s ih =>
      have hc : nonSpace c = true := by
        by_contra hc
        rw [List.takeWhile_cons_of_neg hc] at h
        cases h
      rw [List.takeWhile_cons_of_pos hc] at h
      by_cases hs : '(' ∈ s.takeWhile nonSpace
      · obtain ⟨u, v, rfl, hu, hv⟩ := ih hs
        refine ⟨c :: u, v, rfl, ?_, hv⟩
        intro d hd
        rcases List.mem_cons.mp hd with rfl | hd
        · simpa [nonSpace] using hc
        · exact hu d hd
      · obtain rfl : '(' = c := (List.mem_cons.mp h).resolve_right hs
        exact ⟨[], s, rfl, by simp, hs⟩

/-- What follows the arguments adds no bracket to their stretch. -/
theorem bracket_mem_args_iff (a r : Text) :
    '(' ∈ (a ++ (") = ".toList ++ r)).takeWhile nonSpace ↔ '(' ∈ a.takeWhile nonSpace := by
  induction a with
  | nil => simp [nonSpace, isSpace]
  | cons c a ih =>
      rw [List.cons_append]
      by_cases hc : nonSpace c = true
      · rw [List.takeWhile_cons_of_pos hc, List.takeWhile_cons_of_pos hc, List.mem_cons,
          List.mem_cons, ih]
      · rw [List.takeWhile_cons_of_neg hc, List.takeWhile_cons_of_neg hc]

theorem bracket_notMem_word {w : Text} (hw : '(' ∉ w) (s : Text) :
    '(' ∉ (w ++ ' ' :: s).takeWhile nonSpace := by
  induction w with
  | nil => simp [nonSpace, isSpace]
  | cons c w ih =>
      obtain ⟨hc, hw⟩ := not_or.mp (mt List.mem_cons.mpr hw)
      by_cases hns : nonSpace c = true
      · rw [List.cons_append, List.takeWhile_cons_of_pos hns]
        exact mt List.mem_cons.mp (not_or.mpr ⟨hc, ih hw⟩)
      · rw [List.cons_append, List.takeWhile_cons_of_neg hns]
        exact List.not_mem_nil

/-- No name starts in a stretch without a bracket. -/
theorem callPattern_eq_nil {s : Text} (hs : '(' ∉ s.takeWhile nonSpace) :
    callPattern s = [] := by
  cases s with
  | nil => rfl
  | cons c s =>
      by_cases hc : nonSpace c = true
      · rw [List.takeWhile_cons_of_pos hc, List.mem_cons, not_or] at hs
        have hrest := many_bracket_eq_nil hs.2 fun v => many notNl >>= fun _ =>
          (pure (c :: v) : Pat Text)
        have hspace : isSpace c = false := by simpa [nonSpace] using hc
        simp only [bind_apply, pure_apply] at hrest
        simp only [callPattern, many1, bind_apply, pure_apply, cls_cons, hspace,
          Bool.not_false, if_true, List.flatMap_cons, List.flatMap_nil, List.append_nil,
          List.flatMap_assoc]
        exact hrest
      · have hspace : isSpace c = true := by simpa [nonSpace] using hc
        simp [callPattern, many1, hspace]

/-- Words without brackets are skipped. -/
theorem capture_skip_word {w : Text} (hw : '(' ∉ w) (s : Text) :
    capture callPattern (w ++ ' ' :: s) = capture callPattern s := by
  induction w with
  | nil => exact capture_skip (callPattern_eq_nil (bracket_notMem_word hw s))
  | cons c w ih =>
      have hnil := callPattern_eq_nil (bracket_notMem_word hw s)
      rw [List.cons_append] at hnil ⊢
      rw [capture_skip hnil, ih (mt (List.mem_cons_of_mem c) hw)]

theorem capture_skip_pidTag (pid : Option Nat) (s : Text) :
    capture callPattern (pidTag pid ++ s) = capture callPattern s := by
  cases pid with
  | none => rfl
  | some pid =>
      have hpid : '(' ∉ decimal pid := notMem_decimal (by decide) (by decide) pid
      have hword : '(' ∉ "[pid ".toList ++ decimal pid ++ [']'] := by
        simp [hpid]
      have hsplit : pidTag (some pid) ++ s =
          ("[pid ".toList ++ decimal pid ++ [']']) ++ ' ' :: s := by
        simp [pidTag]
      rw [hsplit, capture_skip_word hword]

/-! ## One line -/

/-- The name that a line is counted under: that of the call, unless the arguments take
a bracket into the stretch where the call stands. -/
theorem capture_traceLine (pid : Option Nat) {f : Text} (hf : IsName f) (a r : Text) :
    ∃ g, capture callPattern (traceLine pid f a r) = some g ∧
      (g = f ↔ '(' ∉ a.takeWhile nonSpace) := by
  rw [traceLine, capture_skip_pidTag]
  by_cases ha : '(' ∈ a.takeWhile nonSpace
  · obtain ⟨u, v, huv, hu, hv⟩ := exists_last_bracket ((bracket_mem_args_iff a r).mpr ha)
    have hname : IsName (f ++ '(' :: u) := by
      refine ⟨by simp, ?_⟩
      intro c hc
      rcases List.mem_append.mp hc with hc | hc
      · exact hf.2 c hc
      · rcases List.mem_cons.mp hc with rfl | hc
        · decide
        · exact hu c hc
    have hlast := capture_stretch hname hv
    rw [List.append_assoc, List.cons_append, ← huv] at hlast
    refine ⟨_, hlast, ?_⟩
    simp [ha]
  · refine ⟨f, capture_stretch hf (mt (bracket_mem_args_iff a r).mp ha), ?_⟩
    simp [ha]

/-- A line counts for what it captures, whatever stood before it. -/
theorem countsOnce_iff (env : Env) {f g line : Text} (hf : f ∈ env.funcs)
    (hg : capture callPattern line = some g) : CountsOnce env f line ↔ g = f := by
  have hstep : ∀ before x, (scan env (before ++ [line])).data x =
      (scan env before).data x + if x ∈ env.funcs ∧ g = x then 1 else 0 := by
    intro before x
    rw [scan, List.foldl_append, List.foldl_cons, List.foldl_nil, scanLine_data, matchLine, hg]
    rfl
  constructor
  · intro h
    have hone := congrFun (h []) f
    rw [hstep, Function.update_self] at hone
    by_contra hne
    simp [hne] at hone
  · rintro rfl before
    funext x
    rw [hstep]
    by_cases hx : x = g
    · simp [hx, hf]
    · simp [Function.update_of_ne hx, Ne.symm hx]

/-- **Trace lines.**  The line of a call is counted once, for the function it calls and
for no other, exactly when no bracket stands in the arguments before their first
blank. -/
theorem traceLine_counted_iff (env : Env) {f : Text} (hf : f ∈ env.funcs) (hname : IsName f)
    (pid : Option Nat) (a r : Text) :
    CountsOnce env f (traceLine pid f a r) ↔ '(' ∉ a.takeWhile nonSpace := by
  obtain ⟨g, hg, hiff⟩ := capture_traceLine pid hname a r
  rw [countsOnce_iff env hf hg, hiff]

theorem traceLine_counted_iff_open :
    CountsOnce ⟨ltraceFuncs, none, by decide⟩ "fopen".toList
      (traceLine (some 314) "fopen".toList "\"a (copy)\", \"r\"".toList "0x51c0".toList) ↔
    '(' ∉ ("\"a (copy)\", \"r\"".toList).takeWhile nonSpace :=
  traceLine_counted_iff ⟨ltraceFuncs, none, by decide⟩ (by decide)
    ⟨by decide, by simp [isSpace]⟩ (some 314) _ _

/-- A file name with a bracket in it hides the call that opens the file. -/
theorem fopen_with_bracket_not_counted :
    ¬ CountsOnce ⟨ltraceFuncs, none, by decide⟩ "fopen".toList
      (traceLine none "fopen".toList "\"foo(1).txt\", \"r\"".toList "0x51c0".toList) := by
  intro h
  have hone := congrFun (h []) "fopen".toList
  exact absurd hone (by decide)

end Memrec.Tracer
