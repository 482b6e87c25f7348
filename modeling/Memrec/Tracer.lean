import Memrec.Pattern

/-!
# Counted calls of a traced program

`strace.pm` and `ltrace.pm` read what the tracer has printed since the last poll, cut it
into lines, and count for every function in `%funcs` the lines that start a call of it.
The two `getdata` are the same but for the functions they count.

A poll ends when nothing arrives for a tenth of a second, so that the stream may be cut
anywhere, and nothing of an incomplete line is kept for the next poll.
`totals_cut_iff` says for which streams the totals do not depend on the cuts, and for
which cuts they are those of the whole stream.
-/

namespace Memrec.Tracer

open Perl Pat

/-! ## The module -/

/-- What a call of `getdata` finds besides the stream: `%funcs`, and the `$1` of its
caller, which it reads as long as its own expression has not matched.  No driver
captures anything before its main loop, so there `$1` is undefined. -/
structure Env where
  funcs : List Text
  caller : Option Text
  untraced : caller.getD [] ∉ funcs

/-- `%all_funcs` of `ltrace.pm`. -/
def ltraceFuncs : List Text :=
  ["printf", "malloc", "free", "fopen", "fclose", "fwrite", "fread"].map String.toList

/-- `m/(\S+)\(.*/`. -/
def callPattern : Pat Text := do
  let w ← many1 fun c => !isSpace c
  lit ['(']
  let _ ← many notNl
  pure w

/-- The variables of the loop: `$1` and `%data`. -/
structure Scan where
  match1 : Option Text
  data : Text → Nat

/-- `$1` after a line.  A match that fails leaves it alone. -/
def matchLine (match1 : Option Text) (line : Text) : Option Text :=
  (capture callPattern line).or match1

/-- The body of the loop. -/
def scanLine (funcs : List Text) (st : Scan) (line : Text) : Scan :=
  let fcn := (matchLine st.match1 line).getD []
  { match1 := matchLine st.match1 line
    data := if fcn ∈ funcs then Function.update st.data fcn (st.data fcn + 1) else st.data }

/-- The loop. -/
def scan (env : Env) (lines : List Text) : Scan :=
  lines.foldl (scanLine env.funcs) ⟨env.caller, fun _ => 0⟩

/-- `getdata`, on the text that it has read. -/
def getdata (env : Env) (text : Text) : List (Text × Nat) :=
  env.funcs.map fun x => (x, (scan env (splitChar '\n' text)).data x)

/-- The total of a function over several calls. -/
def total (env : Env) (texts : List Text) (f : Text) : Nat :=
  (texts.map fun text => ((getdata env text).lookup f).getD 0).sum

/-! ## One line -/

/-- A name that the expression can capture. -/
def IsName (f : Text) : Prop := f ≠ [] ∧ ∀ c ∈ f, isSpace c = false

/-- What is captured stands before a bracket. -/
theorem name_of_capture {line f : Text} (h : capture callPattern line = some f) :
    IsName f ∧ f ++ ['('] <:+: line := by
  obtain ⟨t, r, ht, hmem⟩ := exists_suffix_of_capture h
  simp only [callPattern, many1, bind_apply, pure_apply, List.mem_flatMap] at hmem
  obtain ⟨⟨w, r₁⟩, ⟨⟨c, r₂⟩, hc, ⟨v, r₃⟩, hv, hw⟩, ⟨⟨⟩, r₄⟩, hbracket, ⟨u, r₅⟩, -, hf⟩ := hmem
  obtain ⟨rfl, rfl⟩ : w = c :: v ∧ r₁ = r₃ := by simpa using hw
  obtain ⟨rfl, -⟩ : f = c :: v ∧ r = r₅ := by simpa using hf
  cases t with
  | nil => simp [cls] at hc
  | cons d t =>
      obtain ⟨hd, rfl, rfl⟩ : isSpace d = false ∧ c = d ∧ r₂ = t := by simpa using hc
      obtain ⟨rfl, hall⟩ := mem_many hv
      refine ⟨⟨by simp, ?_⟩, ?_⟩
      · intro e he
        rcases List.mem_cons.mp he with rfl | he
        · exact hd
        · simpa using hall e he
      · cases r₁ with
        | nil => simp [lit] at hbracket
        | cons b r₁ =>
            obtain ⟨rfl, -⟩ : '(' = b ∧ r₄ = r₁ := by simpa [lit] using hbracket
            have hhead : (c :: v) ++ ['('] <+: c :: (v ++ '(' :: r₁) := ⟨r₁, by simp⟩
            exact hhead.isInfix.trans ht.isInfix

/-- The characters that `\S` stands for. -/
def nonSpace (c : Char) : Bool := !isSpace c

/-- A bracket that follows a run without blanks lies in the stretch at the head. -/
theorem bracket_mem_stretch {w r : Text} (hw : ∀ c ∈ w, nonSpace c) :
    '(' ∈ (w ++ '(' :: r).takeWhile nonSpace := by
  induction w with
  | nil => simp [nonSpace, isSpace]
  | cons c w ih =>
      rw [List.cons_append, List.takeWhile_cons_of_pos (hw c (by simp))]
      exact List.mem_cons_of_mem _ (ih fun d hd => hw d (by simp [hd]))

/-- Without a bracket in the stretch there is nothing that a run could stop at. -/
theorem many_bracket_eq_nil {α : Type} {s : Text} (hs : '(' ∉ s.takeWhile nonSpace)
    (k : Text → Pat α) :
    (many nonSpace >>= fun v => lit ['('] >>= fun _ => k v) s = [] := by
  refine List.eq_nil_iff_forall_not_mem.mpr ?_
  intro x hx
  simp only [bind_apply, List.mem_flatMap] at hx
  obtain ⟨⟨v, r⟩, hv, y, hy, -⟩ := hx
  obtain ⟨rfl, hall⟩ := mem_many hv
  have hr : r = '(' :: y.2 := mem_lit hy
  rw [hr] at hs
  exact hs (bracket_mem_stretch hall)

/-- A run of name characters takes every bracket of its stretch but the last. -/
theorem head?_many_bracket {u s : Text} (hu : ∀ c ∈ u, isSpace c = false)
    (hs : '(' ∉ s.takeWhile nonSpace) (g : Text → Text) :
    ((many nonSpace >>= fun v => lit ['('] >>= fun _ => many notNl >>= fun _ =>
      (pure (g v) : Pat Text)) (u ++ '(' :: s)).head? = some (g u, s.dropWhile notNl) := by
  induction u generalizing g with
  | nil =>
      have hlong := many_bracket_eq_nil hs fun v => many notNl >>= fun _ =>
        (pure (g ('(' :: v)) : Pat Text)
      have hbracket : nonSpace '(' = true := by decide
      have hrest := head?_bind_many (p := notNl) (f := fun _ => g []) s
      simp only [bind_apply, pure_apply] at hlong hrest ⊢
      simp only [List.nil_append, many, hbracket, if_true, List.flatMap_append, List.flatMap_map,
        hlong]
      simpa [lit] using hrest
  | cons c u ih =>
      have hc : nonSpace c = true := by simp [nonSpace, hu c (by simp)]
      have ih := ih (fun d hd => hu d (by simp [hd])) (fun v => g (c :: v))
      simp only [bind_apply, pure_apply] at ih ⊢
      simp only [List.cons_append, many, hc, if_true, List.flatMap_append,
        List.flatMap_map, List.head?_append, ih, Option.some_or]

/-- The name that is captured ends at the last bracket of its stretch. -/
theorem capture_stretch {f s : Text} (hf : IsName f) (hs : '(' ∉ s.takeWhile nonSpace) :
    capture callPattern (f ++ '(' :: s) = some f := by
  obtain ⟨hne, hname⟩ := hf
  obtain ⟨c, w, rfl⟩ := List.exists_cons_of_ne_nil hne
  have hhead := head?_many_bracket (u := w) (fun d hd => hname d (by simp [hd])) hs (c :: ·)
  refine capture_here (r := (c :: w, s.dropWhile notNl)) ?_
  rw [← hhead]
  have hc := hname c (by simp)
  simp only [callPattern, many1, bind_apply, pure_apply, List.cons_append, cls_cons, hc,
    Bool.not_false, if_true, List.flatMap_cons, List.flatMap_nil, List.append_nil,
    List.flatMap_assoc]
  rfl

/-- A name with nothing but a bracket after it is captured. -/
theorem capture_call {f : Text} (hf : IsName f) : capture callPattern (f ++ ['(']) = some f :=
  capture_stretch hf (by simp)

/-! ## One call -/

variable {env : Env} {f : Text}

theorem scanLine_data (funcs : List Text) (st : Scan) (l x : Text) :
    (scanLine funcs st l).data x =
      st.data x + if x ∈ funcs ∧ (matchLine st.match1 l).getD [] = x then 1 else 0 := by
  simp only [scanLine]
  generalize (matchLine st.match1 l).getD [] = fcn
  by_cases hf : fcn ∈ funcs
  · by_cases hx : x = fcn
    · simp [hx, hf]
    · simp [hf, Function.update_of_ne hx, Ne.symm hx]
  · have hnot : ¬ (x ∈ funcs ∧ fcn = x) := fun h => hf (h.2 ▸ h.1)
    simp [hf, hnot]

/-- What is counted before adds to what is counted after. -/
theorem foldl_scanLine (funcs lines : List Text) (st : Scan) (x : Text) :
    (lines.foldl (scanLine funcs) st).data x =
      st.data x + (lines.foldl (scanLine funcs) ⟨st.match1, fun _ => 0⟩).data x := by
  induction lines generalizing st with
  | nil => rfl
  | cons l lines ih =>
      rw [List.foldl_cons, List.foldl_cons, ih, ih (scanLine funcs ⟨st.match1, _⟩ l),
        scanLine_data, scanLine_data]
      simp only [scanLine]
      omega

/-- A function that no line captures is not counted. -/
theorem data_eq_zero {lines : List Text}
    (h : f ∈ env.funcs → ∀ l ∈ lines, capture callPattern l ≠ some f) :
    (scan env lines).data f = 0 := by
  have hmain : ∀ st : Scan, (f ∈ env.funcs → st.match1.getD [] ≠ f) →
      (lines.foldl (scanLine env.funcs) st).data f = st.data f := by
    induction lines with
    | nil => intro st _; rfl
    | cons l lines ih =>
        intro st hst
        have hline : f ∈ env.funcs → (matchLine st.match1 l).getD [] ≠ f := by
          intro hf
          have hl := h hf l (by simp)
          cases hc : capture callPattern l with
          | none => simpa [matchLine, hc] using hst hf
          | some w =>
              rw [hc] at hl
              simpa [matchLine, hc] using hl
        have hnot : ¬ (f ∈ env.funcs ∧ (matchLine st.match1 l).getD [] = f) :=
          fun hcount => hline hcount.1 hcount.2
        rw [List.foldl_cons, ih (fun hf m hm => h hf m (by simp [hm])) _ hline, scanLine_data,
          if_neg hnot, Nat.add_zero]
  refine hmain _ ?_
  intro hf heq
  exact env.untraced (heq ▸ hf)

theorem lookup_getdata (text : Text) :
    ((getdata env text).lookup f).getD 0 = (scan env (splitChar '\n' text)).data f := by
  rw [getdata, lookup_map_graph]
  by_cases hf : f ∈ env.funcs
  · simp [hf]
  · have hzero : (scan env (splitChar '\n' text)).data f = 0 :=
      data_eq_zero fun h => absurd h hf
    simp [hf, hzero]

/-- A text in which no bracket follows the name of the function counts nothing for
it. -/
theorem lookup_eq_zero {text : Text}
    (h : f ∈ env.funcs → IsName f → ¬ f ++ ['('] <:+: text) :
    ((getdata env text).lookup f).getD 0 = 0 := by
  rw [lookup_getdata]
  refine data_eq_zero ?_
  intro hf l hl hcap
  obtain ⟨hname, hpart⟩ := name_of_capture hcap
  exact h hf hname (hpart.trans (infix_of_mem_splitChar hl))

theorem lookup_call (hf : f ∈ env.funcs) (hname : IsName f) :
    ((getdata env (f ++ ['('])).lookup f).getD 0 = 1 := by
  have hnl : '\n' ∉ f ++ ['('] := by
    intro h
    rcases List.mem_append.mp h with h | h
    · have := hname.2 _ h
      simp [isSpace] at this
    · simp at h
  have hlines : splitChar '\n' (f ++ ['(']) = [f ++ ['(']] := splitChar_of_notMem (by simp) hnl
  rw [lookup_getdata, hlines]
  simp [scan, scanLine, matchLine, capture_call hname, hf]

/-! ## The cuts -/

/-- No traced name stands before a bracket. -/
def NoCall (env : Env) (stream : Text) : Prop :=
  ∀ f ∈ env.funcs, IsName f → ¬ f ++ ['('] <:+: stream

/-- Complete lines, the first of which starts a call and the last of which is not
empty. -/
structure WholeLines (ls : List Text) : Prop where
  line : ∀ l ∈ ls, '\n' ∉ l
  first : ∀ l ∈ ls.head?, (capture callPattern l).isSome
  last : ∀ l ∈ ls.getLast?, l ≠ []

theorem WholeLines.append {ls ms : List Text} (hl : WholeLines ls) (hm : WholeLines ms) :
    WholeLines (ls ++ ms) := by
  refine ⟨?_, ?_, ?_⟩
  · intro l h
    rcases List.mem_append.mp h with h | h
    · exact hl.line l h
    · exact hm.line l h
  · intro l h
    cases hls : ls.head? with
    | none => exact hm.first l (by simpa [List.head?_append, hls] using h)
    | some k =>
        obtain rfl : k = l := by simpa [List.head?_append, hls] using h
        exact hl.first k hls
  · intro l h
    cases hms : ms.getLast? with
    | none => exact hl.last l (by simpa [List.getLast?_append, hms] using h)
    | some k =>
        obtain rfl : k = l := by simpa [List.getLast?_append, hms] using h
        exact hm.last k hms

/-- Lines that start with a call do not read the `$1` that they find. -/
theorem foldl_scanLine_of_first {funcs lines : List Text} (m m' : Option Text)
    (h : ∀ l ∈ lines.head?, (capture callPattern l).isSome) (x : Text) :
    (lines.foldl (scanLine funcs) ⟨m, fun _ => 0⟩).data x =
      (lines.foldl (scanLine funcs) ⟨m', fun _ => 0⟩).data x := by
  cases lines with
  | nil => rfl
  | cons l lines =>
      obtain ⟨w, hw⟩ := Option.isSome_iff_exists.mp (h l rfl)
      simp [scanLine, matchLine, hw]

theorem scan_append {ls ms : List Text} (hm : WholeLines ms) (x : Text) :
    (scan env (ls ++ ms)).data x = (scan env ls).data x + (scan env ms).data x := by
  rw [scan, List.foldl_append]
  rw [foldl_scanLine, foldl_scanLine_of_first _ env.caller hm.first]
  rfl

/-- **Whole lines.**  Pieces of whole lines count what their concatenation counts. -/
theorem total_of_wholeLines {pieces : List (List Text)} (h : ∀ ls ∈ pieces, WholeLines ls)
    (x : Text) :
    total env (pieces.map fun ls => ls.flatMap (· ++ ['\n'])) x =
      total env [(pieces.map fun ls => ls.flatMap (· ++ ['\n'])).flatten] x := by
  have hpiece : ∀ ls, WholeLines ls →
      ((getdata env (ls.flatMap (· ++ ['\n']))).lookup x).getD 0 = (scan env ls).data x := by
    intro ls hls
    rw [lookup_getdata, splitChar_unlines hls.line hls.last]
  have hmain : WholeLines pieces.flatten ∧
      total env (pieces.map fun ls => ls.flatMap (· ++ ['\n'])) x =
        (scan env pieces.flatten).data x := by
    induction pieces with
    | nil => exact ⟨⟨by simp, by simp, by simp⟩, rfl⟩
    | cons ls pieces ih =>
        obtain ⟨hwhole, htotal⟩ := ih (fun ms hms => h ms (by simp [hms]))
        have hls := h ls (by simp)
        refine ⟨hls.append hwhole, ?_⟩
        rw [List.flatten_cons, scan_append hwhole, ← htotal, ← hpiece ls hls]
        simp [total]
  have hflat : (pieces.map fun ls => ls.flatMap (· ++ ['\n'])).flatten =
      pieces.flatten.flatMap (· ++ ['\n']) := by
    simp only [List.flatMap_def, List.map_flatten, List.flatten_flatten, List.map_map]
    rfl
  rw [hmain.2, hflat, total, List.map_singleton, List.sum_singleton, hpiece _ hmain.1]

/-- **Cuts.**  The totals of a stream are the same for all ways to cut it if and only if
it contains no call of a traced function.  Cuts between whole lines do no harm to any
stream. -/
theorem totals_cut_iff (env : Env) (stream : Text) :
    ((∀ cs ds : List Text, cs.flatten = stream → ds.flatten = stream →
        total env cs = total env ds) ↔ NoCall env stream) ∧
      ∀ pieces : List (List Text), (∀ ls ∈ pieces, WholeLines ls) →
        (pieces.map fun ls => ls.flatMap (· ++ ['\n'])).flatten = stream →
        total env (pieces.map fun ls => ls.flatMap (· ++ ['\n'])) = total env [stream] := by
  refine ⟨⟨?_, ?_⟩, ?_⟩
  · intro hall f hf hname ⟨u, v, hstream⟩
    -- the bracket is cut off
    have heq := congrFun (hall [u, f ++ ['('], v] [u, f, ['('], v] (by simp [← hstream])
      (by simp [← hstream])) f
    have hcut : ((getdata env f).lookup f).getD 0 = 0 := by
      refine lookup_eq_zero ?_
      intro _ _ hpart
      have := hpart.length_le
      simp at this
    have hbracket : ((getdata env ['(']).lookup f).getD 0 = 0 := by
      refine lookup_eq_zero ?_
      intro _ hname hpart
      have hlen : f.length + 1 ≤ 1 := by simpa using hpart.length_le
      have hpos := List.length_pos_iff.mpr hname.1
      omega
    simp only [total, List.map_cons, List.map_nil, List.sum_cons, List.sum_nil,
      lookup_call hf hname, hcut, hbracket] at heq
    omega
  · intro hno cs ds hcs hds
    have hzero : ∀ texts : List Text, texts.flatten = stream → total env texts = fun _ => 0 := by
      intro texts htexts
      funext f
      refine List.sum_eq_zero ?_
      intro n hn
      obtain ⟨text, htext, rfl⟩ := List.mem_map.mp hn
      refine lookup_eq_zero ?_
      intro hf hname hpart
      exact hno f hf hname (hpart.trans (htexts ▸ List.infix_of_mem_flatten htext))
    rw [hzero cs hcs, hzero ds hds]
  · intro pieces hpieces hstream
    funext x
    rw [total_of_wholeLines hpieces, hstream]

/-- The tracer prints one call, and a poll ends in the middle of the name. -/
theorem cut_call_not_counted :
    ¬ ∀ cs ds : List Text, cs.flatten = "malloc(4) = 0\n".toList →
      ds.flatten = "malloc(4) = 0\n".toList →
      total ⟨ltraceFuncs, none, by decide⟩ cs = total ⟨ltraceFuncs, none, by decide⟩ ds := by
  intro h
  have heq := congrFun (h ["mal".toList, "loc(4) = 0\n".toList] ["malloc(4) = 0\n".toList]
    (by decide) (by decide)) "malloc".toList
  exact absurd heq (by decide)

end Memrec.Tracer
