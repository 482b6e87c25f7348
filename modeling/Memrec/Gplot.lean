import Mathlib.Data.List.SplitBy
import Memrec.LogRoundTrip

/-!
# `gplot`, and the transactions of both log readers

`gplot` plots one key of a log against another.  Like `kvgrep`, it joins consecutive
lines with the same value of the key after `-t` into one transaction before it looks at
them; the loop is the same in both scripts.

The loop holds a transaction until a line of another one comes.  `kvgrep` has a
statement after the loop that catches the last transaction, `gplot` has none.
`transactions_iff` says what each of them hands to its `process_line`.

The keys on the command line are interpolated into expressions; here a reader is given
the expressions.
-/

namespace Memrec

open Perl Perl.Pat

/-! ## The loop of both scripts -/

/-- What the loop over the file carries, with the texts that `process_line` was called
on; `match1` is `$1`. -/
structure Joiner where
  match1 : Text
  xid : Text
  lastXid : Text
  xtext : Text
  calls : List Text
  deriving DecidableEq, Repr

/-- The loop body once `$xid` is known. -/
def Joiner.take (st : Joiner) (x l : Text) : Joiner :=
  if x = st.lastXid then { st with match1 := x, xid := x, xtext := st.xtext ++ l }
  else ⟨x, x, x, l, st.calls ++ [st.xtext]⟩

/-- The loop body, with the expression of `-t` if there is one. -/
def joinLine (t : Option (Pat Text)) (st : Joiner) (line : Text) : Joiner :=
  let l := padded (chomp line)
  match t with
  | none => { st with calls := st.calls ++ [l] }
  | some p => st.take ((capture p l).getD st.match1) l

/-- The loop over the file. -/
def joinLines (t : Option (Pat Text)) (file : Text) : Joiner :=
  (readlines file).foldl (joinLine t) ⟨[], [], [], [], []⟩

/-- The calls of `process_line` in `kvgrep`. -/
def kvCalls (t : Option (Pat Text)) (file : Text) : List Text :=
  let st := joinLines t file
  if t.isSome && st.xid == st.lastXid then st.calls ++ [st.xtext] else st.calls

/-- The calls of `process_line` in `gplot`. -/
def gplotCalls (t : Option (Pat Text)) (file : Text) : List Text := (joinLines t file).calls

/-! ## `gplot` -/

/-- `m/\s$key\=(.*?)\s/`, given the expression `\s$key`. -/
def valuePattern (key : Pat Unit) : Pat Text := do
  key
  lit ['=']
  let v ← lazily notNl
  let _ ← cls isSpace
  pure v

/-- `$min_x` and its companions. -/
structure PlotRange where
  minX : ℚ
  maxX : ℚ
  minY : ℚ
  maxY : ℚ
  deriving DecidableEq

/-- The range before the first point. -/
def PlotRange.start : PlotRange := ⟨9900000000, -9900000000, 9900000000, -9900000000⟩

/-- The range with one more point. -/
def PlotRange.add (r : PlotRange) (p : ℚ × ℚ) : PlotRange where
  minX := if p.1 < r.minX then p.1 else r.minX
  maxX := if p.1 > r.maxX then p.1 else r.maxX
  minY := if p.2 < r.minY then p.2 else r.minY
  maxY := if p.2 > r.maxY then p.2 else r.maxY

/-- `process_line`: the point, if both keys have a value. -/
def plotPoint (x y : Pat Unit) (l : Text) : Option (ℚ × ℚ) := do
  let vx ← capture (valuePattern x) l
  let vy ← capture (valuePattern y) l
  pure (numify vx, numify vy)

/-- `gplot`: the points of the data file, and their range. -/
def gplot (x y : Pat Unit) (t : Option (Pat Text)) (file : Text) : List (ℚ × ℚ) × PlotRange :=
  let points := (gplotCalls t file).filterMap (plotPoint x y)
  (points, points.foldl PlotRange.add .start)

/-! ## `kvgrep` and its calls -/

/-- The state of `kvgrep` with the output of the calls so far. -/
def Joiner.shown (o : KvOpts) (ks : List Text) (st : Joiner) : KvState :=
  ⟨st.match1, st.xid, st.lastXid, st.xtext, st.calls.filterMap (processLine o ks)⟩

theorem filterMap_snoc {α β : Type} (f : α → Option β) (xs : List α) (x : α) :
    (xs ++ [x]).filterMap f = xs.filterMap f ++ (f x).toList := by
  cases h : f x <;> simp [h]

theorem kvLine_shown (o : KvOpts) (ks : List Text) (st : Joiner) (line : Text) :
    kvLine o ks (st.shown o ks) line = (joinLine (o.t.map xidPattern) st line).shown o ks := by
  have htake : ∀ x l, (st.shown o ks).take o ks x l = (st.take x l).shown o ks := by
    intro x l
    have hlast : (st.shown o ks).lastXid = st.lastXid := rfl
    rw [KvState.take, Joiner.take, hlast]
    split
    · rfl
    · simp only [Joiner.shown, filterMap_snoc]
  cases ht : o.t with
  | none => simp only [kvLine, joinLine, ht, Option.map_none, Joiner.shown, filterMap_snoc, padded]
  | some t =>
      simp only [kvLine, joinLine, ht, Option.map_some]
      exact htake _ _

/-- `kvgrep` prints what `process_line` prints, call by call. -/
theorem kvgrep_eq_calls (o : KvOpts) (keylist file : Text) :
    kvgrep o keylist file =
      (kvCalls (o.t.map xidPattern) file).filterMap (processLine o (splitChar ',' keylist)) := by
  have hloop : ∀ (ls : List Text) (st : Joiner),
      ls.foldl (kvLine o (splitChar ',' keylist)) (st.shown o (splitChar ',' keylist)) =
        (ls.foldl (joinLine (o.t.map xidPattern)) st).shown o (splitChar ',' keylist) := by
    intro ls
    induction ls with
    | nil => exact fun _ => rfl
    | cons l ls ih =>
        intro st
        rw [List.foldl_cons, List.foldl_cons, kvLine_shown, ih]
  have hkv : kvLines o (splitChar ',' keylist) file =
      (joinLines (o.t.map xidPattern) file).shown o (splitChar ',' keylist) :=
    hloop (readlines file) ⟨[], [], [], [], []⟩
  simp only [kvgrep, kvCalls, Option.isSome_map, hkv]
  generalize joinLines (o.t.map xidPattern) file = st
  simp only [Joiner.shown, Bool.and_eq_true, beq_iff_eq]
  split
  · rw [filterMap_snoc]
  · rfl

/-! ## Transactions -/

section Transactions

variable (p : Pat Text)

/-- The transaction of a line. -/
def xidOf (line : Text) : Option Text := capture p (padded (chomp line))

/-- The transactions of a file: the maximal runs of consecutive lines with the same
value of the key. -/
def transactions (file : Text) : List (List Text) :=
  (readlines file).splitBy fun a b => xidOf p a == xidOf p b

/-- The value of the key in a transaction: that of its first line. -/
def runXid (ls : List Text) : Text := (ls.head?.bind (xidOf p)).getD []

/-- The lines of a transaction in one text. -/
def joinedText (ls : List Text) : Text := ls.flatMap fun l => padded (chomp l)

variable {p}

theorem joinedText_ne_nil {ls : List Text} (h : ls ≠ []) : joinedText ls ≠ [] := by
  obtain ⟨l, ls, rfl⟩ := List.exists_cons_of_ne_nil h
  simp [joinedText, padded]

/-- Lines of the open transaction are appended to it. -/
theorem foldl_joinLine_same {x : Text} {ls : List Text} (h : ∀ l ∈ ls, xidOf p l = some x)
    (t : Text) (calls : List Text) :
    ls.foldl (joinLine (some p)) ⟨x, x, x, t, calls⟩ = ⟨x, x, x, t ++ joinedText ls, calls⟩ := by
  induction ls generalizing t with
  | nil => simp [joinedText]
  | cons l ls ih =>
      have hl : capture p (padded (chomp l)) = some x := h l (by simp)
      have hline : joinLine (some p) ⟨x, x, x, t, calls⟩ l =
          ⟨x, x, x, t ++ padded (chomp l), calls⟩ := by
        simp [joinLine, Joiner.take, hl]
      rw [List.foldl_cons, hline, ih fun m hm => h m (by simp [hm])]
      simp [joinedText]

/-- The texts that were handed on, the open transaction included, without empty ones. -/
def Joiner.texts (st : Joiner) : List Text := (st.calls ++ [st.xtext]).filter (· ≠ [])

/-- **One transaction.**  It closes the one before it and is open in the end. -/
theorem foldl_joinLine_run {x : Text} {ls : List Text} (hne : ls ≠ [])
    (h : ∀ l ∈ ls, xidOf p l = some x) {st : Joiner} (hst : x = st.lastXid → st.xtext = []) :
    ∃ calls, ls.foldl (joinLine (some p)) st = ⟨x, x, x, joinedText ls, calls⟩ ∧
      calls.filter (· ≠ []) = st.texts := by
  obtain ⟨l, ls, rfl⟩ := List.exists_cons_of_ne_nil hne
  have hl : capture p (padded (chomp l)) = some x := h l (by simp)
  have hrest : ∀ m ∈ ls, xidOf p m = some x := fun m hm => h m (by simp [hm])
  by_cases hx : x = st.lastXid
  · refine ⟨st.calls, ?_, ?_⟩
    · have hline : joinLine (some p) st l = ⟨x, x, x, padded (chomp l), st.calls⟩ := by
        simp [joinLine, Joiner.take, hl, ← hx, hst hx]
      rw [List.foldl_cons, hline, foldl_joinLine_same hrest]
      rfl
    · simp [Joiner.texts, hst hx]
  · refine ⟨st.calls ++ [st.xtext], ?_, rfl⟩
    have hline : joinLine (some p) st l =
        ⟨x, x, x, padded (chomp l), st.calls ++ [st.xtext]⟩ := by
      simp [joinLine, Joiner.take, hl, hx]
    rw [List.foldl_cons, hline, foldl_joinLine_same hrest]
    rfl

/-- **All transactions.**  Neighbours differ in the value of the key. -/
theorem foldl_joinLine_runs {gs : List (Text × List Text)}
    (hgs : ∀ g ∈ gs, g.2 ≠ [] ∧ ∀ l ∈ g.2, xidOf p l = some g.1)
    (hchain : (gs.map Prod.fst).IsChain (· ≠ ·)) {st : Joiner} (hsame : st.xid = st.lastXid)
    (hst : ∀ g ∈ gs.head?, g.1 = st.lastXid → st.xtext = []) :
    let st' := (gs.map Prod.snd).flatten.foldl (joinLine (some p)) st
    st'.xid = st'.lastXid ∧ st'.texts = st.texts ++ gs.map (fun g => joinedText g.2) ∧
      (gs ≠ [] → st'.calls.filter (· ≠ []) =
        st.texts ++ gs.dropLast.map (fun g => joinedText g.2)) := by
  induction gs generalizing st with
  | nil => exact ⟨hsame, by simp, fun h => absurd rfl h⟩
  | cons g gs ih =>
      obtain ⟨hne, hid⟩ := hgs g (by simp)
      obtain ⟨calls, hrun, hcalls⟩ := foldl_joinLine_run hne hid (hst g (by simp))
      have htexts : Joiner.texts ⟨g.1, g.1, g.1, joinedText g.2, calls⟩ =
          st.texts ++ [joinedText g.2] := by
        rw [Joiner.texts, List.filter_append, hcalls]
        simp [joinedText_ne_nil hne]
      have hnext : ∀ g' ∈ gs.head?, g'.1 = g.1 → joinedText g.2 = [] := by
        intro g' hg' heq
        obtain ⟨gs', rfl⟩ : ∃ gs', gs = g' :: gs' := by
          cases gs with
          | nil => simp at hg'
          | cons a as => exact ⟨as, by simpa using hg'⟩
        rw [List.map_cons, List.map_cons, List.isChain_cons_cons] at hchain
        exact absurd heq.symm hchain.1
      have hrest : (gs.map Prod.fst).IsChain (· ≠ ·) := by
        rw [List.map_cons] at hchain
        exact hchain.tail
      have hxid : Joiner.xid ⟨g.1, g.1, g.1, joinedText g.2, calls⟩ =
          Joiner.lastXid ⟨g.1, g.1, g.1, joinedText g.2, calls⟩ := rfl
      have ih := ih (fun g' hg' => hgs g' (by simp [hg'])) hrest hxid hnext
      rw [List.map_cons, List.flatten_cons, List.foldl_append, hrun]
      refine ⟨ih.1, ?_, fun _ => ?_⟩
      · rw [ih.2.1, htexts]
        simp
      · by_cases hgs' : gs = []
        · subst hgs'
          simpa using hcalls
        · rw [ih.2.2 hgs', htexts, List.dropLast_cons_of_ne_nil hgs']
          simp

/-- In a chain of equal values all are equal. -/
theorem forall_eq_of_isChain {α β : Type} [BEq β] [LawfulBEq β] {f : α → β} {a : α} {as : List α}
    (h : (a :: as).IsChain fun x y => f x == f y) : ∀ b ∈ as, f b = f a := by
  induction as generalizing a with
  | nil => simp
  | cons c cs ih =>
      rw [List.isChain_cons_cons, beq_iff_eq] at h
      intro b hb
      rcases List.mem_cons.mp hb with rfl | hb
      · exact h.1.symm
      · exact (ih h.2 b hb).trans h.1.symm

/-- The transactions of a file with their values of the key. -/
theorem exists_runs {file : Text} (hkey : ∀ l ∈ readlines file, (xidOf p l).isSome) :
    ∃ gs : List (Text × List Text), gs.map Prod.snd = transactions p file ∧
      (∀ g ∈ gs, g.2 ≠ [] ∧ ∀ l ∈ g.2, xidOf p l = some g.1) ∧
      (gs.map Prod.fst).IsChain (· ≠ ·) := by
  have hrun : ∀ ls ∈ transactions p file, ∃ x, ls ≠ [] ∧ ∀ l ∈ ls, xidOf p l = some x := by
    intro ls hls
    obtain ⟨l, rest, rfl⟩ := List.exists_cons_of_ne_nil (List.ne_nil_of_mem_splitBy hls)
    have hmem : l ∈ readlines file := by
      rw [← List.flatten_splitBy (fun a b => xidOf p a == xidOf p b) (readlines file)]
      exact List.mem_flatten_of_mem hls (by simp)
    obtain ⟨x, hx⟩ := Option.isSome_iff_exists.mp (hkey l hmem)
    have hall := forall_eq_of_isChain (List.isChain_of_mem_splitBy hls)
    refine ⟨x, by simp, ?_⟩
    intro m hm
    rcases List.mem_cons.mp hm with rfl | hm
    · exact hx
    · rw [hall m hm, hx]
  have hvalue : ∀ ls ∈ transactions p file,
      ls ≠ [] ∧ ∀ l ∈ ls, xidOf p l = some (runXid p ls) := by
    intro ls hls
    obtain ⟨x, hne, hx⟩ := hrun ls hls
    obtain ⟨l, rest, rfl⟩ := List.exists_cons_of_ne_nil hne
    have hl : runXid p (l :: rest) = x := by simp [runXid, hx l (by simp)]
    exact ⟨hne, by rw [hl]; exact hx⟩
  refine ⟨(transactions p file).map fun ls => (runXid p ls, ls), ?_, ?_, ?_⟩
  · simp [Function.comp_def]
  · intro g hg
    obtain ⟨ls, hls, rfl⟩ := List.mem_map.mp hg
    exact hvalue ls hls
  · rw [List.map_map, List.isChain_map]
    refine List.IsChain.imp_of_mem_imp ?_ (List.isChain_getLast_head_splitBy _ (readlines file))
    intro a b ha hb ⟨hane, hbne, hdiff⟩ heq
    have hlast := (hvalue a ha).2 _ (List.getLast_mem hane)
    have hhead := (hvalue b hb).2 _ (List.head_mem hbne)
    have heq : runXid p a = runXid p b := heq
    rw [hlast, hhead, heq, beq_self_eq_true] at hdiff
    cases hdiff

theorem readlines_eq_nil_iff (file : Text) : readlines file = [] ↔ file = [] := by
  cases file with
  | nil => simp [readlines]
  | cons c s =>
      by_cases hc : c = '\n'
      · simp [readlines, hc]
      · simp [readlines, hc, consHead_ne_nil]

/-- **The transactions of both readers.**  In a file in which every line carries the key,
`kvgrep` processes each transaction once and nothing else, apart from empty texts.
`gplot` processes all transactions but the last, so that it sees the same ones if and
only if the file is empty. -/
theorem transactions_iff (p : Pat Text) (file : Text)
    (hkey : ∀ l ∈ readlines file, (xidOf p l).isSome) :
    (kvCalls (some p) file).filter (· ≠ []) = (transactions p file).map joinedText ∧
    (gplotCalls (some p) file).filter (· ≠ []) =
      (transactions p file).dropLast.map joinedText ∧
    ((gplotCalls (some p) file).filter (· ≠ []) = (transactions p file).map joinedText ↔
      file = []) := by
  obtain ⟨gs, hsnd, hgs, hchain⟩ := exists_runs hkey
  have hflat : (gs.map Prod.snd).flatten = readlines file := by
    rw [hsnd]
    exact List.flatten_splitBy _ _
  have htexts : ∀ hs : List (Text × List Text),
      hs.map (fun g => joinedText g.2) = (hs.map Prod.snd).map joinedText := by simp
  have hstart : Joiner.xid ⟨[], [], [], [], []⟩ = Joiner.lastXid ⟨[], [], [], [], []⟩ := rfl
  obtain ⟨hsame, hall, hcalls⟩ := foldl_joinLine_runs hgs hchain hstart fun _ _ _ => rfl
  rw [hflat] at hsame hall hcalls
  have hkv : (kvCalls (some p) file).filter (· ≠ []) = (transactions p file).map joinedText := by
    have hsame' : (joinLines (some p) file).xid = (joinLines (some p) file).lastXid := hsame
    rw [kvCalls, hsame']
    simp only [Option.isSome_some, Bool.true_and, beq_self_eq_true, if_true]
    rw [← hsnd, ← htexts]
    exact hall
  have hgplot : (gplotCalls (some p) file).filter (· ≠ []) =
      (transactions p file).dropLast.map joinedText := by
    by_cases hempty : gs = []
    · subst hempty
      have hlines : readlines file = [] := by simpa using hflat.symm
      rw [← hsnd, gplotCalls, joinLines, hlines]
      rfl
    · rw [← hsnd, ← List.map_dropLast, ← htexts]
      exact hcalls hempty
  refine ⟨hkv, hgplot, ?_⟩
  rw [hgplot, ← readlines_eq_nil_iff]
  constructor
  · intro h
    have hlen := congrArg List.length h
    simp only [List.length_map, List.length_dropLast] at hlen
    have hzero : (transactions p file).length = 0 := by omega
    exact List.splitBy_eq_nil.mp (List.eq_nil_of_length_eq_zero hzero)
  · intro h
    simp [transactions, h]

/-- A log of two transactions. -/
def twoTransactions : Text := "xid=7 cpu=1 \nxid=7 load=2 \nxid=9 cpu=3 \n".toList

theorem transactions_two :
    (kvCalls (some (xidPattern "xid".toList)) twoTransactions).filter (· ≠ []) =
        (transactions (xidPattern "xid".toList) twoTransactions).map joinedText ∧
    (gplotCalls (some (xidPattern "xid".toList)) twoTransactions).filter (· ≠ []) =
        (transactions (xidPattern "xid".toList) twoTransactions).dropLast.map joinedText ∧
    ((gplotCalls (some (xidPattern "xid".toList)) twoTransactions).filter (· ≠ []) =
        (transactions (xidPattern "xid".toList) twoTransactions).map joinedText ↔
      twoTransactions = []) :=
  transactions_iff (xidPattern "xid".toList) twoTransactions (by decide)

/-- The second of them is not plotted. -/
theorem last_transaction_lost :
    (gplotCalls (some (xidPattern "xid".toList)) twoTransactions).filter (· ≠ []) ≠
      (transactions (xidPattern "xid".toList) twoTransactions).map joinedText := by
  decide

end Transactions

end Memrec
