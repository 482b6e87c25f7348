import Memrec.Pattern

/-!
# Watched kernel messages

`dmesg.pm` reads the kernel log at every poll, passes over as many lines as there
were at the last poll, and stores those of the remaining lines that match its watch
list.

The kernel log is a ring buffer: between two polls it loses its oldest lines and
gains new ones.  `reports_exact_iff` says in which histories of the buffer the
module reports what it should, which is each watched line in the first poll after
it was written.
-/

namespace Memrec.Dmesg

open Perl

/-! ## The module -/

/-- `%watch_list`, as it stands before any call of `prep`. -/
def watchList : List (Pat Unit) :=
  ["blocked for more than 120", "contains a readdir loop", "invoked oom-killer",
    "segfault at", "link is down", "mptscsih: ioc0: task abort"].map fun w => Pat.lit w.toList

/-- Some expression of the list matches. -/
def watched (watch : List (Pat Unit)) (line : Text) : Bool :=
  watch.any fun k => (Pat.search k line).isSome

/-- `check_for_match`. -/
def checkForMatch (watch : List (Pat Unit)) (line : Text) : Text :=
  if watched watch line then line else []

/-- The object; the number of lines is `undef` after an empty snapshot. -/
structure Watcher where
  numLines : Option Nat
  deriving DecidableEq, Repr

/-- `new`, on the output of the command. -/
def new (out : Text) : Watcher where
  numLines := some (readlines out).length

/-- The variables of the loop in `getdata`. -/
structure Scan where
  newNumLines : Option Nat
  ctr : Nat
  data : List (Text × Text)
  deriving DecidableEq, Repr

/-- The key of the `i`-th message. -/
def key (i : Nat) : Text := "dmesg".toList ++ decimal i

/-- The body of the loop. -/
def scanLine (watch : List (Pat Unit)) (oldNumLines : Nat) (st : Scan) (raw : Text) : Scan :=
  let line := chomp raw
  let n := st.newNumLines.getD 0 + 1
  if n > oldNumLines then
    let rtn := checkForMatch watch line
    if rtn ≠ [] then
      { newNumLines := some n, ctr := st.ctr + 1, data := st.data ++ [(key st.ctr, rtn)] }
    else { st with newNumLines := some n }
  else { st with newNumLines := some n }

/-- `getdata`, on the output of the command, with what it stores. -/
def getdata (watch : List (Pat Unit)) (self : Watcher) (out : Text) :
    Watcher × List (Text × Text) :=
  let st := (readlines out).foldl (scanLine watch (self.numLines.getD 0)) ⟨none, 0, []⟩
  (⟨st.newNumLines⟩, st.data)

/-- What successive calls store. -/
def calls (watch : List (Pat Unit)) : Watcher → List Text → List (List (Text × Text))
  | _, [] => []
  | self, out :: outs =>
      (getdata watch self out).2 :: calls watch (getdata watch self out).1 outs

/-! ## One call -/

/-- Messages under the keys `dmesg0`, `dmesg1`, … -/
def numbered (ls : List Text) : List (Text × Text) :=
  ls.zipIdx.map fun p => (key p.2, p.1)

theorem numbered_snoc (ls : List Text) (l : Text) :
    numbered (ls ++ [l]) = numbered ls ++ [(key ls.length, l)] := by
  simp [numbered, List.zipIdx_append]

theorem numbered_injective : Function.Injective numbered := by
  intro ls ms h
  have hvalues := congrArg (List.map Prod.snd) h
  simpa [numbered, Function.comp_def] using hvalues

/-- A line is stored if it matches and is not empty. -/
def stored (watch : List (Pat Unit)) (line : Text) : Bool :=
  watched watch line && !line.isEmpty

theorem checkForMatch_of_stored {watch : List (Pat Unit)} {line : Text}
    (h : stored watch line) : checkForMatch watch line = line ∧ line ≠ [] := by
  simp_all [stored, checkForMatch]

theorem checkForMatch_of_not_stored {watch : List (Pat Unit)} {line : Text}
    (h : stored watch line = false) : checkForMatch watch line = [] := by
  cases hw : watched watch line <;> simp_all [stored, checkForMatch]

/-- **The loop of `getdata`.**  It counts the lines and stores from those after the
first `old` ones. -/
theorem scan_lines (watch : List (Pat Unit)) (old : Nat) (ls : List Text) :
    let st := (ls.map (· ++ ['\n'])).foldl (scanLine watch old) ⟨none, 0, []⟩
    st.newNumLines.getD 0 = ls.length ∧
      st.ctr = ((ls.drop old).filter (stored watch)).length ∧
      st.data = numbered ((ls.drop old).filter (stored watch)) := by
  induction ls using List.reverseRecOn with
  | nil => simp [numbered]
  | append_singleton ls l ih =>
      obtain ⟨hn, hctr, hdata⟩ := ih
      simp only [List.map_append, List.map_cons, List.map_nil, List.foldl_append, List.foldl_cons,
        List.foldl_nil]
      generalize (ls.map (· ++ ['\n'])).foldl (scanLine watch old) ⟨none, 0, []⟩ = st
        at hn hctr hdata ⊢
      by_cases hold : ls.length + 1 > old
      · have hdrop : (ls ++ [l]).drop old = ls.drop old ++ [l] :=
          List.drop_append_of_le_length (by omega)
        cases hl : stored watch l with
        | true =>
            obtain ⟨hrtn, hne⟩ := checkForMatch_of_stored hl
            simp [scanLine, hn, hold, hrtn, hne, hdrop, hl, hctr, hdata, numbered_snoc]
        | false =>
            have hrtn := checkForMatch_of_not_stored hl
            simp [scanLine, hn, hold, hrtn, hdrop, hl, hctr, hdata]
      · have hdrop : (ls ++ [l]).drop old = ls.drop old := by
          rw [List.drop_eq_nil_of_le (by simp; omega), List.drop_eq_nil_of_le (by omega)]
        simp [scanLine, hn, hold, hdrop, hctr, hdata]

/-! ## The ring buffer -/

/-- A line of the kernel log. -/
abbrev Line := { l : Text // '\n' ∉ l }

/-- What the command prints for a buffer. -/
def snapshot (buf : List Line) : Text := buf.flatMap fun l => l.1 ++ ['\n']

/-- What happens to the buffer between two polls. -/
structure Turn where
  dropped : Nat
  appended : List Line

/-- The buffer loses its oldest lines and gains new ones. -/
def Turn.apply (buf : List Line) (τ : Turn) : List Line := buf.drop τ.dropped ++ τ.appended

/-- The buffers that are polled in a history. -/
def buffers : List Line → List Turn → List (List Line)
  | _, [] => []
  | buf, τ :: turns => τ.apply buf :: buffers (τ.apply buf) turns

/-- What a poll should report: the watched lines among those appended since the last
one. -/
def Turn.report (watch : List (Pat Unit)) (τ : Turn) : List (Text × Text) :=
  numbered ((τ.appended.map Subtype.val).filter (watched watch))

/-- As many of the appended lines as were dropped are not watched, and no watched line
is empty. -/
def Turn.Seen (watch : List (Pat Unit)) (buf : List Line) (τ : Turn) : Prop :=
  (∀ l ∈ τ.appended.take (min τ.dropped buf.length), watched watch l.1 = false) ∧
    ∀ l ∈ τ.appended, watched watch l.1 = true → l.1 ≠ []

/-- Every turn of a history is `Seen`. -/
def AllSeen (watch : List (Pat Unit)) : List Line → List Turn → Prop
  | _, [] => True
  | buf, τ :: turns => τ.Seen watch buf ∧ AllSeen watch (τ.apply buf) turns

theorem readlines_snapshot (buf : List Line) :
    readlines (snapshot buf) = (buf.map Subtype.val).map (· ++ ['\n']) := by
  have hnl : ∀ l ∈ buf.map Subtype.val, '\n' ∉ l := by
    intro l hl
    obtain ⟨m, -, rfl⟩ := List.mem_map.mp hl
    exact m.2
  rw [← readlines_unlines hnl, snapshot, List.flatMap_map]

theorem new_snapshot (buf : List Line) : (new (snapshot buf)).numLines.getD 0 = buf.length := by
  simp [new, readlines_snapshot]

variable {watch : List (Pat Unit)} {self : Watcher} {buf : List Line} {τ : Turn}

/-- **One poll.**  The lines that were dropped are taken off the appended ones. -/
theorem getdata_turn (hself : self.numLines.getD 0 = buf.length) :
    (getdata watch self (snapshot (τ.apply buf))).1.numLines.getD 0 = (τ.apply buf).length ∧
      (getdata watch self (snapshot (τ.apply buf))).2 = numbered
        (((τ.appended.map Subtype.val).drop (min τ.dropped buf.length)).filter
          (stored watch)) := by
  obtain ⟨hn, -, hdata⟩ := scan_lines watch buf.length ((τ.apply buf).map Subtype.val)
  simp only [getdata, hself, readlines_snapshot]
  refine ⟨by simpa using hn, ?_⟩
  rw [hdata]
  have hdrop : (τ.apply buf).drop buf.length = τ.appended.drop (min τ.dropped buf.length) := by
    rw [Turn.apply, List.drop_append, List.drop_drop, List.length_drop,
      List.drop_eq_nil_of_le (by omega), List.nil_append]
    congr 1
    omega
  rw [← List.map_drop, ← List.map_drop, hdrop]

/-- A filtered list keeps all of its selection after losing its first entries and some
of its predicate exactly when nothing of the selection was lost. -/
theorem filter_drop_eq_iff {α : Type} {p q : α → Bool} (hqp : ∀ x, q x = true → p x = true)
    (l : List α) (d : Nat) :
    (l.drop d).filter q = l.filter p ↔
      (∀ x ∈ l.take d, p x = false) ∧ ∀ x ∈ l, p x = true → q x = true := by
  have hsplit : l.filter p = (l.take d).filter p ++ (l.drop d).filter p := by
    rw [← List.filter_append, List.take_append_drop]
  have hle : ((l.drop d).filter q).Sublist ((l.drop d).filter p) :=
    List.monotone_filter_right _ hqp
  constructor
  · intro h
    have hlen := congrArg List.length h
    rw [hsplit, List.length_append] at hlen
    have hle' := hle.length_le
    have htake : (l.take d).filter p = [] := List.eq_nil_of_length_eq_zero (by omega)
    have hq := hle.eq_of_length (by omega)
    have hnone : ∀ x ∈ l.take d, p x = false := by
      simpa [List.filter_eq_nil_iff] using htake
    refine ⟨hnone, ?_⟩
    intro x hx hpx
    rw [← List.take_append_drop d l] at hx
    rcases List.mem_append.mp hx with hx | hx
    · rw [hnone x hx] at hpx
      cases hpx
    · have : x ∈ (l.drop d).filter q := hq ▸ List.mem_filter.mpr ⟨hx, hpx⟩
      exact (List.mem_filter.mp this).2
  · intro ⟨hnone, hpq⟩
    have htake : (l.take d).filter p = [] := by
      simpa [List.filter_eq_nil_iff] using hnone
    rw [hsplit, htake, List.nil_append]
    refine List.filter_congr ?_
    intro x hx
    rw [Bool.eq_iff_iff]
    exact ⟨hqp x, hpq x (List.mem_of_mem_drop hx)⟩

theorem getdata_report_iff (hself : self.numLines.getD 0 = buf.length) :
    (getdata watch self (snapshot (τ.apply buf))).2 = τ.report watch ↔ τ.Seen watch buf := by
  rw [(getdata_turn hself).2, Turn.report, numbered_injective.eq_iff, filter_drop_eq_iff]
  · rw [← List.map_take, List.forall_mem_map, List.forall_mem_map]
    simp +contextual [Turn.Seen, stored]
  · intro l hl
    simp_all [stored]

/-- **Exactly once.**  Over any history of the buffer, the calls report the watched
lines that were appended, each in the first call after it, if and only if every
turn is `Seen`. -/
theorem reports_exact_iff (watch : List (Pat Unit)) (buf : List Line) (turns : List Turn) :
    calls watch (new (snapshot buf)) ((buffers buf turns).map snapshot) =
        turns.map (Turn.report watch) ↔
      AllSeen watch buf turns := by
  have hmain : ∀ (self : Watcher) (buf : List Line), self.numLines.getD 0 = buf.length →
      (calls watch self ((buffers buf turns).map snapshot) = turns.map (Turn.report watch) ↔
        AllSeen watch buf turns) := by
    induction turns with
    | nil =>
        intro self buf _
        simp [calls, buffers, AllSeen]
    | cons τ turns ih =>
        intro self buf hself
        simp only [buffers, List.map_cons, calls, List.cons.injEq, AllSeen]
        rw [getdata_report_iff hself, ih _ _ (getdata_turn hself).1]
  exact hmain _ _ (new_snapshot buf)

/-- One line is dropped and a watched one is appended: the count stays the same, and
the line is never reported. -/
theorem dropped_line_hides :
    calls watchList (new (snapshot [⟨"Linux version 2.6".toList, by decide⟩]))
        ((buffers [⟨"Linux version 2.6".toList, by decide⟩]
          [⟨1, [⟨"a.out: segfault at 0".toList, by decide⟩]⟩]).map snapshot) ≠
      [(⟨1, [⟨"a.out: segfault at 0".toList, by decide⟩]⟩ : Turn)].map
        (Turn.report watchList) := by
  decide

end Memrec.Dmesg
