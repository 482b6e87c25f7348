import Memrec.Collector

/-!
# Messages of the grid engine

`sgelog.pm` reads the messages file of the grid engine from its beginning at every
poll.  It remembers the time of the last line that it has stored, skips everything up
to the first line with that time, and stores what follows, under the time of each
line.

The file only grows.  `exactlyOnce_iff` says in which histories of the file every line
is stored by one call and by no other.  Lines that share a second decide it.
-/

namespace Memrec.Sgelog

open Perl

/-! ## The module -/

/-- The object. -/
structure Reader where
  lasttime : Text
  deriving DecidableEq, Repr

/-- `new`. -/
def new : Reader where
  lasttime := []

/-- `$fld[0]`. -/
def time (line : Text) : Text := (splitChar '|' line).getD 0 []

/-- What is stored for a line. -/
def entry (line : Text) : Text × Text :=
  (time line, join [' '] [(splitChar '|' line).getD 3 [], (splitChar '|' line).getD 4 []])

/-- The variables of the loop in `getdata`. -/
structure Scan where
  flag : Bool
  lasttime : Text
  data : List (Text × Text)
  deriving DecidableEq, Repr

/-- The body of the loop. -/
def scanLine (st : Scan) (raw : Text) : Scan :=
  let line := chomp raw
  if st.flag = false then
    if time line = st.lasttime then { st with flag := true } else st
  else
    { st with data := store st.data (entry line), lasttime := time line }

/-- `getdata`, on the contents of the file. -/
def getdata (self : Reader) (file : Text) (data : List (Text × Text)) :
    Reader × List (Text × Text) :=
  let st := (readlines file).foldl scanLine ⟨decide (self.lasttime = []), self.lasttime, data⟩
  (⟨st.lasttime⟩, st.data)

/-! ## Hashes filled one entry at a time -/

theorem mem_keys_foldl_store (xs data : List (Text × Text)) (k : Text) :
    k ∈ (xs.foldl store data).map Prod.fst ↔ k ∈ data.map Prod.fst ∨ k ∈ xs.map Prod.fst := by
  induction xs generalizing data with
  | nil => simp
  | cons p xs ih =>
      rw [List.foldl_cons, ih]
      simp only [store, List.map_append, List.mem_append, List.mem_map, List.mem_filter,
        List.map_cons, List.mem_cons]
      grind

theorem nodup_keys_foldl_store {data : List (Text × Text)} (h : (data.map Prod.fst).Nodup)
    (xs : List (Text × Text)) : ((xs.foldl store data).map Prod.fst).Nodup := by
  induction xs generalizing data with
  | nil => exact h
  | cons p xs ih =>
      refine ih ?_
      have hsub := (List.filter_sublist (p := fun q => q.1 ≠ p.1) (l := data)).map Prod.fst
      rw [store, List.map_append, List.nodup_append]
      refine ⟨h.sublist hsub, by simp, ?_⟩
      intro k hk k' hk'
      obtain ⟨q, hq, rfl⟩ := List.mem_map.mp hk
      have hne := (List.mem_filter.mp hq).2
      obtain rfl : k' = p.1 := by simpa using hk'
      simpa using hne

/-- Entries with different keys end up behind what they do not replace. -/
theorem foldl_store_of_nodup {xs : List (Text × Text)} (h : (xs.map Prod.fst).Nodup)
    (data : List (Text × Text)) :
    xs.foldl store data = data.filter (fun q => q.1 ∉ xs.map Prod.fst) ++ xs := by
  induction xs generalizing data with
  | nil => simp
  | cons p xs ih =>
      simp only [List.map_cons, List.nodup_cons] at h
      have hkeep : ∀ q ∈ data, (decide (q.1 ∉ xs.map Prod.fst) && decide (q.1 ≠ p.1)) =
          decide (q.1 ∉ (p :: xs).map Prod.fst) := by
        intro q _
        rw [List.map_cons, ← Bool.decide_and, decide_eq_decide, List.mem_cons, not_or, and_comm]
      rw [List.foldl_cons, ih h.2, store, List.filter_append, List.filter_filter,
        List.filter_congr hkeep]
      simp [h.1]

/-- **What a call stores.**  The later entries are all there, and nothing else is, if and
only if their keys differ and they replace all of the earlier ones. -/
theorem foldl_store_perm_iff (xs ys : List (Text × Text)) :
    ((xs ++ ys).foldl store []).Perm ys ↔
      (ys.map Prod.fst).Nodup ∧ ∀ k ∈ xs.map Prod.fst, k ∈ ys.map Prod.fst := by
  constructor
  · intro h
    have hkeys := h.map Prod.fst
    refine ⟨hkeys.nodup_iff.mp (nodup_keys_foldl_store (by simp) _), ?_⟩
    intro k hk
    refine hkeys.mem_iff.mp ?_
    rw [mem_keys_foldl_store, List.map_append, List.mem_append]
    exact Or.inr (Or.inl hk)
  · intro ⟨hnodup, hsub⟩
    rw [List.foldl_append, foldl_store_of_nodup hnodup]
    have hnone : (xs.foldl store []).filter (fun q => q.1 ∉ ys.map Prod.fst) = [] := by
      rw [List.filter_eq_nil_iff]
      intro q hq
      have hk : q.1 ∈ (xs.foldl store []).map Prod.fst := List.mem_map_of_mem hq
      rw [mem_keys_foldl_store] at hk
      have := hsub q.1 (hk.resolve_left (by simp))
      simpa using this
    rw [hnone, List.nil_append]

/-! ## One call -/

/-- A line of the messages file: it has a time. -/
abbrev Message := { l : Text // '\n' ∉ l ∧ time l ≠ [] }

/-- The contents of a file with these lines. -/
def content (file : List Message) : Text := file.flatMap fun m => m.1 ++ ['\n']

/-- The times of some messages. -/
def times (file : List Message) : List Text := file.map fun m => time m.1

/-- What should be stored for some messages. -/
def entries (file : List Message) : List (Text × Text) := file.map fun m => entry m.1

/-- The time of the last message, empty if there is none. -/
def lastTime (file : List Message) : Text := (file.getLast?.map fun m => time m.1).getD []

/-- The messages after the first one that carries the time of the last one. -/
def carried (file : List Message) : List Message :=
  (file.dropWhile fun m => time m.1 ≠ lastTime file).tail

theorem readlines_content (file : List Message) :
    readlines (content file) = file.map fun m => m.1 ++ ['\n'] := by
  have hnl : ∀ l ∈ file.map Subtype.val, '\n' ∉ l := by
    intro l hl
    obtain ⟨m, -, rfl⟩ := List.mem_map.mp hl
    exact m.2.1
  have h := readlines_unlines hnl
  rw [List.flatMap_map, List.map_map] at h
  exact h

theorem keys_entries (file : List Message) : (entries file).map Prod.fst = times file := by
  simp [entries, times, entry]

/-- With the flag set, every line is stored. -/
theorem scan_storing (file : List Message) (last : Text) (data : List (Text × Text)) :
    (file.map fun m => m.1 ++ ['\n']).foldl scanLine ⟨true, last, data⟩ =
      ⟨true, (file.getLast?.map fun m => time m.1).getD last,
        (entries file).foldl store data⟩ := by
  induction file generalizing last data with
  | nil => rfl
  | cons m file ih =>
      have hlast : ((m :: file).getLast?.map fun m => time m.1).getD last =
          (file.getLast?.map fun m => time m.1).getD (time m.1) := by
        cases h : file.getLast? <;> simp [List.getLast?_cons, h]
      have hline : scanLine ⟨true, last, data⟩ (m.1 ++ ['\n']) =
          ⟨true, time m.1, store data (entry m.1)⟩ := by
        simp [scanLine]
      rw [List.map_cons, List.foldl_cons, hline, ih, hlast]
      rfl

/-- Without it, lines are skipped up to the first one with the last time. -/
theorem scan_skipping {file : List Message} {last : Text} (h : last ∈ times file)
    (data : List (Text × Text)) :
    (file.map fun m => m.1 ++ ['\n']).foldl scanLine ⟨false, last, data⟩ =
      ((file.dropWhile fun m => time m.1 ≠ last).tail.map fun m => m.1 ++ ['\n']).foldl scanLine
        ⟨true, last, data⟩ := by
  induction file with
  | nil => simp [times] at h
  | cons m file ih =>
      rw [List.map_cons, List.foldl_cons]
      by_cases hm : time m.1 = last
      · simp [scanLine, hm]
      · have hrest : last ∈ times file := by
          rcases List.mem_cons.mp h with h | h
          · exact absurd h.symm hm
          · exact h
        have hline : scanLine ⟨false, last, data⟩ (m.1 ++ ['\n']) = ⟨false, last, data⟩ := by
          simp [scanLine, hm]
        rw [hline, ih hrest]
        simp [hm]

theorem lastTime_mem {file : List Message} (h : file ≠ []) : lastTime file ∈ times file := by
  rw [lastTime, List.getLast?_eq_getLast_of_ne_nil h]
  exact List.mem_map_of_mem (List.getLast_mem h)

theorem lastTime_ne_nil {file : List Message} (h : file ≠ []) : lastTime file ≠ [] := by
  rw [lastTime, List.getLast?_eq_getLast_of_ne_nil h]
  exact (file.getLast h).2.2

/-- Appended messages do not change what is skipped. -/
theorem skipped_append {file : List Message} (h : file ≠ []) (app : List Message) :
    ((file ++ app).dropWhile fun m => time m.1 ≠ lastTime file).tail = carried file ++ app := by
  have hne : (file.dropWhile fun m => time m.1 ≠ lastTime file) ≠ [] := by
    intro hnil
    obtain ⟨m, hm, htime⟩ := List.mem_map.mp (lastTime_mem h)
    have := List.dropWhile_eq_nil_iff.mp hnil m hm
    simp [htime] at this
  rw [List.dropWhile_append, if_neg (by simpa using hne), carried, List.tail_append_of_ne_nil hne]

theorem lastTime_append (file app : List Message) :
    ((carried file ++ app).getLast?.map fun m => time m.1).getD (lastTime file) =
      lastTime (file ++ app) := by
  have htail : carried file <:+ file :=
    (List.tail_suffix _).trans (List.dropWhile_suffix _)
  obtain ⟨pre, hpre⟩ := htail
  have hfile : file.getLast? = (carried file).getLast?.or pre.getLast? := by
    rw [← List.getLast?_append, hpre]
  cases happ : app.getLast? with
  | some m => simp [lastTime, List.getLast?_append, happ]
  | none =>
      cases hcar : (carried file).getLast? with
      | some m => simp [lastTime, List.getLast?_append, happ, hfile, hcar]
      | none => simp [lastTime, List.getLast?_append, happ, hcar]

/-- **One call.**  It stores the new messages, and before them the carried ones. -/
theorem getdata_append {self : Reader} {file : List Message} (app : List Message)
    (hself : self.lasttime = lastTime file) :
    getdata self (content (file ++ app)) [] =
      (⟨lastTime (file ++ app)⟩, (entries (carried file ++ app)).foldl store []) := by
  rw [getdata, readlines_content, hself]
  by_cases hfile : file = []
  · subst hfile
    have hflag : decide (lastTime [] = []) = true := by decide
    simp only [hflag, List.nil_append, scan_storing]
    rfl
  · have hflag : decide (lastTime file = []) = false :=
      decide_eq_false (lastTime_ne_nil hfile)
    have hmem : lastTime file ∈ times (file ++ app) := by
      rw [times, List.map_append]
      exact List.mem_append_left _ (lastTime_mem hfile)
    simp only [hflag, scan_skipping hmem, skipped_append hfile, scan_storing, lastTime_append]

/-! ## The growing file -/

/-- What successive calls store; before each of them some messages are appended. -/
def calls : Reader → List Message → List (List Message) → List (List (Text × Text))
  | _, _, [] => []
  | self, file, app :: apps =>
      (getdata self (content (file ++ app)) []).2 ::
        calls (getdata self (content (file ++ app)) []).1 (file ++ app) apps

/-- After every call, the calls so far have stored every message of the file once. -/
def ExactlyOnce (appends : List (List Message)) : Prop :=
  ∀ n, (((calls new [] appends).take n).flatten).Perm (entries (appends.take n).flatten)

/-- The messages that a call finds new have different times, and if it finds carried
ones, their times are among those. -/
def Fresh (file app : List Message) : Prop :=
  (times app).Nodup ∧ ∀ t ∈ times (carried file), t ∈ times app

/-- Every call of a history is `Fresh`. -/
def AllFresh : List Message → List (List Message) → Prop
  | _, [] => True
  | file, app :: apps => Fresh file app ∧ AllFresh (file ++ app) apps

/-- Two sequences of bags agree up to every point if and only if they agree at every
place. -/
theorem flatten_take_perm_iff {α : Type} {xs ys : List (List α)} (hlen : xs.length = ys.length) :
    (∀ n, ((xs.take n).flatten).Perm ((ys.take n).flatten)) ↔ List.Forall₂ List.Perm xs ys := by
  induction xs generalizing ys with
  | nil =>
      obtain rfl : ys = [] := List.eq_nil_of_length_eq_zero hlen.symm
      simp
  | cons x xs ih =>
      obtain ⟨y, ys, rfl⟩ := List.exists_cons_of_length_eq_add_one hlen.symm
      have hlen : xs.length = ys.length := by simpa using hlen
      have ih := ih hlen
      rw [List.forall₂_cons, ← ih]
      constructor
      · intro h
        have hhead : x.Perm y := by simpa using h 1
        refine ⟨hhead, fun n => ?_⟩
        have hn := h (n + 1)
        simp only [List.take_succ_cons, List.flatten_cons] at hn
        exact (List.perm_append_left_iff y).mp ((hhead.symm.append_right _).trans hn)
      · intro ⟨hhead, h⟩ n
        cases n with
        | zero => simp
        | succ n =>
            simp only [List.take_succ_cons, List.flatten_cons]
            exact hhead.append (h n)

theorem getdata_perm_iff {self : Reader} {file app : List Message}
    (hself : self.lasttime = lastTime file) :
    ((getdata self (content (file ++ app)) []).2).Perm (entries app) ↔ Fresh file app := by
  have hsplit : entries (carried file ++ app) = entries (carried file) ++ entries app :=
    List.map_append
  rw [getdata_append app hself, hsplit, foldl_store_perm_iff, keys_entries, keys_entries]
  rfl

theorem calls_perm_iff {self : Reader} {file : List Message} (appends : List (List Message))
    (hself : self.lasttime = lastTime file) :
    List.Forall₂ List.Perm (calls self file appends) (appends.map entries) ↔
      AllFresh file appends := by
  induction appends generalizing self file with
  | nil => simp [calls, AllFresh]
  | cons app apps ih =>
      have hnext : (getdata self (content (file ++ app)) []).1.lasttime =
          lastTime (file ++ app) := by
        rw [getdata_append app hself]
      rw [calls, List.map_cons, List.forall₂_cons, getdata_perm_iff hself, ih hnext, AllFresh]

theorem length_calls (self : Reader) (file : List Message) (appends : List (List Message)) :
    (calls self file appends).length = appends.length := by
  induction appends generalizing self file with
  | nil => rfl
  | cons app apps ih => simp [calls, ih]

/-- **Exactly once.**  Over any history of the file, however the calls fall between the
messages, every message is stored once if and only if every call is `Fresh`. -/
theorem exactlyOnce_iff (appends : List (List Message)) :
    ExactlyOnce appends ↔ AllFresh [] appends := by
  have hentries : ∀ n, entries (appends.take n).flatten =
      (((appends.map entries).take n).flatten) := by
    intro n
    rw [entries, List.map_flatten, List.map_take]
    rfl
  have hcalls := calls_perm_iff appends (show new.lasttime = lastTime [] from rfl)
  rw [← hcalls, ← flatten_take_perm_iff (by rw [length_calls, List.length_map])]
  simp only [ExactlyOnce, hentries]

/-- Two messages of one second: the second replaces the first if one call finds both,
and if two calls find them, a third call stores the second one again. -/
theorem equal_times_not_exactlyOnce :
    ¬ ExactlyOnce [[⟨"07:30:00|qmaster|n1|I|start".toList, by decide⟩,
        ⟨"07:30:00|qmaster|n1|E|stop".toList, by decide⟩]] ∧
      ¬ ExactlyOnce [[⟨"07:30:00|qmaster|n1|I|start".toList, by decide⟩],
        [⟨"07:30:00|qmaster|n1|E|stop".toList, by decide⟩], []] := by
  constructor
  · intro h
    exact absurd (h 1) (by decide)
  · intro h
    exact absurd (h 3) (by decide)

end Memrec.Sgelog
