import Memrec.LogNoise
import Memrec.Reload

/-!
# The log file of a run

From the polls to what a reader gets out of the file.  The collector writes the
lines of its rounds, and what it has to say about itself: that it starts, that a
signal has arrived, that the configuration file was read again.  The timer says
that it was woken, and can say so between any two lines.

`Label` is the alphabet of both processes, `DaemonStep` their steps, and
`logLines` the file they write.  `daemon_log` reads the file back: for each
round of the run that has all the keys asked for, `kvgrep -t xid` prints one
line, in order, and nothing else, whatever the signals and the rereads.
-/

namespace Memrec

open Perl Perl.Pat Runs

/-! ## A round that is cut off -/

/-- The lines of a state of the writer. -/
def WriterState.lines (st : WriterState) : List Text := if st.n > 0 then st.write.out else st.out

theorem lines_makeRoom (s : Settings) (tstamp : Int) (st : WriterState) (v : Text) :
    (st.makeRoom s tstamp v).lines = st.lines := by
  unfold WriterState.makeRoom
  by_cases hlong : isLong v
  · by_cases hn : st.n > 0
    · simp [WriterState.lines, WriterState.restart, WriterState.write, hlong, hn]
    · simp [WriterState.lines, WriterState.restart, hlong, hn]
  · rw [if_neg hlong]

theorem lines_flush (s : Settings) (tstamp : Int) {st : WriterState} (hn : st.n > 0) (v : Text) :
    (st.flush s tstamp v).lines = st.lines := by
  unfold WriterState.flush
  split
  · simp [WriterState.lines, WriterState.restart, hn]
  · rfl

theorem lines_add (s : Settings) (st : WriterState) (p : Text × Text) :
    ∃ l, (st.add s p).lines = st.lines ++ [l] ∨ (st.add s p).lines = st.lines.dropLast ++ [l] := by
  refine ⟨st.txt ++ lineItem s p, ?_⟩
  by_cases hn : st.n > 0
  · exact Or.inr (by simp [WriterState.lines, WriterState.add, WriterState.write, hn])
  · exact Or.inl (by simp [WriterState.lines, WriterState.add, WriterState.write, hn])

/-- **One more item** makes a new line, or makes the last one longer. -/
theorem lines_formatItem (s : Settings) (tstamp : Int) (st : WriterState) (p : Text × Text) :
    ∃ l, (formatItem s tstamp st p).lines = st.lines ++ [l] ∨
      (formatItem s tstamp st p).lines = st.lines.dropLast ++ [l] := by
  have hpos : ((st.makeRoom s tstamp p.2).add s p).n > 0 := Nat.succ_pos _
  unfold formatItem
  rw [lines_flush s tstamp hpos, ← lines_makeRoom s tstamp st p.2]
  exact lines_add s _ p

/-- The lines up to some point are those of a round that ends there. -/
theorem exists_lines_of_prefix (s : Settings) (tstamp : Int) (items : List (Text × Text))
    {ls : List Text}
    (h : ls <+: (items.foldl (formatItem s tstamp) ⟨lineHead s tstamp, 0, []⟩).lines) :
    ∃ first, first <+: items ∧
      (first.foldl (formatItem s tstamp) ⟨lineHead s tstamp, 0, []⟩).lines = ls := by
  induction items using List.reverseRecOn with
  | nil => exact ⟨[], List.prefix_rfl, (List.prefix_nil.mp h).symm⟩
  | append_singleton items p ih =>
      rw [List.foldl_append, List.foldl_cons, List.foldl_nil] at h
      obtain ⟨l, hl⟩ := lines_formatItem s tstamp
        (items.foldl (formatItem s tstamp) ⟨lineHead s tstamp, 0, []⟩) p
      -- Either all lines are there, or none that the last item has touched.
      have hcases : ls = ((items ++ [p]).foldl (formatItem s tstamp)
          ⟨lineHead s tstamp, 0, []⟩).lines ∨
          ls <+: (items.foldl (formatItem s tstamp) ⟨lineHead s tstamp, 0, []⟩).lines := by
        rw [List.foldl_append, List.foldl_cons, List.foldl_nil]
        rcases hl with hl | hl
        · rw [hl] at h ⊢
          exact List.prefix_concat_iff.mp h
        · rw [hl] at h ⊢
          exact (List.prefix_concat_iff.mp h).imp_right fun h => h.trans (List.dropLast_prefix _)
      rcases hcases with rfl | hpre
      · exact ⟨items ++ [p], List.prefix_rfl, rfl⟩
      · obtain ⟨first, hfirst, hlines⟩ := ih hpre
        exact ⟨first, hfirst.trans (List.prefix_append _ _), hlines⟩

/-- **A round that is cut off** between two lines reads like a round with fewer
entries. -/
theorem Round.exists_cut (s : Settings) (r : Round) {ls : List Text}
    (h : ls <+: formatRound s r.tstamp r.pairs) :
    ∃ r' : Round, formatRound s r'.tstamp r'.pairs = ls ∧ r'.tstamp = r.tstamp ∧
      r'.pairs.Sublist r.pairs := by
  obtain ⟨first, hfirst, hlines⟩ := exists_lines_of_prefix s r.tstamp r.shown h
  have hsub : first.Sublist r.pairs := hfirst.sublist.trans List.filter_sublist
  have hshown : first.filter (fun p => p.1 ≠ "tstamp".toList) = first := by
    rw [List.filter_eq_self]
    intro p hp
    exact (List.mem_filter.mp (hfirst.subset hp)).2
  refine ⟨⟨r.tstamp, first, (hsub.map Prod.fst).nodup r.nodup,
    fun p hp => r.isKey p (hsub.subset hp), fun p hp => r.not_xid p (hsub.subset hp),
    fun p hp => r.isValue p (hsub.subset hp)⟩, ?_, rfl, hsub⟩
  rw [← hlines]
  unfold formatRound
  rw [hshown]
  rfl

/-- What is answered for a round that is cut off, if anything, is what is
answered for the whole. -/
theorem Round.answer_cut (ks : List Text) {r r' : Round} (hsub : r'.pairs.Sublist r.pairs) :
    r'.answer ks = none ∨ r'.answer ks = r.answer ks := by
  unfold Round.answer
  by_cases hall : ∀ k ∈ ks, k ∈ r'.pairs.map Prod.fst
  · have hall' : ∀ k ∈ ks, k ∈ r.pairs.map Prod.fst :=
      fun k hk => (hsub.map Prod.fst).subset (hall k hk)
    right
    rw [if_pos hall, if_pos hall']
    congr 2
    apply List.map_congr_left
    intro k hk
    obtain ⟨p, hp, rfl⟩ := List.mem_map.mp (hall k hk)
    rw [lookup_of_nodup r'.nodup hp, lookup_of_nodup r.nodup (hsub.subset hp)]
  · exact Or.inl (if_neg hall)

/-! ## Rounds under changing settings -/

/-- A round with the settings it was written under, which show the timestamp and
the keys. -/
structure LoggedRound where
  settings : Settings
  round : Round
  showxid : settings .showxid = 1
  showkeys : settings .showkeys = 1

/-- The lines of a round. -/
def LoggedRound.lines (d : LoggedRound) : List Text :=
  formatRound d.settings d.round.tstamp d.round.pairs

theorem LoggedRound.newline_notMem (d : LoggedRound) {l : Text} (hl : l ∈ d.lines) : '\n' ∉ l :=
  newline_notMem_line d.showxid d.showkeys d.round hl

/-- The reader works round by round. -/
theorem foldl_kvLine_rounds (ks : List Text) (ds : List LoggedRound) (st : KvState) :
    ((ds.flatMap LoggedRound.lines).map (· ++ ['\n'])).foldl (kvLine byXid ks) st =
      ((ds.filter fun d => d.lines ≠ []).map fun d => d.round.group d.settings).foldl
        (fun st g => g.2.foldl (fun st l => st.take byXid ks g.1 l) st) st := by
  induction ds generalizing st with
  | nil => rfl
  | cons d ds ih =>
      have hround := foldl_kvLine_round d.showxid d.showkeys ks d.round st
      rw [List.flatMap_cons, List.map_append, List.foldl_append, ih]
      unfold LoggedRound.lines at hround ⊢
      rw [hround]
      by_cases hd : formatRound d.settings d.round.tstamp d.round.pairs = []
      · rw [List.filter_cons_of_neg (by simp [hd]), hd]
        rfl
      · rw [List.filter_cons_of_pos (by simpa using hd)]
        rfl

section Answers

variable {ks : List Text} (hks : ks ≠ []) (hn : ks.Nodup) (hempty : [] ∉ ks)
  (hx : "xid".toList ∉ ks) (ht : "tstamp".toList ∉ ks)

include hks in
theorem processLine_nil : processLine byXid ks [] = none := by
  have hlen := List.length_pos_iff.mpr hks
  exact if_neg fun h => absurd (hlen.trans_le h) (Nat.lt_irrefl 0)

include hn hempty hx ht

theorem processLine_logged (d : LoggedRound) :
    processLine byXid ks (d.round.group d.settings).2.flatten = d.round.answer ks :=
  processLine_group d.showxid d.showkeys hn hempty hx ht d.round

include hks

/-- **Rounds and answers.**  Each round is answered for, whatever its line size. -/
theorem printed_rounds (ds : List LoggedRound)
    (htime : (ds.map fun d => d.round.tstamp).IsChain (· < ·)) :
    (((ds.flatMap LoggedRound.lines).map (· ++ ['\n'])).foldl (kvLine byXid ks)
      ⟨[], [], [], [], []⟩).printed byXid ks = ds.filterMap fun d => d.round.answer ks := by
  have hlines : ∀ g ∈ (ds.filter fun d => d.lines ≠ []).map fun d => d.round.group d.settings,
      g.2 ≠ [] := by
    intro g hg
    obtain ⟨d, hd, rfl⟩ := List.mem_map.mp hg
    have hne : d.lines ≠ [] := of_decide_eq_true (List.mem_filter.mp hd).2
    exact fun hnil => hne (List.map_eq_nil_iff.mp hnil)
  have hchain : (([] : Text) :: ((ds.filter fun d => d.lines ≠ []).map fun d =>
      d.round.group d.settings).map Prod.fst).IsChain (· ≠ ·) := by
    rw [List.map_map]
    apply List.Pairwise.isChain
    rw [List.pairwise_cons, List.pairwise_map]
    constructor
    · intro x hmem
      obtain ⟨d, -, rfl⟩ := List.mem_map.mp hmem
      exact (decimal_ne_nil _).symm
    · have hlt := List.isChain_iff_pairwise.mp htime
      rw [List.pairwise_map] at hlt
      exact (hlt.sublist List.filter_sublist).imp fun {d d'} hdd heq =>
        absurd (decimal_injective heq) hdd.ne
  -- A round without lines has no keys, so there is no answer for it.
  have hskip : ∀ d : LoggedRound, d.lines = [] → d.round.answer ks = none := by
    intro d hd
    unfold LoggedRound.lines at hd
    rw [← processLine_logged hn hempty hx ht, Round.group, hd]
    exact processLine_nil hks
  rw [foldl_kvLine_rounds, printed_groups _ _ _ hlines _ hchain, KvState.printed,
    processLine_nil hks, List.filterMap_map, List.filterMap_filter]
  apply List.filterMap_congr
  intro d _
  by_cases hd : d.lines = []
  · simp [hd, hskip d hd]
  · simp [hd, processLine_logged hn hempty hx ht]

/-- The last round may be cut off. -/
theorem printed_rounds_cut {ds : List LoggedRound} {d : LoggedRound} {ls : List Text}
    (htime : ((ds ++ [d]).map fun d => d.round.tstamp).IsChain (· < ·)) (hls : ls <+: d.lines) :
    (((ds.flatMap LoggedRound.lines ++ ls).map (· ++ ['\n'])).foldl (kvLine byXid ks)
      ⟨[], [], [], [], []⟩).printed byXid ks ∈
      [(ds ++ [d]).filterMap fun d => d.round.answer ks,
        ds.filterMap fun d => d.round.answer ks] := by
  obtain ⟨r', rfl, htstamp, hsub⟩ := d.round.exists_cut d.settings hls
  have hprinted := printed_rounds hks hn hempty hx ht
    (ds ++ [⟨d.settings, r', d.showxid, d.showkeys⟩]) (by simpa [htstamp] using htime)
  rw [List.flatMap_append, List.flatMap_singleton] at hprinted
  unfold LoggedRound.lines at hprinted ⊢
  rw [hprinted]
  rcases Round.answer_cut ks hsub with hnone | hwhole
  · simp [hnone]
  · refine List.mem_cons.mpr (Or.inl ?_)
    rw [List.filterMap_append, List.filterMap_append]
    simp only [List.filterMap_cons, hwhole]

end Answers

/-! ## The two processes -/

/-- What `reread_cfg` writes. -/
def Script.rereadText : Script → Text
  | .dlogger => "daemon re-read config file".toList
  | .duologger => "daemon reread config file".toList

/-- What `handler1` writes, in the timer. -/
def handler1Text : Text := "daemon caught SIGUSR1/handler1/wake".toList

/-- What `handler2` writes. -/
def handler2Text : Text := "daemon caught SIGUSR2/handler2/reread-cfg".toList

/-- What `handler3` writes. -/
def handler3Text : Text := "daemon caught SIGINT/handler3/exit".toList

/-- All that a daemon writes about itself. -/
def Script.messages (sc : Script) : List Text :=
  [startLine, sc.rereadText, handler1Text, handler2Text, handler3Text]

variable {Obj : Type}

/-- A step of the collector or of the pipe, or `handler1` in the timer. -/
inductive Label (Obj : Type)
  | main (e : Event Obj)
  | handler1

/-- **One step of the two processes.** -/
inductive DaemonStep (sc : Script) (single : Bool) :
    Collector Obj → Label Obj → Collector Obj → Prop
  | main {s t e} (h : Step sc single s e t) : DaemonStep sc single s (.main e) t
  | handler1 {s} (htimer : s.timer = true) : DaemonStep sc single s .handler1 s

/-- The lines that go to `write_log` in a step. -/
def Script.writeLog (sc : Script) : Label Obj → List Text
  | .main (.write line) => [line]
  | .main .noteReread => [sc.rereadText]
  | .main .sigusr2 => [handler2Text]
  | .main .sigint => [handler3Text]
  | .handler1 => [handler1Text]
  | _ => []

/-- The lines of the file after a run. -/
def Script.logLines (sc : Script) (tr : List (Label Obj)) : List Text :=
  startLine :: tr.flatMap sc.writeLog

/-- What the collector does in a run. -/
def Label.event : Label Obj → Option (Event Obj)
  | .main e => some e
  | .handler1 => none

/-- The run without the timer's messages. -/
def events (tr : List (Label Obj)) : List (Event Obj) := tr.filterMap Label.event

/-- The rounds that are handed to the writer: the timestamp of the step, and the
entries of `%data`. -/
def roundStep (st : Int × List (Int × List (Text × Text))) :
    Event Obj → Int × List (Int × List (Text × Text))
  | .start tstamp => (tstamp, st.2)
  | .keylist pairs => (st.1, st.2 ++ [(st.1, pairs)])
  | _ => st

/-- `$tstamp` and the rounds so far. -/
def roundState (tr : List (Event Obj)) : Int × List (Int × List (Text × Text)) :=
  tr.foldl roundStep (0, [])

/-- The rounds of a run. -/
def roundsOf (tr : List (Event Obj)) : List (Int × List (Text × Text)) := (roundState tr).2

/-- The number of rounds that are written completely. -/
def finished (tr : List (Event Obj)) : Nat := tr.countP Event.isCycleDone

/-- The line that is written. -/
def Event.line : Event Obj → Option Text
  | .write line => some line
  | _ => none

/-- The lines of data. -/
def dataLines (tr : List (Event Obj)) : List Text := tr.filterMap Event.line

theorem run_events {sc : Script} {single : Bool} {s t : Collector Obj} {tr : List (Label Obj)}
    (run : Run (DaemonStep sc single) s tr t) : Run (Step sc single) s (events tr) t := by
  induction run with
  | nil => exact .nil s
  | snoc tail last ih =>
      unfold events at ih ⊢
      rw [List.filterMap_append]
      cases last with
      | main h => exact ih.snoc h
      | handler1 => rwa [List.filterMap_cons_none rfl, List.filterMap_nil, List.append_nil]

/-! ## The invariant of the log -/

/-- The lines that are still to be written. -/
def Pc.todo : Pc Obj → Option (List Text)
  | .writing todo => some todo
  | _ => none

/-- An event that neither opens a round nor writes. -/
def Event.IsQuiet : Event Obj → Prop
  | .start _ | .keylist _ | .write _ | .cycleDone => False
  | _ => True

/-- **What a step does to the log.** -/
theorem Step.log_cases {sc : Script} {single : Bool} {s t : Collector Obj} {e : Event Obj}
    (h : Step sc single s e t) :
    (∃ tstamp, e = .start tstamp ∧ t.tstamp = tstamp ∧ s.pc.todo = none ∧ s.pc ≠ .exited ∧
      t.pc.todo = none) ∨
    (∃ pairs, e = .keylist pairs ∧ IsKeylist s.settings s.data pairs ∧ s.pc = .pollOuter [] ∧
      t = { s with pc := .writing (formatRound s.settings s.tstamp pairs) }) ∨
    (∃ line todo, e = .write line ∧ s.pc = .writing (line :: todo) ∧ t.pc = .writing todo ∧
      t.tstamp = s.tstamp) ∨
    (e = .cycleDone ∧ s.pc = .writing [] ∧ t.pc.todo = none ∧ t.tstamp = s.tstamp) ∨
    (e.IsQuiet ∧ t.tstamp = s.tstamp ∧
      (t.pc.todo = s.pc.todo ∧ (s.pc = .exited → t.pc = .exited) ∨ t.pc = .exited)) := by
  cases h with
  | startInner tstamp hpc | startOuter tstamp hpc => simp [hpc, Pc.todo]
  | keylist pairs hpc hkeys => simp [hpc, hkeys]
  | write hpc => simp [hpc]
  | cycleDone hpc =>
      refine Or.inr (Or.inr (Or.inr (Or.inl ⟨rfl, hpc, ?_, rfl⟩)))
      cases single <;> rfl
  | testFlag hpc =>
      refine Or.inr (Or.inr (Or.inr (Or.inr ⟨trivial, rfl, Or.inl ⟨?_, by simp [hpc]⟩⟩)))
      dsimp only
      rw [hpc]
      split <;> rfl
  | tick | timerExit | sigusr2 =>
      exact Or.inr (Or.inr (Or.inr (Or.inr ⟨trivial, rfl, Or.inl ⟨rfl, id⟩⟩)))
  | _ => simp_all [Event.IsQuiet, Pc.todo]

/-- The settings change when the configuration file is executed. -/
theorem Step.settings_cases {sc : Script} {single : Bool} {s t : Collector Obj} {e : Event Obj}
    (h : Step sc single s e t) :
    (∃ file ins outs, e = .execCfg file ins outs ∧
      t.settings = rereadSettings file s.settings) ∨ t.settings = s.settings := by
  cases h with
  | execCfg file ins outs hpc => exact Or.inl ⟨file, ins, outs, rfl, rfl⟩
  | _ => exact Or.inr rfl

/-- A file that is executed leaves the timestamps and the keys on. -/
def KeepsFormat (e : Event Obj) : Prop :=
  ∀ file ins outs, e = .execCfg file ins outs →
    (file .showxid).getD 1 = 1 ∧ (file .showkeys).getD 1 = 1

/-- What the objects store can be carried by the log. -/
def Storable (p : Text × Text) : Prop := IsKey p.1 ∧ p.1 ≠ "xid".toList ∧ IsValue p.2

instance : DecidablePred Storable := fun _ => inferInstanceAs (Decidable (_ ∧ _ ∧ _))

/-- An object that is polled stores what the log can carry. -/
def StoresWell (e : Event Obj) : Prop :=
  ∀ o st, e = .poll o st → ∀ p ∈ st, Storable p

theorem storable_tstamp (tstamp : Int) : Storable ("tstamp".toList, decimal tstamp) := by
  have hkey : IsKey "tstamp".toList ∧ "tstamp".toList ≠ "xid".toList := by decide
  exact ⟨hkey.1, hkey.2, decimal_not_space tstamp⟩

/-- `%data` is a hash. -/
theorem nodup_store {data : List (Text × Text)} (h : (data.map Prod.fst).Nodup)
    (p : Text × Text) : ((store data p).map Prod.fst).Nodup := by
  unfold store
  rw [List.map_append, List.map_singleton, ← List.concat_eq_append, List.nodup_concat]
  refine ⟨?_, (List.filter_sublist.map Prod.fst).nodup h⟩
  intro hmem
  obtain ⟨q, hq, hkey⟩ := List.mem_map.mp hmem
  exact absurd hkey (of_decide_eq_true (List.mem_filter.mp hq).2)

theorem nodup_foldl_store (st : List (Text × Text)) {data : List (Text × Text)}
    (h : (data.map Prod.fst).Nodup) : ((st.foldl store data).map Prod.fst).Nodup := by
  induction st generalizing data with
  | nil => exact h
  | cons p st ih => exact ih (nodup_store h p)

/-- The rounds are in the file, all but the rest of the one that is being
written. -/
def Written (tr : List (Event Obj)) (pc : Pc Obj) (ds : List LoggedRound) : Prop :=
  (pc.todo = none ∧ ds.length = finished tr ∧ dataLines tr = ds.flatMap LoggedRound.lines) ∨
  ∃ ds' d ls todo, ds = ds' ++ [d] ∧ ds.length = finished tr + 1 ∧ d.lines = ls ++ todo ∧
    dataLines tr = ds'.flatMap LoggedRound.lines ++ ls ∧ (pc = .writing todo ∨ pc = .exited)

/-- A round as it is read off the run. -/
def LoggedRound.entry (d : LoggedRound) : Int × List (Text × Text) :=
  (d.round.tstamp, d.round.pairs)

/-- **The invariant of the log.** -/
structure Logging (tr : List (Event Obj)) (s : Collector Obj) : Prop where
  showxid : s.settings .showxid = 1
  showkeys : s.settings .showkeys = 1
  data : ∀ p ∈ s.data, Storable p
  nodup : (s.data.map Prod.fst).Nodup
  tstamp : s.tstamp = (roundState tr).1
  rounds : ∃ ds : List LoggedRound, roundsOf tr = ds.map LoggedRound.entry ∧ Written tr s.pc ds

theorem roundState_snoc (tr : List (Event Obj)) (e : Event Obj) :
    roundState (tr ++ [e]) = roundStep (roundState tr) e := by
  unfold roundState
  rw [List.foldl_append, List.foldl_cons, List.foldl_nil]

theorem dataLines_snoc (tr : List (Event Obj)) (e : Event Obj) :
    dataLines (tr ++ [e]) = dataLines tr ++ e.line.toList := by
  unfold dataLines
  rw [List.filterMap_append]
  cases he : e.line <;> simp [he]

theorem finished_snoc (tr : List (Event Obj)) (e : Event Obj) :
    finished (tr ++ [e]) = finished tr + e.isCycleDone.toNat :=
  countP_snoc _ tr e

/-- An event that opens no round and writes nothing. -/
theorem Written.quiet {tr : List (Event Obj)} {s t : Collector Obj} {e : Event Obj}
    {ds : List LoggedRound} (h : Written tr s.pc ds) (he : e.IsQuiet)
    (hpc : t.pc.todo = s.pc.todo ∧ (s.pc = .exited → t.pc = .exited) ∨ t.pc = .exited) :
    Written (tr ++ [e]) t.pc ds := by
  have hline : e.line = none := by cases e <;> first | rfl | exact he.elim
  have hdone : e.isCycleDone = false := by cases e <;> first | rfl | exact he.elim
  unfold Written at h ⊢
  rw [dataLines_snoc, finished_snoc, hline, hdone, Option.toList_none, List.append_nil,
    Bool.toNat_false, Nat.add_zero]
  rcases h with ⟨htodo, hlen, hdata⟩ | ⟨ds', d, ls, todo, hds, hlen, hd, hdata, hwhere⟩
  · refine Or.inl ⟨?_, hlen, hdata⟩
    rcases hpc with ⟨hsame, -⟩ | hexit
    · rw [hsame, htodo]
    · rw [hexit]
      rfl
  · refine Or.inr ⟨ds', d, ls, todo, hds, hlen, hd, hdata, ?_⟩
    rcases hpc with ⟨hsame, hexit⟩ | hexit
    · rcases hwhere with hw | hw
      · rw [hw] at hsame
        left
        cases htpc : t.pc <;> rw [htpc] at hsame <;> simp [Pc.todo] at hsame
        rw [hsame]
      · exact Or.inr (hexit hw)
    · exact Or.inr hexit

/-- The timestamp and the rounds, after one more step. -/
theorem Logging.rounds_step {sc : Script} {single : Bool} {tr : List (Event Obj)}
    {s t : Collector Obj} {e : Event Obj} (hs : Logging tr s) (h : Step sc single s e t) :
    t.tstamp = (roundState (tr ++ [e])).1 ∧
      ∃ ds : List LoggedRound, roundsOf (tr ++ [e]) = ds.map LoggedRound.entry ∧
        Written (tr ++ [e]) t.pc ds := by
  obtain ⟨ds, hds, hw⟩ := hs.rounds
  unfold roundsOf at hds ⊢
  rw [roundState_snoc]
  rcases h.log_cases with ⟨tstamp, rfl, ht, htodo, hexit, htodo'⟩ |
    ⟨pairs, rfl, ⟨hperm, -⟩, hpc, rfl⟩ | ⟨line, todo, rfl, hpc, hpc', ht⟩ |
    ⟨rfl, hpc, htodo, ht⟩ | ⟨he, ht, hpc⟩
  -- a step begins
  · refine ⟨ht, ds, hds, ?_⟩
    rcases hw with ⟨-, hlen, hdata⟩ | ⟨ds', d, ls, todo, hsplit, hlen, hd, hdata, hpc | hpc⟩
    · refine Or.inl ⟨htodo', ?_, ?_⟩
      · rw [finished_snoc, hlen]
        rfl
      · rw [dataLines_snoc, hdata]
        exact List.append_nil _
    · rw [hpc] at htodo
      cases htodo
    · exact absurd hpc hexit
  -- the writer takes over
  · have hkeys : (pairs.map Prod.fst).Nodup := ((hperm.map Prod.fst).nodup_iff).mpr hs.nodup
    have hstore : ∀ p ∈ pairs, Storable p := fun p hp => hs.data p (hperm.mem_iff.mp hp)
    have hstamp : (roundStep (roundState tr) (.keylist pairs : Event Obj)).1 = s.tstamp :=
      hs.tstamp.symm
    refine ⟨hstamp.symm, ds ++ [⟨s.settings, ⟨s.tstamp, pairs, hkeys, fun p hp => (hstore p hp).1,
      fun p hp => (hstore p hp).2.1, fun p hp => (hstore p hp).2.2⟩, hs.showxid, hs.showkeys⟩],
      ?_, ?_⟩
    · unfold roundStep
      rw [hds, ← hs.tstamp, List.map_append]
      rfl
    · rcases hw with ⟨-, hlen, hdata⟩ | ⟨ds', d, ls, todo, hsplit, hlen, hd, hdata, hpc' | hpc'⟩
      · refine Or.inr ⟨ds, _, [], _, rfl, ?_, rfl, ?_, Or.inl rfl⟩
        · rw [finished_snoc, List.length_append, hlen]
          rfl
        · rw [dataLines_snoc, hdata]
          rfl
      · rw [hpc] at hpc'
        cases hpc'
      · rw [hpc] at hpc'
        cases hpc'
  -- a line
  · refine ⟨ht.trans hs.tstamp, ds, hds, ?_⟩
    rcases hw with ⟨htodo, -⟩ | ⟨ds', d, ls, todo', hsplit, hlen, hd, hdata, hpc'' | hpc''⟩
    · rw [hpc] at htodo
      cases htodo
    · rw [hpc] at hpc''
      cases hpc''
      refine Or.inr ⟨ds', d, ls ++ [line], todo, hsplit, ?_, ?_, ?_, Or.inl hpc'⟩
      · rw [finished_snoc, hlen]
        rfl
      · rw [hd, List.append_assoc, List.singleton_append]
      · rw [dataLines_snoc, hdata, List.append_assoc]
        rfl
    · rw [hpc] at hpc''
      cases hpc''
  -- the end of a round
  · refine ⟨ht.trans hs.tstamp, ds, hds, ?_⟩
    rcases hw with ⟨htodo', -⟩ | ⟨ds', d, ls, todo', hsplit, hlen, hd, hdata, hpc' | hpc'⟩
    · rw [hpc] at htodo'
      cases htodo'
    · rw [hpc] at hpc'
      cases hpc'
      refine Or.inl ⟨htodo, ?_, ?_⟩
      · rw [finished_snoc, hlen]
        rfl
      · rw [dataLines_snoc, hdata, hsplit, List.flatMap_append, List.flatMap_singleton, hd]
        simp [Event.line]
    · rw [hpc] at hpc'
      cases hpc'
  · have hround : roundStep (roundState tr) e = roundState tr := by
      cases e <;> first | rfl | exact he.elim
    rw [hround]
    exact ⟨ht.trans hs.tstamp, ds, hds, hw.quiet he hpc⟩

/-- **One step of the collector.** -/
theorem logging_step {sc : Script} {single : Bool} {tr : List (Event Obj)}
    {s t : Collector Obj} {e : Event Obj} (hs : Logging tr s) (h : Step sc single s e t)
    (hcfg : KeepsFormat e) (hstore : StoresWell e) : Logging (tr ++ [e]) t where
  showxid := by
    rcases h.settings_cases with ⟨file, ins, outs, he, hset⟩ | hset
    · have hxid := (hcfg file ins outs he).1
      rw [hset]
      unfold rereadSettings execCfg
      rwa [hs.showxid]
    · rw [hset, hs.showxid]
  showkeys := by
    rcases h.settings_cases with ⟨file, ins, outs, he, hset⟩ | hset
    · have hkeys := (hcfg file ins outs he).2
      rw [hset]
      unfold rereadSettings execCfg
      rwa [hs.showkeys]
    · rw [hset, hs.showkeys]
  data := by
    intro p hp
    rcases h.data_cases with ⟨-, hdata⟩ | ⟨-, -, -, ⟨o, st, he, hdata⟩ | hdata⟩
    · rw [hdata, freshData, List.mem_singleton] at hp
      rw [hp]
      exact storable_tstamp _
    · rw [hdata] at hp
      rcases mem_foldl_store st s.data hp with hp | hp
      · exact hstore o st he p hp
      · exact hs.data p hp
    · rw [hdata] at hp
      exact hs.data p hp
  nodup := by
    rcases h.data_cases with ⟨-, hdata⟩ | ⟨-, -, -, ⟨o, st, -, hdata⟩ | hdata⟩
    · rw [hdata]
      exact List.nodup_singleton _
    · rw [hdata]
      exact nodup_foldl_store st hs.nodup
    · rw [hdata]
      exact hs.nodup
  tstamp := (hs.rounds_step h).1
  rounds := (hs.rounds_step h).2

theorem logging_run {sc : Script} {single : Bool} {st : Settings} {ins outs : List Obj}
    {tr : List (Event Obj)} {s : Collector Obj}
    (run : Run (Step sc single) (boot sc st ins outs) tr s)
    (hxid : st .showxid = 1) (hkeys : st .showkeys = 1) (hcfg : ∀ e ∈ tr, KeepsFormat e)
    (hstore : ∀ e ∈ tr, StoresWell e) : Logging tr s := by
  have hboot : Logging [] (boot sc st ins outs) := by
    refine ⟨hxid, hkeys, by simp [boot], by simp [boot], rfl, [], rfl, Or.inl ⟨rfl, rfl, rfl⟩⟩
  refine run.inv (P := fun tr s => (∀ e ∈ tr, KeepsFormat e) → (∀ e ∈ tr, StoresWell e) →
    Logging tr s) (fun _ _ => hboot) ?_ hcfg hstore
  intro tr t e u _ ih hstep hcfg hstore
  exact logging_step
    (ih (fun e he => hcfg e (List.mem_append_left _ he)) fun e he =>
      hstore e (List.mem_append_left _ he))
    hstep (hcfg e (by simp)) (hstore e (by simp))

/-! ## Reading the file back -/

/-- What `kvgrep` should answer for the entries of a round. -/
def answerFor (ks : List Text) (pairs : List (Text × Text)) : Option Text :=
  if ∀ k ∈ ks, k ∈ pairs.map Prod.fst then
    some (join [' '] (ks.map fun k => logToken (k, (pairs.lookup k).getD [])))
  else none

/-- No key that is asked for is a word of the messages. -/
def Apart (sc : Script) (ks : List Text) : Prop := ∀ l ∈ sc.messages, ∀ w ∈ words l, w ∉ ks

instance (sc : Script) : DecidablePred (Apart sc) := fun _ =>
  inferInstanceAs (Decidable (∀ _ ∈ _, ∀ _ ∈ _, _))

/-- The messages are not seen, -/
theorem unseen_message {sc : Script} {ks : List Text} (h : Apart sc ks) {l : Text}
    (hl : l ∈ sc.messages) : Unseen "xid".toList ks l := by
  have hnoxid : ∀ l ∈ sc.messages, capture (xidPattern "xid".toList) (padded l) = none := by
    cases sc <;> decide
  have hkey : ∀ l ∈ sc.messages, ∀ w ∈ words l, tokenKey w = w := by cases sc <;> decide
  refine ⟨hnoxid l hl, fun w hw => ?_⟩
  rw [hkey l hl w hw]
  exact h l hl w hw

theorem newline_notMem_message {sc : Script} {l : Text} (hl : l ∈ sc.messages) : '\n' ∉ l := by
  have hall : ∀ l ∈ sc.messages, '\n' ∉ l := by cases sc <;> decide
  exact hall l hl

/-- and the lines of a round are. -/
theorem LoggedRound.not_unseen (d : LoggedRound) (ks : List Text) {l : Text} (hl : l ∈ d.lines) :
    ¬ Unseen "xid".toList ks l := by
  obtain ⟨chunks, hlines, -, -⟩ := formatRound_chunks d.settings d.round.tstamp d.round.pairs
  unfold LoggedRound.lines at hl
  rw [hlines] at hl
  obtain ⟨ch, -, rfl⟩ := List.mem_map.mp hl
  intro hun
  have hcap := hun.1
  rw [capture_xid d.showxid d.showkeys] at hcap
  cases hcap

/-- The line of data that is written. -/
def Label.line (a : Label Obj) : Option Text := a.event.bind Event.line

/-- A label writes a line of data, or messages. -/
theorem writeLog_cases (sc : Script) (a : Label Obj) :
    (∃ line, a = .main (.write line)) ∨
      (a.line = none ∧ ∀ l ∈ sc.writeLog a, l ∈ sc.messages) := by
  cases a with
  | handler1 => exact Or.inr ⟨rfl, by simp [Script.writeLog, Script.messages]⟩
  | main e =>
      cases e with
      | write line => exact Or.inl ⟨line, rfl⟩
      | noteReread | sigusr2 | sigint =>
          exact Or.inr ⟨rfl, by simp [Script.writeLog, Script.messages]⟩
      | _ => exact Or.inr ⟨rfl, by simp [Script.writeLog]⟩

theorem dataLines_events (tr : List (Label Obj)) :
    dataLines (events tr) = tr.filterMap Label.line := by
  unfold dataLines events
  rw [List.filterMap_filterMap]
  rfl

/-- **Data and messages.**  What sees the lines of data and none of the messages sees the
data of the file. -/
theorem filter_logLines {sc : Script} {p : Text → Bool} (hmsg : ∀ l ∈ sc.messages, ¬ p l)
    (tr : List (Label Obj)) (hdata : ∀ l ∈ dataLines (events tr), p l) :
    (sc.logLines tr).filter p = dataLines (events tr) := by
  rw [dataLines_events] at hdata ⊢
  unfold Script.logLines
  rw [List.filter_cons_of_neg (hmsg startLine List.mem_cons_self)]
  induction tr with
  | nil => rfl
  | cons a tr ih =>
      rw [List.flatMap_cons, List.filter_append]
      rcases writeLog_cases sc a with ⟨line, rfl⟩ | ⟨hnone, hall⟩
      · rw [List.filterMap_cons_some (f := Label.line) (b := line) rfl] at hdata ⊢
        rw [ih fun l hl => hdata l (List.mem_cons_of_mem _ hl)]
        have hline : [line].filter p = [line] :=
          List.filter_cons_of_pos (hdata line List.mem_cons_self)
        exact congrArg (· ++ tr.filterMap Label.line) hline
      · rw [List.filterMap_cons_none hnone] at hdata ⊢
        rw [ih hdata, List.filter_eq_nil_iff.mpr fun l hl => hmsg l (hall l hl), List.nil_append]

theorem mem_dataLines {sc : Script} {tr : List (Label Obj)} {l : Text}
    (hl : l ∈ sc.logLines tr) (hmsg : l ∉ sc.messages) : l ∈ dataLines (events tr) := by
  rcases List.mem_cons.mp hl with rfl | hl
  · exact absurd List.mem_cons_self hmsg
  · obtain ⟨a, ha, hl⟩ := List.mem_flatMap.mp hl
    rw [dataLines_events, List.mem_filterMap]
    rcases writeLog_cases sc a with ⟨line, rfl⟩ | ⟨-, hall⟩
    · rw [List.mem_singleton.mp hl]
      exact ⟨_, ha, rfl⟩
    · exact absurd (hall l hl) hmsg

/-- The lines of data are whole lines of the rounds. -/
theorem Written.mem_lines {tr : List (Event Obj)} {pc : Pc Obj} {ds : List LoggedRound}
    (h : Written tr pc ds) {l : Text} (hl : l ∈ dataLines tr) : ∃ d ∈ ds, l ∈ d.lines := by
  rcases h with ⟨-, -, hdata⟩ | ⟨ds', d, ls, todo, rfl, -, hd, hdata, -⟩
  · rw [hdata] at hl
    exact List.mem_flatMap.mp hl
  · rw [hdata] at hl
    rcases List.mem_append.mp hl with hl | hl
    · obtain ⟨d', hd', hl⟩ := List.mem_flatMap.mp hl
      exact ⟨d', List.mem_append_left _ hd', hl⟩
    · exact ⟨d, by simp, by simp [hd, hl]⟩

/-- No line is broken. -/
theorem Written.newline_notMem {sc : Script} {tr : List (Label Obj)} {pc : Pc Obj}
    {ds : List LoggedRound} (h : Written (events tr) pc ds) {l : Text}
    (hl : l ∈ sc.logLines tr) : '\n' ∉ l := by
  by_cases hmsg : l ∈ sc.messages
  · exact newline_notMem_message hmsg
  · obtain ⟨d, -, hl⟩ := h.mem_lines (mem_dataLines hl hmsg)
    exact d.newline_notMem hl

/-- **The log of a daemon, read back.**  Take any run of the collector, with
signals, rereads and the timer's messages at any time.  If the objects store
what a log can carry, the format keeps timestamps and keys, and the clock has
moved on from one round to the next, then `kvgrep -t xid` prints for each round,
in order, its answer, and nothing else, provided that no word of a message is
asked for.  If a round is still being written, or was when the collector was
interrupted, its answer can be missing. -/
theorem daemon_log (sc : Script) (single : Bool) (st : Settings) (ins outs : List Obj)
    {tr : List (Label Obj)} {s : Collector Obj}
    (run : Run (DaemonStep sc single) (boot sc st ins outs) tr s)
    (hxid : st .showxid = 1) (hkeys : st .showkeys = 1)
    (hcfg : ∀ e ∈ events tr, KeepsFormat e) (hstore : ∀ e ∈ events tr, StoresWell e)
    (htime : ((roundsOf (events tr)).map Prod.fst).IsChain (· < ·))
    (ks : List Text) (hks : ks ≠ []) (hn : ks.Nodup)
    (hk : ∀ k ∈ ks, k ≠ [] ∧ ',' ∉ k ∧ k ≠ "xid".toList ∧ k ≠ "tstamp".toList)
    (hapart : Apart sc ks) :
    (finished (events tr) = (roundsOf (events tr)).length ∧
      kvgrep byXid (join [','] ks) (unlines (sc.logLines tr)) =
        (roundsOf (events tr)).filterMap fun r => answerFor ks r.2) ∨
    (finished (events tr) + 1 = (roundsOf (events tr)).length ∧
      (s.pc.todo ≠ none ∨ s.pc = .exited) ∧
      kvgrep byXid (join [','] ks) (unlines (sc.logLines tr)) ∈
        [(roundsOf (events tr)).filterMap fun r => answerFor ks r.2,
          (roundsOf (events tr)).dropLast.filterMap fun r => answerFor ks r.2]) := by
  have hempty : [] ∉ ks := fun h => (hk _ h).1 rfl
  have hx : "xid".toList ∉ ks := fun h => (hk _ h).2.2.1 rfl
  have ht : "tstamp".toList ∉ ks := fun h => (hk _ h).2.2.2 rfl
  have hsplit : splitChar ',' (join [','] ks) = ks :=
    splitChar_join hks fun k h => ⟨(hk k h).1, (hk k h).2.1⟩
  obtain ⟨ds, hds, hw⟩ := (logging_run (run_events run) hxid hkeys hcfg hstore).rounds
  have hseen : ∀ l ∈ dataLines (events tr), ¬ Unseen "xid".toList ks l := by
    intro l hl
    obtain ⟨d, -, hl⟩ := hw.mem_lines hl
    exact d.not_unseen ks hl
  have hlines : ∀ l ∈ sc.logLines tr, '\n' ∉ l := fun l hl => hw.newline_notMem hl
  have hfile : kvgrep byXid (join [','] ks) (unlines (sc.logLines tr)) =
      (((dataLines (events tr)).map (· ++ ['\n'])).foldl (kvLine byXid ks)
        ⟨[], [], [], [], []⟩).printed byXid ks := by
    rw [kvgrep_eq_printed rfl, hsplit, printed_unlines rfl rfl hempty hlines,
      filter_logLines (fun l hl => by simpa using unseen_message hapart hl) tr
        fun l hl => decide_eq_true (hseen l hl)]
    unfold kvLines unlines
    rw [readlines_unlines]
    intro l hl
    obtain ⟨d, -, hl⟩ := hw.mem_lines hl
    exact d.newline_notMem hl
  have hanswers : ∀ ds : List LoggedRound, (ds.map LoggedRound.entry).filterMap
      (fun r => answerFor ks r.2) = ds.filterMap fun d => d.round.answer ks := by
    intro ds
    rw [List.filterMap_map]
    rfl
  have htimes : ∀ ds : List LoggedRound, (ds.map LoggedRound.entry).map Prod.fst =
      ds.map fun d => d.round.tstamp := by
    intro ds
    rw [List.map_map]
    rfl
  rw [hds, htimes] at htime
  rw [hfile, hds, hanswers, List.length_map]
  rcases hw with ⟨-, hlen, hdata⟩ | ⟨ds', d, ls, todo, rfl, hlen, hd, hdata, hpc⟩
  · left
    rw [hdata]
    exact ⟨hlen.symm, printed_rounds hks hn hempty hx ht ds htime⟩
  · right
    refine ⟨hlen.symm, ?_, ?_⟩
    · rcases hpc with hpc | hpc
      · left
        rw [hpc]
        exact Option.some_ne_none _
      · exact Or.inr hpc
    · rw [hdata, ← List.map_dropLast, hanswers, List.dropLast_concat]
      apply printed_rounds_cut hks hn hempty hx ht htime
      rw [hd]
      exact List.prefix_append ls todo

/-- One round of `dlogger`, interrupted by `SIGUSR2`; the timer answers between
the line and the end of the round. -/
def signalledRound : List (Label Unit) :=
  [.main .installUsr2, .main .installInt, .main .initFlag, .main (.cycle 1 [()] []),
    .main .leaveFor, .main (.start 7),
    .main (.poll () [("a".toList, "1".toList), ("b".toList, [])]),
    .main (.keylist [("b".toList, []), ("tstamp".toList, "7".toList), ("a".toList, "1".toList)]),
    .main .sigusr2, .main (.write "xid=7 b a=1 ".toList), .handler1, .main .cycleDone]

/-- The file has the two messages around the line, and the reader one answer. -/
theorem daemon_log_signalled :
    Script.dlogger.logLines signalledRound =
      [startLine, handler2Text, "xid=7 b a=1 ".toList, handler1Text] ∧
    kvgrep byXid (join [','] ["a".toList, "b".toList])
      (unlines (Script.dlogger.logLines signalledRound)) = ["a=1 b".toList] := by
  have run : ∃ s, Run (DaemonStep .dlogger false)
      (boot .dlogger Script.dlogger.defaults [()] []) signalledRound s :=
    ⟨_, ((((((((((((Run.nil _).snoc (.main (.installUsr2 rfl))).snoc (.main (.installInt rfl))).snoc
      (.main (.initFlag rfl))).snoc (.main (.cycle rfl))).snoc (.main (.leaveFor rfl id))).snoc
      (.main (.startOuter 7 rfl))).snoc (.main (.pollOuter _ rfl))).snoc
      (.main (.keylist _ rfl ⟨by decide, fun h => absurd rfl h⟩))).snoc
      (.main (.sigusr2 (by simp) rfl))).snoc (.main (.write rfl))).snoc (.handler1 rfl)).snoc
      (.main (.cycleDone rfl))⟩
  obtain ⟨s, run⟩ := run
  have hcfg : ∀ e ∈ events signalledRound, KeepsFormat e := by
    intro e he file ins outs hexec
    subst hexec
    simp [events, signalledRound, Label.event] at he
  have hstore : ∀ e ∈ events signalledRound, StoresWell e := by
    intro e he o st hpoll
    subst hpoll
    obtain rfl : st = [("a".toList, "1".toList), ("b".toList, [])] := by
      simpa [events, signalledRound, Label.event] using he
    decide
  have hlog := daemon_log _ _ _ _ _ run rfl rfl hcfg hstore (by decide)
    ["a".toList, "b".toList] (by decide) (by decide) (by decide) (by decide)
  refine ⟨rfl, ?_⟩
  rcases hlog with ⟨-, hlog⟩ | ⟨hcount, -⟩
  · exact hlog.trans (by decide)
  · exact absurd hcount (by decide)

end Memrec
