import Memrec.LogCuts
import Memrec.Pidmem

/-!
# The log of the flight recorder

In each turn of its loop `memrec` polls its objects and then `pidmem`, walks over
`%data`, and writes a line whenever `$linesz` items are there.
`recordRound_runs` says what the loop writes.

`recorder_log` goes from the status files of the process to what `kvgrep` shows:
one line for each turn, in order, with the sizes in bytes.  If the log ends
early, as after an interrupt, the beginning of that is shown, and no turn is
shown with a wrong value.
-/

namespace Memrec.Recorder

open Perl Perl.Hash

/-! ## The writer -/

/-- The body of the loop over the data. -/
def recordItem (s : Settings) (tstamp : Int) (st : WriterState) (p : Text × Text) : WriterState :=
  let st := st.add s p
  if (st.n : Int) = s .linesz then st.write.restart s tstamp else st

/-- The lines of one turn; `pairs` are the entries of `%data` in the order of `each`. -/
def recordRound (s : Settings) (tstamp : Int) (pairs : List (Text × Text)) : List Text :=
  let st := (pairs.filter fun p => p.1 ≠ "tstamp".toList).foldl (recordItem s tstamp)
    ⟨lineHead s tstamp, 0, []⟩
  if st.n > 0 then st.write.out else st.out

/-- **The invariant of the loop.**  Lines that are written are full, and the open one is
not. -/
structure RecordInv (s : Settings) (tstamp : Int) (seen : List (Text × Text))
    (done : List (List (Text × Text))) (cur : List (Text × Text)) (st : WriterState) : Prop
    extends WriterInv s tstamp seen done cur st where
  full : ∀ ch ∈ done, (ch.length : Int) = s .linesz
  unfilled : 0 < s .linesz → (cur.length : Int) < s .linesz

theorem recordInv_step {s : Settings} {tstamp : Int} {seen : List (Text × Text)}
    {done : List (List (Text × Text))} {cur : List (Text × Text)} {st : WriterState}
    (h : RecordInv s tstamp seen done cur st) (p : Text × Text) :
    ∃ done' cur', RecordInv s tstamp (seen ++ [p]) done' cur' (recordItem s tstamp st p) := by
  have hadd := h.toWriterInv.add p
  have hlen : (st.add s p).n = (cur ++ [p]).length := hadd.n
  unfold recordItem
  dsimp only
  by_cases hfull : ((st.add s p).n : Int) = s .linesz
  · rw [if_pos hfull]
    refine ⟨_, _, hadd.close (by simp), ?_, id⟩
    intro ch hch
    rcases List.mem_append.mp hch with hch | hch
    · exact h.full ch hch
    · rw [List.mem_singleton.mp hch, ← hlen, hfull]
  · rw [if_neg hfull]
    refine ⟨_, _, hadd, h.full, ?_⟩
    intro hpos
    have hcur := h.unfilled hpos
    rw [hlen] at hfull
    simp only [List.length_append, List.length_singleton, Nat.cast_add, Nat.cast_one] at hfull ⊢
    omega

theorem recordInv_foldl {s : Settings} {tstamp : Int} (ps : List (Text × Text))
    {seen : List (Text × Text)} {done : List (List (Text × Text))} {cur : List (Text × Text)}
    {st : WriterState} (h : RecordInv s tstamp seen done cur st) :
    ∃ done' cur', RecordInv s tstamp (seen ++ ps) done' cur'
      (ps.foldl (recordItem s tstamp) st) := by
  induction ps generalizing seen done cur st with
  | nil => exact ⟨done, cur, by simpa using h⟩
  | cons p ps ih =>
      obtain ⟨done₁, cur₁, h₁⟩ := recordInv_step h p
      obtain ⟨done', cur', h'⟩ := ih h₁
      exact ⟨done', cur', by simpa using h'⟩

/-- **The lines of a turn** are those of runs of consecutive items.  With a positive line
size all runs but the last are of that size, and the last is not longer. -/
theorem recordRound_runs (s : Settings) (tstamp : Int) (pairs : List (Text × Text)) :
    ∃ runs : List (List (Text × Text)),
      recordRound s tstamp pairs = runs.map (lineText s tstamp) ∧
      runs.flatten = (pairs.filter fun p => p.1 ≠ "tstamp".toList) ∧
      (∀ ch ∈ runs, ch ≠ []) ∧
      (0 < s .linesz → ∀ ch ∈ runs.dropLast, (ch.length : Int) = s .linesz) ∧
      (0 < s .linesz → ∀ ch ∈ runs, (ch.length : Int) ≤ s .linesz) := by
  have hinit : RecordInv s tstamp [] [] [] ⟨lineHead s tstamp, 0, []⟩ :=
    ⟨⟨rfl, by simp [lineText], rfl, rfl, by simp⟩, by simp, id⟩
  obtain ⟨done, cur, h⟩ := recordInv_foldl (pairs.filter fun p => p.1 ≠ "tstamp".toList) hinit
  rw [List.nil_append] at h
  have hseen := h.seen
  refine ⟨_, h.toWriterInv.lines, ?_⟩
  by_cases hcur : cur = []
  · rw [if_pos hcur]
    rw [hcur, List.append_nil] at hseen
    exact ⟨hseen, h.nonempty, fun _ ch hch => h.full ch (List.dropLast_subset done hch),
      fun _ ch hch => (h.full ch hch).le⟩
  · rw [if_neg hcur]
    refine ⟨?_, ?_, ?_, ?_⟩
    · rw [List.flatten_append, List.flatten_singleton, hseen]
    · intro ch hch
      rcases List.mem_append.mp hch with hch | hch
      · exact h.nonempty ch hch
      · rw [List.mem_singleton.mp hch]
        exact hcur
    · intro _ ch hch
      rw [List.dropLast_concat] at hch
      exact h.full ch hch
    · intro hpos ch hch
      rcases List.mem_append.mp hch with hch | hch
      · exact (h.full ch hch).le
      · rw [List.mem_singleton.mp hch]
        exact (h.unfilled hpos).le

/-! ## One turn -/

/-- What a turn of the loop meets: the time, the objects that are polled, the status
file of the process, and the order in which `each` lists the data. -/
structure Turn where
  tstamp : Int
  objs : List (Hash Text Scalar → Hash Text Scalar)
  fields : List Pidmem.Field
  walk : Walk Text Scalar

namespace Turn

/-- `%data` after the objects. -/
def polled (x : Turn) : Hash Text Scalar :=
  x.objs.foldl (fun data getdata => getdata data)
    (AList.insert "tstamp".toList (.num x.tstamp) ∅)

/-- `%data` after `pidmem`. -/
def data (x : Turn) : Hash Text Scalar := Pidmem.getdata x.polled (Pidmem.statusFile x.fields)

variable (shown : ℚ → Text)

/-- The entries that are written. -/
def pairs (x : Turn) : List (Text × Text) :=
  (x.walk.list x.data).map fun e => (e.1, e.2.written shown)

/-- The lines of the turn. -/
def lines (s : Settings) (x : Turn) : List Text := recordRound s x.tstamp (x.pairs shown)

/-- The number in the status file: the bytes of a size, or the number of threads. -/
def amount (x : Turn) (k : Text) : ℕ :=
  ((x.fields.filter fun f => f.key = k).map Pidmem.Field.amount).sum

/-- What should be shown. -/
def answer (ks : List Text) (x : Turn) : Text :=
  join [' '] (ks.map fun k => k ++ '=' :: decimal (x.amount k))

/-- A turn in which the objects store what the log can carry, and the keys that are asked
for are in the status file and nowhere else. -/
structure Readable (ks : List Text) (x : Turn) : Prop where
  polled : ∀ k v, x.polled.lookup k = some v → Storable (k, v.written shown)
  fields : ∀ f ∈ x.fields, ∀ e, f.entry = some e → IsKey e.1
  asked : ∀ k ∈ ks, k ∈ (x.fields.filterMap Pidmem.Field.entry).map Prod.fst
  fresh : ∀ k ∈ ks, k ∉ x.polled
  small : ∀ k ∈ ks, x.amount k < 2 ^ 64

/-! ## What is in the data -/

variable {shown} {ks : List Text} {x : Turn}

theorem data_eq (x : Turn) : x.data = addAll x.polled (x.fields.filterMap Pidmem.Field.entry) := by
  rw [data, Pidmem.getdata_eq, Pidmem.contributions_statusFile]

/-- A key of the status file is counted. -/
theorem key_ne {f : Pidmem.Field} {e : Text × ℚ} (hf : f.entry = some e) :
    e.1 ≠ "xid".toList ∧ e.1 ≠ "tstamp".toList := by
  have hcounted : Pidmem.isCounted e.1 = true := by
    cases f with
    | size key pad kb hname hsize =>
        cases hf
        simp [Pidmem.isCounted, hsize]
    | count key n hname hsize hcount =>
        cases hf
        exact hcount
    | other key value hname hvalue hother => cases hf
  constructor
  · intro heq
    rw [heq] at hcounted
    exact absurd hcounted (by decide)
  · intro heq
    rw [heq] at hcounted
    exact absurd hcounted (by decide)

/-- What is asked for is in the data, as it is in the status file. -/
theorem Readable.lookup_data (h : x.Readable shown ks) {k : Text} (hk : k ∈ ks) :
    x.data.lookup k = some (.num (x.amount k)) := by
  have hnone : x.polled.lookup k = none := AList.lookup_eq_none.mpr (h.fresh k hk)
  have hzero : valueAt x.polled k = 0 := by
    unfold valueAt
    rw [hnone]
    rfl
  rw [data_eq, lookup_addAll_of_mem (h.asked k hk), hzero, zero_add, Pidmem.Field.share_entries]
  rfl

theorem mem_pairs {p : Text × Text} :
    p ∈ x.pairs shown ↔ ∃ v, x.data.lookup p.1 = some v ∧ p.2 = v.written shown := by
  unfold pairs
  rw [List.mem_map]
  constructor
  · intro hp
    obtain ⟨e, he, rfl⟩ := hp
    exact ⟨e.2, x.walk.mem_iff.mp he, rfl⟩
  · intro hp
    obtain ⟨v, hv, hp⟩ := hp
    exact ⟨(p.1, v), x.walk.mem_iff.mpr hv, Prod.ext rfl hp.symm⟩

theorem nodup_pairs (shown : ℚ → Text) (x : Turn) : ((x.pairs shown).map Prod.fst).Nodup := by
  have hwalk := x.walk.nodup x.data
  unfold pairs
  rw [List.map_map]
  exact hwalk

/-- Everything that is written can be carried by the log. -/
theorem Readable.storable (hspace : ∀ q, IsValue (shown q)) (h : x.Readable shown ks)
    {p : Text × Text} (hp : p ∈ x.pairs shown) : Storable p := by
  obtain ⟨v, hv, hp⟩ := mem_pairs.mp hp
  rw [data_eq] at hv
  by_cases hk : p.1 ∈ (x.fields.filterMap Pidmem.Field.entry).map Prod.fst
  · rw [lookup_addAll_of_mem hk, Option.some_inj] at hv
    obtain ⟨e, he, hkey⟩ := List.mem_map.mp hk
    obtain ⟨f, hmem, hf⟩ := List.mem_filterMap.mp he
    refine ⟨hkey ▸ h.fields f hmem e hf, hkey ▸ (key_ne hf).1, ?_⟩
    rw [hp, ← hv]
    exact hspace _
  · rw [lookup_addAll_of_notMem hk] at hv
    have hstore := h.polled p.1 v hv
    rwa [← hp] at hstore

/-- **One turn.**  Its lines are those of a round that is answered for as it should be. -/
theorem Readable.exists_cut (s : Settings) (hspace : ∀ q, IsValue (shown q))
    (hshown : ∀ n : ℕ, n < 2 ^ 64 → shown n = decimal n) (h : x.Readable shown ks) :
    ∃ c : CutRound, c.tstamp = x.tstamp ∧ c.lines s = x.lines shown s ∧
      c.answer ks = some (x.answer ks) := by
  obtain ⟨runs, hlines, hflat, hne, -, -⟩ := recordRound_runs s x.tstamp (x.pairs shown)
  have hsub : runs.flatten.Sublist (x.pairs shown) := by
    rw [hflat]
    exact List.filter_sublist
  have hnodup := (hsub.map Prod.fst).nodup (nodup_pairs shown x)
  have hentry : ∀ k ∈ ks, (k, decimal (x.amount k)) ∈ runs.flatten := by
    intro k hk
    obtain ⟨e, he, heq⟩ := List.mem_map.mp (h.asked k hk)
    obtain ⟨f, -, hf⟩ := List.mem_filterMap.mp he
    have hpair : (k, decimal (x.amount k)) ∈ x.pairs shown :=
      mem_pairs.mpr ⟨_, h.lookup_data hk, (hshown _ (h.small k hk)).symm⟩
    rw [hflat]
    exact List.mem_filter.mpr ⟨hpair, decide_eq_true (heq ▸ (key_ne hf).2)⟩
  refine ⟨⟨x.tstamp, runs, hne, hnodup, fun p hp => h.storable hspace (hsub.subset hp)⟩, rfl,
    hlines.symm, ?_⟩
  unfold CutRound.answer answerFor answer
  rw [if_pos fun k hk => List.mem_map_of_mem (hentry k hk)]
  congr 2
  apply List.map_congr_left
  intro k hk
  rw [lookup_of_nodup hnodup (hentry k hk), Option.getD_some]
  unfold logToken
  rw [if_neg (decimal_ne_nil _)]

end Turn

/-! ## The whole log -/

/-- The lines of `TXTLOG` after some turns. -/
def log (shown : ℚ → Text) (s : Settings) (xs : List Turn) : List Text :=
  xs.flatMap (Turn.lines shown s)

theorem exists_cuts {shown : ℚ → Text} (s : Settings) (hspace : ∀ q, IsValue (shown q))
    (hshown : ∀ n : ℕ, n < 2 ^ 64 → shown n = decimal n) {ks : List Text} {xs : List Turn}
    (h : ∀ x ∈ xs, x.Readable shown ks) :
    ∃ cs : List CutRound, cs.map CutRound.tstamp = xs.map Turn.tstamp ∧
      cutLines s cs = log shown s xs ∧
      cs.filterMap (CutRound.answer ks) = xs.map (Turn.answer ks) := by
  induction xs with
  | nil => exact ⟨[], rfl, rfl, rfl⟩
  | cons x xs ih =>
      obtain ⟨c, htime, hlines, hanswer⟩ := (h x List.mem_cons_self).exists_cut s hspace hshown
      obtain ⟨cs, htimes, hlog, hanswers⟩ := ih fun y hy => h y (List.mem_cons_of_mem x hy)
      refine ⟨c :: cs, ?_, ?_, ?_⟩
      · rw [List.map_cons, List.map_cons, htime, htimes]
      · unfold cutLines log at hlog ⊢
        rw [List.flatMap_cons, List.flatMap_cons, hlines, hlog]
      · rw [List.filterMap_cons_some hanswer, hanswers, List.map_cons]

/-- **From the process to the reader.**  Take any number of turns at increasing times,
in which the objects store what a log can carry, and ask for sizes and counts that
the status files have.  Then `kvgrep -t xid` shows one line for each turn, in
order, with the sizes in bytes, whatever else is in the data, in which order
`each` lists it and how it is cut into lines.  Of a log that ends after any line,
it shows the beginning of that. -/
theorem recorder_log (shown : ℚ → Text) (hspace : ∀ q, IsValue (shown q))
    (hshown : ∀ n : ℕ, n < 2 ^ 64 → shown n = decimal n) (s : Settings) (hxid : s .showxid = 1)
    (hkeys : s .showkeys = 1) (xs : List Turn) (htime : (xs.map Turn.tstamp).IsChain (· < ·))
    (ks : List Text) (hks : ks ≠ []) (hn : ks.Nodup)
    (hk : ∀ k ∈ ks, k ≠ [] ∧ ',' ∉ k ∧ k ≠ "xid".toList ∧ k ≠ "tstamp".toList)
    (hxs : ∀ x ∈ xs, x.Readable shown ks) :
    kvgrep byXid (join [','] ks) (unlines (log shown s xs)) = xs.map (Turn.answer ks) ∧
    ∀ ls, ls <+: log shown s xs →
      kvgrep byXid (join [','] ks) (unlines ls) <+: xs.map (Turn.answer ks) := by
  obtain ⟨cs, htimes, hlog, hanswers⟩ := exists_cuts s hspace hshown hxs
  rw [← htimes] at htime
  rw [← hlog, ← hanswers]
  exact ⟨kvgrep_cuts hxid hkeys hks hn hk cs htime,
    fun ls hls => kvgrep_cuts_prefix hxid hkeys hks hn hk cs htime hls⟩

/-- A status file with one size, in a turn without objects. -/
def oneTurn (tstamp : Int) (kb : Nat) : Turn where
  tstamp := tstamp
  objs := []
  fields := [
    .other "Name".toList "a: VmRSS: 1 kB".toList (by decide) (by decide) (by decide +kernel),
    .size "VmRSS".toList 3 kb (by decide) rfl,
    .count "Threads".toList 1 (by decide) (by decide +kernel) (by decide +kernel)]
  walk := .kept

theorem readable_oneTurn (tstamp : Int) {kb : Nat} (hkb : kb < 2 ^ 54) :
    (oneTurn tstamp kb).Readable (fun q => decimal q.num) ["VmRSS".toList, "Threads".toList] where
  polled := by
    intro k v hv
    have hkey : k = "tstamp".toList := by
      by_contra hne
      rw [Turn.polled, oneTurn, List.foldl_nil, AList.lookup_insert_ne hne,
        AList.lookup_empty] at hv
      cases hv
    subst hkey
    rw [Turn.polled, oneTurn, List.foldl_nil, AList.lookup_insert, Option.some_inj] at hv
    rw [← hv]
    exact storable_tstamp _
  fields := by
    intro f hf e he
    have hkeys : (oneTurn tstamp kb).fields.map Pidmem.Field.key =
        ["Name".toList, "VmRSS".toList, "Threads".toList] := rfl
    have hall : ∀ k ∈ ["Name".toList, "VmRSS".toList, "Threads".toList], IsKey k := by decide
    have hmem : f.key ∈ (oneTurn tstamp kb).fields.map Pidmem.Field.key := List.mem_map_of_mem hf
    rw [hkeys] at hmem
    rw [Pidmem.Field.entry_eq he]
    exact hall f.key hmem
  asked := by
    intro k hk
    have hentries : ((oneTurn tstamp kb).fields.filterMap Pidmem.Field.entry).map Prod.fst =
        ["VmRSS".toList, "Threads".toList] := rfl
    rwa [hentries]
  fresh := by
    intro k hk
    have hne : k ≠ "tstamp".toList := by
      have hall : ∀ k ∈ ["VmRSS".toList, "Threads".toList], k ≠ "tstamp".toList := by decide
      exact hall k hk
    rw [← AList.lookup_eq_none, Turn.polled, oneTurn, List.foldl_nil, AList.lookup_insert_ne hne,
      AList.lookup_empty]
  small := by
    intro k hk
    rcases List.mem_cons.mp hk with rfl | hk
    · have hsize : (oneTurn tstamp kb).fields.filter (fun f => f.key = "VmRSS".toList) =
          [.size "VmRSS".toList 3 kb (by decide) rfl] := rfl
      unfold Turn.amount
      rw [hsize, List.map_singleton, List.sum_singleton]
      simp only [Pidmem.Field.amount]
      omega
    · rw [List.mem_singleton.mp hk]
      exact Nat.one_lt_two_pow (by decide)

/-- Two turns, two items to a line; a name that looks like a size is not counted. -/
theorem recorder_log_two :
    kvgrep byXid (join [','] ["VmRSS".toList, "Threads".toList])
      (unlines (log (fun q => decimal q.num) twoToALine [oneTurn 7 12, oneTurn 8 3])) =
      ["VmRSS=12288 Threads=1".toList, "VmRSS=3072 Threads=1".toList] := by
  have hreadable : ∀ x ∈ [oneTurn 7 12, oneTurn 8 3],
      x.Readable (fun q => decimal q.num) ["VmRSS".toList, "Threads".toList] := by
    intro x hx
    rcases List.mem_cons.mp hx with rfl | hx
    · exact readable_oneTurn 7 (by norm_num)
    · rw [List.mem_singleton.mp hx]
      exact readable_oneTurn 8 (by norm_num)
  exact (recorder_log (fun q => decimal q.num) (fun q => decimal_not_space _) (fun n _ => rfl)
    twoToALine rfl rfl _ (by decide) _ (by decide) (by decide) (by decide) hreadable).1.trans
    (by decide)

end Memrec.Recorder
