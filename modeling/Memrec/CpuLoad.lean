import Mathlib.Data.List.GetD
import Memrec.MissingCounters

/-!
# The load that `procstat` publishes

Every `cpu` line of `/proc/stat` has eight counters.  `getdata` advances them
with the columns of the line, takes the sum of the increments for the ticks of
the interval and the fourth one for its idle ticks, and publishes which
percentage was not idle: that of the line `cpu` under `cpu`, that of the line
`cpuK` as an element of `cpu_list`.

The counters of a line are those it had before the scan when its turn comes,
because no two lines have one name (`Scanned`).  What is published is then the
percentage of the interval since the snapshot before, always between 0 and 100
and in its place.  An interval without a tick is the exception.  The guard sets
the sum to one, so that the idle share is zero and a processor that did nothing
is reported as busy all the time (`cpu_load_iff`).
-/

namespace Memrec

open Perl CellBank Runs

/-! ## Processors and their ticks -/

/-- The name of the aggregate line. -/
def cpuAll : Text := "cpu".toList

/-- The name of the line of a processor. -/
def cpuName (k : Nat) : Text := "cpu".toList ++ decimal k

/-- The names of the lines of a snapshot, in file order. -/
def cpuNames (stat : Text) : List Text := (cpuLines stat).map Prod.fst

/-- Column `j` of a line; the name is column zero. -/
def cpuCol (stat e : Text) (j : Nat) : ℚ := fieldNum (((cpuLines stat).lookup e).getD []) j

/-- The increments of columns 1 to 8. -/
def increments (a b e : Text) : List ℚ :=
  (List.range' 1 8).map fun j => cpuCol b e j - cpuCol a e j

/-- The ticks of a line between two snapshots. -/
def ticks (a b e : Text) : ℚ := (increments a b e).sum

/-- Those of them that were idle. -/
def idleTicks (a b e : Text) : ℚ := cpuCol b e 4 - cpuCol a e 4

/-- Two snapshots of the same processors, without a column that decreases. -/
structure CpuInterval (a b : Text) : Prop where
  nodup₁ : (cpuNames a).Nodup
  nodup₂ : (cpuNames b).Nodup
  same : ∀ e, e ∈ cpuNames a ↔ e ∈ cpuNames b
  named : ∀ e ∈ cpuNames b, e = cpuAll ∨ ∃ k, e = cpuName k
  grows : ∀ e ∈ cpuNames b, ∀ j ∈ List.range' 1 8, cpuCol a e j ≤ cpuCol b e j

theorem cpuName_ne_cpuAll (k : Nat) : cpuName k ≠ cpuAll := by
  intro h
  have hlen := congrArg List.length h
  simp only [cpuName, cpuAll, List.length_append, Nat.add_eq_left,
    List.length_eq_zero_iff] at hlen
  exact decimal_ne_nil k hlen

theorem cpuName_injective : Function.Injective cpuName := fun _ _ h =>
  Int.ofNat.inj (decimal_injective (List.append_cancel_left h))

/-- `s/cpu//` leaves the number. -/
theorem numify_cpuName (k : Nat) : int (numify ((cpuName k).drop 3)) = k := by
  have hdrop : (cpuName k).drop 3 = decimal k := rfl
  rw [hdrop, numify_decimal, int_natCast]

theorem cpuCol_of_mem {stat : Text} (hn : (cpuNames stat).Nodup) {p : Text × List Text}
    (hp : p ∈ cpuLines stat) (j : Nat) : cpuCol stat p.1 j = fieldNum p.2 j := by
  rw [cpuCol, lookup_of_nodup hn hp, Option.getD_some]

/-! ## The percentage -/

/-- No entry of a list of increments exceeds their sum. -/
theorem getD_le_sum {ds : List ℚ} (hds : ∀ d ∈ ds, 0 ≤ d) (i : Nat) :
    0 ≤ ds.getD i 0 ∧ ds.getD i 0 ≤ ds.sum := by
  by_cases hi : i < ds.length
  · have hmem : ds.getD i 0 ∈ ds := by
      rw [List.getD_eq_getElem _ _ hi]
      exact List.getElem_mem hi
    exact ⟨hds _ hmem, List.single_le_sum hds _ hmem⟩
  · rw [List.getD_eq_default _ _ (by omega)]
    exact ⟨le_rfl, List.sum_nonneg hds⟩

namespace Procstat

theorem busy_of_pos {ds : List ℚ} (hds : ∀ d ∈ ds, 0 ≤ d) (hpos : 0 < ds.sum) :
    busy ds = ⌊100 * (ds.sum - ds.getD 3 0) / ds.sum⌋ := by
  obtain ⟨-, hle⟩ := getD_le_sum hds 3
  have hshare : 100 - 100 * ds.getD 3 0 / ds.sum = 100 * (ds.sum - ds.getD 3 0) / ds.sum := by
    field_simp
  have hnonneg : 0 ≤ 100 * (ds.sum - ds.getD 3 0) / ds.sum :=
    div_nonneg (mul_nonneg (by norm_num) (sub_nonneg.mpr hle)) hpos.le
  simp only [busy, if_neg hpos.ne']
  rw [hshare, int, if_pos hnonneg]

/-- Without a tick nothing is idle and all of one tick is busy. -/
theorem busy_of_zero {ds : List ℚ} (hds : ∀ d ∈ ds, 0 ≤ d) (hzero : ds.sum = 0) :
    busy ds = 100 := by
  obtain ⟨hnonneg, hle⟩ := getD_le_sum hds 3
  have hidle : ds.getD 3 0 = 0 := le_antisymm (hzero ▸ hle) hnonneg
  simp only [busy, if_pos hzero, hidle]
  norm_num [int]

theorem busy_range {ds : List ℚ} (hds : ∀ d ∈ ds, 0 ≤ d) : 0 ≤ busy ds ∧ busy ds ≤ 100 := by
  rcases (List.sum_nonneg hds).eq_or_lt with hzero | hpos
  · rw [busy_of_zero hds hzero.symm]
    decide
  · obtain ⟨hnonneg, hle⟩ := getD_le_sum hds 3
    rw [busy_of_pos hds hpos]
    refine ⟨Int.floor_nonneg.mpr (div_nonneg (by linarith) hpos.le), ?_⟩
    have hshare : 100 * (ds.sum - ds.getD 3 0) / ds.sum ≤ ((100 : Int) : ℚ) := by
      rw [div_le_iff₀ hpos]
      push_cast
      linarith
    exact Int.cast_le.mp ((Int.floor_le _).trans hshare)

end Procstat

/-! ## One line -/

namespace Procstat

/-- The counters of a line take its columns, and what they held decides the
increments. -/
theorem feed_line {ctr : Bank (Text × Nat) (Wrapctr ℚ)} (p : Text × List Text) {old : Nat → ℚ}
    (hold : ∀ j ∈ List.range' 1 8, (ctr (p.1, j)).map Wrapctr.v = some (old j)) :
    ∃ ctr', feed Wrapctr.update Die.undefMethod (fun ds _ d => ds ++ [d]) (ctr, [])
        (cpuReadings p) =
        .ok (ctr', (List.range' 1 8).map fun j => Wrapctr.step (old j) (fieldNum p.2 j)) ∧
      (∀ j ∈ List.range' 1 8, (ctr' (p.1, j)).map Wrapctr.v = some (fieldNum p.2 j)) ∧
      ∀ e, e ≠ p.1 → ∀ j, ctr' (e, j) = ctr (e, j) := by
  have hkeys : ((cpuReadings p).map Prod.fst).Nodup := by
    rw [cpuReadings, List.map_map]
    exact List.Nodup.map (fun i j h => (Prod.mk.inj h).2) List.nodup_range'
  have hcells : ∀ r ∈ cpuReadings p, (ctr r.1).map Wrapctr.v = some (old r.1.2) := by
    intro r hr
    obtain ⟨j, hj, rfl⟩ := List.mem_map.mp hr
    exact hold j hj
  have houts : (cpuReadings p).foldl (fun ds r => ds ++ [Wrapctr.step (old r.1.2) r.2]) [] =
      (List.range' 1 8).map fun j => Wrapctr.step (old j) (fieldNum p.2 j) := by
    rw [foldl_collect, List.nil_append, cpuReadings, List.map_map]
    rfl
  obtain ⟨ctr', hfeed, htake, hkeep⟩ := feed_counters (fun ds _ d => ds ++ [d])
    (fun k => old k.2) hkeys hcells []
  refine ⟨ctr', by rw [hfeed, houts], ?_, ?_⟩
  · intro j hj
    exact htake ((p.1, j), fieldNum p.2 j) (List.mem_map_of_mem hj)
  · intro e he j
    refine hkeep _ fun hmem => ?_
    obtain ⟨r, hr, hrk⟩ := List.mem_map.mp hmem
    obtain ⟨i, -, rfl⟩ := List.mem_map.mp hr
    exact he (congrArg Prod.fst hrk).symm

/-! ## One scan -/

/-- The scan of `getdata` after some lines, `pct` being the percentage for each
name. -/
structure Scanned (ctr : Bank (Text × Nat) (Wrapctr ℚ)) (pct : Text → Int)
    (lines : List (Text × List Text))
    (st : Bank (Text × Nat) (Wrapctr ℚ) × Option ℚ × List (Option ℚ)) : Prop where
  fed : ∀ p ∈ lines, ∀ j ∈ List.range' 1 8,
    (st.1 (p.1, j)).map Wrapctr.v = some (fieldNum p.2 j)
  rest : ∀ e, e ∉ lines.map Prod.fst → ∀ j, st.1 (e, j) = ctr (e, j)
  total : st.2.1 = if cpuAll ∈ lines.map Prod.fst then some (pct cpuAll : ℚ) else none
  list : ∃ data : List (Option Int), st.2.2 = data.map (Option.map Int.cast) ∧
    ∀ k, data.getD k none =
      if cpuName k ∈ lines.map Prod.fst then some (pct (cpuName k)) else none

theorem mem_names_snoc {lines : List (Text × List Text)} {p : Text × List Text} {e : Text} :
    e ∈ (lines ++ [p]).map Prod.fst ↔ e ∈ lines.map Prod.fst ∨ e = p.1 := by
  rw [List.map_append, List.mem_append, List.map_singleton, List.mem_singleton]

/-- The counters of the lines so far and of one more. -/
theorem Scanned.fed_snoc {ctr ctr' : Bank (Text × Nat) (Wrapctr ℚ)} {pct : Text → Int}
    {lines : List (Text × List Text)}
    {st : Bank (Text × Nat) (Wrapctr ℚ) × Option ℚ × List (Option ℚ)}
    (h : Scanned ctr pct lines st) {p : Text × List Text} (hnew : p.1 ∉ lines.map Prod.fst)
    (hfed : ∀ j ∈ List.range' 1 8, (ctr' (p.1, j)).map Wrapctr.v = some (fieldNum p.2 j))
    (hkept : ∀ e, e ≠ p.1 → ∀ j, ctr' (e, j) = st.1 (e, j)) :
    (∀ q ∈ lines ++ [p], ∀ j ∈ List.range' 1 8,
      (ctr' (q.1, j)).map Wrapctr.v = some (fieldNum q.2 j)) ∧
    ∀ e, e ∉ (lines ++ [p]).map Prod.fst → ∀ j, ctr' (e, j) = ctr (e, j) := by
  constructor
  · intro q hq j hj
    rcases List.mem_append.mp hq with hq | hq
    · have hne : q.1 ≠ p.1 := fun heq => hnew (heq ▸ List.mem_map_of_mem hq)
      rw [hkept _ hne]
      exact h.fed q hq j hj
    · obtain rfl := List.mem_singleton.mp hq
      exact hfed j hj
  · intro e he j
    rw [mem_names_snoc, not_or] at he
    rw [hkept e he.2, h.rest e he.1]

/-- **One line.**  The line finds its counters as they were before the scan. -/
theorem Scanned.line {ctr : Bank (Text × Nat) (Wrapctr ℚ)} {pct : Text → Int}
    {lines : List (Text × List Text)}
    {st : Bank (Text × Nat) (Wrapctr ℚ) × Option ℚ × List (Option ℚ)}
    (h : Scanned ctr pct lines st) {p : Text × List Text} {old : Nat → ℚ}
    (hnew : p.1 ∉ lines.map Prod.fst) (hname : p.1 = cpuAll ∨ ∃ k, p.1 = cpuName k)
    (hold : ∀ j ∈ List.range' 1 8, (ctr (p.1, j)).map Wrapctr.v = some (old j))
    (hpct : busy ((List.range' 1 8).map fun j => Wrapctr.step (old j) (fieldNum p.2 j)) =
      pct p.1) :
    ∃ st', scanLine st p = .ok st' ∧ Scanned ctr pct (lines ++ [p]) st' := by
  have hst : ∀ j ∈ List.range' 1 8, (st.1 (p.1, j)).map Wrapctr.v = some (old j) := by
    intro j hj
    rw [h.rest p.1 hnew j]
    exact hold j hj
  obtain ⟨ctr', hfeed, hfed, hkept⟩ := feed_line p hst
  obtain ⟨data, hdata, hget⟩ := h.list
  have hbank := h.fed_snoc hnew hfed hkept
  rcases hname with hall | ⟨k, hk⟩
  · refine ⟨(ctr', some (pct p.1 : ℚ), st.2.2), ?_, hbank.1, hbank.2, ?_, data, hdata, ?_⟩
    · rw [scanLine, hfeed, ok_bind, if_pos (show p.1 = "cpu".toList from hall), hpct]
      rfl
    · rw [hall, if_pos (mem_names_snoc.mpr (Or.inr hall.symm))]
    · intro j
      have hj : cpuName j ≠ p.1 := hall ▸ cpuName_ne_cpuAll j
      simp only [hget j, mem_names_snoc, hj, or_false]
  · have hne : cpuAll ≠ p.1 := hk ▸ (cpuName_ne_cpuAll k).symm
    refine ⟨(ctr', st.2.1, setAt st.2.2 k (pct p.1 : ℚ)), ?_, hbank.1, hbank.2, ?_,
      setAt data k (pct p.1), ?_, ?_⟩
    · rw [scanLine, hfeed, ok_bind, if_neg (show p.1 ≠ "cpu".toList from hne.symm), hpct, hk,
        numify_cpuName, storeAt, if_pos (Int.natCast_nonneg k), Int.toNat_natCast]
      rfl
    · simp only [h.total, mem_names_snoc, hne, or_false]
    · rw [map_setAt, hdata]
    · intro j
      rw [getD_setAt, hget j]
      simp only [mem_names_snoc, hk, cpuName_injective.eq_iff]
      by_cases hj : j = k
      · subst hj
        simp only [or_true, if_true]
      · simp only [hj, or_false, if_false]

/-- **One scan.** -/
theorem scan_spec {ctr : Bank (Text × Nat) (Wrapctr ℚ)} {stat : Text} {old : Text → Nat → ℚ}
    (hn : (cpuNames stat).Nodup) (hnamed : ∀ e ∈ cpuNames stat, e = cpuAll ∨ ∃ k, e = cpuName k)
    (hold : ∀ e ∈ cpuNames stat, ∀ j ∈ List.range' 1 8,
      (ctr (e, j)).map Wrapctr.v = some (old e j)) :
    ∃ st, (cpuLines stat).foldlM scanLine (ctr, none, []) = .ok st ∧
      Scanned ctr (fun e => busy ((List.range' 1 8).map fun j =>
        Wrapctr.step (old e j) (cpuCol stat e j))) (cpuLines stat) st := by
  refine foldlM_total ⟨by simp, by simp, rfl, [], rfl, by simp⟩ (cpuLines stat) ?_
  intro pre p post st hsplit hst
  have hp : p ∈ cpuLines stat := by simp [hsplit]
  have hmem : p.1 ∈ cpuNames stat := List.mem_map_of_mem hp
  refine hst.line ?_ (hnamed p.1 hmem) (hold p.1 hmem) ?_
  · intro hpre
    have hdis := hn
    rw [cpuNames, hsplit, List.map_append, List.map_cons, List.nodup_append] at hdis
    exact hdis.2.2 p.1 hpre p.1 List.mem_cons_self rfl
  · simp only [cpuCol_of_mem hn hp]

/-! ## Between two calls -/

/-- The counters hold the columns of a snapshot. -/
def Reads (stat : Text) (ctr : Bank (Text × Nat) (Wrapctr ℚ)) : Prop :=
  ∀ e ∈ cpuNames stat, ∀ j ∈ List.range' 1 8,
    (ctr (e, j)).map Wrapctr.v = some (cpuCol stat e j)

theorem Scanned.reads {ctr : Bank (Text × Nat) (Wrapctr ℚ)} {pct : Text → Int} {stat : Text}
    {st : Bank (Text × Nat) (Wrapctr ℚ) × Option ℚ × List (Option ℚ)}
    (h : Scanned ctr pct (cpuLines stat) st) (hn : (cpuNames stat).Nodup) :
    Reads stat st.1 := by
  intro e he j hj
  obtain ⟨p, hp, rfl⟩ := List.mem_map.mp he
  rw [cpuCol_of_mem hn hp]
  exact h.fed p hp j hj

theorem new_reads {stat : Text} (hn : (cpuNames stat).Nodup) : Reads stat (new stat).ctr := by
  intro e he j hj
  obtain ⟨p, hp, rfl⟩ := List.mem_map.mp he
  have hmem : ((p.1, j), Wrapctr.new (fieldNum p.2 j)) ∈
      (cpuLines stat).flatMap fun p => fresh (cpuReadings p) :=
    List.mem_flatMap.mpr ⟨p, hp, List.mem_map_of_mem (List.mem_map_of_mem hj)⟩
  have hkey : ∀ q ∈ (cpuLines stat).flatMap fun p => fresh (cpuReadings p),
      q.1 = (p.1, j) → q.2 = Wrapctr.new (fieldNum p.2 j) := by
    intro q hq hqk
    obtain ⟨p', hp', hq⟩ := List.mem_flatMap.mp hq
    obtain ⟨r, hr, rfl⟩ := List.mem_map.mp hq
    obtain ⟨i, hi, rfl⟩ := List.mem_map.mp hr
    obtain ⟨hname, rfl⟩ := Prod.mk.inj hqk
    -- The name determines the line.
    have hrow : p.2 = p'.2 :=
      Option.some.inj ((lookup_of_nodup hn hp).symm.trans (hname ▸ lookup_of_nodup hn hp'))
    rw [hrow]
  have hcell : (new stat).ctr (p.1, j) = some (Wrapctr.new (fieldNum p.2 j)) := by
    rw [new, foldl_putAll]
    exact putAll_of_agree (fun _ => none) (List.mem_map_of_mem hmem) hkey
  rw [hcell, cpuCol_of_mem hn hp]
  rfl

theorem getdata_reads {s : Procstat} {call : Int × Text} {r : Procstat × List (Text × Datum)}
    (hn : (cpuNames call.2).Nodup)
    (hnamed : ∀ e ∈ cpuNames call.2, e = cpuAll ∨ ∃ k, e = cpuName k)
    (h : s.getdata call = .ok r) : Reads call.2 r.1.ctr := by
  have hctr : ∀ e ∈ cpuNames call.2, ∀ j ∈ List.range' 1 8,
      (s.ctr (e, j)).map Wrapctr.v = some (((s.ctr (e, j)).map Wrapctr.v).getD 0) := by
    intro e he j hj
    obtain ⟨p, hp, rfl⟩ := List.mem_map.mp he
    have hsome := Procstat.needs.needs s call r h (p.1, j) (List.mem_map.mpr
      ⟨((p.1, j), fieldNum p.2 j), List.mem_flatMap.mpr ⟨p, hp, List.mem_map_of_mem hj⟩, rfl⟩)
    exact map_v_of_isSome hsome
  obtain ⟨st, hst, hscan⟩ := scan_spec hn hnamed hctr
  rw [getdata, hst, ok_bind] at h
  cases h
  exact hscan.reads hn

/-- The snapshot read last. -/
def lastRead (stat₀ : Text) (calls : List (Int × Text)) : Text :=
  (calls.getLast?.map Prod.snd).getD stat₀

/-- **Every reachable state** holds the snapshot read last. -/
theorem reads_after {stat₀ : Text} {calls : List (Int × Text)} {s : Procstat}
    (hrun : after getdata (new stat₀) calls = .ok s) (hn : (cpuNames (lastRead stat₀ calls)).Nodup)
    (hnamed : ∀ e ∈ cpuNames (lastRead stat₀ calls), e = cpuAll ∨ ∃ k, e = cpuName k) :
    Reads (lastRead stat₀ calls) s.ctr := by
  obtain rfl | ⟨pre, call, rfl⟩ := calls.eq_nil_or_concat'
  · cases hrun
    exact new_reads hn
  · have hlast : lastRead stat₀ (pre ++ [call]) = call.2 := by simp [lastRead]
    rw [hlast] at hn hnamed ⊢
    obtain ⟨m, r, -, hr, rfl⟩ := after_snoc_ok hrun
    exact getdata_reads hn hnamed hr

end Procstat

/-! ## What is published -/

/-- `join( ',', @data )` for whole numbers; an element that was never assigned is
empty. -/
def joinCommas (data : List (Option Int)) : Text :=
  join [','] (data.map fun x => (x.map decimal).getD [])

/-- The percentages stand where they belong: that of the aggregate line under
`cpu`, that of processor `k` as element `k` of `cpu_list`. -/
structure Published (names : List Text) (pct : Text → Int) (out : List (Text × Datum)) : Prop where
  total : cpuAll ∈ names → out.lookup "cpu".toList = some (.num (pct cpuAll))
  list : ∃ data : List (Option Int),
    out.lookup "cpu_list".toList = some (.commas (data.map (Option.map Int.cast))) ∧
    ∀ k, cpuName k ∈ names →
      ((joinCommas data).splitOn ',')[k]? = some (decimal (pct (cpuName k)))

/-- Elements without a comma are read back. -/
theorem splitOn_joinCommas {data : List (Option Int)} (hne : data ≠ []) :
    (joinCommas data).splitOn ',' = data.map fun x => (x.map decimal).getD [] := by
  refine List.splitOn_intercalate ',' ?_ (by simpa using hne)
  intro w hw
  obtain ⟨x, -, rfl⟩ := List.mem_map.mp hw
  cases x with
  | none => exact List.not_mem_nil
  | some n => exact notMem_decimal (by decide) (by decide) n

/-- The names and the elements determine the percentages. -/
theorem Published.unique {names : List Text} {pct pct' : Text → Int} {out : List (Text × Datum)}
    (h : Published names pct out) (h' : Published names pct' out) {e : Text} (he : e ∈ names)
    (hname : e = cpuAll ∨ ∃ k, e = cpuName k) : pct e = pct' e := by
  rcases hname with rfl | ⟨k, rfl⟩
  · have heq := (h.total he).symm.trans (h'.total he)
    simpa using heq
  · obtain ⟨data, hdata, hget⟩ := h.list
    obtain ⟨data', hdata', hget'⟩ := h'.list
    have hinj : Function.Injective (List.map (Option.map (Int.cast : Int → ℚ))) :=
      (Option.map_injective Int.cast_injective).list_map
    have heq : data = data' := by
      refine hinj ?_
      simpa using hdata.symm.trans hdata'
    subst heq
    exact decimal_injective (Option.some.inj ((hget k he).symm.trans (hget' k he)))

theorem Published.congr {names : List Text} {pct pct' : Text → Int} {out : List (Text × Datum)}
    (h : Published names pct out) (heq : ∀ e ∈ names, pct e = pct' e) :
    Published names pct' out where
  total hall := by
    rw [← heq _ hall]
    exact h.total hall
  list := by
    obtain ⟨data, hdata, hget⟩ := h.list
    refine ⟨data, hdata, fun k hk => ?_⟩
    rw [← heq _ hk]
    exact hget k hk

namespace Procstat

/-- What a scan has put together is published in its place. -/
theorem Scanned.published {ctr : Bank (Text × Nat) (Wrapctr ℚ)} {pct : Text → Int} {stat : Text}
    {st : Bank (Text × Nat) (Wrapctr ℚ) × Option ℚ × List (Option ℚ)}
    (h : Scanned ctr pct (cpuLines stat) st) :
    Published (cpuNames stat) pct (st.2.1.toList.map (fun x => ("cpu".toList, .num x)) ++
      [("cpu_list".toList, .commas st.2.2)]) := by
  obtain ⟨data, hdata, hget⟩ := h.list
  constructor
  · intro hall
    rw [h.total, if_pos (show cpuAll ∈ (cpuLines stat).map Prod.fst from hall)]
    rfl
  · refine ⟨data, ?_, fun k hk => ?_⟩
    · rw [hdata]
      cases st.2.1 <;> rfl
    · have hk : data.getD k none = some (pct (cpuName k)) := (hget k).trans (if_pos hk)
      have hlt : k < data.length := by
        by_contra hge
        rw [List.getD_eq_default _ _ (by omega)] at hk
        cases hk
      rw [List.getD_eq_getElem _ _ hlt] at hk
      rw [splitOn_joinCommas (List.ne_nil_of_length_pos (by omega)), List.getElem?_map,
        List.getElem?_eq_getElem hlt, hk]
      rfl

/-- **One call.** -/
theorem getdata_published {s : Procstat} {a : Text} (hs : Reads a s.ctr)
    (call : Int × Text) (h : CpuInterval a call.2) :
    ∃ r, s.getdata call = .ok r ∧
      Published (cpuNames call.2) (fun e => busy (increments a call.2 e)) r.2 := by
  have hold : ∀ e ∈ cpuNames call.2, ∀ j ∈ List.range' 1 8,
      (s.ctr (e, j)).map Wrapctr.v = some (cpuCol a e j) := fun e he =>
    hs e ((h.same e).mpr he)
  obtain ⟨st, hst, hscan⟩ := scan_spec h.nodup₂ h.named hold
  refine ⟨({ s with ctr := st.1, lastTstamp := call.1 }, _), ?_,
    hscan.published.congr fun e he => ?_⟩
  · rw [getdata, hst, ok_bind]
    rfl
  · have hsteps : ∀ j ∈ List.range' 1 8, Wrapctr.step (cpuCol a e j) (cpuCol call.2 e j) =
        cpuCol call.2 e j - cpuCol a e j := fun j hj => Wrapctr.step_of_le (h.grows e he j hj)
    rw [increments, List.map_congr_left hsteps]

end Procstat

/-- The percentage of the ticks that were not idle; none of no ticks. -/
def loadOf (a b e : Text) : Int :=
  if 0 < ticks a b e then ⌊100 * (ticks a b e - idleTicks a b e) / ticks a b e⌋ else 0

theorem CpuInterval.increments_nonneg {a b e : Text} (h : CpuInterval a b) (he : e ∈ cpuNames b) :
    ∀ d ∈ increments a b e, 0 ≤ d := by
  intro d hd
  obtain ⟨j, hj, rfl⟩ := List.mem_map.mp hd
  exact sub_nonneg.mpr (h.grows e he j hj)

/-- What is computed is the percentage exactly if there was a tick. -/
theorem CpuInterval.busy_iff {a b e : Text} (h : CpuInterval a b) (he : e ∈ cpuNames b) :
    Procstat.busy (increments a b e) = loadOf a b e ↔ 0 < ticks a b e := by
  have hnonneg := h.increments_nonneg he
  constructor
  · intro hbusy
    by_contra hpos
    have hzero : (increments a b e).sum = 0 :=
      le_antisymm (not_lt.mp hpos) (List.sum_nonneg hnonneg)
    rw [Procstat.busy_of_zero hnonneg hzero, loadOf, if_neg hpos] at hbusy
    exact absurd hbusy (by decide)
  · intro hpos
    rw [Procstat.busy_of_pos hnonneg hpos, loadOf, if_pos hpos]
    rfl

/-- **The load of a processor.**  At every call of every run whose snapshot has
the processors of the one before and columns that have not decreased, the call
completes and publishes a percentage between 0 and 100 for each line, in its
place; and these are the percentages of the ticks since the snapshot before that
were not idle, none of no ticks, exactly if every line has had a tick. -/
theorem cpu_load_iff (stat₀ : Text) (calls : List (Int × Text)) (call : Int × Text)
    {s : Procstat} (hrun : after Procstat.getdata (Procstat.new stat₀) calls = .ok s)
    (h : CpuInterval (Procstat.lastRead stat₀ calls) call.2) :
    ∃ r, s.getdata call = .ok r ∧
      (∃ pct : Text → Int, Published (cpuNames call.2) pct r.2 ∧
        ∀ e ∈ cpuNames call.2, 0 ≤ pct e ∧ pct e ≤ 100) ∧
      (Published (cpuNames call.2) (loadOf (Procstat.lastRead stat₀ calls) call.2) r.2 ↔
        ∀ e ∈ cpuNames call.2, 0 < ticks (Procstat.lastRead stat₀ calls) call.2 e) := by
  have hs := Procstat.reads_after hrun h.nodup₁ fun e he => h.named e ((h.same e).mp he)
  obtain ⟨r, hr, hout⟩ := Procstat.getdata_published hs call h
  refine ⟨r, hr, ⟨_, hout, fun e he => Procstat.busy_range (h.increments_nonneg he)⟩, ?_⟩
  constructor
  · intro hload e he
    exact (h.busy_iff he).mp (hout.unique hload he (h.named e he))
  · intro hticks
    exact hout.congr fun e he => (h.busy_iff he).mpr (hticks e he)

/-- A machine with one processor, its user and its idle ticks. -/
def oneCpu (user idle : Nat) : Text :=
  "cpu  ".toList ++ decimal user ++ " 0 0 ".toList ++ decimal idle ++ " 0 0 0 0\ncpu0 ".toList ++
    decimal user ++ " 0 0 ".toList ++ decimal idle ++ " 0 0 0 0\n".toList

theorem oneCpu_names : cpuNames (oneCpu 5 20) = [cpuAll, cpuName 0] ∧
    cpuNames (oneCpu 6 23) = [cpuAll, cpuName 0] ∧
    cpuNames (oneCpu 9 23) = [cpuAll, cpuName 0] := by
  decide +kernel

theorem oneCpu_interval {a b : Text} (ha : cpuNames a = [cpuAll, cpuName 0])
    (hb : cpuNames b = [cpuAll, cpuName 0])
    (hgrows : ∀ e ∈ [cpuAll, cpuName 0], ∀ j ∈ List.range' 1 8, cpuCol a e j ≤ cpuCol b e j) :
    CpuInterval a b where
  nodup₁ := by rw [ha]; decide
  nodup₂ := by rw [hb]; decide
  same e := by rw [ha, hb]
  named e he := by
    rw [hb, List.mem_cons, List.mem_singleton] at he
    exact he.imp_right fun h => ⟨0, h⟩
  grows := by rwa [hb]

theorem cpu_load_iff_one :
    ∃ s r, after Procstat.getdata (Procstat.new (oneCpu 5 20)) [(10, oneCpu 6 23)] = .ok s ∧
      s.getdata (20, oneCpu 9 23) = .ok r ∧
      (∃ pct : Text → Int, Published (cpuNames (oneCpu 9 23)) pct r.2 ∧
        ∀ e ∈ cpuNames (oneCpu 9 23), 0 ≤ pct e ∧ pct e ≤ 100) ∧
      (Published (cpuNames (oneCpu 9 23)) (loadOf (oneCpu 6 23) (oneCpu 9 23)) r.2 ↔
        ∀ e ∈ cpuNames (oneCpu 9 23), 0 < ticks (oneCpu 6 23) (oneCpu 9 23) e) := by
  have hfirst : CpuInterval (oneCpu 5 20) (oneCpu 6 23) :=
    oneCpu_interval oneCpu_names.1 oneCpu_names.2.1 (by decide +kernel)
  have hsecond : CpuInterval (oneCpu 6 23) (oneCpu 9 23) :=
    oneCpu_interval oneCpu_names.2.1 oneCpu_names.2.2 (by decide +kernel)
  obtain ⟨s, hs, -⟩ := Procstat.getdata_published (Procstat.new_reads hfirst.nodup₁)
    (10, oneCpu 6 23) hfirst
  have hrun : after Procstat.getdata (Procstat.new (oneCpu 5 20)) [(10, oneCpu 6 23)] =
      .ok s.1 := after_cons_ok hs []
  obtain ⟨r, hr, hload⟩ := cpu_load_iff (oneCpu 5 20) [(10, oneCpu 6 23)] (20, oneCpu 9 23)
    hrun hsecond
  exact ⟨s.1, r, hrun, hr, hload⟩

/-- A first call that comes before the next tick reports a full load. -/
theorem no_tick_full_load :
    CpuInterval (oneCpu 5 20) (oneCpu 5 20) ∧ ticks (oneCpu 5 20) (oneCpu 5 20) cpuAll = 0 ∧
      ∃ r, (Procstat.new (oneCpu 5 20)).getdata (0, oneCpu 5 20) = .ok r ∧
        r.2.lookup "cpu".toList = some (.num 100) ∧
        ¬ Published (cpuNames (oneCpu 5 20)) (loadOf (oneCpu 5 20) (oneCpu 5 20)) r.2 := by
  have hsame : CpuInterval (oneCpu 5 20) (oneCpu 5 20) :=
    oneCpu_interval oneCpu_names.1 oneCpu_names.1 fun e _ j _ => le_rfl
  have hall : cpuAll ∈ cpuNames (oneCpu 5 20) := by
    rw [oneCpu_names.1]
    exact List.mem_cons_self
  have hticks : ticks (oneCpu 5 20) (oneCpu 5 20) cpuAll = 0 := by decide +kernel
  obtain ⟨r, hr, hout⟩ := Procstat.getdata_published (Procstat.new_reads hsame.nodup₁)
    (0, oneCpu 5 20) hsame
  have hbusy : Procstat.busy (increments (oneCpu 5 20) (oneCpu 5 20) cpuAll) = 100 :=
    Procstat.busy_of_zero (hsame.increments_nonneg hall) hticks
  refine ⟨hsame, hticks, r, hr, ?_, ?_⟩
  · rw [hout.total hall, hbusy]
    norm_num
  · intro hload
    have heq := hout.unique hload hall (hsame.named _ hall)
    exact absurd hticks ((hsame.busy_iff hall).mp heq).ne'

end Memrec
