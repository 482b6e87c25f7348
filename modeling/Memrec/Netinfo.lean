import Mathlib.Algebra.BigOperators.Field
import Mathlib.Tactic.FieldSimp
import Memrec.CellBank
import Memrec.ProcNetDev
import Memrec.Runs
import Memrec.Wrapctr

/-!
# The modules `netinfo` and `netinfo2`

Both keep one counter per interface digit and column, created by `new` from one
reading of `/proc/net/dev` and advanced by every `getdata`.  `netinfo` adds the
increments of all interfaces up column by column and publishes six rates;
`netinfo2` publishes them for each interface.

`new` and `getdata` cut a line with different expressions, so the counters that
`new` creates need not hold the columns they are named after.  The first
`getdata` puts that right: from the second call on the published rates are the
differences of neighbouring snapshots (`netinfo_steady_rates`).
-/

namespace Memrec

open Perl Perl.Pat CellBank Runs

/-- The six quantities that the network modules publish. -/
inductive Quantity
  | bytesIn
  | packetsIn
  | packeterrsIn
  | bytesOut
  | packetsOut
  | packeterrsOut
  deriving DecidableEq, Repr

namespace Quantity

/-- In the order of the source. -/
def all : List Quantity :=
  [.bytesIn, .packetsIn, .packeterrsIn, .bytesOut, .packetsOut, .packeterrsOut]

/-- The name under which a quantity is published. -/
def key : Quantity → Text
  | .bytesIn => "bytes_in".toList
  | .packetsIn => "packets_in".toList
  | .packeterrsIn => "packeterrs_in".toList
  | .bytesOut => "bytes_out".toList
  | .packetsOut => "packets_out".toList
  | .packeterrsOut => "packeterrs_out".toList

/-- The columns that make up a quantity. -/
def pick (f : Nat → ℚ) : Quantity → ℚ
  | .bytesIn => f 0
  | .packetsIn => f 1
  | .packeterrsIn => f 2 + f 3 + f 4 + f 5
  | .bytesOut => f 8
  | .packetsOut => f 9
  | .packeterrsOut => f 10 + f 11 + f 12 + f 13

theorem mem_all (q : Quantity) : q ∈ all := by
  cases q <;> decide

instance : Fintype Quantity := ⟨all.toFinset, fun q => List.mem_toFinset.mpr (mem_all q)⟩

/-- Picking is additive in the columns. -/
theorem pick_sum {ι : Type} (s : Finset ι) (f : ι → Nat → ℚ) (q : Quantity) :
    q.pick (fun i => ∑ x ∈ s, f x i) = ∑ x ∈ s, q.pick (f x) := by
  cases q <;> simp [pick, Finset.sum_add_distrib]

/-- Only the first sixteen columns count. -/
theorem pick_congr {f g : Nat → ℚ} (h : ∀ i < 16, f i = g i) (q : Quantity) :
    q.pick f = q.pick g := by
  cases q <;> simp [pick, h]

theorem pick_sub (f g : Nat → ℚ) (q : Quantity) :
    q.pick (fun i => f i - g i) = q.pick f - q.pick g := by
  cases q <;> simp only [pick] <;> ring

end Quantity

/-- The loop over the fields of one line in `new`. -/
def newCells (line : Text) : List ((Nat × Nat) × Wrapctr ℚ) :=
  match ethFields line with
  | none => []
  | some (e, fld) => fld.zipIdx.map fun f => ((e, f.2), Wrapctr.new (numify f.1))

/-- The updates for one line in `getdata`. -/
def updateCells (line : Text) : List ((Nat × Nat) × ℚ) :=
  match ethFieldsTrim line with
  | none => []
  | some (e, fld) => fld.zipIdx.map fun f => ((e, f.2), numify f.1)

/-- The counters `ctr_${e}_$i` that `new` creates. -/
def newCtr (dev : Text) : Bank (Nat × Nat) (Wrapctr ℚ) :=
  (readlines dev).foldl (fun ctr line => putAll ctr (newCells line)) fun _ => none

/-- `$delta[$i] += ...`. -/
def addDelta {κ : Type} (delta : Nat → ℚ) (k : κ × Nat) (d : ℚ) : Nat → ℚ :=
  fun i => if i = k.2 then delta i + d else delta i

/-- `$tstamp - $last_tstamp` after the guard against equal timestamps. -/
def elapsed (lastTstamp tstamp : Int) : ℚ :=
  let last := if lastTstamp = tstamp then tstamp - 1 else lastTstamp
  (tstamp - last : Int)

/-- The object of package `netinfo`. -/
structure Netinfo where
  ctr : Bank (Nat × Nat) (Wrapctr ℚ)
  numEth : Nat
  lastTstamp : Int
  ethSpeed : Nat

namespace Netinfo

/-- `netinfo->new()`, reading `lspci` and `/proc/net/dev`. -/
def new (lspci dev : Text) : Netinfo where
  ctr := newCtr dev
  numEth := ((readlines dev).filterMap fun l => (ethFields l).map Prod.fst).dedup.length
  lastTstamp := 0
  ethSpeed := Memrec.ethSpeed lspci

/-- The loop over `/proc/net/dev` in `getdata`. -/
def scan (ctr : Bank (Nat × Nat) (Wrapctr ℚ)) (dev : Text) :
    Except Die (Bank (Nat × Nat) (Wrapctr ℚ) × (Nat → ℚ)) :=
  (readlines dev).foldlM (fun st line =>
    feed Wrapctr.update Die.undefMethod addDelta st (updateCells line)) (ctr, fun _ => 0)

/-- `getdata` before rounding: the six rates, and the object afterwards. -/
def sample (self : Netinfo) (call : Int × Text) : Except Die (Netinfo × List (Quantity × ℚ)) := do
  let st ← scan self.ctr call.2
  let rates ← Quantity.all.mapM fun q => do
    let r ← div (q.pick st.2) (elapsed self.lastTstamp call.1)
    pure (q, r)
  pure ({ self with ctr := st.1, lastTstamp := call.1 }, rates)

/-- `getdata`: what it stores into the data hash, and the object afterwards. -/
def getdata (self : Netinfo) (call : Int × Text) : Except Die (Netinfo × List (Text × ℚ)) := do
  let out ← self.sample call
  pure (out.1, out.2.map (fun r => (r.1.key, round00 r.2)) ++
    [("eth_speed".toList, (self.ethSpeed : ℚ))])

end Netinfo

/-- The object of package `netinfo2`. -/
structure Netinfo2 where
  ctr : Bank (Nat × Nat) (Wrapctr ℚ)
  numEth : Nat
  lastTstamp : Int
  ethSpeed : Nat

namespace Netinfo2

/-- `netinfo2->new()`. -/
def new (lspci dev : Text) : Netinfo2 where
  ctr := newCtr dev
  numEth := ((readlines dev).filterMap fun l => (ethFields l).map Prod.fst).dedup.length
  lastTstamp := 0
  ethSpeed := Memrec.ethSpeed lspci

/-- One line of `getdata`: `@delta` starts empty and the rates of the interface
are stored at once. -/
def scanLine (elapsed : ℚ)
    (st : Bank (Nat × Nat) (Wrapctr ℚ) × List ((Quantity × Nat) × ℚ)) (line : Text) :
    Except Die (Bank (Nat × Nat) (Wrapctr ℚ) × List ((Quantity × Nat) × ℚ)) :=
  match ethFieldsTrim line with
  | none => pure st
  | some (e, _) => do
      let st' ← feed Wrapctr.update Die.undefMethod addDelta (st.1, fun _ => 0)
        (updateCells line)
      let rates ← Quantity.all.mapM fun q => do
        let r ← div (q.pick st'.2) elapsed
        pure ((q, e), r)
      pure (st'.1, st.2 ++ rates)

/-- `getdata` before rounding: the rates of each interface in turn. -/
def sample (self : Netinfo2) (call : Int × Text) :
    Except Die (Netinfo2 × List ((Quantity × Nat) × ℚ)) := do
  let st ← (readlines call.2).foldlM
    (scanLine (elapsed self.lastTstamp call.1)) (self.ctr, [])
  pure ({ self with ctr := st.1, lastTstamp := call.1 }, st.2)

/-- `getdata`: keys carry the digit of the interface. -/
def getdata (self : Netinfo2) (call : Int × Text) :
    Except Die (Netinfo2 × List (Text × ℚ)) := do
  let out ← self.sample call
  pure (out.1, out.2.map (fun r => (r.1.1.key ++ '_' :: decimal r.1.2, round00 r.2)) ++
    [("eth_speed".toList, (self.ethSpeed : ℚ))])

end Netinfo2

/-! ## Loops of counters -/

theorem map_v_of_isSome {o : Option (Wrapctr ℚ)} (h : o.isSome) :
    o.map Wrapctr.v = some ((o.map Wrapctr.v).getD 0) := by
  obtain ⟨c, rfl⟩ := Option.isSome_iff_exists.mp h
  rfl

/-- **A loop of updates.**  Counters that hold `v` take one step each to what they are fed,
hold it afterwards, and leave the other counters as they were. -/
theorem feed_counters {κ α : Type} [DecidableEq κ] (acc : α → κ → ℚ → α)
    {b : Bank κ (Wrapctr ℚ)} {rs : List (κ × ℚ)} (v : κ → ℚ) (hn : (rs.map Prod.fst).Nodup)
    (hv : ∀ r ∈ rs, (b r.1).map Wrapctr.v = some (v r.1)) (a : α) :
    ∃ b', feed Wrapctr.update Die.undefMethod acc (b, a) rs =
        .ok (b', rs.foldl (fun a r => acc a r.1 (Wrapctr.step (v r.1) r.2)) a) ∧
      (∀ r ∈ rs, (b' r.1).map Wrapctr.v = some r.2) ∧
      ∀ k, k ∉ rs.map Prod.fst → b' k = b k := by
  have hcell : ∀ r ∈ rs, b r.1 = some ((b r.1).getD ⟨0, none⟩) ∧
      ((b r.1).getD ⟨0, none⟩).v = v r.1 := by
    intro r hr
    obtain ⟨c, hc, hcv⟩ := Option.map_eq_some_iff.mp (hv r hr)
    simp [hc, hcv]
  obtain ⟨b', hfeed, htake, hkeep⟩ := feed_spec Wrapctr.update Die.undefMethod acc
    (fun k => (b k).getD ⟨0, none⟩) hn (fun r hr => (hcell r hr).1) a
  refine ⟨b', ?_, ?_, hkeep⟩
  · rw [hfeed]
    refine congrArg (fun x => Except.ok (b', x)) (List.foldl_ext _ _ _ fun a r hr => ?_)
    rw [Wrapctr.update_fst, (hcell r hr).2]
  · intro r hr
    rw [htake r hr, Option.map_some, Wrapctr.update_v]

/-! ## Rows of columns -/

section Rows

variable {κ : Type}

/-- The updates for one row of columns. -/
def columnCells (p : κ × List ℚ) : List ((κ × Nat) × ℚ) :=
  p.2.zipIdx.map fun x => ((p.1, x.2), x.1)

theorem mem_columnCells {p : κ × List ℚ} {k : κ × Nat} {x : ℚ} :
    (k, x) ∈ columnCells p ↔ k.1 = p.1 ∧ p.2[k.2]? = some x := by
  simp only [columnCells, List.mem_map, Prod.mk.injEq, Prod.exists, List.mem_zipIdx_iff_getElem?]
  constructor
  · rintro ⟨y, i, hy, rfl, rfl⟩
    exact ⟨rfl, hy⟩
  · rintro ⟨h1, h2⟩
    exact ⟨x, k.2, h2, by rw [← h1], rfl⟩

theorem map_fst_columnCells (p : κ × List ℚ) :
    (columnCells p).map Prod.fst = (List.range p.2.length).map fun i => (p.1, i) := by
  rw [columnCells, List.map_map, List.range_eq_range', ← List.zipIdx_map_snd, List.map_map]
  rfl

/-- Different rows give different keys. -/
theorem nodup_columnCells {ps : List (κ × List ℚ)} (hn : (ps.map Prod.fst).Nodup) :
    ((ps.flatMap columnCells).map Prod.fst).Nodup := by
  rw [List.map_flatMap, List.nodup_flatMap]
  constructor
  · intro p _
    rw [map_fst_columnCells]
    exact List.Nodup.map (fun i j h => (Prod.mk.inj h).2) List.nodup_range
  · rw [List.Nodup, List.pairwise_map] at hn
    refine hn.imp fun {p q} hpq => ?_
    rw [Function.onFun, List.disjoint_left]
    intro k hk hk'
    rw [map_fst_columnCells, List.mem_map] at hk hk'
    obtain ⟨i, -, rfl⟩ := hk
    obtain ⟨j, -, hj⟩ := hk'
    exact hpq (Prod.mk.inj hj).1.symm

private theorem foldl_addDelta_fields (e : κ) (g : (κ × Nat) × ℚ → ℚ) (cs : List ℚ) (n : Nat)
    (a : Nat → ℚ) (i : Nat) :
    (((cs.zipIdx n).map fun x => ((e, x.2), x.1)).foldl
      (fun a r => addDelta a r.1 (g r)) a) i =
      a i + if n ≤ i ∧ i < n + cs.length then g ((e, i), cs.getD (i - n) 0) else 0 := by
  induction cs generalizing n a with
  | nil => simp
  | cons c cs ih =>
      rw [List.zipIdx_cons, List.map_cons, List.foldl_cons, ih (n + 1)]
      by_cases hi : i = n
      · subst hi
        simp [addDelta]
      · have hne : (addDelta a (e, n) (g ((e, n), c))) i = a i := by
          simp [addDelta, hi]
        rw [hne]
        by_cases hlt : n ≤ i ∧ i < n + (c :: cs).length
        · obtain ⟨m, rfl⟩ : ∃ m, i = n + 1 + m := ⟨i - (n + 1), by omega⟩
          have h1 : n + 1 ≤ n + 1 + m ∧ n + 1 + m < n + 1 + cs.length := by
            simp only [List.length_cons] at hlt
            omega
          rw [if_pos h1, if_pos hlt]
          have h2 : n + 1 + m - n = m + 1 := by omega
          have h3 : n + 1 + m - (n + 1) = m := by omega
          rw [h2, h3, List.getD_cons_succ]
        · have h1 : ¬ (n + 1 ≤ i ∧ i < n + 1 + cs.length) := by
            simp only [List.length_cons] at hlt
            omega
          rw [if_neg h1, if_neg hlt]

/-- Column by column, a scan adds up one increment for each row. -/
theorem foldl_addDelta (g : (κ × Nat) × ℚ → ℚ) (ps : List (κ × List ℚ)) (a : Nat → ℚ)
    (i : Nat) :
    ((ps.flatMap columnCells).foldl (fun a r => addDelta a r.1 (g r)) a) i =
      a i + (ps.map fun p =>
        if i < p.2.length then g ((p.1, i), p.2.getD i 0) else 0).sum := by
  induction ps generalizing a with
  | nil => simp
  | cons p ps ih =>
      have hp := foldl_addDelta_fields p.1 g p.2 0 a i
      rw [List.flatMap_cons, List.foldl_append, ih, columnCells, hp]
      simp [add_assoc]

/-- **One scan.**  If the rows have different names and every column has its counter,
the scan completes, `delta[i]` is the sum of the increments of column `i`, and every
counter holds the column it was fed. -/
theorem feed_columns [DecidableEq κ] {ctr : Bank (κ × Nat) (Wrapctr ℚ)}
    {rows : List (κ × List ℚ)} (v : κ × Nat → ℚ) (hn : (rows.map Prod.fst).Nodup)
    (hv : ∀ p ∈ rows, ∀ i < p.2.length, (ctr (p.1, i)).map Wrapctr.v = some (v (p.1, i))) :
    ∃ ctr' delta, feed Wrapctr.update Die.undefMethod addDelta (ctr, fun _ => 0)
        (rows.flatMap columnCells) = .ok (ctr', delta) ∧
      (∀ p ∈ rows, ∀ i < p.2.length, (ctr' (p.1, i)).map Wrapctr.v = some (p.2.getD i 0)) ∧
      ∀ i, delta i = (rows.map fun p =>
        if i < p.2.length then Wrapctr.step (v (p.1, i)) (p.2.getD i 0) else 0).sum := by
  have hcells : ∀ r ∈ rows.flatMap columnCells, (ctr r.1).map Wrapctr.v = some (v r.1) := by
    rintro ⟨⟨e, i⟩, x⟩ hr
    obtain ⟨p, hp, hr⟩ := List.mem_flatMap.mp hr
    obtain ⟨rfl, hx⟩ := mem_columnCells.mp hr
    exact hv p hp i (List.getElem?_eq_some_iff.mp hx).1
  obtain ⟨ctr', hfeed, htake, -⟩ := feed_counters addDelta v (nodup_columnCells hn) hcells
    fun _ => 0
  refine ⟨ctr', _, hfeed, ?_, ?_⟩
  · intro p hp i hi
    refine htake ((p.1, i), p.2.getD i 0) ?_
    refine List.mem_flatMap.mpr ⟨p, hp, mem_columnCells.mpr ⟨rfl, ?_⟩⟩
    simp [List.getD, List.getElem?_eq_getElem hi]
  · intro i
    rw [foldl_addDelta]
    simp

end Rows

/-! ## One scan -/

/-- The interfaces of a snapshot, digit and numeric columns, in file order. -/
def ifaces (dev : Text) : List (Nat × List ℚ) :=
  (readlines dev).filterMap fun line =>
    (ethFieldsTrim line).map fun r => (r.1, r.2.map numify)

/-- The updates for one interface. -/
def ifaceCells (p : Nat × List ℚ) : List ((Nat × Nat) × ℚ) :=
  p.2.zipIdx.map fun x => ((p.1, x.2), x.1)

theorem flatMap_updateCells (dev : Text) :
    (readlines dev).flatMap updateCells = (ifaces dev).flatMap ifaceCells := by
  rw [ifaces]
  induction readlines dev with
  | nil => rfl
  | cons l ls ih =>
      cases hl : ethFieldsTrim l with
      | none => simp [updateCells, hl, ih]
      | some r => simp [updateCells, hl, ih, ifaceCells, List.zipIdx_map]

/-- A scan is one loop over the columns of all interfaces. -/
theorem Netinfo.scan_eq_feed (ctr : Bank (Nat × Nat) (Wrapctr ℚ)) (dev : Text) :
    scan ctr dev = feed Wrapctr.update Die.undefMethod addDelta (ctr, fun _ => 0)
      ((ifaces dev).flatMap columnCells) := by
  rw [scan, feed_flatMap, flatMap_updateCells]
  rfl

/-- **One scan.**  If the digits are pairwise different and every column of the
snapshot has its counter, the scan completes, `delta[i]` is the sum of the
increments of column `i`, and every counter holds the column it was fed. -/
theorem Netinfo.scan_spec {ctr : Bank (Nat × Nat) (Wrapctr ℚ)} {dev : Text}
    (v : Nat × Nat → ℚ) (hn : ((ifaces dev).map Prod.fst).Nodup)
    (hv : ∀ p ∈ ifaces dev, ∀ i < p.2.length,
      (ctr (p.1, i)).map Wrapctr.v = some (v (p.1, i))) :
    ∃ ctr' delta, scan ctr dev = .ok (ctr', delta) ∧
      (∀ p ∈ ifaces dev, ∀ i < p.2.length,
        (ctr' (p.1, i)).map Wrapctr.v = some (p.2.getD i 0)) ∧
      ∀ i, delta i = ((ifaces dev).map fun p =>
        if i < p.2.length then Wrapctr.step (v (p.1, i)) (p.2.getD i 0) else 0).sum := by
  rw [scan_eq_feed]
  exact feed_columns v hn hv

/-! ## Rates -/

/-- The guard leaves no division by zero. -/
theorem elapsed_ne_zero (lastTstamp tstamp : Int) : elapsed lastTstamp tstamp ≠ 0 := by
  by_cases h : lastTstamp = tstamp
  · simp [elapsed, h]
  · have : tstamp - lastTstamp ≠ 0 := by omega
    simpa [elapsed, h] using mod_cast this

theorem elapsed_of_lt {lastTstamp tstamp : Int} (h : lastTstamp < tstamp) :
    elapsed lastTstamp tstamp = tstamp - lastTstamp := by
  simp [elapsed, h.ne]

/-- Divisions by the same nonzero number. -/
theorem mapM_rates {α β : Type} (tag : β → α) (num : β → ℚ) {dt : ℚ} (h : dt ≠ 0)
    (qs : List β) :
    (qs.mapM fun q => do
      let r ← div (num q) dt
      pure (tag q, r) : Except Die (List (α × ℚ))) =
      .ok (qs.map fun q => (tag q, num q / dt)) := by
  induction qs with
  | nil => rfl
  | cons q qs ih =>
      rw [List.mapM_cons, ih, div_of_ne h]
      rfl

theorem Netinfo.sample_of_scan {self : Netinfo} {call : Int × Text}
    {ctr : Bank (Nat × Nat) (Wrapctr ℚ)} {delta : Nat → ℚ}
    (h : scan self.ctr call.2 = .ok (ctr, delta)) :
    self.sample call = .ok ({ self with ctr := ctr, lastTstamp := call.1 },
      Quantity.all.map fun q => (q, q.pick delta / elapsed self.lastTstamp call.1)) := by
  rw [sample, h, ok_bind, mapM_rates _ _ (elapsed_ne_zero _ _)]
  rfl

theorem Netinfo.getdata_of_scan {self : Netinfo} {call : Int × Text}
    {ctr : Bank (Nat × Nat) (Wrapctr ℚ)} {delta : Nat → ℚ}
    (h : scan self.ctr call.2 = .ok (ctr, delta)) :
    self.getdata call = .ok ({ self with ctr := ctr, lastTstamp := call.1 },
      (Quantity.all.map fun q =>
        (q.key, round00 (q.pick delta / elapsed self.lastTstamp call.1))) ++
      [("eth_speed".toList, (self.ethSpeed : ℚ))]) := by
  rw [getdata, sample_of_scan h, ok_bind]
  simp only [List.map_map]
  rfl

/-! ## Steady runs -/

/-- Column `i` of interface `e` in a snapshot. -/
def col (dev : Text) (e i : Nat) : ℚ := (((ifaces dev).lookup e).getD []).getD i 0

/-- A snapshot lists exactly the interfaces with digits `E`, each once and with
sixteen columns. -/
structure Lists (E : Finset Nat) (dev : Text) : Prop where
  nodup : ((ifaces dev).map Prod.fst).Nodup
  digits : ((ifaces dev).map Prod.fst).toFinset = E
  columns : ∀ p ∈ ifaces dev, p.2.length = 16

/-- Same interfaces throughout, no column ever decreases, time goes on. -/
structure SteadyRun (E : Finset Nat) (dev₀ : Text) (calls : List (Int × Text)) : Prop where
  lists : ∀ dev ∈ dev₀ :: calls.map Prod.snd, Lists E dev
  grows : (dev₀ :: calls.map Prod.snd).IsChain fun d d' =>
    ∀ e ∈ E, ∀ i < 16, col d e i ≤ col d' e i
  times : (calls.map Prod.fst).IsChain (· < ·)

namespace Lists

variable {E : Finset Nat} {dev : Text}

theorem col_eq (h : Lists E dev) {p : Nat × List ℚ} (hp : p ∈ ifaces dev) (i : Nat) :
    col dev p.1 i = p.2.getD i 0 := by
  rw [col, lookup_of_nodup h.nodup hp, Option.getD_some]

theorem mem_iff (h : Lists E dev) {e : Nat} : e ∈ E ↔ ∃ p ∈ ifaces dev, p.1 = e := by
  rw [← h.digits, List.mem_toFinset, List.mem_map]

/-- A sum over the lines is a sum over the interfaces. -/
theorem sum_eq (h : Lists E dev) {f : Nat × List ℚ → ℚ} {g : Nat → ℚ}
    (hfg : ∀ p ∈ ifaces dev, f p = g p.1) : ((ifaces dev).map f).sum = ∑ e ∈ E, g e := by
  rw [← h.digits, List.sum_toFinset g h.nodup, List.map_map]
  exact congrArg List.sum (List.map_congr_left hfg)

end Lists

/-- The counters that `new` creates: one for each field of each line. -/
theorem isSome_newCtr (dev : Text) (e i : Nat) :
    (newCtr dev (e, i)).isSome ↔
      ∃ line ∈ readlines dev, ∃ fld, ethFields line = some (e, fld) ∧ i < fld.length := by
  rw [newCtr, foldl_putAll, isSome_putAll]
  simp only [Option.isSome_none, Bool.false_eq_true, or_false, List.map_flatMap,
    List.mem_flatMap]
  refine exists_congr fun line => and_congr_right fun _ => ?_
  cases hl : ethFields line with
  | none => simp [newCells, hl]
  | some r =>
      obtain ⟨e', fld⟩ := r
      simp only [newCells, hl, List.map_map, List.mem_map, Prod.exists, Option.some.injEq,
        Prod.mk.injEq, Function.comp_apply, List.mem_zipIdx_iff_getElem?]
      constructor
      · rintro ⟨f, j, hj, rfl, rfl⟩
        exact ⟨fld, ⟨rfl, rfl⟩, (List.getElem?_eq_some_iff.mp hj).1⟩
      · rintro ⟨_, ⟨rfl, rfl⟩, hi⟩
        exact ⟨fld[i], i, List.getElem?_eq_getElem hi, rfl, rfl⟩

/-- Whatever the spacing, `new` creates a counter for each listed column. -/
theorem Lists.isSome_newCtr {E : Finset Nat} {dev : Text} (h : Lists E dev) {e i : Nat}
    (he : e ∈ E) (hi : i < 16) : (newCtr dev (e, i)).isSome := by
  obtain ⟨p, hp, rfl⟩ := h.mem_iff.mp he
  have hlen := h.columns p hp
  obtain ⟨line, hline, hl⟩ := List.mem_filterMap.mp hp
  obtain ⟨r, hr, rfl⟩ := Option.map_eq_some_iff.mp hl
  refine (Memrec.isSome_newCtr dev _ i).mpr ⟨line, hline, ?_⟩
  rcases ethFields_trim (mem_readlines hline) with ⟨-, hnone⟩ | ⟨e', ws, htrim, hf⟩
  · simp [hnone] at hr
  · rw [htrim, Option.some_inj] at hr
    subst hr
    have hlen : ws.length = 16 := by simpa using hlen
    rcases hf with hf | hf
    · exact ⟨ws, hf, by omega⟩
    · exact ⟨[] :: ws, hf, by simp only [List.length_cons]; omega⟩

/-- Every listed column has a counter. -/
def Covers (E : Finset Nat) (ctr : Bank (Nat × Nat) (Wrapctr ℚ)) : Prop :=
  ∀ e ∈ E, ∀ i < 16, (ctr (e, i)).isSome

/-- Every counter holds the column of the snapshot. -/
def Holds (E : Finset Nat) (dev : Text) (ctr : Bank (Nat × Nat) (Wrapctr ℚ)) : Prop :=
  ∀ e ∈ E, ∀ i < 16, (ctr (e, i)).map Wrapctr.v = some (col dev e i)

theorem Holds.covers {E : Finset Nat} {dev : Text} {ctr : Bank (Nat × Nat) (Wrapctr ℚ)}
    (h : Holds E dev ctr) : Covers E ctr := by
  intro e he i hi
  obtain ⟨c, hc, -⟩ := Option.map_eq_some_iff.mp (h e he i hi)
  simp [hc]

/-- **One step.**  A call on a listed snapshot completes and leaves the counters
at that snapshot, whatever they held before. -/
theorem Netinfo.scan_lists {E : Finset Nat} {dev : Text} {ctr : Bank (Nat × Nat) (Wrapctr ℚ)}
    (h : Lists E dev) (hc : Covers E ctr) :
    ∃ ctr' delta, scan ctr dev = .ok (ctr', delta) ∧ Holds E dev ctr' ∧
      ∀ i < 16, delta i = ∑ e ∈ E,
        Wrapctr.step (((ctr (e, i)).map Wrapctr.v).getD 0) (col dev e i) := by
  have hlisted : ∀ p ∈ ifaces dev, ∀ i < p.2.length, (ctr (p.1, i)).isSome := by
    intro p hp i hi
    rw [h.columns p hp] at hi
    exact hc p.1 (h.mem_iff.mpr ⟨p, hp, rfl⟩) i hi
  obtain ⟨ctr', delta, hscan, hv, hd⟩ := scan_spec
    (fun k => ((ctr k).map Wrapctr.v).getD 0) h.nodup
    fun p hp i hi => map_v_of_isSome (hlisted p hp i hi)
  refine ⟨ctr', delta, hscan, ?_, ?_⟩
  · intro e he i hi
    obtain ⟨p, hp, rfl⟩ := h.mem_iff.mp he
    rw [h.col_eq hp, hv p hp i (by rw [h.columns p hp]; exact hi)]
  · intro i hi
    rw [hd i]
    refine h.sum_eq fun p hp => ?_
    rw [if_pos (by rw [h.columns p hp]; exact hi), h.col_eq hp]

/-- What a steady run says about two neighbouring calls and those before them. -/
theorem SteadyRun.at_split {E : Finset Nat} {dev₀ : Text} {pre post : List (Int × Text)}
    {a b : Int × Text} (hrun : SteadyRun E dev₀ (pre ++ a :: b :: post)) :
    (∀ c ∈ pre ++ [a, b], Lists E c.2) ∧ (∀ e ∈ E, ∀ i < 16, col a.2 e i ≤ col b.2 e i) ∧
      a.1 < b.1 := by
  refine ⟨?_, ?_, ?_⟩
  · intro c hc
    refine hrun.lists c.2 (List.mem_cons_of_mem _ (List.mem_map_of_mem ?_))
    simp only [List.mem_append, List.mem_cons, List.not_mem_nil, or_false] at hc ⊢
    tauto
  · have h := hrun.grows
    rw [List.map_append, ← List.cons_append, List.isChain_append] at h
    have hab := h.2.1
    simp only [List.map_cons, List.isChain_cons_cons] at hab
    exact hab.1
  · have h := hrun.times
    rw [List.map_append, List.isChain_append] at h
    have hab := h.2.1
    simp only [List.map_cons, List.isChain_cons_cons] at hab
    exact hab.1

/-- Calls on such snapshots complete, and keep a counter for every column. -/
theorem netinfo_covers_after (lspci dev₀ : Text) {E : Finset Nat} (h₀ : Lists E dev₀)
    {calls : List (Int × Text)} (hcalls : ∀ c ∈ calls, Lists E c.2) :
    ∃ s, after Netinfo.getdata (Netinfo.new lspci dev₀) calls = .ok s ∧
      Covers E s.ctr ∧ s.ethSpeed = ethSpeed lspci := by
  apply after_total (P := fun s : Netinfo => Covers E s.ctr ∧ s.ethSpeed = ethSpeed lspci)
  · exact ⟨fun e he i hi => h₀.isSome_newCtr he hi, rfl⟩
  · intro s c hc hs
    obtain ⟨hcov, hspeed⟩ := hs
    obtain ⟨ctr', delta, hscan, hh, -⟩ := Netinfo.scan_lists (hcalls c hc) hcov
    exact ⟨_, Netinfo.getdata_of_scan hscan, hh.covers, hspeed⟩

/-- A quantity of the summed increments, when the counters hold one snapshot and
the next is at least as large. -/
theorem pick_delta_of_holds {E : Finset Nat} {dev dev' : Text}
    {ctr : Bank (Nat × Nat) (Wrapctr ℚ)} {delta : Nat → ℚ} (hholds : Holds E dev ctr)
    (hgrow : ∀ e ∈ E, ∀ i < 16, col dev e i ≤ col dev' e i)
    (hdelta : ∀ i < 16, delta i =
      ∑ e ∈ E, Wrapctr.step (((ctr (e, i)).map Wrapctr.v).getD 0) (col dev' e i))
    (q : Quantity) :
    q.pick delta = ∑ e ∈ E, (q.pick (col dev' e) - q.pick (col dev e)) := by
  rw [Quantity.pick_congr (g := fun i => ∑ e ∈ E, (col dev' e i - col dev e i)),
    Quantity.pick_sum]
  · exact Finset.sum_congr rfl fun e _ => Quantity.pick_sub _ _ q
  · intro i hi
    rw [hdelta i hi]
    refine Finset.sum_congr rfl fun e he => ?_
    rw [hholds e he i hi, Option.getD_some, Wrapctr.step_of_le (hgrow e he i hi)]

/-- **Steady rates.**  In a steady run every call but the first publishes, for
each quantity, the rounded sum over the interfaces of what its columns have
advanced since the call before, divided by the time between the two calls.
Neither the order of the lines nor anything before the previous snapshot
enters. -/
theorem netinfo_steady_rates (lspci dev₀ : Text) (E : Finset Nat)
    (calls : List (Int × Text)) (hrun : SteadyRun E dev₀ calls)
    (pre post : List (Int × Text)) (a b : Int × Text) (hsplit : calls = pre ++ a :: b :: post) :
    ∃ s s', after Netinfo.getdata (Netinfo.new lspci dev₀) (pre ++ [a]) = .ok s ∧
      s.getdata b = .ok (s', (Quantity.all.map fun q =>
        (q.key, round00 (∑ e ∈ E,
          (q.pick (col b.2 e) - q.pick (col a.2 e)) / (b.1 - a.1)))) ++
        [("eth_speed".toList, (ethSpeed lspci : ℚ))]) := by
  subst hsplit
  obtain ⟨hlists, hgrow, htime⟩ := hrun.at_split
  -- Before call `a` only the existence of the counters is known.
  have hpre : ∀ c ∈ pre, Lists E c.2 := fun c hc => hlists c (by simp [hc])
  obtain ⟨s, hs, hcov, hspeed⟩ := netinfo_covers_after lspci dev₀ (hrun.lists dev₀ (by simp)) hpre
  obtain ⟨ctrA, deltaA, hscanA, hholds, -⟩ := Netinfo.scan_lists (hlists a (by simp)) hcov
  obtain ⟨ctrB, deltaB, hscanB, -, hdelta⟩ := Netinfo.scan_lists
    (hlists b (by simp)) hholds.covers
  refine ⟨{ s with ctr := ctrA, lastTstamp := a.1 }, { s with ctr := ctrB, lastTstamp := b.1 },
    ?_, (Netinfo.getdata_of_scan hscanB).trans ?_⟩
  · rw [after_append_ok hs, after_cons_ok (Netinfo.getdata_of_scan hscanA)]
    rfl
  · have hrate : ∀ q : Quantity, q.pick deltaB / elapsed a.1 b.1 =
        ∑ e ∈ E, (q.pick (col b.2 e) - q.pick (col a.2 e)) / (b.1 - a.1) := by
      intro q
      rw [pick_delta_of_holds hholds hgrow hdelta, elapsed_of_lt htime, Finset.sum_div]
    simp only [hrate, hspeed]

/-- A snapshot of two interfaces, spaced as two kernels print them. -/
def twoIfaces (eth0 em1 : Nat) : Text :=
  "  eth0: ".toList ++ decimal eth0 ++ " 2 0 0 0 0 0 0 7 1 0 0 0 0 0 0\n".toList ++
    "   em1:".toList ++ decimal em1 ++ " 3 0 0 0 0 0 0 4 4 0 0 0 0 0 0\n".toList

theorem twoIfaces_run : SteadyRun {0, 1} (twoIfaces 5 6)
    [(100, twoIfaces 50 6), (110, twoIfaces 57 16)] where
  lists := by
    intro dev h
    simp only [List.map_cons, List.map_nil, List.mem_cons, List.not_mem_nil, or_false] at h
    rcases h with rfl | rfl | rfl <;>
      exact ⟨by decide +kernel, by decide +kernel, by decide +kernel⟩
  grows := by decide +kernel
  times := by decide

theorem netinfo_steady_rates_two :
    ∃ s s', after Netinfo.getdata (Netinfo.new [] (twoIfaces 5 6)) [(100, twoIfaces 50 6)] = .ok s ∧
      s.getdata (110, twoIfaces 57 16) = .ok (s', (Quantity.all.map fun q =>
        (q.key, round00 (∑ e ∈ ({0, 1} : Finset Nat),
          (q.pick (col (twoIfaces 57 16) e) - q.pick (col (twoIfaces 50 6) e)) /
            (((110 : Int) : ℚ) - ((100 : Int) : ℚ))))) ++
        [("eth_speed".toList, (ethSpeed [] : ℚ))]) :=
  netinfo_steady_rates [] (twoIfaces 5 6) {0, 1} _ twoIfaces_run [] [] (100, twoIfaces 50 6)
    (110, twoIfaces 57 16) rfl

end Memrec
