import Mathlib.Algebra.Order.BigOperators.Group.Finset
import Memrec.Netinfo
import Memrec.Window

/-!
# The modules `netinfo10` and `netinfo5`

Both keep, for each interface digit and each of the six quantities, a counter
and an array of the last ten increments, shifted and pushed at every call.
They publish the sum of those arrays divided by the window length times the
time step: `$in2out` for `netinfo10`, five for `netinfo5`.

The arrays always have ten entries, so numerator and divisor speak about the
same window only by accident.  `netinfo10_netinfo5_average_iff` says exactly
when the published value is the average of the last `N` calls that the header
of the module promises.

The near-identical blocks of the source, one for each quantity, are one loop
over `Quantity.all` here, in the order of the source.  The histograms
`@hist_in` and `@hist_out` are never published; what is kept of them is their
length, because a subscript before the beginning ends the process.
-/

namespace Memrec

open Perl Perl.Pat CellBank Runs Window

/-- The fields of a line that is neither foreign nor skipped as inactive. -/
def liveFields (ignoreInactive : Bool) (line : Text) : Option (Nat × List Text) :=
  match ethFields line with
  | none => none
  | some (e, fld) =>
      if ignoreInactive && (fld.map numify).sum == 0 then none else some (e, fld)

/-- The six readings of one line, in order. -/
def windowReadings (e : Nat) (fld : List Text) : List ((Nat × Quantity) × ℚ) :=
  Quantity.all.map fun q => ((e, q), q.pick (fieldNum fld))

/-- The arrays `past_*`, by digit and quantity. -/
abbrev Past := Nat × Quantity → List ℚ

/-- `shift` and `push` on one of the arrays. -/
def pushPast (past : Past) (k : Nat × Quantity) (d : ℚ) : Past :=
  fun j => if j = k then push (past j) d else past j

/-- The counters that `new` creates, line by line. -/
def newWindow (ignoreInactive : Bool) (dev : Text) : Bank (Nat × Quantity) (Wrapctr ℚ) :=
  (readlines dev).foldl (fun ctr line =>
    match liveFields ignoreInactive line with
    | none => ctr
    | some (e, fld) =>
        putAll ctr ((windowReadings e fld).map fun r => (r.1, Wrapctr.new r.2))) fun _ => none

/-- The arrays that `new` creates next to the counters. -/
def newPast (ctr : Bank (Nat × Quantity) (Wrapctr ℚ)) : Past :=
  fun k => if (ctr k).isSome then List.replicate 10 0 else []

/-- What the loop over `/proc/net/dev` carries: counters, arrays and
`%eth_list`. -/
structure WindowScan where
  ctr : Bank (Nat × Quantity) (Wrapctr ℚ)
  past : Past
  ethList : List Nat

/-- One line of the loop in `getdata`. -/
def windowLine (ignoreInactive : Bool) (st : WindowScan) (line : Text) :
    Except Die WindowScan :=
  match liveFields ignoreInactive line with
  | none => pure st
  | some (e, fld) => do
      let r ← feed Wrapctr.update Die.undefMethod pushPast (st.ctr, st.past)
        (windowReadings e fld)
      pure ⟨r.1, r.2, st.ethList.insert e⟩

/-- The loop over `/proc/net/dev` in `getdata`. -/
def windowScan (ignoreInactive : Bool) (ctr : Bank (Nat × Quantity) (Wrapctr ℚ))
    (past : Past) (dev : Text) : Except Die WindowScan :=
  (readlines dev).foldlM (windowLine ignoreInactive) ⟨ctr, past, []⟩

/-- `$ttl_*`: the sum of an array over the given interfaces. -/
def windowTotal (past : Past) (es : List Nat) (q : Quantity) : ℚ :=
  (es.map fun e => (past (e, q)).sum).sum

/-- `$max1m_*`. -/
def windowMax (past : Past) (es : List Nat) (q : Quantity) : ℚ :=
  (es.flatMap fun e => past (e, q)).foldl (fun m d => if d > m then d else m) 0

/-- `$i = int( $d / $pct25 ); $hist[$i]++` on an array of the given length. -/
def histBump (pct25 : ℚ) (len : Nat) (d : ℚ) : Except Die Nat := do
  let r ← div d pct25
  let i := int r
  if i < -len then .error .badSubscript else pure (max len (i + 1).toNat)

/-- The histogram updates of `netinfo10`, interface by interface. -/
def windowHist (pct25 : ℚ) (past : Past) (es : List Nat) : Except Die (Nat × Nat) :=
  es.foldlM (fun h e => do
    let i ← (past (e, .bytesIn)).foldlM (histBump pct25) h.1
    let o ← (past (e, .bytesOut)).foldlM (histBump pct25) h.2
    pure (i, o)) (4, 4)

/-- The order in which the rates are published. -/
def windowOrder : List Quantity :=
  [.bytesIn, .bytesOut, .packetsIn, .packetsOut, .packeterrsIn, .packeterrsOut]

/-- What a call publishes, before rounding. -/
structure WindowRates where
  max1mIn : ℚ
  max1mOut : ℚ
  rates : List (Quantity × ℚ)

/-- The divisions at the end of `getdata`. -/
def windowPublish (window : ℚ) (dt : ℚ) (past : Past) (es : List Nat) :
    Except Die WindowRates := do
  let maxIn ← div (windowMax past es .bytesIn) dt
  let maxOut ← div (windowMax past es .bytesOut) dt
  let rates ← windowOrder.mapM fun q => do
    let r ← div (windowTotal past es q) (window * dt)
    pure (q, r)
  pure ⟨maxIn, maxOut, rates⟩

/-- What a call stores of them. -/
def WindowRates.stores (w : WindowRates) : List (Text × ℚ) :=
  [("bytes_in_max1m".toList, round00 w.max1mIn), ("bytes_out_max1m".toList, round00 w.max1mOut)] ++
    w.rates.map fun r => (r.1.key, round00 r.2)

/-! ## `netinfo10` -/

/-- `basesubs::convert_to_yesno`; an unknown value is reported and taken as
no. -/
def convertToYesno (val : Text) : Bool :=
  (atStart (cls fun c => "tTyY1".toList.contains c) val).isSome

/-- The package variables of `netinfo10`. -/
structure Netinfo10.Vars where
  in2out : Int
  ignoreInactive : Bool

/-- The object of package `netinfo10`. -/
structure Netinfo10 where
  ctr : Bank (Nat × Quantity) (Wrapctr ℚ)
  past : Past
  numEth : Nat
  lastTstamp : Int
  ethSpeed : Nat

namespace Netinfo10

/-- `netinfo10->prep( key, val )`. -/
def prep (vars : Vars) (key val : Text) : Vars :=
  if key = "ignore_inactive".toList then { vars with ignoreInactive := convertToYesno val }
  else vars

/-- `netinfo10->new()`: it also sets `$in2out = $main::inner2outer`. -/
def new (vars : Vars) (inner2outer : Int) (lspci dev : Text) : Vars × Netinfo10 :=
  let ctr := newWindow vars.ignoreInactive dev
  ({ vars with in2out := inner2outer },
    { ctr := ctr
      past := newPast ctr
      numEth := ((readlines dev).filterMap fun l =>
        (liveFields vars.ignoreInactive l).map Prod.fst).dedup.length
      lastTstamp := 0
      ethSpeed := Memrec.ethSpeed lspci })

/-- `getdata` before rounding. -/
def sample (vars : Vars) (self : Netinfo10) (call : Int × Text) :
    Except Die (Netinfo10 × WindowRates) := do
  let dt := elapsed self.lastTstamp call.1
  let st ← windowScan vars.ignoreInactive self.ctr self.past call.2
  let _ ← windowHist (self.ethSpeed * 1000000000 / 8 * (1 / 4) * dt) st.past st.ethList
  let out ← windowPublish vars.in2out dt st.past st.ethList
  pure ({ self with ctr := st.ctr, past := st.past, lastTstamp := call.1 }, out)

/-- `getdata`: what it stores into the data hash, and the object afterwards. -/
def getdata (vars : Vars) (self : Netinfo10) (call : Int × Text) :
    Except Die (Netinfo10 × List (Text × ℚ)) := do
  let out ← sample vars self call
  pure (out.1, [("num_eth".toList, (self.numEth : ℚ)),
    ("eth_speed".toList, (self.ethSpeed : ℚ))] ++ out.2.stores)

end Netinfo10

/-! ## `netinfo5` -/

/-- The object of package `netinfo5`. -/
structure Netinfo5 where
  ctr : Bank (Nat × Quantity) (Wrapctr ℚ)
  past : Past
  numEth : Nat
  lastTstamp : Int
  ethSpeed : Nat

namespace Netinfo5

/-- `netinfo5->new()`: here `num_eth` counts lines, not digits. -/
def new (lspci dev : Text) : Netinfo5 :=
  let ctr := newWindow false dev
  { ctr := ctr
    past := newPast ctr
    numEth := ((readlines dev).filterMap ethFields).length
    lastTstamp := 0
    ethSpeed := Memrec.ethSpeed lspci }

/-- `getdata` before rounding: the arrays of the digits below `num_eth` are
added up. -/
def sample (self : Netinfo5) (call : Int × Text) : Except Die (Netinfo5 × WindowRates) := do
  let dt := elapsed self.lastTstamp call.1
  let st ← windowScan false self.ctr self.past call.2
  let out ← windowPublish 5 dt st.past (List.range self.numEth)
  pure ({ self with ctr := st.ctr, past := st.past, lastTstamp := call.1 }, out)

/-- `getdata`: what it stores into the data hash, and the object afterwards. -/
def getdata (self : Netinfo5) (call : Int × Text) :
    Except Die (Netinfo5 × List (Text × ℚ)) := do
  let out ← self.sample call
  pure (out.1, out.2.stores)

end Netinfo5

/-! ## One scan -/

/-- The interfaces that a scan looks at, digit and fields, in file order. -/
def liveIfaces (ignoreInactive : Bool) (dev : Text) : List (Nat × List Text) :=
  (readlines dev).filterMap (liveFields ignoreInactive)

/-- The reading that is fed to the counter of a quantity. -/
def reading (ignoreInactive : Bool) (dev : Text) (e : Nat) (q : Quantity) : ℚ :=
  q.pick (fieldNum (((liveIfaces ignoreInactive dev).lookup e).getD []))

/-- A snapshot shows exactly the interfaces with digits `E`, each once. -/
structure Watches (ignoreInactive : Bool) (E : Finset Nat) (dev : Text) : Prop where
  nodup : ((liveIfaces ignoreInactive dev).map Prod.fst).Nodup
  digits : ((liveIfaces ignoreInactive dev).map Prod.fst).toFinset = E

/-- The counters of `new` are those of all the readings, stored in turn. -/
theorem newWindow_eq_putAll (ig : Bool) (dev : Text) :
    newWindow ig dev = putAll (fun _ => none)
      (((liveIfaces ig dev).flatMap fun p => windowReadings p.1 p.2).map
        fun r => (r.1, Wrapctr.new r.2)) := by
  unfold newWindow liveIfaces
  generalize (fun _ : Nat × Quantity => (none : Option (Wrapctr ℚ))) = b
  induction readlines dev generalizing b with
  | nil => rfl
  | cons line lines ih =>
      cases hl : liveFields ig line with
      | none => simpa [hl] using ih b
      | some p =>
          simp only [List.foldl_cons, hl, List.filterMap_cons, List.flatMap_cons,
            List.map_append, putAll_append]
          exact ih _

theorem foldlM_windowLine (ig : Bool) (lines : List Text) (st : WindowScan) :
    lines.foldlM (windowLine ig) st =
      (feed Wrapctr.update Die.undefMethod pushPast (st.ctr, st.past)
        ((lines.filterMap (liveFields ig)).flatMap fun p => windowReadings p.1 p.2)).map
        fun r => ⟨r.1, r.2, ((lines.filterMap (liveFields ig)).map Prod.fst).foldl
          (fun l e => l.insert e) st.ethList⟩ := by
  induction lines generalizing st with
  | nil => rfl
  | cons line lines ih =>
      cases hl : liveFields ig line with
      | none =>
          rw [List.foldlM_cons, windowLine, hl]
          simpa [hl] using ih st
      | some p =>
          rw [List.foldlM_cons, windowLine, hl]
          simp only [List.filterMap_cons, hl, List.flatMap_cons, feed_append, List.map_cons,
            List.foldl_cons]
          cases hf : feed Wrapctr.update Die.undefMethod pushPast (st.ctr, st.past)
              (windowReadings p.1 p.2) with
          | error e => rfl
          | ok r => exact ih ⟨r.1, r.2, st.ethList.insert p.1⟩

theorem nodup_foldl_insert {l init : List Nat} (h : init.Nodup) :
    (l.foldl (fun l e => l.insert e) init).Nodup := by
  induction l generalizing init with
  | nil => exact h
  | cons a l ih => exact ih (h.insert)

theorem map_fst_windowReadings (e : Nat) (fld : List Text) :
    (windowReadings e fld).map Prod.fst = Quantity.all.map fun q => (e, q) := by
  simp [windowReadings]

theorem mem_windowReadings {e : Nat} {fld : List Text} {k : Nat × Quantity} {x : ℚ} :
    (k, x) ∈ windowReadings e fld ↔ k.1 = e ∧ x = k.2.pick (fieldNum fld) := by
  obtain ⟨e', q⟩ := k
  simp only [windowReadings, List.mem_map, Prod.mk.injEq]
  constructor
  · rintro ⟨_, -, ⟨rfl, rfl⟩, rfl⟩
    exact ⟨rfl, rfl⟩
  · rintro ⟨rfl, rfl⟩
    exact ⟨q, Quantity.mem_all q, ⟨rfl, rfl⟩, rfl⟩

/-- Different digits give different keys. -/
theorem nodup_windowReadings {ps : List (Nat × List Text)} (hn : (ps.map Prod.fst).Nodup) :
    ((ps.flatMap fun p => windowReadings p.1 p.2).map Prod.fst).Nodup := by
  rw [List.map_flatMap, List.nodup_flatMap]
  constructor
  · intro p _
    rw [map_fst_windowReadings]
    exact List.Nodup.map (fun q q' h => (Prod.mk.inj h).2) (by decide)
  · rw [List.Nodup, List.pairwise_map] at hn
    refine hn.imp fun {p p'} hpp => ?_
    rw [Function.onFun, List.disjoint_left]
    intro k hk hk'
    rw [map_fst_windowReadings, List.mem_map] at hk hk'
    obtain ⟨q, -, rfl⟩ := hk
    obtain ⟨q', -, hq'⟩ := hk'
    exact hpp (Prod.mk.inj hq').1.symm

theorem foldl_pushPast_of_notMem {rs : List ((Nat × Quantity) × ℚ)}
    {f : (Nat × Quantity) × ℚ → ℚ} {past : Past} {k : Nat × Quantity}
    (h : k ∉ rs.map Prod.fst) :
    (rs.foldl (fun a r => pushPast a r.1 (f r)) past) k = past k := by
  induction rs generalizing past with
  | nil => rfl
  | cons r rs ih =>
      simp only [List.map_cons, List.mem_cons, not_or] at h
      rw [List.foldl_cons, ih h.2, pushPast, if_neg h.1]

/-- Each array is shifted once. -/
theorem foldl_pushPast_of_mem {rs : List ((Nat × Quantity) × ℚ)}
    {f : (Nat × Quantity) × ℚ → ℚ} (past : Past) (hn : (rs.map Prod.fst).Nodup)
    {r : (Nat × Quantity) × ℚ} (hr : r ∈ rs) :
    (rs.foldl (fun a r => pushPast a r.1 (f r)) past) r.1 = push (past r.1) (f r) := by
  induction rs generalizing past with
  | nil => simp at hr
  | cons s rs ih =>
      simp only [List.map_cons, List.nodup_cons] at hn
      rw [List.foldl_cons]
      rcases List.mem_cons.mp hr with rfl | hr
      · rw [foldl_pushPast_of_notMem hn.1, pushPast, if_pos rfl]
      · have hne : r.1 ≠ s.1 := fun h => hn.1 (h ▸ List.mem_map_of_mem hr)
        rw [ih _ hn.2 hr, pushPast, if_neg hne]

namespace Watches

variable {ig : Bool} {E : Finset Nat} {dev : Text}

theorem mem_iff (h : Watches ig E dev) {e : Nat} :
    e ∈ E ↔ ∃ p ∈ liveIfaces ig dev, p.1 = e := by
  rw [← h.digits, List.mem_toFinset, List.mem_map]

theorem reading_eq (h : Watches ig E dev) {p : Nat × List Text}
    (hp : p ∈ liveIfaces ig dev) (q : Quantity) :
    reading ig dev p.1 q = q.pick (fieldNum p.2) := by
  rw [reading, lookup_of_nodup h.nodup hp, Option.getD_some]

theorem mem_readings (h : Watches ig E dev) {e : Nat} (he : e ∈ E) (q : Quantity) :
    ((e, q), reading ig dev e q) ∈
      (liveIfaces ig dev).flatMap fun p => windowReadings p.1 p.2 := by
  obtain ⟨p, hp, rfl⟩ := h.mem_iff.mp he
  exact List.mem_flatMap.mpr ⟨p, hp, mem_windowReadings.mpr ⟨rfl, h.reading_eq hp q⟩⟩

theorem mem_of_mem_readings (h : Watches ig E dev) {k : Nat × Quantity} {x : ℚ}
    (hk : (k, x) ∈ (liveIfaces ig dev).flatMap fun p => windowReadings p.1 p.2) :
    k.1 ∈ E := by
  obtain ⟨p, hp, hk⟩ := List.mem_flatMap.mp hk
  exact h.mem_iff.mpr ⟨p, hp, (mem_windowReadings.mp hk).1.symm⟩

/-- `new` creates the counters and arrays of the interfaces shown, holding
their readings, and no others. -/
theorem newWindow_eq (h : Watches ig E dev) (e : Nat) (q : Quantity) :
    newWindow ig dev (e, q) =
      if e ∈ E then some (Wrapctr.new (reading ig dev e q)) else none := by
  have hkeys : ((((liveIfaces ig dev).flatMap fun p => windowReadings p.1 p.2).map
      fun r => (r.1, Wrapctr.new r.2)).map Prod.fst).Nodup := by
    rw [List.map_map]
    exact nodup_windowReadings h.nodup
  rw [newWindow_eq_putAll]
  by_cases he : e ∈ E
  · rw [if_pos he]
    exact putAll_of_mem _ _ hkeys (List.mem_map_of_mem
      (f := fun r : (Nat × Quantity) × ℚ => (r.1, Wrapctr.new r.2)) (h.mem_readings he q))
  · rw [if_neg he, putAll_of_notMem]
    intro hmem
    rw [List.map_map] at hmem
    obtain ⟨⟨k, x⟩, hr, hk⟩ := List.mem_map.mp hmem
    simp only [Function.comp_apply] at hk
    subst hk
    exact he (h.mem_of_mem_readings hr)

end Watches

/-- **One scan.**  Every counter takes its reading, every array of the
interfaces shown is shifted by its increment, all other arrays stay, and
`%eth_list` is the set of digits. -/
theorem windowScan_spec {ig : Bool} {E : Finset Nat} {dev : Text} (h : Watches ig E dev)
    {ctr : Bank (Nat × Quantity) (Wrapctr ℚ)} (past : Past) {v : Nat → Quantity → ℚ}
    (hv : ∀ e ∈ E, ∀ q, (ctr (e, q)).map Wrapctr.v = some (v e q)) :
    ∃ st, windowScan ig ctr past dev = .ok st ∧
      (∀ e ∈ E, ∀ q, (st.ctr (e, q)).map Wrapctr.v = some (reading ig dev e q)) ∧
      (∀ e ∈ E, ∀ q, st.past (e, q) =
        push (past (e, q)) (Wrapctr.step (v e q) (reading ig dev e q))) ∧
      (∀ e ∉ E, ∀ q, st.past (e, q) = past (e, q)) ∧
      st.ethList.Nodup ∧ st.ethList.toFinset = E := by
  have hn := nodup_windowReadings h.nodup
  have hcells : ∀ r ∈ (liveIfaces ig dev).flatMap fun p => windowReadings p.1 p.2,
      (ctr r.1).map Wrapctr.v = some (v r.1.1 r.1.2) := by
    rintro ⟨⟨e, q⟩, x⟩ hr
    exact hv e (h.mem_of_mem_readings hr) q
  obtain ⟨ctr', hfeed, htake, -⟩ := feed_counters pushPast (fun k => v k.1 k.2) hn hcells past
  rw [windowScan, foldlM_windowLine]
  rw [liveIfaces] at hfeed
  simp only
  rw [hfeed]
  refine ⟨_, rfl, ?_, ?_, ?_, nodup_foldl_insert List.nodup_nil, ?_⟩
  · intro e he q
    exact htake _ (h.mem_readings he q)
  · intro e he q
    exact foldl_pushPast_of_mem past (f := fun r => Wrapctr.step (v r.1.1 r.1.2) r.2) hn
      (h.mem_readings he q)
  · intro e he q
    refine foldl_pushPast_of_notMem fun hk => ?_
    obtain ⟨⟨k, x⟩, hr, hk⟩ := List.mem_map.mp hk
    simp only at hk
    subst hk
    exact he (h.mem_of_mem_readings hr)
  · ext e
    rw [List.mem_toFinset, mem_foldl_insert, ← h.digits, List.mem_toFinset]
    simp [liveIfaces]

/-! ## The arrays over a run -/

/-- Readings that never decrease advance by their differences. -/
theorem updates_eq_diffs {c : Wrapctr ℚ} {vs : List ℚ} (h : (c.v :: vs).IsChain (· ≤ ·)) :
    c.updates vs = diffs (c.v :: vs) := by
  induction vs generalizing c with
  | nil => rfl
  | cons v vs ih =>
      rw [List.isChain_cons_cons] at h
      rw [Wrapctr.updates, diffs_cons_cons, Wrapctr.update_fst, Wrapctr.step_of_le h.1,
        ih (c := (c.update v).2) h.2]
      rfl

theorem diffs_nonneg {vs : List ℚ} (h : vs.IsChain (· ≤ ·)) : ∀ d ∈ diffs vs, 0 ≤ d := by
  induction vs with
  | nil => simp [diffs]
  | cons a vs ih =>
      cases vs with
      | nil => simp [diffs]
      | cons b vs =>
          rw [List.isChain_cons_cons] at h
          intro d hd
          rcases List.mem_cons.mp hd with rfl | hd
          · exact sub_nonneg.mpr h.1
          · exact ih h.2 d hd

/-- **The invariant of the arrays.**  After the snapshots `dev₀, devs`, every
counter holds the last reading, and every array shows the last ten entries of
ten zeros followed by the increments so far. -/
structure WindowInv (ig : Bool) (E : Finset Nat) (dev₀ : Text) (devs : List Text)
    (ctr : Bank (Nat × Quantity) (Wrapctr ℚ)) (past : Past) : Prop where
  held : ∀ e ∈ E, ∀ q, (ctr (e, q)).map Wrapctr.v =
    some (reading ig (devs.getLastD dev₀) e q)
  window : ∀ e ∈ E, ∀ q, past (e, q) =
    (List.replicate 10 0 ++ (Wrapctr.new (reading ig dev₀ e q)).updates
      (devs.map fun d => reading ig d e q)).rtake 10
  foreign : ∀ e ∉ E, ∀ q, past (e, q) = []

theorem WindowInv.new {ig : Bool} {E : Finset Nat} {dev₀ : Text} (h : Watches ig E dev₀) :
    WindowInv ig E dev₀ [] (newWindow ig dev₀) (newPast (newWindow ig dev₀)) := by
  refine ⟨?_, ?_, ?_⟩
  · intro e he q
    rw [h.newWindow_eq, if_pos he]
    rfl
  · intro e he q
    rw [newPast, h.newWindow_eq, if_pos he]
    rfl
  · intro e he q
    rw [newPast, h.newWindow_eq, if_neg he]
    rfl

/-- One more snapshot shifts every window by one. -/
theorem WindowInv.step {ig : Bool} {E : Finset Nat} {dev₀ dev : Text} {devs : List Text}
    {ctr : Bank (Nat × Quantity) (Wrapctr ℚ)} {past : Past}
    (hinv : WindowInv ig E dev₀ devs ctr past) (h : Watches ig E dev) :
    ∃ st, windowScan ig ctr past dev = .ok st ∧
      WindowInv ig E dev₀ (devs ++ [dev]) st.ctr st.past ∧
      st.ethList.Nodup ∧ st.ethList.toFinset = E := by
  obtain ⟨st, hst, hctr, hpast, hother, hnd, hE⟩ := windowScan_spec h past hinv.held
  refine ⟨st, hst, ⟨?_, ?_, ?_⟩, hnd, hE⟩
  · intro e he q
    rw [hctr e he q, List.getLastD_concat]
  · intro e he q
    have hlast : (devs.map fun d => reading ig d e q).getLastD
        (Wrapctr.new (reading ig dev₀ e q)).v = reading ig (devs.getLastD dev₀) e q := by
      rw [List.getLastD_eq_getLast?, List.getLast?_map, List.getLastD_eq_getLast?]
      cases devs.getLast? <;> rfl
    rw [hpast e he q, hinv.window e he q, push_rtake (by decide) (by simp), List.map_append,
      List.map_singleton, Wrapctr.updates_snoc, hlast, List.append_assoc]
  · intro e he q
    rw [hother e he q, hinv.foreign e he q]

/-- Readings of every quantity never decrease along the snapshots. -/
def Grows (ig : Bool) (E : Finset Nat) (snaps : List Text) : Prop :=
  snaps.IsChain fun d d' => ∀ e ∈ E, ∀ q, reading ig d e q ≤ reading ig d' e q

theorem Grows.readings {ig : Bool} {E : Finset Nat} {snaps : List Text}
    (h : Grows ig E snaps) {e : Nat} (he : e ∈ E) (q : Quantity) :
    (snaps.map fun d => reading ig d e q).IsChain (· ≤ ·) := by
  rw [List.isChain_map]
  exact h.imp fun d d' hd => hd e he q

/-- Along growing snapshots a later reading is not smaller. -/
theorem Grows.getD_le {ig : Bool} {E : Finset Nat} {dev₀ : Text} {devs : List Text}
    (h : Grows ig E (dev₀ :: devs)) {i j : Nat} (hij : i ≤ j) (hj : j ≤ devs.length)
    {e : Nat} (he : e ∈ E) (q : Quantity) :
    reading ig ((dev₀ :: devs).getD i dev₀) e q ≤ reading ig ((dev₀ :: devs).getD j dev₀) e q := by
  have hp := List.isChain_iff_pairwise.mp (h.readings he q)
  rcases Nat.eq_or_lt_of_le hij with rfl | hlt
  · exact le_refl _
  · rw [List.pairwise_map, List.pairwise_iff_getElem] at hp
    have hi' : i < (dev₀ :: devs).length := by simp only [List.length_cons]; omega
    have hj' : j < (dev₀ :: devs).length := by simp only [List.length_cons]; omega
    have := hp i j hi' hj' hlt
    simpa [List.getD, List.getElem?_eq_getElem hi', List.getElem?_eq_getElem hj'] using this

namespace WindowInv

variable {ig : Bool} {E : Finset Nat} {dev₀ : Text} {devs : List Text}
  {ctr : Bank (Nat × Quantity) (Wrapctr ℚ)} {past : Past}

theorem updates_eq (hg : Grows ig E (dev₀ :: devs)) {e : Nat} (he : e ∈ E) (q : Quantity) :
    (Wrapctr.new (reading ig dev₀ e q)).updates (devs.map fun d => reading ig d e q) =
      diffs ((dev₀ :: devs).map fun d => reading ig d e q) :=
  updates_eq_diffs (hg.readings he q)

/-- Entries of the arrays are not negative. -/
theorem nonneg (hinv : WindowInv ig E dev₀ devs ctr past) (hg : Grows ig E (dev₀ :: devs))
    (e : Nat) (q : Quantity) : ∀ d ∈ past (e, q), 0 ≤ d := by
  intro d hd
  by_cases he : e ∈ E
  · rw [hinv.window e he q, updates_eq hg he q] at hd
    rcases List.mem_append.mp (mem_of_mem_rtake hd) with hd | hd
    · rw [List.eq_of_mem_replicate hd]
    · exact diffs_nonneg (hg.readings he q) d hd
  · rw [hinv.foreign e he q] at hd
    simp at hd

/-- The sum over an array is the advance over the last ten snapshots. -/
theorem sum_past (hinv : WindowInv ig E dev₀ devs ctr past) (hg : Grows ig E (dev₀ :: devs))
    {e : Nat} (he : e ∈ E) (q : Quantity) :
    (past (e, q)).sum =
      ((diffs ((dev₀ :: devs).map fun d => reading ig d e q)).rtake 10).sum := by
  rw [hinv.window e he q, updates_eq hg he q, sum_rtake_zeros]

end WindowInv

/-- The advance over the last `n` snapshots is the distance between the last
one and the one `n` before it. -/
theorem sum_rtake_readings (ig : Bool) (dev₀ : Text) (devs : List Text) (n e : Nat)
    (q : Quantity) :
    ((diffs ((dev₀ :: devs).map fun d => reading ig d e q)).rtake n).sum =
      reading ig (devs.getLastD dev₀) e q -
        reading ig ((dev₀ :: devs).getD (devs.length - n) dev₀) e q := by
  rw [List.map_cons, sum_rtake_diffs, List.length_map,
    ← List.map_cons (f := fun d => reading ig d e q)]
  congr 1
  · rw [List.getLastD_eq_getLast?, List.getLast?_map, List.getLast?_cons, Option.map_some,
      Option.getD_some, List.getLastD_eq_getLast?]
  · rw [List.getD, List.getElem?_map, List.getD]
    cases (dev₀ :: devs)[devs.length - n]? <;> rfl

/-! ## Calls that complete -/

theorem ethSpeed_pos (lspci : Text) : 0 < ethSpeed lspci := by
  unfold ethSpeed
  apply List.foldlRecOn (motive := fun speed => 0 < speed)
  · decide
  · intro speed hspeed line _
    cases capture lspciLine line with
    | none => exact hspeed
    | some x => dsimp only; split <;> decide

/-- A subscript that is not negative is always fine. -/
theorem histBump_ok {pct25 d : ℚ} (hp : 0 < pct25) (hd : 0 ≤ d) (len : Nat) :
    ∃ n, histBump pct25 len d = .ok n := by
  have hr : 0 ≤ d / pct25 := div_nonneg hd hp.le
  have hi : ¬ int (d / pct25) < -len := by
    have : 0 ≤ int (d / pct25) := by
      rw [int, if_pos hr]
      exact Int.floor_nonneg.mpr hr
    omega
  exact ⟨_, by rw [histBump, div_of_ne hp.ne', ok_bind, if_neg hi]; rfl⟩

theorem foldlM_histBump_ok {pct25 : ℚ} (hp : 0 < pct25) {ds : List ℚ}
    (hd : ∀ d ∈ ds, 0 ≤ d) (len : Nat) : ∃ n, ds.foldlM (histBump pct25) len = .ok n := by
  induction ds generalizing len with
  | nil => exact ⟨len, rfl⟩
  | cons d ds ih =>
      obtain ⟨n, hn⟩ := histBump_ok hp (hd d (by simp)) len
      rw [List.foldlM_cons, hn]
      exact ih (fun x hx => hd x (by simp [hx])) n

theorem windowHist_ok {pct25 : ℚ} (hp : 0 < pct25) {past : Past}
    (hd : ∀ e q, ∀ d ∈ past (e, q), 0 ≤ d) (es : List Nat) :
    ∃ h, windowHist pct25 past es = .ok h := by
  rw [windowHist]
  generalize ((4, 4) : Nat × Nat) = h₀
  induction es generalizing h₀ with
  | nil => exact ⟨h₀, rfl⟩
  | cons e es ih =>
      obtain ⟨i, hi⟩ := foldlM_histBump_ok hp (hd e .bytesIn) h₀.1
      obtain ⟨o, ho⟩ := foldlM_histBump_ok hp (hd e .bytesOut) h₀.2
      rw [List.foldlM_cons, hi, ok_bind, ho]
      exact ih (i, o)

theorem windowPublish_ok {window dt : ℚ} (hw : window ≠ 0) (hdt : dt ≠ 0) (past : Past)
    (es : List Nat) :
    windowPublish window dt past es =
      .ok ⟨windowMax past es .bytesIn / dt, windowMax past es .bytesOut / dt,
        windowOrder.map fun q => (q, windowTotal past es q / (window * dt))⟩ := by
  rw [windowPublish, div_of_ne hdt, ok_bind, div_of_ne hdt, ok_bind,
    mapM_rates (fun q => q) (windowTotal past es) (mul_ne_zero hw hdt)]
  rfl

/-- Same interfaces throughout, no reading ever decreases, and the calls are
`dt` seconds apart, the first at a time of day that is not negative. -/
structure WindowRun (ig : Bool) (E : Finset Nat) (dt : Int) (dev₀ : Text)
    (calls : List (Int × Text)) : Prop where
  watches : ∀ dev ∈ dev₀ :: calls.map Prod.snd, Watches ig E dev
  grows : Grows ig E (dev₀ :: calls.map Prod.snd)
  start : ∀ c ∈ calls.head?, 0 ≤ c.1
  steps : (calls.map Prod.fst).IsChain fun t t' => t' = t + dt
  pos : 0 < dt

namespace WindowRun

variable {ig : Bool} {E : Finset Nat} {dt : Int} {dev₀ : Text} {calls : List (Int × Text)}
  {call : Int × Text}

theorem init (h : WindowRun ig E dt dev₀ (calls ++ [call])) : WindowRun ig E dt dev₀ calls where
  watches dev hdev := h.watches dev (by
    rcases List.mem_cons.mp hdev with rfl | hdev
    · simp
    · simp only [List.map_append, List.mem_cons, List.mem_append]
      exact Or.inr (Or.inl hdev))
  grows := by
    have hg := h.grows
    rw [Grows, List.map_append, ← List.cons_append, List.isChain_append] at hg
    exact hg.1
  start c hc := h.start c (by
    cases calls with
    | nil => simp at hc
    | cons c' cs => exact hc)
  steps := by
    have hs := h.steps
    rw [List.map_append, List.isChain_append] at hs
    exact hs.1
  pos := h.pos

/-- The elapsed time that a call sees: the time step, except for the first
call, which measures from the epoch. -/
theorem elapsed_eq (h : WindowRun ig E dt dev₀ (calls ++ [call])) :
    elapsed ((calls.map Prod.fst).getLastD 0) call.1 =
      if calls = [] then elapsed 0 call.1 else (dt : ℚ) := by
  by_cases hc : calls = []
  · simp [hc]
  · rw [if_neg hc]
    obtain ⟨cs, c, rfl⟩ := List.eq_nil_or_concat' calls |>.resolve_left hc
    have hs := h.steps
    rw [List.map_append, List.map_append, List.append_assoc, List.isChain_append] at hs
    have hlast := hs.2.1
    simp only [List.map_cons, List.map_nil, List.cons_append, List.nil_append,
      List.isChain_cons_cons] at hlast
    have ht : call.1 = c.1 + dt := hlast.1
    have hpos := h.pos
    rw [List.map_append, List.map_singleton, List.getLastD_concat, elapsed_of_lt (by omega), ht]
    push_cast
    ring

theorem elapsed_pos (h : WindowRun ig E dt dev₀ (calls ++ [call])) :
    0 < elapsed ((calls.map Prod.fst).getLastD 0) call.1 := by
  rw [h.elapsed_eq]
  by_cases hc : calls = []
  · rw [if_pos hc]
    have ht : 0 ≤ call.1 := h.start call (by simp [hc])
    rcases ht.eq_or_lt with ht | ht
    · simp [elapsed, ← ht]
    · rw [elapsed_of_lt ht]
      simpa using ht
  · rw [if_neg hc]
    exact_mod_cast h.pos

end WindowRun

/-- A sum of the arrays over `%eth_list` is a sum over the interfaces. -/
theorem windowTotal_eq {past : Past} {es : List Nat} {E : Finset Nat} (hn : es.Nodup)
    (hE : es.toFinset = E) (q : Quantity) :
    windowTotal past es q = ∑ e ∈ E, (past (e, q)).sum := by
  rw [windowTotal, ← hE, List.sum_toFinset _ hn]

namespace Netinfo10

variable {vars : Vars} {E : Finset Nat} {dt : Int} {dev₀ lspci : Text}
  {calls : List (Int × Text)} {call : Int × Text}

/-- **One step of `netinfo10`.** -/
theorem sample_step (vars : Vars) {self : Netinfo10} (hN : vars.in2out ≠ 0)
    (hrun : WindowRun vars.ignoreInactive E dt dev₀ (calls ++ [call]))
    (hinv : WindowInv vars.ignoreInactive E dev₀ (calls.map Prod.snd) self.ctr self.past)
    (htime : self.lastTstamp = (calls.map Prod.fst).getLastD 0)
    (hspeed : self.ethSpeed = Memrec.ethSpeed lspci) :
    ∃ self' out, sample vars self call = .ok (self', out) ∧
      WindowInv vars.ignoreInactive E dev₀ ((calls ++ [call]).map Prod.snd)
        self'.ctr self'.past ∧
      self'.lastTstamp = call.1 ∧ self'.ethSpeed = Memrec.ethSpeed lspci ∧
      out.rates = windowOrder.map fun q => (q, (∑ e ∈ E, (self'.past (e, q)).sum) /
        (vars.in2out * elapsed ((calls.map Prod.fst).getLastD 0) call.1)) := by
  obtain ⟨st, hst, hinv', hnd, hE⟩ := hinv.step (hrun.watches call.2 (by simp))
  rw [← List.map_singleton (f := Prod.snd), ← List.map_append] at hinv'
  have hpos := hrun.elapsed_pos
  have hpct : 0 < (self.ethSpeed : ℚ) * 1000000000 / 8 * (1 / 4) *
      elapsed self.lastTstamp call.1 := by
    have hs : (0 : ℚ) < self.ethSpeed := by
      rw [hspeed]
      exact_mod_cast ethSpeed_pos lspci
    rw [htime]
    positivity
  obtain ⟨h, hh⟩ := windowHist_ok hpct (hinv'.nonneg hrun.grows) st.ethList
  have hN' : (vars.in2out : ℚ) ≠ 0 := by exact_mod_cast hN
  have hsample : sample vars self call = (windowPublish vars.in2out
      (elapsed self.lastTstamp call.1) st.past st.ethList).map fun out =>
        ({ self with ctr := st.ctr, past := st.past, lastTstamp := call.1 }, out) := by
    rw [sample]
    simp only [hst, ok_bind, hh]
    rfl
  rw [windowPublish_ok hN' (elapsed_ne_zero _ _)] at hsample
  refine ⟨_, _, hsample, hinv', rfl, hspeed, ?_⟩
  simp only [windowTotal_eq hnd hE, htime]

/-- **Runs of `netinfo10`.**  A steady run completes and keeps the
invariant. -/
theorem after_run (inner2outer : Int) (hN : inner2outer ≠ 0)
    (hrun : WindowRun vars.ignoreInactive E dt dev₀ calls) :
    ∃ s, after (getdata (new vars inner2outer lspci dev₀).1)
        (new vars inner2outer lspci dev₀).2 calls = .ok s ∧
      WindowInv vars.ignoreInactive E dev₀ (calls.map Prod.snd) s.ctr s.past ∧
      s.lastTstamp = (calls.map Prod.fst).getLastD 0 ∧ s.ethSpeed = Memrec.ethSpeed lspci := by
  induction calls using List.reverseRecOn with
  | nil => exact ⟨_, rfl, WindowInv.new (hrun.watches dev₀ (by simp)), rfl, rfl⟩
  | append_singleton calls call ih =>
      obtain ⟨s, hs, hinv, htime, hspeed⟩ := ih hrun.init
      obtain ⟨s', out, hsample, hinv', htime', hspeed', -⟩ :=
        sample_step (new vars inner2outer lspci dev₀).1 hN hrun hinv htime hspeed
      refine ⟨s', ?_, hinv', ?_, hspeed'⟩
      · rw [after_append_ok hs]
        rw [after_cons_ok (r := (s', _)) (by rw [getdata, hsample]; rfl)]
        rfl
      · rw [htime', List.map_append, List.map_singleton, List.getLastD_concat]

end Netinfo10

namespace Netinfo5

variable {E : Finset Nat} {dt : Int} {dev₀ lspci : Text} {calls : List (Int × Text)}
  {call : Int × Text}

/-- With pairwise different digits the lines are as many as the digits. -/
theorem numEth_new (h : Watches false E dev₀) : (new lspci dev₀).numEth = E.card := by
  have hlive : (readlines dev₀).filterMap ethFields = liveIfaces false dev₀ := by
    refine List.filterMap_congr fun line _ => ?_
    cases hl : ethFields line <;> simp [liveFields, hl]
  rw [new, hlive, ← h.digits, List.toFinset_card_of_nodup h.nodup, List.length_map]

/-- **One step of `netinfo5`.** -/
theorem sample_step {self : Netinfo5} (hrun : WindowRun false E dt dev₀ (calls ++ [call]))
    (hinv : WindowInv false E dev₀ (calls.map Prod.snd) self.ctr self.past)
    (htime : self.lastTstamp = (calls.map Prod.fst).getLastD 0)
    (hnum : self.numEth = E.card) :
    ∃ self' out, self.sample call = .ok (self', out) ∧
      WindowInv false E dev₀ ((calls ++ [call]).map Prod.snd) self'.ctr self'.past ∧
      self'.lastTstamp = call.1 ∧ self'.numEth = E.card ∧
      out.rates = windowOrder.map fun q =>
        (q, (∑ e ∈ E with e < E.card, (self'.past (e, q)).sum) /
          (5 * elapsed ((calls.map Prod.fst).getLastD 0) call.1)) := by
  obtain ⟨st, hst, hinv', -, -⟩ := hinv.step (hrun.watches call.2 (by simp))
  rw [← List.map_singleton, ← List.map_append] at hinv'
  have hsample : self.sample call = (windowPublish 5 (elapsed self.lastTstamp call.1) st.past
      (List.range self.numEth)).map fun out =>
        ({ self with ctr := st.ctr, past := st.past, lastTstamp := call.1 }, out) := by
    rw [sample]
    simp only [hst, ok_bind]
    rfl
  rw [windowPublish_ok (by norm_num) (elapsed_ne_zero _ _)] at hsample
  -- Digits below `num_eth` without an interface have an empty array.
  have htotal : ∀ q, windowTotal st.past (List.range self.numEth) q =
      ∑ e ∈ E with e < E.card, (st.past (e, q)).sum := by
    intro q
    rw [windowTotal_eq List.nodup_range (E := Finset.range E.card) (by rw [hnum]; ext; simp)]
    symm
    refine Finset.sum_subset ?_ ?_
    · intro e he
      rw [Finset.mem_filter] at he
      exact Finset.mem_range.mpr he.2
    · intro e he hnot
      have hE : e ∉ E := fun h => hnot (Finset.mem_filter.mpr ⟨h, Finset.mem_range.mp he⟩)
      rw [hinv'.foreign e hE q, List.sum_nil]
  refine ⟨_, _, hsample, hinv', rfl, hnum, ?_⟩
  simp only [htotal, htime]

/-- **Runs of `netinfo5`.**  A steady run completes and keeps the invariant. -/
theorem after_run (hrun : WindowRun false E dt dev₀ calls) :
    ∃ s, after getdata (new lspci dev₀) calls = .ok s ∧
      WindowInv false E dev₀ (calls.map Prod.snd) s.ctr s.past ∧
      s.lastTstamp = (calls.map Prod.fst).getLastD 0 ∧ s.numEth = E.card := by
  induction calls using List.reverseRecOn with
  | nil =>
      have hw := hrun.watches dev₀ (by simp)
      exact ⟨_, rfl, WindowInv.new hw, rfl, numEth_new hw⟩
  | append_singleton calls call ih =>
      obtain ⟨s, hs, hinv, htime, hnum⟩ := ih hrun.init
      obtain ⟨s', out, hsample, hinv', htime', hnum', -⟩ := sample_step hrun hinv htime hnum
      refine ⟨s', ?_, hinv', ?_, hnum'⟩
      · rw [after_append_ok hs]
        rw [after_cons_ok (r := (s', _)) (by rw [getdata, hsample]; rfl)]
        rfl
      · rw [htime', List.map_append, List.map_singleton, List.getLastD_concat]

end Netinfo5

/-! ## The promised average -/

/-- Snapshot number `i` of a run, counted from the one that `new` read. -/
def snapshot (dev₀ : Text) (calls : List (Int × Text)) (i : Nat) : Text :=
  (dev₀ :: calls.map Prod.snd).getD i dev₀

/-- What the reading of an interface gained in the last `n` calls, increment by
increment. -/
def gain (ig : Bool) (dev₀ : Text) (calls : List (Int × Text)) (n e : Nat) (q : Quantity) : ℚ :=
  ((diffs ((dev₀ :: calls.map Prod.snd).map fun d => reading ig d e q)).rtake n).sum

/-- The average over the last `n` calls. -/
def windowAverage (ig : Bool) (E : Finset Nat) (dev₀ : Text) (calls : List (Int × Text))
    (n : Nat) (dt : Int) (q : Quantity) : ℚ :=
  (∑ e ∈ E, gain ig dev₀ calls n e q) / (n * dt)

theorem gain_eq (ig : Bool) (dev₀ : Text) (calls : List (Int × Text)) (n e : Nat)
    (q : Quantity) :
    gain ig dev₀ calls n e q = reading ig (snapshot dev₀ calls calls.length) e q -
      reading ig (snapshot dev₀ calls (calls.length - n)) e q := by
  have hlast : snapshot dev₀ calls calls.length = (calls.map Prod.snd).getLastD dev₀ := by
    rw [snapshot, List.getD, List.getLastD_eq_getLast?, ← List.length_map Prod.snd]
    cases List.eq_nil_or_concat' (calls.map Prod.snd) with
    | inl h => rw [h]; rfl
    | inr h => obtain ⟨l, d, h⟩ := h; rw [h]; simp
  rw [gain, sum_rtake_readings, hlast, snapshot, List.length_map]

/-- Two gains up to the same snapshot agree in total when nothing moved between
their beginnings. -/
theorem sum_gain_eq_iff {ig : Bool} {E : Finset Nat} {dev₀ : Text} {calls : List (Int × Text)}
    (hg : Grows ig E (dev₀ :: calls.map Prod.snd)) (m n : Nat) (q : Quantity) :
    ∑ e ∈ E, gain ig dev₀ calls m e q = ∑ e ∈ E, gain ig dev₀ calls n e q ↔
      ∀ e ∈ E, reading ig (snapshot dev₀ calls (calls.length - m)) e q =
        reading ig (snapshot dev₀ calls (calls.length - n)) e q := by
  wlog hmn : n ≤ m with hsymm
  · rw [eq_comm, hsymm hg n m q (by omega)]
    exact forall₂_congr fun e _ => eq_comm
  have hle : ∀ e ∈ E, gain ig dev₀ calls n e q ≤ gain ig dev₀ calls m e q := by
    intro e he
    have := hg.getD_le (i := calls.length - m) (j := calls.length - n) (by omega)
      (by rw [List.length_map]; omega) he q
    rw [gain_eq, gain_eq]
    exact sub_le_sub_left this _
  rw [eq_comm, Finset.sum_eq_sum_iff_of_le hle]
  refine forall₂_congr fun e _ => ?_
  rw [gain_eq, gain_eq, sub_right_inj, eq_comm]

/-- The rates of `netinfo10`, with the gains over ten calls. -/
theorem Netinfo10.run_rates {vars : Vars} {E : Finset Nat} {dt : Int} {dev₀ : Text}
    {calls : List (Int × Text)} {call : Int × Text} (lspci : Text) {N : Nat} (hN : 1 ≤ N)
    (hrun : WindowRun vars.ignoreInactive E dt dev₀ (calls ++ [call])) :
    ∃ s s' out, after (getdata (new vars N lspci dev₀).1) (new vars N lspci dev₀).2 calls = .ok s ∧
      sample (new vars N lspci dev₀).1 s call = .ok (s', out) ∧
      out.rates = windowOrder.map fun q =>
        (q, (∑ e ∈ E, gain vars.ignoreInactive dev₀ (calls ++ [call]) 10 e q) /
          (N * if calls = [] then elapsed 0 call.1 else (dt : ℚ))) := by
  have hN' : (N : Int) ≠ 0 := by omega
  obtain ⟨s, hs, hinv, htime, hspeed⟩ := after_run N hN' hrun.init
  obtain ⟨s', out, hsample, hinv', -, -, hrates⟩ :=
    sample_step (new vars N lspci dev₀).1 hN' hrun hinv htime hspeed
  refine ⟨s, s', out, hs, hsample, hrates.trans ?_⟩
  refine List.map_congr_left fun q _ => ?_
  rw [hrun.elapsed_eq, Finset.sum_congr rfl fun e he => hinv'.sum_past hrun.grows he q]
  rfl

/-- The rates of `netinfo5`, with the gains over ten calls of the interfaces
whose digit is below their number. -/
theorem Netinfo5.run_rates {E : Finset Nat} {dt : Int} {dev₀ : Text}
    {calls : List (Int × Text)} {call : Int × Text} (lspci : Text)
    (hrun : WindowRun false E dt dev₀ (calls ++ [call])) :
    ∃ s s' out, after getdata (new lspci dev₀) calls = .ok s ∧ s.sample call = .ok (s', out) ∧
      out.rates = windowOrder.map fun q =>
        (q, (∑ e ∈ E with e < E.card, gain false dev₀ (calls ++ [call]) 10 e q) /
          (5 * if calls = [] then elapsed 0 call.1 else (dt : ℚ))) := by
  obtain ⟨s, hs, hinv, htime, hnum⟩ := after_run hrun.init
  obtain ⟨s', out, hsample, hinv', -, -, hrates⟩ := sample_step hrun hinv htime hnum
  refine ⟨s, s', out, hs, hsample, hrates.trans ?_⟩
  refine List.map_congr_left fun q _ => ?_
  rw [hrun.elapsed_eq, Finset.sum_congr rfl fun e he =>
    hinv'.sum_past hrun.grows (Finset.mem_filter.mp he).1 q]
  rfl

namespace WindowRun

variable {ig : Bool} {E : Finset Nat} {dt : Int} {dev₀ : Text} {calls : List (Int × Text)}
  {call : Int × Text}

/-- Gains over ten calls against the average of the last `N`. -/
theorem average_iff (hrun : WindowRun ig E dt dev₀ (calls ++ [call])) {N : Nat} (hN : 1 ≤ N)
    (hNk : N ≤ calls.length + 1) (q : Quantity) :
    (∑ e ∈ E, gain ig dev₀ (calls ++ [call]) 10 e q) /
        (N * if calls = [] then elapsed 0 call.1 else (dt : ℚ)) =
        windowAverage ig E dev₀ (calls ++ [call]) N dt q ↔
      (∀ e ∈ E, reading ig (snapshot dev₀ (calls ++ [call]) (calls.length + 1 - 10)) e q =
        reading ig (snapshot dev₀ (calls ++ [call]) (calls.length + 1 - N)) e q) ∧
      (calls.length + 1 = 1 → elapsed 0 call.1 = dt ∨
        ∀ e ∈ E, reading ig dev₀ e q = reading ig call.2 e q) := by
  have hlen : (calls ++ [call]).length = calls.length + 1 := by simp
  have hsum := sum_gain_eq_iff hrun.grows 10 N q
  rw [hlen] at hsum
  have hN' : (N : ℚ) ≠ 0 := by
    have : N ≠ 0 := by omega
    exact_mod_cast this
  have hdt : (dt : ℚ) ≠ 0 := by exact_mod_cast hrun.pos.ne'
  rw [← hsum, windowAverage]
  by_cases hc : calls = []
  · subst hc
    obtain rfl : N = 1 := by simp only [List.length_nil] at hNk; omega
    have hten : ∀ e, gain ig dev₀ ([] ++ [call]) 10 e q = gain ig dev₀ ([] ++ [call]) 1 e q := by
      intro e
      rw [gain_eq, gain_eq]
      rfl
    have hzero : ∑ e ∈ E, gain ig dev₀ ([] ++ [call]) 1 e q = 0 ↔
        ∀ e ∈ E, reading ig dev₀ e q = reading ig call.2 e q := by
      have hnone : ∀ e, gain ig dev₀ ([] ++ [call]) 0 e q = 0 := by
        intro e
        rw [gain_eq, Nat.sub_zero, sub_self]
      have h := sum_gain_eq_iff hrun.grows 1 0 q
      simp only [hnone, Finset.sum_const_zero] at h
      exact h
    simp only [hten, ← hzero, Nat.cast_one, one_mul, if_true, true_and, List.length_nil,
      Nat.zero_add, forall_true_left]
    rw [div_eq_mul_inv, div_eq_mul_inv, mul_eq_mul_left_iff, inv_inj]
  · rw [if_neg hc, div_left_inj' (mul_ne_zero hN' hdt)]
    have hne : calls.length + 1 ≠ 1 := by
      have := List.length_pos_iff.mpr hc
      omega
    exact ⟨fun h => ⟨h, fun h1 => absurd h1 hne⟩, fun h => h.1⟩

/-- Gains over ten calls of some interfaces against the average of the last
five calls of all of them. -/
theorem average_five_iff (hrun : WindowRun false E dt dev₀ (calls ++ [call]))
    (hk : 5 ≤ calls.length + 1) (q : Quantity) :
    (∑ e ∈ E with e < E.card, gain false dev₀ (calls ++ [call]) 10 e q) /
        (5 * if calls = [] then elapsed 0 call.1 else (dt : ℚ)) =
        windowAverage false E dev₀ (calls ++ [call]) 5 dt q ↔
      ∑ e ∈ E with e < E.card,
        (reading false (snapshot dev₀ (calls ++ [call]) (calls.length + 1 - 5)) e q -
          reading false (snapshot dev₀ (calls ++ [call]) (calls.length + 1 - 10)) e q) =
      ∑ e ∈ E with ¬ e < E.card,
        (reading false call.2 e q -
          reading false (snapshot dev₀ (calls ++ [call]) (calls.length + 1 - 5)) e q) := by
  have hdt : (dt : ℚ) ≠ 0 := by exact_mod_cast hrun.pos.ne'
  have hc : calls ≠ [] := by
    rintro rfl
    simp only [List.length_nil] at hk
    omega
  have hcall : snapshot dev₀ (calls ++ [call]) (calls.length + 1) = call.2 := by
    simp [snapshot, List.getD]
  rw [if_neg hc, windowAverage, Nat.cast_ofNat, div_left_inj' (mul_ne_zero (by norm_num) hdt),
    ← Finset.sum_filter_add_sum_filter_not E (· < E.card), ← sub_eq_iff_eq_add',
    ← Finset.sum_sub_distrib]
  simp only [gain_eq, List.length_append, List.length_singleton, hcall, sub_sub_sub_cancel_left]

end WindowRun

/-- **The windowed average.**  In a steady run of at least `N` calls,
`netinfo10` publishes the average of the last `N` calls if and only if nothing
moved between the snapshot ten calls back and the one `N` calls back (both cut
off at the snapshot of `new`) and, where the call is the first one and so
measures from the epoch, that happens to be the time step or nothing moved.
`netinfo5` publishes the average of the last five calls if and only if what the
interfaces with a digit below their number gained in the five calls before
makes up for what the others gained since. -/
theorem netinfo10_netinfo5_average_iff (lspci dev₀ : Text) (E : Finset Nat) (dt : Int)
    (calls : List (Int × Text)) (call : Int × Text) (k : Nat) (hk : k = calls.length + 1) :
    (∀ (vars : Netinfo10.Vars) (N : Nat), 1 ≤ N → N ≤ k →
      WindowRun vars.ignoreInactive E dt dev₀ (calls ++ [call]) →
      ∃ (s s' : Netinfo10) (out : WindowRates) (r : Quantity → ℚ),
        after (Netinfo10.getdata (Netinfo10.new vars N lspci dev₀).1)
          (Netinfo10.new vars N lspci dev₀).2 calls = .ok s ∧
        Netinfo10.sample (Netinfo10.new vars N lspci dev₀).1 s call = .ok (s', out) ∧
        out.rates = windowOrder.map (fun q => (q, r q)) ∧
        ∀ q, r q = windowAverage vars.ignoreInactive E dev₀ (calls ++ [call]) N dt q ↔
          (∀ e ∈ E,
            reading vars.ignoreInactive (snapshot dev₀ (calls ++ [call]) (k - 10)) e q =
              reading vars.ignoreInactive (snapshot dev₀ (calls ++ [call]) (k - N)) e q) ∧
          (k = 1 → elapsed 0 call.1 = dt ∨ ∀ e ∈ E,
            reading vars.ignoreInactive dev₀ e q = reading vars.ignoreInactive call.2 e q)) ∧
    (5 ≤ k → WindowRun false E dt dev₀ (calls ++ [call]) →
      ∃ (s s' : Netinfo5) (out : WindowRates) (r : Quantity → ℚ),
        after Netinfo5.getdata (Netinfo5.new lspci dev₀) calls = .ok s ∧
        s.sample call = .ok (s', out) ∧
        out.rates = windowOrder.map (fun q => (q, r q)) ∧
        ∀ q, r q = windowAverage false E dev₀ (calls ++ [call]) 5 dt q ↔
          ∑ e ∈ E with e < E.card,
            (reading false (snapshot dev₀ (calls ++ [call]) (k - 5)) e q -
              reading false (snapshot dev₀ (calls ++ [call]) (k - 10)) e q) =
          ∑ e ∈ E with ¬ e < E.card,
            (reading false call.2 e q -
              reading false (snapshot dev₀ (calls ++ [call]) (k - 5)) e q)) := by
  subst hk
  constructor
  · intro vars N hN hNk hrun
    obtain ⟨s, s', out, hs, hsample, hrates⟩ := Netinfo10.run_rates lspci hN hrun
    exact ⟨s, s', out, _, hs, hsample, hrates, hrun.average_iff hN hNk⟩
  · intro hk5 hrun
    obtain ⟨s, s', out, hs, hsample, hrates⟩ := Netinfo5.run_rates lspci hrun
    exact ⟨s, s', out, _, hs, hsample, hrates, hrun.average_five_iff hk5⟩

/-- A snapshot of one interface that only receives bytes. -/
def oneIface (bytes : Nat) : Text :=
  "  eth0:".toList ++ decimal bytes ++ " 0 0 0 0 0 0 0 0 0 0 0 0 0 0 0\n".toList

theorem oneIface_run (ig : Bool) : WindowRun ig {0} 10 (oneIface 1)
    [(10, oneIface 2), (20, oneIface 3), (30, oneIface 4), (40, oneIface 5),
      (50, oneIface 6)] where
  watches := by
    intro dev h
    simp only [List.map_cons, List.map_nil, List.mem_cons, List.not_mem_nil, or_false] at h
    cases ig <;> rcases h with rfl | rfl | rfl | rfl | rfl | rfl <;>
      exact ⟨by decide +kernel, by decide +kernel⟩
  grows := by cases ig <;> unfold Grows <;> decide +kernel
  start := by simp
  steps := by decide
  pos := by decide

/-- The two modules on five calls, where the windows of five and of ten calls
both begin with the snapshot of `new`. -/
theorem netinfo10_netinfo5_average_five :
    (∃ (s s' : Netinfo10) (out : WindowRates) (r : Quantity → ℚ),
      Netinfo10.sample ⟨5, true⟩ s (50, oneIface 6) = .ok (s', out) ∧
        out.rates = windowOrder.map (fun q => (q, r q)) ∧
        r .bytesIn = windowAverage true {0} (oneIface 1) [(10, oneIface 2), (20, oneIface 3),
          (30, oneIface 4), (40, oneIface 5), (50, oneIface 6)] 5 10 .bytesIn) ∧
    ∃ (s s' : Netinfo5) (out : WindowRates) (r : Quantity → ℚ),
      s.sample (50, oneIface 6) = .ok (s', out) ∧
        out.rates = windowOrder.map (fun q => (q, r q)) ∧
        r .bytesIn = windowAverage false {0} (oneIface 1) [(10, oneIface 2), (20, oneIface 3),
          (30, oneIface 4), (40, oneIface 5), (50, oneIface 6)] 5 10 .bytesIn := by
  obtain ⟨h10, h5⟩ := netinfo10_netinfo5_average_iff [] (oneIface 1) {0} 10
    [(10, oneIface 2), (20, oneIface 3), (30, oneIface 4), (40, oneIface 5)] (50, oneIface 6) 5 rfl
  obtain ⟨s, s', out, r, -, hsample, hrates, hr⟩ :=
    h10 ⟨1, true⟩ 5 (by decide) (by decide) (oneIface_run true)
  obtain ⟨t, t', out', r', -, hsample', hrates', hr'⟩ := h5 (by decide) (oneIface_run false)
  refine ⟨⟨s, s', out, r, hsample, hrates, (hr .bytesIn).mpr ⟨fun e _ => rfl, by decide⟩⟩,
    t, t', out', r', hsample', hrates', (hr' .bytesIn).mpr ?_⟩
  decide +kernel

/-- With a window of one call, `netinfo10` publishes the bytes of the last ten
calls. -/
theorem netinfo10_window_not_average :
    WindowRun true {0} 10 (oneIface 1) [(10, oneIface 2), (20, oneIface 3)] ∧
    (do
      let s ← after (Netinfo10.getdata (Netinfo10.new ⟨1, true⟩ 1 [] (oneIface 1)).1)
        (Netinfo10.new ⟨1, true⟩ 1 [] (oneIface 1)).2 [(10, oneIface 2)]
      let r ← Netinfo10.sample (Netinfo10.new ⟨1, true⟩ 1 [] (oneIface 1)).1 s (20, oneIface 3)
      pure (r.2.rates.lookup .bytesIn) : Except Die (Option ℚ)) = .ok (some (1 / 5)) ∧
    windowAverage true {0} (oneIface 1) [(10, oneIface 2), (20, oneIface 3)] 1 10 .bytesIn =
      1 / 10 :=
  ⟨(oneIface_run true).init.init.init, by decide +kernel, by decide +kernel⟩

end Memrec
