import Memrec.Netinfo

/-!
# `netinfo` is the sum of `netinfo2`

The two modules are copies of one another.  They update the same counters in the
same order, but `netinfo` keeps one `@delta` for the whole file and divides once
at the end, where `netinfo2` empties `@delta` for each line and divides line by
line.

Both go through a run in lockstep.  They keep equal counters, whatever the
readings do, because an increment depends on the counter and not on `@delta`
(`feed_addDelta`); and what `netinfo` has added up is at every line the sum of
what `netinfo2` has had in `@delta` so far (`Summed`).  Division by the elapsed
time goes through the sum (`netinfo_sums_netinfo2`).
-/

namespace Memrec

open Perl CellBank Runs

/-! ## One line -/

/-- A feed into a `@delta` that is not empty adds to it what a feed into an
empty one collects, and does the same to the counters. -/
theorem feed_addDelta {κ : Type} [DecidableEq κ] (ctr : Bank (κ × Nat) (Wrapctr ℚ))
    (delta : Nat → ℚ) (rs : List ((κ × Nat) × ℚ)) :
    Lockstep (fun (r r' : Bank (κ × Nat) (Wrapctr ℚ) × (Nat → ℚ)) =>
        r.1 = r'.1 ∧ ∀ i, r.2 i = delta i + r'.2 i)
      (feed Wrapctr.update Die.undefMethod addDelta (ctr, delta) rs)
      (feed Wrapctr.update Die.undefMethod addDelta (ctr, fun _ => 0) rs) := by
  refine Lockstep.foldlM (R := fun _ (r r' : Bank (κ × Nat) (Wrapctr ℚ) × (Nat → ℚ)) =>
    r.1 = r'.1 ∧ ∀ i, r.2 i = delta i + r'.2 i) (a := (ctr, delta)) (b := (ctr, fun _ => 0))
    ⟨rfl, fun i => (add_zero _).symm⟩ ?_ rs
  rintro pre x ⟨b, a⟩ ⟨b', a'⟩ ⟨rfl, ha⟩
  refine (Lockstep.refl (touch Wrapctr.update Die.undefMethod b x.1 x.2)).bind
    fun r r' hr => .ok ⟨congrArg Prod.snd hr, fun i => ?_⟩
  subst hr
  have hai : a i = delta i + a' i := ha i
  show addDelta a x.1 r.1 i = delta i + addDelta a' x.1 r.1 i
  by_cases hi : i = x.1.2
  · simp only [addDelta, if_pos hi, hai, add_assoc]
  · simp only [addDelta, if_neg hi, hai]

/-- The rates that `netinfo2` stores for one interface. -/
def ratesOf (dt : ℚ) (d : Nat × (Nat → ℚ)) : List ((Quantity × Nat) × ℚ) :=
  Quantity.all.map fun q => ((q, d.1), q.pick d.2 / dt)

/-- The two loops after some lines: the counters are equal, and there is one
`@delta` for each interface such that `netinfo` has their sum and `netinfo2` has
published the rates of each. -/
structure Summed (dt : ℚ) (lines : List Text) (st : Bank (Nat × Nat) (Wrapctr ℚ) × (Nat → ℚ))
    (st' : Bank (Nat × Nat) (Wrapctr ℚ) × List ((Quantity × Nat) × ℚ)) : Prop where
  ctr : st.1 = st'.1
  deltas : ∃ ds : List (Nat × (Nat → ℚ)),
    ds.map Prod.fst = lines.filterMap (fun l => (ethFieldsTrim l).map Prod.fst) ∧
    (∀ i, st.2 i = (ds.map fun d => d.2 i).sum) ∧ st'.2 = ds.flatMap (ratesOf dt)

/-- **One line.** -/
theorem Summed.line {dt : ℚ} (hdt : dt ≠ 0) {lines : List Text} (line : Text)
    {st : Bank (Nat × Nat) (Wrapctr ℚ) × (Nat → ℚ)}
    {st' : Bank (Nat × Nat) (Wrapctr ℚ) × List ((Quantity × Nat) × ℚ)}
    (h : Summed dt lines st st') :
    Lockstep (Summed dt (lines ++ [line]))
      (feed Wrapctr.update Die.undefMethod addDelta st (updateCells line))
      (Netinfo2.scanLine dt st' line) := by
  obtain ⟨ctr, delta⟩ := st
  obtain ⟨ctr', rates⟩ := st'
  obtain ⟨hctr, ds, hdigits, hsum, hrates⟩ := h
  simp only at hctr hsum hrates
  subst hctr hrates
  cases hl : ethFieldsTrim line with
  | none =>
      simp only [updateCells, Netinfo2.scanLine, hl, feed_nil]
      exact .ok ⟨rfl, ds, by simp [hdigits, hl], hsum, rfl⟩
  | some r =>
      obtain ⟨e, fld⟩ := r
      simp only [Netinfo2.scanLine, hl]
      have hfeed := feed_addDelta ctr delta (updateCells line)
      rw [← bind_pure (feed Wrapctr.update Die.undefMethod addDelta (ctr, delta) _)]
      refine hfeed.bind fun x y hxy => ?_
      rw [mapM_rates _ _ hdt]
      refine .ok ⟨hxy.1, ds ++ [(e, y.2)], by simp [hdigits, hl], fun i => ?_, ?_⟩
      · simp [hxy.2 i, hsum]
      · simp [ratesOf]

/-- **One scan.** -/
theorem Summed.scan {dt : ℚ} (hdt : dt ≠ 0) (ctr : Bank (Nat × Nat) (Wrapctr ℚ)) (dev : Text) :
    Lockstep (Summed dt (readlines dev)) (Netinfo.scan ctr dev)
      ((readlines dev).foldlM (Netinfo2.scanLine dt) (ctr, [])) :=
  Lockstep.foldlM (R := Summed dt) (a := (ctr, fun _ => 0)) (b := (ctr, []))
    ⟨rfl, [], rfl, fun _ => rfl, rfl⟩ (fun _ line _ _ hab => hab.line hdt line) (readlines dev)

/-! ## One call -/

/-- The aggregate rates are the sums over the interfaces of the single ones, and
there is a single one for each. -/
def SumOver (digits : List Nat) (rates : List (Quantity × ℚ))
    (each : List ((Quantity × Nat) × ℚ)) : Prop :=
  ∃ rate : Quantity → Nat → ℚ, (∀ q, ∀ e ∈ digits, each.lookup (q, e) = some (rate q e)) ∧
    ∀ q, rates.lookup q = some (digits.map (rate q)).sum

/-- The objects agree on what decides the next call. -/
structure Twin (s : Netinfo) (s' : Netinfo2) : Prop where
  ctr : s.ctr = s'.ctr
  lastTstamp : s.lastTstamp = s'.lastTstamp

theorem Quantity.pick_list_sum {ι : Type} (ds : List ι) (f : ι → Nat → ℚ) (q : Quantity) :
    q.pick (fun i => (ds.map fun d => f d i).sum) = (ds.map fun d => q.pick (f d)).sum := by
  induction ds with
  | nil => cases q <;> simp [pick]
  | cons d ds ih =>
      rw [List.map_cons, List.sum_cons, ← ih]
      cases q <;> simp only [pick, List.map_cons, List.sum_cons] <;> ring

theorem sumOver_of_deltas {dt : ℚ} {ds : List (Nat × (Nat → ℚ))} (hn : (ds.map Prod.fst).Nodup)
    {delta : Nat → ℚ} (hd : ∀ i, delta i = (ds.map fun d => d.2 i).sum) :
    SumOver (ds.map Prod.fst) (Quantity.all.map fun q => (q, q.pick delta / dt))
      (ds.flatMap (ratesOf dt)) := by
  have hkeys : ((ds.flatMap (ratesOf dt)).map Prod.fst).Nodup := by
    rw [List.map_flatMap, List.nodup_flatMap]
    constructor
    · intro d _
      rw [ratesOf, List.map_map]
      exact List.Nodup.map (fun q q' h => (Prod.mk.inj h).1) (by decide)
    · rw [List.Nodup, List.pairwise_map] at hn
      refine hn.imp fun {d d'} hne => ?_
      simp only [Function.onFun, List.disjoint_left, ratesOf, List.map_map, List.mem_map,
        Function.comp_apply]
      rintro _ ⟨q, -, rfl⟩ ⟨q', -, hq⟩
      exact hne (Prod.mk.inj hq).2.symm
  have hdelta : ∀ d ∈ ds, ds.lookup d.1 = some d.2 := fun d hd => lookup_of_nodup hn hd
  refine ⟨fun q e => q.pick ((ds.lookup e).getD fun _ => 0) / dt, ?_, fun q => ?_⟩
  · intro q e he
    obtain ⟨d, hmem, rfl⟩ := List.mem_map.mp he
    simp only [hdelta d hmem, Option.getD_some]
    exact lookup_of_nodup hkeys (p := ((q, d.1), q.pick d.2 / dt))
      (List.mem_flatMap.mpr ⟨d, hmem, List.mem_map.mpr ⟨q, q.mem_all, rfl⟩⟩)
  · have hall : ((Quantity.all.map fun q => (q, q.pick delta / dt)).map Prod.fst).Nodup := by
      rw [List.map_map]
      exact List.Nodup.map (fun q q' h => h) (by decide)
    rw [lookup_of_nodup hall (p := (q, q.pick delta / dt))
      (List.mem_map.mpr ⟨q, q.mem_all, rfl⟩), List.map_map]
    have hsum : q.pick delta / dt = (ds.map fun d => q.pick d.2 / dt).sum := by
      rw [show delta = fun i => (ds.map fun d => d.2 i).sum from funext hd,
        Quantity.pick_list_sum]
      simp only [div_eq_mul_inv]
      exact (List.sum_map_mul_right _ _ _).symm
    rw [hsum]
    refine congrArg (fun l => some (List.sum l)) (List.map_congr_left fun d hmem => ?_)
    simp only [Function.comp_apply, hdelta d hmem, Option.getD_some]

/-- **One call.** -/
theorem Twin.sample {s : Netinfo} {s' : Netinfo2} (h : Twin s s') (call : Int × Text) :
    Lockstep (fun r r' => Twin r.1 r'.1 ∧ (((ifaces call.2).map Prod.fst).Nodup →
        SumOver ((ifaces call.2).map Prod.fst) r.2 r'.2))
      (s.sample call) (s'.sample call) := by
  have hdt := elapsed_ne_zero s'.lastTstamp call.1
  have hloop := Summed.scan hdt s'.ctr call.2
  rw [Netinfo.sample, h.ctr, h.lastTstamp]
  refine hloop.bind fun st st' hst => ?_
  rw [mapM_rates _ _ hdt]
  refine .ok ⟨⟨hst.ctr, rfl⟩, fun hn => ?_⟩
  obtain ⟨ds, hdigits, hsum, hrates⟩ := hst.deltas
  have hifaces : (ifaces call.2).map Prod.fst = ds.map Prod.fst := by
    rw [hdigits, ifaces, List.map_filterMap]
    simp [Function.comp_def]
  rw [hifaces] at hn ⊢
  rw [hrates]
  exact sumOver_of_deltas hn hsum

theorem Twin.getdata {s : Netinfo} {s' : Netinfo2} (h : Twin s s') (call : Int × Text) :
    Lockstep (fun r r' => Twin r.1 r'.1) (s.getdata call) (s'.getdata call) :=
  (h.sample call).bind fun _ _ hr => .ok hr.1

/-! ## Every call of a run -/

/-- The rates that `netinfo` computes at a call, after the calls before it. -/
def netinfoRates (lspci dev₀ : Text) (calls : List (Int × Text)) (call : Int × Text) :
    Except Die (List (Quantity × ℚ)) := do
  let s ← after Netinfo.getdata (Netinfo.new lspci dev₀) calls
  let out ← s.sample call
  pure out.2

/-- The rates that `netinfo2` computes there. -/
def netinfo2Rates (lspci dev₀ : Text) (calls : List (Int × Text)) (call : Int × Text) :
    Except Die (List ((Quantity × Nat) × ℚ)) := do
  let s ← after Netinfo2.getdata (Netinfo2.new lspci dev₀) calls
  let out ← s.sample call
  pure out.2

/-- **`netinfo` is the sum of `netinfo2`.**  Whatever the counters of the earlier
snapshots and of this one, the two modules end the process at the same call, or
both come to the last one; and if its interfaces have different digits, each
aggregate rate is the sum over the interfaces of the single ones.  When every
snapshot lists the same interfaces, neither ends the process. -/
theorem netinfo_sums_netinfo2 (lspci dev₀ : Text) (calls : List (Int × Text))
    (call : Int × Text) (hn : ((ifaces call.2).map Prod.fst).Nodup) :
    Lockstep (SumOver ((ifaces call.2).map Prod.fst)) (netinfoRates lspci dev₀ calls call)
        (netinfo2Rates lspci dev₀ calls call) ∧
      ∀ E : Finset Nat, (∀ dev ∈ dev₀ :: (calls ++ [call]).map Prod.snd, Lists E dev) →
        ∃ rates each, netinfoRates lspci dev₀ calls call = .ok rates ∧
          netinfo2Rates lspci dev₀ calls call = .ok each ∧
          SumOver ((ifaces call.2).map Prod.fst) rates each := by
  have htwin : Twin (Netinfo.new lspci dev₀) (Netinfo2.new lspci dev₀) := ⟨rfl, rfl⟩
  have hrun : Lockstep (SumOver ((ifaces call.2).map Prod.fst))
      (netinfoRates lspci dev₀ calls call) (netinfo2Rates lspci dev₀ calls call) :=
    (Lockstep.after (fun s s' c h => h.getdata c) htwin calls).bind fun s s' h =>
      (h.sample call).bind fun r r' hr => .ok (hr.2 hn)
  refine ⟨hrun, fun E hlists => ?_⟩
  have hcalls : ∀ c ∈ calls ++ [call], Lists E c.2 := fun c hc =>
    hlists c.2 (List.mem_cons_of_mem _ (List.mem_map_of_mem hc))
  obtain ⟨s, hs, hcov, -⟩ := netinfo_covers_after lspci dev₀ (hlists dev₀ List.mem_cons_self)
    fun c hc => hcalls c (List.mem_append_left _ hc)
  obtain ⟨ctr, delta, hscan, -⟩ := Netinfo.scan_lists
    (hcalls call (List.mem_append_right _ (List.mem_singleton.mpr rfl))) hcov
  have hrates : netinfoRates lspci dev₀ calls call = .ok (Quantity.all.map fun q =>
      (q, q.pick delta / elapsed s.lastTstamp call.1)) := by
    rw [netinfoRates, hs, ok_bind, Netinfo.sample_of_scan hscan]
    rfl
  obtain ⟨each, heach, hsum⟩ := hrun.of_ok hrates
  exact ⟨_, each, hrates, heach, hsum⟩

/-- Also when a counter has gone back, as that of `em1` here. -/
theorem netinfo_sums_netinfo2_two :
    ∃ rates each,
      netinfoRates [] (twoIfaces 5 6) [(100, twoIfaces 50 6)] (110, twoIfaces 57 3) = .ok rates ∧
      netinfo2Rates [] (twoIfaces 5 6) [(100, twoIfaces 50 6)] (110, twoIfaces 57 3) = .ok each ∧
      SumOver ((ifaces (twoIfaces 57 3)).map Prod.fst) rates each := by
  refine (netinfo_sums_netinfo2 [] (twoIfaces 5 6) [(100, twoIfaces 50 6)]
    (110, twoIfaces 57 3) (by decide +kernel)).2 {0, 1} ?_
  intro dev h
  simp only [List.cons_append, List.nil_append, List.map_cons, List.map_nil, List.mem_cons,
    List.not_mem_nil, or_false] at h
  rcases h with rfl | rfl | rfl <;>
    exact ⟨by decide +kernel, by decide +kernel, by decide +kernel⟩

end Memrec
