import Memrec.MissingCounters

/-!
# Divisions by zero

A division by zero ends a daemon in the middle of a run.  The seven modules with
counters divide by the time since the last call, by a count, by a configured number or
by what a counter has advanced, and each has its own guard or none.

* `netinfo`, `netinfo2`, `diskstats` and `nfscli` divide by the guarded time only.
* `procstat` divides by what its counters have advanced, and guards that.
* `netinfo10` also divides by `$in2out`.
* `turbostat` has no guard.

`divisors_iff` says for each module when no run of it divides by zero.
-/

namespace Memrec

open Perl Perl.Pat CellBank Runs

/-- No run of calls ends in a division by zero. -/
def NeverDivides {σ ω : Type} (getdata : σ → Int × Text → Except Die (σ × ω)) (s : σ) : Prop :=
  ∀ calls, after getdata s calls ≠ .error .divByZero

theorem neverDivides_of {σ ω : Type} {getdata : σ → Int × Text → Except Die (σ × ω)}
    (h : ∀ s c, getdata s c ≠ .error .divByZero) (s : σ) : NeverDivides getdata s :=
  after_ne_error (P := fun _ => True) trivial fun s c _ => ⟨h s c, fun _ _ => trivial⟩

/-- Calls that fail for want of a counter only. -/
theorem ne_divByZero_of_failsOnly {α : Type} {m : Except Die α} (h : FailsOnly .undefMethod m) :
    m ≠ .error .divByZero := by
  intro hm
  cases h _ hm

theorem div_isOk_iff (x y : ℚ) : (∃ q, div x y = .ok q) ↔ y ≠ 0 := by
  by_cases h : y = 0
  · simp [div, h]
  · simp [div, h]

theorem failsOnly_div (x y : ℚ) : FailsOnly .divByZero (div x y) := by
  by_cases h : y = 0
  · intro e he
    simpa [div, h, eq_comm] using he
  · rw [div_of_ne h]
    exact failsOnly_ok _

/-! ## `procstat` -/

/-- The division of `procstat`, checked: the guard leaves no zero. -/
theorem Procstat.busy_checked (ds : List ℚ) :
    (div (100 * ds.getD 3 0) (if ds.sum = 0 then 1 else ds.sum)).map
      (fun q => int (100 - q)) = .ok (Procstat.busy ds) := by
  have h : (if ds.sum = 0 then (1 : ℚ) else ds.sum) ≠ 0 := by
    split
    · exact one_ne_zero
    · assumption
  rw [div_of_ne h]
  rfl

theorem storeAt_ne_divByZero (data : List (Option ℚ)) (k : Int) (v : ℚ) :
    storeAt data k v ≠ .error .divByZero := by
  unfold storeAt
  split
  · exact ok_ne_error
  · split
    · exact ok_ne_error
    · simp

theorem Procstat.getdata_ne_divByZero (s : Procstat) (c : Int × Text) :
    s.getdata c ≠ .error .divByZero := by
  refine bind_ne_error (foldlM_ne_error (fun st p => ?_) _ _) fun _ => ok_ne_error
  refine bind_ne_error (ne_divByZero_of_failsOnly (failsOnly_feed _ _ _ _ _)) fun r => ?_
  split
  · exact ok_ne_error
  · exact bind_ne_error (storeAt_ne_divByZero _ _ _) fun _ => ok_ne_error

/-! ## `netinfo10` -/

theorem windowScan_ne_divByZero (ignoreInactive : Bool)
    (ctr : Bank (Nat × Quantity) (Wrapctr ℚ)) (past : Past) (dev : Text) :
    windowScan ignoreInactive ctr past dev ≠ .error .divByZero := by
  refine foldlM_ne_error (fun st line => ?_) _ _
  unfold windowLine
  cases liveFields ignoreInactive line with
  | none => exact ok_ne_error
  | some p =>
      exact bind_ne_error (ne_divByZero_of_failsOnly (failsOnly_feed _ _ _ _ _))
        fun _ => ok_ne_error

theorem windowHist_ne_divByZero {pct25 : ℚ} (h : pct25 ≠ 0) (past : Past) (es : List Nat) :
    windowHist pct25 past es ≠ .error .divByZero := by
  have hbump : ∀ (len : Nat) (d : ℚ), histBump pct25 len d ≠ .error .divByZero := by
    intro len d
    rw [histBump, div_of_ne h, ok_bind]
    dsimp only
    split
    · simp
    · exact ok_ne_error
  refine foldlM_ne_error (fun st e => ?_) _ _
  exact bind_ne_error (foldlM_ne_error hbump _ _) fun _ =>
    bind_ne_error (foldlM_ne_error hbump _ _) fun _ => ok_ne_error

theorem windowPublish_ne_divByZero {window dt : ℚ} (hw : window ≠ 0) (hdt : dt ≠ 0)
    (past : Past) (es : List Nat) : windowPublish window dt past es ≠ .error .divByZero := by
  have hdiv : ∀ x : ℚ, div x dt ≠ .error .divByZero := by
    intro x
    rw [div_of_ne hdt]
    exact ok_ne_error
  refine bind_ne_error (hdiv _) fun _ => bind_ne_error (hdiv _) fun _ => ?_
  rw [mapM_rates _ _ (mul_ne_zero hw hdt)]
  exact ok_ne_error

theorem windowPublish_zero {dt : ℚ} (hdt : dt ≠ 0) (past : Past) (es : List Nat) :
    windowPublish (0 : Int) dt past es = .error .divByZero := by
  have hzero : ∀ x : ℚ, div x ((0 : Int) * dt) = .error .divByZero := by
    intro x
    simp [div]
  rw [windowPublish, div_of_ne hdt, ok_bind, div_of_ne hdt, ok_bind, windowOrder, List.mapM_cons,
    hzero]
  rfl

/-- **`netinfo10`.**  No run divides by zero if and only if `$inner2outer` is not zero when
the object is created. -/
theorem Netinfo10.neverDivides_iff (vars : Vars) (n : Int) (lspci dev₀ : Text) :
    NeverDivides (getdata (new vars n lspci dev₀).1) (new vars n lspci dev₀).2 ↔ n ≠ 0 := by
  constructor
  · rintro h rfl
    -- a reading without interfaces reaches the divisions
    refine h [(1, [])] ?_
    have hsample : sample (new vars 0 lspci dev₀).1 (new vars 0 lspci dev₀).2 (1, []) =
        .error .divByZero := by
      have hpublish := windowPublish_zero (elapsed_ne_zero 0 1)
        (newPast (newWindow vars.ignoreInactive dev₀)) []
      simp only [sample, new, windowScan, readlines, List.foldlM_nil, windowHist, pure_bind]
      rw [hpublish]
      rfl
    simp [after, getdata, hsample]
  · intro hn
    refine after_ne_error (P := fun s : Netinfo10 => s.ethSpeed ≠ 0)
      (ethSpeed_pos lspci).ne' ?_
    intro s c hs
    have hdt := elapsed_ne_zero s.lastTstamp c.1
    constructor
    · refine bind_ne_error (bind_ne_error (windowScan_ne_divByZero _ _ _ _) fun st => ?_)
        fun _ => ok_ne_error
      refine bind_ne_error (windowHist_ne_divByZero ?_ _ _) fun _ => ?_
      · have : (s.ethSpeed : ℚ) ≠ 0 := by exact_mod_cast hs
        positivity
      · refine bind_ne_error (windowPublish_ne_divByZero ?_ hdt _ _) fun _ => ok_ne_error
        exact_mod_cast hn
    · intro r hr
      obtain ⟨out, hout, hr⟩ := bind_eq_ok.mp hr
      obtain ⟨st, -, hout⟩ := bind_eq_ok.mp hout
      obtain ⟨_, -, hout⟩ := bind_eq_ok.mp hout
      obtain ⟨_, -, hout⟩ := bind_eq_ok.mp hout
      cases hr
      cases hout
      exact hs

/-! ## `turbostat` -/

theorem nodup_hashStore {h : List (Text × Text)} (hn : (h.map Prod.fst).Nodup) (k v : Text) :
    ((hashStore h k v).map Prod.fst).Nodup := by
  unfold hashStore
  split
  · have hkeys : (h.map fun p => if p.1 = k then (k, v) else p).map Prod.fst = h.map Prod.fst := by
      rw [List.map_map]
      refine List.map_congr_left fun p _ => ?_
      by_cases hp : p.1 = k <;> simp [hp]
    rw [hkeys]
    exact hn
  · rename_i hk
    rw [List.map_append, List.nodup_append]
    refine ⟨hn, by simp, ?_⟩
    intro a ha b hb
    obtain rfl : b = k := by simpa using hb
    exact fun hab => hk (hab ▸ ha)

/-- The hash of `read_msr` has every key once. -/
theorem nodup_readMsr (dump : Text) : ((readMsr dump).map Prod.fst).Nodup := by
  unfold readMsr
  refine List.foldlRecOn (motive := fun h : List (Text × Text) => (h.map Prod.fst).Nodup) _ _
    (by simp) ?_
  intro h hn fld _
  exact List.foldlRecOn (motive := fun h : List (Text × Text) => (h.map Prod.fst).Nodup) _ _ hn
    fun h hn k _ => nodup_hashStore hn _ _

namespace Turbostat

/-- The shares of a processor need three divisors. -/
theorem shares_isOk_iff (look : Text → ℚ) (suffix : Text) (dt : ℚ) :
    (∃ r, shares look suffix dt = .ok r) ↔
      look ("tsc".toList ++ suffix) ≠ 0 ∧ look ("mperf".toList ++ suffix) ≠ 0 ∧ dt ≠ 0 := by
  constructor
  · intro ⟨r, h⟩
    obtain ⟨pct, hpct, h⟩ := bind_eq_ok.mp h
    obtain ⟨cycles, hcycles, h⟩ := bind_eq_ok.mp h
    obtain ⟨ghz, hghz, -⟩ := bind_eq_ok.mp h
    exact ⟨(div_isOk_iff _ _).mp ⟨_, hpct⟩, (div_isOk_iff _ _).mp ⟨_, hcycles⟩,
      (div_isOk_iff _ _).mp ⟨_, hghz⟩⟩
  · intro ⟨htsc, hmperf, hdt⟩
    simp only [shares, div_of_ne htsc, div_of_ne hmperf, div_of_ne hdt, ok_bind]
    exact ⟨_, rfl⟩

theorem failsOnly_shares (look : Text → ℚ) (suffix : Text) (dt : ℚ) :
    FailsOnly .divByZero (shares look suffix dt) :=
  .bind (failsOnly_div _ _) fun _ => .bind (failsOnly_div _ _) fun _ =>
    .bind (failsOnly_div _ _) fun _ => failsOnly_ok _

theorem failsOnly_publish (numCpus : Nat) (dt : ℚ) (delta : List (Text × ℚ)) :
    FailsOnly .divByZero (publish numCpus dt delta) := by
  refine .bind (.mapM (fun _ => .bind (failsOnly_div _ _) fun _ => failsOnly_ok _) _) fun avg => ?_
  refine .bind (failsOnly_shares _ _ _) fun _ => ?_
  exact .bind (.mapM (fun _ => failsOnly_shares _ _ _) _) fun _ => failsOnly_ok _

/-- What the dump says under a name for one processor. -/
def cpuKey (name : Text) (k : Nat) : Text := name ++ ' ' :: decimal k

/-- The average of a counter that has moved on the first processor. -/
theorem averages_ne_zero {numCpus : Nat} {delta : List (Text × ℚ)} {name : Text}
    (hpos : ∀ p ∈ delta, 0 ≤ p.2) (hn : 0 < numCpus)
    (hstrip : stripCpu (cpuKey name 0) = name)
    (hmoved : (delta.lookup (cpuKey name 0)).getD 0 ≠ 0) :
    ∃ avg, averages numCpus delta = .ok avg ∧ (avg.lookup name).getD 0 ≠ 0 := by
  have hn' : (numCpus : ℚ) ≠ 0 := by exact_mod_cast hn.ne'
  refine ⟨_, mapM_rates id _ hn' _, ?_⟩
  cases hlook : delta.lookup (cpuKey name 0) with
  | none => simp [hlook] at hmoved
  | some d =>
      have hd : d ≠ 0 := by simpa [hlook] using hmoved
      obtain ⟨l₁, l₂, hdelta, -⟩ := List.lookup_eq_some_iff.mp hlook
      have hmem : (cpuKey name 0, d) ∈ delta := by simp [hdelta]
      have hkey : name ∈ (delta.map fun p => stripCpu p.1).dedup :=
        List.mem_dedup.mpr (List.mem_map.mpr ⟨_, hmem, hstrip⟩)
      have hpart : d ∈ (delta.filter fun p => stripCpu p.1 == name).map Prod.snd :=
        List.mem_map.mpr ⟨_, List.mem_filter.mpr ⟨hmem, by simp [hstrip]⟩, rfl⟩
      have hle : d ≤ ((delta.filter fun p => stripCpu p.1 == name).map Prod.snd).sum := by
        refine List.single_le_sum ?_ d hpart
        intro x hx
        obtain ⟨p, hp, rfl⟩ := List.mem_map.mp hx
        exact hpos p (List.mem_filter.mp hp).1
      have hdpos : 0 < d := lt_of_le_of_ne (hpos _ hmem) hd.symm
      simp only [id]
      rw [lookup_map_graph, if_pos hkey, Option.getD_some]
      exact div_ne_zero (hdpos.trans_le hle).ne' hn'

/-- **What is published.**  Provided that no counter goes backwards, the divisions of
`getdata` are fine exactly if there is a processor, time has passed, and two counters of
each processor have moved. -/
theorem publish_isOk_iff {numCpus : Nat} {dt : ℚ} {delta : List (Text × ℚ)}
    (hpos : ∀ p ∈ delta, 0 ≤ p.2) :
    (∃ out, publish numCpus dt delta = .ok out) ↔
      0 < numCpus ∧ dt ≠ 0 ∧ ∀ k < numCpus,
        (delta.lookup (cpuKey "tsc".toList k)).getD 0 ≠ 0 ∧
        (delta.lookup (cpuKey "mperf".toList k)).getD 0 ≠ 0 := by
  constructor
  · intro ⟨out, h⟩
    obtain ⟨avg, havg, h⟩ := bind_eq_ok.mp h
    obtain ⟨all, hall, h⟩ := bind_eq_ok.mp h
    obtain ⟨each, heach, -⟩ := bind_eq_ok.mp h
    obtain ⟨htsc, -, hdt⟩ := (shares_isOk_iff _ _ _).mp ⟨_, hall⟩
    refine ⟨?_, hdt, ?_⟩
    · -- without processors there is nothing to average
      by_contra hzero
      obtain rfl : numCpus = 0 := by omega
      have hnone : ∀ kk ∈ (delta.map fun p => stripCpu p.1).dedup, False := by
        intro kk hkk
        obtain ⟨y, hy⟩ := (mapM_isOk_iff _).mp ⟨_, havg⟩ kk hkk
        obtain ⟨r, hr, -⟩ := bind_eq_ok.mp hy
        exact (div_isOk_iff _ _).mp ⟨_, hr⟩ rfl
      have hempty : (delta.map fun p => stripCpu p.1).dedup = [] :=
        List.eq_nil_iff_forall_not_mem.mpr hnone
      rw [averages, hempty] at havg
      cases havg
      exact htsc rfl
    · intro k hk
      rw [range_cast] at heach
      obtain ⟨y, hy⟩ := (mapM_isOk_iff _).mp ⟨_, heach⟩ k
        (List.mem_map_of_mem (List.mem_range.mpr hk))
      obtain ⟨h₁, h₂, -⟩ := (shares_isOk_iff _ _ _).mp ⟨_, hy⟩
      exact ⟨h₁, h₂⟩
  · intro ⟨hn, hdt, hmoved⟩
    obtain ⟨avg, havg, htsc⟩ := averages_ne_zero hpos hn
      (show stripCpu (cpuKey "tsc".toList 0) = "tsc".toList by decide) (hmoved 0 hn).1
    obtain ⟨avg', havg', hmperf⟩ := averages_ne_zero hpos hn
      (show stripCpu (cpuKey "mperf".toList 0) = "mperf".toList by decide) (hmoved 0 hn).2
    obtain rfl : avg = avg' := Except.ok.inj (havg.symm.trans havg')
    obtain ⟨all, hall⟩ := (shares_isOk_iff (fun k => (avg.lookup k).getD 0) [] dt).mpr
      ⟨by simpa using htsc, by simpa using hmperf, hdt⟩
    obtain ⟨each, heach⟩ := (mapM_isOk_iff (f := fun k => shares
      (fun k => (delta.lookup k).getD 0) (' ' :: decimal k) dt)
      ((List.range numCpus).map Nat.cast)).mpr (by
        intro x hx
        obtain ⟨k, hk, rfl⟩ := List.mem_map.mp hx
        obtain ⟨h₁, h₂⟩ := hmoved k (List.mem_range.mp hk)
        exact (shares_isOk_iff _ _ _).mpr ⟨h₁, h₂, hdt⟩)
    rw [publish, havg, ok_bind, hall, ok_bind, range_cast, heach, ok_bind]
    exact ⟨_, rfl⟩

/-- The counter under a key has moved since the last call. -/
def Moved (s : Turbostat) (dump k : Text) : Prop :=
  ∃ v, (readMsr dump).lookup k = some v ∧ (s.ctr k).map Wrapctr.v ≠ some (numify v)

/-- Everything that `getdata` divides by has moved: there is a processor, it is not the
time of the last call, and each processor has `tsc` and `mperf` in the dump, with new
values. -/
structure Advances (s : Turbostat) (c : Int × Text) : Prop where
  cpus : 0 < s.numCpus
  time : c.1 ≠ s.lastTstamp
  moved : ∀ k < s.numCpus,
    s.Moved c.2 (cpuKey "tsc".toList k) ∧ s.Moved c.2 (cpuKey "mperf".toList k)

theorem step_eq_zero_iff (ov nv : ℚ) : Wrapctr.step ov nv = 0 ↔ ov = nv := by
  rcases le_or_gt ov nv with h | h
  · rw [Wrapctr.step_of_le h, sub_eq_zero, eq_comm]
  · rw [Wrapctr.step_of_lt h, ulongMax]
    constructor <;> intro heq <;> linarith

/-- The increments of a call, when every key of the dump has a counter. -/
theorem feed_msr {s : Turbostat} {dump : Text}
    (hkeys : ∀ p ∈ readMsr dump, (s.ctr p.1).isSome) :
    ∃ ctr, feed Wrapctr.update Die.undefMethod (fun ds k d => ds ++ [(k, d)]) (s.ctr, [])
        ((readMsr dump).map fun p => (p.1, numify p.2)) =
      .ok (ctr, (readMsr dump).map fun p =>
        (p.1, Wrapctr.step ((s.ctr p.1).getD ⟨0, none⟩).v (numify p.2))) := by
  have hn : (((readMsr dump).map fun p => (p.1, numify p.2)).map Prod.fst).Nodup := by
    rw [List.map_map]
    exact nodup_readMsr dump
  have hv : ∀ r ∈ (readMsr dump).map fun p => (p.1, numify p.2),
      (s.ctr r.1).map Wrapctr.v = some ((s.ctr r.1).getD ⟨0, none⟩).v := by
    intro r hr
    obtain ⟨p, hp, rfl⟩ := List.mem_map.mp hr
    obtain ⟨c, hc⟩ := Option.isSome_iff_exists.mp (hkeys p hp)
    simp [hc]
  obtain ⟨ctr, hfeed, -⟩ := feed_counters (fun ds k d => ds ++ [(k, d)])
    (fun k => ((s.ctr k).getD ⟨0, none⟩).v) hn hv []
  refine ⟨ctr, ?_⟩
  rw [hfeed, foldl_collect, List.nil_append, List.map_map]
  rfl

/-- An increment that is not zero is that of a counter that has moved. -/
theorem lookup_ne_zero_iff {s : Turbostat} {dump : Text}
    (hkeys : ∀ p ∈ readMsr dump, (s.ctr p.1).isSome) (k : Text) :
    (((readMsr dump).map fun p =>
      (p.1, Wrapctr.step ((s.ctr p.1).getD ⟨0, none⟩).v (numify p.2))).lookup k).getD 0 ≠ 0 ↔
      s.Moved dump k := by
  rw [lookup_map_values fun k v => Wrapctr.step ((s.ctr k).getD ⟨0, none⟩).v (numify v), Moved]
  cases hlook : (readMsr dump).lookup k with
  | none => simp
  | some v =>
      obtain ⟨l₁, l₂, hmsr, -⟩ := List.lookup_eq_some_iff.mp hlook
      obtain ⟨c, hc⟩ := Option.isSome_iff_exists.mp (hkeys (k, v) (by simp [hmsr]))
      simp only at hc
      simp [hc, step_eq_zero_iff]

/-- With all counters there, the divisions are fine exactly if everything has moved. -/
theorem publish_isOk_iff_advances {s : Turbostat} {c : Int × Text}
    (hkeys : ∀ p ∈ readMsr c.2, (s.ctr p.1).isSome) :
    (∃ out, publish s.numCpus ((c.1 - s.lastTstamp : Int) : ℚ) ((readMsr c.2).map fun p =>
      (p.1, Wrapctr.step ((s.ctr p.1).getD ⟨0, none⟩).v (numify p.2))) = .ok out) ↔
      s.Advances c := by
  have hdt : ((c.1 - s.lastTstamp : Int) : ℚ) ≠ 0 ↔ c.1 ≠ s.lastTstamp := by
    rw [Int.cast_ne_zero, sub_ne_zero]
  rw [publish_isOk_iff, hdt]
  · simp only [lookup_ne_zero_iff hkeys]
    exact ⟨fun ⟨h₁, h₂, h₃⟩ => ⟨h₁, h₂, h₃⟩, fun h => ⟨h.cpus, h.time, h.moved⟩⟩
  · intro p hp
    obtain ⟨q, -, rfl⟩ := List.mem_map.mp hp
    exact Wrapctr.step_nonneg _ _

/-- **`turbostat`.**  A call divides by zero exactly if the module is enabled, every
counter is there, and something has not moved. -/
theorem getdata_divByZero_iff (s : Turbostat) (c : Int × Text) :
    s.getdata c = .error .divByZero ↔
      s.tsEnable = true ∧ (∀ p ∈ readMsr c.2, (s.ctr p.1).isSome) ∧ ¬ s.Advances c := by
  unfold getdata
  cases hs : s.tsEnable with
  | false => simp [pure, Except.pure]
  | true =>
      rw [if_pos rfl]
      by_cases hkeys : ∀ p ∈ readMsr c.2, (s.ctr p.1).isSome
      · obtain ⟨ctr, hfeed⟩ := feed_msr hkeys
        rw [hfeed, ok_bind, ← publish_isOk_iff_advances hkeys]
        cases hpub : publish s.numCpus ((c.1 - s.lastTstamp : Int) : ℚ) ((readMsr c.2).map fun p =>
            (p.1, Wrapctr.step ((s.ctr p.1).getD ⟨0, none⟩).v (numify p.2))) with
        | ok out => simp [ok_bind, pure, Except.pure]
        | error e =>
            obtain rfl := failsOnly_publish _ _ _ e hpub
            exact iff_of_true rfl ⟨rfl, hkeys, by simp⟩
      · refine iff_of_false ?_ fun h => hkeys h.2.1
        intro h
        cases hfeed : feed Wrapctr.update Die.undefMethod
            (fun (ds : List (Text × ℚ)) k d => ds ++ [(k, d)]) (s.ctr, [])
            ((readMsr c.2).map fun p => (p.1, numify p.2)) with
        | error e =>
            obtain rfl := failsOnly_feed _ _ _ _ _ e hfeed
            rw [hfeed, error_bind] at h
            cases h
        | ok r =>
            refine hkeys fun p hp => (touches_feed _ _ _ _).needs _ _ _ hfeed p.1 ?_
            rw [mem_keysOf, List.map_map]
            exact List.mem_map_of_mem hp

/-- No run of `turbostat` divides by zero if and only if the module is not enabled: an
empty dump is enough. -/
theorem neverDivides_iff (cpuinfo : Text) (dumpExists : Bool) (dump₀ : Text) :
    NeverDivides getdata (new cpuinfo dumpExists dump₀) ↔
      (new cpuinfo dumpExists dump₀).tsEnable = false := by
  constructor
  · intro h
    by_contra hs
    rw [Bool.not_eq_false] at hs
    have hdiv : (new cpuinfo dumpExists dump₀).getdata (1, []) = .error .divByZero := by
      refine (getdata_divByZero_iff _ _).mpr ⟨hs, ?_, ?_⟩
      · intro p hp
        simp [readMsr, dumpLines, readlines] at hp
      · intro hadv
        obtain ⟨⟨v, hv, -⟩, -⟩ := hadv.moved 0 hadv.cpus
        simp [readMsr, dumpLines, readlines] at hv
    refine h [(1, [])] ?_
    simp [after, hdiv]
  · intro hs
    refine after_ne_error (P := fun s : Turbostat => s.tsEnable = false) hs ?_
    intro s c hs
    refine ⟨?_, fun r hr => (getdata_cases hr).1.trans hs⟩
    intro h
    have := ((getdata_divByZero_iff s c).mp h).1
    rw [hs] at this
    cases this

end Turbostat

/-! ## The seven modules -/

/-- **Divisors.**  No run of `netinfo`, `netinfo2`, `diskstats`, `nfscli` and `procstat`
divides by zero.  No run of `netinfo10` does if and only if `$inner2outer` is not zero
when the object is created, and no run of `turbostat` does if and only if it is not
enabled.  When it is enabled, a call divides by zero exactly if all of its counters are
there and the clock, the processors or one of their counters stand still. -/
theorem divisors_iff (lspci dev₀ disks₀ swaps stat₀ nfs₀ cpuinfo dump₀ : Text)
    (vars : Netinfo10.Vars) (n : Int) (dumpExists : Bool) :
    NeverDivides Netinfo.getdata (Netinfo.new lspci dev₀) ∧
    NeverDivides Netinfo2.getdata (Netinfo2.new lspci dev₀) ∧
    NeverDivides Diskstats.getdata (Diskstats.new disks₀ swaps) ∧
    NeverDivides Nfscli.getdata (Nfscli.new nfs₀) ∧
    NeverDivides Procstat.getdata (Procstat.new stat₀) ∧
    (∀ ds, (div (100 * ds.getD 3 0) (if ds.sum = 0 then 1 else ds.sum)).map
      (fun q => int (100 - q)) = .ok (Procstat.busy ds)) ∧
    (NeverDivides (Netinfo10.getdata (Netinfo10.new vars n lspci dev₀).1)
      (Netinfo10.new vars n lspci dev₀).2 ↔ n ≠ 0) ∧
    (NeverDivides Turbostat.getdata (Turbostat.new cpuinfo dumpExists dump₀) ↔
      (Turbostat.new cpuinfo dumpExists dump₀).tsEnable = false) ∧
    ∀ calls t c, after Turbostat.getdata (Turbostat.new cpuinfo dumpExists dump₀) calls = .ok t →
      (t.getdata c = .error .divByZero ↔
        t.tsEnable = true ∧ (∀ p ∈ readMsr c.2, (t.ctr p.1).isSome) ∧ ¬ t.Advances c) := by
  refine ⟨?_, ?_, ?_, ?_, ?_, Procstat.busy_checked, ?_, ?_, ?_⟩
  · exact neverDivides_of (fun s c => ne_divByZero_of_failsOnly (Netinfo.failsOnly s c)) _
  · exact neverDivides_of (fun s c => ne_divByZero_of_failsOnly (Netinfo2.failsOnly s c)) _
  · exact neverDivides_of (fun s c => ne_divByZero_of_failsOnly (Diskstats.failsOnly s c)) _
  · exact neverDivides_of (fun s c => ne_divByZero_of_failsOnly (Nfscli.failsOnly s c)) _
  · exact neverDivides_of Procstat.getdata_ne_divByZero _
  · exact Netinfo10.neverDivides_iff vars n lspci dev₀
  · exact Turbostat.neverDivides_iff cpuinfo dumpExists dump₀
  · intro calls t c _
    exact Turbostat.getdata_divByZero_iff t c

/-- `netinfo10` under `memrec`, where `$inner2outer` is zero, and `turbostat` when two
calls fall into one second. -/
theorem divisor_zero :
    (after (Netinfo10.getdata (Netinfo10.new ⟨0, false⟩ 0 [] []).1)
      (Netinfo10.new ⟨0, false⟩ 0 [] []).2 [(100, [])]).map (fun _ => ()) =
        .error .divByZero ∧
    (after Turbostat.getdata (Turbostat.new
        "processor : 0\ncpu family : 6\nmodel : 42\n".toList true
        "head\n0 x x 100 100 100\n".toList)
      [(10, "head\n0 x x 300 200 200\n".toList),
        (10, "head\n0 x x 500 300 300\n".toList)]).map (fun _ => ()) =
        .error .divByZero := by
  decide +kernel

end Memrec
