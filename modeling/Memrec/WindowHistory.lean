import Memrec.Extrema
import Memrec.MissingCounters

/-!
# The arrays of `netinfo10` call by call

Six arrays hang on every interface digit, each next to a counter of its own.
Whatever the other interfaces do, and also if a digit stands on several lines of
a snapshot, an array is the window of the increments that its own counter has
returned (`Arrays.step`).  The steps:

* `feed_history`: in one loop over a snapshot a counter takes the readings of its
  key, in order, and its array is pushed by what they return.
* `Arrays.after`: the same along every run that completes, by induction on the
  calls.
* `windowMax_spec`: no increment of a counter is negative, so the largest entry
  is found from the start value `0`.
-/

namespace Memrec

open Perl CellBank Runs Window

/-- The readings of one key, in order. -/
def readingsAt (k : Nat × Quantity) (rs : List ((Nat × Quantity) × ℚ)) : List ℚ :=
  (rs.filter fun r => r.1 = k).map Prod.snd

theorem readingsAt_cons_self (r : (Nat × Quantity) × ℚ) (rs : List ((Nat × Quantity) × ℚ)) :
    readingsAt r.1 (r :: rs) = r.2 :: readingsAt r.1 rs := by
  simp [readingsAt]

theorem readingsAt_cons_of_ne {k : Nat × Quantity} {r : (Nat × Quantity) × ℚ} (h : r.1 ≠ k)
    (rs : List ((Nat × Quantity) × ℚ)) : readingsAt k (r :: rs) = readingsAt k rs := by
  simp [readingsAt, h]

/-- **One loop.**  A counter takes the readings of its key and its array is
pushed by what they return. -/
theorem feed_history {b : Bank (Nat × Quantity) (Wrapctr ℚ)} {past : Past}
    {rs : List ((Nat × Quantity) × ℚ)} {r : Bank (Nat × Quantity) (Wrapctr ℚ) × Past}
    (h : feed Wrapctr.update Die.undefMethod pushPast (b, past) rs = .ok r)
    {k : Nat × Quantity} {c : Wrapctr ℚ} (hc : b k = some c) :
    r.1 k = some (c.afterUpdates (readingsAt k rs)) ∧
      r.2 k = (c.updates (readingsAt k rs)).foldl push (past k) := by
  induction rs generalizing b past c with
  | nil =>
      cases h
      exact ⟨hc, rfl⟩
  | cons s rs ih =>
      cases hs : b s.1 with
      | none => simp [feed_cons_none _ _ _ hs] at h
      | some c' =>
          rw [feed_cons_some _ _ _ hs] at h
          by_cases hk : s.1 = k
          · subst hk
            obtain rfl : c = c' := Option.some.inj (hc.symm.trans hs)
            obtain ⟨hctr, hpast⟩ := ih h (put_self _ _ _)
            rw [readingsAt_cons_self]
            refine ⟨hctr, hpast.trans ?_⟩
            rw [pushPast, if_pos rfl]
            rfl
          · have hkeep := put_of_ne b (c'.update s.2).2 (Ne.symm hk)
            obtain ⟨hctr, hpast⟩ := ih h (hkeep.trans hc)
            rw [readingsAt_cons_of_ne hk]
            refine ⟨hctr, hpast.trans ?_⟩
            rw [pushPast, if_neg (Ne.symm hk)]

/-- The readings that a snapshot gives to the counter of a key. -/
def given (ig : Bool) (dev : Text) (k : Nat × Quantity) : List ℚ :=
  readingsAt k ((liveIfaces ig dev).flatMap fun p => windowReadings p.1 p.2)

/-- What the counter that `new` has created returns over the snapshots. -/
def returned (ig : Bool) (dev₀ : Text) (devs : List Text) (k : Nat × Quantity) : List ℚ :=
  ((newWindow ig dev₀ k).map fun c => c.updates (devs.flatMap fun d => given ig d k)).getD []

/-- The last ten of ten zeros and the increments. -/
def lastTen (ds : List ℚ) : List ℚ := (List.replicate 10 0 ++ ds).rtake 10

@[simp] theorem length_lastTen (ds : List ℚ) : (lastTen ds).length = 10 := by
  have hlen : 10 + ds.length - (10 + ds.length - 10) = 10 := by omega
  rw [lastTen, List.rtake, List.length_drop, List.length_append, List.length_replicate, hlen]

theorem foldl_push_lastTen (ds es : List ℚ) :
    es.foldl push (lastTen ds) = lastTen (ds ++ es) := by
  rw [lastTen, foldl_push_rtake (by decide) (by simp), List.append_assoc]
  rfl

theorem mem_lastTen {ds : List ℚ} {d : ℚ} (h : d ∈ lastTen ds) : d = 0 ∨ d ∈ ds := by
  rcases List.mem_append.mp (mem_of_mem_rtake h) with h | h
  · exact Or.inl (List.eq_of_mem_replicate h)
  · exact Or.inr h

/-- A loop over `/proc/net/dev` is one feed. -/
theorem windowScan_eq_feed (ig : Bool) (ctr : Bank (Nat × Quantity) (Wrapctr ℚ)) (past : Past)
    (dev : Text) :
    windowScan ig ctr past dev =
      (feed Wrapctr.update Die.undefMethod pushPast (ctr, past)
        ((liveIfaces ig dev).flatMap fun p => windowReadings p.1 p.2)).map fun r =>
          ⟨r.1, r.2, ((liveIfaces ig dev).map Prod.fst).foldl (fun l e => l.insert e) []⟩ :=
  foldlM_windowLine ig (readlines dev) ⟨ctr, past, []⟩

theorem mem_ethList {ig : Bool} {ctr : Bank (Nat × Quantity) (Wrapctr ℚ)} {past : Past}
    {dev : Text} {st : WindowScan} (h : windowScan ig ctr past dev = .ok st) {e : Nat} :
    e ∈ st.ethList ↔ ∃ p ∈ liveIfaces ig dev, p.1 = e := by
  rw [windowScan_eq_feed] at h
  obtain ⟨r, -, rfl⟩ := map_eq_ok.mp h
  simp only [mem_foldl_insert, List.not_mem_nil, or_false, List.mem_map]

/-- **The invariant.**  After the snapshots every counter of `new` holds the
last reading, and its array is the window of what it has returned. -/
structure Arrays (ig : Bool) (dev₀ : Text) (devs : List Text)
    (ctr : Bank (Nat × Quantity) (Wrapctr ℚ)) (past : Past) : Prop where
  held : ∀ k c, newWindow ig dev₀ k = some c →
    ctr k = some (c.afterUpdates (devs.flatMap fun d => given ig d k))
  window : ∀ k c, newWindow ig dev₀ k = some c →
    past k = lastTen (c.updates (devs.flatMap fun d => given ig d k))

namespace Arrays

variable {ig : Bool} {dev₀ : Text} {devs : List Text}
  {ctr : Bank (Nat × Quantity) (Wrapctr ℚ)} {past : Past}

theorem new (ig : Bool) (dev₀ : Text) :
    Arrays ig dev₀ [] (newWindow ig dev₀) (newPast (newWindow ig dev₀)) where
  held _ _ h := h
  window k c h := by
    rw [newPast, h]
    rfl

/-- One snapshot. -/
theorem step (h : Arrays ig dev₀ devs ctr past) {dev : Text} {st : WindowScan}
    (hst : windowScan ig ctr past dev = .ok st) :
    Arrays ig dev₀ (devs ++ [dev]) st.ctr st.past := by
  rw [windowScan_eq_feed] at hst
  obtain ⟨r, hr, rfl⟩ := map_eq_ok.mp hst
  constructor
  · intro k c hc
    obtain ⟨hctr, -⟩ := feed_history hr (h.held k c hc)
    refine hctr.trans ?_
    rw [List.flatMap_append, List.flatMap_singleton, Wrapctr.afterUpdates, Wrapctr.afterUpdates,
      Wrapctr.afterUpdates, List.foldl_append]
    rfl
  · intro k c hc
    obtain ⟨-, hpast⟩ := feed_history hr (h.held k c hc)
    refine hpast.trans ?_
    rw [h.window k c hc, foldl_push_lastTen, List.flatMap_append, List.flatMap_singleton,
      Wrapctr.updates_append]
    rfl

/-- The loop over a snapshot that `new` knows completes. -/
theorem completes (h : Arrays ig dev₀ devs ctr past) {dev : Text}
    (hdev : Netinfo10.Known ig dev₀ dev) : ∃ st, windowScan ig ctr past dev = .ok st := by
  have hcells : ∀ k ∈ keysOf ((liveIfaces ig dev).flatMap fun p => windowReadings p.1 p.2),
      (ctr k).isSome := by
    intro k hk
    have hnew := (newWindow_known_iff ig dev₀ dev).mpr hdev k hk
    obtain ⟨c, hc⟩ := Option.isSome_iff_exists.mp hnew
    rw [h.held k c hc]
    rfl
  have hsafe := (touches_feed Wrapctr.update Die.undefMethod pushPast _).safe ctr past hcells
  rw [windowScan_eq_feed]
  cases hfeed : feed Wrapctr.update Die.undefMethod pushPast (ctr, past)
      ((liveIfaces ig dev).flatMap fun p => windowReadings p.1 p.2) with
  | error d =>
      rw [failsOnly_feed _ _ _ _ _ d hfeed] at hfeed
      exact absurd hfeed hsafe
  | ok r => exact ⟨_, rfl⟩

/-- No entry of an array is negative, because no increment is. -/
theorem nonneg (h : Arrays ig dev₀ devs ctr past) {k : Nat × Quantity}
    (hk : (newWindow ig dev₀ k).isSome) : ∀ d ∈ past k, 0 ≤ d := by
  obtain ⟨c, hc⟩ := Option.isSome_iff_exists.mp hk
  intro d hd
  rw [h.window k c hc] at hd
  rcases mem_lastTen hd with rfl | hd
  · exact le_refl 0
  · exact Wrapctr.nonneg_of_mem_updates hd

theorem past_eq (h : Arrays ig dev₀ devs ctr past) {k : Nat × Quantity}
    (hk : (newWindow ig dev₀ k).isSome) : past k = lastTen (returned ig dev₀ devs k) := by
  obtain ⟨c, hc⟩ := Option.isSome_iff_exists.mp hk
  rw [h.window k c hc, returned, hc]
  rfl

end Arrays

namespace Netinfo10

variable {vars : Vars}

/-- What a call that completes has kept of its loop. -/
theorem sample_scan {self : Netinfo10} {call : Int × Text} {r : Netinfo10 × WindowRates}
    (h : sample vars self call = .ok r) :
    ∃ st, windowScan vars.ignoreInactive self.ctr self.past call.2 = .ok st ∧
      r.1.ctr = st.ctr ∧ r.1.past = st.past ∧
      r.2.max1mIn = windowMax st.past st.ethList .bytesIn / elapsed self.lastTstamp call.1 := by
  obtain ⟨st, hst, hrest⟩ := bind_eq_ok.mp h
  obtain ⟨_, -, hrest⟩ := bind_eq_ok.mp hrest
  obtain ⟨out, hout, hrest⟩ := bind_eq_ok.mp hrest
  cases hrest
  obtain ⟨maxIn, hmax, hout⟩ := bind_eq_ok.mp hout
  obtain ⟨_, -, hout⟩ := bind_eq_ok.mp hout
  obtain ⟨_, -, hout⟩ := bind_eq_ok.mp hout
  cases hout
  refine ⟨st, hst, rfl, rfl, ?_⟩
  unfold div at hmax
  split at hmax
  · cases hmax
  · exact (Except.ok.inj hmax).symm

/-- The invariant along a run. -/
theorem arrays_after {inner2outer : Int} {lspci dev₀ : Text} {calls : List (Int × Text)}
    {self : Netinfo10}
    (h : after (getdata (new vars inner2outer lspci dev₀).1)
      (new vars inner2outer lspci dev₀).2 calls = .ok self) :
    Arrays vars.ignoreInactive dev₀ (calls.map Prod.snd) self.ctr self.past := by
  induction calls using List.reverseRecOn generalizing self with
  | nil =>
      cases h
      exact Arrays.new _ _
  | append_singleton calls call ih =>
      obtain ⟨m, r, hm, hr, rfl⟩ := after_snoc_ok h
      obtain ⟨out, hout, hr⟩ := bind_eq_ok.mp hr
      cases hr
      obtain ⟨st, hst, hctr, hpast, -⟩ := sample_scan hout
      rw [List.map_append, List.map_singleton]
      show Arrays _ _ _ out.1.ctr out.1.past
      rw [hctr, hpast]
      exact (ih hm).step hst

end Netinfo10

/-! ## An interface that every snapshot shows once -/

theorem readingsAt_append (k : Nat × Quantity) (rs qs : List ((Nat × Quantity) × ℚ)) :
    readingsAt k (rs ++ qs) = readingsAt k rs ++ readingsAt k qs := by
  simp [readingsAt]

/-- A line gives each quantity of its digit one reading. -/
theorem readingsAt_windowReadings (e e' : Nat) (fld : List Text) (q : Quantity) :
    readingsAt (e, q) (windowReadings e' fld) =
      if e' = e then [q.pick (fieldNum fld)] else [] := by
  by_cases he : e' = e
  · subst he
    cases q <;> simp [readingsAt, windowReadings, Quantity.all]
  · simp [readingsAt, windowReadings, he]

theorem given_eq (ig : Bool) (dev : Text) (e : Nat) (q : Quantity) :
    given ig dev (e, q) =
      ((liveIfaces ig dev).filter fun p => p.1 = e).map fun p => q.pick (fieldNum p.2) := by
  unfold given
  induction liveIfaces ig dev with
  | nil => rfl
  | cons p ps ih =>
      rw [List.flatMap_cons, readingsAt_append, readingsAt_windowReadings, ih]
      by_cases he : p.1 = e <;> simp [he]

/-- A digit that stands on one line has that line's reading. -/
theorem given_of_count {ig : Bool} {dev : Text} {e : Nat}
    (h : ((liveIfaces ig dev).map Prod.fst).count e = 1) (q : Quantity) :
    given ig dev (e, q) = [reading ig dev e q] := by
  rw [given_eq, reading]
  generalize liveIfaces ig dev = ps at h ⊢
  induction ps with
  | nil => simp at h
  | cons p ps ih =>
      obtain ⟨e', fld⟩ := p
      by_cases he : e' = e
      · subst he
        have hrest : ps.filter (fun p => p.1 = e') = [] := by
          simp only [List.map_cons, List.count_cons_self, Nat.add_eq_right, List.count_eq_zero,
            List.mem_map, not_exists, not_and] at h
          simpa [List.filter_eq_nil_iff] using fun a b hab hb => h (a, b) hab hb
        simp [hrest]
      · have hcount : (ps.map Prod.fst).count e = 1 := by simpa [he] using h
        have hlookup : ((e', fld) :: ps).lookup e = ps.lookup e := by
          have hne : (e == e') = false := by simpa using Ne.symm he
          rw [List.lookup_cons, hne]
        rw [hlookup, ← ih hcount]
        simp [he]

/-- The largest entry of the arrays shown. -/
theorem isGreatest_windowMax {past : Past} {es : List Nat} {q : Quantity}
    (hnonneg : ∀ e ∈ es, ∀ d ∈ past (e, q), 0 ≤ d)
    (hsome : ∃ e ∈ es, past (e, q) ≠ []) :
    IsGreatest {d | ∃ e ∈ es, d ∈ past (e, q)} (windowMax past es q) := by
  have hset : {d | ∃ e ∈ es, d ∈ past (e, q)} = {d | d ∈ es.flatMap fun e => past (e, q)} := by
    ext d
    simp
  rw [hset]
  refine (Extrema.isGreatest_greatest_iff 0 _).mpr ?_
  obtain ⟨e, he, hne⟩ := hsome
  obtain ⟨d, hd⟩ := List.exists_mem_of_ne_nil _ hne
  exact ⟨d, List.mem_flatMap.mpr ⟨e, he, hd⟩, hnonneg e he d hd⟩

/-- The window of an interface that every snapshot shows once. -/
theorem Arrays.past_of_count {ig : Bool} {dev₀ : Text} {calls : List (Int × Text)}
    {ctr : Bank (Nat × Quantity) (Wrapctr ℚ)} {past : Past}
    (h : Arrays ig dev₀ (calls.map Prod.snd) ctr past) {e : Nat}
    (hone : ∀ x ∈ calls, ((liveIfaces ig x.2).map Prod.fst).count e = 1)
    {q : Quantity} {c : Wrapctr ℚ} (hc : newWindow ig dev₀ (e, q) = some c) :
    past (e, q) = lastTen (c.updates (calls.map fun x => reading ig x.2 e q)) := by
  have hgiven : ((calls.map Prod.snd).flatMap fun d => given ig d (e, q)) =
      calls.map fun x => reading ig x.2 e q := by
    rw [List.flatMap_map, List.map_eq_flatMap]
    exact List.flatMap_congr fun x hx => given_of_count (hone x hx) q
  rw [h.window _ c hc, hgiven]

/-- The largest entry of the arrays of the interfaces that a snapshot shows. -/
theorem Arrays.isGreatest_shown {ig : Bool} {dev₀ dev : Text} {devs : List Text}
    {ctr : Bank (Nat × Quantity) (Wrapctr ℚ)} {past : Past} {st : WindowScan}
    (h : Arrays ig dev₀ devs st.ctr st.past) (hst : windowScan ig ctr past dev = .ok st)
    (hknown : Netinfo10.Known ig dev₀ dev) {e : Nat} (he : ∃ p ∈ liveIfaces ig dev, p.1 = e)
    (q : Quantity) :
    IsGreatest {d | ∃ p ∈ liveIfaces ig dev, d ∈ lastTen (returned ig dev₀ devs (p.1, q))}
      (windowMax st.past st.ethList q) := by
  have hcells : ∀ p ∈ liveIfaces ig dev, (newWindow ig dev₀ (p.1, q)).isSome :=
    fun p hp => (isSome_newWindow _ _ _).mpr (hknown p hp)
  have hset : {d | ∃ p ∈ liveIfaces ig dev, d ∈ lastTen (returned ig dev₀ devs (p.1, q))} =
      {d | ∃ e ∈ st.ethList, d ∈ st.past (e, q)} := by
    ext d
    constructor
    · rintro ⟨p, hp, hd⟩
      rw [← h.past_eq (hcells p hp)] at hd
      exact ⟨p.1, (mem_ethList hst).mpr ⟨p, hp, rfl⟩, hd⟩
    · rintro ⟨e', he', hd⟩
      obtain ⟨p, hp, rfl⟩ := (mem_ethList hst).mp he'
      rw [h.past_eq (hcells p hp)] at hd
      exact ⟨p, hp, hd⟩
  rw [hset]
  apply isGreatest_windowMax
  · intro e' he'
    obtain ⟨p, hp, rfl⟩ := (mem_ethList hst).mp he'
    exact h.nonneg (hcells p hp)
  · obtain ⟨p, hp, rfl⟩ := he
    refine ⟨p.1, (mem_ethList hst).mpr ⟨p, hp, rfl⟩, ?_⟩
    rw [h.past_eq (hcells p hp)]
    exact List.ne_nil_of_length_eq_add_one (length_lastTen _)

/-- **The sliding window of `netinfo10`.**  For an interface of `new` that every
snapshot shows on one line, next to any other interfaces of `new`, each of the
six arrays shows the last ten of ten zeros and the increments of its counter,
after every call and within the next one; and what the next call publishes as
the largest amount, before it is divided, is the greatest increment of received
bytes in the arrays of all the interfaces that its snapshot shows. -/
theorem Netinfo10.window_history (vars : Vars) (inner2outer : Int) (lspci dev₀ : Text)
    (calls : List (Int × Text)) (call : Int × Text) (e : Nat)
    (hnew : ∃ p ∈ liveIfaces vars.ignoreInactive dev₀, p.1 = e)
    (hone : ∀ x ∈ calls ++ [call],
      ((liveIfaces vars.ignoreInactive x.2).map Prod.fst).count e = 1)
    (hothers : ∀ x ∈ calls ++ [call], Known vars.ignoreInactive dev₀ x.2)
    (self : Netinfo10)
    (hrun : after (getdata (new vars inner2outer lspci dev₀).1)
      (new vars inner2outer lspci dev₀).2 calls = .ok self) :
    ∃ st, windowScan vars.ignoreInactive self.ctr self.past call.2 = .ok st ∧
      (∀ q, ∃ c, newWindow vars.ignoreInactive dev₀ (e, q) = some c ∧
        (self.past (e, q)).length = 10 ∧ (st.past (e, q)).length = 10 ∧
        self.past (e, q) = lastTen
          (c.updates (calls.map fun x => reading vars.ignoreInactive x.2 e q)) ∧
        st.past (e, q) = lastTen
          (c.updates ((calls ++ [call]).map fun x => reading vars.ignoreInactive x.2 e q))) ∧
      IsGreatest {d | ∃ p ∈ liveIfaces vars.ignoreInactive call.2, d ∈ lastTen (returned
          vars.ignoreInactive dev₀ ((calls ++ [call]).map Prod.snd) (p.1, .bytesIn))}
        (windowMax st.past st.ethList .bytesIn) ∧
      ∀ r, sample (new vars inner2outer lspci dev₀).1 self call = .ok r →
        r.2.max1mIn = windowMax st.past st.ethList .bytesIn / elapsed self.lastTstamp call.1 := by
  have hinv := arrays_after hrun
  have hcall : call ∈ calls ++ [call] := List.mem_append_right _ (List.mem_singleton_self _)
  obtain ⟨st, hst⟩ := hinv.completes (hothers call hcall)
  have hnext : Arrays vars.ignoreInactive dev₀ ((calls ++ [call]).map Prod.snd) st.ctr st.past := by
    rw [List.map_append, List.map_singleton]
    exact hinv.step hst
  refine ⟨st, hst, ?_, ?_, ?_⟩
  · intro q
    obtain ⟨c, hc⟩ := Option.isSome_iff_exists.mp ((isSome_newWindow _ dev₀ (e, q)).mpr hnew)
    have hself := hinv.past_of_count (fun x hx => hone x (List.mem_append_left _ hx)) hc
    have hst := hnext.past_of_count hone hc
    refine ⟨c, hc, ?_, ?_, hself, hst⟩
    · rw [hself, length_lastTen]
    · rw [hst, length_lastTen]
  · have hmem : e ∈ (liveIfaces vars.ignoreInactive call.2).map Prod.fst := by
      rw [← List.count_pos_iff, hone call hcall]
      exact Nat.one_pos
    exact hnext.isGreatest_shown hst (hothers call hcall) (List.mem_map.mp hmem) .bytesIn
  · intro r hr
    obtain ⟨st', hst', -, -, hmax⟩ := sample_scan hr
    obtain rfl : st = st' := Except.ok.inj (hst.symm.trans hst')
    exact hmax

/-- A snapshot of two interfaces that only receive bytes. -/
def eth0AndEth1 (bytes₀ bytes₁ : Nat) : Text :=
  oneIface bytes₀ ++ "  eth1:".toList ++ decimal bytes₁ ++
    " 0 0 0 0 0 0 0 0 0 0 0 0 0 0 0\n".toList

/-- One call has completed, the next one is under way. -/
theorem Netinfo10.window_history_eth0_eth1 :
    ∃ (self : Netinfo10) (st : WindowScan),
      after (getdata (new ⟨10, false⟩ 10 [] (eth0AndEth1 1 1)).1)
        (new ⟨10, false⟩ 10 [] (eth0AndEth1 1 1)).2 [(10, eth0AndEth1 3 1)] = .ok self ∧
      windowScan false self.ctr self.past (eth0AndEth1 4 9) = .ok st ∧
      self.past (0, .bytesIn) = [0, 0, 0, 0, 0, 0, 0, 0, 0, 2] ∧
      st.past (0, .bytesIn) = [0, 0, 0, 0, 0, 0, 0, 0, 2, 1] ∧
      windowMax st.past st.ethList .bytesIn = 8 := by
  have hdone : (after (getdata (new ⟨10, false⟩ 10 [] (eth0AndEth1 1 1)).1)
      (new ⟨10, false⟩ 10 [] (eth0AndEth1 1 1)).2 [(10, eth0AndEth1 3 1)]).isOk := by decide +kernel
  have hctr : newWindow false (eth0AndEth1 1 1) (0, .bytesIn) = some (Wrapctr.new 1) := by
    decide +kernel
  cases hrun : after (getdata (new ⟨10, false⟩ 10 [] (eth0AndEth1 1 1)).1)
      (new ⟨10, false⟩ 10 [] (eth0AndEth1 1 1)).2 [(10, eth0AndEth1 3 1)] with
  | error d =>
      rw [hrun] at hdone
      cases hdone
  | ok self =>
      have hcalls : ∀ x ∈ [(10, eth0AndEth1 3 1)] ++ [((20 : Int), eth0AndEth1 4 9)],
          ((liveIfaces false x.2).map Prod.fst).count 0 = 1 ∧
            ∀ p ∈ liveIfaces false x.2, ∃ p₀ ∈ liveIfaces false (eth0AndEth1 1 1), p₀.1 = p.1 := by
        decide +kernel
      obtain ⟨st, hst, hpast, hmax, -⟩ := window_history ⟨10, false⟩ 10 [] (eth0AndEth1 1 1)
        [(10, eth0AndEth1 3 1)] (20, eth0AndEth1 4 9) 0 (by decide +kernel)
        (fun x hx => (hcalls x hx).1) (fun x hx => (hcalls x hx).2) self hrun
      obtain ⟨c, hc, -, -, hself, hnext⟩ := hpast .bytesIn
      obtain rfl : Wrapctr.new 1 = c := Option.some.inj (hctr.symm.trans hc)
      refine ⟨self, st, rfl, hst, hself.trans (by decide +kernel),
        hnext.trans (by decide +kernel), ?_⟩
      have hfound : ∃ p ∈ liveIfaces false (eth0AndEth1 4 9), 8 ∈ lastTen (returned false
          (eth0AndEth1 1 1) [eth0AndEth1 3 1, eth0AndEth1 4 9] (p.1, .bytesIn)) := by
        decide +kernel
      have hbound : ∀ p ∈ liveIfaces false (eth0AndEth1 4 9), ∀ d ∈ lastTen (returned false
          (eth0AndEth1 1 1) [eth0AndEth1 3 1, eth0AndEth1 4 9] (p.1, .bytesIn)), d ≤ 8 := by
        decide +kernel
      exact hmax.unique ⟨hfound, fun d ⟨p, hp, hd⟩ => hbound p hp d hd⟩

end Memrec
