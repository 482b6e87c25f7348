import Memrec.SwitchPorts
import Memrec.Window

/-!
# The largest step of `snmpswitch4`

`snmpswitch4` keeps the last four polls in a register that is shifted at every call, and
counts its calls from one to four.  At every fourth call it publishes, next to the rates
over four steps, the largest of the four rates over one step.

There are two ingredients.

1.  The register is a window on the history of polls, the first one repeated in front
    of it (`stages_polled`).
2.  Over readings that do not fall, the increments of four neighbouring steps add up to
    the one over all of them (`advance_steps`).

With them the largest step is never published below the average (`highRes_spec`).
-/

namespace Memrec

open Perl Pat Hash Window

/-! ## Steps that do not fall -/

/-- What the counters of a quantity add up to in a poll. -/
def PortRate.reading (q : PortRate) (raw : Hash Text Scalar) (i : Nat) : Int :=
  (q.columns.map fun c => counterAt raw c i).sum

/-- No counter of a port has fallen from one poll to another. -/
def Grown (i : Nat) (old raw : Hash Text Scalar) : Prop :=
  ∀ c, counterAt old c i ≤ counterAt raw c i

theorem Grown.trans {i : Nat} {a b c : Hash Text Scalar} (h : Grown i a b) (h' : Grown i b c) :
    Grown i a c :=
  fun col => (h col).trans (h' col)

/-- Without a wrap a quantity advances by the difference of its readings. -/
theorem Grown.advance_eq {i : Nat} {old raw : Hash Text Scalar} (h : Grown i old raw)
    (q : PortRate) : q.advance raw old i = q.reading raw i - q.reading old i := by
  have hstep : ∀ cs : List Column, (cs.map fun c => increment raw old c i).sum =
      (cs.map fun c => counterAt raw c i).sum - (cs.map fun c => counterAt old c i).sum := by
    intro cs
    induction cs with
    | nil => rfl
    | cons c cs ih =>
        have hc : increment raw old c i = counterAt raw c i - counterAt old c i :=
          delta_of_le (h c)
        simp only [List.map_cons, List.sum_cons, ih, hc]
        ring
  exact hstep q.columns

namespace Snmpswitch4

variable {self : Snmpswitch4} {raw : Hash Text Scalar}

/-- The increments of the four steps that end in a poll. -/
def steps (self : Snmpswitch4) (raw : Hash Text Scalar) (q : PortRate) (i : Nat) : List Int :=
  [q.advance raw self.c1 i, q.advance self.c1 self.c2 i, q.advance self.c2 self.c3 i,
    q.advance self.c3 self.c4 i]

/-- **Four steps.**  Their increments add up to the one over all of them. -/
theorem advance_steps {i : Nat} (h₁ : Grown i self.c1 raw) (h₂ : Grown i self.c2 self.c1)
    (h₃ : Grown i self.c3 self.c2) (h₄ : Grown i self.c4 self.c3) (q : PortRate) :
    (self.steps raw q i).sum = q.advance raw self.c4 i := by
  have hall : Grown i self.c4 raw := ((h₄.trans h₃).trans h₂).trans h₁
  simp only [steps, List.sum_cons, List.sum_nil, h₁.advance_eq, h₂.advance_eq, h₃.advance_eq,
    h₄.advance_eq, hall.advance_eq]
  ring

theorem sum_le_max4 (a b c d : Int) : a + b + c + d ≤ 4 * max4 a b c d := by
  simp only [max4]
  grind

/-- The largest rate over one step is not below the rate over four. -/
theorem rate_le_maxRate {i : Nat} {q : PortRate} {tstamp : Int} (hclock : self.lastTstamp < tstamp)
    (hmod : self.qmod = 4) (hsum : (self.steps raw q i).sum = q.advance raw self.c4 i) :
    self.rate raw tstamp q i ≤ self.maxRate raw tstamp q i := by
  have hmax := sum_le_max4 (q.advance raw self.c1 i) (q.advance self.c1 self.c2 i)
    (q.advance self.c2 self.c3 i) (q.advance self.c3 self.c4 i)
  simp only [steps, List.sum_cons, List.sum_nil] at hsum
  have hle : q.advance raw self.c4 i ≤ 4 * max4 (q.advance raw self.c1 i)
      (q.advance self.c1 self.c2 i) (q.advance self.c2 self.c3 i)
      (q.advance self.c3 self.c4 i) := by
    rw [← hsum]
    omega
  have hdt : 0 < elapsed self.lastTstamp tstamp := by
    rw [elapsed_of_lt hclock]
    exact_mod_cast sub_pos.mpr hclock
  rw [rate, maxRate, hmod]
  refine round00_mono ?_
  rw [div_le_div_iff₀ (by positivity) hdt]
  have hcast : (q.advance raw self.c4 i : ℚ) ≤ 4 * (max4 (q.advance raw self.c1 i)
      (q.advance self.c1 self.c2 i) (q.advance self.c2 self.c3 i)
      (q.advance self.c3 self.c4 i) : Int) := by
    exact_mod_cast hle
  calc (q.advance raw self.c4 i : ℚ) * elapsed self.lastTstamp tstamp
      ≤ 4 * (max4 (q.advance raw self.c1 i) (q.advance self.c1 self.c2 i)
          (q.advance self.c2 self.c3 i) (q.advance self.c3 self.c4 i) : Int) *
          elapsed self.lastTstamp tstamp := by
        gcongr
    _ = _ := by
        push_cast
        ring

/-! ## Runs -/

/-- A call of `getdata`: the order of the rows, what the switch answers, and the time. -/
structure Call where
  rows : Walk Text Scalar
  session : Session
  tstamp : Int

/-- What a call polls. -/
def Call.poll (call : Call) (nports : Nat) : Hash Text Scalar :=
  getSnmpData call.rows call.session nports

/-- A call of the object: the object afterwards, and what is stored. -/
def turn (self : Snmpswitch4) (call : Call) : Snmpswitch4 × List (Text × Scalar) :=
  self.getdata call.rows call.session call.tstamp

/-- The object after some calls. -/
def polled (self : Snmpswitch4) (calls : List Call) : Snmpswitch4 :=
  calls.foldl (fun self call => (self.turn call).1) self

/-- The register, oldest poll first. -/
def stages (self : Snmpswitch4) : List (Hash Text Scalar) := [self.c4, self.c3, self.c2, self.c1]

/-- The polls of a run, the one of `new` first. -/
def history (first : Hash Text Scalar) (nports : Nat) (calls : List Call) :
    List (Hash Text Scalar) :=
  first :: calls.map fun call => call.poll nports

/-- The last four polls, the first one repeated where there are fewer. -/
def lastFour (hist : List (Hash Text Scalar)) : List (Hash Text Scalar) :=
  (List.replicate 3 (hist.headD ∅) ++ hist).rtake 4

theorem polled_snoc (self : Snmpswitch4) (calls : List Call) (call : Call) :
    self.polled (calls ++ [call]) = ((self.polled calls).turn call).1 := by
  simp [polled]

/-- A call shifts the register. -/
theorem stages_turn (self : Snmpswitch4) (call : Call) :
    (self.turn call).1.stages = push self.stages (call.poll self.numPorts) := rfl

theorem qctr_turn (self : Snmpswitch4) (call : Call) :
    (self.turn call).1.qctr = if self.qctr = self.qmod then 1 else self.qctr + 1 := rfl

/-- What an object is after a run: the ports, the register, the count of the calls and the
clock. -/
structure Ran (first : Hash Text Scalar) (nports : Nat) (calls : List Call)
    (sw : Snmpswitch4) : Prop where
  numPorts : sw.numPorts = nports
  stages : sw.stages = lastFour (history first nports calls)
  qmod : sw.qmod = 4
  qctr : sw.qctr = calls.length % 4 + 1
  lastTstamp : sw.lastTstamp = (calls.map Call.tstamp).getLastD 0

theorem ran_new (rows : Walk Text Scalar) (counter : Nat) (remIp : Text) (s : Session) :
    Ran (new rows counter remIp s).1.c1 (portCount s) [] (new rows counter remIp s).1 :=
  ⟨rfl, rfl, rfl, rfl, rfl⟩

/-- **One call.**  It shifts the register, counts on and keeps the rest. -/
theorem Ran.turn {first : Hash Text Scalar} {nports : Nat} {calls : List Call}
    {self : Snmpswitch4} (h : Ran first nports calls self) (call : Call) :
    Ran first nports (calls ++ [call]) (self.turn call).1 where
  numPorts := h.numPorts
  stages := by
    have hlen : 4 ≤ (List.replicate 3 first ++ history first nports calls).length := by
      simp only [List.length_append, List.length_replicate, history, List.length_cons]
      omega
    rw [stages_turn, h.stages, h.numPorts]
    change push ((List.replicate 3 first ++ history first nports calls).rtake 4) _ = _
    rw [push_rtake (by decide) hlen]
    simp [lastFour, history]
  qmod := h.qmod
  qctr := by
    rw [qctr_turn, h.qctr, h.qmod, List.length_append, List.length_singleton]
    by_cases hfull : calls.length % 4 + 1 = 4
    · rw [if_pos hfull]
      omega
    · rw [if_neg hfull]
      omega
  lastTstamp := by
    rw [List.map_append, List.map_singleton, List.getLastD_concat]
    rfl

theorem ran_polled (rows : Walk Text Scalar) (counter : Nat) (remIp : Text) (s : Session)
    (calls : List Call) : Ran (new rows counter remIp s).1.c1 (portCount s) calls
      ((new rows counter remIp s).1.polled calls) := by
  induction calls using List.reverseRecOn with
  | nil => exact ran_new rows counter remIp s
  | append_singleton calls call ih =>
      rw [polled_snoc]
      exact ih.turn call

/-! ## What is published -/

/-- `"max_in_octs_s${c}_p$i"` and its siblings. -/
def maxKey (q : PortRate) (c i : Nat) : Text := "max_".toList ++ portKey q c i

theorem maxKey_inj {q q' : PortRate} {c i i' : Nat} (h : maxKey q c i = maxKey q' c i') :
    q = q' ∧ i = i' :=
  portKey_inj (List.append_cancel_left h)

/-- The maxima are stored when the count of the calls is full. -/
theorem mem_getdata_max {self : Snmpswitch4} {call : Call} {q : PortRate} {i : Nat} {x : Scalar} :
    (maxKey q self.switchCtr i, x) ∈ (self.turn call).2 ↔
      self.qctr = self.qmod ∧ i < self.numPorts ∧
        x = .num (self.maxRate (call.poll self.numPorts) call.tstamp q i) := by
  have hhead : (maxKey q self.switchCtr i).head? = some 'm' := rfl
  have hrate : (maxKey q self.switchCtr i, x) ∉ (List.range self.numPorts).flatMap fun j =>
      PortRate.all.map fun p => (portKey p self.switchCtr j,
        Scalar.num (self.rate (call.poll self.numPorts) call.tstamp p j)) :=
    notMem_perPort _ _ _ fun p j => portKey_ne_max p q _ _ j i
  have hswitch : (maxKey q self.switchCtr i, x) ∉
      [("switch_ip_s".toList ++ decimal self.switchCtr, Scalar.text self.switchIp),
        ("num_ports_s".toList ++ decimal self.switchCtr, .num self.numPorts)] := by
    intro hmem
    rcases List.mem_pair.mp hmem with heq | heq
    all_goals
      rw [(Prod.mk.inj heq).1] at hhead
      cases hhead
  have hmax : (maxKey q self.switchCtr i, x) ∈ (List.range self.numPorts).flatMap (fun j =>
      PortRate.all.map fun p => (maxKey p self.switchCtr j,
        Scalar.num (self.maxRate (call.poll self.numPorts) call.tstamp p j))) ↔
      i < self.numPorts ∧
        x = .num (self.maxRate (call.poll self.numPorts) call.tstamp q i) := by
    rw [mem_perPort _ _ _ fun _ _ _ _ => maxKey_inj, List.mem_range]
  have hout : (self.turn call).2 =
      ((List.range self.numPorts).flatMap fun j => PortRate.all.map fun p =>
        (portKey p self.switchCtr j,
          Scalar.num (self.rate (call.poll self.numPorts) call.tstamp p j))) ++
      (if self.qctr = self.qmod then
        (List.range self.numPorts).flatMap fun j => PortRate.all.map fun p =>
          (maxKey p self.switchCtr j,
            Scalar.num (self.maxRate (call.poll self.numPorts) call.tstamp p j))
      else []) ++
      [("switch_ip_s".toList ++ decimal self.switchCtr, Scalar.text self.switchIp),
        ("num_ports_s".toList ++ decimal self.switchCtr, .num self.numPorts)] := rfl
  rw [hout, List.mem_append, or_iff_left hswitch, List.mem_append, or_iff_right hrate]
  by_cases hq : self.qctr = self.qmod
  · rw [if_pos hq, and_iff_right hq]
    exact hmax
  · rw [if_neg hq, iff_false_left List.not_mem_nil]
    exact fun h => hq h.1

/-- What should hold of a call that ends a run, `sw` being the object before it. -/
structure HighRes (first : Hash Text Scalar) (nports : Nat) (calls : List Call) (call : Call)
    (sw : Snmpswitch4) : Prop where
  /-- The register holds the last four polls. -/
  register : (sw.turn call).1.stages = lastFour (history first nports (calls ++ [call]))
  count : 1 ≤ (sw.turn call).1.qctr ∧ (sw.turn call).1.qctr ≤ 4
  /-- Every fourth call publishes maxima. -/
  published : ∀ q i, (∃ x, (maxKey q sw.switchCtr i, x) ∈ (sw.turn call).2) ↔
    4 ∣ (calls ++ [call]).length ∧ i < nports
  sum : ∀ q, ∀ i < nports,
    (sw.steps (call.poll nports) q i).sum = q.advance (call.poll nports) sw.c4 i
  /-- In the data hash the maximum is not below the average. -/
  le : 4 ∣ (calls ++ [call]).length → ∀ (dref : Hash Text Scalar) (q : PortRate), ∀ i < nports,
    (storeAll dref (sw.turn call).2).lookup (portKey q sw.switchCtr i) =
        some (.num (sw.rate (call.poll nports) call.tstamp q i)) ∧
      (storeAll dref (sw.turn call).2).lookup (maxKey q sw.switchCtr i) =
        some (.num (sw.maxRate (call.poll nports) call.tstamp q i)) ∧
      sw.rate (call.poll nports) call.tstamp q i ≤
        sw.maxRate (call.poll nports) call.tstamp q i

variable {first : Hash Text Scalar} {nports : Nat} {calls : List Call} {call : Call}

/-- Readings that never fall between neighbouring polls of a run do not fall along its
register either. -/
theorem Ran.grown (h : Ran first nports calls self) {i : Nat}
    (hgrow : ∀ c, ((history first nports (calls ++ [call])).map
      fun raw => counterAt raw c i).IsChain (· ≤ ·)) :
    Grown i self.c1 (call.poll nports) ∧ Grown i self.c2 self.c1 ∧ Grown i self.c3 self.c2 ∧
      Grown i self.c4 self.c3 := by
  have hsuffix : self.stages ++ [call.poll nports] <:+
      List.replicate 3 first ++ history first nports (calls ++ [call]) := by
    obtain ⟨t, ht⟩ := List.drop_suffix
      ((List.replicate 3 first ++ history first nports calls).length - 4)
      (List.replicate 3 first ++ history first nports calls)
    refine ⟨t, ?_⟩
    rw [h.stages, ← List.append_assoc]
    refine (congrArg (· ++ [call.poll nports]) ht).trans ?_
    simp [history]
  have hchain : ∀ c, counterAt self.c4 c i ≤ counterAt self.c3 c i ∧
      counterAt self.c3 c i ≤ counterAt self.c2 c i ∧
      counterAt self.c2 c i ≤ counterAt self.c1 c i ∧
      counterAt self.c1 c i ≤ counterAt (call.poll nports) c i := by
    intro c
    have hpadded : ((List.replicate 3 first ++ history first nports (calls ++ [call])).map
        fun raw => counterAt raw c i).IsChain (· ≤ ·) :=
      .cons_cons le_rfl (.cons_cons le_rfl (.cons_cons le_rfl (hgrow c)))
    have hlast := hpadded.suffix (hsuffix.map fun raw => counterAt raw c i)
    simpa only [Snmpswitch4.stages, List.map_cons, List.map_nil, List.cons_append,
      List.nil_append, List.isChain_cons_cons, List.isChain_singleton, and_true] using hlast
  exact ⟨fun c => (hchain c).2.2.2, fun c => (hchain c).2.2.1, fun c => (hchain c).2.1,
    fun c => (hchain c).1⟩

/-- The clock stands before the next call. -/
theorem Ran.clock (h : Ran first nports calls self)
    (hclock : (0 :: (calls ++ [call]).map Call.tstamp).IsChain (· < ·)) :
    self.lastTstamp < call.tstamp := by
  rw [h.lastTstamp]
  rw [List.map_append, ← List.cons_append, List.isChain_append] at hclock
  refine hclock.2.2 _ ?_ _ rfl
  rw [List.getLastD_eq_getLast?, List.getLast?_cons]
  rfl

theorem Ran.highRes (h : Ran first nports calls self)
    (hclock : (0 :: (calls ++ [call]).map Call.tstamp).IsChain (· < ·))
    (hgrow : ∀ i < nports, ∀ c, ((history first nports (calls ++ [call])).map
      fun raw => counterAt raw c i).IsChain (· ≤ ·)) :
    HighRes first nports calls call self := by
  have hnext := h.turn call
  have hfull : self.qctr = self.qmod ↔ 4 ∣ (calls ++ [call]).length := by
    rw [h.qctr, h.qmod, List.length_append, List.length_singleton]
    omega
  have hsum : ∀ q, ∀ i < nports,
      (self.steps (call.poll nports) q i).sum = q.advance (call.poll nports) self.c4 i := by
    intro q i hi
    obtain ⟨h₁, h₂, h₃, h₄⟩ := h.grown (hgrow i hi)
    exact advance_steps h₁ h₂ h₃ h₄ q
  have hports := h.numPorts
  subst hports
  refine ⟨hnext.stages, ?_, ?_, hsum, ?_⟩
  · rw [hnext.qctr]
    omega
  · intro q i
    rw [← hfull]
    constructor
    · rintro ⟨x, hx⟩
      obtain ⟨hq, hi, -⟩ := mem_getdata_max.mp hx
      exact ⟨hq, hi⟩
    · rintro ⟨hq, hi⟩
      exact ⟨_, mem_getdata_max.mpr ⟨hq, hi, rfl⟩⟩
  · intro hk dref q i hi
    refine ⟨lookup_storeAll_of_mem (mem_getdata.mpr ⟨hi, rfl⟩) ?_ dref,
      lookup_storeAll_of_mem (mem_getdata_max.mpr ⟨hfull.mpr hk, hi, rfl⟩) ?_ dref,
      rate_le_maxRate (h.clock hclock) h.qmod (hsum q i hi)⟩
    · intro x hx
      exact (mem_getdata.mp hx).2
    · intro x hx
      exact (mem_getdata_max.mp hx).2.2

/-- **The largest step.**  In every run with a rising clock and readings that do not
fall, the register holds the last four polls after each call, the count stays between one
and four, every fourth call and no other publishes maxima, the four increments that enter
them add up to the one of the average, and no maximum is published below it. -/
theorem highRes_spec (rows : Walk Text Scalar) (counter : Nat) (remIp : Text) (s : Session)
    (calls : List Call) (call : Call)
    (hclock : (0 :: (calls ++ [call]).map Call.tstamp).IsChain (· < ·))
    (hgrow : ∀ i < portCount s, ∀ c, ((history (new rows counter remIp s).1.c1 (portCount s)
      (calls ++ [call])).map fun raw => counterAt raw c i).IsChain (· ≤ ·)) :
    HighRes (new rows counter remIp s).1.c1 (portCount s) calls call
      ((new rows counter remIp s).1.polled calls) :=
  (ran_polled rows counter remIp s calls).highRes hclock hgrow

/-- A table with two interfaces, all of whose counters are `n`. -/
def twoInterfaces (n : Nat) : IfTable where
  indices := {1, 2}
  pos := by decide
  counter _ _ := n
  descr _ := "EtherNet Port on unit 1, port:".toList

/-- The object of `new` on this table, and the call that polls it at a minute. -/
def twoPorts : Snmpswitch4 := (new .kept 0 "192.168.1.5".toList (twoInterfaces 7).session).1

def minuteCall (minute : Int) (n : Nat) : Call := ⟨.kept, (twoInterfaces n).session, 60 * minute⟩

theorem counterAt_twoInterfaces (n nports : Nat) (c : Column) (i : Nat) :
    counterAt (getSnmpData .kept (twoInterfaces n).session nports) c i =
      if i ∈ ({1, 2} : Finset Nat) then (n : Int) else 0 := by
  have hsub : (twoInterfaces n).SubIds := by
    have hports : ∀ i ∈ ({1, 2} : Finset Nat), i < 2 ^ 32 := by
      decide
    exact hports
  exact (pollOf_getSnmpData (twoInterfaces n).answers hsub .kept nports).counterAt_eq c i

theorem highRes_spec_fourth :
    HighRes twoPorts.c1 (portCount (twoInterfaces 7).session)
      [minuteCall 1 9, minuteCall 2 9, minuteCall 3 12] (minuteCall 4 20)
      (twoPorts.polled [minuteCall 1 9, minuteCall 2 9, minuteCall 3 12]) := by
  refine highRes_spec .kept 0 "192.168.1.5".toList (twoInterfaces 7).session _ _ (by decide) ?_
  intro i _ c
  have hread : ∀ n, counterAt (getSnmpData .kept (twoInterfaces n).session
      (portCount (twoInterfaces 7).session)) c i =
        if i ∈ ({1, 2} : Finset Nat) then (n : Int) else 0 :=
    fun n => counterAt_twoInterfaces n _ c i
  have hreadings : (history twoPorts.c1 (portCount (twoInterfaces 7).session)
      ([minuteCall 1 9, minuteCall 2 9, minuteCall 3 12] ++ [minuteCall 4 20])).map
        (fun raw => counterAt raw c i) =
      [7, 9, 9, 12, 20].map fun n : Nat => if i ∈ ({1, 2} : Finset Nat) then (n : Int) else 0 := by
    rw [← List.map_congr_left fun n _ => hread n]
    rfl
  refine (congrArg (List.IsChain (· ≤ ·)) hreadings).mpr ?_
  by_cases hi : i ∈ ({1, 2} : Finset Nat)
  · simp only [if_pos hi]
    decide
  · simp only [if_neg hi]
    decide

end Snmpswitch4

end Memrec
