import Mathlib.Order.Interval.Finset.Nat
import Memrec.SnmpSwitch

/-!
# The ports of a switch

A switch numbers its interfaces as it likes.  The recorded one has 27 of them, and they
are called 1 to 25, 31 and 1001.  `snmpswitch` learns the indices from the column of
descriptions and publishes the rates of these.  `snmpswitch4` learns how many there are
and counts from zero.

* `Snmpswitch.portsReported`: the first publishes every port and nothing else;
* `Snmpswitch4.portsReported_iff`: the second does so only for a switch without ports;
* `Snmpswitch4.mem_getdata_iff`: what it publishes instead.
-/

namespace Memrec

open Perl Pat Hash

/-! ## Keys -/

theorem portKey_inj {q q' : PortRate} {ctr i i' : Nat}
    (h : portKey q ctr i = portKey q' ctr i') : q = q' ∧ i = i' := by
  obtain ⟨hname, hi⟩ := append_decimal_inj (by decide) h
  refine ⟨?_, hi⟩
  have hinj : ∀ q ∈ PortRate.all, ∀ q' ∈ PortRate.all, q.name = q'.name → q = q' := by
    decide +kernel
  exact hinj q q.mem_all q' q'.mem_all (List.append_cancel_right hname)

theorem head?_portKey (q : PortRate) (ctr i : Nat) :
    (portKey q ctr i).head? = some 'i' ∨ (portKey q ctr i).head? = some 'o' := by
  cases q with
  | inOcts => exact .inl rfl
  | inPkts => exact .inl rfl
  | inErrs => exact .inl rfl
  | outOcts => exact .inr rfl
  | outPkts => exact .inr rfl
  | outErrs => exact .inr rfl

section PerPort

variable {key : PortRate → Nat → Text} (ports : List Nat) (f : PortRate → Nat → ℚ) (x : Scalar)

/-- The loops over the ports, of which nothing but the ports is asked here. -/
theorem mem_perPort (hkey : ∀ q q' i i', key q i = key q' i' → q = q' ∧ i = i') (q : PortRate)
    (i : Nat) : (key q i, x) ∈ (ports.flatMap fun j =>
      PortRate.all.map fun p => (key p j, Scalar.num (f p j))) ↔
      i ∈ ports ∧ x = .num (f q i) := by
  rw [List.mem_flatMap]
  constructor
  · rintro ⟨j, hj, hmem⟩
    obtain ⟨p, -, heq⟩ := List.mem_map.mp hmem
    obtain ⟨hname, rfl⟩ := Prod.mk.inj heq
    obtain ⟨rfl, rfl⟩ := hkey _ _ _ _ hname
    exact ⟨hj, rfl⟩
  · rintro ⟨hi, rfl⟩
    exact ⟨i, hi, List.mem_map.mpr ⟨q, q.mem_all, rfl⟩⟩

theorem notMem_perPort {k : Text} (hkey : ∀ q i, key q i ≠ k) : (k, x) ∉ ports.flatMap fun j =>
    PortRate.all.map fun p => (key p j, Scalar.num (f p j)) := by
  intro hmem
  obtain ⟨j, -, hmem⟩ := List.mem_flatMap.mp hmem
  obtain ⟨p, -, heq⟩ := List.mem_map.mp hmem
  exact hkey p j (Prod.mk.inj heq).1

end PerPort

/-- A maximum has no key of a port. -/
theorem portKey_ne_max (q q' : PortRate) (ctr ctr' i i' : Nat) :
    portKey q ctr i ≠ "max_".toList ++ portKey q' ctr' i' := by
  intro heq
  have hhead := head?_portKey q ctr i
  rw [heq] at hhead
  rcases hhead with h | h <;> cases h

/-- What is stored about the whole switch is not about a port. -/
theorem portKey_notMem_switch {q : PortRate} {ctr ctr' i : Nat} {x ip n : Scalar} :
    (portKey q ctr i, x) ∉ [("switch_ip_s".toList ++ decimal ctr', ip),
      ("num_ports_s".toList ++ decimal ctr', n)] := by
  intro hmem
  have hhead := head?_portKey q ctr i
  rcases List.mem_pair.mp hmem with heq | heq
  · rw [(Prod.mk.inj heq).1] at hhead
    rcases hhead with h | h <;> cases h
  · rw [(Prod.mk.inj heq).1] at hhead
    rcases hhead with h | h <;> cases h

/-! ## What should be published -/

/-- How far a port has advanced from one table to another. -/
def IfTable.advance (old new : IfTable) (q : PortRate) (i : Nat) : Int :=
  (q.columns.map fun c => delta (new.counter c i) (old.counter c i)).sum

/-- If an index is a port its six rates are published, and otherwise nothing. -/
def PortReported (out : List (Text × Scalar)) (ctr : Nat) (I : Finset Nat)
    (rate : PortRate → Nat → ℚ) (i : Nat) : Prop :=
  ∀ q x, (portKey q ctr i, x) ∈ out ↔ i ∈ I ∧ x = .num (rate q i)

/-- The ports of the switch are what is published. -/
def PortsReported (out : List (Text × Scalar)) (ctr : Nat) (I : Finset Nat)
    (rate : PortRate → Nat → ℚ) : Prop :=
  ∀ i, PortReported out ctr I rate i

/-- A poll of a switch that has these ports: the session answers from a table of them. -/
structure Poll (I : Finset Nat) where
  session : Session
  table : IfTable
  answers : Answers session table
  indices : table.indices = I

variable {T T' : IfTable} {I : Finset Nat}

theorem PollOf.advance {raw raw' : Hash Text Scalar} (h : PollOf raw T) (h' : PollOf raw' T')
    (q : PortRate) {i : Nat} (hi : i ∈ T.indices) (hi' : i ∈ T'.indices) :
    q.advance raw' raw i = T.advance T' q i := by
  simp only [PortRate.advance, IfTable.advance, increment_of_pollOf h h' _ hi hi']

/-- An index that the switch does not have advances by nothing. -/
theorem PollOf.advance_eq_zero {raw raw' : Hash Text Scalar} (h : PollOf raw T)
    (h' : PollOf raw' T') (q : PortRate) {i : Nat} (hi : i ∉ T.indices) (hi' : i ∉ T'.indices) :
    q.advance raw' raw i = 0 := by
  have hzero : ∀ c, increment raw' raw c i = 0 := by
    intro c
    rw [increment, h.counterAt_eq, h'.counterAt_eq, if_neg hi, if_neg hi']
    rfl
  simp only [PortRate.advance, hzero, List.map_const', List.sum_replicate, nsmul_zero]

/-! ## `snmpswitch` -/

namespace Snmpswitch

/-- The objects of a run on a switch, each with the table of the last poll. -/
inductive Reached (I : Finset Nat) : Snmpswitch → IfTable → Prop
  | opened (walks : SwitchWalks) (counter : Nat) (remIp : Text) (p : Poll I) :
      Reached I (new walks counter remIp p.session).1 p.table
  | polled {self : Snmpswitch} {T : IfTable} (h : Reached I self T) (walks : SwitchWalks)
      (ports : Walk Nat Scalar) (p : Poll I) (tstamp : Int) :
      Reached I (self.getdata walks ports p.session tstamp).1 p.table

/-- The numbers of the rows of a column are the indices. -/
theorem mem_ports {rows : Hash Text Scalar} {oid : Text} {cell : Nat → Scalar}
    (h : ColumnRows rows T oid cell) (hoid : ∀ c ∈ oid, notNl c) (walk : Walk Text Scalar)
    {i : Nat} : i ∈ (walk.list rows).map (Prod.fst ∘ fun r => (port r.1, r.2)) ↔
      i ∈ T.indices := by
  rw [List.mem_map]
  constructor
  · rintro ⟨⟨k, v⟩, hrow, rfl⟩
    obtain ⟨j, hj, rfl, -⟩ := (h k v).mp (walk.mem_iff.mp hrow)
    rw [Function.comp_apply, port_cellOid hoid]
    exact hj
  · intro hi
    exact ⟨_, walk.mem_iff.mpr ((h _ _).mpr ⟨i, hi, rfl, rfl⟩), port_cellOid hoid i⟩

/-- The object holds the last poll, and its ports are those of the switch. -/
theorem Reached.spec {self : Snmpswitch} (h : Reached I self T) :
    PollOf self.rawdata T ∧ T.indices = I ∧ ∀ i, i ∈ self.portlist ↔ i ∈ I := by
  induction h with
  | opened walks counter remIp p =>
      obtain ⟨rows, hrows, hcolumn⟩ := p.answers.ifDescr (portCount p.session)
      have hnew : (new walks counter remIp p.session).1.portlist =
          storeAll ∅ ((walks.rows.list rows).map fun r => (port r.1, r.2)) := by
        simp only [new, hrows]
      refine ⟨pollOf_getSnmpData p.answers walks _, p.indices, ?_⟩
      intro i
      rw [hnew, mem_storeAll, List.map_map, ← p.indices,
        ← mem_ports hcolumn (List.all_eq_true.mp (by decide)) walks.rows]
      exact or_iff_left (AList.notMem_empty i)
  | polled _ walks _ p _ ih =>
      exact ⟨pollOf_getSnmpData p.answers walks _, p.indices, ih.2.2⟩

theorem Reached.rate_eq {self : Snmpswitch} (h : Reached I self T) (walks : SwitchWalks)
    (p : Poll I) (tstamp : Int) (q : PortRate) {i : Nat} (hi : i ∈ I) :
    self.rate (getSnmpData walks p.session self.numPorts) tstamp q i =
      round00 (T.advance p.table q i / elapsed self.lastTstamp tstamp) := by
  obtain ⟨hraw, hT, -⟩ := h.spec
  rw [rate, hraw.advance (pollOf_getSnmpData p.answers walks _) q (by rw [hT]; exact hi)
    (by rw [p.indices]; exact hi)]

/-- **Ports by name.**  Every port of the switch is published with what has been read of
it, and nothing else is. -/
theorem portsReported {self : Snmpswitch} (h : Reached I self T) (p : Poll I)
    (walks : SwitchWalks) (ports : Walk Nat Scalar) (tstamp : Int) :
    PortsReported (self.getdata walks ports p.session tstamp).2 self.switchCtr I
      fun q i => round00 (T.advance p.table q i / elapsed self.lastTstamp tstamp) := by
  intro i q x
  have hports : ∀ i, i ∈ (ports.list self.portlist).map Prod.fst ↔ i ∈ I := by
    intro i
    rw [((ports.perm self.portlist).map Prod.fst).mem_iff, keys_pairs, ← AList.mem_keys,
      h.spec.2.2]
  have hloop := mem_perPort ((ports.list self.portlist).map Prod.fst)
    (self.rate (getSnmpData walks p.session self.numPorts) tstamp) x
    (fun q q' i i' => @portKey_inj q q' self.switchCtr i i') q i
  rw [List.flatMap_map, hports] at hloop
  rw [getdata, List.mem_append, or_iff_left portKey_notMem_switch, hloop]
  refine and_congr_right ?_
  intro hi
  rw [h.rate_eq walks p tstamp q hi]

/-- `snmpswitchCSV` publishes the same rates in a line, the ports in ascending order. -/
theorem mem_getdataCSV (shown : ℚ → Text) {self : Snmpswitch} (h : Reached I self T) (p : Poll I)
    (walks : SwitchWalks) (tstamp : Int) (q : PortRate) :
    ("switch".toList ++ decimal self.switchCtr ++ '_' :: q.name,
      Scalar.text (I.sort.flatMap fun i =>
        shown (round00 (T.advance p.table q i / elapsed self.lastTstamp tstamp)) ++ [','])) ∈
      (SnmpswitchCSV.getdata shown self walks p.session tstamp).2 := by
  have hsort : self.portlist.keys.mergeSort (· ≤ ·) = I.sort := by
    have hperm : (self.portlist.keys.mergeSort (· ≤ ·)).Perm I.sort := by
      refine (List.mergeSort_perm _ _).trans ?_
      rw [List.perm_ext_iff_of_nodup self.portlist.keys_nodup (I.sort_nodup _)]
      intro i
      rw [← AList.mem_keys, h.spec.2.2, Finset.mem_sort]
    exact hperm.eq_of_pairwise' (List.pairwise_mergeSort' (· ≤ ·) _) (I.pairwise_sort _)
  refine List.mem_append_right _ (List.mem_map.mpr ⟨q, q.mem_all, ?_⟩)
  rw [hsort]
  refine congrArg (fun line => (_, Scalar.text line)) (List.flatMap_congr ?_)
  intro i hi
  rw [← h.rate_eq walks p tstamp q ((Finset.mem_sort _).mp hi)]
  rfl

end Snmpswitch

/-! ## `snmpswitch4` -/

namespace Snmpswitch4

/-- The objects of a run on a switch, each with the tables of the last four polls. -/
inductive Reached (I : Finset Nat) : Snmpswitch4 → IfTable → IfTable → IfTable → IfTable → Prop
  | opened (rows : Walk Text Scalar) (counter : Nat) (remIp : Text) (p : Poll I) :
      Reached I (new rows counter remIp p.session).1 p.table p.table p.table p.table
  | polled {self : Snmpswitch4} {T₁ T₂ T₃ T₄ : IfTable} (h : Reached I self T₁ T₂ T₃ T₄)
      (rows : Walk Text Scalar) (p : Poll I) (tstamp : Int) :
      Reached I (self.getdata rows p.session tstamp).1 p.table T₁ T₂ T₃

variable {self : Snmpswitch4} {T₁ T₂ T₃ T₄ : IfTable}

theorem Reached.numPorts_eq (h : Reached I self T₁ T₂ T₃ T₄) : self.numPorts = I.card := by
  induction h with
  | opened rows counter remIp p =>
      obtain ⟨result, hresult, hnumber⟩ := p.answers.ifNumber
      simp only [new, portCount, hresult, hnumber, Option.elim_some, Scalar.value]
      rw [int_natCast, Int.toNat_natCast, p.indices]
  | polled _ _ _ _ ih => exact ih

theorem Reached.qmod_eq (h : Reached I self T₁ T₂ T₃ T₄) : self.qmod = 4 := by
  induction h with
  | opened => rfl
  | polled _ _ _ _ ih => exact ih

/-- The loops count. -/
theorem mem_getdata {s : Session} {rows : Walk Text Scalar} {tstamp : Int} {q : PortRate}
    {i : Nat} {x : Scalar} : (portKey q self.switchCtr i, x) ∈ (self.getdata rows s tstamp).2 ↔
      i < self.numPorts ∧
        x = .num (self.rate (getSnmpData rows s self.numPorts) tstamp q i) := by
  have hmax : (portKey q self.switchCtr i, x) ∉
      if self.qctr = self.qmod then
        (List.range self.numPorts).flatMap fun i => PortRate.all.map fun q =>
          ("max_".toList ++ portKey q self.switchCtr i, Scalar.num (self.maxRate
            (getSnmpData rows s self.numPorts) tstamp q i))
      else [] := by
    by_cases hq : self.qctr = self.qmod
    · rw [if_pos hq]
      exact notMem_perPort _ _ _ fun _ _ => (portKey_ne_max _ _ _ _ _ _).symm
    · rw [if_neg hq]
      exact List.not_mem_nil
  rw [getdata, List.mem_append, or_iff_left portKey_notMem_switch, List.mem_append,
    or_iff_left hmax, mem_perPort _ _ _ fun _ _ _ _ => portKey_inj, List.mem_range]

/-- Index 0 is published of every switch that has a port, and it is none. -/
theorem not_portsReported (h : Reached I self T₁ T₂ T₃ T₄) (hne : I.Nonempty)
    (rows : Walk Text Scalar) (p : Poll I) (tstamp : Int) (rate : PortRate → Nat → ℚ) :
    ¬ PortsReported (self.getdata rows p.session tstamp).2 self.switchCtr I rate := by
  intro hall
  have hports : 0 < self.numPorts := by
    rw [h.numPorts_eq]
    exact Finset.card_pos.mpr hne
  obtain ⟨hzero, -⟩ := (hall 0 .inOcts _).mp (mem_getdata.mpr ⟨hports, rfl⟩)
  rw [← p.indices] at hzero
  exact absurd (p.table.pos 0 hzero) (by decide)

/-- The four polls of an object, for indices that identifiers can have. -/
theorem Reached.spec (h : Reached I self T₁ T₂ T₃ T₄) (hsub : ∀ i ∈ I, i < 2 ^ 32) :
    PollOf self.c1 T₁ ∧ PollOf self.c2 T₂ ∧ PollOf self.c3 T₃ ∧ PollOf self.c4 T₄ ∧
      T₁.indices = I ∧ T₂.indices = I ∧ T₃.indices = I ∧ T₄.indices = I := by
  have hpoll : ∀ (p : Poll I) (rows : Walk Text Scalar) (n : Nat),
      PollOf (getSnmpData rows p.session n) p.table := by
    intro p rows n
    refine pollOf_getSnmpData p.answers ?_ rows n
    rw [IfTable.SubIds, p.indices]
    exact hsub
  induction h with
  | opened rows counter remIp p =>
      have hnew := hpoll p rows (portCount p.session)
      exact ⟨hnew, hnew, hnew, hnew, p.indices, p.indices, p.indices, p.indices⟩
  | polled _ rows p tstamp ih =>
      obtain ⟨h₁, h₂, h₃, -, hI₁, hI₂, hI₃, -⟩ := ih
      exact ⟨hpoll p rows _, h₁, h₂, h₃, p.indices, hI₁, hI₂, hI₃⟩

/-- The first indices from zero on are published, as many as there are ports.  Of those
that are no port the rates are zero. -/
theorem mem_getdata_iff (h : Reached I self T₁ T₂ T₃ T₄) (hsub : ∀ i ∈ I, i < 2 ^ 32)
    (rows : Walk Text Scalar) (p : Poll I) (tstamp : Int) {q : PortRate} {i : Nat} {x : Scalar} :
    (portKey q self.switchCtr i, x) ∈ (self.getdata rows p.session tstamp).2 ↔
      i < I.card ∧ x = .num (if i ∈ I then
        round00 (T₄.advance p.table q i / (4 * elapsed self.lastTstamp tstamp)) else 0) := by
  obtain ⟨-, -, -, hold, -, -, -, hT⟩ := h.spec hsub
  have hraw : PollOf (getSnmpData rows p.session self.numPorts) p.table := by
    refine pollOf_getSnmpData p.answers ?_ rows _
    rw [IfTable.SubIds, p.indices]
    exact hsub
  have hrate : self.rate (getSnmpData rows p.session self.numPorts) tstamp q i =
      if i ∈ I then round00 (T₄.advance p.table q i / (4 * elapsed self.lastTstamp tstamp))
      else 0 := by
    rw [rate, h.qmod_eq]
    by_cases hi : i ∈ I
    · rw [if_pos hi, hold.advance hraw q (by rw [hT]; exact hi) (by rw [p.indices]; exact hi)]
      rfl
    · rw [if_neg hi,
        hold.advance_eq_zero hraw q (by rw [hT]; exact hi) (by rw [p.indices]; exact hi)]
      norm_num [round00, int]
  rw [mem_getdata, hrate, h.numPorts_eq]

/-- **Ports by number.**  In every run and for every poll, `snmpswitch4` publishes the
ports of the switch exactly when there are none.  A single index is treated right exactly
when it is a port and below the number of ports, or neither. -/
theorem portsReported_iff (h : Reached I self T₁ T₂ T₃ T₄) (rows : Walk Text Scalar)
    (p : Poll I) (tstamp : Int) :
    (PortsReported (self.getdata rows p.session tstamp).2 self.switchCtr I
        (fun q i => round00 (T₄.advance p.table q i / (4 * elapsed self.lastTstamp tstamp))) ↔
      I = ∅) ∧
    ((∀ i ∈ I, i < 2 ^ 32) → ∀ i,
      (PortReported (self.getdata rows p.session tstamp).2 self.switchCtr I
        (fun q i => round00 (T₄.advance p.table q i / (4 * elapsed self.lastTstamp tstamp))) i ↔
      (i ∈ I ↔ i < I.card))) := by
  constructor
  · constructor
    · intro hall
      by_contra hne
      exact not_portsReported h (Finset.nonempty_iff_ne_empty.mpr hne) rows p tstamp _ hall
    · rintro rfl i q x
      rw [mem_getdata, h.numPorts_eq]
      simp
  · intro hsub i
    constructor
    · intro hi
      constructor
      · intro hmem
        exact ((mem_getdata_iff h hsub rows p tstamp).mp ((hi .inOcts _).mpr ⟨hmem, rfl⟩)).1
      · intro hlt
        exact ((hi .inOcts _).mp ((mem_getdata_iff h hsub rows p tstamp).mpr ⟨hlt, rfl⟩)).1
    · intro hi q x
      rw [mem_getdata_iff h hsub rows p tstamp, ← hi]
      refine and_congr_right ?_
      intro hmem
      rw [if_pos hmem]

/-- The indices of the recorded switch. -/
def recordedPorts : Finset Nat := Finset.Icc 1 25 ∪ {31, 1001}

/-- Its table, with the octets that it has received. -/
def recordedTable : IfTable where
  indices := recordedPorts
  pos := by decide
  counter c i := if c = .inOctets ∧ i = 10 then 206315 else 0
  descr i := "EtherNet Port on unit 1, port:".toList ++ decimal i

def recordedPoll : Poll recordedPorts where
  session := recordedTable.session
  table := recordedTable
  answers := recordedTable.answers
  indices := rfl

/-- The object that has been opened on it. -/
def recordedObject : Snmpswitch4 := (new .kept 0 "192.168.1.5".toList recordedTable.session).1

theorem reached_recordedObject : Reached recordedPorts recordedObject
    recordedTable recordedTable recordedTable recordedTable :=
  .opened .kept 0 "192.168.1.5".toList recordedPoll

/-- What should be published of it after a minute in which nothing has changed. -/
def recordedRate (q : PortRate) (i : Nat) : ℚ :=
  round00 (recordedTable.advance recordedTable q i / (4 * elapsed recordedObject.lastTstamp 60))

theorem portsReported_iff_recorded :
    (PortsReported (recordedObject.getdata .kept recordedTable.session 60).2
        recordedObject.switchCtr recordedPorts recordedRate ↔ recordedPorts = ∅) ∧
    ((∀ i ∈ recordedPorts, i < 2 ^ 32) → ∀ i,
      (PortReported (recordedObject.getdata .kept recordedTable.session 60).2
        recordedObject.switchCtr recordedPorts recordedRate i ↔
      (i ∈ recordedPorts ↔ i < recordedPorts.card))) :=
  portsReported_iff reached_recordedObject .kept recordedPoll 60

/-- Of the recorded switch, index 0 is published, which it does not have. -/
theorem recorded_not_reported :
    ¬ PortsReported (recordedObject.getdata .kept recordedTable.session 60).2
      recordedObject.switchCtr recordedPorts recordedRate :=
  not_portsReported reached_recordedObject (by decide) .kept recordedPoll 60 _

end Snmpswitch4

end Memrec
