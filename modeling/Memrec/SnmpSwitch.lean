import Mathlib.Data.Finset.Sort
import Memrec.HashTable
import Memrec.Netinfo
import Memrec.Pattern

/-!
# Switches

`snmpswitch`, `snmpswitchCSV` and `snmpswitch4` poll the interface table of a switch over
SNMP.  A poll asks for ten columns; a column comes back as a hash from object identifiers
to values, and the last number of an identifier is the index of the interface.  What two
polls read of a counter goes through `delta`, and `snmpswitch4` keeps the last four polls.

The counters of the table have 32 bits and `delta` wraps at 64.  `increment_iff` says for
which pairs of readings the three modules still have the distance.
-/

namespace Memrec

open Perl Pat Hash

/-! ## The interface table -/

/-- The columns of the interface table that are polled, in the order of
`@oidmasterlist`. -/
inductive Column
  | inOctets | inUcastPkts | inNUcastPkts | inDiscards | inErrors
  | outOctets | outUcastPkts | outNUcastPkts | outDiscards | outErrors
  deriving DecidableEq

namespace Column

/-- `$OID_ifInOctets` and its siblings. -/
def oid : Column → Text
  | inOctets => "1.3.6.1.2.1.2.2.1.10".toList
  | inUcastPkts => "1.3.6.1.2.1.2.2.1.11".toList
  | inNUcastPkts => "1.3.6.1.2.1.2.2.1.12".toList
  | inDiscards => "1.3.6.1.2.1.2.2.1.13".toList
  | inErrors => "1.3.6.1.2.1.2.2.1.14".toList
  | outOctets => "1.3.6.1.2.1.2.2.1.16".toList
  | outUcastPkts => "1.3.6.1.2.1.2.2.1.17".toList
  | outNUcastPkts => "1.3.6.1.2.1.2.2.1.18".toList
  | outDiscards => "1.3.6.1.2.1.2.2.1.19".toList
  | outErrors => "1.3.6.1.2.1.2.2.1.20".toList

/-- The name of a column in `%oidmasterlist` and in the chain of `snmpswitch4`. -/
def nm : Column → Text
  | inOctets => "in_octs".toList
  | inUcastPkts => "in_Upkts".toList
  | inNUcastPkts => "in_NUpkts".toList
  | inDiscards => "in_dscds".toList
  | inErrors => "in_errs".toList
  | outOctets => "out_octs".toList
  | outUcastPkts => "out_Upkts".toList
  | outNUcastPkts => "out_NUpkts".toList
  | outDiscards => "out_dscds".toList
  | outErrors => "out_errs".toList

def all : List Column :=
  [inOctets, inUcastPkts, inNUcastPkts, inDiscards, inErrors,
    outOctets, outUcastPkts, outNUcastPkts, outDiscards, outErrors]

theorem mem_all (c : Column) : c ∈ all := by
  cases c <;> decide

theorem length_oid (c : Column) : c.oid.length = 20 := by
  cases c <;> rfl

/-- Read as expressions, the identifiers of two columns do not match each other. -/
theorem fits_oid (c c' : Column) : fits c'.oid c.oid = decide (c' = c) := by
  have h : ∀ c ∈ all, ∀ c' ∈ all, fits c'.oid c.oid = decide (c' = c) := by
    decide +kernel
  exact h c (mem_all c) c' (mem_all c')

end Column

def ifNumberOid : Text := "1.3.6.1.2.1.2.1.0".toList

def ifDescrOid : Text := "1.3.6.1.2.1.2.2.1.2".toList

/-- `%oidmasterlist`. -/
def oidmasterlist : Hash Text Text := storeAll ∅ (Column.all.map fun c => (c.oid, c.nm))

/-! ## Polls -/

/-- What a switch answers during a poll: an object, and the rows of a column, both as
hashes from identifiers to values.  Nothing stands for an error. -/
structure Session where
  getRequest : Text → Option (Hash Text Scalar)
  getBulkRequest : Nat → Text → Option (Hash Text Scalar)

/-- The number of interfaces; without an answer a switch has 24 ports. -/
def portCount (s : Session) : Nat :=
  match s.getRequest ifNumberOid with
  | some result => (int ((result.lookup ifNumberOid).elim 0 Scalar.value)).toNat
  | none => 24

/-- `"${nm}_$p"`. -/
def rawKey (nm : Text) (p : Nat) : Text := nm ++ '_' :: decimal p

/-- The counter that is read from a poll; nothing reads as zero. -/
def counterAt (raw : Hash Text Scalar) (c : Column) (i : Nat) : Int :=
  int ((raw.lookup (rawKey c.nm i)).elim 0 Scalar.value)

/-- How far a counter has advanced from one poll to another. -/
def increment (raw old : Hash Text Scalar) (c : Column) (i : Nat) : Int :=
  delta (counterAt raw c i) (counterAt old c i)

/-- What the modules publish of a port. -/
inductive PortRate
  | inOcts | outOcts | inPkts | outPkts | inErrs | outErrs
  deriving DecidableEq

namespace PortRate

def all : List PortRate := [inOcts, outOcts, inPkts, outPkts, inErrs, outErrs]

theorem mem_all (q : PortRate) : q ∈ all := by
  cases q <;> decide

def name : PortRate → Text
  | inOcts => "in_octs".toList
  | outOcts => "out_octs".toList
  | inPkts => "in_pkts".toList
  | outPkts => "out_pkts".toList
  | inErrs => "in_errs".toList
  | outErrs => "out_errs".toList

/-- The columns that are added up. -/
def columns : PortRate → List Column
  | inOcts => [.inOctets]
  | outOcts => [.outOctets]
  | inPkts => [.inUcastPkts, .inNUcastPkts]
  | outPkts => [.outUcastPkts, .outNUcastPkts]
  | inErrs => [.inErrors, .inDiscards]
  | outErrs => [.outErrors, .outDiscards]

/-- `$delta_bytes_in{$i}` and its siblings. -/
def advance (q : PortRate) (raw old : Hash Text Scalar) (i : Nat) : Int :=
  (q.columns.map fun c => increment raw old c i).sum

end PortRate

/-- `"in_octs_s${c}_p$i"` and its siblings. -/
def portKey (q : PortRate) (c i : Nat) : Text :=
  (q.name ++ ("_s".toList ++ (decimal c ++ "_".toList))) ++ 'p' :: decimal i

/-! ## `snmpswitch` -/

/-- The orders in which `each` lists the columns and the rows of one. -/
structure SwitchWalks where
  columns : Walk Text Text
  rows : Walk Text Scalar

/-- The object of packages `snmpswitch` and `snmpswitchCSV`. -/
structure Snmpswitch where
  rawdata : Hash Text Scalar
  portlist : Hash Nat Scalar
  switchIp : Text
  numPorts : Nat
  switchCtr : Nat
  lastTstamp : Int

namespace Snmpswitch

/-- `m/(.*\.)(\d+)/`, of which `$2` is read. -/
def portPattern : Pat Text := do
  let _ ← many notNl
  lit ['.']
  many1 Char.isDigit

/-- `$2 + 0`, where nothing reads as zero. -/
def port (k : Text) : Nat := (capture portPattern k).elim 0 fun p => (int (numify p)).toNat

/-- `get_snmp_data( session, nports )`. -/
def getSnmpData (walks : SwitchWalks) (s : Session) (nports : Nat) : Hash Text Scalar :=
  storeAll ∅ ((walks.columns.list oidmasterlist).flatMap fun e =>
    (walks.rows.list ((s.getBulkRequest nports e.1).getD ∅)).map fun r =>
      (rawKey e.2 (port r.1), r.2))

/-- `new( rem_ip )` on an open session: the object, and `$counter` afterwards. -/
def new (walks : SwitchWalks) (counter : Nat) (remIp : Text) (s : Session) : Snmpswitch × Nat :=
  let nports := portCount s
  let ports : Nat × Hash Nat Scalar :=
    match s.getBulkRequest nports ifDescrOid with
    | none => (24, storeAll ∅ ((List.range 24).map fun i => (i, .text "default".toList)))
    | some result => (nports, storeAll ∅ ((walks.rows.list result).map fun r => (port r.1, r.2)))
  ({ rawdata := getSnmpData walks s ports.1
     portlist := ports.2
     switchIp := remIp
     numPorts := ports.1
     switchCtr := counter
     lastTstamp := 0 }, counter + 1)

/-- What is divided by the time: a rate of a port. -/
def rate (self : Snmpswitch) (raw : Hash Text Scalar) (tstamp : Int) (q : PortRate)
    (i : Nat) : ℚ :=
  round00 (q.advance raw self.rawdata i / elapsed self.lastTstamp tstamp)

/-- `getdata`: the object afterwards, and what is stored into the data hash. -/
def getdata (self : Snmpswitch) (walks : SwitchWalks) (ports : Walk Nat Scalar) (s : Session)
    (tstamp : Int) : Snmpswitch × List (Text × Scalar) :=
  let raw := getSnmpData walks s self.numPorts
  ({ self with rawdata := raw, lastTstamp := tstamp },
    ((ports.list self.portlist).flatMap fun e => PortRate.all.map fun q =>
      (portKey q self.switchCtr e.1, Scalar.num (self.rate raw tstamp q e.1))) ++
    [("switch_ip_s".toList ++ decimal self.switchCtr, .text self.switchIp),
      ("num_ports_s".toList ++ decimal self.switchCtr, .num self.numPorts)])

end Snmpswitch

/-! ## `snmpswitchCSV` -/

namespace SnmpswitchCSV

/-- `get_snmp_data` and `new` are those of `snmpswitch`. -/
def getSnmpData (walks : SwitchWalks) (s : Session) (nports : Nat) : Hash Text Scalar :=
  Snmpswitch.getSnmpData walks s nports

def new (walks : SwitchWalks) (counter : Nat) (remIp : Text) (s : Session) : Snmpswitch × Nat :=
  Snmpswitch.new walks counter remIp s

/-- `getdata`: the ports in numerical order, every number followed by a comma. -/
def getdata (shown : ℚ → Text) (self : Snmpswitch) (walks : SwitchWalks) (s : Session)
    (tstamp : Int) : Snmpswitch × List (Text × Scalar) :=
  let raw := getSnmpData walks s self.numPorts
  let ports := self.portlist.keys.mergeSort (· ≤ ·)
  let head := "switch".toList ++ decimal self.switchCtr
  ({ self with rawdata := raw, lastTstamp := tstamp },
    [(head ++ "_ip".toList, Scalar.text self.switchIp),
      (head ++ "_num_ports".toList, .num self.numPorts)] ++
    PortRate.all.map fun q => (head ++ '_' :: q.name,
      .text (ports.flatMap fun i => shown (self.rate raw tstamp q i) ++ [','])))

end SnmpswitchCSV

/-! ## `snmpswitch4` -/

/-- `basesubs::max4`. -/
def max4 (a b c d : Int) : Int :=
  let a := if b > a then b else a
  let c := if d > c then d else c
  if a > c then a else c

/-- The object of package `snmpswitch4`. -/
structure Snmpswitch4 where
  c1 : Hash Text Scalar
  c2 : Hash Text Scalar
  c3 : Hash Text Scalar
  c4 : Hash Text Scalar
  switchIp : Text
  numPorts : Nat
  switchCtr : Nat
  qmod : Nat
  qctr : Nat
  lastTstamp : Int

namespace Snmpswitch4

/-- `m/$OID_ifInOctets.(\d+)/` and its siblings. -/
def columnPattern (oid : Text) : Pat Text := do
  dotted oid
  let _ ← cls notNl
  many1 Char.isDigit

/-- The chain of `get_snmp_data`: the column and the number of the first expression that
matches. -/
def classify (k : Text) : Option (Column × Nat) :=
  Column.all.findSome? fun c =>
    (capture (columnPattern c.oid) k).map fun n => (c, (int (numify n)).toNat)

/-- `get_snmp_data( session, nports )`.  A row that is not recognised is printed. -/
def getSnmpData (rows : Walk Text Scalar) (s : Session) (nports : Nat) : Hash Text Scalar :=
  storeAll ∅ (Column.all.flatMap fun c =>
    (rows.list ((s.getBulkRequest nports c.oid).getD ∅)).filterMap fun r =>
      (classify r.1).map fun x => (rawKey x.1.nm x.2, r.2))

/-- `new( rem_ip )` on an open session: the object, and `$counter` afterwards. -/
def new (rows : Walk Text Scalar) (counter : Nat) (remIp : Text) (s : Session) :
    Snmpswitch4 × Nat :=
  let nports := portCount s
  let rawdata := getSnmpData rows s nports
  ({ c1 := rawdata
     c2 := rawdata
     c3 := rawdata
     c4 := rawdata
     switchIp := remIp
     numPorts := nports
     switchCtr := counter
     qmod := 4
     qctr := 1
     lastTstamp := 0 }, counter + 1)

/-- A rate over the last four polls. -/
def rate (self : Snmpswitch4) (raw : Hash Text Scalar) (tstamp : Int) (q : PortRate)
    (i : Nat) : ℚ :=
  round00 (q.advance raw self.c4 i / (self.qmod * elapsed self.lastTstamp tstamp))

/-- The largest of the four rates between neighbouring polls. -/
def maxRate (self : Snmpswitch4) (raw : Hash Text Scalar) (tstamp : Int) (q : PortRate)
    (i : Nat) : ℚ :=
  round00 (max4 (q.advance raw self.c1 i) (q.advance self.c1 self.c2 i)
    (q.advance self.c2 self.c3 i) (q.advance self.c3 self.c4 i) / elapsed self.lastTstamp tstamp)

/-- `getdata`: the object afterwards, and what is stored into the data hash.  The loops
count the ports from zero. -/
def getdata (self : Snmpswitch4) (rows : Walk Text Scalar) (s : Session) (tstamp : Int) :
    Snmpswitch4 × List (Text × Scalar) :=
  let raw := getSnmpData rows s self.numPorts
  ({ self with
     c1 := raw
     c2 := self.c1
     c3 := self.c2
     c4 := self.c3
     qctr := if self.qctr = self.qmod then 1 else self.qctr + 1
     lastTstamp := tstamp },
    ((List.range self.numPorts).flatMap fun i => PortRate.all.map fun q =>
      (portKey q self.switchCtr i, Scalar.num (self.rate raw tstamp q i))) ++
    (if self.qctr = self.qmod then
      (List.range self.numPorts).flatMap fun i => PortRate.all.map fun q =>
        ("max_".toList ++ portKey q self.switchCtr i, Scalar.num (self.maxRate raw tstamp q i))
    else []) ++
    [("switch_ip_s".toList ++ decimal self.switchCtr, .text self.switchIp),
      ("num_ports_s".toList ++ decimal self.switchCtr, .num self.numPorts)])

end Snmpswitch4

/-! ## What a switch answers -/

/-- The interface table of a switch: the indices, and what stands in the columns. -/
structure IfTable where
  indices : Finset Nat
  pos : ∀ i ∈ indices, 0 < i
  counter : Column → Nat → Nat
  descr : Nat → Text

/-- The identifier of a cell. -/
def cellOid (oid : Text) (i : Nat) : Text := oid ++ '.' :: decimal i

/-- The rows of a column, one for every index. -/
def ColumnRows (rows : Hash Text Scalar) (T : IfTable) (oid : Text) (cell : Nat → Scalar) : Prop :=
  ∀ k v, rows.lookup k = some v ↔ ∃ i ∈ T.indices, k = cellOid oid i ∧ v = cell i

/-- The session answers from the table: a bulk request returns the rows of the column. -/
structure Answers (s : Session) (T : IfTable) : Prop where
  ifNumber : ∃ result, s.getRequest ifNumberOid = some result ∧
    result.lookup ifNumberOid = some (.num T.indices.card)
  ifDescr : ∀ n, ∃ rows, s.getBulkRequest n ifDescrOid = some rows ∧
    ColumnRows rows T ifDescrOid fun i => .text (T.descr i)
  column : ∀ n c, ∃ rows, s.getBulkRequest n (Column.oid c) = some rows ∧
    ColumnRows rows T c.oid fun i => .num (T.counter c i)

namespace IfTable

variable (T : IfTable)

/-- The indices are numbers of object identifiers, which have 32 bits. -/
def SubIds : Prop := ∀ i ∈ T.indices, i < 2 ^ 32

instance : Decidable T.SubIds := inferInstanceAs (Decidable (∀ i ∈ T.indices, i < 2 ^ 32))

def rows (oid : Text) (cell : Nat → Scalar) : Hash Text Scalar :=
  storeAll ∅ (T.indices.sort.map fun i => (cellOid oid i, cell i))

/-- The agent of a switch with this table. -/
def session : Session where
  getRequest oid :=
    if oid = ifNumberOid then some (storeAll ∅ [(ifNumberOid, .num T.indices.card)]) else none
  getBulkRequest _ oid :=
    if oid = ifDescrOid then some (T.rows oid fun i => .text (T.descr i))
    else (Column.all.find? fun c => c.oid = oid).map fun c =>
      T.rows oid fun i => .num (T.counter c i)

theorem cellOid_inj {oid : Text} {i j : Nat} (h : cellOid oid i = cellOid oid j) : i = j :=
  (append_decimal_inj (by decide) h).2

theorem columnRows_rows (oid : Text) (cell : Nat → Scalar) :
    ColumnRows (T.rows oid cell) T oid cell := by
  intro k v
  have hkeys : ((T.indices.sort.map fun i => (cellOid oid i, cell i)).map Prod.fst).Nodup := by
    rw [List.map_map]
    exact (T.indices.sort_nodup _).map fun i j h => cellOid_inj h
  rw [rows, lookup_storeAll_empty_iff hkeys, List.mem_map]
  constructor
  · rintro ⟨i, hi, heq⟩
    obtain ⟨rfl, rfl⟩ := Prod.mk.inj heq
    exact ⟨i, (Finset.mem_sort _).mp hi, rfl, rfl⟩
  · rintro ⟨i, hi, rfl, rfl⟩
    exact ⟨i, (Finset.mem_sort _).mpr hi, rfl⟩

theorem answers : Answers T.session T where
  ifNumber := by
    refine ⟨storeAll ∅ [(ifNumberOid, .num T.indices.card)], ?_, AList.lookup_insert _⟩
    simp only [session, if_true]
  ifDescr n := by
    refine ⟨_, ?_, T.columnRows_rows ifDescrOid _⟩
    simp only [session, if_true]
  column n c := by
    have hfind : Column.all.find? (fun d => d.oid = c.oid) = some c := by
      cases c <;> decide
    have hno : c.oid ≠ ifDescrOid := by
      cases c <;> decide
    refine ⟨_, ?_, T.columnRows_rows c.oid _⟩
    simp only [session, hno, if_false, hfind, Option.map_some]

end IfTable

/-! ## The two ways to read an identifier -/

theorem head?_digits (i : Nat) : (many1 Char.isDigit (decimal i)).head? = some (decimal i, []) := by
  have hdigits : ∀ d ∈ decimal i, d.isDigit := fun d hd => isDigit_of_mem_decimal hd
  obtain ⟨d, ds, hdec⟩ := List.exists_cons_of_ne_nil (decimal_ne_nil i)
  rw [hdec] at hdigits ⊢
  have hds : ∀ e ∈ ds, e.isDigit := fun e he => hdigits e (List.mem_cons_of_mem d he)
  rw [head?_many1 (hdigits d (by simp)), List.takeWhile_eq_self_iff.mpr hds,
    List.dropWhile_eq_nil_iff.mpr hds]

theorem toNat_numify_decimal (i : Nat) : (int (numify (decimal i))).toNat = i := by
  rw [numify_decimal, int_natCast, Int.toNat_natCast]

/-- The last number of an identifier is the one behind its last dot. -/
theorem Snmpswitch.port_cellOid {oid : Text} (h : ∀ c ∈ oid, notNl c) (i : Nat) :
    port (cellOid oid i) = i := by
  have hhead : (portPattern (cellOid oid i)).head? = some (decimal i, []) := by
    refine head?_bind_many_last h ?_ ?_
    · have hdot := lit_bind_append ['.'] (many1 Char.isDigit) (decimal i)
      rw [List.singleton_append] at hdot
      rw [hdot]
      exact head?_digits i
    · intro v₁ v₂ hv hne
      have hdot : ¬ ['.'] <+: v₂ := by
        rintro ⟨w, rfl⟩
        obtain ⟨c, v₁, rfl⟩ := List.exists_cons_of_ne_nil hne
        have hmem : '.' ∈ decimal i := by
          rw [(List.cons.inj hv).2]
          simp
        exact notMem_decimal (by decide) (by decide) i hmem
      rw [bind_apply, lit_eq_nil hdot]
      rfl
  rw [port, capture_here hhead, Option.elim_some, toNat_numify_decimal]

namespace Snmpswitch4

theorem head?_columnPattern (c c' : Column) (i : Nat) :
    (columnPattern c'.oid (cellOid c.oid i)).head? =
      if c' = c then some (decimal i, []) else none := by
  have hlen : c'.oid.length = c.oid.length := by
    rw [Column.length_oid, Column.length_oid]
  rw [cellOid, columnPattern, bind_apply, dotted_append hlen, Column.fits_oid]
  by_cases h : c' = c
  · rw [if_pos (decide_eq_true h), if_pos h, List.flatMap_cons, List.flatMap_nil, List.append_nil,
      cls_bind_cons (by decide)]
    exact head?_digits i
  · rw [if_neg (by simpa using h), if_neg h]
    rfl

/-- The expression needs a text that is longer than the identifier of the column. -/
theorem columnPattern_eq_nil {oid s : Text} (h : s.length < oid.length + 2) :
    columnPattern oid s = [] := by
  rw [List.eq_nil_iff_forall_not_mem]
  intro x hx
  obtain ⟨⟨u, t⟩, ht, hx⟩ := List.mem_flatMap.mp hx
  have hlen := length_of_mem_dotted ht
  change x ∈ (cls notNl >>= fun _ => many1 Char.isDigit) t at hx
  rcases t with _ | ⟨d, _ | ⟨e, t⟩⟩
  · cases hx
  · by_cases hd : notNl d = true
    · rw [cls_bind_cons hd] at hx
      cases hx
    · rw [bind_apply, cls_cons, if_neg hd] at hx
      cases hx
  · simp only [List.length_cons] at hlen
    omega

/-- Behind its first place an identifier is too short for the expression, or goes on with
something else. -/
theorem capture_columnPattern {c c' : Column} {i : Nat} (hi : i < 2 ^ 32) :
    capture (columnPattern c'.oid) (cellOid c.oid i) =
      if c' = c then some (decimal i) else none := by
  have hhead := head?_columnPattern c c' i
  by_cases h : c' = c
  · rw [if_pos h] at hhead ⊢
    exact capture_here hhead
  · rw [if_neg h] at hhead ⊢
    have hsplit : cellOid c.oid i = '1' :: (".3.6.1.2.".toList ++
        ("1.2.".toList ++ (c.oid.drop 14 ++ '.' :: decimal i))) := by
      cases c <;> rfl
    have hstart : c'.oid = "1.3".toList ++ c'.oid.drop 3 := by
      cases c' <;> rfl
    have hshort : (decimal i).length ≤ 10 := by
      have hdigits := Nat.length_toDigits_le_iff (n := i) (k := 10) (b := 10) (by decide)
        (by decide)
      exact hdigits.mpr (by omega)
    rw [hsplit] at hhead ⊢
    rw [capture_skip (List.head?_eq_none_iff.mp hhead)]
    rw [capture_append_skip]
    · refine capture_eq_none ?_
      intro t ht
      refine columnPattern_eq_nil ?_
      have hlen := ht.length_le
      have hoid := c.length_oid
      have hoid' := c'.length_oid
      have hlit : "1.2.".toList.length = 4 := rfl
      simp only [List.length_append, List.length_drop, List.length_cons, hlit] at hlen
      omega
    · intro u hu hne
      have hno : ∀ u ∈ ".3.6.1.2.".toList.tails, u ≠ [] →
          fits "1.3".toList ((u ++ "1.2.".toList).take 3) = false ∧
            3 ≤ (u ++ "1.2.".toList).length := by
        decide
      obtain ⟨hfits, hlen⟩ := hno u ((List.mem_tails u _).mpr hu) hne
      rw [columnPattern, bind_apply, hstart, dotted_concat, bind_apply, ← List.append_assoc,
        ← List.take_append_drop 3 (u ++ "1.2.".toList), List.append_assoc, dotted_append, hfits]
      · rfl
      · rw [List.length_take, min_eq_left hlen]
        rfl

/-- The chain recognises every row. -/
theorem classify_cellOid (c : Column) {i : Nat} (hi : i < 2 ^ 32) :
    classify (cellOid c.oid i) = some (c, i) := by
  have hstep : (fun c' : Column => (capture (columnPattern c'.oid) (cellOid c.oid i)).map
      fun n => (c', (int (numify n)).toNat)) = fun c' => if c' = c then some (c, i) else none := by
    funext c'
    rw [capture_columnPattern hi]
    by_cases h : c' = c
    · rw [if_pos h, if_pos h, Option.map_some, toNat_numify_decimal, h]
    · rw [if_neg h, if_neg h, Option.map_none]
  rw [classify, hstep]
  cases c <;> rfl

end Snmpswitch4

/-! ## What a poll holds -/

/-- A poll holds the counters of the table and nothing else. -/
def PollOf (raw : Hash Text Scalar) (T : IfTable) : Prop :=
  ∀ c i, raw.lookup (rawKey (Column.nm c) i) =
    if i ∈ T.indices then some (.num (T.counter c i)) else none

theorem rawKey_inj {c c' : Column} {i i' : Nat} (h : rawKey c.nm i = rawKey c'.nm i') :
    c = c' ∧ i = i' := by
  obtain ⟨hnm, hi⟩ := append_decimal_inj (by decide) h
  refine ⟨?_, hi⟩
  have hinj : ∀ c ∈ Column.all, ∀ c' ∈ Column.all, c.nm = c'.nm → c = c' := by
    decide +kernel
  exact hinj c c.mem_all c' c'.mem_all hnm

/-- Whatever the order in which the counters were stored. -/
theorem pollOf_store {T : IfTable} {kvs : List (Text × Scalar)}
    (h : ∀ k v, (k, v) ∈ kvs ↔
      ∃ c, ∃ i ∈ T.indices, k = rawKey (Column.nm c) i ∧ v = .num (T.counter c i)) :
    PollOf (storeAll ∅ kvs) T := by
  intro c i
  by_cases hi : i ∈ T.indices
  · rw [if_pos hi]
    refine lookup_storeAll_of_mem ((h _ _).mpr ⟨c, i, hi, rfl, rfl⟩) ?_ ∅
    intro v hv
    obtain ⟨c', i', -, hkey, rfl⟩ := (h _ _).mp hv
    obtain ⟨rfl, rfl⟩ := rawKey_inj hkey
    rfl
  · rw [if_neg hi, lookup_storeAll_of_notMem, AList.lookup_empty]
    intro hmem
    obtain ⟨⟨k, v⟩, hkv, rfl⟩ := List.mem_map.mp hmem
    obtain ⟨c', i', hi', hkey, -⟩ := (h _ _).mp hkv
    exact hi ((rawKey_inj hkey).2 ▸ hi')

theorem mem_oidmasterlist {walk : Walk Text Text} {e : Text × Text} :
    e ∈ walk.list oidmasterlist ↔ ∃ c : Column, e = (c.oid, c.nm) := by
  have hkeys : ((Column.all.map fun c => (c.oid, c.nm)).map Prod.fst).Nodup := by
    decide +kernel
  rw [walk.mem_iff, oidmasterlist, lookup_storeAll_empty_iff hkeys, List.mem_map]
  constructor
  · rintro ⟨c, -, hc⟩
    exact ⟨c, hc.symm⟩
  · rintro ⟨c, rfl⟩
    exact ⟨c, c.mem_all, rfl⟩

variable {s : Session} {T : IfTable}

theorem Answers.mem_rows (h : Answers s T) (rows : Walk Text Scalar) (n : Nat) (c : Column)
    {k : Text} {v : Scalar} : (k, v) ∈ rows.list ((s.getBulkRequest n c.oid).getD ∅) ↔
      ∃ i ∈ T.indices, k = cellOid c.oid i ∧ v = .num (T.counter c i) := by
  obtain ⟨r, hr, hrows⟩ := h.column n c
  rw [hr, Option.getD_some, rows.mem_iff]
  exact hrows k v

theorem Snmpswitch.pollOf_getSnmpData (h : Answers s T) (walks : SwitchWalks) (n : Nat) :
    PollOf (getSnmpData walks s n) T := by
  have hoid : ∀ c : Column, ∀ d ∈ c.oid, notNl d := by
    intro c
    refine List.all_eq_true.mp ?_
    cases c <;> decide
  refine pollOf_store ?_
  intro k v
  rw [List.mem_flatMap]
  constructor
  · rintro ⟨e, he, hkv⟩
    obtain ⟨c, rfl⟩ := mem_oidmasterlist.mp he
    obtain ⟨⟨k', v'⟩, hrow, heq⟩ := List.mem_map.mp hkv
    obtain ⟨rfl, rfl⟩ := Prod.mk.inj heq
    obtain ⟨i, hi, rfl, rfl⟩ := (h.mem_rows _ _ _).mp hrow
    exact ⟨c, i, hi, by rw [port_cellOid (hoid c)], rfl⟩
  · rintro ⟨c, i, hi, rfl, rfl⟩
    have hrow := (h.mem_rows walks.rows n c).mpr ⟨i, hi, rfl, rfl⟩
    refine ⟨(c.oid, c.nm), mem_oidmasterlist.mpr ⟨c, rfl⟩, List.mem_map.mpr ⟨_, hrow, ?_⟩⟩
    rw [port_cellOid (hoid c)]

theorem Snmpswitch4.pollOf_getSnmpData (h : Answers s T) (hsub : T.SubIds)
    (rows : Walk Text Scalar) (n : Nat) : PollOf (getSnmpData rows s n) T := by
  refine pollOf_store ?_
  intro k v
  rw [List.mem_flatMap]
  constructor
  · rintro ⟨c, -, hkv⟩
    obtain ⟨⟨k', v'⟩, hrow, hx⟩ := List.mem_filterMap.mp hkv
    obtain ⟨i, hi, rfl, rfl⟩ := (h.mem_rows _ _ _).mp hrow
    rw [classify_cellOid c (hsub i hi), Option.map_some, Option.some_inj] at hx
    obtain ⟨rfl, rfl⟩ := Prod.mk.inj hx
    exact ⟨c, i, hi, rfl, rfl⟩
  · rintro ⟨c, i, hi, rfl, rfl⟩
    refine ⟨c, c.mem_all, List.mem_filterMap.mpr ⟨_, (h.mem_rows _ _ _).mpr
      ⟨i, hi, rfl, rfl⟩, ?_⟩⟩
    rw [classify_cellOid c (hsub i hi), Option.map_some]

theorem PollOf.counterAt_eq {raw : Hash Text Scalar} (h : PollOf raw T) (c : Column) (i : Nat) :
    counterAt raw c i = if i ∈ T.indices then (T.counter c i : Int) else 0 := by
  rw [counterAt, h c i]
  by_cases hi : i ∈ T.indices
  · rw [if_pos hi, if_pos hi, Option.elim_some, Scalar.value, int_natCast]
  · rw [if_neg hi, if_neg hi, Option.elim_none]
    rfl

/-! ## Increments -/

/-- A counter of 32 bits has its distance exactly when it has not wrapped. -/
theorem delta_counter32_iff {a b : Nat} (ha : a < 2 ^ 32) (hb : b < 2 ^ 32) :
    delta b a = ((b : Int) - a) % 2 ^ 32 ↔ a ≤ b := by
  by_cases h : a ≤ b
  · rw [delta_of_le (by exact_mod_cast h), Int.emod_eq_of_lt (by omega) (by omega)]
    simp [h]
  · rw [delta_of_lt (by omega)]
    omega

variable {s' : Session} {T' : IfTable}

theorem increment_of_pollOf {raw raw' : Hash Text Scalar} (h : PollOf raw T) (h' : PollOf raw' T')
    (c : Column) {i : Nat} (hi : i ∈ T.indices) (hi' : i ∈ T'.indices) :
    increment raw' raw c i = delta (T'.counter c i) (T.counter c i) := by
  rw [increment, h.counterAt_eq, h'.counterAt_eq, if_pos hi, if_pos hi']

/-- The increment between two polls is the distance of the readings around 32 bits. -/
def Forward32 (raw raw' : Hash Text Scalar) (T T' : IfTable) (c : Column) (i : Nat) : Prop :=
  increment raw' raw c i = ((T'.counter c i : Int) - T.counter c i) % 2 ^ 32

theorem forward32_iff {raw raw' : Hash Text Scalar} (h : PollOf raw T) (h' : PollOf raw' T')
    (c : Column) {i : Nat} (hi : i ∈ T.indices) (hi' : i ∈ T'.indices)
    (ha : T.counter c i < 2 ^ 32) (hb : T'.counter c i < 2 ^ 32) :
    Forward32 raw raw' T T' c i ↔ T.counter c i ≤ T'.counter c i := by
  rw [Forward32, increment_of_pollOf h h' c hi hi', delta_counter32_iff ha hb]

/-- **Counters of 32 bits.**  From two polls, each of the three modules has the distance
between the readings of a counter exactly when the newer one is not smaller.  The chain
of `snmpswitch4` needs indices that an identifier can have. -/
theorem increment_iff (h : Answers s T) (h' : Answers s' T') (walks walks' : SwitchWalks)
    (n n' : Nat) (c : Column) {i : Nat} (hi : i ∈ T.indices) (hi' : i ∈ T'.indices)
    (ha : T.counter c i < 2 ^ 32) (hb : T'.counter c i < 2 ^ 32) :
    (Forward32 (Snmpswitch.getSnmpData walks s n) (Snmpswitch.getSnmpData walks' s' n') T T' c i ↔
      T.counter c i ≤ T'.counter c i) ∧
    (Forward32 (SnmpswitchCSV.getSnmpData walks s n) (SnmpswitchCSV.getSnmpData walks' s' n')
        T T' c i ↔ T.counter c i ≤ T'.counter c i) ∧
    (T.SubIds → T'.SubIds →
      (Forward32 (Snmpswitch4.getSnmpData walks.rows s n)
          (Snmpswitch4.getSnmpData walks'.rows s' n') T T' c i ↔
        T.counter c i ≤ T'.counter c i)) := by
  have hswitch := forward32_iff (Snmpswitch.pollOf_getSnmpData h walks n)
    (Snmpswitch.pollOf_getSnmpData h' walks' n') c hi hi' ha hb
  refine ⟨hswitch, hswitch, ?_⟩
  intro hsub hsub'
  exact forward32_iff (Snmpswitch4.pollOf_getSnmpData h hsub walks.rows n)
    (Snmpswitch4.pollOf_getSnmpData h' hsub' walks'.rows n') c hi hi' ha hb

/-- A table with one interface, all of whose counters are `n`. -/
def oneInterface (n : Nat) : IfTable where
  indices := {1}
  pos := by decide
  counter _ _ := n
  descr _ := "EtherNet Port on unit 1, port:1".toList

def keptWalks : SwitchWalks := ⟨.kept, .kept⟩

theorem increment_iff_oneInterface :
    (Forward32 (Snmpswitch.getSnmpData keptWalks (oneInterface 7).session 1)
        (Snmpswitch.getSnmpData keptWalks (oneInterface 9).session 1)
        (oneInterface 7) (oneInterface 9) .inOctets 1 ↔ 7 ≤ 9) ∧
    (Forward32 (SnmpswitchCSV.getSnmpData keptWalks (oneInterface 7).session 1)
        (SnmpswitchCSV.getSnmpData keptWalks (oneInterface 9).session 1)
        (oneInterface 7) (oneInterface 9) .inOctets 1 ↔ 7 ≤ 9) ∧
    (Forward32 (Snmpswitch4.getSnmpData keptWalks.rows (oneInterface 7).session 1)
        (Snmpswitch4.getSnmpData keptWalks.rows (oneInterface 9).session 1)
        (oneInterface 7) (oneInterface 9) .inOctets 1 ↔ 7 ≤ 9) := by
  obtain ⟨hswitch, hcsv, hswitch4⟩ := increment_iff (oneInterface 7).answers
    (oneInterface 9).answers keptWalks keptWalks 1 1 .inOctets (i := 1) (by decide) (by decide)
    (by decide) (by decide)
  exact ⟨hswitch, hcsv, hswitch4 (by decide) (by decide)⟩

/-- A counter that wraps has advanced by one, and the modules say by `2^64 - 2^32`. -/
theorem wrappedCounter_not_forward :
    ¬ Forward32 (Snmpswitch.getSnmpData keptWalks (oneInterface (2 ^ 32 - 1)).session 1)
      (Snmpswitch.getSnmpData keptWalks (oneInterface 0).session 1)
      (oneInterface (2 ^ 32 - 1)) (oneInterface 0) .inOctets 1 := by
  rw [forward32_iff
    (Snmpswitch.pollOf_getSnmpData (oneInterface (2 ^ 32 - 1)).answers keptWalks 1)
    (Snmpswitch.pollOf_getSnmpData (oneInterface 0).answers keptWalks 1) .inOctets
    (by decide) (by decide) (by decide) (by decide)]
  decide

end Memrec
