import Memrec.Netinfo

/-!
# The modules `diskstats`, `procstat`, `nfscli` and `turbostat`

Four more modules that keep counters.  Each reads one file (or the output of one
command) in `new`, creates a counter for everything it finds there, and updates
the counters of everything it finds in the next reading.

* `diskstats` keeps one counter per partition and field and adds up the fields
  of all partitions.
* `procstat` keeps eight counters per line of `/proc/stat` that starts with
  `cpu`, up to the first line that does not.
* `nfscli` keeps one counter per field of the first `proc3` line.
* `turbostat` keeps three counters per processor in the output of the dump
  command, unless the processor is too old or the command is not there.

Values that a module stores as a comma-separated list stay lists here; an entry
that was never assigned is `none`.
-/

namespace Memrec

open Perl Perl.Pat CellBank Runs

/-- What a module stores under a key. -/
inductive Datum
  | num (x : ℚ)
  | str (s : Text)
  | commas (xs : List (Option ℚ))
  deriving DecidableEq

/-- The fields of a line as readings, numbered from zero. -/
def numbered {κ : Type} (r : κ × List Text) : List ((κ × Nat) × ℚ) :=
  r.2.zipIdx.map fun f => ((r.1, f.2), numify f.1)

/-- A counter for each reading. -/
def fresh {κ : Type} (rs : List (κ × ℚ)) : List (κ × Wrapctr ℚ) :=
  rs.map fun r => (r.1, Wrapctr.new r.2)

/-! ## `diskstats` -/

/-- `[shd][dm][a-z\-]\d`. -/
def partitionName : Pat Text := do
  let a ← cls fun c => "shd".toList.contains c
  let b ← cls fun c => "dm".toList.contains c
  let c ← cls fun c => c.isLower || c == '-'
  let d ← cls Char.isDigit
  pure [a, b, c, d]

/-- `m/\s+([shd][dm][a-z\-]\d)\s+(.*)/`. -/
def diskLine : Pat (Text × Text) := do
  let _ ← many1 isSpace
  let n ← partitionName
  let _ ← many1 isSpace
  let rest ← many notNl
  pure (n, rest)

/-- `m/\/([shd][dm][a-z\-]\d)\s+/` on one line of `/proc/swaps`. -/
def swapLine : Pat Text := do
  lit "/".toList
  let n ← partitionName
  let _ ← many1 isSpace
  pure n

/-- The name and the fields of a line of `/proc/diskstats`. -/
def diskFields (line : Text) : Option (Text × List Text) :=
  (capture diskLine line).map fun r => (r.1, splitWs r.2)

/-- The partitions of `/proc/diskstats`, in file order. -/
def partitions (disks : Text) : List (Text × List Text) :=
  (readlines disks).filterMap diskFields

/-- The object of package `diskstats`; `isSwap` are its entries `is_swap_*`. -/
structure Diskstats where
  ctr : Bank (Text × Nat) (Wrapctr ℚ)
  isSwap : Bank Text Nat
  numPartitions : Nat
  lastTstamp : Int

namespace Diskstats

/-- `diskstats->new()`, reading `/proc/diskstats` and `/proc/swaps`. -/
def new (disks swaps : Text) : Diskstats where
  ctr := (partitions disks).foldl (fun ctr p => putAll ctr (fresh (numbered p))) fun _ => none
  isSwap :=
    ((readlines swaps).filterMap (capture swapLine)).foldl (fun m n => put m n 1)
      ((partitions disks).foldl (fun m p => put m p.1 0) fun _ => none)
  numPartitions := (partitions disks).length
  lastTstamp := 0

/-- The loop over `/proc/diskstats` in `getdata`. -/
def scan (ctr : Bank (Text × Nat) (Wrapctr ℚ)) (disks : Text) :
    Except Die (Bank (Text × Nat) (Wrapctr ℚ) × (Nat → ℚ)) :=
  (partitions disks).foldlM (fun st p =>
    feed Wrapctr.update Die.undefMethod addDelta st (numbered p)) (ctr, fun _ => 0)

/-- The loop over the partition numbers: whether `is_swap_$n` is zero decides to
which of two sums `$delta[$i]` is added.  The hash has names for keys, the loop
looks numbers up. -/
def share (self : Diskstats) (delta : Nat → ℚ) (swap : Bool) (i : Nat) : ℚ :=
  (List.range self.numPartitions).foldl (fun t n =>
    if ((self.isSwap (decimal n)).getD 0 == 0) = !swap then t + delta i else t) 0

/-- The keys in the order in which they are stored, with the sum and the field
they come from. -/
def table : List (Text × Bool × Nat) :=
  [("disk_rd".toList, false, 0), ("disk_sec_rd".toList, false, 2),
    ("swap_rd".toList, true, 0), ("swap_sec_rd".toList, true, 2),
    ("disk_wr".toList, false, 4), ("disk_sec_wr".toList, false, 6),
    ("swap_wr".toList, true, 4), ("swap_sec_wr".toList, true, 6)]

/-- `getdata` before rounding. -/
def sample (self : Diskstats) (call : Int × Text) :
    Except Die (Diskstats × List (Text × ℚ)) := do
  let st ← scan self.ctr call.2
  let rates ← table.mapM fun row => do
    let r ← div (self.share st.2 row.2.1 row.2.2) (elapsed self.lastTstamp call.1)
    pure (row.1, r)
  pure ({ self with ctr := st.1, lastTstamp := call.1 }, rates)

/-- `getdata`: what it stores into the data hash, and the object afterwards. -/
def getdata (self : Diskstats) (call : Int × Text) :
    Except Die (Diskstats × List (Text × Datum)) := do
  let out ← self.sample call
  pure (out.1, out.2.map fun r => (r.1, .num (round00 r.2)))

end Diskstats

/-! ## `procstat` -/

/-- `m/^(cpu\d*)/`. -/
def cpuHead : Pat Text := do
  lit "cpu".toList
  let ds ← many Char.isDigit
  pure ("cpu".toList ++ ds)

/-- The leading `cpu` lines of `/proc/stat`, first field and all fields. -/
def cpuLines (stat : Text) : List (Text × List Text) :=
  ((readlines stat).takeWhile fun l => (atStart cpuHead l).isSome).map fun l =>
    ((splitWs l).headD [], splitWs l)

/-- The readings `f1` to `f8` of one line. -/
def cpuReadings (p : Text × List Text) : List ((Text × Nat) × ℚ) :=
  (List.range' 1 8).map fun j => ((p.1, j), fieldNum p.2 j)

/-- `$data[$k] = v`: a subscript counts from the end when it is negative, and
one before the beginning ends the process. -/
def storeAt (data : List (Option ℚ)) (k : Int) (v : ℚ) : Except Die (List (Option ℚ)) :=
  if 0 ≤ k then pure (setAt data k.toNat v)
  else if 0 ≤ data.length + k then pure (data.set (data.length + k).toNat (some v))
  else .error .badSubscript

/-- The object of package `procstat`. -/
structure Procstat where
  ctr : Bank (Text × Nat) (Wrapctr ℚ)
  numCpus : Nat
  lastTstamp : Int

namespace Procstat

/-- `procstat->new()`. -/
def new (stat : Text) : Procstat where
  ctr := (cpuLines stat).foldl (fun ctr p => putAll ctr (fresh (cpuReadings p))) fun _ => none
  numCpus := (cpuLines stat).length
  lastTstamp := 0

/-- `int( 100.0 - 100.0*$x / $y )` after the guard against no elapsed time; the
increments are those of `f1` to `f8`. -/
def busy (ds : List ℚ) : Int :=
  let y := if ds.sum = 0 then 1 else ds.sum
  int (100 - 100 * ds.getD 3 0 / y)

/-- One line of `getdata`; the total goes to `$dref->{'cpu'}`, a processor to
`@data`. -/
def scanLine (st : Bank (Text × Nat) (Wrapctr ℚ) × Option ℚ × List (Option ℚ))
    (p : Text × List Text) :
    Except Die (Bank (Text × Nat) (Wrapctr ℚ) × Option ℚ × List (Option ℚ)) := do
  let r ← feed Wrapctr.update Die.undefMethod (fun ds _ d => ds ++ [d]) (st.1, [])
    (cpuReadings p)
  if p.1 = "cpu".toList then pure (r.1, some (busy r.2), st.2.2)
  else do
    -- The first field starts with `cpu`, which `s/cpu//` takes off.
    let data ← storeAt st.2.2 (int (numify (p.1.drop 3))) (busy r.2)
    pure (r.1, st.2.1, data)

/-- `getdata`. -/
def getdata (self : Procstat) (call : Int × Text) :
    Except Die (Procstat × List (Text × Datum)) := do
  let st ← (cpuLines call.2).foldlM scanLine (self.ctr, none, [])
  pure ({ self with ctr := st.1, lastTstamp := call.1 },
    st.2.1.toList.map (fun x => ("cpu".toList, .num x)) ++
      [("cpu_list".toList, .commas st.2.2)])

end Procstat

/-! ## `nfscli` -/

/-- The fields of the first line that matches `m/^proc3/`; none if there is no
such line. -/
def proc3Fields (nfs : Text) : List Text :=
  (((readlines nfs).find? fun l => (atStart (lit "proc3".toList) l).isSome).map splitWs).getD []

/-- The readings of that line, from the fourth field on. -/
def proc3Readings (nfs : Text) : List (Nat × ℚ) :=
  ((proc3Fields nfs).zipIdx.drop 3).map fun f => (f.2, numify f.1)

/-- The object of package `nfscli`. -/
structure Nfscli where
  ctr : Bank Nat (Wrapctr ℚ)
  lastTstamp : Int

namespace Nfscli

/-- `nfscli->new()`, reading `/proc/net/rpc/nfs`. -/
def new (nfs : Text) : Nfscli where
  ctr := putAll (fun _ => none) (fresh (proc3Readings nfs))
  lastTstamp := 0

/-- `getdata` before rounding. -/
def sample (self : Nfscli) (call : Int × Text) : Except Die (Nfscli × List (Text × ℚ)) := do
  let st ← feed Wrapctr.update Die.undefMethod
    (fun delta i d => fun j => if j = i then d else delta j) (self.ctr, fun _ => 0)
    (proc3Readings call.2)
  let read := st.2 8
  let write := st.2 9
  let total := (((List.range (proc3Fields call.2).length).drop 3).map st.2).sum
  let dt := elapsed self.lastTstamp call.1
  let nfsMeta ← div (total - (read + write)) dt
  let nfsRead ← div read dt
  let nfsWrite ← div write dt
  pure ({ self with ctr := st.1, lastTstamp := call.1 },
    [("nfs_meta".toList, nfsMeta), ("nfs_read".toList, nfsRead), ("nfs_write".toList, nfsWrite)])

/-- `getdata`: what it stores into the data hash, and the object afterwards. -/
def getdata (self : Nfscli) (call : Int × Text) :
    Except Die (Nfscli × List (Text × Datum)) := do
  let out ← self.sample call
  pure (out.1, out.2.map fun r => (r.1, .num (round00 r.2)))

end Nfscli

/-! ## `turbostat` -/

/-- A literal under `/i`. -/
def litI (w : Text) : Pat Unit := fun s =>
  if w.isPrefixOf (s.map Char.toLower) then [((), s.drop w.length)] else []

/-- `m/^<name>\s+\:(.*)/i` on a line of `/proc/cpuinfo`. -/
def cpuinfoLine (name : Text) : Pat Text := do
  litI name
  let _ ← many1 isSpace
  lit ":".toList
  many notNl

/-- The last value that `/proc/cpuinfo` gives under a name, as a number. -/
def cpuinfoNum (name cpuinfo : Text) : ℚ :=
  (readlines cpuinfo).foldl (fun v l =>
    match atStart (cpuinfoLine name) l with
    | none => v
    | some x => numify x) 0

/-- Store under a key of a hash that is kept in the order of first storing. -/
def hashStore (h : List (Text × Text)) (k v : Text) : List (Text × Text) :=
  if k ∈ h.map Prod.fst then h.map fun p => if p.1 = k then (k, v) else p else h ++ [(k, v)]

/-- The three keys of a processor, with the field each is read from. -/
def msrKeys (c : Text) : List (Text × Nat) :=
  [("tsc ".toList ++ c, 3), ("aperf ".toList ++ c, 4), ("mperf ".toList ++ c, 5)]

/-- The fields of the lines of the dump after its header. -/
def dumpLines (dump : Text) : List (List Text) := (readlines dump).tail.map fun l => words (chomp l)

/-- `read_msr`: the hash it returns. -/
def readMsr (dump : Text) : List (Text × Text) :=
  (dumpLines dump).foldl (fun h fld =>
    (msrKeys (fld.headD [])).foldl (fun h k => hashStore h k.1 (fld.getD k.2 [])) h) []

/-- `$kk =~ s/\s\d+//`. -/
def stripCpu (k : Text) : Text :=
  match search (do let _ ← cls isSpace; many1 Char.isDigit) k with
  | none => k
  | some r => r.1 ++ r.2.2

/-- The object of package `turbostat`. -/
structure Turbostat where
  ctr : Bank Text (Wrapctr ℚ)
  numCpus : Nat
  tsEnable : Bool
  lastTstamp : Int

namespace Turbostat

/-- `turbostat->new()`: `dumpExists` is `-e $dump_cmd`, `dump` the output of the
command. -/
def new (cpuinfo : Text) (dumpExists : Bool) (dump : Text) : Turbostat :=
  let enable := !decide (cpuinfoNum "cpu family".toList cpuinfo < 6) &&
    !decide (cpuinfoNum "model".toList cpuinfo < 26) && dumpExists
  { ctr := if enable then
      putAll (fun _ => none) (fresh ((readMsr dump).map fun p => (p.1, numify p.2)))
      else fun _ => none
    numCpus := ((readlines cpuinfo).filter fun l =>
      (atStart (litI "processor".toList) l).isSome).length
    tsEnable := enable
    lastTstamp := 0 }

/-- The sums over all processors, each divided by their number. -/
def averages (numCpus : Nat) (delta : List (Text × ℚ)) : Except Die (List (Text × ℚ)) :=
  (delta.map fun p => stripCpu p.1).dedup.mapM fun kk => do
    let r ← div ((delta.filter fun p => stripCpu p.1 == kk).map Prod.snd).sum numCpus
    pure (kk, r)

/-- `100.0 * mperf / tsc` and `tsc / 1000000000 * aperf / mperf / dt`; a value
that is not there reads as zero. -/
def shares (look : Text → ℚ) (suffix : Text) (dt : ℚ) : Except Die (ℚ × ℚ) := do
  let tsc := look ("tsc".toList ++ suffix)
  let aperf := look ("aperf".toList ++ suffix)
  let mperf := look ("mperf".toList ++ suffix)
  let pct ← div (100 * mperf) tsc
  let cycles ← div (tsc / 1000000000 * aperf) mperf
  let ghz ← div cycles dt
  pure (round0 pct, round00 ghz)

/-- The end of `getdata`, once the counters are updated.  There is no guard
against equal timestamps here. -/
def publish (numCpus : Nat) (dt : ℚ) (delta : List (Text × ℚ)) :
    Except Die (List (Text × Datum)) := do
  let avg ← averages numCpus delta
  let all ← shares (fun k => (avg.lookup k).getD 0) [] dt
  let each ← (List.range numCpus).mapM fun k =>
    shares (fun k => (delta.lookup k).getD 0) (' ' :: decimal k) dt
  pure [("tstat_c0pct".toList, .num all.1), ("tstat_ghz".toList, .num all.2),
    ("tstat_clist".toList, .commas (each.map fun x => some x.1)),
    ("tstat_glist".toList, .commas (each.map fun x => some x.2))]

/-- `getdata`. -/
def getdata (self : Turbostat) (call : Int × Text) :
    Except Die (Turbostat × List (Text × Datum)) :=
  if self.tsEnable then do
    let st ← feed Wrapctr.update Die.undefMethod (fun ds k d => ds ++ [(k, d)]) (self.ctr, [])
      ((readMsr call.2).map fun p => (p.1, numify p.2))
    let out ← publish self.numCpus ((call.1 - self.lastTstamp : Int) : ℚ) st.2
    pure ({ self with ctr := st.1, lastTstamp := call.1 }, out)
  else
    pure ({ self with lastTstamp := call.1 },
      ["tstat_c0pct", "tstat_ghz", "tstat_clist", "tstat_glist"].map fun k =>
        (k.toList, .str "n_a".toList))

end Turbostat

end Memrec
