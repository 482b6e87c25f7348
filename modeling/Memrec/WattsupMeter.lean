import Memrec.Power
import Memrec.Wattsup

/-!
# From the meter to the data hash

`power` runs `wattsup -c 1 ttyUSB0 watts`, which clears the meter, starts its logging, prints
one value of the first good record, and stops the logging.  A record that
cannot be read is asked for once more; then the meter is reset, and the third bad
record ends the program.

* `readData_records`: which records are printed, for any number of records, any meter and
  any failures of the serial line.
* `power_publishes_meter`: what `power` publishes.
-/

namespace Memrec.Wattsup

open CLang Perl

/-! ## The serial line -/

/-- What one `select` and `read` give: not more bytes than asked for. -/
inductive Input
  | bytes (s : CStr) (fits : s.length ≤ wuStrlen)
  | timeout
  /-- `select` or `read` fails. -/
  | noSelect (errno : Nat)
  | noRead (errno : Nat)

/-- What one `write` gives. -/
inductive Output
  | wrote (n : Nat)
  | fail (errno : Nat)

/-- The messages on the standard error. -/
inductive Message
  | overflow
  | write
  | noSelect
  | noRead
  | clear
  | start
  | stop
  | stamp
  | giveUp

/-- Their texts. -/
def Message.text : Message → Text
  | overflow => "Overflowed command string".toList
  | write => "Writing to device".toList
  | noSelect => "select on terminal device".toList
  | noRead => "Reading from device".toList
  | clear => "Clearing memory".toList
  | start => "Starting External Logging".toList
  | stop => "Stopping External Logging".toList
  | stamp => "Reading final time stamp".toList
  | giveUp => "Blech. Giving up on read".toList

/-- The process and its meter: what the next calls will give, and what has been printed.  A
meter that has nothing more to say is silent, and takes what is sent. -/
structure Meter where
  reads : List Input
  writes : List Output
  sent : List CStr
  errno : Nat
  out : Text
  err : List (Message × Option Nat)

def EFAULT : Nat := 14
def ETIME : Nat := 62
def EOVERFLOW : Nat := 75

/-- `perr`, which adds the text of `errno`, and `err`. -/
def perr (msg : Message) (m : Meter) : Meter := { m with err := m.err ++ [(msg, some m.errno)] }

def err (msg : Message) (m : Meter) : Meter := { m with err := m.err ++ [(msg, none)] }

/-- `wu_write`: whether it returns 0. -/
def wuWrite (p : WuPacket) (m : Meter) : Bool × Meter :=
  match p.buffer with
  | none => (false, err .overflow { m with errno := EOVERFLOW })
  | some buf =>
  match m.writes with
  | [] => (true, { m with sent := m.sent ++ [buf] })
  | .fail e :: ws => (false, perr .write { m with writes := ws, errno := e })
  | .wrote n :: ws =>
      let m := { m with writes := ws, sent := m.sent ++ [buf.take n] }
      (true, if n ≠ buf.length then perr .write m else m)

/-- `wu_read`: the packet, if it returns 0. -/
def wuRead (m : Meter) : Except Fault (Option WuPacket × Meter) :=
  match m.reads with
  | [] => pure (none, { m with errno := ETIME })
  | .timeout :: rs => pure (none, { m with reads := rs, errno := ETIME })
  | .noSelect e :: rs => pure (none, perr .noSelect { m with reads := rs, errno := e })
  | .noRead e :: rs => pure (none, perr .noRead { m with reads := rs, errno := e })
  | .bytes s _ :: rs => do
      match ← parsePacket s with
      | some p => pure (some p, { m with reads := rs })
      | none => pure (none, { m with reads := rs, errno := EFAULT })

/-- The packets without parameters. -/
def request (cmd subCmd : Char) : WuPacket := ⟨chr cmd, chr subCmd, [], Nat.zero_le _⟩

/-- `wu_clear`; what it returns is not used. -/
def wuClear (m : Meter) : Except Fault Meter := do
  let r := wuWrite (request 'R' 'W') m
  let m := if r.1 then r.2 else perr .clear r.2
  -- dummy read
  let r ← wuRead m
  pure r.2

/-- `wu_start_log`: whether it returns 0. -/
def wuStartLog (m : Meter) : Bool × Meter :=
  let r := wuWrite ⟨chr 'L', chr 'W', [cstr "E", cstr "1", cstr "1"], by decide⟩ m
  if r.1 then r else (false, perr .start r.2)

/-- `wu_stop_log`; what it returns is not used. -/
def wuStopLog (m : Meter) : Except Fault Meter :=
  let r := wuWrite (request 'L' 'R') m
  if r.1 then do
    let r ← wuRead r.2
    match r.1 with
    | some _ => pure r.2
    | none => pure (perr .stamp r.2)
  else pure (perr .stop r.2)

/-! ## The output -/

/-- The settings: `wu_count`, `wu_delim`, `wu_newline`, `wu_label` and the fields that are
enabled. -/
structure Options where
  count : Int
  delim : Text
  newline : Bool
  label : Bool
  enable : List Nat

/-- The labels in `wu_read_data`. -/
def dataLabels : List Text :=
  ["watts", "volts", "amps", "watt hours", "cost", "mo. kWh", "mo. cost", "max watts", "max volts",
    "max amps", "min watts", "min volts", "min amps", "power factor", "duty cycle",
    "power cycle"].map String.toList

/-- The names in `wu_fields`. -/
def fieldNames : List String :=
  ["watts", "volts", "amps", "kwh", "cost", "mo-kwh", "mo-cost", "max-watts", "min-volts",
    "max-amps", "min-watts", "max-volts", "min-amps", "power-factor", "duty-cycle", "power-cycle"]

/-- `enable_field( name )`: a name that is not there is compared with the null pointer of
the 17th field. -/
def enableField (name : Text) (o : Options) : Option Options :=
  (fieldNames.findIdx? fun n => lc n.toList == lc name).map fun i =>
    { o with enable := i :: o.enable }

/-- The nearest number, and of two that are as near the even one. -/
def nearest (x : ℚ) : Int :=
  if x - ⌊x⌋ < 1 / 2 then ⌊x⌋
  else if x - ⌊x⌋ > 1 / 2 then ⌊x⌋ + 1
  else if ⌊x⌋ % 2 = 0 then ⌊x⌋ else ⌊x⌋ + 1

/-- `sprintf( "%.1f", x )`. -/
def tenths (x : ℚ) : Text :=
  let n := (nearest (|x| * 10)).toNat
  (if x < 0 then ['-'] else []) ++ (decimal (n / 10 : Nat) ++ '.' :: decimal (n % 10 : Nat))

/-- `strtod( s, NULL )`. -/
def strtod (s : CStr) : ℚ := numify (s.map fun c => Char.ofNat c.toNat)

/-- `print_packet_filter( p, filter_data )`: the line it prints. -/
def filteredLine (o : Options) (p : WuPacket) : Text :=
  join (if o.newline then ['\n'] else o.delim)
    ((p.field.zipIdx.filter fun f => o.enable.contains f.2).map fun f =>
      (if o.label then '[' :: (dataLabels.getD f.2 "(null)".toList ++ "] ".toList) else []) ++
        tenths (strtod f.1 / 10)) ++ ['\n']

/-- `wu_read_data`, as far as it gets in some rounds of its loop. -/
def wuReadData (o : Options) : Nat → (retry i : Nat) → Meter → Except Fault (Option Meter)
  | 0, _, _, _ => pure none
  | rounds + 1, retry, i, m => do
      let r ← wuRead m
      match r.1 with
      | none =>
          if retry + 1 < 2 then wuReadData o rounds (retry + 1) i r.2
          else if retry + 1 = 2 then do
            let m ← wuStopLog r.2
            let m ← wuClear m
            wuReadData o rounds (retry + 1) i (wuStartLog m).2
          else pure (some (perr .giveUp r.2))
      | some p =>
          let m := { r.2 with out := r.2.out ++ filteredLine o p }
          if o.count ≠ 0 ∧ ((i + 1 : Nat) : Int) = o.count then pure (some m)
          else wuReadData o rounds 0 (i + 1) m

/-- `main`, once the line is set up, when no option asks for anything but data. -/
def wattsup (o : Options) (rounds : Nat) (m : Meter) : Except Fault (Option Meter) := do
  let m ← wuClear m
  let r := wuStartLog m
  if r.1 then do
    match ← wuReadData o rounds 0 0 r.2 with
    | none => pure none
    | some m => some <$> wuStopLog m
  else pure (some r.2)

/-! ## The records -/

/-- What a read gives, as a record. -/
def record : Input → Except Fault (Option WuPacket)
  | .bytes s _ => parsePacket s
  | _ => pure none

/-- No record has more parameters than the array. -/
def Readable (rs : List Input) : Prop := ∀ i ∈ rs, ∃ r, record i = .ok r

/-- The record that the next read gives. -/
def good (rs : List Input) : Option WuPacket :=
  match rs.head?.map record with
  | some (.ok r) => r
  | _ => none

/-- The next write succeeds. -/
def accepted : List Output → Bool
  | .fail _ :: _ => false
  | _ => true

/-- The first good record of three, and what is left: between the second and the third, the
reset takes three writes and two reads, or one read if the logging cannot be
stopped. -/
def nextRecord (rs : List Input) (ws : List Output) :
    Option (WuPacket × List Input × List Output) :=
  match good rs with
  | some p => some (p, rs.tail, ws)
  | none =>
  match good rs.tail with
  | some p => some (p, rs.tail.tail, ws)
  | none =>
      let third := if accepted ws then rs.tail.tail.tail.tail else rs.tail.tail.tail
      (good third).map fun p => (p, third.tail, ws.tail.tail.tail)

/-- The records that are printed, until there are `n` of them or three bad ones. -/
def printed : Nat → List Input → List Output → List WuPacket
  | 0, _, _ => []
  | n + 1, rs, ws =>
      match nextRecord rs ws with
      | none => []
      | some (p, rs, ws) => p :: printed n rs ws

/-- Nothing has been printed, and this is what the next calls will give. -/
structure Silent (m m' : Meter) (rs : List Input) (ws : List Output) : Prop where
  reads : m'.reads = rs
  writes : m'.writes = ws
  out : m'.out = m.out

theorem Readable.tail {rs : List Input} (h : Readable rs) : Readable rs.tail :=
  fun i hi => h i (List.mem_of_mem_tail hi)

theorem wuRead_eq {m : Meter} (h : Readable m.reads) :
    ∃ m', wuRead m = .ok (good m.reads, m') ∧ Silent m m' m.reads.tail m.writes := by
  unfold wuRead good
  cases hrs : m.reads with
  | nil => exact ⟨_, rfl, ⟨rfl, rfl, rfl⟩⟩
  | cons i rs =>
      cases i with
      | timeout => exact ⟨_, rfl, ⟨rfl, rfl, rfl⟩⟩
      | noSelect e => exact ⟨_, rfl, ⟨rfl, rfl, rfl⟩⟩
      | noRead e => exact ⟨_, rfl, ⟨rfl, rfl, rfl⟩⟩
      | bytes s fits =>
          obtain ⟨r, hr⟩ := h (.bytes s fits) (hrs ▸ List.mem_cons_self)
          have hparse : parsePacket s = .ok r := hr
          simp only [List.head?_cons, Option.map_some, record, hparse]
          cases r with
          | none => exact ⟨_, rfl, ⟨rfl, rfl, rfl⟩⟩
          | some p => exact ⟨_, rfl, ⟨rfl, rfl, rfl⟩⟩

theorem wuWrite_eq {p : WuPacket} {buf : CStr} (hp : p.buffer = some buf) (m : Meter) :
    (wuWrite p m).1 = accepted m.writes ∧
      Silent m (wuWrite p m).2 m.reads m.writes.tail := by
  unfold wuWrite
  rw [hp]
  dsimp only
  cases hws : m.writes with
  | nil => exact ⟨rfl, ⟨rfl, rfl, rfl⟩⟩
  | cons o ws =>
      cases o with
      | fail e => exact ⟨rfl, ⟨rfl, rfl, rfl⟩⟩
      | wrote n =>
          refine ⟨rfl, ?_⟩
          dsimp only
          split
          · exact ⟨rfl, rfl, rfl⟩
          · exact ⟨rfl, rfl, rfl⟩

theorem buffer_clear : (request 'R' 'W').buffer = some (cstr "#R,W,0;") := by decide

theorem buffer_start : WuPacket.buffer
    ⟨chr 'L', chr 'W', [cstr "E", cstr "1", cstr "1"], by decide⟩ =
      some (cstr "#L,W,3,E,1,1;") := by decide

theorem buffer_stop : (request 'L' 'R').buffer = some (cstr "#L,R,0;") := by decide

theorem Silent.trans {m m' m'' : Meter} {rs rs' : List Input} {ws ws' : List Output}
    (h : Silent m m' rs ws) (h' : Silent m' m'' rs' ws') : Silent m m'' rs' ws' :=
  ⟨h'.reads, h'.writes, h'.out.trans h.out⟩

theorem Silent.perr {m m' : Meter} {rs : List Input} {ws : List Output} (h : Silent m m' rs ws)
    (msg : Message) : Silent m (perr msg m') rs ws :=
  ⟨h.reads, h.writes, h.out⟩

theorem wuClear_eq {m : Meter} (h : Readable m.reads) :
    ∃ m', wuClear m = .ok m' ∧ Silent m m' m.reads.tail m.writes.tail := by
  obtain ⟨-, hw⟩ := wuWrite_eq buffer_clear m
  have hcleared : Silent m (if (wuWrite (request 'R' 'W') m).1 then (wuWrite (request 'R' 'W') m).2
      else perr .clear (wuWrite (request 'R' 'W') m).2) m.reads m.writes.tail := by
    split
    · exact hw
    · exact hw.perr _
  obtain ⟨m', hread, hm'⟩ := wuRead_eq (hcleared.reads ▸ h)
  rw [hcleared.reads, hcleared.writes] at hm'
  refine ⟨m', ?_, hcleared.trans hm'⟩
  unfold wuClear
  dsimp only
  rw [hread]
  rfl

theorem wuStartLog_eq (m : Meter) :
    (wuStartLog m).1 = accepted m.writes ∧ Silent m (wuStartLog m).2 m.reads m.writes.tail := by
  obtain ⟨hok, hw⟩ := wuWrite_eq buffer_start m
  unfold wuStartLog
  dsimp only
  cases hacc : accepted m.writes with
  | true =>
      rw [hok, hacc, if_pos rfl]
      exact ⟨hok.trans hacc, hw⟩
  | false =>
      rw [hok, hacc, if_neg Bool.false_ne_true]
      exact ⟨rfl, hw.perr _⟩

theorem wuStopLog_eq {m : Meter} (h : Readable m.reads) :
    ∃ m', wuStopLog m = .ok m' ∧
      Silent m m' (if accepted m.writes then m.reads.tail else m.reads) m.writes.tail := by
  obtain ⟨hok, hw⟩ := wuWrite_eq buffer_stop m
  unfold wuStopLog
  dsimp only
  cases hacc : accepted m.writes with
  | true =>
      rw [hok, hacc, if_pos rfl, if_pos rfl]
      obtain ⟨m', hread, hm'⟩ := wuRead_eq (hw.reads ▸ h)
      rw [hw.reads, hw.writes] at hm'
      rw [hread, CellBank.ok_bind]
      cases hgood : good (wuWrite (request 'L' 'R') m).2.reads with
      | some p => exact ⟨m', rfl, hw.trans hm'⟩
      | none => exact ⟨_, rfl, (hw.trans hm').perr _⟩
  | false =>
      rw [hok, hacc, if_neg Bool.false_ne_true, if_neg Bool.false_ne_true]
      exact ⟨_, rfl, hw.perr _⟩

/-! ## The loop -/

section Loop

variable {o : Options} {m : Meter} (h : Readable m.reads) (rounds i : Nat)

/-- What the loop does with a good record. -/
def printRecord (o : Options) (rounds i : Nat) (p : WuPacket) (m : Meter) :
    Except Fault (Option Meter) :=
  if o.count ≠ 0 ∧ ((i + 1 : Nat) : Int) = o.count then
    pure (some { m with out := m.out ++ filteredLine o p })
  else wuReadData o rounds 0 (i + 1) { m with out := m.out ++ filteredLine o p }

include h

theorem readData_good {p : WuPacket} (hp : good m.reads = some p) (retry : Nat) :
    ∃ m₁, Silent m m₁ m.reads.tail m.writes ∧
      wuReadData o (rounds + 1) retry i m = printRecord o rounds i p m₁ := by
  obtain ⟨m₁, hread, hm₁⟩ := wuRead_eq h
  refine ⟨m₁, hm₁, ?_⟩
  rw [wuReadData, hread, hp]
  rfl

/-- The first bad record. -/
theorem readData_again (hbad : good m.reads = none) :
    ∃ m₁, Silent m m₁ m.reads.tail m.writes ∧
      wuReadData o (rounds + 1) 0 i m = wuReadData o rounds 1 i m₁ := by
  obtain ⟨m₁, hread, hm₁⟩ := wuRead_eq h
  refine ⟨m₁, hm₁, ?_⟩
  rw [wuReadData, hread, hbad]
  rfl

/-- The second one, and the reset. -/
theorem readData_reset (hbad : good m.reads = none) :
    ∃ m₁, Silent m m₁ (if accepted m.writes then m.reads.tail.tail.tail else m.reads.tail.tail)
        m.writes.tail.tail.tail ∧
      wuReadData o (rounds + 1) 1 i m = wuReadData o rounds 2 i m₁ := by
  obtain ⟨m₁, hread, hm₁⟩ := wuRead_eq h
  have hr₁ : Readable m₁.reads := hm₁.reads ▸ h.tail
  obtain ⟨m₂, hstop, hm₂⟩ := wuStopLog_eq hr₁
  have hr₂ : Readable m₂.reads := by
    rw [hm₂.reads]
    split
    · exact hr₁.tail
    · exact hr₁
  obtain ⟨m₃, hclear, hm₃⟩ := wuClear_eq hr₂
  obtain ⟨-, hm₄⟩ := wuStartLog_eq m₃
  have hall := ((hm₁.trans hm₂).trans hm₃).trans hm₄
  refine ⟨(wuStartLog m₃).2, ?_, ?_⟩
  · rw [hm₃.reads, hm₂.reads, hm₃.writes, hm₂.writes, hm₁.reads, hm₁.writes] at hall
    cases hacc : accepted m.writes with
    | true =>
        rw [hacc] at hall
        exact hall
    | false =>
        rw [hacc] at hall
        exact hall
  · rw [wuReadData, hread, hbad]
    simp only [CellBank.ok_bind, hstop, hclear]
    rfl

/-- The third one. -/
theorem readData_giveUp (hbad : good m.reads = none) :
    ∃ m₁, Silent m m₁ m.reads.tail m.writes ∧
      wuReadData o (rounds + 1) 2 i m = .ok (some m₁) := by
  obtain ⟨m₁, hread, hm₁⟩ := wuRead_eq h
  refine ⟨_, hm₁.perr .giveUp, ?_⟩
  rw [wuReadData, hread, hbad]
  rfl

/-- **One record.**  Within three rounds the loop comes to the next good record, or
ends. -/
theorem readData_next :
    match nextRecord m.reads m.writes with
    | none => ∃ m₁, m₁.out = m.out ∧ Readable m₁.reads ∧
        wuReadData o (rounds + 3) 0 i m = .ok (some m₁)
    | some (p, rs, ws) => ∃ m₁ k, Silent m m₁ rs ws ∧ Readable rs ∧
        wuReadData o (rounds + 3) 0 i m = printRecord o (rounds + k) i p m₁ := by
  unfold nextRecord
  cases hfirst : good m.reads with
  | some p =>
      obtain ⟨m₁, hm₁, hrun⟩ := readData_good (o := o) h (rounds + 2) i hfirst 0
      exact ⟨m₁, 2, hm₁, h.tail, hrun⟩
  | none =>
      obtain ⟨m₁, hm₁, hrun₁⟩ := readData_again (o := o) h (rounds + 2) i hfirst
      have hr₁ : Readable m₁.reads := hm₁.reads ▸ h.tail
      rw [hrun₁]
      dsimp only
      cases hsecond : good m.reads.tail with
      | some p =>
          obtain ⟨m₂, hm₂, hrun₂⟩ :=
            readData_good (o := o) hr₁ (rounds + 1) i (hm₁.reads ▸ hsecond) 1
          rw [hm₁.reads, hm₁.writes] at hm₂
          exact ⟨m₂, 1, hm₁.trans hm₂, h.tail.tail, hrun₂⟩
      | none =>
          obtain ⟨m₂, hm₂, hrun₂⟩ :=
            readData_reset (o := o) hr₁ (rounds + 1) i (hm₁.reads ▸ hsecond)
          rw [hm₁.reads, hm₁.writes] at hm₂
          rw [hrun₂]
          dsimp only
          generalize hthird : (if accepted m.writes then m.reads.tail.tail.tail.tail
            else m.reads.tail.tail.tail) = third at hm₂ ⊢
          have hreadable : Readable third := by
            rw [← hthird]
            split
            · exact h.tail.tail.tail.tail
            · exact h.tail.tail.tail
          have hr₂ : Readable m₂.reads := hm₂.reads ▸ hreadable
          cases hlast : good third with
          | some p =>
              obtain ⟨m₃, hm₃, hrun₃⟩ :=
                readData_good (o := o) hr₂ rounds i (hm₂.reads ▸ hlast) 2
              rw [hm₂.reads, hm₂.writes] at hm₃
              exact ⟨m₃, 0, (hm₁.trans hm₂).trans hm₃, hreadable.tail, hrun₃⟩
          | none =>
              obtain ⟨m₃, hm₃, hrun₃⟩ :=
                readData_giveUp (o := o) hr₂ rounds i (hm₂.reads ▸ hlast)
              exact ⟨m₃, ((hm₁.trans hm₂).trans hm₃).out, hm₃.reads ▸ hr₂.tail, hrun₃⟩

end Loop

/-- **The records that are printed.**  For any meter, `n` records take at most `3 * n` rounds,
and the output is a line for each good record that is found, in order. -/
theorem readData_records {o : Options} {n : Nat} (hn : 0 < n) {i : Nat}
    (hcount : o.count = (i + n : Nat)) {m : Meter} (h : Readable m.reads) {rounds : Nat}
    (hrounds : 3 * n ≤ rounds) :
    ∃ m', wuReadData o rounds 0 i m = .ok (some m') ∧ Readable m'.reads ∧
      m'.out = m.out ++ (printed n m.reads m.writes).flatMap (filteredLine o) := by
  induction n generalizing i m rounds with
  | zero => exact absurd hn (Nat.lt_irrefl 0)
  | succ n ih =>
      obtain ⟨k, rfl⟩ : ∃ k, rounds = k + 3 := ⟨rounds - 3, by omega⟩
      have hnext := readData_next (o := o) h k i
      rw [printed]
      cases hrecord : nextRecord m.reads m.writes with
      | none =>
          rw [hrecord] at hnext
          obtain ⟨m₁, hout, hr₁, hrun⟩ := hnext
          exact ⟨m₁, hrun, hr₁, hout.trans (List.append_nil _).symm⟩
      | some r =>
          obtain ⟨p, rs, ws⟩ := r
          rw [hrecord] at hnext
          obtain ⟨m₁, j, hm₁, hrs, hrun⟩ := hnext
          rw [hrun, printRecord]
          dsimp only
          rw [List.flatMap_cons, ← List.append_assoc]
          by_cases hlast : n = 0
          · -- it was the last one
            subst hlast
            rw [if_pos (by omega)]
            refine ⟨_, rfl, hm₁.reads ▸ hrs, ?_⟩
            rw [printed, List.flatMap_nil, List.append_nil, hm₁.out]
          · rw [if_neg (by omega)]
            obtain ⟨m', hrun', hr', hout'⟩ := @ih (Nat.pos_of_ne_zero hlast) (i + 1) (by omega)
              { m₁ with out := m₁.out ++ filteredLine o p } (hm₁.reads ▸ hrs) (k + j) (by omega)
            rw [hm₁.reads, hm₁.writes, hm₁.out] at hout'
            exact ⟨m', hrun', hr', hout'⟩

/-- A meter that is reset, and then finds its tongue. -/
def lateMeter : Meter where
  reads := [.timeout, .timeout, .bytes (cstr "#n,-,") (by decide), .timeout, .timeout,
    .bytes (cstr "#d,-,3,573,1196,48;") (by decide)]
  writes := []
  sent := []
  errno := 0
  out := []
  err := []

theorem readable_lateMeter : Readable lateMeter.reads := by
  have hshort : parsePacket (cstr "#n,-,") = .ok none := by rfl
  have hrecord : parsePacket (cstr "#d,-,3,573,1196,48;") =
      .ok (some ⟨chr 'd', chr '-', [cstr "573", cstr "1196", cstr "48"], by decide⟩) := by rfl
  intro i hi
  simp only [lateMeter, List.mem_cons, List.not_mem_nil, or_false] at hi
  rcases hi with rfl | rfl | rfl | rfl | rfl | rfl
  · exact ⟨none, rfl⟩
  · exact ⟨none, rfl⟩
  · exact ⟨none, hshort⟩
  · exact ⟨none, rfl⟩
  · exact ⟨none, rfl⟩
  · exact ⟨_, hrecord⟩

/-- Two records are asked for, and one is found. -/
theorem readData_records_late : ∃ m', wuReadData ⟨2, ", ".toList, false, false, [0, 2]⟩ 6 0 0
      { lateMeter with reads := lateMeter.reads.tail } = .ok (some m') ∧
    m'.out = filteredLine ⟨2, ", ".toList, false, false, [0, 2]⟩
      ⟨chr 'd', chr '-', [cstr "573", cstr "1196", cstr "48"], by decide⟩ := by
  obtain ⟨m', hrun, -, hout⟩ := @readData_records ⟨2, ", ".toList, false, false, [0, 2]⟩ 2
    (by decide) 0 rfl { lateMeter with reads := lateMeter.reads.tail } readable_lateMeter.tail 6
    (by decide)
  have hprinted : printed 2 lateMeter.reads.tail [] =
      [⟨chr 'd', chr '-', [cstr "573", cstr "1196", cstr "48"], by decide⟩] := by rfl
  refine ⟨m', hrun, hout.trans ?_⟩
  show (printed 2 lateMeter.reads.tail []).flatMap _ = _
  rw [hprinted, List.flatMap_singleton]

/-! ## What `power` makes of it -/

/-- A line on the standard error. -/
def errLine (strerror : Nat → Text) (e : Message × Option Nat) : Text :=
  "wattsup: [error] ".toList ++ (e.1.text ++ e.2.elim [] fun n => ": ".toList ++ strerror n)

/-- The output of the command, with `2>&1`: what is for the standard output is written at the
end. -/
def output (strerror : Nat → Text) (m : Meter) : Text :=
  (m.err.map (errLine strerror)).flatMap (· ++ ['\n']) ++ m.out

/-- `-c 1 ttyUSB0 watts`. -/
def powerOptions : Options := ⟨1, ", ".toList, false, false, [0]⟩

example : (enableField "watts".toList ⟨1, ", ".toList, false, false, []⟩).map Options.enable =
    some powerOptions.enable := by
  decide +kernel

/-- The record that is printed: the first read after that of `wu_clear` gives the first one. -/
def meterRecord (m : Meter) : Option WuPacket :=
  if accepted m.writes.tail then (nextRecord m.reads.tail m.writes.tail.tail).map Prod.fst
  else none

theorem nearest_natCast (n : Nat) : nearest n = n := by
  unfold nearest
  rw [Int.floor_natCast]
  simp

theorem tenths_natCast (w : Nat) :
    tenths ((w : ℚ) / 10) = decimal (w / 10 : Nat) ++ '.' :: decimal (w % 10 : Nat) := by
  have hpos : ¬ ((w : ℚ) / 10 < 0) := not_lt.mpr (by positivity)
  have hw : |(w : ℚ) / 10| * 10 = w := by
    rw [abs_of_nonneg (by positivity)]
    field_simp
  unfold tenths
  rw [hw, nearest_natCast, if_neg hpos]
  rfl

/-- A number with one digit behind the point. -/
theorem numify_tenths (w : Nat) : numify (tenths ((w : ℚ) / 10)) = w / 10 := by
  have hdigits : ∀ c ∈ Nat.toDigits 10 (w / 10), c.isDigit :=
    fun c hc => isDigit_of_mem_decimal hc
  have hlast : w % 10 < 10 := Nat.mod_lt _ (by decide)
  have hd : (w % 10).digitChar.isDigit = true := isDigit_digitChar hlast
  have hvalue : unsigned (Nat.toDigits 10 (w / 10) ++ '.' :: [(w % 10).digitChar]) = w / 10 := by
    have hne : Nat.toDigits 10 (w / 10) ++ [(w % 10).digitChar] ≠ [] := by simp
    have hnum : Nat.ofDigitChars 10 (Nat.toDigits 10 (w / 10) ++ [(w % 10).digitChar]) 0 = w := by
      rw [Nat.ofDigitChars_append, Nat.ofDigitChars_ten_toDigits,
        Nat.ofDigitChars_cons_digitChar_of_lt_ten hlast, Nat.ofDigitChars_nil]
      omega
    simp [unsigned, List.takeWhile_append_of_pos hdigits, List.dropWhile_append_of_pos hdigits,
      fraction, exponent, hd, hnum]
  obtain ⟨c, ds, hds⟩ := List.exists_cons_of_ne_nil (Nat.toDigits_ne_nil (n := w / 10) (b := 10))
  have hc : c.isDigit := hdigits c (by rw [hds]; exact List.mem_cons_self)
  have hspace : isSpace c = false := not_space_of_isDigit hc
  rw [tenths_natCast, decimal_of_lt hlast]
  show numify (Nat.toDigits 10 (w / 10) ++ '.' :: [(w % 10).digitChar]) = w / 10
  rw [← hvalue, numify, hds, List.cons_append, List.dropWhile_cons_of_neg (by simp [hspace])]
  split
  · next h => exact absurd ((List.cons.inj h).1 ▸ hc) (by decide)
  · next h => exact absurd ((List.cons.inj h).1 ▸ hc) (by decide)
  · rfl

theorem strtod_decimal (w : Nat) : strtod ((decimal w).map chr) = w := by
  have hmap : ((decimal w).map chr).map (fun c => Char.ofNat c.toNat) = decimal w := by
    rw [List.map_map]
    refine (List.map_congr_left ?_).trans (List.map_id _)
    intro c hc
    have hdigit := isDigit_of_mem_decimal hc
    have hsmall : c.toNat < 256 := by
      simp only [Char.isDigit, Bool.and_eq_true, decide_eq_true_eq,
        UInt32.le_iff_toNat_le] at hdigit
      exact hdigit.2.trans_lt (by decide)
    have hbyte : (chr c).toNat = c.toNat := UInt8.toNat_ofNat_of_lt' hsmall
    rw [Function.comp_apply, hbyte, Char.ofNat_toNat]
    rfl
  rw [strtod, hmap, numify_decimal]

theorem filteredLine_watts {p : WuPacket} {w : Nat} {fs : List CStr}
    (h : p.field = (decimal w).map chr :: fs) :
    filteredLine powerOptions p = tenths ((w : ℚ) / 10) ++ ['\n'] := by
  have hrest : (fs.zipIdx 1).filter (fun f => powerOptions.enable.contains f.2) = [] := by
    rw [List.filter_eq_nil_iff]
    intro f hf
    have := List.le_snd_of_mem_zipIdx hf
    simp [powerOptions]
    omega
  unfold filteredLine
  rw [h, List.zipIdx_cons, List.filter_cons_of_pos rfl, hrest]
  simp [strtod_decimal, powerOptions, join]

theorem capture_reading_of_notMem {name : Pat Unit} (hname : Pat.Shrinks name) {s : Text}
    (h : '|' ∉ s) : Pat.capture (Power.reading name) s = none := by
  have hspace : Pat.Shrinks (Pat.many1 isSpace) := by
    refine Pat.Shrinks.bind (Pat.shrinks_cls _) fun c => Pat.Shrinks.bind ?_ fun w =>
      Pat.shrinks_pure _
    intro u x hx
    rw [(Pat.mem_many hx).1]
    exact List.suffix_append _ _
  apply Pat.capture_eq_none
  intro t ht
  unfold Power.reading
  rw [Pat.bind_apply, List.flatMap_eq_nil_iff]
  intro x hx
  rw [Pat.bind_apply, List.flatMap_eq_nil_iff]
  intro y hy
  have hno : ¬ ['|'] <+: y.2 := by
    intro hbar
    have hmem : '|' ∈ y.2 := hbar.subset List.mem_cons_self
    have hsub := (hspace _ y hy).trans ((hname t x hx).trans ht)
    exact h (hsub.subset hmem)
  rw [Pat.bind_apply, Pat.lit_eq_nil hno]
  rfl

/-- A line without a bar gives a number only if it starts with one. -/
theorem scanLine_of_notMem {l : Text} (h : '|' ∉ l) (herror : ¬ "Error".toList <+: l)
    (hline : ∀ c ∈ l, notNl c) :
    Power.scanLine true (-1) (l ++ ['\n']) =
      if l.head?.any Char.isDigit then (numify l, true) else (-1, false) := by
  have hbar : '|' ∉ l ++ ['\n'] := by
    rw [List.mem_append]
    exact fun hmem => hmem.elim h (by decide)
  have hsupply : Pat.Shrinks Power.supplyName :=
    .bind (Pat.shrinks_lit _) fun _ => .bind (Pat.shrinks_cls _) fun _ => Pat.shrinks_lit _
  have hno : ¬ "Error".toList <+: l ++ ['\n'] := by
    intro hp
    rcases List.prefix_concat_iff.mp hp with heq | hp
    · exact absurd (congrArg List.getLast? heq) (by rw [List.getLast?_concat]; decide)
    · exact herror hp
  have herr : Pat.atStart (Pat.lit "Error".toList) (l ++ ['\n']) = none := by
    rw [Pat.atStart, Pat.lit_eq_nil hno]
    rfl
  unfold Power.scanLine
  rw [capture_reading_of_notMem (Pat.shrinks_lit _) hbar,
    capture_reading_of_notMem (Pat.shrinks_lit _) hbar, capture_reading_of_notMem hsupply hbar,
    herr, if_pos rfl, Power.meterLine_of_line hline]
  by_cases hdigit : l.head?.any Char.isDigit = true
  · rw [if_pos hdigit, if_pos hdigit]
  · rw [if_neg hdigit, if_neg hdigit]
    rfl

theorem notMem_tenths {c : Char} (hdigit : c.isDigit = false) (hdot : c ≠ '.') (w : Nat) :
    c ∉ tenths ((w : ℚ) / 10) := by
  have hdigits : ∀ n : Nat, c ∉ decimal n := by
    intro n hmem
    rw [isDigit_of_mem_decimal hmem] at hdigit
    cases hdigit
  rw [tenths_natCast, List.mem_append, List.mem_cons]
  exact fun hmem => hmem.elim (hdigits _) fun hmem => hmem.elim hdot (hdigits _)

section Errors

variable {strerror : Nat → Text} (hstr : ∀ e, '|' ∉ strerror e ∧ '\n' ∉ strerror e)

include hstr

/-- No message has a bar in it, or a second line. -/
theorem notMem_errLine (e : Message × Option Nat) :
    '|' ∉ errLine strerror e ∧ '\n' ∉ errLine strerror e := by
  have htext : ∀ msg : Message, '|' ∉ msg.text ∧ '\n' ∉ msg.text := by
    intro msg
    cases msg <;> decide
  obtain ⟨msg, n⟩ := e
  have hcode : '|' ∉ (n.elim [] fun n => ": ".toList ++ strerror n) ∧
      '\n' ∉ (n.elim [] fun n => ": ".toList ++ strerror n) := by
    cases n with
    | none => exact ⟨List.not_mem_nil, List.not_mem_nil⟩
    | some n =>
        constructor
        · exact fun hmem => (List.mem_append.mp hmem).elim (by decide) (hstr n).1
        · exact fun hmem => (List.mem_append.mp hmem).elim (by decide) (hstr n).2
  unfold errLine
  simp only [List.mem_append, not_or]
  exact ⟨⟨by decide, (htext msg).1, hcode.1⟩, by decide, (htext msg).2, hcode.2⟩

/-- The messages do not matter. -/
theorem scan_errLines (es : List (Message × Option Nat)) (ls : List Text) :
    Power.scan true (-1) ((es.map fun e => errLine strerror e ++ ['\n']) ++ ls) =
      Power.scan true (-1) ls := by
  induction es with
  | nil => rfl
  | cons e es ih =>
      obtain ⟨hbar, hnl⟩ := notMem_errLine hstr e
      have hline : ∀ c ∈ errLine strerror e, notNl c := by
        intro c hc
        rw [notNl, bne_iff_ne]
        intro hc'
        exact hnl (hc' ▸ hc)
      have hdigit : ¬ (errLine strerror e).head?.any Char.isDigit = true :=
        Bool.false_ne_true
      have herror : ¬ "Error".toList <+: errLine strerror e := by
        intro hp
        obtain ⟨u, hu⟩ := hp
        exact absurd (List.cons.inj hu).1 (by decide)
      rw [List.map_cons, List.cons_append, Power.scan, scanLine_of_notMem hbar herror hline,
        if_neg hdigit]
      exact ih

theorem scan_output (m : Meter) (w : Option Nat)
    (hout : m.out = (w.elim [] fun w => tenths ((w : ℚ) / 10) ++ ['\n'])) :
    Power.scan true (-1) (readlines (output strerror m)) =
      w.elim (-1) fun w => (w : ℚ) / 10 := by
  have hvalue : ∀ l ∈ (w.elim [] fun w => [tenths ((w : ℚ) / 10)]), '\n' ∉ l := by
    intro l hl
    cases w with
    | none => cases hl
    | some w =>
        rw [List.mem_singleton.mp hl]
        exact notMem_tenths rfl (by decide) w
  have hlines : ∀ l ∈ (m.err.map (errLine strerror)) ++
      (w.elim [] fun w => [tenths ((w : ℚ) / 10)]), '\n' ∉ l := by
    intro l hl
    rcases List.mem_append.mp hl with hl | hl
    · obtain ⟨e, -, rfl⟩ := List.mem_map.mp hl
      exact (notMem_errLine hstr e).2
    · exact hvalue l hl
  have hout' : output strerror m = ((m.err.map (errLine strerror)) ++
      (w.elim [] fun w => [tenths ((w : ℚ) / 10)])).flatMap (· ++ ['\n']) := by
    rw [output, hout, List.flatMap_append]
    cases w with
    | none => rfl
    | some w =>
        rw [Option.elim_some, Option.elim_some, List.flatMap_singleton]
  rw [hout', readlines_unlines hlines, List.map_append, List.map_map]
  refine (scan_errLines hstr m.err _).trans ?_
  cases w with
  | none => rfl
  | some w =>
      have hline : ∀ c ∈ tenths ((w : ℚ) / 10), notNl c := by
        intro c hc
        rw [notNl, bne_iff_ne]
        intro heq
        exact notMem_tenths rfl (by decide) w (heq ▸ hc)
      have herror : ¬ "Error".toList <+: tenths ((w : ℚ) / 10) := by
        intro hp
        exact notMem_tenths rfl (by decide) w (hp.subset List.mem_cons_self)
      have hdigit : (tenths ((w : ℚ) / 10)).head?.any Char.isDigit = true := by
        obtain ⟨c, ds, hds⟩ := List.exists_cons_of_ne_nil (decimal_ne_nil (w / 10 : Nat))
        have hc : c.isDigit = true := isDigit_of_mem_decimal (hds ▸ List.mem_cons_self)
        rw [tenths_natCast, hds, List.cons_append, List.head?_cons, Option.any_some]
        exact hc
      rw [Option.elim_some, List.map_singleton, Power.scan,
        scanLine_of_notMem (notMem_tenths rfl (by decide) w) herror hline, if_pos hdigit]
      exact numify_tenths w

end Errors

/-- A record as the meter sends it: the first parameter is a number of tenths of a Watt. -/
def Sent (p : WuPacket) : Prop := ∃ (w : Nat) (fs : List CStr), p.field = (decimal w).map chr :: fs

/-- The number of Watts in a record. -/
def recordWatts (p : WuPacket) : ℚ := strtod (p.field.headD []) / 10

/-- **What the command prints** for one record: its number of Watts, if there is one. -/
theorem wattsup_prints {m : Meter} (h : Readable m.reads) (hout : m.out = []) {rounds : Nat}
    (hrounds : 3 ≤ rounds) :
    ∃ m', wattsup powerOptions rounds m = .ok (some m') ∧
      m'.out = (meterRecord m).elim [] (filteredLine powerOptions) := by
  obtain ⟨m₁, hclear, hm₁⟩ := wuClear_eq h
  obtain ⟨hok, hm₂⟩ := wuStartLog_eq m₁
  have hr₂ : Readable (wuStartLog m₁).2.reads := by
    rw [hm₂.reads, hm₁.reads]
    exact h.tail
  have hsilent := hm₁.trans hm₂
  rw [hm₁.reads, hm₁.writes] at hsilent
  rw [hm₁.writes] at hok
  unfold wattsup meterRecord
  rw [hclear, CellBank.ok_bind]
  dsimp only
  cases hacc : accepted m.writes.tail with
  | false =>
      rw [hok, hacc, if_neg Bool.false_ne_true, if_neg Bool.false_ne_true]
      exact ⟨_, rfl, hsilent.out.trans hout⟩
  | true =>
      rw [hok, hacc, if_pos rfl, if_pos rfl]
      obtain ⟨m₃, hdata, hr₃, hout₃⟩ := readData_records (o := powerOptions) (n := 1) (i := 0)
        (by decide) rfl hr₂ hrounds
      obtain ⟨m₄, hstop, hm₄⟩ := wuStopLog_eq hr₃
      rw [hdata, CellBank.ok_bind]
      dsimp only
      rw [hstop]
      refine ⟨m₄, rfl, ?_⟩
      rw [hm₄.out, hout₃, hsilent.out, hout, List.nil_append, hsilent.reads, hsilent.writes,
        printed]
      cases nextRecord m.reads.tail m.writes.tail.tail with
      | none => rfl
      | some r =>
          obtain ⟨p, rs, ws⟩ := r
          exact List.append_nil _

/-- The command that is run. -/
theorem new_usb {vars : Power.Vars} {usb : Bool}
    (h : vars.forceUsb = true ∨ usb = true ∧ vars.forceIpmi = false) :
    (Power.new vars usb).cmd1 = Power.usbCmd ∧ (Power.new vars usb).wuFlag = true := by
  unfold Power.new
  rcases h with h | ⟨rfl, h⟩
  · rw [h]
    exact ⟨rfl, rfl⟩
  · rw [h]
    cases vars.forceUsb with
    | true => exact ⟨rfl, rfl⟩
    | false => exact ⟨rfl, rfl⟩

/-- **From the meter to the data hash.**  Whatever the meter says and however the line
fails, as long as no record has too many parameters, the module publishes
the number of Watts in the record that is found, and otherwise that
there is none, or that the time was up. -/
theorem power_publishes_meter {strerror : Nat → Text}
    (hstr : ∀ e, '|' ∉ strerror e ∧ '\n' ∉ strerror e) {vars : Power.Vars} {usb : Bool}
    (hcmd : vars.forceUsb = true ∨ usb = true ∧ vars.forceIpmi = false) {m : Meter}
    (h : Readable m.reads) (hsent : ∀ p, meterRecord m = some p → Sent p) (hout : m.out = [])
    {rounds : Nat} (hrounds : 3 ≤ rounds) (dref : Hash Text Scalar) (timeout : Bool) :
    ∃ m', wattsup powerOptions rounds m = .ok (some m') ∧
      (Power.getdata (Power.new vars usb) dref (output strerror m') timeout).lookup
        "watts".toList = some (.num ((meterRecord m).elim
          (if timeout then -(13 / 10) else -1) recordWatts)) := by
  obtain ⟨m', hrun, hprinted⟩ := wattsup_prints h hout hrounds
  refine ⟨m', hrun, ?_⟩
  obtain ⟨hcmd, hflag⟩ := new_usb hcmd
  have hne : Power.usbCmd ≠ [] := by decide
  rw [Power.getdata, AList.lookup_insert, Power.watts, hcmd, if_pos hne, hflag]
  cases hrecord : meterRecord m with
  | none =>
      rw [hrecord] at hprinted
      rw [scan_output hstr m' none hprinted]
      cases timeout with
      | false => rfl
      | true => exact congrArg (fun x => some (Scalar.num x)) (if_pos ⟨rfl, by norm_num⟩)
  | some p =>
      obtain ⟨w, fs, hfield⟩ := hsent p hrecord
      rw [hrecord, Option.elim_some, filteredLine_watts hfield] at hprinted
      have hwatts : recordWatts p = (w : ℚ) / 10 := by
        rw [recordWatts, hfield, List.headD_cons, strtod_decimal]
      have hnot : ¬ (timeout = true ∧ (w : ℚ) / 10 < 0) :=
        fun hlt => absurd hlt.2 (not_lt.mpr (by positivity))
      rw [scan_output hstr m' (some w) hprinted, Option.elim_some, Option.elim_some, if_neg hnot,
        hwatts]

theorem meterRecord_lateMeter : meterRecord lateMeter =
    some ⟨chr 'd', chr '-', [cstr "573", cstr "1196", cstr "48"], by decide⟩ := by
  rfl

theorem power_publishes_meter_late : ∃ m', wattsup powerOptions 3 lateMeter = .ok (some m') ∧
    (Power.getdata (Power.new Power.Vars.default true) ∅
      (output (fun _ => "Timer expired".toList) m') false).lookup "watts".toList =
        some (.num (573 / 10)) := by
  have hsent : ∀ p, meterRecord lateMeter = some p → Sent p := by
    intro p hp
    obtain rfl := Option.some.inj (meterRecord_lateMeter.symm.trans hp)
    exact ⟨573, [cstr "1196", cstr "48"], rfl⟩
  obtain ⟨m', hrun, hwatts⟩ := @power_publishes_meter (fun _ => "Timer expired".toList)
    (fun _ => ⟨by decide, by decide⟩) Power.Vars.default true (Or.inr ⟨rfl, rfl⟩) lateMeter
    readable_lateMeter hsent rfl 3 (Nat.le_refl 3) ∅ false
  have hvalue : recordWatts ⟨chr 'd', chr '-', [cstr "573", cstr "1196", cstr "48"], by decide⟩ =
      573 / 10 := by
    have := strtod_decimal 573
    exact congrArg (· / 10) this
  rw [meterRecord_lateMeter, Option.elim_some, hvalue] at hwatts
  exact ⟨m', hrun, hwatts⟩

end Memrec.Wattsup
