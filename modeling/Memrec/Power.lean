import Memrec.HashTable
import Memrec.NetinfoWindow
import Memrec.Prep

/-!
# The power supplies

`power` reads the output of `ipmitool`, or of a meter on a serial line, until it finds a
line with the power that the machine draws.  Three vendors name that line differently.
On one of them every power supply has a line of its own, and the branch for it adds to
what an earlier supply has given; but then it leaves the loop like the others, so that
there never is an earlier one.

`watts_eq_total_iff` says when this does not matter: when the supply at which the loop
stops carries everything and the others read zero together.
-/

namespace Memrec.Power

open Perl Pat Hash

/-! ## The module -/

/-- The package variables. -/
structure Vars where
  ipmitoolCmd : Text
  ipmiTimeout : ℚ
  forceIpmi : Bool
  forceUsb : Bool

/-- The values that the file gives them. -/
def Vars.default : Vars where
  ipmitoolCmd := "/usr/bin/ipmitool".toList
  ipmiTimeout := 15
  forceIpmi := false
  forceUsb := false

/-- `prep( key, val )`. -/
def prep (vars : Vars) (key val : Text) : Vars :=
  if lc key = "ipmitool".toList then { vars with ipmitoolCmd := val }
  else if lc key = "ipmi_timeout".toList then { vars with ipmiTimeout := numify val }
  else if lc key = "force_ipmi".toList then { vars with forceIpmi := convertToYesno val }
  else if lc key = "force_usb".toList then { vars with forceUsb := convertToYesno val }
  else vars

/-- The object of package `power`. -/
structure Obj where
  cmd1 : Text
  wuFlag : Bool

/-- The command that lists the sensors. -/
def ipmiCmd (vars : Vars) : Text := vars.ipmitoolCmd ++ " -I open sdr list 2>&1 |".toList

/-- The command that reads the meter. -/
def usbCmd : Text := "/admin/reports/bin/wattsup -c 1 ttyUSB0 watts 2>&1 |".toList

/-- `new`; `usb` is `-e '/dev/ttyUSB0'`.  The first option sets the command only. -/
def new (vars : Vars) (usb : Bool) : Obj :=
  let self : Obj := if usb then ⟨usbCmd, true⟩ else ⟨ipmiCmd vars, false⟩
  let self := if vars.forceIpmi then { self with cmd1 := ipmiCmd vars } else self
  if vars.forceUsb then { self with cmd1 := usbCmd, wuFlag := true } else self

/-- `<name>\s+\|\s+(.*)`. -/
def reading (name : Pat Unit) : Pat Text := do
  name
  let _ ← many1 isSpace
  lit ['|']
  let _ ← many1 isSpace
  many notNl

/-- `PS\d Input Power`. -/
def supplyName : Pat Unit := do
  lit "PS".toList
  let _ ← cls Char.isDigit
  lit " Input Power".toList

/-- `m/^(\d.*)/`. -/
def meterLine : Pat Text := do
  let d ← cls Char.isDigit
  let w ← many notNl
  pure (d :: w)

/-- The body of the loop: `$watts`, and whether the loop is left. -/
def scanLine (wuFlag : Bool) (watts : ℚ) (line : Text) : ℚ × Bool :=
  match capture (reading (lit "System Level".toList)) line with
  | some w => (numify w, true)
  | none =>
  match capture (reading (lit "Pwr Consumption".toList)) line with
  | some w => (numify w, true)
  | none =>
  match capture (reading supplyName) line with
  | some w => (if watts < 0 then numify w else watts + numify w, true)
  | none =>
  match if wuFlag then atStart meterLine line else none with
  | some w => (numify w, true)
  | none =>
  if (atStart (lit "Error".toList) line).isSome then (-(12 / 10), true) else (watts, false)

/-- The loop. -/
def scan (wuFlag : Bool) (watts : ℚ) : List Text → ℚ
  | [] => watts
  | l :: ls =>
      match scanLine wuFlag watts l with
      | (w, true) => w
      | (w, false) => scan wuFlag w ls

/-- `$watts`, when the command has printed `out` and then, perhaps, the alarm has gone
off. -/
def watts (self : Obj) (out : Text) (timeout : Bool) : ℚ :=
  if self.cmd1 ≠ [] then
    let w := scan self.wuFlag (-1) (readlines out)
    if timeout ∧ w < 0 then -(13 / 10) else w
  else -1

/-- `getdata`: the data hash afterwards. -/
def getdata (self : Obj) (dref : Hash Text Scalar) (out : Text) (timeout : Bool) :
    Hash Text Scalar :=
  dref.insert "watts".toList (.num (watts self out timeout))

/-! ## Sensor listings -/

/-- The line of a power supply: its number, the blanks before the bar, and what it
reads, which begins with the number of Watts and does not name a supply itself. -/
structure Supply where
  n : Nat
  pad : Text
  value : Text
  pad_ne_nil : pad ≠ []
  pad_space : ∀ c ∈ pad, c = ' '
  value_start : ∃ c w, value = c :: w ∧ isSpace c = false
  value_line : ∀ c ∈ value, notNl c
  value_alone : ¬ "PS".toList <:+: value

/-- The line without its line feed. -/
def Supply.text (s : Supply) : Text :=
  "PS".toList ++ (decimal s.n ++ (" Input Power".toList ++ (s.pad ++ ("| ".toList ++ s.value))))

def Supply.watts (s : Supply) : ℚ := numify s.value

/-- `PSn Input Power`, for a number of any length. -/
def anySupplyName : Pat Unit := do
  lit "PS".toList
  let _ ← many1 Char.isDigit
  lit " Input Power".toList

/-- A line of a sensor listing. -/
inductive Line
  | supply (s : Supply)
  | other (t : Text) (line : ∀ c ∈ t, notNl c)
      (no_supply : capture (reading anySupplyName) (t ++ ['\n']) = none)

def Line.text : Line → Text
  | .supply s => s.text
  | .other t _ _ => t

/-- What a line adds to the power of the machine. -/
def Line.watts : Line → ℚ
  | .supply s => s.watts
  | .other _ _ _ => 0

/-- The sum over all supplies. -/
def total (ls : List Line) : ℚ := (ls.map Line.watts).sum

/-- The output with these lines. -/
def listing (ls : List Line) : Text := ls.flatMap fun l => l.text ++ ['\n']

/-- None of the other lines that end the loop. -/
structure Clean (ls : List Line) : Prop where
  level : ∀ l ∈ ls, ¬ "System Level".toList <:+: l.text
  consumption : ∀ l ∈ ls, ¬ "Pwr Consumption".toList <:+: l.text
  error : ∀ l ∈ ls, ¬ "Error".toList <+: l.text

/-- The loop ends at a line: a supply with one digit, or for the meter a line that starts
with a digit. -/
def Line.stops (wuFlag : Bool) : Line → Bool
  | .supply s => s.n < 10
  | .other t _ _ => wuFlag && t.head?.any Char.isDigit

/-- The first line that ends the loop carries the whole sum. -/
inductive OneCarriesAll (wuFlag : Bool) : List Line → Prop
  /-- It is a supply, and all others add up to zero. -/
  | supply {pre post : List Line} {s : Supply} (hpre : ∀ l ∈ pre, l.stops wuFlag = false)
      (hn : s.n < 10) (hzero : total (pre ++ post) = 0) :
      OneCarriesAll wuFlag (pre ++ .supply s :: post)
  /-- It is a line of the meter, and happens to have the right number. -/
  | meter {pre post : List Line} {t : Text} {h h'} (hpre : ∀ l ∈ pre, l.stops wuFlag = false)
      (ht : (Line.other t h h').stops wuFlag = true) (htotal : total (pre ++ post) = numify t) :
      OneCarriesAll wuFlag (pre ++ .other t h h' :: post)
  /-- There is none, and the supplies give the value for no power at all. -/
  | nowhere {ls : List Line} (hls : ∀ l ∈ ls, l.stops wuFlag = false) (htotal : total ls = -1) :
      OneCarriesAll wuFlag ls

/-! ## Matching a line -/

/-- A name that does not occur in a line is not found there. -/
theorem capture_reading_eq_none {w t : Text} (hne : w ≠ []) (hnl : '\n' ∉ w) (h : ¬ w <:+: t) :
    capture (reading (lit w)) (t ++ ['\n']) = none :=
  capture_lit_bind_eq_none (mt (infix_of_infix_concat hne hnl) h)

/-- What follows a name. -/
theorem head?_reading {name : Pat Unit} {pad value s : Text} (hne : pad ≠ [])
    (hpad : ∀ c ∈ pad, c = ' ') (hstart : ∃ c w, value = c :: w ∧ isSpace c = false)
    (hline : ∀ c ∈ value, notNl c)
    (hname : (name s).head? = some ((), pad ++ ("| ".toList ++ (value ++ ['\n'])))) :
    (reading name s).head? = some (value, ['\n']) := by
  obtain ⟨c, w, rfl, hc⟩ := hstart
  obtain ⟨d, pad', rfl⟩ := List.exists_cons_of_ne_nil hne
  obtain rfl : d = ' ' := hpad d (by simp)
  have hspace : ∀ e ∈ pad', isSpace e = true := by
    intro e he
    rw [hpad e (List.mem_cons_of_mem _ he)]
    decide
  have hblank : ((many1 isSpace >>= fun _ => many notNl) (' ' :: (c :: w ++ ['\n']))).head? =
      some (c :: w, ['\n']) := by
    refine head?_bind_many1_of (by decide) ?_
    rw [List.cons_append, List.dropWhile_cons_of_neg (by simp [hc])]
    exact head?_many_line hline
  have hgap : ((many1 isSpace >>= fun _ => lit ['|'] >>= fun _ => many1 isSpace >>= fun _ =>
      many notNl) (' ' :: pad' ++ ("| ".toList ++ (c :: w ++ ['\n'])))).head? =
      some (c :: w, ['\n']) := by
    rw [List.cons_append]
    refine head?_bind_many1_of (by decide) ?_
    rw [List.dropWhile_append_of_pos hspace]
    have hbar := lit_bind_append ['|'] (many1 isSpace >>= fun _ => many notNl)
      (' ' :: (c :: w ++ ['\n']))
    exact (congrArg List.head? hbar).trans hblank
  cases hs : name s with
  | nil => simp [hs] at hname
  | cons r rs =>
      rw [hs, List.head?_cons, Option.some_inj] at hname
      simp only [bind_apply] at hgap
      rw [reading]
      simp only [bind_apply, hs, List.flatMap_cons, hname, List.head?_append, hgap,
        Option.some_or]

/-- The rest of the line of a supply, after its number. -/
def Supply.tail (s : Supply) : Text :=
  " Input Power".toList ++ (s.pad ++ ("| ".toList ++ (s.value ++ ['\n'])))

theorem Supply.text_eq (s : Supply) :
    s.text ++ ['\n'] = "PS".toList ++ (decimal s.n ++ s.tail) := by
  have hassoc : ∀ a b c d e f g : Text, (a ++ (b ++ (c ++ (d ++ (e ++ f))))) ++ g =
      a ++ (b ++ (c ++ (d ++ (e ++ (f ++ g))))) := by
    intro a b c d e f g
    simp only [List.append_assoc]
  exact hassoc _ _ _ _ _ _ _

theorem supplyName_append (s : Text) : supplyName ("PS".toList ++ s) =
    (cls Char.isDigit >>= fun _ => lit " Input Power".toList) s :=
  lit_bind_append _ _ _

/-- A supply with one digit is recognised, and its line gives what it reads. -/
theorem Supply.capture_of_lt (s : Supply) (hn : s.n < 10) :
    capture (reading supplyName) (s.text ++ ['\n']) = some s.value := by
  have hdec := decimal_of_lt hn
  have hdigit : s.n.digitChar.isDigit := isDigit_digitChar hn
  have hname : (supplyName (s.text ++ ['\n'])).head? =
      some ((), s.pad ++ ("| ".toList ++ (s.value ++ ['\n']))) := by
    have hcls : (cls Char.isDigit >>= fun _ => lit " Input Power".toList)
        (s.n.digitChar :: s.tail) = lit " Input Power".toList s.tail :=
      cls_bind_cons hdigit _ _
    have hinput : lit " Input Power".toList s.tail =
        [((), s.pad ++ ("| ".toList ++ (s.value ++ ['\n'])))] := lit_append _ _
    rw [s.text_eq, supplyName_append, hdec, List.singleton_append, hcls, hinput]
    rfl
  exact capture_here
    (head?_reading s.pad_ne_nil s.pad_space s.value_start s.value_line hname)

/-- A supply with more digits is not. -/
theorem Supply.capture_of_ge (s : Supply) (hn : 10 ≤ s.n) :
    capture (reading supplyName) (s.text ++ ['\n']) = none := by
  -- its line has the two letters nowhere but at the beginning
  have honly : ¬ "PS".toList <:+: 'S' :: (decimal s.n ++ s.tail) := by
    intro h
    rw [List.infix_cons_iff] at h
    rcases h with h | h
    · obtain ⟨u, hu⟩ := h
      exact absurd (List.cons.inj hu).1 (by decide)
    · have hrest : decimal s.n ++ s.tail =
          (decimal s.n ++ (" Input Power".toList ++ (s.pad ++ "| ".toList))) ++
            (s.value ++ ['\n']) := by
        have hassoc : ∀ a b c d e f : Text, a ++ (b ++ (c ++ (d ++ (e ++ f)))) =
            (a ++ (b ++ (c ++ d))) ++ (e ++ f) := by
          intro a b c d e f
          simp only [List.append_assoc]
        exact hassoc _ _ _ _ _ _
      rw [hrest] at h
      have hS : 'S' ∉ decimal s.n ++ (" Input Power".toList ++ (s.pad ++ "| ".toList)) := by
        intro hmem
        rcases List.mem_append.mp hmem with hmem | hmem
        · exact notMem_decimal (by decide) (by decide) _ hmem
        · rcases List.mem_append.mp hmem with hmem | hmem
          · exact absurd hmem (by decide)
          · rcases List.mem_append.mp hmem with hmem | hmem
            · exact absurd (s.pad_space _ hmem) (by decide)
            · exact absurd hmem (by decide)
      have hlast : (decimal s.n ++ (" Input Power".toList ++ (s.pad ++ "| ".toList))).getLast? ≠
          some 'P' := by
        rw [← List.append_assoc, ← List.append_assoc,
          List.getLast?_append_of_ne_nil _ (by decide)]
        decide
      have hvalue := infix_of_second_notMem hS hlast h
      exact s.value_alone (infix_of_infix_concat (by decide) (by decide) hvalue)
  -- and there a second digit stands in the way
  have hhead : supplyName ("PS".toList ++ (decimal s.n ++ s.tail)) = [] := by
    obtain ⟨d, e, ds, hdec, hd, he⟩ := exists_decimal_cons_cons hn
    have hno : ¬ " Input Power".toList <+: e :: (ds ++ s.tail) := by
      rintro ⟨u, hu⟩
      rw [← (List.cons.inj hu).1] at he
      exact absurd he (by decide)
    have hcls : (cls Char.isDigit >>= fun _ => lit " Input Power".toList)
        (d :: (e :: (ds ++ s.tail))) = lit " Input Power".toList (e :: (ds ++ s.tail)) :=
      cls_bind_cons hd _ _
    rw [supplyName_append, hdec, List.cons_append, List.cons_append, hcls, lit_eq_nil hno]
  refine capture_eq_none ?_
  intro t ht
  have hnil : supplyName t = [] := by
    rw [s.text_eq] at ht
    rcases List.suffix_cons_iff.mp ht with rfl | ht
    · exact hhead
    · have hno : ¬ "PS".toList <+: t := fun hp => honly (hp.isInfix.trans ht.isInfix)
      rw [supplyName, bind_apply, lit_eq_nil hno]
      rfl
  rw [reading, bind_apply, hnil]
  rfl

/-- What the expression with one digit finds, the one with any number of digits finds as
well. -/
theorem mem_anySupplyName {t : Text} {x : Unit × Text} (h : x ∈ supplyName t) :
    x ∈ anySupplyName t := by
  simp only [supplyName, bind_apply, List.mem_flatMap] at h
  obtain ⟨y, hy, z, hz, hx⟩ := h
  simp only [anySupplyName, bind_apply, List.mem_flatMap]
  refine ⟨y, hy, ([z.1], z.2), ?_, hx⟩
  simp only [many1, bind_apply, pure_apply, List.mem_flatMap]
  refine ⟨z, hz, ([], z.2), ?_, by simp⟩
  cases z.2 with
  | nil => simp [many]
  | cons c s => by_cases hc : c.isDigit <;> simp [many, hc]

theorem capture_other {t : Text} (h : capture (reading anySupplyName) (t ++ ['\n']) = none) :
    capture (reading supplyName) (t ++ ['\n']) = none := by
  by_contra hsome
  obtain ⟨a, ha⟩ := Option.ne_none_iff_exists'.mp hsome
  obtain ⟨u, r, hu, hmem⟩ := exists_suffix_of_capture ha
  rw [reading, bind_apply, List.mem_flatMap] at hmem
  obtain ⟨y, hy, hx⟩ := hmem
  have hany : reading anySupplyName u ≠ [] := by
    refine List.ne_nil_of_mem (a := (a, r)) ?_
    rw [reading, bind_apply, List.mem_flatMap]
    exact ⟨y, mem_anySupplyName hy, hx⟩
  have := capture_isSome hu hany
  rw [h] at this
  cases this

/-! ## The loop -/

/-- The number that the loop takes from a line at which it ends. -/
def Line.reads : Line → ℚ
  | .supply s => s.watts
  | .other t _ _ => numify t

theorem meterLine_of_line {t : Text} (h : ∀ c ∈ t, notNl c) :
    atStart meterLine (t ++ ['\n']) = if t.head?.any Char.isDigit then some t else none := by
  cases t with
  | nil => rfl
  | cons d w =>
      have hw : ∀ c ∈ w, notNl c := fun c hc => h c (List.mem_cons_of_mem d hc)
      have hrest := head?_bind_many (p := notNl) (f := fun w => d :: w) (w ++ ['\n'])
      rw [List.takeWhile_append_of_pos hw, List.dropWhile_append_of_pos hw] at hrest
      by_cases hd : d.isDigit = true
      · simp only [bind_apply, pure_apply] at hrest
        simp [atStart, meterLine, hd, hrest, notNl]
      · simp [atStart, meterLine, hd]

/-- The loop on a line that names neither of the other two vendors and is no error. -/
theorem scanLine_clean {wuFlag : Bool} {t : Text} (hlevel : ¬ "System Level".toList <:+: t)
    (hconsumption : ¬ "Pwr Consumption".toList <:+: t) (herror : ¬ "Error".toList <+: t) :
    scanLine wuFlag (-1) (t ++ ['\n']) =
      match capture (reading supplyName) (t ++ ['\n']) with
      | some w => (numify w, true)
      | none =>
          match if wuFlag then atStart meterLine (t ++ ['\n']) else none with
          | some w => (numify w, true)
          | none => (-1, false) := by
  have hone := capture_reading_eq_none (by decide) (by decide) hlevel
  have htwo := capture_reading_eq_none (by decide) (by decide) hconsumption
  have hno : ¬ "Error".toList <+: t ++ ['\n'] := by
    intro h
    rcases List.prefix_concat_iff.mp h with heq | hp
    · have hlast := congrArg List.getLast? heq
      rw [List.getLast?_concat] at hlast
      exact absurd hlast (by decide)
    · exact herror hp
  have herr : atStart (lit "Error".toList) (t ++ ['\n']) = none := by
    rw [atStart, lit_eq_nil hno]
    rfl
  have hneg : (-1 : ℚ) < 0 := by norm_num
  simp only [scanLine, hone, htwo, herr, hneg, if_true, Option.isSome_none, Bool.false_eq_true,
    if_false]

/-- On the first line at which it ends, the loop takes the number of that line; the other
lines leave the start value. -/
theorem scanLine_line (wuFlag : Bool) (l : Line) (hlevel : ¬ "System Level".toList <:+: l.text)
    (hconsumption : ¬ "Pwr Consumption".toList <:+: l.text)
    (herror : ¬ "Error".toList <+: l.text) :
    scanLine wuFlag (-1) (l.text ++ ['\n']) =
      if l.stops wuFlag then (l.reads, true) else (-1, false) := by
  rw [scanLine_clean hlevel hconsumption herror]
  cases l with
  | supply s =>
      by_cases hn : s.n < 10
      · have hstops : (Line.supply s).stops wuFlag = true := decide_eq_true hn
        have hcap : capture (reading supplyName) ((Line.supply s).text ++ ['\n']) = some s.value :=
          s.capture_of_lt hn
        rw [hcap, hstops]
        rfl
      · have hstops : (Line.supply s).stops wuFlag = false := decide_eq_false hn
        have hcap : capture (reading supplyName) ((Line.supply s).text ++ ['\n']) = none :=
          s.capture_of_ge (by omega)
        have hmeter : atStart meterLine ((Line.supply s).text ++ ['\n']) = none := rfl
        rw [hcap, hstops, hmeter]
        cases wuFlag <;> rfl
  | other t hline hno =>
      have hcap : capture (reading supplyName) ((Line.other t hline hno).text ++ ['\n']) = none :=
        capture_other hno
      have hmeter : atStart meterLine ((Line.other t hline hno).text ++ ['\n']) =
          if t.head?.any Char.isDigit then some t else none := meterLine_of_line hline
      rw [hcap, hmeter]
      cases wuFlag
      · rfl
      · by_cases ht : t.head?.any Char.isDigit = true
        · simp [Line.stops, Line.reads, ht]
        · simp [Line.stops, ht]

/-- **The loop.**  It takes the number of the first line at which it ends. -/
theorem scan_lines (wuFlag : Bool) {ls : List Line} (h : Clean ls) :
    scan wuFlag (-1) (ls.map fun l => l.text ++ ['\n']) =
      (ls.find? (Line.stops wuFlag)).elim (-1) Line.reads := by
  induction ls with
  | nil => rfl
  | cons l ls ih =>
      have hrest : Clean ls := ⟨fun m hm => h.level m (by simp [hm]),
        fun m hm => h.consumption m (by simp [hm]), fun m hm => h.error m (by simp [hm])⟩
      have hline := scanLine_line wuFlag l (h.level l (by simp)) (h.consumption l (by simp))
        (h.error l (by simp))
      rw [List.map_cons, scan, hline]
      by_cases hl : l.stops wuFlag = true
      · rw [if_pos hl, List.find?_cons_of_pos hl]
        rfl
      · rw [if_neg hl, List.find?_cons_of_neg hl]
        exact ih hrest

/-! ## The sum -/

variable {wuFlag : Bool} {ls pre post : List Line}

theorem total_split (pre post : List Line) (l : Line) :
    total (pre ++ l :: post) = total (pre ++ post) + l.watts := by
  simp only [total, List.map_append, List.map_cons, List.sum_append, List.sum_cons]
  ring

/-- The number of the first line at which the loop ends is the sum exactly when that line
carries it. -/
theorem elim_find?_eq_total_iff :
    (ls.find? (Line.stops wuFlag)).elim (-1) Line.reads = total ls ↔
      OneCarriesAll wuFlag ls := by
  constructor
  · intro h
    cases hfind : ls.find? (Line.stops wuFlag) with
    | none =>
        rw [hfind] at h
        refine .nowhere ?_ h.symm
        intro l hl
        exact Bool.eq_false_iff.mpr (List.find?_eq_none.mp hfind l hl)
    | some l =>
        rw [hfind, Option.elim_some] at h
        obtain ⟨hl, pre, post, rfl, hpre⟩ := List.find?_eq_some_iff_append.mp hfind
        have hpre : ∀ x ∈ pre, x.stops wuFlag = false :=
          fun x hx => Bool.not_eq_true' _ |>.mp (hpre x hx)
        rw [total_split] at h
        cases l with
        | supply s =>
            refine .supply hpre (of_decide_eq_true hl) ?_
            simp only [Line.reads, Line.watts] at h
            linarith
        | other t hline hno =>
            refine .meter hpre hl ?_
            simp only [Line.reads, Line.watts] at h
            linarith
  · intro h
    have hfirst : ∀ {pre post : List Line} {l : Line}, (∀ x ∈ pre, x.stops wuFlag = false) →
        l.stops wuFlag = true → (pre ++ l :: post).find? (Line.stops wuFlag) = some l := by
      intro pre post l hpre hl
      refine List.find?_eq_some_iff_append.mpr ⟨hl, pre, post, rfl, ?_⟩
      intro x hx
      rw [hpre x hx]
      rfl
    cases h with
    | supply hpre hn hzero =>
        rw [hfirst (l := .supply _) hpre (decide_eq_true hn), total_split, hzero, zero_add]
        rfl
    | meter hpre ht htotal =>
        rw [hfirst hpre ht, total_split, htotal]
        exact (add_zero _).symm
    | nowhere hls htotal =>
        have hnone : ls.find? (Line.stops wuFlag) = none := by
          refine List.find?_eq_none.mpr ?_
          intro x hx
          rw [hls x hx]
          exact Bool.false_ne_true
        rw [hnone, htotal]
        rfl

theorem newline_notMem_text (l : Line) : '\n' ∉ l.text := by
  have hnotNl : ∀ {w : Text}, (∀ c ∈ w, notNl c) → '\n' ∉ w := by
    intro w hw hmem
    exact absurd (hw _ hmem) (by decide)
  cases l with
  | other t hline hno => exact hnotNl hline
  | supply s =>
      intro h
      have h : '\n' ∈ "PS".toList ++ (decimal s.n ++ (" Input Power".toList ++
        (s.pad ++ ("| ".toList ++ s.value)))) := h
      rcases List.mem_append.mp h with h | h
      · exact absurd h (by decide)
      rcases List.mem_append.mp h with h | h
      · exact notMem_decimal (by decide) (by decide) _ h
      rcases List.mem_append.mp h with h | h
      · exact absurd h (by decide)
      rcases List.mem_append.mp h with h | h
      · exact absurd (s.pad_space _ h) (by decide)
      rcases List.mem_append.mp h with h | h
      · exact absurd h (by decide)
      · exact hnotNl s.value_line h

theorem readlines_listing (ls : List Line) :
    readlines (listing ls) = ls.map fun l => l.text ++ ['\n'] := by
  have hlisting : listing ls = (ls.map Line.text).flatMap (· ++ ['\n']) := by
    rw [List.flatMap_map]
    rfl
  have hlines : ∀ t ∈ ls.map Line.text, '\n' ∉ t := by
    intro t ht
    obtain ⟨l, -, rfl⟩ := List.mem_map.mp ht
    exact newline_notMem_text l
  rw [hlisting, readlines_unlines hlines, List.map_map]
  rfl

theorem cmd1_ne_nil (vars : Vars) (usb : Bool) : (new vars usb).cmd1 ≠ [] := by
  have hipmi : ipmiCmd vars ≠ [] := List.append_ne_nil_of_right_ne_nil _ (by decide)
  have husb : usbCmd ≠ [] := by decide
  unfold new
  cases usb <;> cases vars.forceIpmi <;> cases vars.forceUsb <;> assumption

/-- What is published: the number of the first line at which the loop ends. -/
theorem lookup_watts (vars : Vars) (usb : Bool) (dref : Hash Text Scalar) (h : Clean ls) :
    (getdata (new vars usb) dref (listing ls) false).lookup "watts".toList =
      some (.num ((ls.find? (Line.stops (new vars usb).wuFlag)).elim (-1) Line.reads)) := by
  rw [← scan_lines _ h, ← readlines_listing, getdata, AList.lookup_insert, watts,
    if_pos (cmd1_ne_nil vars usb)]
  simp

/-- **Power supplies.**  Without a line of the other vendors, the power that is published
is the sum over all supplies exactly when the first line at which the loop ends carries
it all. -/
theorem watts_eq_total_iff (vars : Vars) (usb : Bool) (dref : Hash Text Scalar) {ls : List Line}
    (h : Clean ls) :
    (getdata (new vars usb) dref (listing ls) false).lookup "watts".toList =
        some (.num (total ls)) ↔
      OneCarriesAll (new vars usb).wuFlag ls := by
  rw [← elim_find?_eq_total_iff, lookup_watts vars usb dref h, Option.some_inj, Scalar.num.injEq]

/-! ## The lines of the tool -/

/-- Supply `n` with `w` Watts, as the tool prints it. -/
def Supply.ofWatts (n w : Nat) : Supply where
  n := n
  pad := "  ".toList
  value := decimal w ++ ' ' :: "Watts         | ok".toList
  pad_ne_nil := by decide
  pad_space := by simp
  value_start := by
    obtain ⟨c, ds, hds⟩ := List.exists_cons_of_ne_nil (decimal_ne_nil w)
    refine ⟨c, ds ++ ' ' :: "Watts         | ok".toList, by rw [hds]; rfl, ?_⟩
    exact decimal_not_space w c (by rw [hds]; exact List.mem_cons_self)
  value_line := by
    intro c hc
    refine bne_iff_ne.mpr ?_
    rintro rfl
    rcases List.mem_append.mp hc with hc | hc
    · exact notMem_decimal (by decide) (by decide) _ hc
    · exact absurd hc (by decide)
  value_alone := by
    intro h
    have hS : 'S' ∈ decimal w ++ ' ' :: "Watts         | ok".toList := h.subset (by decide)
    rcases List.mem_append.mp hS with hS | hS
    · exact notMem_decimal (by decide) (by decide) _ hS
    · exact absurd hS (by decide)

theorem Supply.watts_ofWatts (n w : Nat) : (Supply.ofWatts n w).watts = w :=
  numify_decimal_append w (by simp)

/-- A machine with two supplies that share the load. -/
def twoSupplies : List Line :=
  [.supply (Supply.ofWatts 1 120), .supply (Supply.ofWatts 2 110)]

theorem clean_twoSupplies : Clean twoSupplies := by
  refine ⟨?_, ?_, ?_⟩ <;> decide +kernel

theorem watts_eq_total_iff_twoSupplies :
    (getdata (new Vars.default false) ∅ (listing twoSupplies) false).lookup "watts".toList =
        some (.num (total twoSupplies)) ↔
      OneCarriesAll (new Vars.default false).wuFlag twoSupplies :=
  watts_eq_total_iff Vars.default false ∅ clean_twoSupplies

/-- 120 Watts are published where 230 are drawn. -/
theorem twoSupplies_not_total :
    (getdata (new Vars.default false) ∅ (listing twoSupplies) false).lookup "watts".toList ≠
      some (.num (total twoSupplies)) := by
  have hreads : (twoSupplies.find? (Line.stops (new Vars.default false).wuFlag)).elim (-1)
      Line.reads = 120 := Supply.watts_ofWatts 1 120
  have htotal : total twoSupplies = 120 + 110 := by
    simp [total, twoSupplies, Line.watts, Supply.watts_ofWatts]
  rw [lookup_watts Vars.default false ∅ clean_twoSupplies, hreads, htotal]
  intro h
  have hnum := Scalar.num.inj (Option.some.inj h)
  norm_num at hnum

end Memrec.Power
