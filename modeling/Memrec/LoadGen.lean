import Memrec.Memhog

/-!
# The arrays of the load generators

`iohog`, `memhog` and `calcpi` take subscripts from their arguments without
checking them: the digit behind `-d`, the record size, and the numbers of
threads.  For each program `InRange` says that every access stays in its array,
whatever is allocated and whichever threads get to run, and a theorem says for
which arguments that is so:

* `delayUses_iff`: the character behind `-d` is `0`, `1` or `2`;
* `bufferWrites_iff`: the block of `iohog` has between one byte and `2^31`, because
  the size minus one is computed without a sign, and the index is an `int`;
* `sweep_iff`: `calcpi` starts at most 128 threads, and those of a spike are counted
  from a number that is not negative.
-/

namespace Memrec

open CLang

/-! ## What the last option says -/

/-- What the last of some options says. -/
def lastSetting {β : Type} (p : CStr → Bool) (g : CStr × CStr → β) (default : β)
    (ps : List (CStr × CStr)) : β :=
  ((ps.reverse.find? fun q => p q.1).map g).getD default

theorem lastSetting_concat {β : Type} (p : CStr → Bool) (g : CStr × CStr → β) (default : β)
    (ps : List (CStr × CStr)) (q : CStr × CStr) :
    lastSetting p g default (ps ++ [q]) =
      if p q.1 then g q else lastSetting p g default ps := by
  unfold lastSetting
  rw [List.reverse_append, List.reverse_singleton, List.singleton_append, List.find?_cons]
  cases p q.1 <;> rfl

/-- What holds of the default and of every value that is set. -/
theorem lastSetting_of {β : Type} {P : β → Prop} {p : CStr → Bool} {g : CStr × CStr → β}
    {default : β} (hdefault : P default) (hg : ∀ q, P (g q)) (ps : List (CStr × CStr)) :
    P (lastSetting p g default ps) := by
  unfold lastSetting
  cases ps.reverse.find? fun q => p q.1 with
  | none => exact hdefault
  | some q => exact hg q

/-- The options `-d` have one of the three digits. -/
def DelayDigits (ps : List (CStr × CStr)) : Prop :=
  ∀ p ∈ ps, isOpt 'd' p.1 →
    charAt p.1 2 = chr '0' ∨ charAt p.1 2 = chr '1' ∨ charAt p.1 2 = chr '2'

theorem delayIndex_iff (a : CStr) :
    0 ≤ delayIndex a ∧ delayIndex a ≤ 2 ↔
      charAt a 2 = chr '0' ∨ charAt a 2 = chr '1' ∨ charAt a 2 = chr '2' := by
  have hzero : char8 (chr '0') = 48 := rfl
  have hdigits : ∀ k : Nat, k < 256 → (charAt a 2 = UInt8.ofNat k ↔ (charAt a 2).toNat = k) := by
    intro k hk
    rw [← UInt8.toNat_inj, UInt8.toNat_ofNat', Nat.mod_eq_of_lt (by simpa using hk)]
  have hlt := (charAt a 2).toNat_lt
  show _ ↔ charAt a 2 = UInt8.ofNat 48 ∨ charAt a 2 = UInt8.ofNat 49 ∨ charAt a 2 = UInt8.ofNat 50
  rw [hdigits 48 (by decide), hdigits 49 (by decide), hdigits 50 (by decide), delayIndex, hzero,
    char8]
  split <;> omega

/-- The subscripts of `delay` are those of the options `-d`. -/
theorem delayUses_iff {σ : Type} {act : σ → CStr → CStr → σ} {uses : σ → List Int}
    (hact : ∀ s a v, uses (act s a v) = if isOpt 'd' a then uses s ++ [delayIndex a] else uses s)
    {s : σ} (hs : uses s = []) (ps : List (CStr × CStr)) :
    (∀ j ∈ uses (ps.foldl (fun s p => act s p.1 p.2) s), 0 ≤ j ∧ j ≤ 2) ↔ DelayDigits ps := by
  have huses : uses (ps.foldl (fun s p => act s p.1 p.2) s) =
      (ps.filter fun p => isOpt 'd' p.1).map fun p => delayIndex p.1 := by
    induction ps using List.reverseRecOn with
    | nil => exact hs
    | append_singleton ps p ih =>
        rw [List.foldl_append, List.foldl_cons, List.foldl_nil, hact, ih, List.filter_append,
          List.map_append]
        cases hp : isOpt 'd' p.1 <;> simp [hp]
  rw [huses]
  simp only [List.mem_map, List.mem_filter, DelayDigits, ← delayIndex_iff]
  grind

/-- An argument is an option with one letter only. -/
theorem isOpt_eq {c : Char} {a : CStr} (h : isOpt c a) (d : Char) :
    isOpt d a = decide (chr c = chr d) := by
  unfold isOpt at h ⊢
  grind

theorem isOpt_of_ne {c d : Char} {a : CStr} (h : isOpt c a) (hne : chr c ≠ chr d) :
    isOpt d a = false := by
  rw [isOpt_eq h, decide_eq_false hne]

/-! ## `memhog` -/

namespace Memhog

/-- Every subscript of `delay` is in range; those that are written out are 0, 1 and 2. -/
def InRange (argv : List CStr) : Prop :=
  ∀ s, parse argv = some s → ∀ j ∈ s.uses, 0 ≤ j ∧ j ≤ 2

theorem uses_act (s : Opts) (a v : CStr) :
    (act s a v).uses = if isOpt 'd' a then s.uses ++ [delayIndex a] else s.uses := by
  unfold act
  split
  case isTrue h =>
    rw [isOpt_of_ne h (by decide)]
    rfl
  case isFalse =>
    split
    case isTrue h =>
      rw [isOpt_of_ne h (by decide)]
      rfl
    case isFalse => split <;> rfl

theorem inRange_iff {argv : List CStr} {ps : List (CStr × CStr)}
    (h : settings takes argv = some ps) : InRange argv ↔ DelayDigits ps := by
  have hparse : parse argv = some (ps.foldl (fun s p => act s p.1 p.2) {}) := by
    rw [parse, optLoop_eq, h]
    rfl
  rw [← delayUses_iff uses_act (s := {}) rfl ps, InRange]
  simp only [hparse, Option.some.injEq, forall_eq']

end Memhog

/-! ## `iohog` -/

namespace Iohog

/-- The options; `uses` are the subscripts of `Delay` so far. -/
structure Opts where
  runType : Int := 0
  numRec : Nat := 100
  recSize : Nat := 1000
  delay : List Int := [1, 1, 1]
  fname : CStr := cstr "default.dat"
  doSync : Int := 0
  uses : List Int := []

/-- The cases with `i++`. -/
def takes (a : CStr) : Bool := isOpt 'r' a || isOpt 'n' a || isOpt 'd' a || isOpt 'f' a

/-- The switch over `av[i][1]`. -/
def act (s : Opts) (a v : CStr) : Opts :=
  if isOpt 'r' a then { s with recSize := convertKb v }
  else if isOpt 'n' a then { s with numRec := convertKb v }
  else if isOpt 'd' a then
    { s with
      delay := setDelay s.delay (delayIndex a) (delaySeconds v)
      uses := s.uses ++ [delayIndex a] }
  else if isOpt 'f' a then { s with fname := v }
  else if isOpt 'O' a then { s with runType := 1 }
  else if isOpt 'S' a then { s with doSync := 1 }
  else if isOpt 'F' a then { s with doSync := 2 }
  else s

/-- `parse_cmdline`, from `av[0]` on. -/
def parse (argv : List CStr) : Option Opts := optLoop takes act {} argv

/-- `i<(RecSize-1)`, compared without a sign. -/
def fills (recSize : Nat) (i : Int) : Bool := sizeT i < sizeT ((recSize : Int) - 1)

/-- The indices at which the block is written to, in at most `n` rounds of the loop
`for(i=0;i<(RecSize-1);i++)` and once behind it. -/
def bufferWrites (recSize n : Nat) : List Int :=
  let fill := forLoop (fills recSize) n 0
  fill.1 ++ fill.2.toList

/-- Every access to `Delay` and, if there is a block, to the block is in range. -/
structure InRange (argv : List CStr) (allocated : Bool) : Prop where
  delay : ∀ s, parse argv = some s → ∀ j ∈ s.uses, 0 ≤ j ∧ j ≤ 2
  buffer : ∀ s, parse argv = some s → allocated = true →
    ∀ n, ∀ i ∈ bufferWrites s.recSize n, 0 ≤ i ∧ i < s.recSize

/-- The record size that the arguments ask for. -/
def recSizeOf (ps : List (CStr × CStr)) : Nat :=
  lastSetting (isOpt 'r') (fun p => convertKb p.2) 1000 ps

theorem convertKb_lt (s : CStr) : convertKb s < 2 ^ 64 := by
  unfold convertKb
  split_ifs <;> exact sizeT_lt _

section Block

variable {recSize : Nat}

/-- Up to the largest `int`, the loop goes to the size minus one. -/
theorem fills_iff (hpos : 1 ≤ recSize) (h : recSize < 2 ^ 64) {i : Int} (hlo : 0 ≤ i)
    (hhi : i < 2 ^ 31) : fills recSize i = true ↔ i + 1 < recSize := by
  have hi := sizeT_of_range hlo (by omega)
  have hlast : (sizeT ((recSize : Int) - 1) : Int) = recSize - 1 :=
    sizeT_of_range (by omega) (by omega)
  unfold fills
  rw [decide_eq_true_eq]
  omega

/-- A size of more than `2^31` makes the index overflow. -/
theorem overflow_mem_bufferWrites (hlarge : 2 ^ 31 < recSize) (h : recSize < 2 ^ 64) :
    ∃ n, (-2 ^ 31 : Int) ∈ bufferWrites recSize n := by
  obtain ⟨k, hk⟩ : ∃ k : Nat, (k : Int) = 2 ^ 31 - 1 := ⟨2147483647, rfl⟩
  have hcond : ∀ i : Int, 0 ≤ i → i < 0 + k → fills recSize i = true := fun i hlo hhi =>
    (fills_iff (by omega) h hlo (by omega)).mpr (by omega)
  have hround := forLoop_of_true ((fills_iff (by omega) h (i := k) (by omega) (by omega)).mpr
    (by omega)) 1
  have hnext : int32 ((k : Int) + 1) = -2 ^ 31 := by
    rw [hk]
    exact int32_overflow
  have hrounds := forLoop_rounds (by decide) (by omega) hcond 2
  rw [zero_add, hround, hnext] at hrounds
  have hmin : (-2 ^ 31 : Int) ∈ (forLoop (fills recSize) 1 (-2 ^ 31)).1 ++
      (forLoop (fills recSize) 1 (-2 ^ 31)).2.toList := mem_forLoop_start 0 _
  refine ⟨k + 2, ?_⟩
  unfold bufferWrites
  simp only [hrounds, List.append_assoc, List.cons_append]
  exact List.mem_append_right _ (List.mem_cons_of_mem _ hmin)

/-- **The block.**  A size from one byte to `2^31` is filled; with no bytes the loop
begins outside the block. -/
theorem bufferWrites_iff (h : recSize < 2 ^ 64) :
    (∀ n, ∀ i ∈ bufferWrites recSize n, 0 ≤ i ∧ i < recSize) ↔
      1 ≤ recSize ∧ recSize ≤ 2 ^ 31 := by
  constructor
  · intro hall
    constructor
    · by_contra hzero
      obtain rfl : recSize = 0 := by omega
      have hwrite : (0 : Int) ∈ bufferWrites 0 1 := by decide
      have := (hall 1 0 hwrite).2
      omega
    · by_contra hlarge
      obtain ⟨n, hwrite⟩ := overflow_mem_bufferWrites (by omega) h
      have := (hall n _ hwrite).1
      omega
  · rintro ⟨hpos, hle⟩ n
    have hstep : ∀ i : Int, 0 ≤ i ∧ i + 1 ≤ recSize → fills recSize i = true →
        0 ≤ int32 (i + 1) ∧ int32 (i + 1) + 1 ≤ recSize := by
      intro i hi hfills
      have hlt := (fills_iff hpos h hi.1 (by omega)).mp hfills
      rw [int32_of_range (by omega) (by omega)]
      omega
    obtain ⟨hvisited, hend⟩ := forLoop_inv hstep ⟨le_refl 0, by omega⟩ n
    intro i hi
    rcases List.mem_append.mp hi with hi | hi
    · have := (hvisited i hi).1
      omega
    · have := (hend i (by simpa using hi)).1
      omega

end Block

theorem uses_act (s : Opts) (a v : CStr) :
    (act s a v).uses = if isOpt 'd' a then s.uses ++ [delayIndex a] else s.uses := by
  unfold act
  split
  case isTrue h =>
    rw [isOpt_of_ne h (by decide)]
    rfl
  case isFalse =>
    split
    case isTrue h =>
      rw [isOpt_of_ne h (by decide)]
      rfl
    case isFalse =>
      split
      case isTrue => rfl
      case isFalse => split_ifs <;> rfl

theorem recSize_act (s : Opts) (a v : CStr) :
    (act s a v).recSize = if isOpt 'r' a then convertKb v else s.recSize := by
  unfold act
  split_ifs <;> rfl

theorem inRange_of_parse {argv : List CStr} {allocated : Bool} {s : Opts}
    (h : parse argv = some s) : InRange argv allocated ↔
      (∀ j ∈ s.uses, 0 ≤ j ∧ j ≤ 2) ∧
        (allocated = true → ∀ n, ∀ i ∈ bufferWrites s.recSize n, 0 ≤ i ∧ i < s.recSize) := by
  constructor
  · intro hin
    exact ⟨hin.delay s h, hin.buffer s h⟩
  · rintro ⟨hdelay, hbuffer⟩
    constructor
    · intro s' hs'
      rwa [← Option.some.inj (h.symm.trans hs')]
    · intro s' hs'
      rwa [← Option.some.inj (h.symm.trans hs')]

theorem inRange_iff {argv : List CStr} {ps : List (CStr × CStr)}
    (h : settings takes argv = some ps) (allocated : Bool) :
    InRange argv allocated ↔ DelayDigits ps ∧
      (allocated = true → 1 ≤ recSizeOf ps ∧ recSizeOf ps ≤ 2 ^ 31) := by
  have hparse : parse argv = some (ps.foldl (fun s p => act s p.1 p.2) {}) := by
    rw [parse, optLoop_eq, h]
    rfl
  have hsize : (ps.foldl (fun s p => act s p.1 p.2) ({} : Opts)).recSize = recSizeOf ps :=
    (foldl_last (I := fun _ => True) (f := Opts.recSize)
      (fun s _ p _ => ⟨trivial, recSize_act s p.1 p.2⟩) trivial).2
  have hlt : recSizeOf ps < 2 ^ 64 :=
    lastSetting_of (P := fun n => n < 2 ^ 64) (by decide) (fun q => convertKb_lt q.2) ps
  rw [← delayUses_iff uses_act (s := {}) rfl ps, ← bufferWrites_iff hlt, ← hsize]
  exact inRange_of_parse hparse

end Iohog

/-! ## `calcpi` -/

namespace Calcpi

/-- The options, and whether `-h` has ended the program.  `n` is the text that `atof`
reads. -/
structure Opts where
  runType : Int := 0
  rpt : Int := 100
  dur : Int := 100
  thr : Int := 1
  n : CStr := cstr "100"
  affin : Bool := false
  spikeYN : Bool := false
  spikeDelay : Int := 0
  spikeThreads : Int := 0
  spikeDur : Int := 0
  exited : Bool := false

/-- The second letter of an option `-s`. -/
def isSpike (c : Char) (a : CStr) : Bool := isOpt 's' a && charAt a 2 == chr c

/-- The cases with `i++`. -/
def takes (a : CStr) : Bool :=
  isOpt 'n' a || isOpt 't' a || isOpt 'r' a || isOpt 'd' a ||
    isSpike 't' a || isSpike 'w' a || isSpike 'd' a

/-- The switch over `av[i][2]`, after `SpikeYN = 1`. -/
def actSpike (s : Opts) (a v : CStr) : Opts :=
  if isSpike 't' a then { s with spikeThreads := atoi v }
  else if isSpike 'w' a then { s with spikeDelay := atoi v }
  else if isSpike 'd' a then { s with spikeDur := atoi v }
  else s

/-- The switch over `av[i][1]`. -/
def act (s : Opts) (a v : CStr) : Opts :=
  if s.exited then s
  else if isOpt 'n' a then { s with n := v }
  else if isOpt 't' a then { s with thr := atoi v }
  else if isOpt 'r' a then { s with rpt := atoi v, runType := 1 }
  else if isOpt 'd' a then { s with dur := atoi v, runType := 2 }
  else if isOpt 'a' a then { s with affin := !s.affin }
  else if isOpt 's' a then actSpike { s with spikeYN := true } a v
  else if isOpt 'h' a then { s with exited := true }
  else s

/-- `parse_cmdline`, from `av[1]` on. -/
def parse (argv : List CStr) : Option Opts := optLoop takes act {} (argv.drop 1)

/-- The subscripts of `pid` and `data` where threads are started and joined, in at most `n`
rounds of each of the two loops. -/
def sweep (lo hi : Int) (n : Nat) : List Int :=
  let create := forLoop (fun t => t < hi) n lo
  let join := forLoop (fun t => t < hi) n lo
  create.1 ++ join.1

/-- `calcpi`: the last subscript is that of the result. -/
def calcpi (s : Opts) (n : Nat) : List Int := sweep 0 s.thr n ++ [0]

/-- `spike_int`. -/
def spikeInt (s : Opts) (n : Nat) : List Int := sweep s.thr s.spikeThreads n

/-- `main` calls `calcpi`. -/
def Runs (s : Opts) : Prop :=
  s.exited = false ∧ (s.runType = 1 ∧ 0 < s.rpt ∨ s.runType = 2 ∧ 0 < s.dur)

/-- `main` starts the thread that calls `spike_int`. -/
def Spikes (s : Opts) : Prop := s.exited = false ∧ s.spikeYN = true ∧ 0 < s.spikeDur

/-- Every access to `pid` and `data` is in range. -/
structure InRange (argv : List CStr) : Prop where
  calcpi : ∀ s, parse argv = some s → Runs s → ∀ n, ∀ t ∈ calcpi s n, 0 ≤ t ∧ t < 128
  spikeInt : ∀ s, parse argv = some s → Spikes s → ∀ n, ∀ t ∈ spikeInt s n, 0 ≤ t ∧ t < 128

theorem mem_sweep_iff {lo hi : Int} (hlo : -2 ^ 31 ≤ lo) (hhi : hi < 2 ^ 31) {t : Int} :
    (∃ n, t ∈ sweep lo hi n) ↔ lo ≤ t ∧ t < hi := by
  constructor
  · rintro ⟨n, ht⟩
    have hstep : ∀ i : Int, lo ≤ i → decide (i < hi) = true → lo ≤ int32 (i + 1) := by
      intro i hi hlt
      have hlt := of_decide_eq_true hlt
      rw [int32_of_range (by omega) (by omega)]
      omega
    obtain ⟨hle, hlt⟩ := (forLoop_inv hstep (le_refl lo) n).1 t (by simpa [sweep] using ht)
    exact ⟨hle, of_decide_eq_true hlt⟩
  · rintro ⟨hle, hlt⟩
    obtain ⟨n, hn⟩ : ∃ n : Nat, hi - lo < n := ⟨(hi - lo).toNat + 1, by omega⟩
    have hvisits : forLoop (fun t => t < hi) n lo = (Int.range lo hi, some hi) :=
      forLoop_visits hlo (by omega) hhi (fun i _ hi => decide_eq_true hi) (by simp) hn
    refine ⟨n, ?_⟩
    simp only [sweep, hvisits]
    exact List.mem_append_left _ (Int.mem_range_iff.mpr ⟨hle, hlt⟩)

/-- **The threads.** -/
theorem sweep_iff {lo hi : Int} (hlo : -2 ^ 31 ≤ lo) (hhi : hi < 2 ^ 31) :
    (∀ n, ∀ t ∈ sweep lo hi n, 0 ≤ t ∧ t < 128) ↔ hi ≤ lo ∨ 0 ≤ lo ∧ hi ≤ 128 := by
  constructor
  · intro hall
    rcases le_or_gt hi lo with hempty | hlt
    · exact .inl hempty
    · obtain ⟨n, hfirst⟩ := (mem_sweep_iff hlo hhi).mpr ⟨le_refl lo, hlt⟩
      obtain ⟨m, hlast⟩ := (mem_sweep_iff hlo hhi).mpr (⟨by omega, by omega⟩ : lo ≤ hi - 1 ∧ _)
      have hfirst := hall n _ hfirst
      have hlast := hall m _ hlast
      right
      omega
  · intro h n t ht
    have ht := (mem_sweep_iff hlo hhi).mp ⟨n, ht⟩
    omega

/-- What the options say if there is no `-h`: the last one of each kind counts. -/
def asked (ps : List (CStr × CStr)) : Opts where
  runType := lastSetting (fun a => isOpt 'r' a || isOpt 'd' a)
    (fun p => if isOpt 'r' p.1 then 1 else 2) 0 ps
  rpt := lastSetting (isOpt 'r') (fun p => atoi p.2) 100 ps
  dur := lastSetting (isOpt 'd') (fun p => atoi p.2) 100 ps
  thr := lastSetting (isOpt 't') (fun p => atoi p.2) 1 ps
  n := lastSetting (isOpt 'n') (fun p => p.2) (cstr "100") ps
  affin := (ps.countP fun p => isOpt 'a' p.1) % 2 == 1
  spikeYN := lastSetting (isOpt 's') (fun _ => true) false ps
  spikeDelay := lastSetting (isSpike 'w') (fun p => atoi p.2) 0 ps
  spikeThreads := lastSetting (isSpike 't') (fun p => atoi p.2) 0 ps
  spikeDur := lastSetting (isSpike 'd') (fun p => atoi p.2) 0 ps
  exited := false

/-- Few enough threads, as far as any are started. -/
def Fits (ps : List (CStr × CStr)) : Prop :=
  (∃ p ∈ ps, isOpt 'h' p.1 = true) ∨
    (Runs (asked ps) → (asked ps).thr ≤ 128) ∧
      (Spikes (asked ps) → (asked ps).spikeThreads ≤ (asked ps).thr ∨
        0 ≤ (asked ps).thr ∧ (asked ps).spikeThreads ≤ 128)

theorem isSpike_of_isOpt {c : Char} {a : CStr} (h : isOpt c a) (d : Char) :
    isSpike d a = (decide (chr c = chr 's') && charAt a 2 == chr d) := by
  rw [isSpike, isOpt_eq h]

theorem asked_concat (ps : List (CStr × CStr)) {q : CStr × CStr} (h : isOpt 'h' q.1 = false) :
    asked (ps ++ [q]) = act (asked ps) q.1 q.2 := by
  have hexited : (asked ps).exited = false := rfl
  unfold act
  rw [hexited, if_neg (by decide)]
  split
  case isTrue hn => simp [asked, lastSetting_concat, isOpt_eq hn, isSpike_of_isOpt hn, chr]
  case isFalse hn =>
  split
  case isTrue ht => simp [asked, lastSetting_concat, isOpt_eq ht, isSpike_of_isOpt ht, chr]
  case isFalse ht =>
  split
  case isTrue hr => simp [asked, lastSetting_concat, isOpt_eq hr, isSpike_of_isOpt hr, chr]
  case isFalse hr =>
  split
  case isTrue hd => simp [asked, lastSetting_concat, isOpt_eq hd, isSpike_of_isOpt hd, chr]
  case isFalse hd =>
  split
  case isTrue ha =>
    have hparity (k : Nat) : ((k + 1) % 2 == 1) = !(k % 2 == 1) := by
      rcases Nat.mod_two_eq_zero_or_one k with hk | hk <;> simp [Nat.add_mod, hk]
    simp [asked, lastSetting_concat, isOpt_eq ha, isSpike_of_isOpt ha, chr, hparity]
  case isFalse ha =>
  split
  case isTrue hs =>
    unfold actSpike
    rw [isSpike_of_isOpt hs, isSpike_of_isOpt hs, isSpike_of_isOpt hs]
    split_ifs <;> simp_all [asked, lastSetting_concat, isOpt_eq hs, isSpike_of_isOpt hs, chr]
  case isFalse hs => simp [asked, lastSetting_concat, isSpike, hn, ht, hr, hd, ha, hs, h]

theorem foldl_act (ps : List (CStr × CStr)) (h : ∀ p ∈ ps, isOpt 'h' p.1 = false) :
    ps.foldl (fun s p => act s p.1 p.2) {} = asked ps := by
  induction ps using List.reverseRecOn with
  | nil => rfl
  | append_singleton ps p ih =>
      rw [List.foldl_append, List.foldl_cons, List.foldl_nil,
        ih fun q hq => h q (List.mem_append_left _ hq), asked_concat ps (h p (by simp))]

theorem exited_act {s : Opts} {a : CStr} (v : CStr) (h : s.exited ∨ isOpt 'h' a) :
    (act s a v).exited = true := by
  unfold act
  split
  case isTrue hexited => exact hexited
  case isFalse hexited =>
    have h := h.resolve_left hexited
    simp [isOpt_eq h, chr]

/-- `-h` ends the program, whatever comes after it. -/
theorem exited_foldl {ps : List (CStr × CStr)} (h : ∃ p ∈ ps, isOpt 'h' p.1 = true) :
    (ps.foldl (fun s p => act s p.1 p.2) {}).exited = true := by
  obtain ⟨p, hp, hletter⟩ := h
  obtain ⟨l₁, l₂, rfl⟩ := List.append_of_mem hp
  rw [List.foldl_append, List.foldl_cons]
  exact List.foldlRecOn (motive := fun s : Opts => s.exited = true) l₂ _
    (exited_act p.2 (.inr hletter)) fun s hs q _ => exited_act q.2 (.inl hs)

theorem inRange_of_parse {argv : List CStr} {s : Opts} (h : parse argv = some s) :
    InRange argv ↔ (Runs s → ∀ n, ∀ t ∈ calcpi s n, 0 ≤ t ∧ t < 128) ∧
      (Spikes s → ∀ n, ∀ t ∈ spikeInt s n, 0 ≤ t ∧ t < 128) := by
  constructor
  · intro hin
    exact ⟨hin.calcpi s h, hin.spikeInt s h⟩
  · rintro ⟨hruns, hspikes⟩
    constructor
    · intro s' hs'
      rwa [← Option.some.inj (h.symm.trans hs')]
    · intro s' hs'
      rwa [← Option.some.inj (h.symm.trans hs')]

/-- Starting threads with subscripts from 0 on, and reading the result. -/
theorem calcpi_iff {s : Opts} (h : s.thr < 2 ^ 31) :
    (∀ n, ∀ t ∈ calcpi s n, 0 ≤ t ∧ t < 128) ↔ s.thr ≤ 128 := by
  have hsweep := sweep_iff (by decide : -2 ^ 31 ≤ (0 : Int)) h
  have hresult : ∀ n, (∀ t ∈ calcpi s n, 0 ≤ t ∧ t < 128) ↔
      ∀ t ∈ sweep 0 s.thr n, 0 ≤ t ∧ t < 128 := by
    intro n
    simp [calcpi, or_imp, forall_and]
  simp only [hresult, hsweep]
  omega

theorem atoi_range (v : CStr) : -2 ^ 31 ≤ atoi v ∧ atoi v < 2 ^ 31 := int32_range _

theorem thr_range (ps : List (CStr × CStr)) :
    -2 ^ 31 ≤ (asked ps).thr ∧ (asked ps).thr < 2 ^ 31 :=
  lastSetting_of (P := fun x => -2 ^ 31 ≤ x ∧ x < 2 ^ 31) (by decide) (fun q => atoi_range q.2) ps

theorem spikeThreads_lt (ps : List (CStr × CStr)) : (asked ps).spikeThreads < 2 ^ 31 :=
  lastSetting_of (P := fun x => x < 2 ^ 31) (by decide) (fun q => (atoi_range q.2).2) ps

/-- **The arguments of `calcpi`.** -/
theorem inRange_iff {argv : List CStr} {ps : List (CStr × CStr)}
    (h : settings takes (argv.drop 1) = some ps) : InRange argv ↔ Fits ps := by
  have hparse : parse argv = some (ps.foldl (fun s p => act s p.1 p.2) {}) := by
    rw [parse, optLoop_eq, h]
    rfl
  rw [inRange_of_parse hparse]
  by_cases hhelp : ∃ p ∈ ps, isOpt 'h' p.1 = true
  · have hexited := exited_foldl hhelp
    refine iff_of_true ⟨?_, ?_⟩ (.inl hhelp)
    · intro hruns
      exact absurd hexited (by simp [hruns.1])
    · intro hspikes
      exact absurd hexited (by simp [hspikes.1])
  · have hnone : ∀ p ∈ ps, isOpt 'h' p.1 = false := by
      intro p hp
      by_contra hletter
      exact hhelp ⟨p, hp, Bool.eq_true_of_not_eq_false hletter⟩
    rw [foldl_act ps hnone, calcpi_iff (thr_range ps).2, Fits, or_iff_right hhelp]
    simp only [spikeInt, sweep_iff (thr_range ps).1 (spikeThreads_lt ps)]

end Calcpi

/-! ## The three programs -/

/-- **The arguments with which every access stays in its array**, among those in which no
value is missing. -/
theorem accesses_inRange_iff (argv : List CStr) :
    (∀ ps, settings Iohog.takes argv = some ps → ∀ allocated,
      (Iohog.InRange argv allocated ↔ DelayDigits ps ∧
        (allocated = true → 1 ≤ Iohog.recSizeOf ps ∧ Iohog.recSizeOf ps ≤ 2 ^ 31))) ∧
    (∀ ps, settings Memhog.takes argv = some ps → (Memhog.InRange argv ↔ DelayDigits ps)) ∧
    (∀ ps, settings Calcpi.takes (argv.drop 1) = some ps →
      (Calcpi.InRange argv ↔ Calcpi.Fits ps)) := by
  refine ⟨?_, ?_, ?_⟩
  · intro ps hps allocated
    exact Iohog.inRange_iff hps allocated
  · intro ps hps
    exact Memhog.inRange_iff hps
  · intro ps hps
    exact Calcpi.inRange_iff hps

/-- The arguments of an ordinary run. -/
theorem accesses_inRange_iff_usage :
    Iohog.InRange [cstr "iohog", cstr "-r", cstr "4k", cstr "-d1", cstr "2m"] true ∧
      Memhog.InRange [cstr "memhog", cstr "-m", cstr "100m", cstr "-d0", cstr "5"] ∧
      Calcpi.InRange [cstr "calcpi", cstr "-d", cstr "30", cstr "-t", cstr "8"] := by
  refine ⟨?_, ?_, ?_⟩
  · refine ((accesses_inRange_iff _).1 _ rfl true).mpr ⟨?_, fun _ => by decide⟩
    unfold DelayDigits
    decide
  · refine ((accesses_inRange_iff _).2.1 _ rfl).mpr ?_
    unfold DelayDigits
    decide
  · exact ((accesses_inRange_iff _).2.2 _ rfl).mpr
      (.inr ⟨fun _ => by decide, fun hspikes => absurd hspikes.2.1 (by decide)⟩)

/-- A record of no bytes, a delay without its digit, and one thread too many. -/
theorem accesses_out_of_range :
    ¬ Iohog.InRange [cstr "iohog", cstr "-r", cstr "0"] true ∧
      ¬ Memhog.InRange [cstr "memhog", cstr "-d", cstr "5"] ∧
      ¬ Calcpi.InRange [cstr "calcpi", cstr "-r", cstr "1", cstr "-t", cstr "129"] := by
  refine ⟨?_, ?_, ?_⟩
  · intro h
    have hblock := ((Iohog.inRange_iff rfl true).mp h).2 rfl
    exact absurd hblock.1 (by decide)
  · intro h
    have hdigits := (Memhog.inRange_iff rfl).mp h
    exact absurd (hdigits (cstr "-d", cstr "5") (by decide) (by decide)) (by decide)
  · intro h
    rcases (Calcpi.inRange_iff rfl).mp h with hhelp | hfits
    · exact absurd hhelp (by decide)
    · have hruns : Calcpi.Runs (Calcpi.asked [(cstr "-r", cstr "1"), (cstr "-t", cstr "129")]) := by
        unfold Calcpi.Runs
        decide
      exact absurd (hfits.1 hruns) (by decide)

end Memrec
