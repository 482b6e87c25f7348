import Mathlib.Algebra.Order.BigOperators.Group.List
import Mathlib.Data.List.Infix
import Memrec.Pattern
import Memrec.Tally

/-!
# Slots of the grid engine

`sgeinfo` adds up the slots that the jobs of a cluster ask for.  The line of a job gives
their number, and the lines of its hard resources, which come later, say whether the
job has priority.  The loop counts running jobs until the first waiting job comes, and
waiting jobs from there on: its flag is never taken back.

`slots_exact_iff` says what that means for any output of `qstat`: no slot is lost, and
each is counted under the right state exactly if no running job that asks for slots is
listed behind a waiting one.  The load of the hosts is bounded by their
processors in any case (`load_bounded`).
-/

namespace Memrec.Sgeinfo

open Perl Pat Hash

/-! ## The module -/

/-- `$_ =~ m/^\d/`. -/
def isJob (line : Text) : Bool := line.head?.any Char.isDigit

/-- `$_ =~ m/^\s+Hard Resources/`. -/
def isHard (line : Text) : Bool :=
  (atStart (do let _ ← many1 isSpace; lit "Hard Resources".toList) line).isSome

/-- `$_ =~ m/highprio\=TRUE/`. -/
def isHigh (line : Text) : Bool := decide ("highprio=TRUE".toList <:+: line)

/-- `$fld[4] =~ m/qw/`. -/
def isWaiting (line : Text) : Bool := decide ("qw".toList <:+: (splitWs line).getD 4 [])

/-- The variables of the first loop; `$ncpus` is empty as long as it is undefined. -/
structure Slots where
  ncpus : Text
  qOrR : Bool
  rHi : ℚ
  rLo : ℚ
  qHi : ℚ
  qLo : ℚ

/-- The body of the first loop. -/
def qstatLine (st : Slots) (raw : Text) : Slots :=
  let line := chomp raw
  if isJob line then
    let st := { st with ncpus := (splitWs line).getD 8 [] }
    if isWaiting line then { st with qOrR := true } else st
  else if isHard line then
    if isHigh line then
      if st.qOrR = false then { st with rHi := st.rHi + numify st.ncpus }
      else { st with qHi := st.qHi + numify st.ncpus }
    else
      if st.qOrR = false then { st with rLo := st.rLo + numify st.ncpus }
      else { st with qLo := st.qLo + numify st.ncpus }
  else st

/-- The first loop, behind two header lines. -/
def qstat (out : Text) : Slots := ((readlines out).drop 2).foldl qstatLine ⟨[], false, 0, 0, 0, 0⟩

/-- `$a_hi`, `$e_hi`, `$a_lo` and `$e_lo`, empty as long as they are undefined. -/
structure Queues where
  aHi : Text
  eHi : Text
  aLo : Text
  eLo : Text

/-- The body of the second loop. -/
def queueLine (st : Queues) (raw : Text) : Queues :=
  let line := chomp raw
  let fld := splitWs line
  if "high".toList.isPrefixOf line then { st with aHi := fld.getD 6 [], eHi := fld.getD 7 [] }
  else if "low".toList.isPrefixOf line then { st with aLo := fld.getD 6 [], eLo := fld.getD 7 [] }
  else st

/-- The second loop. -/
def queues (out : Text) : Queues := ((readlines out).drop 2).foldl queueLine ⟨[], [], [], []⟩

/-- The sums over the hosts. -/
structure Hosts where
  load : ℚ
  avail : ℚ
  error : ℚ
  mach : Nat

/-- The body of the third loop. -/
def hostLine (st : Hosts) (raw : Text) : Hosts :=
  let fld := splitWs (chomp raw)
  let ncpus := fieldNum fld 2
  let st := { st with mach := st.mach + 1 }
  if '-' ∈ fld.getD 3 [] then { st with error := st.error + ncpus }
  else
    let st := { st with avail := st.avail + ncpus }
    if fieldNum fld 3 ≤ ncpus then { st with load := st.load + fieldNum fld 3 }
    else { st with load := st.load + ncpus }

/-- The third loop, behind three header lines. -/
def hosts (out : Text) : Hosts := ((readlines out).drop 3).foldl hostLine ⟨0, 0, 0, 0⟩

/-- What `getdata` stores, with the output of `qstat -r`, `qstat -g c` and `qhost`. -/
def stored (qstatR qstatG qhost : Text) : List (Text × Scalar) :=
  let s := qstat qstatR
  let q := queues qstatG
  let h := hosts qhost
  [("sge_hi_q".toList, .num s.qHi), ("sge_lo_q".toList, .num s.qLo),
    ("sge_hi_r".toList, .num s.rHi), ("sge_lo_r".toList, .num s.rLo),
    ("sge_hi_a".toList, .text q.aHi), ("sge_lo_a".toList, .text q.aLo),
    ("sge_hi_e".toList, .text q.eHi), ("sge_lo_e".toList, .text q.eLo),
    ("sge_sys_error".toList, .num h.error), ("sge_sys_load".toList, .num h.load),
    ("sge_sys_avail".toList, .num h.avail), ("sge_sys_mach".toList, .num h.mach)]

/-- `getdata`: the data hash afterwards. -/
def getdata (dref : Hash Text Scalar) (qstatR qstatG qhost : Text) : Hash Text Scalar :=
  storeAll dref (stored qstatR qstatG qhost)

/-! ## Requests -/

/-- A line of hard resources: the number of slots of its job, whether the job waits, whether
there has been a waiting job, and the priority. -/
structure Request where
  slots : ℚ
  waits : Bool
  behind : Bool
  high : Bool

/-- The requests of a listing, from a job on. -/
def requestsFrom (ncpus : Text) (waits behind : Bool) : List Text → List Request
  | [] => []
  | raw :: rest =>
      let line := chomp raw
      if isJob line then
        requestsFrom ((splitWs line).getD 8 []) (isWaiting line) (behind || isWaiting line) rest
      else if isHard line then
        ⟨numify ncpus, waits, behind, isHigh line⟩ :: requestsFrom ncpus waits behind rest
      else requestsFrom ncpus waits behind rest

/-- The requests of the output of `qstat -r`. -/
def requests (out : Text) : List Request :=
  requestsFrom [] false false ((readlines out).drop 2)

/-- The slots of some requests. -/
def total (p : Request → Bool) (rs : List Request) : ℚ := ((rs.filter p).map Request.slots).sum

theorem total_cons (p : Request → Bool) (r : Request) (rs : List Request) :
    total p (r :: rs) = (if p r then r.slots else 0) + total p rs := by
  unfold total
  by_cases hp : p r = true
  · rw [List.filter_cons_of_pos hp, List.map_cons, List.sum_cons, if_pos hp]
  · rw [List.filter_cons_of_neg hp, if_neg hp, zero_add]

/-- The sum for a value of the flag and a priority. -/
def Slots.sum (st : Slots) : (behind high : Bool) → ℚ
  | false, true => st.rHi
  | false, false => st.rLo
  | true, true => st.qHi
  | true, false => st.qLo

/-- The requests that are added to it. -/
def sortedTo (behind high : Bool) (r : Request) : Bool := r.behind == behind && r.high == high

/-- One request. -/
theorem qstatLine_hard (st : Slots) {raw : Text} (hjob : ¬ isJob (chomp raw) = true)
    (hhard : isHard (chomp raw) = true) (waits : Bool) :
    (qstatLine st raw).ncpus = st.ncpus ∧ (qstatLine st raw).qOrR = st.qOrR ∧
      ∀ behind high, (qstatLine st raw).sum behind high = st.sum behind high +
        if sortedTo behind high ⟨numify st.ncpus, waits, st.qOrR, isHigh (chomp raw)⟩
        then numify st.ncpus else 0 := by
  unfold qstatLine sortedTo
  simp only [if_neg hjob, if_pos hhard]
  obtain ⟨ncpus, flag, rHi, rLo, qHi, qLo⟩ := st
  cases hhigh : isHigh (chomp raw) <;> cases flag <;> refine ⟨rfl, rfl, ?_⟩ <;>
    intro behind high <;> cases behind <;> cases high <;> simp [Slots.sum]

/-- The line of a job. -/
theorem qstatLine_job (st : Slots) {raw : Text} (hjob : isJob (chomp raw) = true) :
    (qstatLine st raw).ncpus = (splitWs (chomp raw)).getD 8 [] ∧
      (qstatLine st raw).qOrR = (st.qOrR || isWaiting (chomp raw)) ∧
      ∀ behind high, (qstatLine st raw).sum behind high = st.sum behind high := by
  unfold qstatLine
  simp only [if_pos hjob]
  cases hwaits : isWaiting (chomp raw) with
  | true =>
      refine ⟨rfl, (Bool.or_true _).symm, ?_⟩
      intro behind high
      cases behind <;> cases high <;> rfl
  | false =>
      refine ⟨rfl, (Bool.or_false _).symm, ?_⟩
      intro behind high
      cases behind <;> cases high <;> rfl

/-- **The loop.**  What it adds up are the requests, by the flag and the priority. -/
theorem sum_foldl_qstatLine (behind high : Bool) (ls : List Text) (st : Slots) (waits : Bool) :
    (ls.foldl qstatLine st).sum behind high = st.sum behind high +
      total (sortedTo behind high) (requestsFrom st.ncpus waits st.qOrR ls) := by
  induction ls generalizing st waits with
  | nil => exact (add_zero _).symm
  | cons raw ls ih =>
      rw [List.foldl_cons, requestsFrom]
      by_cases hjob : isJob (chomp raw) = true
      · obtain ⟨hncpus, hflag, hsum⟩ := qstatLine_job st hjob
        rw [if_pos hjob, ih _ (isWaiting (chomp raw)), hncpus, hflag, hsum]
      · rw [if_neg hjob]
        by_cases hhard : isHard (chomp raw) = true
        · obtain ⟨hncpus, hflag, hsum⟩ := qstatLine_hard st hjob hhard waits
          rw [if_pos hhard, ih _ waits, hncpus, hflag, hsum, total_cons, add_assoc]
        · have hsame : qstatLine st raw = st := by
            unfold qstatLine
            simp only [if_neg hjob, if_neg hhard]
          rw [if_neg hhard, hsame]
          exact ih st waits

/-! ## The states of the jobs -/

/-- A waiting job is behind one that waits. -/
theorem behind_of_waits {ls : List Text} {ncpus : Text} {waits behind : Bool}
    (h : waits = true → behind = true) :
    ∀ r ∈ requestsFrom ncpus waits behind ls, r.waits = true → r.behind = true := by
  induction ls generalizing ncpus waits behind with
  | nil => simp [requestsFrom]
  | cons raw ls ih =>
      rw [requestsFrom]
      split
      · exact ih fun hw => by rw [hw, Bool.or_true]
      · split
        · intro r hr
          rcases List.mem_cons.mp hr with rfl | hr
          · exact h
          · exact ih h r hr
        · exact ih h

/-- The slots of two kinds of requests. -/
theorem total_split (p q : Request → Bool) (rs : List Request) :
    total p rs = total (fun r => p r && q r) rs + total (fun r => p r && !q r) rs := by
  induction rs with
  | nil => exact (add_zero _).symm
  | cons r rs ih =>
      simp only [total_cons, ih]
      cases p r <;> cases q r <;> simp <;> ring

theorem total_congr {p q : Request → Bool} {rs : List Request} (h : ∀ r ∈ rs, p r = q r) :
    total p rs = total q rs := by
  unfold total
  rw [List.filter_congr h]

theorem total_eq_zero_iff {p : Request → Bool} {rs : List Request}
    (hpos : ∀ r ∈ rs, 0 ≤ r.slots) :
    total p rs = 0 ↔ ∀ r ∈ rs, p r = true → r.slots = 0 := by
  have hall : ∀ x ∈ (rs.filter p).map Request.slots, 0 ≤ x := by
    intro x hx
    obtain ⟨r, hr, rfl⟩ := List.mem_map.mp hx
    exact hpos r (List.mem_filter.mp hr).1
  unfold total
  constructor
  · intro h r hr hp
    exact List.all_zero_of_le_zero_le_of_sum_eq_zero hall h
      (List.mem_map_of_mem (List.mem_filter.mpr ⟨hr, hp⟩))
  · intro h
    apply List.sum_eq_zero
    intro x hx
    obtain ⟨r, hr, rfl⟩ := List.mem_map.mp hx
    exact h r (List.mem_filter.mp hr).1 (List.mem_filter.mp hr).2

/-- The slots that jobs of a state and a priority ask for. -/
def asked (waits high : Bool) (rs : List Request) : ℚ :=
  total (fun r => r.waits == waits && r.high == high) rs

/-- The slots of running jobs behind a waiting one. -/
def strayed (high : Bool) (rs : List Request) : ℚ :=
  total (fun r => r.behind && !r.waits && r.high == high) rs

/-- What the loop counts under a state is what jobs in that state ask for, but for the running
jobs behind a waiting one. -/
theorem sum_qstat (out : Text) (high : Bool) :
    (qstat out).sum true high = asked true high (requests out) + strayed high (requests out) ∧
      asked false high (requests out) =
        (qstat out).sum false high + strayed high (requests out) := by
  have hbehind : ∀ r ∈ requests out, r.waits = true → r.behind = true := behind_of_waits (by simp)
  have hzero : ∀ behind, (⟨[], false, 0, 0, 0, 0⟩ : Slots).sum behind high = 0 := by
    intro behind
    cases behind <;> cases high <;> rfl
  have hsum : ∀ behind, (qstat out).sum behind high =
      total (sortedTo behind high) (requests out) := by
    intro behind
    unfold qstat
    rw [sum_foldl_qstatLine behind high _ _ false, hzero, zero_add]
    rfl
  constructor
  · rw [hsum, total_split _ Request.waits]
    congr 1
    · apply total_congr
      intro r hr
      have := hbehind r hr
      cases hw : r.waits <;> simp_all [sortedTo]
    · apply total_congr
      intro r hr
      cases r.waits <;> simp [sortedTo]
  · rw [hsum, asked, total_split _ fun r => !r.behind]
    congr 1
    · apply total_congr
      intro r hr
      have := hbehind r hr
      cases hw : r.waits <;> cases hb : r.behind <;> simp_all [sortedTo]
    · apply total_congr
      intro r hr
      cases r.waits <;> cases r.behind <;> simp

/-! ## The data hash -/

/-- The keys under which the slots are stored. -/
def slotsKey : (waits high : Bool) → Text
  | false, true => "sge_hi_r".toList
  | false, false => "sge_lo_r".toList
  | true, true => "sge_hi_q".toList
  | true, false => "sge_lo_q".toList

theorem nodup_stored (qstatR qstatG qhost : Text) :
    ((stored qstatR qstatG qhost).map Prod.fst).Nodup := by
  have hkeys : (stored qstatR qstatG qhost).map Prod.fst =
      ["sge_hi_q", "sge_lo_q", "sge_hi_r", "sge_lo_r", "sge_hi_a", "sge_lo_a", "sge_hi_e",
        "sge_lo_e", "sge_sys_error", "sge_sys_load", "sge_sys_avail",
        "sge_sys_mach"].map String.toList := rfl
  rw [hkeys]
  decide +kernel

theorem lookup_getdata (dref : Hash Text Scalar) {qstatR qstatG qhost : Text} {e : Text × Scalar}
    (he : e ∈ stored qstatR qstatG qhost) :
    (getdata dref qstatR qstatG qhost).lookup e.1 = some e.2 := by
  refine lookup_storeAll_of_mem he ?_ dref
  intro w hw
  exact congrArg Prod.snd (List.inj_on_of_nodup_map (nodup_stored _ _ _) hw he rfl)

theorem valueAt_getdata (dref : Hash Text Scalar) (qstatR qstatG qhost : Text) (waits high : Bool) :
    valueAt (getdata dref qstatR qstatG qhost) (slotsKey waits high) =
      (qstat qstatR).sum waits high := by
  have hmem : (slotsKey waits high, Scalar.num ((qstat qstatR).sum waits high)) ∈
      stored qstatR qstatG qhost := by
    cases waits with
    | true =>
        cases high with
        | true => exact .head _
        | false => exact .tail _ (.head _)
    | false =>
        cases high with
        | true => exact .tail _ (.tail _ (.head _))
        | false => exact .tail _ (.tail _ (.tail _ (.head _)))
  unfold valueAt
  rw [lookup_getdata dref hmem]
  rfl

/-- **The slots.**  For any output of `qstat` in which no job asks for less than nothing, what
is published adds up to what all jobs ask for, and each number is right exactly if
no running job that asks for slots is listed behind a waiting one. -/
theorem slots_exact_iff (dref : Hash Text Scalar) (qstatR qstatG qhost : Text)
    (hpos : ∀ r ∈ requests qstatR, 0 ≤ r.slots) :
    (∀ high, valueAt (getdata dref qstatR qstatG qhost) (slotsKey false high) +
        valueAt (getdata dref qstatR qstatG qhost) (slotsKey true high) =
          asked false high (requests qstatR) + asked true high (requests qstatR)) ∧
      ((∀ waits high, valueAt (getdata dref qstatR qstatG qhost) (slotsKey waits high) =
        asked waits high (requests qstatR)) ↔
          ∀ r ∈ requests qstatR, r.behind = true → r.waits = false → r.slots = 0) := by
  simp only [valueAt_getdata]
  constructor
  · intro high
    obtain ⟨hq, hr⟩ := sum_qstat qstatR high
    rw [hq, hr]
    ring
  · have hstrayed : (∀ high, strayed high (requests qstatR) = 0) ↔
        ∀ r ∈ requests qstatR, r.behind = true → r.waits = false → r.slots = 0 := by
      constructor
      · intro h r hr hb hw
        refine (total_eq_zero_iff hpos).mp (h r.high) r hr ?_
        rw [hb, hw, beq_self_eq_true]
        rfl
      · intro h high
        refine (total_eq_zero_iff hpos).mpr ?_
        intro r hr hp
        simp only [Bool.and_eq_true, Bool.not_eq_true'] at hp
        exact h r hr hp.1.1 hp.1.2
    rw [← hstrayed]
    constructor
    · intro h high
      have hq := (sum_qstat qstatR high).1
      rw [h true high] at hq
      linarith
    · intro h waits high
      obtain ⟨hq, hr⟩ := sum_qstat qstatR high
      rw [h high] at hq hr
      cases waits with
      | true => rw [hq, add_zero]
      | false => rw [hr, add_zero]

/-- A running job that is listed behind a waiting one. -/
def mixedListing : Text :=
  ("job-ID prior name user state submit/start at queue slots\n---\n" ++
    "12 0.5 a bob r 01/02/2013 10:00:00 high@n1 8\n   Hard Resources: highprio=TRUE\n" ++
    "13 0.5 b bob qw 01/02/2013 10:00:00 x 4\n   Hard Resources: mem=1G\n" ++
    "14 0.5 c bob r 01/02/2013 10:00:00 low@n2 2\n   Hard Resources: mem=1G\n").toList

theorem slots_exact_mixed : ¬ ∀ waits high,
    valueAt (getdata ∅ mixedListing [] []) (slotsKey waits high) =
      asked waits high (requests mixedListing) := by
  have hlisted : (∀ r ∈ requests mixedListing, 0 ≤ r.slots) ∧
      ¬ ∀ r ∈ requests mixedListing, r.behind = true → r.waits = false → r.slots = 0 := by
    decide +kernel
  rw [(slots_exact_iff ∅ mixedListing [] [] hlisted.1).2]
  exact hlisted.2

/-! ## The hosts -/

/-- The loop over the hosts. -/
theorem foldl_hostLine (ls : List Text) {st : Hosts} (hst : st.load ≤ st.avail) :
    (ls.foldl hostLine st).load ≤ (ls.foldl hostLine st).avail ∧
      (ls.foldl hostLine st).avail + (ls.foldl hostLine st).error =
        st.avail + st.error + (ls.map fun l => fieldNum (splitWs (chomp l)) 2).sum ∧
      (ls.foldl hostLine st).mach = st.mach + ls.length := by
  induction ls generalizing st with
  | nil => exact ⟨hst, (add_zero _).symm, rfl⟩
  | cons l ls ih =>
      have hline : (hostLine st l).load ≤ (hostLine st l).avail ∧
          (hostLine st l).avail + (hostLine st l).error =
            st.avail + st.error + fieldNum (splitWs (chomp l)) 2 ∧
          (hostLine st l).mach = st.mach + 1 := by
        unfold hostLine
        dsimp only
        split
        · exact ⟨hst, by ring, rfl⟩
        · split
          · rename_i hle
            exact ⟨add_le_add hst hle, by ring, rfl⟩
          · exact ⟨add_le_add hst le_rfl, by ring, rfl⟩
      obtain ⟨hload, hsum, hmach⟩ := hline
      obtain ⟨h₁, h₂, h₃⟩ := ih hload
      refine ⟨h₁, ?_, ?_⟩
      · rw [List.foldl_cons, h₂, hsum, List.map_cons, List.sum_cons, add_assoc]
      · rw [List.foldl_cons, h₃, hmach, List.length_cons]
        omega

/-- **The hosts.**  For any output of `qhost`, every processor is counted once, as available or
as one of a host with issues, and the load that is published is never more than what is
available. -/
theorem load_bounded (dref : Hash Text Scalar) (qstatR qstatG qhost : Text) :
    valueAt (getdata dref qstatR qstatG qhost) "sge_sys_load".toList ≤
        valueAt (getdata dref qstatR qstatG qhost) "sge_sys_avail".toList ∧
      valueAt (getdata dref qstatR qstatG qhost) "sge_sys_avail".toList +
          valueAt (getdata dref qstatR qstatG qhost) "sge_sys_error".toList =
        (((readlines qhost).drop 3).map fun l => fieldNum (splitWs (chomp l)) 2).sum ∧
      valueAt (getdata dref qstatR qstatG qhost) "sge_sys_mach".toList =
        ((readlines qhost).length - 3 : Nat) := by
  have hnum : ∀ (k : Text) (x : ℚ), (k, Scalar.num x) ∈ stored qstatR qstatG qhost →
      valueAt (getdata dref qstatR qstatG qhost) k = x := by
    intro k x hmem
    unfold valueAt
    rw [lookup_getdata dref hmem]
    rfl
  have herror := hnum "sge_sys_error".toList (hosts qhost).error
    (List.mem_of_getElem? (i := 8) rfl)
  have hload := hnum "sge_sys_load".toList (hosts qhost).load (List.mem_of_getElem? (i := 9) rfl)
  have havail := hnum "sge_sys_avail".toList (hosts qhost).avail
    (List.mem_of_getElem? (i := 10) rfl)
  have hmach := hnum "sge_sys_mach".toList (hosts qhost).mach
    (List.mem_of_getElem? (i := 11) rfl)
  obtain ⟨hle, hsum, hcount⟩ := @foldl_hostLine ((readlines qhost).drop 3) ⟨0, 0, 0, 0⟩ le_rfl
  rw [herror, hload, havail, hmach]
  refine ⟨hle, ?_, ?_⟩
  · exact hsum.trans (by rw [add_zero, zero_add])
  · unfold hosts
    rw [hcount, zero_add, List.length_drop]

end Memrec.Sgeinfo
