import Mathlib.Algebra.Order.BigOperators.Group.Finset
import Memrec.KernelStats

/-!
# Disks and swap

`diskstats` publishes its rates in two groups, one for the partitions that hold data and
one for those that `new` has found in `/proc/swaps`.

The loop over the file adds the increments of all partitions up, column by column.  A
second loop runs over the numbers of the partitions and distributes these sums by the
entries `is_swap_$n`.  The entries are stored under the names of the partitions, so
that the second loop finds none of them, and adds the sum of all partitions to the disk
group once for each partition.  `diskstats_split_iff` says in which calls the result is
still the right one.
-/

namespace Memrec

open Perl Perl.Pat CellBank Runs

namespace Diskstats

/-! ## The flags -/

/-- The partitions that `new` finds in `/proc/swaps`. -/
def swapNames (swaps : Text) : List Text := (readlines swaps).filterMap (capture swapLine)

/-- A name of a partition does not start with a digit. -/
def Named (n : Text) : Prop := ∀ c ∈ n.head?, c.isDigit = false

theorem named_of_mem {s n r : Text} (h : (n, r) ∈ partitionName s) : Named n := by
  simp only [partitionName, bind_apply, pure_apply, List.mem_flatMap] at h
  obtain ⟨⟨a, ra⟩, ha, ⟨b, rb⟩, -, ⟨c, rc⟩, -, ⟨d, rd⟩, -, hn⟩ := h
  obtain ⟨rfl, -⟩ : n = [a, b, c, d] ∧ r = rd := by simpa using hn
  intro x hx
  obtain rfl : a = x := by simpa using hx
  cases s with
  | nil => simp [cls] at ha
  | cons e s =>
      obtain ⟨hcases, rfl, -⟩ : (e = 's' ∨ e = 'h' ∨ e = 'd') ∧ a = e ∧ ra = s := by
        simpa using ha
      rcases hcases with rfl | rfl | rfl <;> decide

theorem named_of_partition {disks : Text} {p : Text × List Text} (h : p ∈ partitions disks) :
    Named p.1 := by
  obtain ⟨l, -, hl⟩ := List.mem_filterMap.mp h
  obtain ⟨x, hx, rfl⟩ := Option.map_eq_some_iff.mp hl
  obtain ⟨t, r, -, hmem⟩ := exists_suffix_of_capture hx
  simp only [diskLine, bind_apply, pure_apply, List.mem_flatMap] at hmem
  obtain ⟨⟨_, r₁⟩, -, ⟨n, r₂⟩, hn, ⟨_, r₃⟩, -, ⟨rest, r₄⟩, -, heq⟩ := hmem
  obtain ⟨rfl, -⟩ : x = (n, rest) ∧ r = r₄ := by simpa using heq
  exact named_of_mem hn

theorem named_of_swap {swaps n : Text} (h : n ∈ swapNames swaps) : Named n := by
  obtain ⟨l, -, hl⟩ := List.mem_filterMap.mp h
  obtain ⟨t, r, -, hmem⟩ := exists_suffix_of_capture hl
  simp only [swapLine, bind_apply, pure_apply, List.mem_flatMap] at hmem
  obtain ⟨⟨_, r₁⟩, -, ⟨m, r₂⟩, hm, ⟨_, r₃⟩, -, heq⟩ := hmem
  obtain ⟨rfl, -⟩ : n = m ∧ r = r₃ := by simpa using heq
  exact named_of_mem hm

theorem named_ne_decimal {k : Text} (h : Named k) (n : Nat) : k ≠ decimal n := by
  rintro rfl
  obtain ⟨c, w, hw⟩ := List.exists_cons_of_ne_nil (decimal_ne_nil n)
  have hdigit : c.isDigit := isDigit_of_mem_toDigits (n := n) (by
    rw [show Nat.toDigits 10 n = c :: w from hw]
    simp)
  rw [h c (by rw [hw]; rfl)] at hdigit
  cases hdigit

/-- **No flag is found.**  The entries `is_swap_*` are stored under names. -/
theorem isSwap_new (disks swaps : Text) (n : Nat) :
    (new disks swaps).isSwap (decimal n) = none := by
  have hput : ∀ (ks : List Text) (v : Nat) (m : Bank Text Nat), (∀ k ∈ ks, Named k) →
      m (decimal n) = none → ks.foldl (fun m k => put m k v) m (decimal n) = none := by
    intro ks v
    induction ks with
    | nil => intro m _ hm; exact hm
    | cons k ks ih =>
        intro m hks hm
        refine ih _ (fun j hj => hks j (by simp [hj])) ?_
        exact (put_of_ne m v (named_ne_decimal (hks k (by simp)) n).symm).trans hm
  refine hput _ 1 _ (fun k hk => named_of_swap hk) ?_
  have h := hput ((partitions disks).map Prod.fst) 0 (fun _ => none) (by
    intro k hk
    obtain ⟨p, hp, rfl⟩ := List.mem_map.mp hk
    exact named_of_partition hp) rfl
  rwa [List.foldl_map] at h

/-- The second loop adds the sum of all partitions once for each of them. -/
theorem share_eq {self : Diskstats} (h : ∀ n : Nat, self.isSwap (decimal n) = none)
    (delta : Nat → ℚ) (i : Nat) :
    self.share delta false i = self.numPartitions * delta i ∧ self.share delta true i = 0 := by
  have hfold : ∀ swap, self.share delta swap i = (List.range self.numPartitions).foldl
      (fun t _ => if swap = false then t + delta i else t) 0 := by
    intro swap
    simp only [share, range_cast, List.foldl_map, h, Option.getD_none]
    cases swap <;> rfl
  rw [hfold, hfold]
  induction self.numPartitions with
  | zero => simp
  | succ n ih =>
      obtain ⟨hfalse, htrue⟩ := ih
      rw [List.range_succ, List.foldl_append, List.foldl_append, hfalse, htrue]
      simp only [List.foldl_cons, List.foldl_nil]
      refine ⟨?_, by simp⟩
      rw [if_pos trivial]
      push_cast
      ring

/-! ## One call -/

/-- Column `i` of a partition in a reading. -/
def field (disks n : Text) (i : Nat) : ℚ := fieldNum (((partitions disks).lookup n).getD []) i

/-- A reading lists exactly the partitions `P`, each once and with its number of
columns. -/
structure Lists (P : Finset Text) (w : Text → Nat) (disks : Text) : Prop where
  nodup : ((partitions disks).map Prod.fst).Nodup
  names : ((partitions disks).map Prod.fst).toFinset = P
  columns : ∀ p ∈ partitions disks, p.2.length = w p.1

/-- The rows of a reading, as numbers. -/
def rows (disks : Text) : List (Text × List ℚ) :=
  (partitions disks).map fun p => (p.1, p.2.map numify)

theorem flatMap_numbered (disks : Text) :
    (partitions disks).flatMap numbered = (rows disks).flatMap columnCells := by
  rw [rows, List.flatMap_map]
  congr 1
  funext p
  simp [numbered, columnCells, List.zipIdx_map]

theorem getD_map_numify (fld : List Text) (i : Nat) :
    (fld.map numify).getD i 0 = fieldNum fld i := by
  rw [fieldNum, List.getD, List.getD, List.getElem?_map]
  cases fld[i]? <;> simp

namespace Lists

variable {P : Finset Text} {w : Text → Nat} {disks : Text}

theorem rows_nodup (h : Lists P w disks) : ((rows disks).map Prod.fst).Nodup := by
  rw [rows, List.map_map]
  exact h.nodup

theorem field_eq (h : Lists P w disks) {p : Text × List Text} (hp : p ∈ partitions disks)
    (i : Nat) : field disks p.1 i = fieldNum p.2 i := by
  rw [field, lookup_of_nodup h.nodup hp, Option.getD_some]

theorem mem_iff (h : Lists P w disks) {n : Text} : n ∈ P ↔ ∃ p ∈ partitions disks, p.1 = n := by
  rw [← h.names, List.mem_toFinset, List.mem_map]

theorem field_of_le (h : Lists P w disks) {n : Text} (hn : n ∈ P) {i : Nat} (hi : w n ≤ i) :
    field disks n i = 0 := by
  obtain ⟨p, hp, rfl⟩ := h.mem_iff.mp hn
  have hnone : p.2[i]? = none := List.getElem?_eq_none (by rw [h.columns p hp]; exact hi)
  simp [h.field_eq hp, fieldNum, List.getD, hnone]

theorem length_eq (h : Lists P w disks) : (partitions disks).length = P.card := by
  rw [← h.names, List.toFinset_card_of_nodup h.nodup, List.length_map]

end Lists

/-- The object between two calls: the counters hold the last reading, and no flag is
found under a number. -/
structure Holds (P : Finset Text) (w : Text → Nat) (disks : Text) (last : Int)
    (s : Diskstats) : Prop where
  ctr : ∀ n ∈ P, ∀ i < w n, (s.ctr (n, i)).map Wrapctr.v = some (field disks n i)
  count : s.numPartitions = P.card
  flags : ∀ n : Nat, s.isSwap (decimal n) = none
  last : s.lastTstamp = last

theorem holds_new {P : Finset Text} {w : Text → Nat} {disks : Text} (h : Lists P w disks)
    (swaps : Text) : Holds P w disks 0 (new disks swaps) where
  ctr := by
    intro n hn i hi
    obtain ⟨p, hp, rfl⟩ := h.mem_iff.mp hn
    have hlen := h.columns p hp
    have hmem : (((p.1, i), fieldNum p.2 i) : (Text × Nat) × ℚ) ∈
        (rows disks).flatMap columnCells := by
      refine List.mem_flatMap.mpr ⟨(p.1, p.2.map numify), List.mem_map_of_mem hp, ?_⟩
      refine mem_columnCells.mpr ⟨rfl, ?_⟩
      have hi' : i < p.2.length := by omega
      simp [fieldNum, List.getD, List.getElem?_eq_getElem hi']
    have hput := putAll_of_mem (fun _ => none) (fresh ((rows disks).flatMap columnCells))
      (by
        rw [fresh, List.map_map]
        exact nodup_columnCells h.rows_nodup) (List.mem_map_of_mem hmem)
    have hctr : (new disks swaps).ctr =
        putAll (fun _ => none) (fresh ((rows disks).flatMap columnCells)) := by
      rw [← flatMap_numbered, new, foldl_putAll, fresh, List.map_flatMap]
      rfl
    rw [hctr, hput, h.field_eq hp]
    rfl
  count := h.length_eq
  flags := isSwap_new disks swaps
  last := rfl

/-- What the partitions have advanced between two readings, in one column. -/
def advance (disks disks' n : Text) (i : Nat) : ℚ := field disks' n i - field disks n i

/-- **One scan.** -/
theorem Holds.scan {P : Finset Text} {w : Text → Nat} {disks disks' : Text} {last : Int}
    {s : Diskstats} (h : Holds P w disks last s) (hlists : Lists P w disks')
    (hzero : ∀ n ∈ P, ∀ i, w n ≤ i → field disks n i = 0)
    (hgrow : ∀ n ∈ P, ∀ i, field disks n i ≤ field disks' n i) :
    ∃ ctr delta, scan s.ctr disks' = .ok (ctr, delta) ∧
      (∀ n ∈ P, ∀ i < w n, (ctr (n, i)).map Wrapctr.v = some (field disks' n i)) ∧
      ∀ i, delta i = ∑ n ∈ P, advance disks disks' n i := by
  have hrow : ∀ p ∈ rows disks', p.1 ∈ P ∧ p.2.length = w p.1 ∧
      ∀ i, p.2.getD i 0 = field disks' p.1 i := by
    intro p hp
    obtain ⟨q, hq, rfl⟩ := List.mem_map.mp hp
    refine ⟨hlists.mem_iff.mpr ⟨q, hq, rfl⟩, ?_, ?_⟩
    · simpa using hlists.columns q hq
    · intro i
      rw [getD_map_numify, hlists.field_eq hq]
  have hlast : ∀ p ∈ rows disks', ∀ i < p.2.length,
      (s.ctr (p.1, i)).map Wrapctr.v = some (field disks p.1 i) := by
    intro p hp i hi
    obtain ⟨hP, hlen, -⟩ := hrow p hp
    exact h.ctr p.1 hP i (by omega)
  obtain ⟨ctr, delta, hfeed, hholds, hdelta⟩ :=
    feed_columns (fun k => field disks k.1 k.2) hlists.rows_nodup hlast
  refine ⟨ctr, delta, ?_, ?_, ?_⟩
  · rw [Diskstats.scan, feed_flatMap, flatMap_numbered, hfeed]
  · intro n hn i hi
    obtain ⟨q, hq, rfl⟩ := hlists.mem_iff.mp hn
    have hp : (q.1, q.2.map numify) ∈ rows disks' := List.mem_map_of_mem hq
    obtain ⟨-, hlen, hfield⟩ := hrow _ hp
    rw [hholds _ hp i (by rw [hlen]; exact hi), hfield]
  · intro i
    have hsum : ∀ p ∈ rows disks', (if i < p.2.length then
        Wrapctr.step (field disks p.1 i) (p.2.getD i 0) else 0) = advance disks disks' p.1 i := by
      intro p hp
      obtain ⟨hP, hlen, hfield⟩ := hrow p hp
      by_cases hi : i < p.2.length
      · rw [if_pos hi, hfield, Wrapctr.step_of_le (hgrow p.1 hP i)]
        rfl
      · rw [if_neg hi, advance, hlists.field_of_le hP (by omega), hzero p.1 hP i (by omega),
          sub_zero]
    have hnames : ((rows disks').map Prod.fst).toFinset = P := by
      rw [rows, List.map_map]
      exact hlists.names
    rw [hdelta, List.map_congr_left hsum, ← hnames, List.sum_toFinset _ hlists.rows_nodup,
      List.map_map]
    rfl

/-- **One call.**  The disk group gets the advance of all partitions, as many times as
there are partitions, and the swap group gets nothing. -/
theorem Holds.sample {P : Finset Text} {w : Text → Nat} {disks : Text} {last : Int}
    {s : Diskstats} {call : Int × Text} (h : Holds P w disks last s)
    (hlists : Lists P w call.2) (hzero : ∀ n ∈ P, ∀ i, w n ≤ i → field disks n i = 0)
    (hgrow : ∀ n ∈ P, ∀ i, field disks n i ≤ field call.2 n i) :
    ∃ s', Holds P w call.2 call.1 s' ∧ s.sample call = .ok (s', table.map fun row =>
      (row.1, (if row.2.1 then 0 else P.card * ∑ n ∈ P, advance disks call.2 n row.2.2) /
        elapsed last call.1)) := by
  obtain ⟨ctr, delta, hscan, hctr, hdelta⟩ := h.scan hlists hzero hgrow
  refine ⟨{ s with ctr := ctr, lastTstamp := call.1 }, ⟨hctr, h.count, h.flags, rfl⟩, ?_⟩
  rw [Diskstats.sample, hscan, ok_bind, mapM_rates _ _ (elapsed_ne_zero _ _), ok_bind, h.last]
  have hshare : ∀ swap i, s.share delta swap i =
      if swap then 0 else P.card * ∑ n ∈ P, advance disks call.2 n i := by
    intro swap i
    obtain ⟨hfalse, htrue⟩ := share_eq h.flags delta i
    cases swap with
    | false => rw [hfalse, h.count, hdelta]; rfl
    | true => rw [htrue]; rfl
  simp only [hshare]
  rfl

theorem getdata_of_sample {s s' : Diskstats} {call : Int × Text} {rates : List (Text × ℚ)}
    (h : s.sample call = .ok (s', rates)) :
    s.getdata call = .ok (s', rates.map fun r => (r.1, .num (round00 r.2))) := by
  rw [getdata, h]
  rfl

/-! ## Steady runs -/

/-- Same partitions throughout, no column ever decreases, time goes on. -/
structure SteadyRun (P : Finset Text) (w : Text → Nat) (disks₀ : Text)
    (calls : List (Int × Text)) : Prop where
  lists : ∀ disks ∈ disks₀ :: calls.map Prod.snd, Lists P w disks
  grows : (disks₀ :: calls.map Prod.snd).IsChain fun d d' =>
    ∀ n ∈ P, ∀ i < w n, field d n i ≤ field d' n i
  times : (0 :: calls.map Prod.fst).IsChain (· < ·)

/-- Columns that are not there do not decrease either. -/
theorem Lists.grows {P : Finset Text} {w : Text → Nat} {disks disks' : Text}
    (h : Lists P w disks) (h' : Lists P w disks')
    (hgrow : ∀ n ∈ P, ∀ i < w n, field disks n i ≤ field disks' n i) :
    ∀ n ∈ P, ∀ i, field disks n i ≤ field disks' n i := by
  intro n hn i
  by_cases hi : i < w n
  · exact hgrow n hn i hi
  · rw [h.field_of_le hn (by omega), h'.field_of_le hn (by omega)]

/-- **The run.**  Calls of a steady run complete and leave the counters at the last
reading. -/
theorem holds_after {P : Finset Text} {w : Text → Nat} {disks : Text} {last : Int}
    {s : Diskstats} {calls : List (Int × Text)} (hs : Holds P w disks last s)
    (hlists : ∀ d ∈ disks :: calls.map Prod.snd, Lists P w d)
    (hgrows : (disks :: calls.map Prod.snd).IsChain fun d d' =>
      ∀ n ∈ P, ∀ i < w n, field d n i ≤ field d' n i) :
    ∃ t, after getdata s calls = .ok t ∧
      Holds P w ((calls.map Prod.snd).getLastD disks) ((calls.map Prod.fst).getLastD last) t := by
  induction calls generalizing s disks last with
  | nil => exact ⟨s, rfl, hs⟩
  | cons c calls ih =>
      rw [List.map_cons, List.isChain_cons_cons] at hgrows
      have hd := hlists disks (by simp)
      have hc := hlists c.2 (by simp)
      obtain ⟨s', hs', hsample⟩ := hs.sample hc (fun n hn i hi => hd.field_of_le hn hi)
        (hd.grows hc hgrows.1)
      obtain ⟨t, ht, hholds⟩ := ih hs' (fun d h => hlists d (by
        simp only [List.map_cons, List.mem_cons] at h ⊢
        exact Or.inr h)) hgrows.2
      refine ⟨t, ?_, ?_⟩
      · rw [after_cons_ok (getdata_of_sample hsample)]
        exact ht
      · simpa only [List.map_cons, List.getLastD_cons] using hholds

/-- The rates as they should be: each partition counts in its own group, once. -/
def splitRates (P : Finset Text) (swap : List Text) (disks disks' : Text) (dt : ℚ) :
    List (Text × ℚ) :=
  table.map fun row =>
    (row.1, (∑ n ∈ P with (n ∈ swap ↔ row.2.1 = true), advance disks disks' n row.2.2) / dt)

/-- One column: the sum of all partitions, as many times as there are partitions, is the
sum of the data partitions, and the sum of the swap partitions is nothing. -/
theorem column_split_iff {P : Finset Text} {a : Text → ℚ} (hpos : ∀ n ∈ P, 0 ≤ a n)
    (swap : List Text) :
    (P.card * ∑ n ∈ P, a n = ∑ n ∈ P with n ∉ swap, a n ∧ 0 = ∑ n ∈ P with n ∈ swap, a n) ↔
      (∀ n ∈ P, n ∈ swap → a n = 0) ∧ (P.card = 1 ∨ ∀ n ∈ P, n ∉ swap → a n = 0) := by
  have hsplit : ∑ n ∈ P, a n = ∑ n ∈ P with n ∈ swap, a n + ∑ n ∈ P with n ∉ swap, a n :=
    (Finset.sum_filter_add_sum_filter_not P _ _).symm
  have hswap : ∑ n ∈ P with n ∈ swap, a n = 0 ↔ ∀ n ∈ P, n ∈ swap → a n = 0 := by
    rw [Finset.sum_eq_zero_iff_of_nonneg fun n hn => hpos n (Finset.mem_filter.mp hn).1]
    simp [Finset.mem_filter]
  have hdata : ∑ n ∈ P with n ∉ swap, a n = 0 ↔ ∀ n ∈ P, n ∉ swap → a n = 0 := by
    rw [Finset.sum_eq_zero_iff_of_nonneg fun n hn => hpos n (Finset.mem_filter.mp hn).1]
    simp [Finset.mem_filter]
  rw [← hswap, ← hdata, hsplit]
  constructor
  · intro ⟨hdisk, hzero⟩
    refine ⟨hzero.symm, ?_⟩
    rw [← hzero, zero_add] at hdisk
    by_cases hD : ∑ n ∈ P with n ∉ swap, a n = 0
    · exact Or.inr hD
    · exact Or.inl (by exact_mod_cast (mul_eq_right₀ hD).mp hdisk)
  · intro ⟨hzero, hone⟩
    rw [hzero, zero_add]
    rcases hone with hone | hone
    · simp [hone]
    · simp [hone]

/-- The rates of a call are the right ones exactly when every column is. -/
theorem rates_eq_split_iff {P : Finset Text} {disks disks' : Text}
    (hpos : ∀ n ∈ P, ∀ i, 0 ≤ advance disks disks' n i) (swap : List Text) {dt : ℚ}
    (hdt : dt ≠ 0) :
    (table.map fun row => (row.1,
        (if row.2.1 then 0 else P.card * ∑ n ∈ P, advance disks disks' n row.2.2) / dt)) =
        splitRates P swap disks disks' dt ↔
      ∀ i ∈ [0, 2, 4, 6], (∀ n ∈ P, n ∈ swap → advance disks disks' n i = 0) ∧
        (P.card = 1 ∨ ∀ n ∈ P, n ∉ swap → advance disks disks' n i = 0) := by
  have hcolumn : ∀ i, _ := fun i =>
    column_split_iff (a := fun n => advance disks disks' n i) (fun n hn => hpos n hn i) swap
  simp only [← hcolumn]
  rw [splitRates, List.map_inj_left]
  simp only [table, List.forall_mem_cons, Prod.mk.injEq, true_and, div_left_inj' hdt, if_true,
    iff_true, Bool.false_eq_true, if_false, iff_false, List.not_mem_nil, false_imp_iff,
    implies_true, and_true]
  tauto

/-- A chain up to some point, and the step there. -/
theorem isChain_split {α : Type} {R : α → α → Prop} {a y : α} {xs ys : List α}
    (h : (a :: (xs ++ y :: ys)).IsChain R) : (a :: xs).IsChain R ∧ R (xs.getLastD a) y := by
  induction xs generalizing a with
  | nil =>
      rw [List.nil_append, List.isChain_cons_cons] at h
      exact ⟨List.isChain_singleton a, h.1⟩
  | cons x xs ih =>
      rw [List.cons_append, List.isChain_cons_cons] at h
      obtain ⟨hchain, hlast⟩ := ih h.2
      rw [List.isChain_cons_cons, List.getLastD_cons]
      exact ⟨⟨h.1, hchain⟩, hlast⟩

/-- **A call of a steady run.** -/
theorem SteadyRun.sample_at {disks₀ : Text} {P : Finset Text} {w : Text → Nat}
    {pre post : List (Int × Text)} {c : Int × Text}
    (hrun : SteadyRun P w disks₀ (pre ++ c :: post)) (swaps : Text) :
    let disks := (pre.map Prod.snd).getLastD disks₀
    let last := (pre.map Prod.fst).getLastD 0
    (∀ n ∈ P, ∀ i, 0 ≤ advance disks c.2 n i) ∧ last < c.1 ∧
      ∃ s s', after getdata (new disks₀ swaps) pre = .ok s ∧
        s.sample c = .ok (s', table.map fun row => (row.1,
          (if row.2.1 then 0 else P.card * ∑ n ∈ P, advance disks c.2 n row.2.2) /
            (c.1 - last))) := by
  intro disks last
  have hlists := hrun.lists
  have hgrows := hrun.grows
  have htimes := hrun.times
  rw [List.map_append, List.map_cons] at hlists hgrows htimes
  obtain ⟨hgrows, hgrow⟩ := isChain_split hgrows
  obtain ⟨-, htime⟩ := isChain_split htimes
  have hpre : ∀ d ∈ disks₀ :: pre.map Prod.snd, Lists P w d := by
    intro d hd
    refine hlists d ?_
    rcases List.mem_cons.mp hd with rfl | hd
    · simp
    · exact List.mem_cons_of_mem _ (List.mem_append_left _ hd)
  have hdisks : Lists P w disks := hpre _ List.getLastD_mem_cons
  have hc : Lists P w c.2 := hlists c.2 (by simp)
  have hgrow := hdisks.grows hc hgrow
  refine ⟨fun n hn i => sub_nonneg.mpr (hgrow n hn i), htime, ?_⟩
  obtain ⟨s, hafter, hs⟩ := holds_after (holds_new (hlists disks₀ (by simp)) swaps) hpre hgrows
  obtain ⟨s', -, hsample⟩ := hs.sample hc (fun n hn i hi => hdisks.field_of_le hn hi) hgrow
  rw [elapsed_of_lt htime] at hsample
  exact ⟨s, s', hafter, hsample⟩

/-- **Disks and swap.**  In every call of a steady run, the eight rates are those of the
two groups if and only if, in each of the four columns, no swap partition has advanced
and there is one partition or no data partition has advanced either. -/
theorem diskstats_split_iff (disks₀ swaps : Text) (P : Finset Text) (w : Text → Nat)
    (calls : List (Int × Text)) (hrun : SteadyRun P w disks₀ calls)
    (pre post : List (Int × Text)) (c : Int × Text) (hsplit : calls = pre ++ c :: post) :
    ∃ s s' rates, after getdata (new disks₀ swaps) pre = .ok s ∧
      s.sample c = .ok (s', rates) ∧
      (rates = splitRates P (swapNames swaps) ((pre.map Prod.snd).getLastD disks₀) c.2
          (c.1 - (pre.map Prod.fst).getLastD 0) ↔
        ∀ i ∈ [0, 2, 4, 6],
          (∀ n ∈ P, n ∈ swapNames swaps →
            advance ((pre.map Prod.snd).getLastD disks₀) c.2 n i = 0) ∧
          (P.card = 1 ∨ ∀ n ∈ P, n ∉ swapNames swaps →
            advance ((pre.map Prod.snd).getLastD disks₀) c.2 n i = 0)) := by
  subst hsplit
  obtain ⟨hpos, htime, s, s', hafter, hsample⟩ := hrun.sample_at swaps
  refine ⟨s, s', _, hafter, hsample, ?_⟩
  refine rates_eq_split_iff hpos _ ?_
  exact sub_ne_zero.mpr (by exact_mod_cast htime.ne')

/-- A reading of two partitions. -/
def twoPartitions (sda1 sda2 : Nat) : Text :=
  "   8    1 sda1 ".toList ++ decimal sda1 ++ " 0 80 0 5 0 40 0\n".toList ++
    "   8    2 sda2 ".toList ++ decimal sda2 ++ " 0 24 0 1 0 8 0\n".toList

/-- The second of them is a swap partition. -/
def oneSwap : Text := "Filename Type Size Used Priority\n/dev/sda2 partition 8388604 0 -1\n".toList

theorem twoPartitions_run : SteadyRun {"sda1".toList, "sda2".toList} (fun _ => 8)
    (twoPartitions 10 3) [(100, twoPartitions 20 3), (110, twoPartitions 30 8)] where
  lists := by
    intro disks h
    simp only [List.map_cons, List.map_nil, List.mem_cons, List.not_mem_nil, or_false] at h
    rcases h with rfl | rfl | rfl <;>
      exact ⟨by decide +kernel, by decide +kernel, by decide +kernel⟩
  grows := by decide +kernel
  times := by decide

theorem diskstats_split_two :
    ∃ s s' rates, after getdata (new (twoPartitions 10 3) oneSwap)
        [(100, twoPartitions 20 3)] = .ok s ∧
      s.sample (110, twoPartitions 30 8) = .ok (s', rates) ∧
      (rates = splitRates {"sda1".toList, "sda2".toList} (swapNames oneSwap)
          (twoPartitions 20 3) (twoPartitions 30 8) (((110 : Int) : ℚ) - ((100 : Int) : ℚ)) ↔
        ∀ i ∈ [0, 2, 4, 6],
          (∀ n ∈ ({"sda1".toList, "sda2".toList} : Finset Text), n ∈ swapNames oneSwap →
            advance (twoPartitions 20 3) (twoPartitions 30 8) n i = 0) ∧
          (({"sda1".toList, "sda2".toList} : Finset Text).card = 1 ∨
            ∀ n ∈ ({"sda1".toList, "sda2".toList} : Finset Text), n ∉ swapNames oneSwap →
            advance (twoPartitions 20 3) (twoPartitions 30 8) n i = 0)) :=
  diskstats_split_iff (twoPartitions 10 3) oneSwap {"sda1".toList, "sda2".toList} (fun _ => 8) _
    twoPartitions_run [(100, twoPartitions 20 3)] [] (110, twoPartitions 30 8) rfl

/-- In that call the data partition has advanced by 10 and the swap partition by 5 within
ten seconds: `disk_rd` is 3, not 1. -/
theorem two_partitions_not_split :
    ∃ s s' rates, after getdata (new (twoPartitions 10 3) oneSwap)
        [(100, twoPartitions 20 3)] = .ok s ∧
      s.sample (110, twoPartitions 30 8) = .ok (s', rates) ∧
      rates ≠ splitRates {"sda1".toList, "sda2".toList} (swapNames oneSwap)
        (twoPartitions 20 3) (twoPartitions 30 8)
        (((110 : Int) : ℚ) - ((100 : Int) : ℚ)) := by
  obtain ⟨hpos, -, s, s', hafter, hsample⟩ := @SteadyRun.sample_at _ _ _
    [(100, twoPartitions 20 3)] [] (110, twoPartitions 30 8) twoPartitions_run oneSwap
  refine ⟨s, s', _, hafter, hsample, ?_⟩
  intro heq
  have hidle := (rates_eq_split_iff hpos (swapNames oneSwap) (by norm_num)).mp heq 0 (by simp)
  have hswap := hidle.1 "sda2".toList (by decide) (by decide +kernel)
  exact absurd hswap (by decide +kernel)

end Diskstats

end Memrec
