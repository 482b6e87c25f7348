import Mathlib.Tactic.FieldSimp
import Memrec.CpuLoad

/-!
# The histogram of `basesubs`

`histogram( nbins, mn, mx, data )` begins with four counts whatever `nbins` is,
and finds the element for a value by dividing the value itself, and not its
distance from `mn`, by the width of a bin.  So an element is numbered from zero,
the array grows as far as values reach, elements that no value reaches stay
undefined, and a negative subscript counts from the end.

`histogram_counts_iff` says for which input the values are counted where they
belong nevertheless.  The parts are

* `Placed`: at its turn every value finds the element of its bin, which is what
  the counts show (`counted_iff_placed`);
* `Filled`: what the array looks like after any number of values that have been
  placed;
* `Aligned`: the condition on a value, and `aligned_of_element`, `element_of_aligned`.
-/

namespace Memrec

open Perl CellBank

/-- The element that a subscript names in an array; one before the beginning
names none. -/
def element (len : Nat) (i : Int) : Option Nat :=
  if 0 ≤ i then some i.toNat
  else if 0 ≤ len + i then some (len + i).toNat
  else none

/-- An element read as a number. -/
def countAt (hist : List (Option Int)) (k : Nat) : Int := (hist.getD k none).getD 0

/-- `$hist[$i]++`. -/
def bump (hist : List (Option Int)) (i : Int) : Except Die (List (Option Int)) :=
  match element hist.length i with
  | none => .error .badSubscript
  | some k => pure (setAt hist k (countAt hist k + 1))

/-- The loop over the data. -/
def histogramLoop (binsz : ℚ) (data : List ℚ) : Except Die (List (Option Int)) :=
  data.foldlM (fun hist d => do
    let r ← div d binsz
    bump hist (int r)) (List.replicate 4 (some 0))

/-- `basesubs::histogram`. -/
def histogram (nbins : Nat) (mn mx : ℚ) (data : List ℚ) : Except Die Text := do
  let binsz ← div (mx - mn) nbins
  let hist ← histogramLoop binsz data
  pure (joinCommas hist)

/-! ## What is expected -/

/-- The bin of a value; the upper end belongs to the last one. -/
def binOf (nbins : Nat) (mn mx d : ℚ) : Nat :=
  if d = mx then nbins - 1 else ⌊(d - mn) * nbins / (mx - mn)⌋.toNat

/-- The counts are those of the bins: there are `nbins` of them, they add up to the
number of values, and each value has been counted in its bin. -/
structure Counted (nbins : Nat) (mn mx : ℚ) (data : List ℚ) : Prop where
  counts : ∃ counts : List Int,
    histogram nbins mn mx data = .ok (joinCommas (counts.map some)) ∧
      counts.length = nbins ∧ counts.sum = data.length
  each : ∀ pre d post, data = pre ++ d :: post →
    ∃ h h', histogramLoop ((mx - mn) / nbins) pre = .ok h ∧
      histogramLoop ((mx - mn) / nbins) (pre ++ [d]) = .ok h' ∧
      ∀ j, countAt h' j = countAt h j + if j = binOf nbins mn mx d then 1 else 0

/-- The multiples of the bin width between which a value lies are those of its
bin, once counted from `mn` and once from zero; or, with four bins, counted back
from zero. -/
inductive Aligned (nbins : Nat) (mn mx d : ℚ) : Prop
  | first (hb : binOf nbins mn mx d = 0) (hlo : -((mx - mn) / nbins) < d)
      (hhi : d < (mx - mn) / nbins) : Aligned nbins mn mx d
  | upper (hb : 0 < binOf nbins mn mx d) (hlo : binOf nbins mn mx d * ((mx - mn) / nbins) ≤ d)
      (hhi : d < (binOf nbins mn mx d + 1) * ((mx - mn) / nbins)) : Aligned nbins mn mx d
  | fromEnd (h4 : nbins = 4) (hlo : (binOf nbins mn mx d - 5) * ((mx - mn) / nbins) < d)
      (hhi : d ≤ (binOf nbins mn mx d - 4) * ((mx - mn) / nbins)) : Aligned nbins mn mx d

/-! ## One value -/

theorem countAt_setAt (hist : List (Option Int)) (k j : Nat) :
    countAt (setAt hist k (countAt hist k + 1)) j = countAt hist j + if j = k then 1 else 0 := by
  rw [countAt, getD_setAt]
  by_cases hj : j = k
  · subst hj
    rw [if_pos rfl, if_pos rfl]
    rfl
  · rw [if_neg hj, if_neg hj, add_zero, countAt]

theorem histogramLoop_snoc {w : ℚ} (hw : w ≠ 0) (pre : List ℚ) (d : ℚ) :
    histogramLoop w (pre ++ [d]) = (histogramLoop w pre >>= fun h => bump h (int (d / w))) := by
  simp [histogramLoop, List.foldlM_append, div_of_ne hw, ok_bind]

/-- The numbers that are cut off to a given one. -/
theorem int_eq_natCast_iff {x : ℚ} {b : Nat} (hb : 0 < b) :
    int x = b ↔ (b : ℚ) ≤ x ∧ x < b + 1 := by
  have hb' : (1 : ℚ) ≤ b := by exact_mod_cast hb
  unfold int
  by_cases hx : 0 ≤ x
  · rw [if_pos hx, Int.floor_eq_iff]
    simp
  · rw [if_neg hx, Int.ceil_eq_iff]
    constructor
    · rintro ⟨hlo, -⟩
      push_cast at hlo
      linarith
    · rintro ⟨hlo, -⟩
      linarith

theorem int_eq_zero_iff {x : ℚ} : int x = 0 ↔ -1 < x ∧ x < 1 := by
  unfold int
  by_cases hx : 0 ≤ x
  · rw [if_pos hx, Int.floor_eq_iff]
    constructor
    · rintro ⟨-, hhi⟩
      push_cast at hhi
      constructor <;> linarith
    · rintro ⟨-, hhi⟩
      push_cast
      constructor <;> linarith
  · rw [if_neg hx, Int.ceil_eq_iff]
    push_cast
    constructor
    · rintro ⟨hlo, -⟩
      constructor <;> linarith
    · rintro ⟨hlo, -⟩
      constructor <;> linarith

theorem int_eq_neg_iff {x : ℚ} {n : Int} (hn : n < 0) :
    int x = n ↔ (n : ℚ) - 1 < x ∧ x ≤ n := by
  have hn' : (n : ℚ) < 0 := by exact_mod_cast hn
  unfold int
  by_cases hx : 0 ≤ x
  · rw [if_pos hx, Int.floor_eq_iff]
    constructor
    · rintro ⟨-, hhi⟩
      have hn1 : (n : ℚ) + 1 ≤ 0 := by exact_mod_cast hn
      linarith
    · rintro ⟨-, hhi⟩
      linarith
  · rw [if_neg hx, Int.ceil_eq_iff]

section Bins

variable {nbins : Nat} {mn mx : ℚ}

theorem binWidth_pos (hn : 1 ≤ nbins) (hmx : mn < mx) : 0 < (mx - mn) / nbins :=
  div_pos (sub_pos.mpr hmx) (by exact_mod_cast hn)

theorem binOf_lt (hn : 1 ≤ nbins) {d : ℚ} (hd : mn ≤ d ∧ d ≤ mx) : binOf nbins mn mx d < nbins := by
  unfold binOf
  split
  case isTrue => omega
  case isFalse h =>
    have hlt : d < mx := lt_of_le_of_ne hd.2 h
    have hrange : 0 < mx - mn := by linarith
    have hnbins : (0 : ℚ) < nbins := by exact_mod_cast hn
    have hquot : (d - mn) * nbins / (mx - mn) < nbins := by
      rw [div_lt_iff₀ hrange, mul_comm]
      exact mul_lt_mul_of_pos_left (by linarith) hnbins
    have hfloor : ⌊(d - mn) * nbins / (mx - mn)⌋ < nbins :=
      Int.floor_lt.mpr (by exact_mod_cast hquot)
    omega

/-- The lower end belongs to the first bin. -/
theorem binOf_lower (hmx : mn < mx) : binOf nbins mn mx mn = 0 := by
  rw [binOf, if_neg hmx.ne, sub_self, zero_mul, zero_div]
  rfl

/-- What `Aligned` says about the subscript. -/
theorem aligned_iff {d : ℚ} (hw : 0 < (mx - mn) / nbins) (hb : binOf nbins mn mx d < nbins) :
    Aligned nbins mn mx d ↔ int (d / ((mx - mn) / nbins)) = binOf nbins mn mx d ∨
      nbins = 4 ∧ int (d / ((mx - mn) / nbins)) = (binOf nbins mn mx d : Int) - 4 := by
  constructor
  · rintro (⟨hb0, hlo, hhi⟩ | ⟨hpos, hlo, hhi⟩ | ⟨h4, hlo, hhi⟩)
    · left
      rw [hb0, Nat.cast_zero, int_eq_zero_iff, lt_div_iff₀ hw, div_lt_iff₀ hw]
      constructor <;> linarith
    · left
      rw [int_eq_natCast_iff hpos, le_div_iff₀ hw, div_lt_iff₀ hw]
      exact ⟨hlo, hhi⟩
    · right
      refine ⟨h4, ?_⟩
      rw [int_eq_neg_iff (by omega), lt_div_iff₀ hw, div_le_iff₀ hw]
      push_cast
      constructor <;> linarith
  · rintro (h | ⟨h4, h⟩)
    · rcases Nat.eq_zero_or_pos (binOf nbins mn mx d) with hb0 | hpos
      · rw [hb0, Nat.cast_zero, int_eq_zero_iff, lt_div_iff₀ hw, div_lt_iff₀ hw] at h
        exact .first hb0 (by linarith [h.1]) (by linarith [h.2])
      · rw [int_eq_natCast_iff hpos, le_div_iff₀ hw, div_lt_iff₀ hw] at h
        exact .upper hpos h.1 h.2
    · rw [int_eq_neg_iff (by omega), lt_div_iff₀ hw, div_le_iff₀ hw] at h
      push_cast at h
      exact .fromEnd h4 (by linarith [h.1]) (by linarith [h.2])

/-- At its turn every value finds the element of its bin. -/
def Placed (nbins : Nat) (mn mx : ℚ) (data : List ℚ) : Prop :=
  ∀ pre d post, data = pre ++ d :: post →
    ∃ h, histogramLoop ((mx - mn) / nbins) pre = .ok h ∧
      element h.length (int (d / ((mx - mn) / nbins))) = some (binOf nbins mn mx d)

theorem bump_of_element {hist : List (Option Int)} {i : Int} {k : Nat}
    (h : element hist.length i = some k) :
    bump hist i = .ok (setAt hist k (countAt hist k + 1)) := by
  rw [bump, h]
  rfl

/-- The element that a count goes up in is the one that the value has found. -/
theorem counted_iff_placed (hw : 0 < (mx - mn) / nbins) {data : List ℚ} :
    (∀ pre d post, data = pre ++ d :: post →
      ∃ h h', histogramLoop ((mx - mn) / nbins) pre = .ok h ∧
        histogramLoop ((mx - mn) / nbins) (pre ++ [d]) = .ok h' ∧
        ∀ j, countAt h' j = countAt h j + if j = binOf nbins mn mx d then 1 else 0) ↔
      Placed nbins mn mx data := by
  constructor
  · intro hcounts pre d post hsplit
    obtain ⟨h, h', hpre, hnext, hj⟩ := hcounts pre d post hsplit
    rw [histogramLoop_snoc hw.ne', hpre, ok_bind] at hnext
    refine ⟨h, hpre, ?_⟩
    cases hk : element h.length (int (d / ((mx - mn) / nbins))) with
    | none =>
        rw [bump, hk] at hnext
        cases hnext
    | some k =>
        rw [bump_of_element hk] at hnext
        cases hnext
        have hup := (countAt_setAt h k k).symm.trans (hj k)
        by_cases heq : k = binOf nbins mn mx d
        · rw [heq]
        · rw [if_pos rfl, if_neg heq] at hup
          omega
  · intro hplaced pre d post hsplit
    obtain ⟨h, hpre, hk⟩ := hplaced pre d post hsplit
    refine ⟨h, _, hpre, ?_, countAt_setAt h (binOf nbins mn mx d)⟩
    rw [histogramLoop_snoc hw.ne', hpre, ok_bind, bump_of_element hk]

theorem element_eq_some_iff {len k : Nat} {i : Int} :
    element len i = some k ↔ i = k ∨ i < 0 ∧ len + i = k := by
  unfold element
  constructor
  · intro h
    split at h
    case isTrue hi =>
      have := Option.some.inj h
      omega
    case isFalse hi =>
      split at h
      case isTrue =>
        have := Option.some.inj h
        omega
      case isFalse => cases h
  · rintro (rfl | ⟨hneg, h⟩)
    · rw [if_pos (Int.natCast_nonneg _), Int.toNat_natCast]
    · rw [if_neg (by omega), if_pos (by omega), h, Int.toNat_natCast]

/-- The elements always add up to the number of values counted. -/
theorem sum_setAt (hist : List (Option Int)) (k : Nat) :
    ((setAt hist k (countAt hist k + 1)).map fun x => x.getD 0).sum =
      (hist.map fun x => x.getD 0).sum + 1 := by
  have hpad : ((hist ++ List.replicate (k + 1 - hist.length) none).map
      fun x : Option Int => x.getD 0).sum =
      (hist.map fun x => x.getD 0).sum := by
    rw [List.map_append, List.sum_append, List.map_replicate, List.sum_replicate]
    simp
  have hlen : k < (hist ++ List.replicate (k + 1 - hist.length) none).length := by
    rw [List.length_append, List.length_replicate]
    omega
  have hold : (hist ++ List.replicate (k + 1 - hist.length) none)[k] = hist.getD k none := by
    by_cases hk : k < hist.length
    · rw [List.getElem_append_left hk, List.getD_eq_getElem _ _ hk]
    · rw [List.getElem_append_right (by omega), List.getElem_replicate,
        List.getD_eq_default _ _ (by omega)]
  rw [setAt, List.map_set, List.sum_set', dif_pos (by rwa [List.length_map]), hpad,
    List.getElem_map, hold, Option.getD_some, countAt]
  omega

/-- The array after values that have all been placed. -/
structure Filled (nbins : Nat) (mn mx : ℚ) (data : List ℚ) (hist : List (Option Int)) : Prop where
  four : 4 ≤ hist.length
  isSome_iff : ∀ j, (hist.getD j none).isSome ↔ j < 4 ∨ ∃ d ∈ data, binOf nbins mn mx d = j
  sum : (hist.map fun x => x.getD 0).sum = data.length
  below : ∀ d ∈ data, binOf nbins mn mx d < hist.length
  top : hist.length = 4 ∨ ∃ d ∈ data, int (d / ((mx - mn) / nbins)) = binOf nbins mn mx d ∧
    binOf nbins mn mx d + 1 = hist.length

theorem Filled.nil : Filled nbins mn mx [] (List.replicate 4 (some 0)) where
  four := le_refl _
  isSome_iff j := by
    rw [List.getD, List.getElem?_replicate]
    by_cases hj : j < 4 <;> simp [hj]
  sum := rfl
  below := fun _ h => absurd h List.not_mem_nil
  top := Or.inl rfl

/-- One more value. -/
theorem Filled.step {pre : List ℚ} {d : ℚ} {h : List (Option Int)}
    (hfill : Filled nbins mn mx pre h)
    (hk : element h.length (int (d / ((mx - mn) / nbins))) = some (binOf nbins mn mx d)) :
    Filled nbins mn mx (pre ++ [d])
      (setAt h (binOf nbins mn mx d) (countAt h (binOf nbins mn mx d) + 1)) where
  four := by
    rw [length_setAt]
    exact le_max_of_le_left hfill.four
  isSome_iff j := by
    rw [getD_setAt]
    by_cases hj : j = binOf nbins mn mx d
    · simp [hj]
    · rw [if_neg hj, hfill.isSome_iff j]
      simp [Ne.symm hj, or_and_right, exists_or]
  sum := by
    rw [sum_setAt, hfill.sum, List.length_append]
    rfl
  below := by
    intro x hx
    rw [length_setAt]
    rcases List.mem_append.mp hx with hx | hx
    · exact lt_max_of_lt_left (hfill.below x hx)
    · rw [List.mem_singleton.mp hx]
      exact lt_max_of_lt_right (Nat.lt_succ_self _)
  top := by
    rw [length_setAt]
    by_cases hlt : binOf nbins mn mx d < h.length
    · -- the array has not grown
      rw [max_eq_left (by omega)]
      rcases hfill.top with h4 | ⟨x, hx, htop⟩
      · exact Or.inl h4
      · exact Or.inr ⟨x, List.mem_append_left _ hx, htop⟩
    · rw [max_eq_right (by omega)]
      refine Or.inr ⟨d, by simp, ?_, rfl⟩
      rcases element_eq_some_iff.mp hk with hi | ⟨hneg, hi⟩
      · exact hi
      · omega

theorem Placed.of_append {pre post : List ℚ} (h : Placed nbins mn mx (pre ++ post)) :
    Placed nbins mn mx pre := by
  rintro pre' x post' rfl
  exact h pre' x (post' ++ post) (by simp)

/-- The array after values that have all been placed. -/
theorem Placed.filled (hw : 0 < (mx - mn) / nbins) {data : List ℚ}
    (h : Placed nbins mn mx data) :
    ∃ hist, histogramLoop ((mx - mn) / nbins) data = .ok hist ∧ Filled nbins mn mx data hist := by
  induction data using List.reverseRecOn with
  | nil => exact ⟨_, rfl, Filled.nil⟩
  | append_singleton pre d ih =>
      obtain ⟨hist, hpre, hfill⟩ := ih h.of_append
      obtain ⟨hist', hpre', hk⟩ := h pre d [] rfl
      obtain rfl : hist = hist' := Except.ok.inj (hpre.symm.trans hpre')
      refine ⟨_, ?_, hfill.step hk⟩
      rw [histogramLoop_snoc hw.ne', hpre, ok_bind, bump_of_element hk]

/-- With four bins the array does not grow. -/
theorem Filled.length_le {data : List ℚ} {hist : List (Option Int)} {n : Nat}
    (hfill : Filled nbins mn mx data hist) (hdata : ∀ d ∈ data, binOf nbins mn mx d < n)
    (hn : 4 ≤ n) : hist.length ≤ n := by
  rcases hfill.top with h4 | ⟨d, hd, -, htop⟩
  · omega
  · have := hdata d hd
    omega

/-- Aligned values are placed. -/
theorem placed_of_aligned (hw : 0 < (mx - mn) / nbins) {data : List ℚ}
    (hdata : ∀ d ∈ data, binOf nbins mn mx d < nbins)
    (haligned : ∀ d ∈ data, Aligned nbins mn mx d) : Placed nbins mn mx data := by
  induction data using List.reverseRecOn with
  | nil =>
      intro pre d post h
      simp at h
  | append_singleton pre d ih =>
      have hplaced := ih (fun x hx => hdata x (List.mem_append_left _ hx))
        (fun x hx => haligned x (List.mem_append_left _ hx))
      obtain ⟨hist, hloop, hfill⟩ := hplaced.filled hw
      have hlast : element hist.length (int (d / ((mx - mn) / nbins))) =
          some (binOf nbins mn mx d) := by
        have hb := hdata d (by simp)
        rcases (aligned_iff hw hb).mp (haligned d (by simp)) with hi | ⟨h4, hi⟩
        · exact element_eq_some_iff.mpr (Or.inl hi)
        · have hlen : hist.length = 4 :=
            le_antisymm (hfill.length_le (fun x hx => h4 ▸ hdata x (List.mem_append_left _ hx))
              (le_refl 4)) hfill.four
          exact element_eq_some_iff.mpr (Or.inr ⟨by omega, by omega⟩)
      intro pre' x post hsplit
      obtain rfl | ⟨post, y, rfl⟩ := post.eq_nil_or_concat'
      · obtain ⟨rfl, hx⟩ := List.append_inj' hsplit rfl
        obtain rfl : d = x := by simpa using hx
        exact ⟨hist, hloop, hlast⟩
      · rw [← List.cons_append, ← List.append_assoc] at hsplit
        obtain ⟨rfl, -⟩ := List.append_inj' hsplit rfl
        exact hplaced pre' x post rfl

/-- Once the array has grown to the last bin, no subscript can be negative: the value
that made it grow is at most `mx`, and so no value is below `-binsz`. -/
theorem int_nonneg_of_top (hn : 4 < nbins) (hmx : mn < mx) {top d : ℚ}
    (htop : top ≤ mx) (hlast : int (top / ((mx - mn) / nbins)) + 1 = nbins)
    (hd : mn ≤ d) (hb : d = mn → int (d / ((mx - mn) / nbins)) ≠ -1) :
    0 ≤ int (d / ((mx - mn) / nbins)) := by
  have hw : 0 < (mx - mn) / nbins := binWidth_pos (by omega) hmx
  have hrange : (nbins : ℚ) * ((mx - mn) / nbins) = mx - mn := by
    have hne : (nbins : ℚ) ≠ 0 := by
      have : nbins ≠ 0 := by omega
      exact_mod_cast this
    field_simp
  by_contra hneg
  have hle : d / ((mx - mn) / nbins) ≤ -1 := by
    have hint : int (d / ((mx - mn) / nbins)) < 0 := by omega
    have hbound := ((int_eq_neg_iff hint).mp rfl).2
    have hcast : (int (d / ((mx - mn) / nbins)) : ℚ) ≤ -1 := by
      exact_mod_cast Int.le_sub_one_of_lt hint
    linarith
  have hge : (nbins : ℚ) - 1 ≤ top / ((mx - mn) / nbins) := by
    have heq : int (top / ((mx - mn) / nbins)) = ((nbins - 1 : Nat) : Int) := by omega
    have hbound := ((int_eq_natCast_iff (by omega)).mp heq).1
    have hcast : ((nbins - 1 : Nat) : ℚ) = nbins - 1 := by
      rw [Nat.cast_sub (by omega), Nat.cast_one]
    linarith
  rw [div_le_iff₀ hw] at hle
  rw [le_div_iff₀ hw] at hge
  have heq : d = mn := by linarith
  refine hb heq ?_
  have hwidth : d / ((mx - mn) / nbins) = ((-1 : Int) : ℚ) := by
    rw [div_eq_iff hw.ne']
    push_cast
    linarith
  rw [hwidth, int_eq_neg_iff (by decide)]
  constructor <;> simp

theorem joinCommas_inj {xs ys : List (Option Int)} (hx : xs ≠ []) (hy : ys ≠ [])
    (h : joinCommas xs = joinCommas ys) : xs = ys := by
  have hfields := congrArg (List.splitOn ',') h
  rw [splitOn_joinCommas hx, splitOn_joinCommas hy] at hfields
  refine List.map_injective_iff.mpr ?_ hfields
  intro a b hab
  cases a with
  | none =>
      cases b with
      | none => rfl
      | some n => exact absurd hab.symm (decimal_ne_nil n)
  | some m =>
      cases b with
      | none => exact absurd hab (decimal_ne_nil m)
      | some n => exact congrArg some (decimal_injective hab)

theorem histogram_of_loop (hn : 1 ≤ nbins) {data : List ℚ}
    {hist : List (Option Int)} (h : histogramLoop ((mx - mn) / nbins) data = .ok hist) :
    histogram nbins mn mx data = .ok (joinCommas hist) := by
  have hne : (nbins : ℚ) ≠ 0 := by
    have : nbins ≠ 0 := by omega
    exact_mod_cast this
  rw [histogram, div_of_ne hne, ok_bind, h]
  rfl

/-- From zero on, the values below the upper end are the aligned ones. -/
theorem aligned_zero_iff {d : ℚ} (hn : 1 ≤ nbins) (hmx : 0 < mx) (hd : 0 ≤ d ∧ d ≤ mx) :
    Aligned nbins 0 mx d ↔ d < mx := by
  have hw := binWidth_pos hn hmx
  have hb := binOf_lt hn hd
  have hquot : (d - 0) * nbins / (mx - 0) = d / ((mx - 0) / nbins) := by
    rw [sub_zero, sub_zero, div_div_eq_mul_div]
  have hnonneg : 0 ≤ d / ((mx - 0) / nbins) := div_nonneg hd.1 hw.le
  rw [aligned_iff hw hb, int, if_pos hnonneg, ← hquot]
  constructor
  · intro h
    refine lt_of_le_of_ne hd.2 ?_
    rintro rfl
    have hfloor : ⌊(d - 0) * nbins / (d - 0)⌋ = nbins := by
      rw [mul_div_assoc, mul_div_cancel₀ _ (sub_pos.mpr hmx).ne']
      exact Int.floor_natCast nbins
    omega
  · intro hlt
    left
    rw [binOf, if_neg hlt.ne, Int.toNat_of_nonneg]
    rw [hquot]
    exact Int.floor_nonneg.mpr hnonneg

/-- The array is as long as it should be and has no holes if the bins from the fifth on
have values. -/
theorem Filled.full_iff {data : List ℚ} {hist : List (Option Int)}
    (hfill : Filled nbins mn mx data hist) (hbin : ∀ d ∈ data, binOf nbins mn mx d < nbins) :
    (hist.length = nbins ∧ ∀ x ∈ hist, x.isSome) ↔
      nbins = 4 ∨ 4 < nbins ∧ ∀ b, 4 ≤ b → b < nbins → ∃ d ∈ data, binOf nbins mn mx d = b := by
  have hfour := hfill.four
  constructor
  · rintro ⟨rfl, hsome⟩
    have hhit : ∀ b, 4 ≤ b → b < hist.length → ∃ d ∈ data, binOf hist.length mn mx d = b := by
      intro b hb hlt
      have hfilled : (hist.getD b none).isSome := by
        rw [List.getD_eq_getElem _ _ hlt]
        exact hsome _ (List.getElem_mem hlt)
      exact ((hfill.isSome_iff b).mp hfilled).resolve_left (by omega)
    exact (Nat.eq_or_lt_of_le hfour).imp Eq.symm fun h => ⟨h, hhit⟩
  · intro hbins
    have hle : hist.length ≤ nbins := hfill.length_le hbin (by omega)
    have hge : nbins ≤ hist.length := by
      rcases hbins with h4 | ⟨h4, hhit⟩
      · exact h4 ▸ hfour
      · obtain ⟨d, hd, hb⟩ := hhit (nbins - 1) (by omega) (by omega)
        have := hfill.below d hd
        omega
    refine ⟨le_antisymm hle hge, ?_⟩
    intro x hx
    obtain ⟨j, hj, rfl⟩ := List.getElem_of_mem hx
    rw [← List.getD_eq_getElem hist none hj, hfill.isSome_iff]
    rcases hbins with h4 | ⟨-, hhit⟩
    · exact Or.inl (by omega)
    · rcases Nat.lt_or_ge j 4 with hlow | hhigh
      · exact Or.inl hlow
      · exact Or.inr (hhit j hhigh (by omega))

/-- In an array of the right length, values that are placed are aligned. -/
theorem Placed.aligned (hn : 1 ≤ nbins) (hmx : mn < mx) {data : List ℚ}
    (hdata : ∀ d ∈ data, mn ≤ d ∧ d ≤ mx) (hplaced : Placed nbins mn mx data)
    {hist : List (Option Int)} (hfill : Filled nbins mn mx data hist)
    (hsize : hist.length = nbins) : ∀ d ∈ data, Aligned nbins mn mx d := by
  intro d hd
  have hw := binWidth_pos hn hmx
  have hbin : ∀ d ∈ data, binOf nbins mn mx d < nbins := fun d hd => binOf_lt hn (hdata d hd)
  have hfour := hfill.four
  obtain ⟨pre, post, rfl⟩ := List.append_of_mem hd
  obtain ⟨h, hpre, hk⟩ := hplaced pre d post rfl
  obtain ⟨h', hpre', hbefore⟩ := hplaced.of_append.filled hw
  obtain rfl : h = h' := Except.ok.inj (hpre.symm.trans hpre')
  have hfour' := hbefore.four
  rw [aligned_iff hw (hbin d hd)]
  rcases element_eq_some_iff.mp hk with hi | ⟨hneg, hi⟩
  · exact Or.inl hi
  · rcases Nat.eq_or_lt_of_le (hsize ▸ hfour) with h4 | h4
    · -- four bins: the array has four elements all the time
      have hshort : h.length ≤ 4 :=
        hbefore.length_le (fun x hx => h4 ▸ hbin x (List.mem_append_left _ hx)) (le_refl 4)
      exact Or.inr ⟨h4.symm, by omega⟩
    · rcases hfill.top with hlen | ⟨top, htop, hlast, hgrown⟩
      · omega
      · have hnonneg := int_nonneg_of_top h4 hmx (hdata top htop).2 (by omega) (hdata d hd).1
          (fun hlower hint => by
            have hb : binOf nbins mn mx d = 0 := by rw [hlower, binOf_lower hmx]
            omega)
        omega

/-- **The histogram.**  Values in the range are counted in their bins, and in as many
counts as there are bins, if and only if there are four bins, or more and each from the
fifth on gets a value, and every value is aligned. -/
theorem histogram_counts_iff (nbins : Nat) (mn mx : ℚ) (data : List ℚ) (hn : 1 ≤ nbins)
    (hmx : mn < mx) (hdata : ∀ d ∈ data, mn ≤ d ∧ d ≤ mx) :
    Counted nbins mn mx data ↔
      (nbins = 4 ∨ 4 < nbins ∧ ∀ b, 4 ≤ b → b < nbins → ∃ d ∈ data, binOf nbins mn mx d = b) ∧
      ∀ d ∈ data, Aligned nbins mn mx d := by
  have hw := binWidth_pos hn hmx
  have hbin : ∀ d ∈ data, binOf nbins mn mx d < nbins := fun d hd => binOf_lt hn (hdata d hd)
  constructor
  · rintro ⟨⟨counts, hrun, hlen, -⟩, heach⟩
    have hplaced := (counted_iff_placed hw).mp heach
    obtain ⟨hist, hloop, hfill⟩ := hplaced.filled hw
    have hfour := hfill.four
    have hcounts : hist = counts.map some := by
      rw [histogram_of_loop hn hloop] at hrun
      refine joinCommas_inj (List.ne_nil_of_length_pos (by omega)) ?_ (Except.ok.inj hrun)
      rw [ne_eq, List.map_eq_nil_iff]
      exact List.ne_nil_of_length_pos (by omega)
    have hsize : hist.length = nbins := by rw [hcounts, List.length_map, hlen]
    have hsome : ∀ x ∈ hist, x.isSome := by
      rw [hcounts]
      simp
    exact ⟨(hfill.full_iff hbin).mp ⟨hsize, hsome⟩, hplaced.aligned hn hmx hdata hfill hsize⟩
  · rintro ⟨hbins, haligned⟩
    have hplaced := placed_of_aligned hw hbin haligned
    obtain ⟨hist, hloop, hfill⟩ := hplaced.filled hw
    obtain ⟨hsize, hsome⟩ := (hfill.full_iff hbin).mpr hbins
    have hcounts : hist.map (some ∘ fun x => x.getD 0) = hist.map id := by
      refine List.map_congr_left ?_
      intro x hx
      obtain ⟨n, hn⟩ := Option.isSome_iff_exists.mp (hsome x hx)
      simp [hn]
    refine ⟨⟨hist.map fun x => x.getD 0, ?_, ?_, hfill.sum⟩, (counted_iff_placed hw).mpr hplaced⟩
    · rw [histogram_of_loop hn hloop, List.map_map, hcounts, List.map_id]
    · rw [List.length_map, hsize]

end Bins

/-- Four bins from zero on. -/
theorem histogram_counts_fromZero : Counted 4 0 8 [1, 3, 3, 7] := by
  have hrange : ∀ d ∈ ([1, 3, 3, 7] : List ℚ), 0 ≤ d ∧ d < 8 := by decide +kernel
  refine (histogram_counts_iff 4 0 8 [1, 3, 3, 7] (by decide) (by decide)
    fun d hd => ⟨(hrange d hd).1, (hrange d hd).2.le⟩).mpr ⟨Or.inl rfl, fun d hd => ?_⟩
  have := hrange d hd
  exact (aligned_zero_iff (by decide) (by decide) ⟨this.1, this.2.le⟩).mpr this.2

/-- The smallest value of a range that begins at ten, in the first of four bins. -/
theorem histogram_counts_fromTen :
    histogram 4 10 18 [10] = .ok "0,0,0,0,,1".toList ∧ ¬ Counted 4 10 18 [10] := by
  have hrun : histogram 4 10 18 [10] = .ok "0,0,0,0,,1".toList := by decide +kernel
  refine ⟨hrun, ?_⟩
  rintro ⟨⟨counts, hcounts, hlen, -⟩, -⟩
  have hfields := congrArg (List.splitOn ',') (Except.ok.inj (hrun.symm.trans hcounts))
  have hne : counts.map some ≠ [] := by
    rw [ne_eq, List.map_eq_nil_iff]
    exact List.ne_nil_of_length_pos (by omega)
  rw [splitOn_joinCommas hne] at hfields
  have hnumber := congrArg List.length hfields
  rw [List.length_map, List.length_map, hlen] at hnumber
  revert hnumber
  decide

end Memrec
