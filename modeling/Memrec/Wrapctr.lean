import Mathlib.Algebra.Order.Ring.Int
import Mathlib.Tactic.Linarith
import Mathlib.Tactic.Ring
import Memrec.Text

/-!
# Wrapping counters

`wrapctr` is the object behind every rate that the modules publish: it
remembers the last reading and returns how far the next one has advanced.  The
constant is `~0`, the largest unsigned integer of a 64-bit interpreter, and
numbers are exact.

`update` adds the distances in the wrong direction once a reading is smaller
than the one before it: `(ULONG_MAX - nv) + ov` is never below `2^64`.  So a run
of updates is the 64-bit counter it is meant to be exactly when the readings
never decrease (`deltas_modular_iff`).  The sibling `delta` of `basesubs` has
the operands the right way round and is one short, so the two also agree with
each other on no wrapped pair (`delta_distance_iff`).
-/

namespace Memrec

open Perl

/-- The object of package `wrapctr`; `d` is undefined before the first
update. -/
structure Wrapctr (α : Type) where
  v : α
  d : Option α
  deriving DecidableEq, Repr

section Counter

variable {α : Type} [Ring α] [LinearOrder α]

/-- `( ~0 )`. -/
def ulongMax : α := 2 ^ 64 - 1

namespace Wrapctr

/-- `wrapctr->new( nv )`. -/
def new (nv : α) : Wrapctr α := ⟨nv, none⟩

/-- The increment that `update( nv )` returns on an object holding `ov`. -/
def step (ov nv : α) : α :=
  if nv ≥ ov then nv - ov else (ulongMax - nv) + ov

/-- `update( nv )`: the increment and the object afterwards. -/
def update (self : Wrapctr α) (nv : α) : α × Wrapctr α :=
  let d := step self.v nv
  (d, ⟨nv, some d⟩)

def lastval (self : Wrapctr α) : α := self.v

/-- `setval( val )`: the old value and the object afterwards. -/
def setval (self : Wrapctr α) (val : α) : α × Wrapctr α := (self.v, ⟨val, some 0⟩)

def lastdiff (self : Wrapctr α) : Option α := self.d

/-- The increments returned by `update( v )` for each reading in turn. -/
def updates (self : Wrapctr α) : List α → List α
  | [] => []
  | v :: vs => (self.update v).1 :: (self.update v).2.updates vs

@[simp] theorem update_fst (self : Wrapctr α) (nv : α) :
    (self.update nv).1 = step self.v nv := rfl

@[simp] theorem update_v (self : Wrapctr α) (nv : α) : (self.update nv).2.v = nv := rfl

omit [Ring α] [LinearOrder α] in
@[simp] theorem new_v (nv : α) : (new nv).v = nv := rfl

/-- A reading that has not decreased gives the plain difference. -/
theorem step_of_le {ov nv : α} (h : ov ≤ nv) : step ov nv = nv - ov := by
  simp [step, h]

theorem step_of_lt {ov nv : α} (h : nv < ov) : step ov nv = (ulongMax - nv) + ov := by
  simp [step, not_le.mpr h]

/-- The increment of one more reading is taken from the last one. -/
theorem updates_snoc (c : Wrapctr α) (vs : List α) (v : α) :
    c.updates (vs ++ [v]) = c.updates vs ++ [step (vs.getLastD c.v) v] := by
  induction vs generalizing c with
  | nil => rfl
  | cons w ws ih =>
      rw [List.cons_append, updates, ih, List.getLastD_cons]
      rfl

/-- The object after the readings in turn. -/
def afterUpdates (self : Wrapctr α) (vs : List α) : Wrapctr α :=
  vs.foldl (fun c v => (c.update v).2) self

theorem updates_append (c : Wrapctr α) (vs ws : List α) :
    c.updates (vs ++ ws) = c.updates vs ++ (c.afterUpdates vs).updates ws := by
  induction vs generalizing c with
  | nil => rfl
  | cons v vs ih =>
      rw [List.cons_append, updates, ih]
      rfl

@[simp] theorem step_self (v : α) : step v v = 0 := by
  simp [step]

/-- No increment is negative. -/
theorem step_nonneg [IsStrictOrderedRing α] (ov nv : α) : 0 ≤ step ov nv := by
  rcases le_or_gt ov nv with h | h
  · rw [step_of_le h]
    exact sub_nonneg.mpr h
  · have hword : (0 : α) ≤ ulongMax := by norm_num [ulongMax]
    rw [step_of_lt h, sub_add_eq_add_sub, add_sub_assoc]
    exact add_nonneg hword (sub_nonneg.mpr h.le)

theorem nonneg_of_mem_updates [IsStrictOrderedRing α] {c : Wrapctr α} {vs : List α} {d : α}
    (h : d ∈ c.updates vs) : 0 ≤ d := by
  induction vs generalizing c with
  | nil => cases h
  | cons v vs ih =>
      rcases List.mem_cons.mp h with rfl | h
      · exact step_nonneg c.v v
      · exact ih h

end Wrapctr

end Counter

/-- `basesubs::delta( x, y )`, `x` the more recent reading. -/
def delta (x y : ℤ) : ℤ := if x ≥ y then x - y else (ulongMax - y) + x

/-- `basesubs::round00`: two digits after the point. -/
def round00 (x : ℚ) : ℚ := int (x * 100 + 1 / 2) / 100

/-- `basesubs::round0`: one digit after the point. -/
def round0 (x : ℚ) : ℚ := int (x * 10 + 1 / 2) / 10

theorem round00_mono {x y : ℚ} (h : x ≤ y) : round00 x ≤ round00 y := by
  have hint : int (x * 100 + 1 / 2) ≤ int (y * 100 + 1 / 2) := by
    refine int_mono ?_
    linarith
  unfold round00
  gcongr

/-! ## The counter over whole runs -/

/-- The increments of `wrapctr->new( v₀ )` updated with `vs` in turn. -/
def deltas (v₀ : ℤ) (vs : List ℤ) : List ℤ := (Wrapctr.new v₀).updates vs

/-- What a 64-bit counter promises of a run: every increment is the distance
between neighbouring readings modulo `2^64`, and they add up to the distance
between the ends. -/
def DeltasModular (v₀ : ℤ) (vs : List ℤ) : Prop :=
  List.Forall₂ (fun d p => 0 ≤ d ∧ d < 2 ^ 64 ∧ d = (p.2 - p.1) % 2 ^ 64)
    (deltas v₀ vs) ((v₀ :: vs).zip vs) ∧
  (deltas v₀ vs).sum % 2 ^ 64 = (vs.getLastD v₀ - v₀) % 2 ^ 64

theorem deltas_cons (v₀ v : ℤ) (vs : List ℤ) :
    deltas v₀ (v :: vs) = Wrapctr.step v₀ v :: deltas v vs := by
  have hstate : ∀ (c c' : Wrapctr ℤ), c.v = c'.v → c.updates vs = c'.updates vs := by
    intro c c' h
    cases vs <;> simp [Wrapctr.updates, Wrapctr.update, h]
  simp only [deltas, Wrapctr.updates, Wrapctr.update_fst, Wrapctr.new_v]
  rw [hstate _ (Wrapctr.new v) (by simp)]

/-- The wrap branch always leaves the machine word. -/
theorem step_of_lt_ge {ov nv : ℤ} (h : nv < ov) : 2 ^ 64 ≤ Wrapctr.step ov nv := by
  rw [Wrapctr.step_of_lt h, ulongMax]
  omega

/-- Within the word, the increment is the modular distance exactly when the
reading has not decreased. -/
theorem step_modular_iff {ov nv : ℤ} (ho : 0 ≤ ov) (hn : nv < 2 ^ 64) :
    (0 ≤ Wrapctr.step ov nv ∧ Wrapctr.step ov nv < 2 ^ 64 ∧
      Wrapctr.step ov nv = (nv - ov) % 2 ^ 64) ↔ ov ≤ nv := by
  constructor
  · rintro ⟨-, hlt, -⟩
    by_contra h
    have := step_of_lt_ge (not_le.mp h)
    omega
  · intro h
    rw [Wrapctr.step_of_le h]
    refine ⟨by omega, by omega, ?_⟩
    rw [Int.emod_eq_of_lt (by omega) (by omega)]

/-- Increments of a run that never decreases telescope. -/
theorem deltas_sum_of_chain {v₀ : ℤ} {vs : List ℤ} (h : (v₀ :: vs).IsChain (· ≤ ·)) :
    (deltas v₀ vs).sum = vs.getLastD v₀ - v₀ := by
  induction vs generalizing v₀ with
  | nil => simp [deltas, Wrapctr.updates]
  | cons v vs ih =>
      rw [List.isChain_cons_cons] at h
      rw [deltas_cons, List.sum_cons, ih h.2, Wrapctr.step_of_le h.1, List.getLastD_cons]
      ring

/-- **The wrapping counter.**  For readings within the word, a run keeps the
promise of a 64-bit counter exactly when no reading is smaller than the one
before it. -/
theorem deltas_modular_iff (v₀ : ℤ) (vs : List ℤ)
    (hr : ∀ v ∈ v₀ :: vs, 0 ≤ v ∧ v < 2 ^ 64) :
    DeltasModular v₀ vs ↔ (v₀ :: vs).IsChain (· ≤ ·) := by
  have hpairs : ∀ v₀ : ℤ, (∀ v ∈ v₀ :: vs, 0 ≤ v ∧ v < 2 ^ 64) →
      (List.Forall₂ (fun d p => 0 ≤ d ∧ d < 2 ^ 64 ∧ d = (p.2 - p.1) % 2 ^ 64)
        (deltas v₀ vs) ((v₀ :: vs).zip vs) ↔ (v₀ :: vs).IsChain (· ≤ ·)) := by
    clear hr
    induction vs with
    | nil => intro v₀ _; simp [deltas, Wrapctr.updates]
    | cons v vs ih =>
        intro v₀ hr
        have hstep := step_modular_iff (hr v₀ (by simp)).1 (hr v (by simp)).2
        rw [deltas_cons, List.zip_cons_cons, List.forall₂_cons, List.isChain_cons_cons,
          hstep, ih v (fun w hw => hr w (List.mem_cons_of_mem _ hw))]
  rw [DeltasModular, hpairs v₀ hr]
  refine ⟨And.left, fun h => ⟨h, ?_⟩⟩
  rw [deltas_sum_of_chain h]

theorem deltas_modular_iff_run :
    DeltasModular 7 [7, 2 ^ 64 - 1] ↔ ([7, 7, 2 ^ 64 - 1] : List ℤ).IsChain (· ≤ ·) :=
  deltas_modular_iff 7 [7, 2 ^ 64 - 1] (by decide)

/-- One wrap is enough: from 5 to 3 the counter reports `2^64 + 1`. -/
theorem deltas_wrap_not_modular : ¬ DeltasModular 5 [3] := by
  rintro ⟨h, -⟩
  have hge : (2 : ℤ) ^ 64 ≤ Wrapctr.step 5 3 := step_of_lt_ge (by decide)
  rw [deltas_cons, List.zip_cons_cons, List.forall₂_cons] at h
  exact absurd h.1.2.1 (not_lt.mpr hge)

/-! ## The sibling without an object -/

/-- What a 64-bit counter promises of a newer reading `x` and an older `y`: the
modular distance, and the same from both helpers. -/
def DeltaForward (x y : ℤ) : Prop :=
  delta x y = (x - y) % 2 ^ 64 ∧ delta x y = ((Wrapctr.new y).update x).1

theorem delta_of_le {x y : ℤ} (h : y ≤ x) : delta x y = x - y := if_pos h

theorem delta_of_lt {x y : ℤ} (h : x < y) : delta x y = 2 ^ 64 - 1 - y + x := by
  rw [delta, if_neg (not_le.mpr h), ulongMax]

/-- A wrapped pair is one short of the distance around the word. -/
theorem delta_succ_of_lt {x y : ℤ} (hx : 0 ≤ x) (hy : y < 2 ^ 64) (h : x < y) :
    delta x y + 1 = (x - y) % 2 ^ 64 := by
  rw [delta_of_lt h]
  have hround : (x - y) % 2 ^ 64 = (x - y + 2 ^ 64) % 2 ^ 64 := by
    rw [Int.add_emod_right]
  rw [hround, Int.emod_eq_of_lt (by omega) (by omega)]
  ring

theorem delta_mod_iff {x y : ℤ} (hx : 0 ≤ x ∧ x < 2 ^ 64) (hy : 0 ≤ y ∧ y < 2 ^ 64) :
    delta x y = (x - y) % 2 ^ 64 ↔ y ≤ x := by
  constructor
  · intro heq
    by_contra h
    have := delta_succ_of_lt hx.1 hy.2 (not_le.mp h)
    omega
  · intro h
    rw [delta_of_le h, Int.emod_eq_of_lt (by omega) (by omega)]

/-- The two helpers agree on the ordinary branch only: wrapped, one stays
inside the word and the other leaves it. -/
theorem delta_eq_update_iff (x y : ℤ) :
    delta x y = ((Wrapctr.new y).update x).1 ↔ y ≤ x := by
  rw [Wrapctr.update_fst, Wrapctr.new_v]
  constructor
  · intro heq
    by_contra h
    have hout := step_of_lt_ge (not_le.mp h)
    rw [← heq, delta_of_lt (not_le.mp h)] at hout
    omega
  · intro h
    rw [delta_of_le h, Wrapctr.step_of_le h]

/-- **The two wrap rules.**  Over the whole square of readings, `delta` is the
forward distance and what `wrapctr` returns exactly when the newer reading is
not the smaller one. -/
theorem delta_distance_iff (x y : ℤ) (hx : 0 ≤ x ∧ x < 2 ^ 64) (hy : 0 ≤ y ∧ y < 2 ^ 64) :
    DeltaForward x y ↔ y ≤ x := by
  rw [DeltaForward, delta_mod_iff hx hy, delta_eq_update_iff, and_self_iff]

theorem delta_distance_iff_wrap : DeltaForward 3 5 ↔ (5 : ℤ) ≤ 3 :=
  delta_distance_iff 3 5 (by decide) (by decide)

/-- From the last reading of the word to its first the counter has advanced by
one and `delta` says it has not moved. -/
theorem delta_last_to_first : ¬ DeltaForward 0 (2 ^ 64 - 1) := by
  rintro ⟨h, -⟩
  exact absurd h (by decide)

end Memrec
