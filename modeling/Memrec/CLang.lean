import Mathlib.Algebra.Group.Nat.Defs
import Mathlib.Data.Int.Range
import Mathlib.Data.List.Count
import Mathlib.Data.List.Induction
import Mathlib.Data.List.Nodup

/-!
# Integers, strings and loops of C

An `int` has 32 bits, a `size_t` has 64 and a `char` has a sign.  Values are
integers, and a conversion is the residue in the range of the type.  Overflow of
an `int`, which the language leaves undefined, wraps here, as it does in code
that is compiled without optimisation.

* `forLoop` is the index of a loop `for( i=lo; cond; i++ )`: the values with which the
  body runs, and the value afterwards.  `forLoop_inv` is its invariant rule, and
  `forLoop_rounds` and `forLoop_visits` say which values those are.
* `optLoop` is the loop over the arguments of a program in which some options
  take the next argument as their value.  `optLoop_eq` reduces it to the options that
  are set, in order, and `foldl_last` finds what a variable holds afterwards.
-/

namespace CLang

/-! ## Integers -/

/-- The value of a number as an `int`. -/
def int32 (x : Int) : Int := (x + 2 ^ 31) % 2 ^ 32 - 2 ^ 31

/-- The value of a number as a `size_t`. -/
def sizeT (x : Int) : Nat := (x % 2 ^ 64).toNat

/-- The value of a `char`. -/
def char8 (c : UInt8) : Int := if c.toNat < 128 then c.toNat else c.toNat - 256

theorem int32_of_range {x : Int} (hlo : -2 ^ 31 ≤ x) (hhi : x < 2 ^ 31) : int32 x = x := by
  unfold int32
  omega

theorem int32_range (x : Int) : -2 ^ 31 ≤ int32 x ∧ int32 x < 2 ^ 31 := by
  unfold int32
  omega

/-- The number after the largest one. -/
theorem int32_overflow : int32 (2 ^ 31) = -2 ^ 31 := rfl

theorem sizeT_of_range {x : Int} (hlo : 0 ≤ x) (hhi : x < 2 ^ 64) : (sizeT x : Int) = x := by
  unfold sizeT
  omega

theorem sizeT_lt (x : Int) : sizeT x < 2 ^ 64 := by
  unfold sizeT
  omega

/-! ## Strings -/

/-- A string, without the zero at its end. -/
abbrev CStr := List UInt8

def chr (c : Char) : UInt8 := UInt8.ofNat c.toNat

def cstr (s : String) : CStr := s.toList.map chr

/-- `s[k]`, the zero at the end included. -/
def charAt (s : CStr) (k : Nat) : UInt8 := s.getD k 0

/-- `isspace`. -/
def isspace (c : UInt8) : Bool := c == 32 || (9 ≤ c && c ≤ 13)

/-- The number that the digits at the beginning stand for. -/
def digits (s : CStr) : Nat :=
  (s.takeWhile fun c => 48 ≤ c && c ≤ 57).foldl (fun n c => 10 * n + (c.toNat - 48)) 0

/-- `strtol( s, NULL, 10 )`: what a `long` cannot hold is the largest or the smallest one. -/
def strtol (s : CStr) : Int :=
  match s.dropWhile isspace with
  | [] => 0
  | c :: r =>
      if c = chr '-' then max (-2 ^ 63) (-(digits r : Int))
      else if c = chr '+' then min (2 ^ 63 - 1) (digits r)
      else min (2 ^ 63 - 1) (digits (c :: r))

/-- `atoi( s )`. -/
def atoi (s : CStr) : Int := int32 (strtol s)

/-- `strchr( s, c ) != NULL`. -/
def strchr (s : CStr) (c : Char) : Bool := s.contains (chr c)

/-! ## Counting loops -/

/-- The first `n` rounds of `for( ; cond; i++ )` from a value of the index: the values with
which the body runs, and the value afterwards if the loop has ended. -/
def forLoop (cond : Int → Bool) : Nat → Int → List Int × Option Int
  | 0, _ => ([], none)
  | n + 1, i =>
      if cond i then
        let r := forLoop cond n (int32 (i + 1))
        (i :: r.1, r.2)
      else ([], some i)

variable {cond : Int → Bool}

theorem forLoop_of_true {i : Int} (h : cond i) (n : Nat) :
    forLoop cond (n + 1) i =
      (i :: (forLoop cond n (int32 (i + 1))).1, (forLoop cond n (int32 (i + 1))).2) := by
  rw [forLoop, if_pos h]

theorem forLoop_of_false {i : Int} (h : cond i = false) (n : Nat) :
    forLoop cond (n + 1) i = ([], some i) := by
  rw [forLoop, if_neg (by simp [h])]

/-- The value with which a loop begins is visited or is the last one. -/
theorem mem_forLoop_start (n : Nat) (i : Int) :
    i ∈ (forLoop cond (n + 1) i).1 ++ (forLoop cond (n + 1) i).2.toList := by
  cases h : cond i with
  | true => simp [forLoop_of_true h]
  | false => simp [forLoop_of_false h]

/-- **Invariant of a loop.** -/
theorem forLoop_inv {P : Int → Prop} (hstep : ∀ i, P i → cond i → P (int32 (i + 1))) {i : Int}
    (hi : P i) (n : Nat) :
    (∀ j ∈ (forLoop cond n i).1, P j ∧ cond j) ∧
      ∀ j ∈ (forLoop cond n i).2, P j ∧ cond j = false := by
  induction n generalizing i with
  | zero => simp [forLoop]
  | succ n ih =>
      cases hc : cond i with
      | false =>
          rw [forLoop_of_false hc]
          simp [hi, hc]
      | true =>
          rw [forLoop_of_true hc]
          obtain ⟨hvisited, hend⟩ := ih (hstep i hi hc)
          refine ⟨?_, hend⟩
          intro j hj
          rcases List.mem_cons.mp hj with rfl | hj
          · exact ⟨hi, hc⟩
          · exact hvisited j hj

theorem range_cons {lo hi : Int} (h : lo < hi) : Int.range lo hi = lo :: Int.range (lo + 1) hi := by
  obtain ⟨k, hk⟩ : ∃ k : Nat, (hi - lo).toNat = k + 1 := ⟨(hi - lo).toNat - 1, by omega⟩
  have hrest : (hi - (lo + 1)).toNat = k := by omega
  rw [Int.range, Int.range, hk, hrest, List.range_succ_eq_map, List.map_cons, List.map_map]
  congr 1
  · omega
  · refine List.map_congr_left fun r _ => ?_
    rw [Function.comp_apply]
    omega

/-- The first rounds, as long as the condition holds and the index does not overflow. -/
theorem forLoop_rounds {lo : Int} {k : Nat} (hlo : -2 ^ 31 ≤ lo) (hk : lo + k < 2 ^ 31)
    (hcond : ∀ i, lo ≤ i → i < lo + k → cond i) (n : Nat) :
    forLoop cond (k + n) lo =
      (Int.range lo (lo + k) ++ (forLoop cond n (lo + k)).1, (forLoop cond n (lo + k)).2) := by
  induction k generalizing lo with
  | zero => simp [Int.range]
  | succ k ih =>
      have hnext : int32 (lo + 1) = lo + 1 := int32_of_range (by omega) (by omega)
      have hsum : lo + 1 + (k : Int) = lo + (k + 1 : Nat) := by omega
      have hrange : Int.range lo (lo + (k + 1 : Nat)) =
          lo :: Int.range (lo + 1) (lo + (k + 1 : Nat)) := range_cons (by omega)
      have ih := @ih (lo + 1) (by omega) (by omega) fun i hi hlt => hcond i (by omega) (by omega)
      rw [hsum] at ih
      rw [Nat.add_right_comm, forLoop_of_true (hcond lo (le_refl lo) (by omega)), hnext, ih, hrange,
        List.cons_append]

/-- A loop that ends. -/
theorem forLoop_visits {lo hi : Int} (hlo : -2 ^ 31 ≤ lo) (hle : lo ≤ hi) (hhi : hi < 2 ^ 31)
    (hcond : ∀ i, lo ≤ i → i < hi → cond i) (hend : cond hi = false) {n : Nat}
    (hn : hi - lo < n) : forLoop cond n lo = (Int.range lo hi, some hi) := by
  obtain ⟨k, rfl⟩ := Int.le.dest hle
  obtain ⟨m, rfl⟩ : ∃ m, n = k + (m + 1) := ⟨n - k - 1, by omega⟩
  rw [forLoop_rounds hlo hhi hcond, forLoop_of_false hend, List.append_nil]

/-- An index that is counted is counted once. -/
theorem count_range (lo hi i : Int) :
    (Int.range lo hi).count i = if lo ≤ i ∧ i < hi then 1 else 0 := by
  have hnodup : (Int.range lo hi).Nodup := by
    unfold Int.range
    refine List.Nodup.map ?_ List.nodup_range
    intro a b h
    exact Int.ofNat_inj.mp (Int.add_left_cancel h)
  by_cases h : lo ≤ i ∧ i < hi
  · rw [if_pos h, List.count_eq_one_of_mem hnodup (Int.mem_range_iff.mpr h)]
  · rw [if_neg h, List.count_eq_zero_of_not_mem (mt Int.mem_range_iff.mp h)]

/-! ## Options -/

section Options

variable {σ : Type} (takes : CStr → Bool)

/-- The loop over the arguments: after an option that takes a value, the next argument is
skipped.  There is no result if it is missing. -/
def optLoop (act : σ → CStr → CStr → σ) : σ → List CStr → Option σ
  | s, [] => some s
  | s, [a] => if takes a then none else some (act s a [])
  | s, a :: v :: rest =>
      if takes a then optLoop act (act s a v) rest else optLoop act (act s a []) (v :: rest)

/-- The arguments with their values. -/
def settings : List CStr → Option (List (CStr × CStr))
  | [] => some []
  | [a] => if takes a then none else some [(a, [])]
  | a :: v :: rest =>
      if takes a then (settings rest).map ((a, v) :: ·)
      else (settings (v :: rest)).map ((a, []) :: ·)

/-- The loop deals with one argument after the other. -/
theorem optLoop_eq (act : σ → CStr → CStr → σ) (s : σ) (argv : List CStr) :
    optLoop takes act s argv =
      (settings takes argv).map fun ps => ps.foldl (fun s p => act s p.1 p.2) s := by
  induction argv using settings.induct takes generalizing s with
  | case1 => rfl
  | case2 a h => simp [optLoop, settings, h]
  | case3 a h => simp [optLoop, settings, h]
  | case4 a v rest h ih =>
      rw [optLoop, settings, if_pos h, if_pos h, ih, Option.map_map]
      rfl
  | case5 a v rest h ih =>
      rw [optLoop, settings, if_neg h, if_neg h, ih, Option.map_map]
      rfl

end Options

/-- A variable that some arguments set holds what the last one of them has set. -/
theorem foldl_last {σ α β : Type} {I : σ → Prop} {f : σ → β} {act : σ → α → σ} {p : α → Bool}
    {g : α → β} {l : List α}
    (h : ∀ s, I s → ∀ a ∈ l, I (act s a) ∧ f (act s a) = if p a then g a else f s) {s : σ}
    (hs : I s) :
    I (l.foldl act s) ∧ f (l.foldl act s) = ((l.reverse.find? p).map g).getD (f s) := by
  induction l using List.reverseRecOn with
  | nil => exact ⟨hs, rfl⟩
  | append_singleton l a ih =>
      obtain ⟨hinv, hlast⟩ := ih fun s hs b hb => h s hs b (List.mem_append_left _ hb)
      obtain ⟨hinv', hstep⟩ := h _ hinv a (by simp)
      rw [List.foldl_append, List.foldl_cons, List.foldl_nil]
      refine ⟨hinv', ?_⟩
      rw [hstep, List.reverse_append, List.reverse_singleton, List.singleton_append,
        List.find?_cons]
      cases hp : p a with
      | true => simp
      | false => simpa using hlast

end CLang
