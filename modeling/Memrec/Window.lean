import Mathlib.Algebra.BigOperators.Group.List.Basic
import Mathlib.Algebra.Group.Basic
import Mathlib.Algebra.Order.Monoid.Unbundled.Basic
import Mathlib.Data.List.DropRight
import Mathlib.Tactic.Abel

/-!
# Sliding windows

The last `n` entries of a list are `rtake n`.  A window of fixed length is kept
by dropping its first entry and appending the new one; the entries it shows are
the last ones of everything appended so far.  Over the differences of a
sequence a window telescopes to the distance between its ends.
-/

namespace Window

variable {α : Type}

/-- Shift and push. -/
def push (w : List α) (a : α) : List α := w.tail ++ [a]

/-- Shifting and pushing a window of length `n` shows the last `n` entries. -/
theorem push_rtake {n : Nat} (hn : 0 < n) {l : List α} (hl : n ≤ l.length) (a : α) :
    push (l.rtake n) a = (l ++ [a]).rtake n := by
  have hlen : (l ++ [a]).length - n = l.length - n + 1 := by
    simp only [List.length_append, List.length_singleton]
    omega
  have hle : l.length - n + 1 ≤ l.length := by omega
  rw [push, List.rtake, List.rtake, hlen, List.drop_append_of_le_length hle, List.tail_drop]

/-- Any number of entries pushed in turn. -/
theorem foldl_push_rtake {n : Nat} (hn : 0 < n) {l : List α} (hl : n ≤ l.length) (as : List α) :
    as.foldl push (l.rtake n) = (l ++ as).rtake n := by
  induction as generalizing l with
  | nil => rw [List.append_nil, List.foldl_nil]
  | cons a as ih =>
      have hl' : n ≤ (l ++ [a]).length := by
        rw [List.length_append]
        omega
      rw [List.foldl_cons, push_rtake hn hl, ih hl', List.append_assoc, List.singleton_append]

theorem mem_of_mem_rtake {n : Nat} {l : List α} {a : α} (h : a ∈ l.rtake n) : a ∈ l :=
  List.mem_of_mem_drop h

/-- Zeros in front of the entries do not count. -/
theorem sum_rtake_zeros [AddMonoid α] (n : Nat) (l : List α) :
    ((List.replicate n 0 ++ l).rtake n).sum = (l.rtake n).sum := by
  have hlen : (List.replicate n (0 : α) ++ l).length - n = l.length := by simp
  rw [List.rtake, List.rtake, hlen, List.drop_append, List.length_replicate,
    List.drop_replicate, List.sum_append, List.sum_replicate, nsmul_zero, zero_add]

section Differences

variable [AddCommGroup α]

/-- The differences of neighbouring entries. -/
def diffs : List α → List α
  | a :: b :: l => (b - a) :: diffs (b :: l)
  | _ => []

@[simp] theorem diffs_cons_cons (a b : α) (l : List α) :
    diffs (a :: b :: l) = (b - a) :: diffs (b :: l) := rfl

@[simp] theorem length_diffs (a : α) (l : List α) : (diffs (a :: l)).length = l.length := by
  induction l generalizing a with
  | nil => rfl
  | cons b l ih => rw [diffs_cons_cons, List.length_cons, ih, List.length_cons]

theorem drop_diffs (n : Nat) (l : List α) : (diffs l).drop n = diffs (l.drop n) := by
  induction n generalizing l with
  | zero => rfl
  | succ n ih =>
      match l with
      | [] => rfl
      | [a] => simp [diffs]
      | a :: b :: l =>
          rw [diffs_cons_cons, List.drop_succ_cons, List.drop_succ_cons]
          exact ih (b :: l)

theorem sum_diffs (a : α) (l : List α) : (diffs (a :: l)).sum = l.getLastD a - a := by
  induction l generalizing a with
  | nil => simp [diffs]
  | cons b l ih =>
      rw [diffs_cons_cons, List.sum_cons, ih, List.getLastD_cons]
      abel

/-- A window of differences telescopes. -/
theorem sum_rtake_diffs (n : Nat) (a : α) (l : List α) :
    ((diffs (a :: l)).rtake n).sum =
      (a :: l).getLastD a - (a :: l).getD (l.length - n) a := by
  have hlt : l.length - n < (a :: l).length := by simp only [List.length_cons]; omega
  obtain ⟨c, m, hm⟩ : ∃ c m, (a :: l).drop (l.length - n) = c :: m := by
    refine List.exists_cons_of_ne_nil ?_
    rw [ne_eq, List.drop_eq_nil_iff]
    omega
  have hc : (a :: l).getD (l.length - n) a = c := by
    have hget := @List.getElem?_drop α (a :: l) (l.length - n) 0
    rw [hm, Nat.add_zero] at hget
    rw [List.getD, ← hget]
    rfl
  have hlast : (a :: l).getLastD a = m.getLastD c := by
    have h := List.getLast?_drop (l := a :: l) (i := l.length - n)
    rw [if_neg (by omega), hm] at h
    rw [List.getLastD_eq_getLast?, ← h, List.getLast?_cons]
    simp [List.getLastD_eq_getLast?]
  rw [List.rtake, length_diffs, drop_diffs, hm, sum_diffs, hc, hlast]

end Differences

end Window
