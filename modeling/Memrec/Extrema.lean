import Mathlib.Order.Bounds.Basic
import Mathlib.Order.OrderDual
import Mathlib.Tactic.Linarith

/-!
# Running extrema

A loop that keeps the smallest entry it has seen begins with some start value and replaces
it whenever a smaller entry comes.  What it ends with is the least of the entries *and* the
start value, so that it is the least entry exactly if some entry is not above the start
value (`isLeast_least_iff`).  The greatest entry is the same in the opposite order.
-/

namespace Extrema

variable {α : Type} [LinearOrder α]

/-- The smallest value so far, from a start value. -/
def least (start : α) (l : List α) : α := l.foldl (fun m a => if a < m then a else m) start

/-- The largest value so far, from a start value. -/
def greatest (start : α) (l : List α) : α := l.foldl (fun m a => if a > m then a else m) start

/-- What the loop ends with is the least of the start value and the entries. -/
theorem isLeast_least_cons (start : α) (l : List α) :
    IsLeast {a | a ∈ start :: l} (least start l) := by
  induction l generalizing start with
  | nil => simp [least, IsLeast]
  | cons b l ih =>
      obtain ⟨hmem, hbound⟩ := ih (if b < start then b else start)
      have hstart : (if b < start then b else start) ≤ start ∧
          (if b < start then b else start) ≤ b := by
        split
        case isTrue h => exact ⟨h.le, le_refl b⟩
        case isFalse h => exact ⟨le_refl start, not_lt.mp h⟩
      have hle : least start (b :: l) ≤ if b < start then b else start := hbound (by simp)
      constructor
      · rcases List.mem_cons.mp hmem with h | h
        · have h : least start (b :: l) = if b < start then b else start := h
          rw [h]
          split <;> simp
        · exact List.mem_cons_of_mem _ (List.mem_cons_of_mem _ h)
      · intro a ha
        rcases List.mem_cons.mp ha with rfl | ha
        · exact hle.trans hstart.1
        · rcases List.mem_cons.mp ha with rfl | ha
          · exact hle.trans hstart.2
          · exact hbound (List.mem_cons_of_mem _ ha)

/-- **The least entry** is found if and only if some entry is not above the start value. -/
theorem isLeast_least_iff (start : α) (l : List α) :
    IsLeast {a | a ∈ l} (least start l) ↔ ∃ a ∈ l, a ≤ start := by
  obtain ⟨hmem, hbound⟩ := isLeast_least_cons start l
  constructor
  · intro h
    exact ⟨least start l, h.1, hbound (by simp)⟩
  · intro ⟨a, ha, hle⟩
    refine ⟨?_, fun b hb => hbound (List.mem_cons_of_mem _ hb)⟩
    rcases List.mem_cons.mp hmem with h | h
    · -- the start value is below all entries, so it is this one
      have heq : a = start := le_antisymm hle (h ▸ hbound (List.mem_cons_of_mem _ ha))
      rw [h, ← heq]
      exact ha
    · exact h

theorem isGreatest_greatest_iff (start : α) (l : List α) :
    IsGreatest {a | a ∈ l} (greatest start l) ↔ ∃ a ∈ l, start ≤ a :=
  isLeast_least_iff (α := αᵒᵈ) start l

end Extrema
