import Memrec.HashTable

/-!
# Accumulating into a hash

`$h{$k} += $b` creates the entry if it is not there, and reads whatever is there
as a number.  A loop that adds one contribution after the other leaves in each
entry what was there before and the sum of its own contributions
(`valueAt_addAll`), and touches no other entry (`lookup_addAll_of_notMem`).
-/

namespace Perl.Hash

variable {κ : Type} [DecidableEq κ]

/-- An entry read as a number; an entry that is not there reads as zero. -/
def valueAt (h : Hash κ Scalar) (k : κ) : ℚ := (h.lookup k).elim 0 Scalar.value

/-- `$h{$k} += $b`. -/
def addTo (h : Hash κ Scalar) (e : κ × ℚ) : Hash κ Scalar :=
  h.insert e.1 (.num (valueAt h e.1 + e.2))

/-- Contributions added one after the other. -/
def addAll (h : Hash κ Scalar) (es : List (κ × ℚ)) : Hash κ Scalar := es.foldl addTo h

/-- The sum of the contributions to an entry. -/
def share (es : List (κ × ℚ)) (k : κ) : ℚ := ((es.filter fun e => e.1 = k).map Prod.snd).sum

@[simp] theorem addAll_nil (h : Hash κ Scalar) : addAll h [] = h := rfl

@[simp] theorem addAll_cons (h : Hash κ Scalar) (e : κ × ℚ) (es : List (κ × ℚ)) :
    addAll h (e :: es) = addAll (addTo h e) es := rfl

@[simp] theorem share_nil (k : κ) : share ([] : List (κ × ℚ)) k = 0 := rfl

theorem share_cons (e : κ × ℚ) (es : List (κ × ℚ)) (k : κ) :
    share (e :: es) k = (if e.1 = k then e.2 else 0) + share es k := by
  unfold share
  by_cases hk : e.1 = k
  · rw [List.filter_cons_of_pos (by simpa using hk), List.map_cons, List.sum_cons, if_pos hk]
  · rw [List.filter_cons_of_neg (by simpa using hk), if_neg hk, zero_add]

theorem share_append (es es' : List (κ × ℚ)) (k : κ) :
    share (es ++ es') k = share es k + share es' k := by
  unfold share
  rw [List.filter_append, List.map_append, List.sum_append]

theorem valueAt_addTo (h : Hash κ Scalar) (e : κ × ℚ) (k : κ) :
    valueAt (addTo h e) k = valueAt h k + if e.1 = k then e.2 else 0 := by
  by_cases hk : e.1 = k
  · subst hk
    rw [if_pos rfl]
    unfold valueAt addTo
    rw [AList.lookup_insert]
    rfl
  · rw [if_neg hk, add_zero]
    unfold valueAt addTo
    rw [AList.lookup_insert_ne (Ne.symm hk)]

/-- **Entries and contributions.** -/
theorem valueAt_addAll (h : Hash κ Scalar) (es : List (κ × ℚ)) (k : κ) :
    valueAt (addAll h es) k = valueAt h k + share es k := by
  induction es generalizing h with
  | nil => rw [addAll_nil, share_nil, add_zero]
  | cons e es ih => rw [addAll_cons, ih, valueAt_addTo, share_cons, add_assoc]

/-- Other entries are left alone. -/
theorem lookup_addAll_of_notMem {es : List (κ × ℚ)} {k : κ} (hk : k ∉ es.map Prod.fst)
    (h : Hash κ Scalar) : (addAll h es).lookup k = h.lookup k := by
  induction es generalizing h with
  | nil => rfl
  | cons e es ih =>
      obtain ⟨hne, hk⟩ := not_or.mp (mt List.mem_cons.mpr hk)
      rw [addAll_cons, ih hk, addTo, AList.lookup_insert_ne hne]

/-- An entry with a contribution holds a number. -/
theorem lookup_addAll_of_mem {es : List (κ × ℚ)} {k : κ} (hk : k ∈ es.map Prod.fst)
    (h : Hash κ Scalar) : (addAll h es).lookup k = some (.num (valueAt h k + share es k)) := by
  have hnum : ∃ x, (addAll h es).lookup k = some (.num x) := by
    induction es generalizing h with
    | nil => cases hk
    | cons e es ih =>
        rw [addAll_cons]
        by_cases htail : k ∈ es.map Prod.fst
        · exact ih htail (addTo h e)
        · obtain rfl : k = e.1 := (List.mem_cons.mp hk).resolve_right htail
          rw [lookup_addAll_of_notMem htail, addTo, AList.lookup_insert]
          exact ⟨_, rfl⟩
  obtain ⟨x, hx⟩ := hnum
  have hvalue := valueAt_addAll h es k
  unfold valueAt at hvalue ⊢
  rw [hx] at hvalue ⊢
  rw [← hvalue]
  rfl

end Perl.Hash
