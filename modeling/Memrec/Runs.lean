import Mathlib.Data.List.Basic
import Mathlib.Data.List.Induction

/-!
# Runs

Two notions of a run, each with the rule that carries an invariant along it.
`Lockstep` relates two programs that make the same calls or the same rounds.

* `after` drives an object through a sequence of calls that may fail.  The
  state is defined only when every call has completed.
* `Run` is a sequence of labelled steps of a transition relation, recorded
  label by label, so that a property of the run can speak about what happened
  on the way.  `Run.simulate` carries a simulation of steps to runs.  `Since` is the
  one temporal operator needed: something happened, and something else has not
  happened since.
-/

namespace Runs

/-! ## Calls that may fail -/

section Calls

variable {σ ι ω ε : Type} (call : σ → ι → Except ε (σ × ω))

/-- The state after a sequence of calls, if all of them complete. -/
def after : σ → List ι → Except ε σ
  | s, [] => .ok s
  | s, x :: xs =>
      match call s x with
      | .error e => .error e
      | .ok r => after r.1 xs

variable {call}

theorem after_cons_ok {s : σ} {x : ι} {r : σ × ω} (h : call s x = .ok r) (xs : List ι) :
    after call s (x :: xs) = after call r.1 xs := by
  simp [after, h]

/-- A run that completes splits at every point. -/
theorem after_append_ok {s t : σ} {xs ys : List ι}
    (h : after call s xs = .ok t) :
    after call s (xs ++ ys) = after call t ys := by
  induction xs generalizing s with
  | nil => cases h; rfl
  | cons x xs ih =>
      cases hx : call s x with
      | error e => simp [after, hx] at h
      | ok r =>
          rw [after_cons_ok hx] at h
          rw [List.cons_append, after_cons_ok hx]
          exact ih h

/-- A run that completes has completed before its last call. -/
theorem after_snoc_ok {s t : σ} {xs : List ι} {x : ι} (h : after call s (xs ++ [x]) = .ok t) :
    ∃ m r, after call s xs = .ok m ∧ call m x = .ok r ∧ r.1 = t := by
  induction xs generalizing s with
  | nil =>
      cases hx : call s x with
      | error e => simp [after, hx] at h
      | ok r =>
          rw [List.nil_append, after_cons_ok hx] at h
          exact ⟨s, r, rfl, hx, Except.ok.inj h⟩
  | cons y xs ih =>
      cases hy : call s y with
      | error e => simp [after, hy] at h
      | ok r =>
          rw [List.cons_append, after_cons_ok hy] at h
          rw [after_cons_ok hy]
          exact ih h

/-- **Progress of calls.**  If the invariant guarantees that a call completes
and holds again, a sequence of calls completes. -/
theorem after_total {P : σ → Prop} {s : σ} {xs : List ι} (hs : P s)
    (hstep : ∀ s x, x ∈ xs → P s → ∃ r, call s x = .ok r ∧ P r.1) :
    ∃ t, after call s xs = .ok t ∧ P t := by
  induction xs generalizing s with
  | nil => exact ⟨s, rfl, hs⟩
  | cons x xs ih =>
      obtain ⟨r, hr, hP⟩ := hstep s x (by simp) hs
      rw [after_cons_ok hr]
      exact ih hP (fun s y hy => hstep s y (by simp [hy]))

/-- **An error that no call raises.**  The invariant may depend on the calls before. -/
theorem after_ne_error {P : σ → Prop} {s : σ} {e : ε} (hs : P s)
    (hstep : ∀ s x, P s → call s x ≠ .error e ∧ ∀ r, call s x = .ok r → P r.1) (xs : List ι) :
    after call s xs ≠ .error e := by
  induction xs generalizing s with
  | nil =>
      intro h
      cases h
  | cons x xs ih =>
      obtain ⟨hne, hkeep⟩ := hstep s x hs
      cases hx : call s x with
      | error e' =>
          intro h
          simp only [after, hx, Except.error.injEq] at h
          exact hne (h ▸ hx)
      | ok r =>
          rw [after_cons_ok hx]
          exact ih (hkeep r hx)

end Calls

/-- **Progress of loops.**  If the invariant guarantees that the next round completes
and holds again, the loop completes. -/
theorem foldlM_total {α ι ε : Type} {P : List ι → α → Prop} {f : α → ι → Except ε α} {a : α}
    (h₀ : P [] a) (l : List ι) (hstep : ∀ pre x post a, l = pre ++ x :: post → P pre a →
      ∃ a', f a x = .ok a' ∧ P (pre ++ [x]) a') : ∃ r, l.foldlM f a = .ok r ∧ P l r := by
  induction l using List.reverseRecOn with
  | nil => exact ⟨a, rfl, h₀⟩
  | append_singleton pre x ih =>
      obtain ⟨b, hb, hP⟩ := ih fun pre' y post a h => hstep pre' y (post ++ [x]) a (by simp [h])
      obtain ⟨r, hr, hP⟩ := hstep pre x [] b rfl hP
      refine ⟨r, ?_, hP⟩
      rw [List.foldlM_append, hb]
      show [x].foldlM f b = Except.ok r
      rw [List.foldlM_cons, hr]
      rfl

/-! ## Two computations in lockstep -/

section Lockstep

variable {α β γ δ ι ε : Type}

/-- Two computations that fail alike, or both complete with related results. -/
inductive Lockstep (R : α → β → Prop) : Except ε α → Except ε β → Prop
  | error (e : ε) : Lockstep R (.error e) (.error e)
  | ok {x : α} {y : β} (h : R x y) : Lockstep R (.ok x) (.ok y)

namespace Lockstep

variable {R : α → β → Prop} {S : γ → δ → Prop}

theorem refl (m : Except ε α) : Lockstep (fun x y => x = y) m m := by
  cases m with
  | error e => exact .error e
  | ok x => exact .ok rfl

theorem bind {m : Except ε α} {n : Except ε β} {f : α → Except ε γ} {g : β → Except ε δ}
    (h : Lockstep R m n) (hfg : ∀ x y, R x y → Lockstep S (f x) (g y)) :
    Lockstep S (m >>= f) (n >>= g) := by
  cases h with
  | error e => exact .error e
  | ok hxy => exact hfg _ _ hxy

theorem symm {m : Except ε α} {n : Except ε β} (h : Lockstep R m n) :
    Lockstep (fun y x => R x y) n m := by
  cases h with
  | error e => exact .error e
  | ok hxy => exact .ok hxy

/-- If one of the two completes, so does the other. -/
theorem of_ok {m : Except ε α} {n : Except ε β} (h : Lockstep R m n) {x : α}
    (hm : m = .ok x) : ∃ y, n = .ok y ∧ R x y := by
  cases h with
  | error e => cases hm
  | ok hxy =>
      cases hm
      exact ⟨_, rfl, hxy⟩

theorem of_error {m : Except ε α} {n : Except ε β} (h : Lockstep R m n) {e : ε}
    (hm : m = .error e) : n = .error e := by
  cases h with
  | error e' => exact congrArg Except.error (Except.error.inj hm)
  | ok hxy => cases hm

/-- **Two loops.**  The relation may depend on the rounds so far. -/
theorem foldlM {R : List ι → α → β → Prop} {f : α → ι → Except ε α} {g : β → ι → Except ε β}
    {a : α} {b : β} (h₀ : R [] a b)
    (hstep : ∀ pre x a b, R pre a b → Lockstep (R (pre ++ [x])) (f a x) (g b x)) (l : List ι) :
    Lockstep (R l) (l.foldlM f a) (l.foldlM g b) := by
  induction l using List.reverseRecOn with
  | nil => exact .ok h₀
  | append_singleton pre x ih =>
      rw [List.foldlM_append, List.foldlM_append]
      refine ih.bind fun a b hab => ?_
      rw [List.foldlM_cons, List.foldlM_cons]
      exact (hstep pre x a b hab).bind fun a b hab => .ok hab

/-- **Two objects.** -/
theorem after {σ τ ω ω' : Type} {call : σ → ι → Except ε (σ × ω)}
    {call' : τ → ι → Except ε (τ × ω')} {R : σ → τ → Prop}
    (hstep : ∀ s t x, R s t → Lockstep (fun r r' => R r.1 r'.1) (call s x) (call' t x))
    {s : σ} {t : τ} (h : R s t) (xs : List ι) :
    Lockstep R (Runs.after call s xs) (Runs.after call' t xs) := by
  induction xs generalizing s t with
  | nil => exact .ok h
  | cons x xs ih =>
      have hx := hstep s t x h
      cases hs : call s x with
      | error e =>
          simp only [Runs.after, hs, hx.of_error hs]
          exact .error e
      | ok r =>
          obtain ⟨r', ht, hr⟩ := hx.of_ok hs
          rw [after_cons_ok hs, after_cons_ok ht]
          exact ih hr

end Lockstep

end Lockstep

/-! ## Labelled steps -/

section Steps

variable {σ ℓ : Type} (step : σ → ℓ → σ → Prop)

/-- A finite run, with its labels in order. -/
inductive Run : σ → List ℓ → σ → Prop
  | nil (s : σ) : Run s [] s
  | snoc {s t u : σ} {a : ℓ} {tr : List ℓ} (tail : Run s tr t) (last : step t a u) :
      Run s (tr ++ [a]) u

variable {step}

/-- **Invariant of runs.**  The step lemma may use the labels so far. -/
theorem Run.inv {P : List ℓ → σ → Prop} {s t : σ} {tr : List ℓ} (hs : P [] s)
    (hstep : ∀ tr t a u, Run step s tr t → P tr t → step t a u → P (tr ++ [a]) u)
    (h : Run step s tr t) : P tr t := by
  induction h with
  | nil => exact hs
  | snoc tail last ih => exact hstep _ _ _ _ tail ih last

theorem Run.trans {s t u : σ} {tr tr' : List ℓ} (h : Run step s tr t) (h' : Run step t tr' u) :
    Run step s (tr ++ tr') u := by
  induction h' with
  | nil => rwa [List.append_nil]
  | snoc tail last ih =>
      rw [← List.append_assoc]
      exact ih.snoc last

/-- A run ends with its last label. -/
theorem Run.of_snoc {s u : σ} {a : ℓ} {tr : List ℓ} (h : Run step s (tr ++ [a]) u) :
    ∃ t, Run step s tr t ∧ step t a u := by
  generalize htr : tr ++ [a] = tr' at h
  cases h with
  | nil => simp at htr
  | snoc tail last =>
      obtain ⟨rfl, ha⟩ := List.append_inj' htr rfl
      obtain rfl : a = _ := by simpa using ha
      exact ⟨_, tail, last⟩

/-- A run splits at every label. -/
theorem Run.at_label {s t : σ} {a : ℓ} {pre post : List ℓ} (h : Run step s (pre ++ a :: post) t) :
    ∃ m m', Run step s pre m ∧ step m a m' := by
  generalize htr : pre ++ a :: post = tr at h
  induction h generalizing post with
  | nil => simp at htr
  | snoc tail last ih =>
      obtain rfl | ⟨post, b, rfl⟩ := post.eq_nil_or_concat'
      · obtain ⟨rfl, hb⟩ := List.append_inj' htr rfl
        obtain rfl : a = _ := by simpa using hb
        exact ⟨_, _, tail, last⟩
      · rw [← List.cons_append, ← List.append_assoc] at htr
        obtain ⟨rfl, -⟩ := List.append_inj' htr rfl
        exact ih rfl

/-- A run splits between any two labels. -/
theorem Run.of_append {s t : σ} {tr tr' : List ℓ} (h : Run step s (tr ++ tr') t) :
    ∃ m, Run step s tr m ∧ Run step m tr' t := by
  induction tr' using List.reverseRecOn generalizing t with
  | nil => exact ⟨t, by rwa [List.append_nil] at h, .nil t⟩
  | append_singleton tr' a ih =>
      rw [← List.append_assoc] at h
      obtain ⟨u, hu, hlast⟩ := h.of_snoc
      obtain ⟨m, hm, hrest⟩ := ih hu
      exact ⟨m, hm, hrest.snoc hlast⟩

/-- A run without labels stays where it is. -/
theorem Run.of_nil {s t : σ} (h : Run step s [] t) : t = s := by
  generalize htr : ([] : List ℓ) = tr at h
  cases h with
  | nil => rfl
  | snoc => simp at htr

/-- A run begins with its first label. -/
theorem Run.of_cons {s t : σ} {a : ℓ} {tr : List ℓ} (h : Run step s (a :: tr) t) :
    ∃ m, step s a m ∧ Run step m tr t := by
  have hsplit : Run step s (([] ++ [a]) ++ tr) t := h
  obtain ⟨m, hfirst, hrest⟩ := hsplit.of_append
  obtain ⟨m', hnil, hstep⟩ := hfirst.of_snoc
  rw [hnil.of_nil] at hstep
  exact ⟨m, hstep, hrest⟩

/-- **Simulation.**  If every step with an allowed label is matched, under a
translation of the labels, so is every run. -/
theorem Run.simulate {τ ℓ' : Type} {step' : τ → ℓ' → τ → Prop} {R : σ → τ → Prop} {f : ℓ → ℓ'}
    {P : ℓ → Prop} (hstep : ∀ s a t s', R s s' → P a → step s a t →
      ∃ t', step' s' (f a) t' ∧ R t t')
    {s t : σ} {s' : τ} {tr : List ℓ} (h : Run step s tr t) (hs : R s s') (htr : ∀ a ∈ tr, P a) :
    ∃ t', Run step' s' (tr.map f) t' ∧ R t t' := by
  induction h with
  | nil => exact ⟨s', .nil s', hs⟩
  | snoc tail last ih =>
      obtain ⟨m', hrun, hm⟩ := ih fun a ha => htr a (List.mem_append_left _ ha)
      obtain ⟨t', hlast, ht⟩ := hstep _ _ _ _ hm (htr _ (by simp)) last
      rw [List.map_append]
      exact ⟨t', hrun.snoc hlast, ht⟩

end Steps

/-! ## What happened on the way -/

section Since

variable {ℓ : Type}

/-- A label with `p` occurred, and none with `q` since. -/
def Since (p q : ℓ → Prop) (tr : List ℓ) : Prop :=
  ∃ pre a mid, tr = pre ++ a :: mid ∧ p a ∧ ∀ b ∈ mid, ¬ q b

theorem not_since_nil (p q : ℓ → Prop) : ¬ Since p q [] := by
  intro ⟨pre, a, mid, h, _⟩
  simp at h

/-- **One more label.** -/
theorem since_snoc_iff {p q : ℓ → Prop} {tr : List ℓ} {a : ℓ} :
    Since p q (tr ++ [a]) ↔ p a ∨ (¬ q a ∧ Since p q tr) := by
  constructor
  · intro ⟨pre, b, mid, h, hb, hmid⟩
    obtain rfl | ⟨mid, c, rfl⟩ := mid.eq_nil_or_concat'
    · obtain ⟨-, hab⟩ := List.append_inj' h rfl
      obtain rfl : a = b := by simpa using hab
      exact Or.inl hb
    · rw [← List.cons_append, ← List.append_assoc] at h
      obtain ⟨rfl, hac⟩ := List.append_inj' h rfl
      obtain rfl : a = c := by simpa using hac
      exact Or.inr ⟨hmid a (by simp), pre, b, mid, rfl, hb, fun d hd => hmid d (by simp [hd])⟩
  · intro h
    rcases h with ha | ⟨ha, pre, b, mid, rfl, hb, hmid⟩
    · exact ⟨tr, a, [], rfl, ha, by simp⟩
    · refine ⟨pre, b, mid ++ [a], by simp, hb, ?_⟩
      intro d hd
      rcases List.mem_append.mp hd with hd | hd
      · exact hmid d hd
      · rw [List.mem_singleton.mp hd]
        exact ha

theorem Since.append {p q : ℓ → Prop} {tr tr' : List ℓ} (h : Since p q tr)
    (htr' : ∀ a ∈ tr', ¬ q a) : Since p q (tr ++ tr') := by
  obtain ⟨pre, a, mid, rfl, ha, hmid⟩ := h
  refine ⟨pre, a, mid ++ tr', by simp, ha, ?_⟩
  intro b hb
  rcases List.mem_append.mp hb with hb | hb
  · exact hmid b hb
  · exact htr' b hb

/-- The last label with `p` is determined by the labels. -/
theorem last_unique {p : ℓ → Prop} {pre pre' mid mid' : List ℓ} {a b : ℓ}
    (h : pre ++ a :: mid = pre' ++ b :: mid') (ha : p a) (hb : p b)
    (hmid : ∀ c ∈ mid, ¬ p c) (hmid' : ∀ c ∈ mid', ¬ p c) :
    pre = pre' ∧ a = b ∧ mid = mid' := by
  rcases List.append_eq_append_iff.mp h with ⟨zs, rfl, h₂⟩ | ⟨zs, rfl, h₂⟩
  · cases zs with
    | nil => simpa using h₂
    | cons z zs =>
        obtain ⟨rfl, rfl⟩ := List.cons.inj h₂
        exact absurd hb (hmid b (by simp))
  · cases zs with
    | nil => simpa [eq_comm] using h₂
    | cons z zs =>
        obtain ⟨rfl, rfl⟩ := List.cons.inj h₂
        exact absurd ha (hmid' a (by simp))

end Since

end Runs
