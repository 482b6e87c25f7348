import Mathlib.Data.List.Nodup
import Mathlib.Data.Set.Lattice
import Mathlib.Logic.Function.Basic
import Memrec.Runs

/-!
# Banks of stateful cells

A bank maps keys to cells that may or may not have been created.  An update
addresses one key, hands the cell an input and gets an output back; addressing
a key without a cell is an error.  A *feed* is a loop of such updates, with an
accumulator that collects the outputs.

Two questions are answered once and for all.  Which keys must exist for a
computation over a bank to go through is the predicate `Touches`, which
composes along sequencing and loops.  What a feed computes when its keys are
pairwise different is `feed_spec`: every cell sees exactly one input, whatever
the order of the keys.
-/

namespace CellBank

open Runs

variable {κ γ ι ω ε α β δ : Type}

theorem ok_bind (x : α) (g : α → Except ε β) : (Except.ok x >>= g) = g x := rfl

theorem error_bind (e : ε) (g : α → Except ε β) :
    (Except.error e >>= g) = .error e := rfl

/-- A sequence completes only if both parts do. -/
theorem bind_eq_ok {m : Except ε α} {g : α → Except ε β} {y : β} :
    (m >>= g) = .ok y ↔ ∃ x, m = .ok x ∧ g x = .ok y := by
  cases m with
  | error e => simp [error_bind]
  | ok x => simp [ok_bind]

/-- An error that neither part raises is not raised by the sequence. -/
theorem ok_ne_error {x : α} {e : ε} : (.ok x : Except ε α) ≠ .error e := by
  intro h
  cases h

theorem bind_ne_error {m : Except ε α} {g : α → Except ε β} {e : ε} (hm : m ≠ .error e)
    (hg : ∀ x, g x ≠ .error e) : (m >>= g) ≠ .error e := by
  cases m with
  | error e' =>
      rw [error_bind]
      intro h
      exact hm (congrArg Except.error (Except.error.inj h))
  | ok x => exact hg x

theorem of_bind_eq_error {m : Except ε α} {g : α → Except ε β} {e : ε}
    (h : (m >>= g) = .error e) (hg : ∀ x, g x ≠ .error e) : m = .error e := by
  cases m with
  | error e' => exact congrArg Except.error (Except.error.inj h)
  | ok x => exact absurd h (hg x)

theorem map_eq_ok {m : Except ε α} {f : α → β} {y : β} :
    m.map f = .ok y ↔ ∃ x, m = .ok x ∧ f x = y := by
  cases m <;> simp [Except.map]

theorem of_map_eq_error {m : Except ε α} {f : α → β} {e : ε} (h : m.map f = .error e) :
    m = .error e := by
  cases m with
  | error e' => exact congrArg Except.error (Except.error.inj h)
  | ok x => exact absurd h ok_ne_error

theorem mapM_ne_error {f : α → Except ε β} {e : ε} (h : ∀ x, f x ≠ .error e) (l : List α) :
    l.mapM f ≠ .error e := by
  induction l with
  | nil => exact ok_ne_error
  | cons x l ih =>
      rw [List.mapM_cons]
      exact bind_ne_error (h x) fun y => bind_ne_error ih fun ys => ok_ne_error

/-- A loop completes exactly if each of its rounds does. -/
theorem mapM_isOk_iff {f : α → Except ε β} (l : List α) :
    (∃ ys, l.mapM f = .ok ys) ↔ ∀ x ∈ l, ∃ y, f x = .ok y := by
  induction l with
  | nil => exact ⟨fun _ x hx => absurd hx List.not_mem_nil, fun _ => ⟨[], rfl⟩⟩
  | cons x l ih =>
      rw [List.forall_mem_cons, ← ih]
      constructor
      · intro ⟨ys, h⟩
        rw [List.mapM_cons] at h
        obtain ⟨y, hy, h⟩ := bind_eq_ok.mp h
        obtain ⟨zs, hzs, -⟩ := bind_eq_ok.mp h
        exact ⟨⟨y, hy⟩, zs, hzs⟩
      · intro ⟨⟨y, hy⟩, zs, hzs⟩
        exact ⟨y :: zs, by rw [List.mapM_cons, hy, ok_bind, hzs, ok_bind]; rfl⟩

theorem foldlM_ne_error {f : β → α → Except ε β} {e : ε} (h : ∀ b x, f b x ≠ .error e)
    (l : List α) (b : β) : l.foldlM f b ≠ .error e := by
  induction l generalizing b with
  | nil => exact ok_ne_error
  | cons x l ih =>
      rw [List.foldlM_cons]
      exact bind_ne_error (h b x) ih

/-- A computation that can fail in one way only. -/
def FailsOnly (e₀ : ε) (m : Except ε α) : Prop := ∀ e, m = .error e → e = e₀

theorem failsOnly_ok {e₀ : ε} (x : α) : FailsOnly e₀ (.ok x) := fun _ h =>
  absurd h ok_ne_error

theorem FailsOnly.bind {e₀ : ε} {m : Except ε α} {g : α → Except ε β} (hm : FailsOnly e₀ m)
    (hg : ∀ x, FailsOnly e₀ (g x)) : FailsOnly e₀ (m >>= g) := by
  cases m with
  | error e' => exact fun e h => hm e (congrArg Except.error (Except.error.inj h))
  | ok x => exact hg x

theorem FailsOnly.mapM {e₀ : ε} {f : α → Except ε β} (h : ∀ x, FailsOnly e₀ (f x))
    (l : List α) : FailsOnly e₀ (l.mapM f) := by
  induction l with
  | nil => exact failsOnly_ok _
  | cons x l ih =>
      rw [List.mapM_cons]
      exact (h x).bind fun y => ih.bind fun ys => failsOnly_ok _

theorem FailsOnly.foldlM {e₀ : ε} {f : β → α → Except ε β} (h : ∀ b x, FailsOnly e₀ (f b x))
    (l : List α) (b : β) : FailsOnly e₀ (l.foldlM f b) := by
  induction l generalizing b with
  | nil => exact failsOnly_ok _
  | cons x l ih =>
      rw [List.foldlM_cons]
      exact (h b x).bind ih

/-- A partial table of cells. -/
abbrev Bank (κ γ : Type) := κ → Option γ

section Tables

variable [DecidableEq κ]

/-- Store a cell. -/
def put (b : Bank κ γ) (k : κ) (c : γ) : Bank κ γ := Function.update b k (some c)

/-- Store several cells, in order. -/
def putAll (b : Bank κ γ) (ps : List (κ × γ)) : Bank κ γ :=
  ps.foldl (fun b p => put b p.1 p.2) b

/-- Update one cell. -/
def touch (upd : γ → ι → ω × γ) (missing : ε) (b : Bank κ γ) (k : κ) (x : ι) :
    Except ε (ω × Bank κ γ) :=
  match b k with
  | none => .error missing
  | some c => .ok ((upd c x).1, put b k (upd c x).2)

/-- Update cells in order, collecting the outputs. -/
def feed (upd : γ → ι → ω × γ) (missing : ε) (acc : α → κ → ω → α)
    (st : Bank κ γ × α) (rs : List (κ × ι)) : Except ε (Bank κ γ × α) :=
  rs.foldlM (fun st r => do
    let (d, b) ← touch upd missing st.1 r.1 r.2
    pure (b, acc st.2 r.1 d)) st

@[simp] theorem put_self (b : Bank κ γ) (k : κ) (c : γ) : put b k c k = some c := by
  simp [put]

@[simp] theorem put_of_ne (b : Bank κ γ) {j k : κ} (c : γ) (h : j ≠ k) :
    put b k c j = b j := by
  simp [put, h]

theorem isSome_put (b : Bank κ γ) (j k : κ) (c : γ) :
    (put b k c j).isSome ↔ j = k ∨ (b j).isSome := by
  by_cases h : j = k
  · subst h; simp
  · simp [h]

@[simp] theorem putAll_nil (b : Bank κ γ) : putAll b [] = b := rfl

@[simp] theorem putAll_cons (b : Bank κ γ) (p : κ × γ) (ps : List (κ × γ)) :
    putAll b (p :: ps) = putAll (put b p.1 p.2) ps := rfl

theorem putAll_append (b : Bank κ γ) (ps qs : List (κ × γ)) :
    putAll b (ps ++ qs) = putAll (putAll b ps) qs := by
  simp [putAll, List.foldl_append]

/-- The keys of a filled bank. -/
theorem isSome_putAll (b : Bank κ γ) (ps : List (κ × γ)) (k : κ) :
    (putAll b ps k).isSome ↔ k ∈ ps.map Prod.fst ∨ (b k).isSome := by
  induction ps generalizing b with
  | nil => simp
  | cons p ps ih =>
      rw [putAll_cons, ih, isSome_put]
      simp only [List.map_cons, List.mem_cons]
      tauto

theorem putAll_of_notMem (b : Bank κ γ) {ps : List (κ × γ)} {k : κ}
    (h : k ∉ ps.map Prod.fst) : putAll b ps k = b k := by
  induction ps generalizing b with
  | nil => rfl
  | cons p ps ih =>
      simp only [List.map_cons, List.mem_cons, not_or] at h
      rw [putAll_cons, ih _ h.2, put_of_ne _ _ h.1]

/-- Filling round by round is filling at once. -/
theorem foldl_putAll (b : Bank κ γ) (f : δ → List (κ × γ)) (l : List δ) :
    l.foldl (fun b x => putAll b (f x)) b = putAll b (l.flatMap f) := by
  simp [putAll, List.foldl_flatMap]

/-- A key whose cells all agree holds their common value, however often it is
stored. -/
theorem putAll_of_agree (b : Bank κ γ) {ps : List (κ × γ)} {k : κ} {c : γ}
    (hmem : k ∈ ps.map Prod.fst) (hc : ∀ p ∈ ps, p.1 = k → p.2 = c) :
    putAll b ps k = some c := by
  induction ps generalizing b with
  | nil => simp at hmem
  | cons p ps ih =>
      rw [putAll_cons]
      by_cases hlater : k ∈ ps.map Prod.fst
      · exact ih _ hlater fun q hq => hc q (List.mem_cons_of_mem _ hq)
      · have hp : p.1 = k := by grind
        rw [putAll_of_notMem _ hlater, ← hp, put_self, hc p List.mem_cons_self hp]

/-- With pairwise different keys each cell stored is the one found. -/
theorem putAll_of_mem (b : Bank κ γ) (ps : List (κ × γ))
    (hn : (ps.map Prod.fst).Nodup) {p : κ × γ} (hp : p ∈ ps) :
    putAll b ps p.1 = some p.2 :=
  putAll_of_agree b (List.mem_map_of_mem hp) fun _ hq hkey =>
    congrArg Prod.snd (List.inj_on_of_nodup_map hn hq hp hkey)

section Feed

variable (upd : γ → ι → ω × γ) (missing : ε) (acc : α → κ → ω → α)

@[simp] theorem feed_nil (st : Bank κ γ × α) :
    feed upd missing acc st [] = .ok st := rfl

/-- One round of the loop on a key that has a cell. -/
theorem feed_cons_some {b : Bank κ γ} {r : κ × ι} {c : γ}
    (hc : b r.1 = some c) (a : α) (rs : List (κ × ι)) :
    feed upd missing acc (b, a) (r :: rs) =
      feed upd missing acc
        (put b r.1 (upd c r.2).2, acc a r.1 (upd c r.2).1) rs := by
  simp only [feed, List.foldlM_cons, touch, hc]
  rfl

/-- One round of the loop on a key without a cell. -/
theorem feed_cons_none {b : Bank κ γ} {r : κ × ι}
    (hc : b r.1 = none) (a : α) (rs : List (κ × ι)) :
    feed upd missing acc (b, a) (r :: rs) = .error missing := by
  simp only [feed, List.foldlM_cons, touch, hc]
  rfl

/-- A feed fails for want of a cell only. -/
theorem failsOnly_feed (st : Bank κ γ × α) (rs : List (κ × ι)) :
    FailsOnly missing (feed upd missing acc st rs) := by
  unfold feed
  apply FailsOnly.foldlM
  intro st r
  cases hc : st.1 r.1 with
  | none =>
      simp only [touch, hc]
      exact fun e h => (Except.error.inj h).symm
  | some c =>
      simp only [touch, hc]
      exact failsOnly_ok _

theorem feed_append (st : Bank κ γ × α) (rs qs : List (κ × ι)) :
    feed upd missing acc st (rs ++ qs) =
      (feed upd missing acc st rs >>= fun st => feed upd missing acc st qs) := by
  simp [feed, List.foldlM_append]

/-- A loop of loops is one loop. -/
theorem feed_flatMap (st : Bank κ γ × α) (f : δ → List (κ × ι)) (l : List δ) :
    l.foldlM (fun st x => feed upd missing acc st (f x)) st =
      feed upd missing acc st (l.flatMap f) := by
  induction l generalizing st with
  | nil => rfl
  | cons x l ih =>
      rw [List.foldlM_cons, List.flatMap_cons, feed_append]
      congr 1
      funext st
      exact ih st

/-- A feed that collects its outputs in a list. -/
theorem foldl_collect (f : δ → β) (rs : List δ) (l : List β) :
    rs.foldl (fun l r => l ++ [f r]) l = l ++ rs.map f := by
  rw [List.foldl_append_eq_append, ← List.flatMap_def, ← List.map_eq_flatMap]

/-- **What a feed computes.**  When the keys are pairwise different and all
have cells, each cell takes its own input from the cell it held before the
loop, and the other cells stay. -/
theorem feed_spec {b : Bank κ γ} (cell : κ → γ) {rs : List (κ × ι)}
    (hn : (rs.map Prod.fst).Nodup) (hc : ∀ r ∈ rs, b r.1 = some (cell r.1)) (a : α) :
    ∃ b', feed upd missing acc (b, a) rs =
        .ok (b', rs.foldl (fun a r => acc a r.1 (upd (cell r.1) r.2).1) a) ∧
      (∀ r ∈ rs, b' r.1 = some (upd (cell r.1) r.2).2) ∧
      ∀ k, k ∉ rs.map Prod.fst → b' k = b k := by
  induction rs generalizing b a with
  | nil => exact ⟨b, rfl, fun _ h => absurd h List.not_mem_nil, fun _ _ => rfl⟩
  | cons r rs ih =>
      simp only [List.map_cons, List.nodup_cons] at hn
      have hrest : ∀ q ∈ rs, put b r.1 (upd (cell r.1) r.2).2 q.1 = some (cell q.1) := by
        intro q hq
        have hne : q.1 ≠ r.1 := fun h => hn.1 (h ▸ List.mem_map_of_mem hq)
        rw [put_of_ne _ _ hne]
        exact hc q (List.mem_cons_of_mem _ hq)
      obtain ⟨b', hb', htake, hkeep⟩ := ih hn.2 hrest (acc a r.1 (upd (cell r.1) r.2).1)
      refine ⟨b', ?_, ?_, ?_⟩
      · rw [feed_cons_some upd missing acc (hc r List.mem_cons_self) a rs, hb']
        rfl
      · intro q hq
        rcases List.mem_cons.mp hq with rfl | hq
        · rw [hkeep _ hn.1, put_self]
        · exact htake q hq
      · intro k hk
        simp only [List.map_cons, List.mem_cons, not_or] at hk
        rw [hkeep k hk.2, put_of_ne _ _ hk.1]

/-- Feeding every cell what it already holds changes nothing and every output
is the same one. -/
theorem feed_fixed (holds : γ → ι → Prop) (z : ω)
    (hout : ∀ c x, holds c x → (upd c x).1 = z)
    (hkeep : ∀ c x y, holds c x → holds c y → holds (upd c x).2 y)
    {b : Bank κ γ} {rs : List (κ × ι)} (h : ∀ r ∈ rs, ∃ c, b r.1 = some c ∧ holds c r.2) (a : α) :
    ∃ b', feed upd missing acc (b, a) rs = .ok (b', rs.foldl (fun a r => acc a r.1 z) a) ∧
      ∀ k x, (∃ c, b k = some c ∧ holds c x) → ∃ c, b' k = some c ∧ holds c x := by
  induction rs generalizing b a with
  | nil => exact ⟨b, rfl, fun _ _ h => h⟩
  | cons r rs ih =>
      obtain ⟨c, hc, hcx⟩ := h r List.mem_cons_self
      have hstep : ∀ k x, (∃ c, b k = some c ∧ holds c x) →
          ∃ c', put b r.1 (upd c r.2).2 k = some c' ∧ holds c' x := by
        intro k x hk
        obtain ⟨c', hc', hx⟩ := hk
        by_cases hkr : k = r.1
        · subst hkr
          obtain rfl : c = c' := Option.some.inj (hc.symm.trans hc')
          exact ⟨_, put_self _ _ _, hkeep c r.2 x hcx hx⟩
        · exact ⟨c', by rw [put_of_ne _ _ hkr, hc'], hx⟩
      obtain ⟨b', hb', hrest⟩ := ih
        (fun q hq => hstep q.1 q.2 (h q (List.mem_cons_of_mem _ hq))) (acc a r.1 z)
      refine ⟨b', ?_, fun k x hk => hrest k x (hstep k x hk)⟩
      rw [feed_cons_some upd missing acc hc, hout c r.2 hcx, hb']
      rfl

end Feed

end Tables

/-! ## Which cells a computation needs -/

/-- The keys of a list of inputs. -/
def keysOf (rs : List (κ × ι)) : Set κ := {k | k ∈ rs.map Prod.fst}

@[simp] theorem mem_keysOf {rs : List (κ × ι)} {k : κ} : k ∈ keysOf rs ↔ k ∈ rs.map Prod.fst :=
  Iff.rfl

/-- A computation over a bank *touches* a set of keys: it completes only if all
of them have cells, it never creates or removes a cell, and if they all have
cells it does not fail for want of one. -/
structure Touches (missing : ε) (f : Bank κ γ × α → Except ε (Bank κ γ × β))
    (ks : Set κ) : Prop where
  needs : ∀ b a r, f (b, a) = .ok r → ∀ k ∈ ks, (b k).isSome
  dom : ∀ b a r, f (b, a) = .ok r → ∀ k, (r.1 k).isSome ↔ (b k).isSome
  safe : ∀ b a, (∀ k ∈ ks, (b k).isSome) → f (b, a) ≠ .error missing

theorem touches_feed [DecidableEq κ] (upd : γ → ι → ω × γ) (missing : ε) (acc : α → κ → ω → α)
    (rs : List (κ × ι)) :
    Touches missing (fun st => feed upd missing acc st rs) (keysOf rs) := by
  have hkept : ∀ (b : Bank κ γ) (r : κ × ι) (c : γ), b r.1 = some c → ∀ k,
      (put b r.1 (upd c r.2).2 k).isSome ↔ (b k).isSome := by
    intro b r c hc k
    rw [isSome_put]
    refine ⟨?_, Or.inr⟩
    rintro (rfl | h)
    · simp [hc]
    · exact h
  induction rs with
  | nil => exact ⟨by simp, by rintro b a r ⟨⟩ k; rfl, by simp⟩
  | cons r rs ih =>
      refine ⟨?_, ?_, ?_⟩
      · intro b a x h
        cases hc : b r.1 with
        | none => simp [feed_cons_none upd missing acc hc] at h
        | some c =>
            rw [feed_cons_some upd missing acc hc] at h
            intro k hk
            rcases List.mem_cons.mp hk with rfl | hk
            · simp [hc]
            · exact (hkept b r c hc k).mp (ih.needs _ _ _ h k hk)
      · intro b a x h k
        cases hc : b r.1 with
        | none => simp [feed_cons_none upd missing acc hc] at h
        | some c =>
            rw [feed_cons_some upd missing acc hc] at h
            exact (ih.dom _ _ _ h k).trans (hkept b r c hc k)
      · intro b a h
        obtain ⟨c, hc⟩ := Option.isSome_iff_exists.mp (h r.1 (by simp))
        show feed upd missing acc (b, a) (r :: rs) ≠ .error missing
        rw [feed_cons_some upd missing acc hc]
        exact ih.safe _ _ (fun k hk => (hkept b r c hc k).mpr (h k (by simp_all)))

/-- A computation whose first part, with an accumulator of its own, does all
the work on the bank. -/
theorem Touches.of_first {missing : ε} {f : Bank κ γ × α → Except ε (Bank κ γ × β)} {ks : Set κ}
    (hf : Touches missing f ks) (a : α) {g : Bank κ γ × ι → Except ε (Bank κ γ × δ)}
    (hok : ∀ b c r, g (b, c) = .ok r → ∃ y, f (b, a) = .ok y ∧ r.1 = y.1)
    (herr : ∀ b c, g (b, c) = .error missing → f (b, a) = .error missing) :
    Touches missing g ks := by
  refine ⟨?_, ?_, ?_⟩
  · intro b c r h
    obtain ⟨y, hy, -⟩ := hok b c r h
    exact hf.needs _ _ _ hy
  · intro b c r h k
    obtain ⟨y, hy, hr⟩ := hok b c r h
    rw [hr]
    exact hf.dom _ _ _ hy k
  · intro b c h hg
    exact hf.safe b a h (herr b c hg)

/-- Sequencing touches the keys of both parts. -/
theorem Touches.bind {missing : ε} {f : Bank κ γ × α → Except ε (Bank κ γ × β)}
    {g : Bank κ γ × β → Except ε (Bank κ γ × δ)} {ks js : Set κ}
    (hf : Touches missing f ks) (hg : Touches missing g js) :
    Touches missing (fun st => f st >>= g) (ks ∪ js) := by
  refine ⟨?_, ?_, ?_⟩
  · intro b a x h k hk
    obtain ⟨y, hy, hx⟩ := bind_eq_ok.mp h
    rcases hk with hk | hk
    · exact hf.needs _ _ _ hy k hk
    · exact (hf.dom _ _ _ hy k).mp (hg.needs y.1 y.2 x hx k hk)
  · intro b a x h k
    obtain ⟨y, hy, hx⟩ := bind_eq_ok.mp h
    exact (hg.dom y.1 y.2 x hx k).trans (hf.dom _ _ _ hy k)
  · intro b a h
    cases hfa : f (b, a) with
    | error e =>
        have he := hf.safe b a (fun k hk => h k (Or.inl hk))
        rw [hfa] at he
        rw [error_bind]
        intro hm
        exact he (congrArg Except.error (Except.error.inj hm))
    | ok y =>
        rw [ok_bind]
        exact hg.safe y.1 y.2
          (fun k hk => (hf.dom _ _ _ hfa k).mpr (h k (Or.inr hk)))

/-- A loop touches the keys of all its rounds. -/
theorem Touches.foldlM {missing : ε}
    {f : Bank κ γ × α → ι → Except ε (Bank κ γ × α)} {ks : ι → Set κ}
    (hf : ∀ x, Touches missing (fun st => f st x) (ks x)) (l : List ι) :
    Touches missing (fun st => l.foldlM f st) {k | ∃ x ∈ l, k ∈ ks x} := by
  induction l with
  | nil =>
      refine ⟨by simp, ?_, by simp [pure, Except.pure]⟩
      intro b a r h k
      simp only [List.foldlM_nil, pure, Except.pure, Except.ok.injEq] at h
      rw [← h]
  | cons x l ih =>
      have h := (hf x).bind ih
      have hset : ks x ∪ {k | ∃ y ∈ l, k ∈ ks y} = {k | ∃ y ∈ x :: l, k ∈ ks y} := by
        ext k
        simp
      rw [hset] at h
      simpa only [List.foldlM_cons] using h

/-! ## Objects that keep a bank -/

section Objects

variable {σ : Type} (call : σ → ι → Except ε (σ × ω)) (bank : σ → Bank κ γ) (missing : ε)
  (ks : σ → ι → Set κ)

/-- A call on an object *needs* a set of keys, in the sense of `Touches`, and
the object keeps needing the same keys. -/
structure Needs : Prop where
  needs : ∀ s x r, call s x = .ok r → ∀ k ∈ ks s x, (bank s k).isSome
  dom : ∀ s x r, call s x = .ok r → ∀ k, (bank r.1 k).isSome ↔ (bank s k).isSome
  same : ∀ s x r, call s x = .ok r → ks r.1 = ks s
  safe : ∀ s x, (∀ k ∈ ks s x, (bank s k).isSome) → call s x ≠ .error missing

variable {call bank missing ks}

/-- A call that works on the bank first and fails for want of a cell only
there. -/
theorem Touches.needs_call {f : σ → ι → Bank κ γ × α → Except ε (Bank κ γ × β)}
    {js : ι → Set κ} (hf : ∀ s x, Touches missing (f s x) (js x)) (a : σ → α)
    (hok : ∀ s x r, call s x = .ok r → ∃ y, f s x (bank s, a s) = .ok y ∧ bank r.1 = y.1)
    (herr : ∀ s x, call s x = .error missing → f s x (bank s, a s) = .error missing) :
    Needs call bank missing fun _ => js := by
  refine ⟨?_, ?_, fun _ _ _ _ => rfl, ?_⟩
  · intro s x r h
    obtain ⟨y, hy, -⟩ := hok s x r h
    exact (hf s x).needs _ _ _ hy
  · intro s x r h k
    obtain ⟨y, hy, hr⟩ := hok s x r h
    rw [hr]
    exact (hf s x).dom _ _ _ hy k
  · intro s x h hx
    exact (hf s x).safe (bank s) (a s) h (herr s x hx)

/-- **Runs of calls.**  A run completes only if every call finds its keys in the
bank of the first state, -/
theorem Needs.of_after (h : Needs call bank missing ks) {s t : σ} {xs : List ι}
    (hrun : after call s xs = .ok t) : ∀ x ∈ xs, ∀ k ∈ ks s x, (bank s k).isSome := by
  induction xs generalizing s with
  | nil => simp
  | cons x xs ih =>
      cases hx : call s x with
      | error e => simp [after, hx] at hrun
      | ok r =>
          rw [after_cons_ok hx] at hrun
          intro y hy k hk
          rcases List.mem_cons.mp hy with rfl | hy
          · exact h.needs s y r hx k hk
          · rw [← h.same s x r hx] at hk
            exact (h.dom s x r hx k).mp (ih hrun y hy k hk)

/-- and if every call does, no call fails for want of a cell. -/
theorem Needs.after_ne (h : Needs call bank missing ks) {s : σ} {xs : List ι}
    (hkeys : ∀ x ∈ xs, ∀ k ∈ ks s x, (bank s k).isSome) :
    after call s xs ≠ .error missing := by
  induction xs generalizing s with
  | nil => simp [after]
  | cons x xs ih =>
      have hsafe := h.safe s x (hkeys x List.mem_cons_self)
      cases hx : call s x with
      | error e =>
          rw [hx] at hsafe
          simp only [after, hx]
          intro hm
          exact hsafe (congrArg Except.error (Except.error.inj hm))
      | ok r =>
          rw [after_cons_ok hx]
          apply ih
          intro y hy k hk
          rw [h.same s x r hx] at hk
          exact (h.dom s x r hx k).mpr (hkeys y (List.mem_cons_of_mem _ hy) k hk)

end Objects

end CellBank
