import Memrec.Text

/-!
# Backtracking patterns

A regular expression is modelled by the list of its successes: at the head of
a subject it returns every way to match there, in the order in which a
backtracking matcher tries them, each with what it captured and what is left.
The match that the language reports is the first entry of that list at the
leftmost position where the list is not empty.

Patterns compose as a monad, so an expression is transcribed group by group.
-/

namespace Perl

/-- The ways a pattern can match at the head of a subject, preferred first. -/
def Pat (α : Type) : Type := Text → List (α × Text)

namespace Pat

instance : Monad Pat where
  pure a := fun s => [(a, s)]
  bind p f := fun s => (p s).flatMap fun r => f r.1 r.2

variable {α β : Type}

@[simp] theorem pure_apply (a : α) (s : Text) : (pure a : Pat α) s = [(a, s)] := rfl

@[simp] theorem bind_apply (p : Pat α) (f : α → Pat β) (s : Text) :
    (p >>= f) s = (p s).flatMap fun r => f r.1 r.2 := rfl

/-- A fixed text. -/
def lit (w : Text) : Pat Unit := fun s =>
  if w.isPrefixOf s then [((), s.drop w.length)] else []

/-- One character of a class. -/
def cls (p : Char → Bool) : Pat Char
  | [] => []
  | c :: s => if p c then [(c, s)] else []

/-- What a character of an expression stands for, if only the dot is special. -/
def standsFor (c d : Char) : Bool := if c = '.' then notNl d else d == c

/-- A text that is interpolated into an expression and has nothing special but dots. -/
def dotted : Text → Pat Unit
  | [] => pure ()
  | c :: w => do
      let _ ← cls (standsFor c)
      dotted w

/-- `p|q`. -/
def alt (p q : Pat α) : Pat α := fun s => p s ++ q s

/-- Greedy `[p]*`: the longest run is tried first. -/
def many (p : Char → Bool) : Pat Text
  | [] => [([], [])]
  | c :: s =>
      if p c then (many p s).map (fun r => (c :: r.1, r.2)) ++ [([], c :: s)]
      else [([], c :: s)]

/-- Greedy `[p]+`. -/
def many1 (p : Char → Bool) : Pat Text := do
  let c ← cls p
  let w ← many p
  pure (c :: w)

/-- Lazy `[p]*?`: the shortest run is tried first. -/
def lazily (p : Char → Bool) : Pat Text
  | [] => [([], [])]
  | c :: s =>
      ([], c :: s) :: if p c then (lazily p s).map (fun r => (c :: r.1, r.2)) else []

/-- Match at the head of the subject only, as after `^`. -/
def atStart (p : Pat α) (s : Text) : Option α := (p s).head?.map Prod.fst

/-- The leftmost match: the text before it, what it captured, the text after
it. -/
def search (p : Pat α) : Text → Option (Text × α × Text)
  | [] => (p []).head?.map fun r => ([], r.1, r.2)
  | c :: s =>
      match (p (c :: s)).head? with
      | some r => some ([], r.1, r.2)
      | none => (search p s).map fun r => (c :: r.1, r.2)

/-- What the leftmost match captured. -/
def capture (p : Pat α) (s : Text) : Option α := (search p s).map fun r => r.2.1

/-- `s/p/r/`: the leftmost match is replaced. -/
def subst (p : Pat α) (r : α → Text) (s : Text) : Text :=
  match search p s with
  | some (pre, a, post) => pre ++ r a ++ post
  | none => s

/-- `s/p/r/g` for a pattern that does not match the empty text: at most `n` matches are
replaced. -/
def substMany (p : Pat α) (r : α → Text) : Nat → Text → Text
  | 0, s => s
  | n + 1, s =>
      match search p s with
      | some (pre, a, post) => pre ++ r a ++ substMany p r n post
      | none => s

/-- `s/p/r/g`: there are no more matches than characters. -/
def substAll (p : Pat α) (r : α → Text) (s : Text) : Text := substMany p r s.length s

/-- A match at the head is the leftmost one. -/
theorem search_here {p : Pat α} {s : Text} {r : α × Text}
    (h : (p s).head? = some r) : search p s = some ([], r.1, r.2) := by
  cases s with
  | nil => simp [search, h]
  | cons c s => simp [search, h]

/-- A position without a match is skipped. -/
theorem search_skip {p : Pat α} {c : Char} {s : Text} (h : p (c :: s) = []) :
    search p (c :: s) = (search p s).map fun r => (c :: r.1, r.2) := by
  simp [search, h]

/-- The leftmost match begins where the expression matches for the first time. -/
theorem search_eq_some_iff {p : Pat α} {s pre post : Text} {a : α} :
    search p s = some (pre, a, post) ↔
      ∃ y, s = pre ++ y ∧ (p y).head? = some (a, post) ∧
        ∀ u v, pre = u ++ v → v ≠ [] → p (v ++ y) = [] := by
  induction s generalizing pre with
  | nil =>
      constructor
      · intro h
        obtain ⟨x, hx, heq⟩ := Option.map_eq_some_iff.mp h
        cases heq
        exact ⟨[], rfl, hx, by simp_all⟩
      · rintro ⟨y, hy, hhead, -⟩
        obtain ⟨rfl, rfl⟩ := List.nil_eq_append_iff.mp hy
        exact search_here hhead
  | cons c s ih =>
      cases hc : (p (c :: s)).head? with
      | some x =>
          rw [search_here hc, Option.some_inj]
          constructor
          · intro h
            cases h
            exact ⟨c :: s, rfl, hc, by simp_all⟩
          · rintro ⟨y, hy, hhead, hearlier⟩
            cases pre with
            | nil =>
                obtain rfl : c :: s = y := hy
                cases hc.symm.trans hhead
                rfl
            | cons d pre =>
                have hnil := hearlier [] (d :: pre) rfl (List.cons_ne_nil d pre)
                rw [← hy] at hnil
                rw [hnil] at hc
                cases hc
      | none =>
          have hnil := List.head?_eq_none_iff.mp hc
          rw [search_skip hnil]
          constructor
          · intro h
            obtain ⟨⟨pre', a', post'⟩, hx, heq⟩ := Option.map_eq_some_iff.mp h
            cases heq
            obtain ⟨y, rfl, hhead, hearlier⟩ := ih.mp hx
            refine ⟨y, rfl, hhead, ?_⟩
            intro u v huv hv
            cases u with
            | nil =>
                obtain rfl : c :: pre' = v := huv
                exact hnil
            | cons d u => exact hearlier u v (List.cons.inj huv).2 hv
          · rintro ⟨y, hy, hhead, hearlier⟩
            cases pre with
            | nil =>
                obtain rfl : c :: s = y := hy
                rw [hhead] at hc
                cases hc
            | cons d pre =>
                obtain ⟨rfl, hs⟩ := List.cons.inj hy
                have h := ih.mpr ⟨y, hs, hhead, fun u v huv hv =>
                  hearlier (c :: u) v (by rw [huv, List.cons_append]) hv⟩
                rw [h]
                rfl

theorem capture_here {p : Pat α} {s : Text} {r : α × Text}
    (h : (p s).head? = some r) : capture p s = some r.1 := by
  simp [capture, search_here h]

theorem capture_skip {p : Pat α} {c : Char} {s : Text} (h : p (c :: s) = []) :
    capture p (c :: s) = capture p s := by
  simp only [capture, search_skip h, Option.map_map]
  rfl

/-- A stretch on which no match starts is skipped. -/
theorem search_skip_all {p : Pat α} {w : Text} (s : Text)
    (h : ∀ c ∈ w, ∀ t, p (c :: t) = []) :
    search p (w ++ s) = (search p s).map fun r => (w ++ r.1, r.2) := by
  induction w with
  | nil => simp
  | cons c w ih =>
      rw [List.cons_append, search_skip (h c (by simp) _),
        ih (fun d hd => h d (by simp [hd])), Option.map_map]
      rfl

/-- A stretch is skipped if no match starts in it before what follows. -/
theorem capture_append_skip {p : Pat α} {w s : Text}
    (h : ∀ t, t <:+ w → t ≠ [] → p (t ++ s) = []) : capture p (w ++ s) = capture p s := by
  induction w with
  | nil => rfl
  | cons c w ih =>
      have hc : p (c :: (w ++ s)) = [] := h (c :: w) (List.suffix_refl _) (List.cons_ne_nil c w)
      rw [List.cons_append, capture_skip hc]
      exact ih fun t ht => h t (ht.trans (List.suffix_cons c w))

theorem capture_skip_all {p : Pat α} {w : Text} (s : Text)
    (h : ∀ c ∈ w, ∀ t, p (c :: t) = []) : capture p (w ++ s) = capture p s := by
  simp only [capture, search_skip_all s h, Option.map_map]
  rfl

/-- A tail that always matches does not move the match: the leftmost match of
the whole is the leftmost match of the head, continued. -/
theorem capture_bind_total {p : Pat α} {k : α → Pat β} {g : α → Text → β}
    (hk : ∀ a r, (k a r).head?.map Prod.fst = some (g a r)) (s : Text) :
    capture (p >>= k) s = (search p s).map fun x => g x.2.1 x.2.2 := by
  have hhead : ∀ t, ((p >>= k) t).head?.map Prod.fst =
      (p t).head?.map fun x => g x.1 x.2 := by
    intro t
    cases hp : p t with
    | nil => simp [hp]
    | cons x xs =>
        have hx := hk x.1 x.2
        cases hkx : k x.1 x.2 with
        | nil => simp [hkx] at hx
        | cons y ys => simpa [hp, hkx] using hx
  induction s with
  | nil =>
      have := hhead []
      simp only [capture, search, Option.map_map]
      exact this
  | cons c s ih =>
      have hc := hhead (c :: s)
      cases hp : (p (c :: s)).head? with
      | none =>
          have hnil : p (c :: s) = [] := List.head?_eq_none_iff.mp hp
          have hbind : (p >>= k) (c :: s) = [] := by simp [hnil]
          rw [capture_skip hbind, search_skip hnil, ih, Option.map_map]
          rfl
      | some x =>
          cases hb : ((p >>= k) (c :: s)).head? with
          | none =>
              rw [hp, hb] at hc
              cases hc
          | some y =>
              rw [hp, hb] at hc
              rw [capture_here hb, search_here hp]
              exact hc

@[simp] theorem lit_append (w s : Text) : lit w (w ++ s) = [((), s)] := by
  simp [lit]

@[simp] theorem cls_cons (p : Char → Bool) (c : Char) (s : Text) :
    cls p (c :: s) = if p c then [(c, s)] else [] := rfl

theorem lit_bind_append (w : Text) (p : Pat α) (s : Text) :
    (lit w >>= fun _ => p) (w ++ s) = p s := by
  rw [bind_apply, lit_append]
  exact List.append_nil _

theorem lit_eq_nil {w s : Text} (h : ¬ w <+: s) : lit w s = [] := by
  rw [← List.isPrefixOf_iff_prefix] at h
  exact if_neg h

theorem mem_lit {w s : Text} {x : Unit × Text} (h : x ∈ lit w s) : s = w ++ x.2 := by
  by_cases hw : w <+: s
  · obtain ⟨r, rfl⟩ := hw
    rw [lit_append, List.mem_singleton] at h
    rw [h]
  · rw [lit_eq_nil hw] at h
    cases h

/-- Two fixed texts in a row are one. -/
theorem lit_bind_lit (u v : Text) (p : Pat α) :
    (lit u >>= fun _ => lit v >>= fun _ => p) = (lit (u ++ v) >>= fun _ => p) := by
  funext s
  by_cases hu : u <+: s
  · obtain ⟨r, rfl⟩ := hu
    rw [lit_bind_append]
    by_cases hv : v <+: r
    · obtain ⟨r', rfl⟩ := hv
      rw [lit_bind_append, ← List.append_assoc, lit_bind_append]
    · have hno : ¬ (u ++ v) <+: (u ++ r) := fun h => hv ((List.prefix_append_right_inj u).mp h)
      rw [bind_apply, bind_apply, lit_eq_nil hv, lit_eq_nil hno]
  · have hno : ¬ (u ++ v) <+: s := fun h => hu ((List.prefix_append u v).trans h)
    rw [bind_apply, bind_apply, lit_eq_nil hu, lit_eq_nil hno]
    rfl

theorem cls_bind_cons {p : Char → Bool} {c : Char} (hc : p c) (f : Char → Pat α) (s : Text) :
    (cls p >>= f) (c :: s) = f c s := by
  rw [bind_apply, cls_cons, if_pos hc]
  exact List.append_nil _

/-- A greedy run prefers the longest stretch of its class. -/
theorem head?_many (p : Char → Bool) (s : Text) :
    (many p s).head? = some (s.takeWhile p, s.dropWhile p) := by
  induction s with
  | nil => rfl
  | cons c s ih =>
      by_cases hc : p c
      · simp [many, hc, ih]
      · simp [many, hc]

/-- The rest of a line. -/
theorem head?_many_line {w : Text} (h : ∀ c ∈ w, notNl c) :
    (many notNl (w ++ ['\n'])).head? = some (w, ['\n']) := by
  rw [head?_many, List.takeWhile_append_of_pos h, List.dropWhile_append_of_pos h]
  simp [notNl]

/-- A greedy run at the end of an expression takes the longest stretch. -/
theorem head?_bind_many {p : Char → Bool} {f : Text → α} (s : Text) :
    ((many p >>= fun w => (pure (f w) : Pat α)) s).head? =
      some (f (s.takeWhile p), s.dropWhile p) := by
  have h := head?_many p s
  cases hm : many p s with
  | nil => simp [hm] at h
  | cons r rs =>
      rw [hm, List.head?_cons, Option.some_inj] at h
      simp [hm, h]

/-- A greedy run is given up only if what follows it fails; here it does
not. -/
theorem head?_bind_many_of {p : Char → Bool} {f : Text → Pat α} {s : Text}
    {r : α × Text} (h : (f (s.takeWhile p) (s.dropWhile p)).head? = some r) :
    ((many p >>= f) s).head? = some r := by
  have hm := head?_many p s
  cases hs : many p s with
  | nil => simp [hs] at hm
  | cons x xs =>
      rw [hs, List.head?_cons, Option.some_inj] at hm
      simp [hs, hm, List.head?_append, h]

theorem head?_bind_many1_of {p : Char → Bool} {f : Text → Pat α} {c : Char} {s : Text}
    {r : α × Text} (hc : p c) (h : (f (c :: s.takeWhile p) (s.dropWhile p)).head? = some r) :
    ((many1 p >>= f) (c :: s)).head? = some r := by
  have hmany := head?_bind_many_of (f := fun w => f (c :: w)) h
  simp only [bind_apply] at hmany
  simp only [many1, bind_apply, pure_apply, cls_cons, hc, if_true, List.flatMap_cons,
    List.flatMap_nil, List.append_nil, List.flatMap_assoc]
  exact hmany

/-- A lazy run stops at the first character of the class that must follow
it. -/
theorem head?_lazily_until {p q : Char → Bool} {f : Text → α} {w : Text} {c : Char}
    (hp : ∀ d ∈ w, p d) (hq : ∀ d ∈ w, q d = false) (hc : q c) (s : Text) :
    ((lazily p >>= fun v => cls q >>= fun _ => (pure (f v) : Pat α)) (w ++ c :: s)).head? =
      some (f w, s) := by
  induction w generalizing f with
  | nil => simp [lazily, hc]
  | cons d w ih =>
      have hd := hq d (by simp)
      have hpd := hp d (by simp)
      have ih := ih (f := fun v => f (d :: v)) (fun x hx => hp x (by simp [hx]))
        (fun x hx => hq x (by simp [hx]))
      simpa [lazily, hd, hpd, List.flatMap_map] using ih

/-- What a capture holds was matched at the head of some suffix. -/
theorem exists_suffix_of_capture {p : Pat α} {s : Text} {a : α} (h : capture p s = some a) :
    ∃ t r, t <:+ s ∧ (a, r) ∈ p t := by
  induction s with
  | nil =>
      simp only [capture, search, Option.map_map, Option.map_eq_some_iff] at h
      obtain ⟨x, hx, rfl⟩ := h
      exact ⟨[], x.2, List.suffix_refl _, List.mem_of_head? hx⟩
  | cons c s ih =>
      cases hc : (p (c :: s)).head? with
      | none =>
          rw [capture_skip (List.head?_eq_none_iff.mp hc)] at h
          obtain ⟨t, r, ht, hmem⟩ := ih h
          exact ⟨t, r, ht.trans (List.suffix_cons c s), hmem⟩
      | some x =>
          rw [capture_here hc, Option.some_inj] at h
          subst h
          exact ⟨c :: s, x.2, List.suffix_refl _, List.mem_of_head? hc⟩

theorem capture_eq_none {p : Pat α} {s : Text} (h : ∀ t, t <:+ s → p t = []) :
    capture p s = none := by
  cases hc : capture p s with
  | none => rfl
  | some a =>
      obtain ⟨t, r, ht, hmem⟩ := exists_suffix_of_capture hc
      rw [h t ht] at hmem
      cases hmem

/-- A text that an expression starts with has to be there. -/
theorem capture_lit_bind_eq_none {w s : Text} {f : Unit → Pat α} (h : ¬ w <:+: s) :
    capture (lit w >>= f) s = none := by
  refine capture_eq_none ?_
  intro t ht
  have hno : ¬ w <+: t := fun hp => h (hp.isInfix.trans ht.isInfix)
  rw [bind_apply, lit_eq_nil hno]
  rfl

/-- A match at the head of some suffix is enough for a capture. -/
theorem capture_isSome {p : Pat α} {s t : Text} (ht : t <:+ s) (hp : p t ≠ []) :
    (capture p s).isSome := by
  induction s with
  | nil =>
      obtain rfl := List.suffix_nil.mp ht
      obtain ⟨x, hx⟩ := Option.ne_none_iff_exists'.mp (mt List.head?_eq_none_iff.mp hp)
      rw [capture_here hx]
      rfl
  | cons c s ih =>
      cases hc : (p (c :: s)).head? with
      | none =>
          have hnil := List.head?_eq_none_iff.mp hc
          rw [capture_skip hnil]
          rcases List.suffix_cons_iff.mp ht with rfl | ht
          · exact absurd hnil hp
          · exact ih ht
      | some x =>
          rw [capture_here hc]
          rfl

/-- A run consists of characters of its class. -/
theorem mem_many {p : Char → Bool} {s w r : Text} (h : (w, r) ∈ many p s) :
    s = w ++ r ∧ ∀ c ∈ w, p c := by
  induction s generalizing w with
  | nil =>
      obtain ⟨rfl, rfl⟩ : w = [] ∧ r = [] := by simpa [many] using h
      simp
  | cons c s ih =>
      by_cases hc : p c
      · simp only [many, hc, if_true, List.mem_append, List.mem_map, List.mem_singleton] at h
        rcases h with ⟨⟨v, r'⟩, hx, heq⟩ | heq
        · obtain ⟨rfl, rfl⟩ := Prod.mk.inj heq
          obtain ⟨rfl, hv⟩ := ih hx
          refine ⟨rfl, ?_⟩
          intro d hd
          rcases List.mem_cons.mp hd with rfl | hd
          · exact hc
          · exact hv d hd
        · obtain ⟨rfl, rfl⟩ := Prod.mk.inj heq
          simp
      · obtain ⟨rfl, rfl⟩ : w = [] ∧ r = c :: s := by simpa [many, hc] using h
        simp

/-! ## What is left is a suffix -/

/-- Every way to match leaves a suffix of the subject. -/
def Shrinks (p : Pat α) : Prop := ∀ s, ∀ x ∈ p s, x.2 <:+ s

theorem shrinks_pure (a : α) : Shrinks (pure a) := by
  intro s x hx
  obtain rfl : x = (a, s) := by simpa using hx
  exact List.suffix_refl s

theorem shrinks_lit (w : Text) : Shrinks (lit w) := by
  intro s x hx
  by_cases h : w.isPrefixOf s
  · have : x = ((), s.drop w.length) := by simpa [lit, h] using hx
    rw [this]
    exact List.drop_suffix _ _
  · simp [lit, h] at hx

theorem shrinks_cls (p : Char → Bool) : Shrinks (cls p) := by
  intro s x hx
  cases s with
  | nil => simp [cls] at hx
  | cons c s =>
      by_cases h : p c
      · have : x = (c, s) := by simpa [h] using hx
        rw [this]
        exact List.suffix_cons c s
      · simp [h] at hx

theorem shrinks_alt {p q : Pat α} (hp : Shrinks p) (hq : Shrinks q) : Shrinks (alt p q) := by
  intro s x hx
  rcases List.mem_append.mp hx with hx | hx
  · exact hp s x hx
  · exact hq s x hx

theorem Shrinks.bind {p : Pat α} {f : α → Pat β} (hp : Shrinks p)
    (hf : ∀ a, Shrinks (f a)) : Shrinks (p >>= f) := by
  intro s x hx
  rw [bind_apply, List.mem_flatMap] at hx
  obtain ⟨y, hy, hx⟩ := hx
  exact (hf y.1 y.2 x hx).trans (hp s y hy)

/-- The text after a match is a suffix of the subject. -/
theorem Shrinks.search {p : Pat α} (hp : Shrinks p) {s : Text} {r : Text × α × Text}
    (h : search p s = some r) : r.2.2 <:+ s := by
  induction s generalizing r with
  | nil =>
      obtain ⟨x, hx, rfl⟩ := Option.map_eq_some_iff.mp h
      exact hp _ _ (List.mem_of_head? hx)
  | cons c s ih =>
      cases hc : (p (c :: s)).head? with
      | none =>
          rw [search_skip (List.head?_eq_none_iff.mp hc)] at h
          obtain ⟨x, hx, rfl⟩ := Option.map_eq_some_iff.mp h
          exact (ih hx).trans (List.suffix_cons c s)
      | some x =>
          rw [search_here hc] at h
          cases h
          exact hp _ _ (List.mem_of_head? hc)

/-- A greedy run is given up character by character, down to the last place where what
follows it matches. -/
theorem head?_bind_many_last {p : Char → Bool} {f : Text → Pat α} {u v : Text} {r : α × Text}
    (hu : ∀ c ∈ u, p c) (h : (f u v).head? = some r)
    (hlast : ∀ v₁ v₂, v = v₁ ++ v₂ → v₁ ≠ [] → f (u ++ v₁) v₂ = []) :
    ((many p >>= f) (u ++ v)).head? = some r := by
  induction u generalizing f with
  | nil =>
      cases v with
      | nil => simpa [many] using h
      | cons c v =>
          by_cases hc : p c
          · have hlong : ((many p v).map fun x => (c :: x.1, x.2)).flatMap
                (fun x => f x.1 x.2) = [] := by
              rw [List.flatMap_eq_nil_iff]
              intro x hx
              obtain ⟨⟨w, v₂⟩, hw, rfl⟩ := List.mem_map.mp hx
              exact hlast (c :: w) v₂ (by rw [(mem_many hw).1, List.cons_append])
                (List.cons_ne_nil c w)
            rw [List.nil_append, bind_apply, many, if_pos hc, List.flatMap_append, hlong]
            simpa using h
          · rw [List.nil_append, bind_apply, many, if_neg hc]
            simpa using h
  | cons c u ih =>
      have hrest := ih (f := fun w => f (c :: w)) (fun d hd => hu d (List.mem_cons_of_mem c hd))
        h hlast
      rw [List.cons_append, bind_apply, many, if_pos (hu c (by simp)), List.flatMap_append,
        List.flatMap_map, List.head?_append]
      rw [bind_apply] at hrest
      rw [hrest]
      rfl

/-- A lazy run is made longer character by character, up to the first place where what
follows it matches. -/
theorem head?_bind_lazily_first {p : Char → Bool} {f : Text → Pat α} {u v : Text} {r : α × Text}
    (hu : ∀ c ∈ u, p c) (h : (f u v).head? = some r)
    (hearlier : ∀ u₁ u₂, u = u₁ ++ u₂ → u₂ ≠ [] → f u₁ (u₂ ++ v) = []) :
    ((lazily p >>= f) (u ++ v)).head? = some r := by
  induction u generalizing f with
  | nil =>
      rw [List.nil_append]
      cases v with
      | nil => simpa [lazily] using h
      | cons c v =>
          rw [bind_apply, lazily, List.flatMap_cons, List.head?_append, h]
          rfl
  | cons c u ih =>
      have hnil : f [] (c :: (u ++ v)) = [] := hearlier [] (c :: u) rfl (List.cons_ne_nil c u)
      have hrest := ih (f := fun w => f (c :: w)) (fun d hd => hu d (List.mem_cons_of_mem c hd)) h
        fun u₁ u₂ hsplit => hearlier (c :: u₁) u₂ (congrArg (c :: ·) hsplit)
      rw [List.cons_append, bind_apply, lazily, if_pos (hu c List.mem_cons_self),
        List.flatMap_cons, hnil, List.nil_append, List.flatMap_map]
      exact hrest

theorem head?_many1 {p : Char → Bool} {c : Char} (hc : p c) (s : Text) :
    (many1 p (c :: s)).head? = some (c :: s.takeWhile p, s.dropWhile p) := by
  rw [many1, cls_bind_cons hc]
  exact head?_bind_many s

/-! ## Dotted texts -/

/-- A text is as a dotted one of the same length says. -/
def fits (w u : Text) : Bool := (w.zip u).all fun e => standsFor e.1 e.2

theorem dotted_append {w u : Text} (h : w.length = u.length) (s : Text) :
    dotted w (u ++ s) = if fits w u then [((), s)] else [] := by
  induction w generalizing u with
  | nil =>
      obtain rfl : u = [] := List.length_eq_zero_iff.mp h.symm
      rfl
  | cons c w ih =>
      cases u with
      | nil => cases h
      | cons d u =>
          have ih := ih (Nat.succ.inj h)
          by_cases hd : standsFor c d = true
          · have hfits : fits (c :: w) (d :: u) = fits w u := by
              rw [fits, List.zip_cons_cons, List.all_cons, hd, Bool.true_and, fits]
            rw [List.cons_append, dotted, cls_bind_cons hd, ih, hfits]
          · have hfits : ¬ fits (c :: w) (d :: u) := by
              rw [fits, List.zip_cons_cons, List.all_cons, Bool.and_eq_true]
              exact fun h => hd h.1
            rw [List.cons_append, dotted, bind_apply, cls_cons, if_neg hd, if_neg hfits]
            rfl

theorem dotted_concat (u v : Text) : dotted (u ++ v) = (dotted u >>= fun _ => dotted v) := by
  funext s
  induction u generalizing s with
  | nil => simp [dotted]
  | cons c u ih =>
      cases s with
      | nil => rfl
      | cons d s =>
          by_cases hd : standsFor c d = true
          · have ih := ih s
            rw [bind_apply] at ih
            rw [List.cons_append, dotted, cls_bind_cons hd, ih, bind_apply, dotted,
              cls_bind_cons hd]
          · rw [List.cons_append, dotted, bind_apply, cls_cons, if_neg hd, bind_apply, dotted,
              bind_apply, cls_cons, if_neg hd]
            rfl

theorem length_of_mem_dotted {w s : Text} {x : Unit × Text} (h : x ∈ dotted w s) :
    s.length = w.length + x.2.length := by
  induction w generalizing s with
  | nil =>
      obtain rfl := List.mem_singleton.mp h
      simp
  | cons c w ih =>
      cases s with
      | nil => cases h
      | cons d s =>
          by_cases hd : standsFor c d = true
          · rw [dotted, cls_bind_cons hd] at h
            have := ih h
            simp only [List.length_cons]
            omega
          · rw [dotted, bind_apply, cls_cons, if_neg hd] at h
            cases h

end Pat

end Perl
