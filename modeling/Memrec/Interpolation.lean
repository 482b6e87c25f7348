import Memrec.Pattern

/-!
# Texts read as expressions

A text that is interpolated into an expression is an expression itself: a full stop
stands for any character, and `*`, `+` and `?` repeat what is in front of them, also when
that stands in front of the text.  This file treats the texts without groups, classes,
alternatives, anchors, escapes and counted repetitions.

Two facts about their matches are used to tell such a text from what it says literally:
what is consumed belongs to the classes that occur (`mem_seq`), and a map of characters
that keeps every class keeps the matches (`respects_seq`).
-/

namespace Perl

/-- How often a character may occur. -/
inductive Times
  | star
  | plus
  | quest
  deriving DecidableEq, Repr

/-- Which of the possible repetitions are tried, and in which order. -/
inductive Mode
  | greedy
  | lazy
  | possessive
  deriving DecidableEq, Repr

/-- What stands for one character. -/
inductive Atom
  | space
  | any
  | char (c : Char)
  deriving DecidableEq, Repr

/-- An atom with its quantifier. -/
structure Item where
  atom : Atom
  quant : Option (Times × Mode)
  deriving DecidableEq, Repr

def Atom.cls : Atom → Char → Bool
  | .space => isSpace
  | .any => notNl
  | .char c => (· == c)

def Atom.ofChar (c : Char) : Atom := if c = '.' then .any else .char c

def Times.ofChar (c : Char) : Option Times :=
  if c = '*' then some .star
  else if c = '+' then some .plus
  else if c = '?' then some .quest
  else none

/-- A quantifier after an item.  A second one changes the mode, a third one is an error,
and so is `*` as the second. -/
def Item.quantify (it : Item) (t : Times) : Option Item :=
  match it.quant, t with
  | none, t => some ⟨it.atom, some (t, .greedy)⟩
  | some (r, .greedy), .quest => some ⟨it.atom, some (r, .lazy)⟩
  | some (r, .greedy), .plus => some ⟨it.atom, some (r, .possessive)⟩
  | _, _ => none

/-- The items of a text that comes after an item. -/
def interpolate (it : Item) : Text → Option (List Item)
  | [] => some [it]
  | c :: s =>
      match Times.ofChar c with
      | none => (interpolate ⟨.ofChar c, none⟩ s).map (it :: ·)
      | some t => (it.quantify t).bind fun it' => interpolate it' s

namespace Pat

variable {α β γ δ : Type}

/-- The repetitions of a character, longest first. -/
def times (p : Char → Bool) : Times → Pat Text
  | .star => many p
  | .plus => many1 p
  | .quest => alt (cls p >>= fun c => pure [c]) (pure [])

/-- The same in the order of a mode. -/
def inMode (m : Mode) (p : Pat α) : Pat α := fun s =>
  match m with
  | .greedy => p s
  | .lazy => (p s).reverse
  | .possessive => (p s).take 1

def item (it : Item) : Pat Text :=
  match it.quant with
  | none => cls it.atom.cls >>= fun c => pure [c]
  | some (t, m) => inMode m (times it.atom.cls t)

/-- Items one after the other. -/
def seq : List Item → Pat Unit
  | [] => pure ()
  | it :: its => item it >>= fun _ => seq its

/-! ## What is consumed -/

theorem mem_cls {p : Char → Bool} {s r : Text} {c : Char} (h : (c, r) ∈ cls p s) :
    s = c :: r ∧ p c := by
  cases s with
  | nil => simp [cls] at h
  | cons d s =>
      by_cases hd : p d
      · obtain ⟨rfl, rfl⟩ : c = d ∧ r = s := by simpa [hd] using h
        exact ⟨rfl, hd⟩
      · simp [hd] at h

theorem mem_one {p : Char → Bool} {s : Text} {x : Text × Text}
    (h : x ∈ (cls p >>= fun c => (pure [c] : Pat Text)) s) :
    s = x.1 ++ x.2 ∧ ∀ c ∈ x.1, p c := by
  rw [bind_apply, List.mem_flatMap] at h
  obtain ⟨y, hy, hx⟩ := h
  obtain ⟨hs, hp⟩ := mem_cls hy
  obtain rfl : x = ([y.1], y.2) := by simpa using hx
  exact ⟨hs, by simpa using hp⟩

/-- A run of at least one character. -/
theorem mem_many1 {p : Char → Bool} {s w r : Text} (h : (w, r) ∈ many1 p s) :
    s = w ++ r ∧ w ≠ [] ∧ ∀ c ∈ w, p c := by
  rw [many1, bind_apply, List.mem_flatMap] at h
  obtain ⟨⟨c, s'⟩, hc, hw⟩ := h
  rw [bind_apply, List.mem_flatMap] at hw
  obtain ⟨⟨v, r'⟩, hv, hpure⟩ := hw
  cases List.mem_singleton.mp hpure
  obtain ⟨rfl, hp⟩ := mem_cls hc
  obtain ⟨rfl, hall⟩ := mem_many hv
  refine ⟨rfl, List.cons_ne_nil c v, ?_⟩
  intro d hd
  rcases List.mem_cons.mp hd with rfl | hd
  · exact hp
  · exact hall d hd

theorem mem_times {p : Char → Bool} {t : Times} {s : Text} {x : Text × Text}
    (h : x ∈ times p t s) : s = x.1 ++ x.2 ∧ ∀ c ∈ x.1, p c := by
  cases t with
  | star => exact mem_many h
  | plus =>
      obtain ⟨hs, -, hall⟩ := mem_many1 h
      exact ⟨hs, hall⟩
  | quest =>
      rcases List.mem_append.mp h with h | h
      · exact mem_one h
      · obtain rfl : x = ([], s) := by simpa using h
        simp

theorem mem_of_mem_inMode {m : Mode} {p : Pat α} {s : Text} {x : α × Text}
    (h : x ∈ inMode m p s) : x ∈ p s := by
  cases m with
  | greedy => exact h
  | lazy => exact List.mem_reverse.mp h
  | possessive => exact List.mem_of_mem_take h

theorem mem_item {it : Item} {s : Text} {x : Text × Text} (h : x ∈ item it s) :
    s = x.1 ++ x.2 ∧ ∀ c ∈ x.1, it.atom.cls c := by
  cases hq : it.quant with
  | none =>
      simp only [item, hq] at h
      exact mem_one h
  | some tm =>
      simp only [item, hq] at h
      exact mem_times (mem_of_mem_inMode h)

/-- What a sequence of items consumes is made of characters of their classes. -/
theorem mem_seq {its : List Item} {s : Text} {x : Unit × Text} (h : x ∈ seq its s) :
    ∃ w, s = w ++ x.2 ∧ ∀ c ∈ w, ∃ it ∈ its, it.atom.cls c := by
  induction its generalizing s with
  | nil =>
      obtain rfl : x = ((), s) := by simpa [seq] using h
      exact ⟨[], rfl, by simp⟩
  | cons it its ih =>
      rw [seq, bind_apply, List.mem_flatMap] at h
      obtain ⟨y, hy, hx⟩ := h
      obtain ⟨hs, hcls⟩ := mem_item hy
      obtain ⟨w, hr, hw⟩ := ih hx
      refine ⟨y.1 ++ w, by rw [hs, hr, List.append_assoc], ?_⟩
      intro c hc
      rcases List.mem_append.mp hc with hc | hc
      · exact ⟨it, by simp, hcls c hc⟩
      · obtain ⟨it', hit', h'⟩ := hw c hc
        exact ⟨it', by simp [hit'], h'⟩

/-- A sequence of items matches part by part. -/
theorem mem_seq_append {its jts : List Item} {s : Text} {x : Unit × Text}
    (h : x ∈ seq (its ++ jts) s) : ∃ r, ((), r) ∈ seq its s ∧ x ∈ seq jts r := by
  induction its generalizing s with
  | nil => exact ⟨s, List.mem_singleton_self _, h⟩
  | cons it its ih =>
      rw [List.cons_append, seq, bind_apply, List.mem_flatMap] at h
      obtain ⟨y, hy, hx⟩ := h
      obtain ⟨r, hr, hx⟩ := ih hx
      refine ⟨r, ?_, hx⟩
      rw [seq, bind_apply, List.mem_flatMap]
      exact ⟨y, hy, hr⟩

/-- Items without quantifiers match one character each. -/
theorem mem_seq_singles {as : List Atom} {s : Text} {x : Unit × Text}
    (h : x ∈ seq (as.map fun a => ⟨a, none⟩) s) :
    ∃ u, s = u ++ x.2 ∧ List.Forall₂ (fun (a : Atom) c => a.cls c) as u := by
  induction as generalizing s with
  | nil =>
      obtain rfl : x = ((), s) := by simpa [seq] using h
      exact ⟨[], rfl, .nil⟩
  | cons a as ih =>
      rw [List.map_cons, seq, bind_apply, List.mem_flatMap] at h
      obtain ⟨y, hy, hx⟩ := h
      obtain ⟨u, hu, hall⟩ := ih hx
      have hone : y ∈ (cls a.cls >>= fun c => (pure [c] : Pat Text)) s := hy
      rw [bind_apply, List.mem_flatMap] at hone
      obtain ⟨⟨c, r⟩, hc, hpure⟩ := hone
      obtain ⟨rfl, hcls⟩ := mem_cls hc
      cases List.mem_singleton.mp hpure
      exact ⟨c :: u, by rw [List.cons_append, ← hu], .cons hcls hall⟩

/-! ## Maps of characters -/

/-- On the image of a subject `q` matches as `p` does on the subject. -/
def Respects (σ : Char → Char) (g : α → β) (p : Pat α) (q : Pat β) : Prop :=
  ∀ s, q (s.map σ) = (p s).map (Prod.map g (List.map σ))

section Respects

variable {σ : Char → Char}

theorem respects_pure (g : α → β) (a : α) : Respects σ g (pure a) (pure (g a)) :=
  fun _ => rfl

theorem Respects.bind {g : α → β} {h : γ → δ} {p : Pat α} {q : Pat β} {f : α → Pat γ}
    {f' : β → Pat δ} (hp : Respects σ g p q) (hf : ∀ a, Respects σ h (f a) (f' (g a))) :
    Respects σ h (p >>= f) (q >>= f') := by
  intro s
  rw [bind_apply, bind_apply, hp s, List.flatMap_map, List.map_flatMap]
  congr 1
  funext x
  exact hf x.1 x.2

theorem respects_cls {p : Char → Bool} (h : ∀ c, p (σ c) = p c) :
    Respects σ σ (cls p) (cls p) := by
  intro s
  cases s with
  | nil => rfl
  | cons c s => by_cases hc : p c <;> simp [h, hc]

theorem respects_one {p : Char → Bool} (h : ∀ c, p (σ c) = p c) :
    Respects σ (List.map σ) (cls p >>= fun c => (pure [c] : Pat Text))
      (cls p >>= fun c => (pure [c] : Pat Text)) :=
  (respects_cls h).bind fun c => respects_pure (List.map σ) [c]

theorem respects_many {p : Char → Bool} (h : ∀ c, p (σ c) = p c) :
    Respects σ (List.map σ) (many p) (many p) := by
  intro s
  induction s with
  | nil => rfl
  | cons c s ih => by_cases hc : p c <;> simp [many, h, hc, ih]

theorem respects_lazily {p : Char → Bool} (h : ∀ c, p (σ c) = p c) :
    Respects σ (List.map σ) (lazily p) (lazily p) := by
  intro s
  induction s with
  | nil => rfl
  | cons c s ih => by_cases hc : p c <;> simp [lazily, h, hc, ih]

theorem Respects.alt {g : α → β} {p p' : Pat α} {q q' : Pat β} (h : Respects σ g p q)
    (h' : Respects σ g p' q') : Respects σ g (alt p p') (alt q q') := by
  intro s
  simp [Pat.alt, h s, h' s]

theorem respects_times {p : Char → Bool} (h : ∀ c, p (σ c) = p c) (t : Times) :
    Respects σ (List.map σ) (times p t) (times p t) := by
  cases t with
  | star => exact respects_many h
  | plus =>
      exact (respects_cls h).bind fun c =>
        (respects_many h).bind fun w => respects_pure (List.map σ) (c :: w)
  | quest => exact (respects_one h).alt (respects_pure (List.map σ) [])

theorem Respects.inMode {g : α → β} {p : Pat α} {q : Pat β} (h : Respects σ g p q) (m : Mode) :
    Respects σ g (inMode m p) (inMode m q) := by
  intro s
  cases m with
  | greedy => exact h s
  | lazy => simp [Pat.inMode, h s]
  | possessive => simp [Pat.inMode, h s]

theorem respects_item {it : Item} (h : ∀ c, it.atom.cls (σ c) = it.atom.cls c) :
    Respects σ (List.map σ) (item it) (item it) := by
  unfold item
  split
  · exact respects_one h
  · exact (respects_times h _).inMode _

/-- A map that keeps every class keeps the matches. -/
theorem respects_seq {its : List Item}
    (h : ∀ it ∈ its, ∀ c, it.atom.cls (σ c) = it.atom.cls c) :
    Respects σ id (seq its) (seq its) := by
  induction its with
  | nil => exact respects_pure id ()
  | cons it its ih =>
      have ih := ih fun it' hit' => h it' (by simp [hit'])
      exact (respects_item (h it (by simp))).bind fun _ => ih

theorem Respects.capture {g : α → β} {p : Pat α} {q : Pat β} (h : Respects σ g p q) (s : Text) :
    capture q (s.map σ) = (capture p s).map g := by
  have hhead : ∀ t, (q (t.map σ)).head? = (p t).head?.map (Prod.map g (List.map σ)) := by
    intro t
    rw [h t, List.head?_map]
  induction s with
  | nil =>
      have hnil := hhead []
      rw [List.map_nil] at hnil
      simp only [List.map_nil, Pat.capture, search, hnil, Option.map_map]
      rfl
  | cons c s ih =>
      cases hc : (p (c :: s)).head? with
      | none =>
          have hq := hhead (c :: s)
          rw [hc, List.map_cons] at hq
          rw [List.map_cons, capture_skip (List.head?_eq_none_iff.mp hq), ih,
            capture_skip (List.head?_eq_none_iff.mp hc)]
      | some x =>
          have hq := hhead (c :: s)
          rw [hc] at hq
          rw [capture_here hq, capture_here hc]
          rfl

end Respects

/-! ## A text without metacharacters -/

/-- The item of a character that stands for itself. -/
def literal (c : Char) : Item := ⟨.char c, none⟩

theorem seq_literals (w : Text) : seq (w.map literal) = lit w := by
  induction w with
  | nil =>
      funext s
      simp [seq, lit]
  | cons c w ih =>
      funext s
      rw [List.map_cons, seq, ih]
      cases s with
      | nil => simp [item, literal, cls, lit]
      | cons d s =>
          by_cases hd : d = c
          · subst hd
            simp [item, literal, Atom.cls, lit]
          · have hd' : ¬ c = d := fun h => hd h.symm
            simp [item, literal, Atom.cls, lit, hd, hd']

end Pat

theorem interpolate_plain {w : Text} (h : ∀ c ∈ w, Times.ofChar c = none ∧ c ≠ '.') (it : Item) :
    interpolate it w = some (it :: w.map Pat.literal) := by
  induction w generalizing it with
  | nil => rfl
  | cons c w ih =>
      obtain ⟨hc, hdot⟩ := h c (by simp)
      have hatom : Atom.ofChar c = .char c := if_neg hdot
      rw [interpolate, hc]
      simp only [hatom, ih fun d hd => h d (by simp [hd])]
      rfl

/-- A stretch without quantifiers, and what comes after it. -/
theorem interpolate_append {w : Text} (hw : ∀ c ∈ w, Times.ofChar c = none) {c : Char}
    (hc : Times.ofChar c = none) (it : Item) (s : Text) :
    interpolate it (w ++ c :: s) = (interpolate ⟨.ofChar c, none⟩ s).map fun its =>
      it :: (w.map Atom.ofChar).map (fun a => ⟨a, none⟩) ++ its := by
  induction w generalizing it with
  | nil =>
      rw [List.nil_append, interpolate, hc]
      rfl
  | cons d w ih =>
      rw [List.cons_append, interpolate, hw d (by simp)]
      simp only [ih fun e he => hw e (by simp [he]), Option.map_map]
      rfl

theorem Item.quantify_atom {it it' : Item} {t : Times} (h : it.quantify t = some it') :
    it'.atom = it.atom := by
  unfold Item.quantify at h
  split at h
  all_goals cases h
  all_goals rfl

/-- The atoms of an expression are that in front of the text and characters of the text
that are not quantifiers. -/
theorem mem_interpolate {w : Text} {it : Item} {its : List Item}
    (h : interpolate it w = some its) :
    ∀ i ∈ its, i.atom = it.atom ∨ ∃ c ∈ w, Times.ofChar c = none ∧ i.atom = Atom.ofChar c := by
  induction w generalizing it its with
  | nil =>
      obtain rfl : its = [it] := by simpa [interpolate] using h.symm
      simp
  | cons c w ih =>
      rw [interpolate] at h
      cases hc : Times.ofChar c with
      | none =>
          simp only [hc, Option.map_eq_some_iff] at h
          obtain ⟨rest, hrest, rfl⟩ := h
          intro i hi
          rcases List.mem_cons.mp hi with rfl | hi
          · exact Or.inl rfl
          · rcases ih hrest i hi with hatom | ⟨d, hd, hq, hatom⟩
            · exact Or.inr ⟨c, by simp, hc, hatom⟩
            · exact Or.inr ⟨d, by simp [hd], hq, hatom⟩
      | some t =>
          simp only [hc, Option.bind_eq_some_iff] at h
          obtain ⟨it', hit', hrest⟩ := h
          intro i hi
          rcases ih hrest i hi with hatom | ⟨d, hd, hq, hatom⟩
          · exact Or.inl (hatom.trans (Item.quantify_atom hit'))
          · exact Or.inr ⟨d, by simp [hd], hq, hatom⟩

end Perl
