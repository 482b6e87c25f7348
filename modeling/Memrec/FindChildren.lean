import Mathlib.Tactic.IntervalCases
import Memrec.Interpolation

/-!
# The process tree

`find_children` reads the output of `pstree -p` and collects the numbers that
stand in parentheses.  Each round of its inner loop looks for the leftmost one,
turns its digits into a number and takes *the text of that number* out of the
line, in parentheses, by an expression.

Text and number are the same for digits without leading zeros and below `2^64`
(`Plain`).  Otherwise the parentheses that were found stay where they are, no
round can take them out (`stuck_of_removed`), and the loop never ends.  A number
that is taken out can bring other digits between the same parentheses, so that a
number is found that the line did not have.  `finds_iff` says when neither
happens, in terms of the numbers that are met if each one is taken out as it
stands (`peel`).
-/

namespace Memrec

open Perl Perl.Pat

/-! ## Numbers and their texts -/

/-- Division with rounding to the nearest, and to even in the middle. -/
def divEven (n u : Nat) : Nat :=
  if u < 2 * (n % u) ∨ 2 * (n % u) = u ∧ n / u % 2 = 1 then n / u + 1 else n / u

/-- A number without a sign: an integer of 64 bits, or a double. -/
inductive Number
  | uv (n : Nat)
  | nv (m : Nat)
  | inf
  deriving DecidableEq, Repr

namespace Number

/-- `$1 + 0` for digits; beyond 64 bits it is the nearest double. -/
def ofDigits (ds : Text) : Number :=
  let n := Nat.ofDigitChars 10 ds 0
  if n < 2 ^ 64 then .uv n
  else
    let m := divEven n (2 ^ (Nat.log2 n - 52)) * 2 ^ (Nat.log2 n - 52)
    if m < 2 ^ 1024 then .nv m else .inf

/-- `%.15g` for a whole number of more than fifteen digits. -/
def fifteenDigits (m : Nat) : Text :=
  let x := (Nat.toDigits 10 m).length - 1
  let q := divEven m (10 ^ (x - 14))
  match (Nat.toDigits 10 q).rdropWhile (· == '0') with
  | [] => []
  | d :: rest =>
      d :: (if rest = [] then [] else '.' :: rest) ++
        'e' :: '+' :: Nat.toDigits 10 (if q = 10 ^ 15 then x + 1 else x)

/-- The text of a number. -/
def written : Number → Text
  | .uv n => decimal n
  | .nv m => fifteenDigits m
  | .inf => "Inf".toList

def value : Number → Option Nat
  | .uv n => some n
  | .nv m => some m
  | .inf => none

end Number

/-! ## `find_children` -/

/-- `\((\d+)\)`. -/
def pidPat : Pat Text := do
  lit ['(']
  let ds ← many1 Char.isDigit
  lit [')']
  pure ds

/-- `\($p\)`: the text of the number is read as an expression. -/
def pidRemoval (p : Number) : Pat Unit :=
  match interpolate ⟨.char '(', none⟩ (p.written ++ [')']) with
  | some its => seq its
  | none => fun _ => []

/-- The loop over one line, with a bound on its rounds. -/
def findLine (pid : Nat) : Nat → Text → List Text → Option (List Text)
  | 0, _, _ => none
  | fuel + 1, x, foundpid =>
      match capture pidPat x with
      | none => some foundpid
      | some ds =>
          let p := Number.ofDigits ds
          findLine pid fuel (subst (pidRemoval p) (fun _ => []) x)
            (if p.value ≠ some pid then foundpid.insert p.written else foundpid)

/-- `find_children( pid, foundpid )` on the output of `pstree`: what it returns and the
keys of the hash afterwards. -/
def findChildren (pid fuel : Nat) (pstree : Text) (foundpid : List Text) :
    Option (Int × List Text) := do
  let foundpid ← (readlines pstree).foldlM (fun found line => findLine pid fuel (chomp line) found)
    foundpid
  pure (if (readlines pstree).length = 0 then -1 else 0, foundpid)

/-! ## Numbers in a line -/

def bracketed (w : Text) : Text := '(' :: w ++ [')']

/-- The digits stand in parentheses somewhere in the line. -/
structure Parenthesised (ds x : Text) : Prop where
  ne_nil : ds ≠ []
  digits : ∀ c ∈ ds, c.isDigit
  infix_ : bracketed ds <:+: x

/-- The number that digits stand for. -/
def pidOf (ds : Text) : Nat := Nat.ofDigitChars 10 ds 0

/-- Digits that are the text of their number: no leading zeros, and below `2^64`. -/
def Plain (ds : Text) : Prop := decimal (pidOf ds) = ds ∧ pidOf ds < 2 ^ 64

theorem paren_notMem {ds : Text} (h : ∀ c ∈ ds, c.isDigit) : '(' ∉ ds ∧ ')' ∉ ds :=
  ⟨fun hc => absurd (h _ hc) (by decide), fun hc => absurd (h _ hc) (by decide)⟩

theorem mem_pidPat {t r ds : Text} (h : (ds, r) ∈ pidPat t) :
    t = bracketed ds ++ r ∧ ds ≠ [] ∧ ∀ c ∈ ds, c.isDigit := by
  unfold pidPat at h
  simp only [bind_apply, List.mem_flatMap, pure_apply, List.mem_singleton] at h
  obtain ⟨x, hx, y, hy, z, hz, heq⟩ := h
  cases heq
  have hfirst := mem_lit hx
  have hlast := mem_lit hz
  obtain ⟨hy, hne, hdigits⟩ := mem_many1 hy
  refine ⟨?_, hne, hdigits⟩
  rw [hfirst, hy, hlast]
  simp [bracketed]

theorem head?_pidPat {ds : Text} (hne : ds ≠ []) (hdigits : ∀ c ∈ ds, c.isDigit) (r : Text) :
    (pidPat (bracketed ds ++ r)).head? = some (ds, r) := by
  obtain ⟨c, w, rfl⟩ := List.exists_cons_of_ne_nil hne
  have hw : ∀ d ∈ w, d.isDigit := fun d hd => hdigits d (List.mem_cons_of_mem c hd)
  have htake : (w ++ ')' :: r).takeWhile Char.isDigit = w := by
    rw [List.takeWhile_append_of_pos hw, List.takeWhile_cons_of_neg (by decide), List.append_nil]
  have hdrop : (w ++ ')' :: r).dropWhile Char.isDigit = ')' :: r := by
    rw [List.dropWhile_append_of_pos hw, List.dropWhile_cons_of_neg (by decide)]
  have hopen : bracketed (c :: w) ++ r = ['('] ++ c :: (w ++ ')' :: r) := by simp [bracketed]
  rw [hopen, pidPat, lit_bind_append]
  refine head?_bind_many1_of (hdigits c (by simp)) ?_
  rw [htake, hdrop]
  show ((lit [')'] >>= fun _ => (pure (c :: w) : Pat Text)) ([')'] ++ r)).head? = _
  rw [lit_bind_append]
  rfl

/-- The leftmost number of a line. -/
theorem search_pidPat {x pre ds post : Text} (h : search pidPat x = some (pre, ds, post)) :
    x = pre ++ bracketed ds ++ post ∧ ds ≠ [] ∧ ∀ c ∈ ds, c.isDigit := by
  obtain ⟨y, rfl, hhead, -⟩ := search_eq_some_iff.mp h
  obtain ⟨rfl, hne, hdigits⟩ := mem_pidPat (List.mem_of_head? hhead)
  exact ⟨(List.append_assoc _ _ _).symm, hne, hdigits⟩

theorem Parenthesised.of_search {x pre ds post : Text}
    (h : search pidPat x = some (pre, ds, post)) :
    Parenthesised ds x := by
  obtain ⟨rfl, hne, hdigits⟩ := search_pidPat h
  exact ⟨hne, hdigits, List.infix_append _ _ _⟩

/-- A line with a number has a leftmost one. -/
theorem Parenthesised.search {ds x : Text} (h : Parenthesised ds x) :
    (Pat.search pidPat x).isSome := by
  obtain ⟨u, v, hx⟩ := h.infix_
  have hhead := head?_pidPat h.ne_nil h.digits v
  have hsuffix : bracketed ds ++ v <:+ x := ⟨u, by rw [← hx, List.append_assoc]⟩
  have hcapture := capture_isSome (p := pidPat) hsuffix (by
    intro hnil
    rw [hnil] at hhead
    cases hhead)
  rwa [capture, Option.isSome_map] at hcapture

/-- Parentheses without others between them contain no other number. -/
theorem eq_of_bracketed_mem {ds u : Text} (hu : '(' ∉ u ∧ ')' ∉ u)
    (h : bracketed ds <:+: bracketed u) : ds = u := by
  rcases List.infix_cons_iff.mp h with h | h
  · obtain ⟨v, hv⟩ := h
    have hv : (ds ++ [')']) ++ v = u ++ [')'] := (List.cons.inj hv).2
    obtain rfl | ⟨v, c, rfl⟩ := v.eq_nil_or_concat'
    · rw [List.append_nil] at hv
      exact List.append_inj_left' hv rfl
    · rw [← List.append_assoc] at hv
      have hmem : ')' ∈ u := by
        rw [← List.append_inj_left' hv rfl]
        simp
      exact absurd hmem hu.2
  · have hmem : '(' ∈ u ++ [')'] := h.subset (by simp [bracketed])
    simp [hu.1] at hmem

/-! ## What a round takes out -/

theorem timesOfChar_digit {c : Char} (h : c.isDigit) : Times.ofChar c = none ∧ c ≠ '.' := by
  refine ⟨?_, ?_⟩
  · unfold Times.ofChar
    rw [if_neg (by rintro rfl; exact absurd h (by decide)),
      if_neg (by rintro rfl; exact absurd h (by decide)),
      if_neg (by rintro rfl; exact absurd h (by decide))]
  · rintro rfl
    exact absurd h (by decide)

/-- A text that stands for itself is looked for in parentheses. -/
theorem pidRemoval_of_plain {p : Number}
    (h : ∀ c ∈ p.written, Times.ofChar c = none ∧ c ≠ '.') :
    pidRemoval p = lit (bracketed p.written) := by
  have hplain : ∀ c ∈ p.written ++ [')'], Times.ofChar c = none ∧ c ≠ '.' := by
    intro c hc
    rcases List.mem_append.mp hc with hc | hc
    · exact h c hc
    · rw [List.mem_singleton.mp hc]
      decide
  rw [pidRemoval, interpolate_plain hplain]
  exact seq_literals (bracketed p.written)

theorem ofDigits_of_lt {ds : Text} (h : pidOf ds < 2 ^ 64) :
    Number.ofDigits ds = .uv (pidOf ds) :=
  if_pos h

/-- The leftmost number is taken out if its digits are plain. -/
theorem subst_of_plain {x pre ds post : Text} (h : search pidPat x = some (pre, ds, post))
    (hds : Plain ds) :
    subst (pidRemoval (Number.ofDigits ds)) (fun _ => []) x = pre ++ post := by
  have hlit : pidRemoval (Number.ofDigits ds) = lit (bracketed ds) := by
    rw [ofDigits_of_lt hds.2, pidRemoval_of_plain]
    · rw [Number.written, hds.1]
    · intro c hc
      exact timesOfChar_digit (isDigit_of_mem_decimal hc)
  obtain ⟨y, rfl, hhead, hearlier⟩ := search_eq_some_iff.mp h
  obtain ⟨rfl, hne, hdigits⟩ := mem_pidPat (List.mem_of_head? hhead)
  have hsearch : search (lit (bracketed ds)) (pre ++ (bracketed ds ++ post)) =
      some (pre, (), post) := by
    refine search_eq_some_iff.mpr ⟨bracketed ds ++ post, rfl, by rw [lit_append]; rfl, ?_⟩
    intro u v huv hv
    -- the same text further left would be a number further left
    refine lit_eq_nil ?_
    rintro ⟨r, hr⟩
    have hnumber := head?_pidPat hne hdigits r
    rw [hr, hearlier u v huv hv] at hnumber
    cases hnumber
  rw [subst, hlit, hsearch]
  simp only [List.append_nil]

/-- The text of a double. -/
theorem fifteenDigits_cases (m : Nat) :
    Number.fifteenDigits m = [] ∨ ∃ d rest e, d.isDigit ∧ (∀ c ∈ rest, c.isDigit) ∧
      Number.fifteenDigits m = d :: (if rest = [] then [] else '.' :: rest) ++
        'e' :: '+' :: Nat.toDigits 10 e := by
  unfold Number.fifteenDigits
  simp only
  split
  case h_1 => exact Or.inl rfl
  case h_2 d rest hstrip =>
    have hdigit : ∀ c ∈ d :: rest, c.isDigit := by
      intro c hc
      rw [← hstrip] at hc
      exact isDigit_of_mem_toDigits ((List.rdropWhile_prefix _ _).subset hc)
    exact Or.inr ⟨d, rest, _, hdigit d (by simp), fun c hc => hdigit c (by simp [hc]), rfl⟩

/-- A single digit is the text of its number. -/
theorem plain_singleton {d : Char} (h : d.isDigit) : Plain [d] := by
  have hrange : 48 ≤ d.toNat ∧ d.toNat ≤ 57 := Char.isDigit_iff_toNat.mp h
  have hvalue : pidOf [d] = d.toNat - 48 := by
    simp [pidOf, Nat.ofDigitChars_cons]
  have hchar : (d.toNat - 48).digitChar = d := by
    have hd := Char.ofNat_toNat d
    revert hd
    generalize d.toNat = n at hrange
    rintro rfl
    obtain ⟨hlo, hhi⟩ := hrange
    interval_cases n <;> rfl
  constructor
  · rw [hvalue, decimal_of_lt (by omega), hchar]
  · omega

/-- A text with an exponent as an expression: the plus belongs to the letter before it. -/
theorem pidRemoval_of_exponent {p : Number} {head : Text} {e : Nat}
    (hp : p.written = head ++ 'e' :: '+' :: Nat.toDigits 10 e)
    (hhead : ∀ c ∈ head, Times.ofChar c = none) :
    pidRemoval p = seq ((.char '(' :: head.map Atom.ofChar).map (fun a => ⟨a, none⟩) ++
      ⟨.char 'e', some (.plus, .greedy)⟩ :: (Nat.toDigits 10 e ++ [')']).map literal) := by
  have hplain : ∀ c ∈ Nat.toDigits 10 e ++ [')'], Times.ofChar c = none ∧ c ≠ '.' := by
    intro c hc
    rcases List.mem_append.mp hc with hc | hc
    · exact timesOfChar_digit (isDigit_of_mem_toDigits hc)
    · rw [List.mem_singleton.mp hc]
      decide
  have hplus : interpolate ⟨.ofChar 'e', none⟩ ('+' :: (Nat.toDigits 10 e ++ [')'])) =
      some (⟨.char 'e', some (.plus, .greedy)⟩ :: (Nat.toDigits 10 e ++ [')']).map literal) :=
    interpolate_plain hplain _
  have hitems : interpolate ⟨.char '(', none⟩ (p.written ++ [')']) =
      some ((.char '(' :: head.map Atom.ofChar).map (fun a => ⟨a, none⟩) ++
        ⟨.char 'e', some (.plus, .greedy)⟩ :: (Nat.toDigits 10 e ++ [')']).map literal) := by
    rw [hp, List.append_assoc, List.cons_append, interpolate_append hhead (by decide),
      List.cons_append, hplus]
    rfl
  rw [pidRemoval, hitems]

/-- What a text with an exponent takes out: a stretch that is as the text in front of the
`e` says, and an `e` after it. -/
theorem mem_pidRemoval_exponent {p : Number} {head : Text} {e : Nat} {s r : Text}
    (hp : p.written = head ++ 'e' :: '+' :: Nat.toDigits 10 e)
    (hhead : ∀ c ∈ head, Times.ofChar c = none) (h : ((), r) ∈ pidRemoval p s) :
    ∃ w v, s = bracketed (w ++ 'e' :: v) ++ r ∧ '(' ∉ v ∧
      List.Forall₂ (fun c d => (Atom.ofChar c).cls d) head w := by
  rw [pidRemoval_of_exponent hp hhead] at h
  obtain ⟨r₁, hfirst, hsecond⟩ := mem_seq_append h
  obtain ⟨u, rfl, hu⟩ := mem_seq_singles hfirst
  obtain ⟨c, w, hc, hw, rfl⟩ := List.forall₂_cons_left_iff.mp hu
  obtain rfl : c = '(' := by simpa [Atom.cls] using hc
  rw [seq, bind_apply, List.mem_flatMap] at hsecond
  obtain ⟨⟨es, r₂⟩, hes, hlast⟩ := hsecond
  obtain ⟨hr₁, hne, hall⟩ := mem_many1 hes
  obtain ⟨c, es, rfl⟩ := List.exists_cons_of_ne_nil hne
  obtain rfl : c = 'e' := by simpa [Atom.cls] using hall c (by simp)
  rw [seq_literals] at hlast
  have hr₂ : r₂ = (Nat.toDigits 10 e ++ [')']) ++ r := mem_lit hlast
  refine ⟨w, es ++ Nat.toDigits 10 e, ?_, ?_, List.forall₂_map_left_iff.mp hw⟩
  · simp only [hr₁, hr₂, bracketed]
    simp
  · intro hmem
    rcases List.mem_append.mp hmem with hmem | hmem
    · exact absurd (hall _ (List.mem_cons_of_mem _ hmem)) (by decide)
    · exact absurd (isDigit_of_mem_toDigits hmem) (by decide)

/-- Digits match themselves only. -/
theorem eq_of_forall₂_digits {w u : Text} (hw : ∀ c ∈ w, c.isDigit)
    (h : List.Forall₂ (fun c d => (Atom.ofChar c).cls d) w u) : u = w := by
  induction h with
  | nil => rfl
  | @cons c d w u hcd _ ih =>
      have hc := (timesOfChar_digit (hw c (by simp))).2
      obtain rfl : d = c := by simpa [Atom.ofChar, hc, Atom.cls] using hcd
      rw [ih fun x hx => hw x (by simp [hx])]

/-- Digits in parentheses do not reach over an `e`. -/
theorem infix_of_exponent {ds w v : Text} (hv : '(' ∉ v)
    (h : Parenthesised ds (bracketed (w ++ 'e' :: v))) : bracketed ds <:+: '(' :: w := by
  have hsplit : bracketed (w ++ 'e' :: v) = ('(' :: w) ++ 'e' :: (v ++ [')']) := by
    simp [bracketed]
  have hinfix := h.infix_
  rw [hsplit] at hinfix
  rcases infix_append_cases hinfix with h' | h' | ⟨o₁, o₂, heq, -, hne, -, ⟨t, ht⟩⟩
  · exact h'
  · have hmem : '(' ∈ 'e' :: (v ++ [')']) := h'.subset (by simp [bracketed])
    simp [hv] at hmem
  · obtain ⟨c, o₂, rfl⟩ := List.exists_cons_of_ne_nil hne
    obtain rfl : c = 'e' := (List.cons.inj ht).1
    have hmem : 'e' ∈ bracketed ds := by simp [heq]
    have hdigit : 'e' ∈ ds := by simpa [bracketed] using hmem
    exact absurd (h.digits _ hdigit) (by decide)

/-- At the beginning of the text of a double only a single digit can be in parentheses. -/
theorem plain_of_infix_mantissa {ds rest : Text} {d a : Char} (hd : d.isDigit)
    (hrest : ∀ c ∈ rest, c.isDigit) (hne : ds ≠ []) (h : bracketed ds <:+: '(' :: d :: a :: rest) :
    Plain ds := by
  have hd' : '(' ∉ [d] ∧ ')' ∉ [d] := paren_notMem (by simpa using hd)
  have hrest' := paren_notMem hrest
  rcases List.infix_cons_iff.mp h with h | h
  · obtain ⟨t, ht⟩ := h
    obtain ⟨c, ds, rfl⟩ := List.exists_cons_of_ne_nil hne
    cases ds with
    | nil =>
        obtain ⟨rfl, -⟩ := List.cons.inj (List.cons.inj ht).2
        exact plain_singleton hd
    | cons b ds =>
        have hrest : ds ++ [')'] ++ t = rest :=
          (List.cons.inj (List.cons.inj (List.cons.inj ht).2).2).2
        have hmem : ')' ∈ rest := by simp [← hrest]
        exact absurd hmem hrest'.2
  · have hopen : '(' ∈ d :: a :: rest := h.subset (by simp [bracketed])
    have hclose : ')' ∈ d :: a :: rest := h.subset (by simp [bracketed])
    simp only [List.mem_cons, List.not_mem_nil, or_false] at hd' hopen hclose
    grind

/-- A text without special characters is taken out as it stands. -/
theorem mem_pidRemoval_plain {p : Number} {s r : Text}
    (hchars : ∀ c ∈ p.written, Times.ofChar c = none ∧ c ≠ '.' ∧ c ≠ '(' ∧ c ≠ ')')
    (hnumber : ∀ ds, ds = p.written → ds ≠ [] → (∀ c ∈ ds, c.isDigit) → Plain ds)
    (h : ((), r) ∈ pidRemoval p s) :
    ∃ u, s = bracketed u ++ r ∧ ∀ ds, Parenthesised ds (bracketed u) → Plain ds := by
  rw [pidRemoval_of_plain fun c hc => ⟨(hchars c hc).1, (hchars c hc).2.1⟩] at h
  refine ⟨p.written, mem_lit h, ?_⟩
  intro ds hds
  have hu : '(' ∉ p.written ∧ ')' ∉ p.written :=
    ⟨fun hc => (hchars _ hc).2.2.1 rfl, fun hc => (hchars _ hc).2.2.2 rfl⟩
  exact hnumber ds (eq_of_bracketed_mem hu hds.infix_) hds.ne_nil hds.digits

/-- In the text of a double with an exponent, the point and the plus have a meaning. -/
theorem mem_pidRemoval_double {m e : Nat} {d : Char} {rest : Text} (hd : d.isDigit)
    (hrest : ∀ c ∈ rest, c.isDigit)
    (hm : Number.fifteenDigits m =
      d :: (if rest = [] then [] else '.' :: rest) ++ 'e' :: '+' :: Nat.toDigits 10 e)
    {s r : Text} (h : ((), r) ∈ pidRemoval (.nv m) s) :
    ∃ u, s = bracketed u ++ r ∧ ∀ ds, Parenthesised ds (bracketed u) → Plain ds := by
  have hhead : ∀ c ∈ d :: (if rest = [] then [] else '.' :: rest), Times.ofChar c = none := by
    intro c hc
    rcases List.mem_cons.mp hc with rfl | hc
    · exact (timesOfChar_digit hd).1
    · split at hc
      case isTrue => cases hc
      case isFalse =>
        rcases List.mem_cons.mp hc with rfl | hc
        · rfl
        · exact (timesOfChar_digit (hrest c hc)).1
  have hwritten : (Number.nv m).written =
      d :: (if rest = [] then [] else '.' :: rest) ++ 'e' :: '+' :: Nat.toDigits 10 e := hm
  obtain ⟨w, v, rfl, hv, hw⟩ := mem_pidRemoval_exponent hwritten hhead h
  refine ⟨w ++ 'e' :: v, rfl, ?_⟩
  intro ds hds
  have hinfix := infix_of_exponent hv hds
  obtain ⟨c, w₁, hc, hfraction, rfl⟩ := List.forall₂_cons_left_iff.mp hw
  obtain rfl : c = d := by
    simpa [Atom.ofChar, (timesOfChar_digit hd).2, Atom.cls] using hc
  by_cases hempty : rest = []
  · rw [if_pos hempty, List.forall₂_nil_left_iff] at hfraction
    have hlen := hinfix.length_le
    have hpos := List.length_pos_of_ne_nil hds.ne_nil
    simp only [bracketed, hfraction, List.length_append, List.length_cons, List.length_nil] at hlen
    omega
  · rw [if_neg hempty] at hfraction
    obtain ⟨a, w₂, -, hdigits, rfl⟩ := List.forall₂_cons_left_iff.mp hfraction
    rw [eq_of_forall₂_digits hrest hdigits] at hinfix
    exact plain_of_infix_mantissa hd hrest hds.ne_nil hinfix

/-- Between the parentheses that are taken out there is no number whose digits are not plain. -/
theorem mem_pidRemoval {p : Number} (hp : ∀ n, p = .uv n → n < 2 ^ 64) {s r : Text}
    (h : ((), r) ∈ pidRemoval p s) :
    ∃ u, s = bracketed u ++ r ∧ ∀ ds, Parenthesised ds (bracketed u) → Plain ds := by
  cases p with
  | uv n =>
      refine mem_pidRemoval_plain ?_ ?_ h
      · intro c hc
        have hdigit := isDigit_of_mem_decimal hc
        refine ⟨(timesOfChar_digit hdigit).1, (timesOfChar_digit hdigit).2, ?_, ?_⟩
        · rintro rfl
          exact absurd hdigit (by decide)
        · rintro rfl
          exact absurd hdigit (by decide)
      · rintro ds rfl - -
        have hvalue : pidOf (decimal n) = n := Nat.ofDigitChars_ten_toDigits
        exact ⟨by rw [Number.written, hvalue], by rw [Number.written, hvalue]; exact hp n rfl⟩
  | inf =>
      refine mem_pidRemoval_plain (List.forall_iff_forall_mem.mp (by decide)) ?_ h
      rintro ds rfl - hdigits
      exact absurd (hdigits 'I' (by decide)) (by decide)
  | nv m =>
      rcases fifteenDigits_cases m with hm | ⟨d, rest, e, hd, hrest, hm⟩
      · refine mem_pidRemoval_plain ?_ ?_ h
        · simp [Number.written, hm]
        · rintro ds rfl hne -
          exact absurd hm hne
      · exact mem_pidRemoval_double hd hrest hm h

theorem ofDigits_lt {ds : Text} {n : Nat} (h : Number.ofDigits ds = .uv n) : n < 2 ^ 64 := by
  unfold Number.ofDigits at h
  simp only at h
  split at h
  case isTrue hlt =>
    cases h
    exact hlt
  case isFalse =>
    split at h <;> cases h

/-- A number whose digits are not plain is there after every round. -/
theorem stuck_of_removed {ds x : Text} (h : Parenthesised ds x) (hds : ¬ Plain ds) (found : Text) :
    Parenthesised ds (subst (pidRemoval (Number.ofDigits found)) (fun _ => []) x) := by
  unfold subst
  split
  case h_2 => exact h
  case h_1 pre a post hsearch =>
    obtain ⟨y, rfl, hhead, -⟩ := search_eq_some_iff.mp hsearch
    obtain ⟨u, rfl, hu⟩ := mem_pidRemoval (fun n hn => ofDigits_lt hn) (List.mem_of_head? hhead)
    have hparen := paren_notMem h.digits
    refine ⟨h.ne_nil, h.digits, ?_⟩
    rw [List.append_nil]
    refine infix_of_removed (u := u) (by decide) hparen.1 hparen.2 ?_ ?_
    · have hinfix := h.infix_
      rwa [← List.append_assoc] at hinfix
    · exact fun hinfix => hds (hu ds ⟨h.ne_nil, h.digits, hinfix⟩)

/-- So the loop does not end. -/
theorem findLine_of_stuck {ds x : Text} (h : Parenthesised ds x) (hds : ¬ Plain ds)
    (pid fuel : Nat) (foundpid : List Text) : findLine pid fuel x foundpid = none := by
  induction fuel generalizing x foundpid with
  | zero => rfl
  | succ fuel ih =>
      obtain ⟨⟨pre, found, post⟩, hsearch⟩ := Option.isSome_iff_exists.mp h.search
      have hcapture : capture pidPat x = some found := by rw [capture, hsearch]; rfl
      rw [findLine, hcapture]
      exact ih (stuck_of_removed h hds found) _

/-! ## Taking the numbers out as they stand -/

/-- The digits that are met, in at most `n` rounds. -/
def peelMany : Nat → Text → List Text
  | 0, _ => []
  | n + 1, x =>
      match search pidPat x with
      | none => []
      | some (pre, ds, post) => ds :: peelMany n (pre ++ post)

/-- The digits that are met in a line if the leftmost parentheses with digits are taken
out as they stand, again and again. -/
def peel (x : Text) : List Text := peelMany x.length x

/-- What a round does to the hash. -/
def noted (pid : Nat) (foundpid : List Text) (ds : Text) : List Text :=
  if pidOf ds ≠ pid then foundpid.insert (decimal (pidOf ds)) else foundpid

theorem length_lt_of_search {x pre ds post : Text} (h : search pidPat x = some (pre, ds, post)) :
    (pre ++ post).length < x.length := by
  rw [(search_pidPat h).1]
  simp only [bracketed, List.length_append, List.length_cons]
  omega

/-- Every number of the line is met. -/
theorem mem_peelMany {n : Nat} {ds x : Text} (h : Parenthesised ds x) (hn : x.length ≤ n) :
    ds ∈ peelMany n x := by
  induction n generalizing x with
  | zero =>
      have hlen := h.infix_.length_le
      simp only [bracketed, List.length_append, List.length_cons] at hlen
      omega
  | succ n ih =>
      obtain ⟨⟨pre, found, post⟩, hsearch⟩ := Option.isSome_iff_exists.mp h.search
      have hshort := length_lt_of_search hsearch
      obtain ⟨hx, -, hfound⟩ := search_pidPat hsearch
      rw [peelMany, hsearch]
      by_cases heq : ds = found
      · exact List.mem_cons.mpr (Or.inl heq)
      · have hparen := paren_notMem h.digits
        have hrest : Parenthesised ds (pre ++ post) := by
          refine ⟨h.ne_nil, h.digits, ?_⟩
          refine infix_of_removed (u := found) (by decide) hparen.1 hparen.2 (hx ▸ h.infix_) ?_
          exact fun hinfix => heq (eq_of_bracketed_mem (paren_notMem hfound) hinfix)
        exact List.mem_cons_of_mem _ (ih hrest (by omega))

theorem capture_of_search {x pre ds post : Text} (h : search pidPat x = some (pre, ds, post)) :
    capture pidPat x = some ds := by
  rw [capture, h]
  rfl

/-- A round on plain digits. -/
theorem findLine_step {x pre ds post : Text} (h : search pidPat x = some (pre, ds, post))
    (hds : Plain ds) (pid fuel : Nat) (foundpid : List Text) :
    findLine pid (fuel + 1) x foundpid =
      findLine pid fuel (pre ++ post) (noted pid foundpid ds) := by
  have hsubst := subst_of_plain h hds
  rw [ofDigits_of_lt hds.2] at hsubst
  rw [findLine, capture_of_search h]
  simp only [ofDigits_of_lt hds.2, hsubst]
  simp [noted, Number.value, Number.written]

theorem findLine_none {x : Text} (h : search pidPat x = none) (pid fuel : Nat)
    (foundpid : List Text) : findLine pid (fuel + 1) x foundpid = some foundpid := by
  rw [findLine, capture, h]
  rfl

/-- More rounds than needed do not matter. -/
theorem findLine_mono {pid fuel fuel' : Nat} {x : Text} {foundpid found : List Text}
    (h : findLine pid fuel x foundpid = some found) (hle : fuel ≤ fuel') :
    findLine pid fuel' x foundpid = some found := by
  induction fuel generalizing x foundpid fuel' with
  | zero => cases h
  | succ fuel ih =>
      obtain ⟨fuel', rfl⟩ := Nat.exists_eq_add_of_lt hle
      rw [findLine]
      rw [findLine] at h
      cases hc : capture pidPat x with
      | none => simpa only [hc] using h
      | some ds =>
          simp only [hc] at h ⊢
          exact ih h (by omega)

/-- Plain digits: the loop takes the numbers out as they stand. -/
theorem findLine_of_plain {n : Nat} {x : Text} (hn : x.length ≤ n)
    (hplain : ∀ ds ∈ peelMany n x, Plain ds) (pid : Nat) (foundpid : List Text) :
    findLine pid (n + 1) x foundpid = some ((peelMany n x).foldl (noted pid) foundpid) := by
  induction n generalizing x foundpid with
  | zero =>
      cases hsearch : search pidPat x with
      | none => exact findLine_none hsearch pid 0 foundpid
      | some r =>
          obtain ⟨pre, ds, post⟩ := r
          have := length_lt_of_search hsearch
          omega
  | succ n ih =>
      cases hsearch : search pidPat x with
      | none =>
          rw [findLine_none hsearch, peelMany, hsearch]
          rfl
      | some r =>
          obtain ⟨pre, ds, post⟩ := r
          have hshort := length_lt_of_search hsearch
          rw [peelMany, hsearch] at hplain
          simp only [List.forall_mem_cons] at hplain
          rw [findLine_step hsearch hplain.1, ih (by omega) hplain.2, peelMany, hsearch]
          rfl

/-- Other digits: it does not end. -/
theorem findLine_of_not_plain {n : Nat} {x : Text} (h : ¬ ∀ ds ∈ peelMany n x, Plain ds)
    (pid fuel : Nat) (foundpid : List Text) : findLine pid fuel x foundpid = none := by
  induction n generalizing x fuel foundpid with
  | zero => simp [peelMany] at h
  | succ n ih =>
      cases hsearch : search pidPat x with
      | none => simp [peelMany, hsearch] at h
      | some r =>
          obtain ⟨pre, ds, post⟩ := r
          by_cases hds : Plain ds
          · rw [peelMany, hsearch] at h
            simp only [List.forall_mem_cons, hds, true_and] at h
            cases fuel with
            | zero => rfl
            | succ fuel =>
                rw [findLine_step hsearch hds]
                exact ih h fuel _
          · exact findLine_of_stuck (.of_search hsearch) hds pid fuel foundpid

theorem mem_foldl_noted {pid : Nat} {dss foundpid : List Text} {k : Text} :
    k ∈ dss.foldl (noted pid) foundpid ↔
      k ∈ foundpid ∨ ∃ ds ∈ dss, pidOf ds ≠ pid ∧ k = decimal (pidOf ds) := by
  induction dss generalizing foundpid with
  | nil => simp
  | cons ds dss ih =>
      rw [List.foldl_cons, ih, noted]
      by_cases hds : pidOf ds = pid
      · simp [hds]
      · rw [if_pos hds, List.mem_insert_iff]
        simp only [List.exists_mem_cons_iff, hds, ne_eq, not_false_eq_true, true_and]
        tauto

/-- The loop ends, and then the hash has, besides what it had, the numbers of the line but
that of the parent. -/
def Finds (pid : Nat) (x : Text) : Prop :=
  ∀ foundpid, ∃ fuel found, findLine pid fuel x foundpid = some found ∧
    ∀ k, k ∈ found ↔ k ∈ foundpid ∨
      ∃ ds, Parenthesised ds x ∧ pidOf ds ≠ pid ∧ k = decimal (pidOf ds)

theorem finds_of_plain {pid : Nat} {x : Text} (h : ∀ ds ∈ peel x, Plain ds ∧
    (pidOf ds = pid ∨ ∃ ds', Parenthesised ds' x ∧ pidOf ds' = pidOf ds)) : Finds pid x := by
  intro foundpid
  have hplain : ∀ ds ∈ peel x, Plain ds := fun ds hds => (h ds hds).1
  refine ⟨x.length + 1, _, findLine_of_plain (le_refl _) hplain pid foundpid, ?_⟩
  intro k
  rw [mem_foldl_noted]
  refine or_congr_right ⟨?_, ?_⟩
  · rintro ⟨ds, hds, hpid, rfl⟩
    obtain ⟨ds', hds', heq⟩ := (h ds hds).2.resolve_left hpid
    exact ⟨ds', hds', heq ▸ hpid, by rw [heq]⟩
  · rintro ⟨ds, hds, hpid, rfl⟩
    exact ⟨ds, mem_peelMany hds (le_refl _), hpid, rfl⟩

/-- **All numbers and no others.**  The loop ends with the numbers of the line if and only
if, when the numbers are taken out as they stand, all digits met are plain, and belong to
the parent or to a number that the line has. -/
theorem finds_iff (pid : Nat) (x : Text) :
    Finds pid x ↔ ∀ ds ∈ peel x, Plain ds ∧
      (pidOf ds = pid ∨ ∃ ds', Parenthesised ds' x ∧ pidOf ds' = pidOf ds) := by
  constructor
  · intro h ds hds
    obtain ⟨fuel, found, hrun, hkeys⟩ := h []
    have hplain : ∀ ds ∈ peel x, Plain ds := by
      by_contra hnot
      rw [findLine_of_not_plain hnot] at hrun
      cases hrun
    refine ⟨hplain ds hds, or_iff_not_imp_left.mpr fun hpid => ?_⟩
    have hpeel := findLine_of_plain (le_refl _) hplain pid []
    have heq : found = (peel x).foldl (noted pid) [] :=
      Option.some.inj ((findLine_mono hrun (Nat.le_max_left _ _)).symm.trans
        (findLine_mono hpeel (Nat.le_max_right fuel _)))
    have hmem : decimal (pidOf ds) ∈ found := by
      rw [heq, mem_foldl_noted]
      exact Or.inr ⟨ds, hds, hpid, rfl⟩
    obtain ⟨ds', hds', -, hnumber⟩ := ((hkeys _).mp hmem).resolve_left List.not_mem_nil
    exact ⟨ds', hds', (Int.ofNat_inj.mp (decimal_injective hnumber)).symm⟩
  · exact finds_of_plain

/-- A command name with a leading zero in parentheses, as in `bash(1)---run(007)(23)`. -/
theorem finds_fails_leadingZero : ¬ Finds 1 "bash(1)---run(007)(23)".toList := by
  intro h
  obtain ⟨fuel, found, hrun, -⟩ := h []
  have hzero : Parenthesised "007".toList "bash(1)---run(007)(23)".toList :=
    ⟨by decide, List.all_eq_true.mp (by decide), ⟨"bash(1)---run".toList, "(23)".toList, rfl⟩⟩
  have hnot : ¬ Plain "007".toList := fun h => absurd h.1 (by decide)
  rw [findLine_of_stuck hzero hnot] at hrun
  cases hrun

/-- A number that the line does not have. -/
example : findLine 1 5 "bash(1)---run((1)2)(23)".toList [] =
    some ["23".toList, "2".toList] := by decide +kernel

/-- The lines of a whole output, one after the other. -/
theorem foldlM_findLine {pid : Nat} {lines : List Text}
    (h : ∀ line ∈ lines, Finds pid (chomp line)) (foundpid : List Text) :
    ∃ fuel found, (∀ fuel' ≥ fuel, lines.foldlM (fun found line =>
        findLine pid fuel' (chomp line) found) foundpid = some found) ∧
      ∀ k, k ∈ found ↔ k ∈ foundpid ∨ ∃ line ∈ lines,
        ∃ ds, Parenthesised ds (chomp line) ∧ pidOf ds ≠ pid ∧ k = decimal (pidOf ds) := by
  induction lines generalizing foundpid with
  | nil => exact ⟨0, foundpid, fun _ _ => rfl, by simp⟩
  | cons line lines ih =>
      obtain ⟨fuel₁, found₁, hrun₁, hkeys₁⟩ := h line (by simp) foundpid
      obtain ⟨fuel₂, found₂, hrun₂, hkeys₂⟩ := ih (fun l hl => h l (by simp [hl])) found₁
      refine ⟨max fuel₁ fuel₂, found₂, ?_, ?_⟩
      · intro fuel' hle
        rw [List.foldlM_cons, findLine_mono hrun₁ ((Nat.le_max_left _ _).trans hle)]
        exact hrun₂ fuel' ((Nat.le_max_right _ _).trans hle)
      · intro k
        rw [hkeys₂, hkeys₁, List.exists_mem_cons_iff, or_assoc]

/-- `find_children` ends with the numbers of all lines if each line meets the condition. -/
theorem findChildren_spec {pid : Nat} {pstree : Text}
    (h : ∀ line ∈ readlines pstree, ∀ ds ∈ peel (chomp line), Plain ds ∧
      (pidOf ds = pid ∨ ∃ ds', Parenthesised ds' (chomp line) ∧ pidOf ds' = pidOf ds))
    (foundpid : List Text) :
    ∃ fuel found, findChildren pid fuel pstree foundpid =
        some (if (readlines pstree).length = 0 then -1 else 0, found) ∧
      ∀ k, k ∈ found ↔ k ∈ foundpid ∨ ∃ line ∈ readlines pstree,
        ∃ ds, Parenthesised ds (chomp line) ∧ pidOf ds ≠ pid ∧ k = decimal (pidOf ds) := by
  obtain ⟨fuel, found, hrun, hkeys⟩ :=
    foldlM_findLine (fun line hline => finds_of_plain (h line hline)) foundpid
  refine ⟨fuel, found, ?_, hkeys⟩
  rw [findChildren, hrun fuel (le_refl _)]
  rfl

end Memrec
