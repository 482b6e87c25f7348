import Mathlib.Algebra.Order.Field.Rat
import Mathlib.Algebra.Order.Floor.Ring
import Mathlib.Data.Rat.Floor
import Mathlib.Data.List.DropRight

/-!
# Text and numbers in the manner of Perl

A subject string is a list of characters.  This file collects the operations
of the language that scripts lean on: the class `\s`, `split` on whitespace
runs and on a single character, `chomp`, the line iterator `<FP>`, the decimal
rendering of an integer and the numeric value of a scalar, and the run-time
errors that end a process.  Numbers are exact rationals.

The two facts about `split` that decide what a reader sees are kept visible in
the definition: whitespace at the very beginning produces a leading empty
field, and empty fields at the end are dropped.
-/

namespace Perl

/-- A character string. -/
abbrev Text := List Char

instance : LawfulBEq Text := inferInstance

/-- The class `\s`. -/
def isSpace (c : Char) : Bool :=
  c == ' ' || c == '\t' || c == '\n' || c == '\r' || c == '\x0b' || c == '\x0c'

/-- The class `.`: everything but a line feed. -/
def notNl (c : Char) : Bool := c != '\n'

/-- Put a character in front of the first of several pieces. -/
def consHead (c : Char) : List Text → List Text
  | [] => [[c]]
  | w :: ws => (c :: w) :: ws

/-- The maximal runs of non-space characters.  This is `split( ' ', s )`,
which skips leading whitespace. -/
def words : Text → List Text
  | [] => []
  | c :: s =>
      if isSpace c then words s
      else
        match s with
        | [] => [[c]]
        | d :: _ => if isSpace d then [c] :: words s else consHead c (words s)

/-- `split( /\s+/, s )`: whitespace at the beginning yields an empty first
field, whitespace at the end yields nothing. -/
def splitWs (s : Text) : List Text :=
  match words s with
  | [] => []
  | w :: ws => if s.head?.any isSpace then [] :: w :: ws else w :: ws

/-- `split( c, s )` for a one-character separator. -/
def splitChar (c : Char) (s : Text) : List Text :=
  (s.splitOn c).rdropWhile List.isEmpty

/-- `join( sep, ws )`. -/
def join (sep : Text) (ws : List Text) : Text := List.intercalate sep ws

/-- The lines that `while( <FP> )` iterates over, terminators included. -/
def readlines : Text → List Text
  | [] => []
  | c :: s => if c = '\n' then [c] :: readlines s else consHead c (readlines s)

/-- `chomp`: remove one trailing line feed. -/
def chomp (s : Text) : Text :=
  if s.getLast? = some '\n' then s.dropLast else s

/-- Decimal rendering of an integer. -/
def decimal : Int → Text
  | .ofNat n => Nat.toDigits 10 n
  | .negSucc n => '-' :: Nat.toDigits 10 (n + 1)

/-- The exponent part of a numeric string, zero when there is none. -/
def exponent : Text → Int
  | e :: s =>
      if e == 'e' || e == 'E' then
        match s with
        | '-' :: ds => -(Nat.ofDigitChars 10 (ds.takeWhile Char.isDigit) 0 : Nat)
        | '+' :: ds => (Nat.ofDigitChars 10 (ds.takeWhile Char.isDigit) 0 : Nat)
        | ds => (Nat.ofDigitChars 10 (ds.takeWhile Char.isDigit) 0 : Nat)
      else 0
  | [] => 0

/-- The fraction digits after the integer part of a numeric string. -/
def fraction : Text → Text
  | '.' :: s => s.takeWhile Char.isDigit
  | _ => []

/-- The numeric value of an unsigned numeric string: the longest decimal
number at its beginning, zero when there is none. -/
def unsigned (s : Text) : ℚ :=
  let ip := s.takeWhile Char.isDigit
  let rest := s.dropWhile Char.isDigit
  let fp := fraction rest
  let after := if rest.head? = some '.' then rest.drop (fp.length + 1) else rest
  if ip ++ fp = [] then 0
  else (Nat.ofDigitChars 10 (ip ++ fp) 0 : Nat) / 10 ^ fp.length * 10 ^ exponent after

/-- The numeric value of a scalar, `s + 0`. -/
def numify (s : Text) : ℚ :=
  match s.dropWhile isSpace with
  | '-' :: r => -unsigned r
  | '+' :: r => unsigned r
  | r => unsigned r

/-- `int( x )`: truncation towards zero. -/
def int (x : ℚ) : Int := if 0 ≤ x then ⌊x⌋ else ⌈x⌉

/-- A field read as a number; a field that is not there reads as zero. -/
def fieldNum (fld : List Text) (i : Nat) : ℚ := numify (fld.getD i [])

/-- Run-time errors that end the process when nothing catches them. -/
inductive Die
  /-- Can't call method on an undefined value. -/
  | undefMethod
  /-- Illegal division by zero. -/
  | divByZero
  /-- Modification of non-creatable array value attempted. -/
  | badSubscript
  deriving DecidableEq, Repr

/-- The operator `/`. -/
def div (x y : ℚ) : Except Die ℚ := if y = 0 then .error .divByZero else .ok (x / y)

theorem div_of_ne {x y : ℚ} (h : y ≠ 0) : div x y = .ok (x / y) := by
  simp [div, h]

theorem div_ne_undefMethod (x y : ℚ) : div x y ≠ .error .undefMethod := by
  by_cases h : y = 0 <;> simp [div, h]

/-! ## Words -/

@[simp] theorem words_nil : words [] = [] := rfl

theorem words_space {c : Char} (hc : isSpace c) (s : Text) :
    words (c :: s) = words s := by
  simp [words, hc]

theorem words_last {c : Char} (hc : isSpace c = false) : words [c] = [[c]] := by
  simp [words, hc]

theorem words_end {c d : Char} (hc : isSpace c = false) (hd : isSpace d) (s : Text) :
    words (c :: d :: s) = [c] :: words (d :: s) := by
  rw [words]; simp [hc, hd]

theorem words_inside {c d : Char} (hc : isSpace c = false) (hd : isSpace d = false)
    (s : Text) : words (c :: d :: s) = consHead c (words (d :: s)) := by
  rw [words]; simp [hc, hd]

theorem consHead_ne_nil (c : Char) (ws : List Text) : consHead c ws ≠ [] := by
  cases ws <;> simp [consHead]

theorem words_ne_nil {c : Char} (hc : isSpace c = false) (s : Text) :
    words (c :: s) ≠ [] := by
  cases s with
  | nil => simp [words_last hc]
  | cons d s =>
      cases hd : isSpace d
      · rw [words_inside hc hd]
        exact consHead_ne_nil c _
      · simp [words_end hc hd]

/-- A whitespace character separates the words around it. -/
theorem words_append_space {c : Char} (hc : isSpace c) (s t : Text) :
    words (s ++ c :: t) = words s ++ words t := by
  induction s with
  | nil => simpa using words_space hc t
  | cons a s ih =>
      cases ha : isSpace a
      · cases s with
        | nil => simp [words_last ha, words_end ha hc, words_space hc]
        | cons d s =>
            simp only [List.cons_append] at ih ⊢
            cases hd : isSpace d
            · obtain ⟨w, ws, hw⟩ := List.exists_cons_of_ne_nil (words_ne_nil hd s)
              rw [words_inside ha hd, words_inside ha hd, ih, hw]
              rfl
            · rw [words_end ha hd, words_end ha hd, ih]
              rfl
      · rw [List.cons_append, words_space ha, words_space ha]
        exact ih

/-- A nonempty run without whitespace is one word. -/
theorem words_token {w : Text} (hne : w ≠ []) (hw : ∀ c ∈ w, isSpace c = false) :
    words w = [w] := by
  induction w with
  | nil => exact absurd rfl hne
  | cons c w ih =>
      have hc := hw c (by simp)
      cases w with
      | nil => exact words_last hc
      | cons d w =>
          have hrest := ih (by simp) (fun x hx => hw x (List.mem_cons_of_mem _ hx))
          rw [words_inside hc (hw d (by simp)), hrest]
          rfl

theorem words_blank_append {g : Text} (hg : ∀ c ∈ g, isSpace c) (s : Text) :
    words (g ++ s) = words s := by
  induction g with
  | nil => rfl
  | cons c g ih =>
      rw [List.cons_append, words_space (hg c (by simp))]
      exact ih (fun d hd => hg d (by simp [hd]))

/-- A word followed by a whitespace run comes off the front. -/
theorem words_token_append {w g : Text} (hne : w ≠ [])
    (hw : ∀ c ∈ w, isSpace c = false) (hgne : g ≠ [])
    (hg : ∀ c ∈ g, isSpace c) (s : Text) :
    words (w ++ g ++ s) = w :: words s := by
  obtain ⟨c, g, rfl⟩ := List.exists_cons_of_ne_nil hgne
  rw [List.append_assoc, List.cons_append, words_append_space (hg c (by simp)),
    words_token hne hw, words_blank_append (fun d hd => hg d (by simp [hd]))]
  rfl

theorem splitWs_of_space {c : Char} (hc : isSpace c) {s : Text} (hs : words s ≠ []) :
    splitWs (c :: s) = [] :: words s := by
  obtain ⟨w, ws, hw⟩ := List.exists_cons_of_ne_nil hs
  simp [splitWs, words_space hc, hw, hc]

theorem splitWs_of_not_space {c : Char} (hc : isSpace c = false) (s : Text) :
    splitWs (c :: s) = words (c :: s) := by
  obtain ⟨w, ws, hw⟩ := List.exists_cons_of_ne_nil (words_ne_nil hc s)
  simp [splitWs, hw, hc]

/-- The fields of `split( /\s+/, s )` are the words, after at most one empty
field. -/
theorem splitWs_words (s : Text) :
    splitWs s = words s ∨ splitWs s = [] :: words s := by
  unfold splitWs
  cases words s with
  | nil => exact Or.inl rfl
  | cons w ws =>
      by_cases h : s.head?.any isSpace
      · exact Or.inr (by simp [h])
      · exact Or.inl (by simp [h])

/-! ## Lines -/

/-- The first line comes off at its line feed. -/
theorem readlines_line {l : Text} (hl : '\n' ∉ l) (s : Text) :
    readlines (l ++ '\n' :: s) = (l ++ ['\n']) :: readlines s := by
  induction l with
  | nil => simp [readlines]
  | cons c l ih =>
      have hc : c ≠ '\n' := fun h => hl (by simp [h])
      have ih := ih (fun h => hl (by simp [h]))
      simp [readlines, hc, ih, consHead]

/-- A file written line by line is read back line by line. -/
theorem readlines_unlines {ls : List Text} (h : ∀ l ∈ ls, '\n' ∉ l) :
    readlines (ls.flatMap (· ++ ['\n'])) = ls.map (· ++ ['\n']) := by
  induction ls with
  | nil => rfl
  | cons l ls ih =>
      have ih := ih (fun m hm => h m (by simp [hm]))
      simp only [List.flatMap_cons, List.append_assoc, List.cons_append, List.nil_append,
        List.map_cons]
      rw [readlines_line (h l (by simp)), ih]

/-- A line feed stands at the end of a line only. -/
theorem mem_readlines {s l : Text} (h : l ∈ readlines s) : '\n' ∉ l.dropLast := by
  induction s generalizing l with
  | nil => simp [readlines] at h
  | cons c s ih =>
      by_cases hc : c = '\n'
      · simp only [readlines, hc, if_true, List.mem_cons] at h
        rcases h with rfl | h
        · simp
        · exact ih h
      · simp only [readlines, hc, if_false] at h
        cases hr : readlines s with
        | nil =>
            have : l = [c] := by simpa [hr, consHead] using h
            subst this
            simp
        | cons m ms =>
            simp only [hr, consHead, List.mem_cons] at h
            rcases h with rfl | h
            · have hm := ih (l := m) (by simp [hr])
              cases m with
              | nil => simp
              | cons d m =>
                  simp only [List.dropLast_cons_cons, List.mem_cons, not_or]
                  exact ⟨fun h => hc h.symm, hm⟩
            · exact ih (by simp [hr, h])

@[simp] theorem chomp_line (l : Text) : chomp (l ++ ['\n']) = l := by
  simp [chomp]

/-! ## Separated lists -/

/-- A list of nonempty items joined by a character they avoid is split back. -/
theorem splitChar_join {c : Char} {ks : List Text} (hne : ks ≠ [])
    (hk : ∀ k ∈ ks, k ≠ [] ∧ c ∉ k) :
    splitChar c (join [c] ks) = ks := by
  have hcut : List.splitOn c (List.intercalate [c] ks) = ks :=
    List.splitOn_intercalate c (fun k h => (hk k h).2) hne
  rw [splitChar, join, hcut, List.rdropWhile_eq_self_iff]
  intro h
  have := (hk _ (List.getLast_mem h)).1
  simpa using this

/-- A text without the separator is its only field. -/
theorem splitChar_of_notMem {c : Char} {s : Text} (hne : s ≠ []) (hc : c ∉ s) :
    splitChar c s = [s] := by
  have hitems : ∀ k ∈ [s], k ≠ [] ∧ c ∉ k := by simpa using ⟨hne, hc⟩
  have h := splitChar_join (List.cons_ne_nil s []) hitems
  simpa [join] using h

theorem mem_intersperse {α : Type} {sep x : α} {xs : List α} (h : x ∈ xs) :
    x ∈ xs.intersperse sep := by
  induction xs with
  | nil => simp at h
  | cons y ys ih =>
      cases ys with
      | nil => exact h
      | cons z zs =>
          rw [List.intersperse_cons_cons]
          rcases List.mem_cons.mp h with rfl | h
          · simp
          · exact List.mem_cons_of_mem _ (List.mem_cons_of_mem _ (ih h))

theorem infix_of_mem_splitOn {c : Char} {s l : Text} (h : l ∈ s.splitOn c) : l <:+: s := by
  have hpart : l <:+: List.intercalate [c] (s.splitOn c) :=
    List.infix_of_mem_flatten (mem_intersperse h)
  rwa [List.intercalate_splitOn] at hpart

/-- A field is a part of the text. -/
theorem infix_of_mem_splitChar {c : Char} {s l : Text} (h : l ∈ splitChar c s) : l <:+: s :=
  infix_of_mem_splitOn ((List.rdropWhile_prefix _ _).mem h)

/-- No field has the separator in it. -/
theorem notMem_of_mem_splitOn {c : Char} {s l : Text} (h : l ∈ s.splitOn c) : c ∉ l := by
  induction s generalizing l with
  | nil =>
      obtain rfl : l = [] := by simpa using h
      simp
  | cons d s ih =>
      rw [List.splitOn_cons_eq_if_modifyHead] at h
      by_cases hd : d = c
      · simp only [hd, beq_self_eq_true, if_true, List.mem_cons] at h
        rcases h with rfl | h
        · simp
        · exact ih h
      · simp only [beq_eq_false_iff_ne.mpr hd, Bool.false_eq_true, if_false] at h
        obtain ⟨w, ws, hws⟩ := List.exists_cons_of_ne_nil (List.splitOn_ne_nil c s)
        rw [hws, List.modifyHead_cons, List.mem_cons] at h
        rcases h with rfl | h
        · have hw := ih (l := w) (by simp [hws])
          simpa [Ne.symm hd] using hw
        · exact ih (by simp [hws, h])

theorem notMem_of_mem_splitChar {c : Char} {s l : Text} (h : l ∈ splitChar c s) : c ∉ l :=
  notMem_of_mem_splitOn ((List.rdropWhile_prefix _ _).mem h)

/-- A text with a separator in it is none of its fields. -/
theorem notMem_splitChar {c : Char} {s : Text} (h : c ∈ s) : s ∉ splitChar c s :=
  fun hmem => notMem_of_mem_splitChar hmem h

/-- Complete lines of which the last is not empty are split back. -/
theorem splitChar_unlines {c : Char} {ls : List Text} (hls : ∀ l ∈ ls, c ∉ l)
    (hlast : ∀ l ∈ ls.getLast?, l ≠ []) :
    splitChar c (ls.flatMap (· ++ [c])) = ls := by
  have hjoin : ls.flatMap (· ++ [c]) = List.intercalate [c] (ls ++ [[]]) := by
    clear hls hlast
    induction ls with
    | nil => rfl
    | cons l ls ih =>
        obtain ⟨m, ms, hm⟩ : ∃ m ms, ls ++ [[]] = m :: ms :=
          List.exists_cons_of_ne_nil (by simp)
        rw [List.flatMap_cons, ih, List.cons_append, hm]
        simp [List.intercalate, List.intersperse_cons_cons]
  have hcut : List.splitOn c (List.intercalate [c] (ls ++ [[]])) = ls ++ [[]] := by
    refine List.splitOn_intercalate c ?_ (by simp)
    intro l hl
    rcases List.mem_append.mp hl with hl | hl
    · exact hls l hl
    · rw [List.mem_singleton.mp hl]
      simp
  rw [splitChar, hjoin, hcut, List.rdropWhile_concat_pos _ _ _ (by rfl),
    List.rdropWhile_eq_self_iff]
  intro hne
  have := hlast (ls.getLast hne) (List.getLast?_eq_getLast_of_ne_nil hne)
  simpa using this

/-! ## Occurrences -/

/-- A text that starts at no place of a stretch lies behind it. -/
theorem infix_append_skip {u w v : Text} (h : ∀ t, t <:+ w → t ≠ [] → ¬ u <+: t ++ v)
    (hu : u <:+: w ++ v) : u <:+: v := by
  induction w with
  | nil => exact hu
  | cons c w ih =>
      rw [List.cons_append, List.infix_cons_iff] at hu
      rcases hu with hu | hu
      · exact absurd hu (h (c :: w) (List.suffix_refl _) (List.cons_ne_nil c w))
      · exact ih (fun t ht => h t (ht.trans (List.suffix_cons c w))) hu

/-- The first letter is not there. -/
theorem infix_of_head_notMem {x : Char} {u w v : Text} (hx : x ∉ w)
    (hu : x :: u <:+: w ++ v) : x :: u <:+: v := by
  refine infix_append_skip ?_ hu
  rintro (_ | ⟨c, t⟩) ht hne ⟨r, hr⟩
  · exact hne rfl
  · obtain ⟨rfl, -⟩ := List.cons.inj hr
    exact hx (ht.subset (by simp))

/-- The second letter is not there, and the first one is not at the end. -/
theorem infix_of_second_notMem {x y : Char} {u w v : Text} (hy : y ∉ w)
    (hx : w.getLast? ≠ some x) (hu : x :: y :: u <:+: w ++ v) : x :: y :: u <:+: v := by
  refine infix_append_skip ?_ hu
  rintro (_ | ⟨c, _ | ⟨d, t⟩⟩) ht hne ⟨r, hr⟩
  · exact hne rfl
  · obtain ⟨rfl, -⟩ := List.cons.inj hr
    obtain ⟨s, rfl⟩ := ht
    exact hx List.getLast?_concat
  · obtain ⟨-, hr⟩ := List.cons.inj hr
    obtain ⟨rfl, -⟩ := List.cons.inj hr
    exact hy (ht.subset (by simp))

/-- A character that a text does not have cannot help it to occur. -/
theorem infix_of_infix_concat {w t : Text} {c : Char} (hne : w ≠ []) (hc : c ∉ w)
    (h : w <:+: t ++ [c]) : w <:+: t := by
  obtain ⟨u, v, huv⟩ := h
  rcases List.eq_nil_or_concat v with rfl | ⟨v', d, rfl⟩
  · rw [List.append_nil] at huv
    have hlast := congrArg List.getLast? huv
    rw [List.getLast?_append_of_ne_nil _ hne, List.getLast?_concat] at hlast
    exact absurd (List.mem_of_getLast? hlast) hc
  · rw [List.concat_eq_append, ← List.append_assoc] at huv
    exact ⟨u, v', List.append_inj_left' huv rfl⟩

/-- A text that occurs in two stretches lies in one of them or across. -/
theorem infix_append_cases {o u v : Text} (h : o <:+: u ++ v) :
    o <:+: u ∨ o <:+: v ∨
      ∃ o₁ o₂, o = o₁ ++ o₂ ∧ o₁ ≠ [] ∧ o₂ ≠ [] ∧ o₁ <:+ u ∧ o₂ <+: v := by
  induction u with
  | nil => exact Or.inr (Or.inl h)
  | cons c u ih =>
      rw [List.cons_append, List.infix_cons_iff] at h
      rcases h with h | h
      · rcases List.prefix_or_prefix_of_prefix h (List.prefix_append (c :: u) v) with ho | ho
        · exact Or.inl ho.isInfix
        · obtain ⟨o₂, rfl⟩ := ho
          rw [← List.cons_append, List.prefix_append_right_inj] at h
          rcases eq_or_ne o₂ [] with rfl | hne
          · rw [List.append_nil]
            exact Or.inl (List.infix_refl _)
          · exact Or.inr (Or.inr ⟨c :: u, o₂, rfl, by simp, hne, List.suffix_refl _, h⟩)
      · rcases ih h with h | h | ⟨o₁, o₂, rfl, h₁, h₂, hu, hv⟩
        · exact Or.inl (h.trans (List.suffix_cons c u).isInfix)
        · exact Or.inr (Or.inl h)
        · exact Or.inr (Or.inr ⟨o₁, o₂, rfl, h₁, h₂, hu.trans (List.suffix_cons c u), hv⟩)

/-- A text in brackets stays when another one is taken out that does not contain it. -/
theorem infix_of_removed {a b : Char} (hab : a ≠ b) {w u pre post : Text} (ha : a ∉ w)
    (hb : b ∉ w) (h : a :: w ++ [b] <:+: pre ++ (a :: u ++ [b]) ++ post)
    (hno : ¬ a :: w ++ [b] <:+: a :: u ++ [b]) : a :: w ++ [b] <:+: pre ++ post := by
  -- nothing in the brackets begins with the first or ends with the second one
  have hacross : ∀ o₁ o₂ : Text, a :: w ++ [b] = o₁ ++ o₂ → o₁ ≠ [] → o₂ ≠ [] →
      o₁.getLast? ≠ some b ∧ o₂.head? ≠ some a := by
    intro o₁ o₂ heq h₁ h₂
    obtain ⟨c, o₁, rfl⟩ := List.exists_cons_of_ne_nil h₁
    obtain ⟨o₂, d, rfl⟩ := o₂.eq_nil_or_concat'.resolve_left h₂
    rw [← List.append_assoc] at heq
    obtain ⟨heq, -⟩ := List.append_inj' heq rfl
    obtain ⟨rfl, rfl⟩ := List.cons.inj heq
    constructor
    · intro hlast
      rcases List.mem_cons.mp (List.mem_of_getLast? hlast) with rfl | hmem
      · exact hab rfl
      · exact hb (List.mem_append_left _ hmem)
    · intro hhead
      cases o₂ with
      | nil =>
          obtain rfl : b = a := by simp_all
          exact hab rfl
      | cons e o₂ =>
          obtain rfl : e = a := by simpa using hhead
          exact ha (by simp)
  have hrest : a :: w ++ [b] <:+: (a :: u ++ [b]) ++ post → a :: w ++ [b] <:+: post := by
    intro h
    rcases infix_append_cases h with h | h | ⟨o₁, o₂, heq, h₁, h₂, ⟨s, hs⟩, -⟩
    · exact absurd h hno
    · exact h
    · refine absurd ?_ (hacross o₁ o₂ heq h₁ h₂).1
      have hlast := congrArg List.getLast? hs
      rwa [List.getLast?_append_of_ne_nil _ h₁, List.getLast?_concat] at hlast
  rw [List.append_assoc] at h
  rcases infix_append_cases h with h | h | ⟨o₁, o₂, heq, h₁, h₂, -, hpre⟩
  · exact h.trans List.infix_append_left
  · exact (hrest h).trans List.infix_append_right
  · refine absurd ?_ (hacross o₁ o₂ heq h₁ h₂).2
    obtain ⟨c, o₂, rfl⟩ := List.exists_cons_of_ne_nil h₂
    obtain ⟨rfl, -⟩ := List.cons_prefix_cons.mp hpre
    rfl

/-! ## Numbers -/

theorem decimal_ne_nil (n : Int) : decimal n ≠ [] := by
  cases n with
  | ofNat n => exact Nat.toDigits_ne_nil
  | negSucc n => simp [decimal]

theorem not_space_of_isDigit {c : Char} (h : c.isDigit) : isSpace c = false := by
  by_contra hs
  have hs : isSpace c = true := by simpa using hs
  simp only [isSpace, Bool.or_eq_true, beq_iff_eq] at hs
  rcases hs with ((((rfl | rfl) | rfl) | rfl) | rfl) | rfl <;> exact absurd h (by decide)

theorem isDigit_of_mem_toDigits {n : Nat} {c : Char} (h : c ∈ Nat.toDigits 10 n) :
    c.isDigit :=
  Nat.isDigit_of_mem_toDigits (by decide) (by decide) h

theorem isDigit_of_mem_decimal {n : Nat} {c : Char} (h : c ∈ decimal n) : c.isDigit :=
  isDigit_of_mem_toDigits h

theorem notNl_of_isDigit {c : Char} (h : c.isDigit) : notNl c := by
  refine bne_iff_ne.mpr ?_
  rintro rfl
  exact absurd h (by decide)

/-- A rendered integer has digits and a sign, and nothing else. -/
theorem notMem_decimal {c : Char} (hdigit : c.isDigit = false) (hsign : c ≠ '-') (n : Int) :
    c ∉ decimal n := by
  have hdigits : ∀ m : Nat, c ∉ Nat.toDigits 10 m := by
    intro m hc
    rw [isDigit_of_mem_toDigits hc] at hdigit
    cases hdigit
  cases n with
  | ofNat n => exact hdigits n
  | negSucc n =>
      intro hc
      rcases List.mem_cons.mp hc with h | h
      · exact hsign h
      · exact hdigits (n + 1) h

/-- A rendered integer is a token. -/
theorem decimal_not_space (n : Int) : ∀ c ∈ decimal n, isSpace c = false := by
  intro c hc
  cases n with
  | ofNat n => exact not_space_of_isDigit (isDigit_of_mem_toDigits hc)
  | negSucc n =>
      rcases List.mem_cons.mp hc with rfl | hc
      · decide
      · exact not_space_of_isDigit (isDigit_of_mem_toDigits hc)

private theorem toDigits_inj {m n : Nat} (h : Nat.toDigits 10 m = Nat.toDigits 10 n) :
    m = n := by
  have hv := congrArg (fun ds => Nat.ofDigitChars 10 ds 0) h
  simpa using hv

/-- Different integers are rendered differently. -/
theorem decimal_injective : Function.Injective decimal := by
  have hsign : ∀ m n : Nat, Nat.toDigits 10 m ≠ '-' :: Nat.toDigits 10 n := by
    intro m n h
    have hd : ('-' : Char).isDigit := isDigit_of_mem_toDigits (n := m) (by simp [h])
    exact absurd hd (by decide)
  intro m n h
  cases m with
  | ofNat m =>
      cases n with
      | ofNat n => rw [toDigits_inj h]
      | negSucc n => exact absurd h (hsign m (n + 1))
  | negSucc m =>
      cases n with
      | ofNat n => exact absurd h.symm (hsign n (m + 1))
      | negSucc n =>
          have := toDigits_inj (List.cons.inj h).2
          rw [Nat.succ.inj this]

/-- A number behind a character that is no digit is found again from the end. -/
theorem append_decimal_inj {x : Char} (hx : x.isDigit = false) {u v : Text} {m n : Nat}
    (h : u ++ x :: decimal m = v ++ x :: decimal n) : u = v ∧ m = n := by
  have hdigit : ∀ k : Nat, ∀ c ∈ (decimal k).reverse, c.isDigit := fun k c hc =>
    isDigit_of_mem_toDigits (List.mem_reverse.mp hc)
  have hcut : ∀ (w : Text) (k : Nat),
      (w ++ x :: decimal k).reverse.takeWhile Char.isDigit = (decimal k).reverse := by
    intro w k
    rw [List.reverse_append, List.reverse_cons, List.append_assoc,
      List.takeWhile_append_of_pos (hdigit k)]
    simp [hx]
  have hnumber : decimal m = decimal n := by
    rw [← List.reverse_inj, ← hcut u m, ← hcut v n, h]
  obtain rfl : m = n := Int.ofNat_inj.mp (decimal_injective hnumber)
  exact ⟨List.append_cancel_right h, rfl⟩

/-- A number of one digit. -/
theorem decimal_of_lt {n : Nat} (h : n < 10) : decimal n = [n.digitChar] :=
  Nat.toDigits_of_lt_base h

theorem isDigit_digitChar {n : Nat} (h : n < 10) : n.digitChar.isDigit := by
  refine isDigit_of_mem_decimal (n := n) ?_
  rw [decimal_of_lt h]
  exact List.mem_singleton_self _

/-- The last digit of a number. -/
theorem exists_decimal_eq (n : Nat) :
    ∃ ds, decimal n = ds ++ [(n % 10).digitChar] ∧ ∀ d ∈ ds, d.isDigit := by
  by_cases h : n < 10
  · exact ⟨[], by rw [decimal_of_lt h, Nat.mod_eq_of_lt h, List.nil_append], by simp⟩
  · exact ⟨Nat.toDigits 10 (n / 10), Nat.toDigits_of_base_le (by decide) (by omega),
      fun d hd => isDigit_of_mem_toDigits hd⟩

/-- A number that has more than one digit. -/
theorem exists_decimal_cons_cons {n : Nat} (h : 10 ≤ n) :
    ∃ d e ds, decimal n = d :: e :: ds ∧ d.isDigit ∧ e.isDigit := by
  have hlen : ¬ (Nat.toDigits 10 n).length ≤ 1 := by
    rw [Nat.length_toDigits_le_iff (by decide) (by decide)]
    omega
  have hdigits : ∀ c ∈ Nat.toDigits 10 n, c.isDigit := fun c hc => isDigit_of_mem_toDigits hc
  show ∃ d e ds, Nat.toDigits 10 n = d :: e :: ds ∧ d.isDigit ∧ e.isDigit
  match hdec : Nat.toDigits 10 n with
  | [] => simp [hdec] at hlen
  | [d] => simp [hdec] at hlen
  | d :: e :: ds =>
      rw [hdec] at hdigits
      exact ⟨d, e, ds, rfl, hdigits d (by simp), hdigits e (by simp)⟩

/-- A rendered number is read back, also if a blank and more follow it. -/
theorem numify_decimal_append (n : Nat) {s : Text} (hs : ∀ c ∈ s.head?, c = ' ') :
    numify (decimal n ++ s) = n := by
  have hdigits : ∀ c ∈ Nat.toDigits 10 n, c.isDigit := fun c hc => isDigit_of_mem_toDigits hc
  have hrest : s.takeWhile Char.isDigit = [] ∧ s.dropWhile Char.isDigit = s ∧ fraction s = [] ∧
      exponent s = 0 ∧ s.head? ≠ some '.' := by
    cases s with
    | nil => simp [fraction, exponent]
    | cons c s =>
        obtain rfl : c = ' ' := hs c rfl
        simp [fraction, exponent]
  obtain ⟨htake, hdrop, hfrac, hexp, hdot⟩ := hrest
  have hvalue : unsigned (Nat.toDigits 10 n ++ s) = n := by
    simp [unsigned, List.takeWhile_append_of_pos hdigits, List.dropWhile_append_of_pos hdigits,
      htake, hdrop, hfrac, hexp, hdot]
  obtain ⟨c, ds, hds⟩ := List.exists_cons_of_ne_nil (Nat.toDigits_ne_nil (n := n) (b := 10))
  have hc : c.isDigit := hdigits c (by rw [hds]; exact List.mem_cons_self)
  have hspace : isSpace c = false := not_space_of_isDigit hc
  show numify (Nat.toDigits 10 n ++ s) = n
  rw [← hvalue, numify, hds, List.cons_append, List.dropWhile_cons_of_neg (by simp [hspace])]
  split
  · next h => exact absurd ((List.cons.inj h).1 ▸ hc) (by decide)
  · next h => exact absurd ((List.cons.inj h).1 ▸ hc) (by decide)
  · rfl

/-- A rendered number is read back. -/
theorem numify_decimal (n : Nat) : numify (decimal n) = n := by
  have h := numify_decimal_append n (s := []) (by simp)
  rwa [List.append_nil] at h

theorem int_natCast (n : Nat) : int (n : ℚ) = n := by
  rw [int, if_pos (Nat.cast_nonneg n), Int.floor_natCast]

theorem int_mono {x y : ℚ} (h : x ≤ y) : int x ≤ int y := by
  unfold int
  by_cases hx : 0 ≤ x
  · rw [if_pos hx, if_pos (hx.trans h)]
    exact Int.floor_le_floor h
  · rw [if_neg hx]
    by_cases hy : 0 ≤ y
    · rw [if_pos hy]
      have hceil : ⌈x⌉ ≤ 0 := Int.ceil_le.mpr (by exact_mod_cast (not_le.mp hx).le)
      exact hceil.trans (Int.floor_nonneg.mpr hy)
    · rw [if_neg hy]
      exact Int.ceil_le_ceil h

@[simp] theorem numify_nil : numify [] = 0 := by
  simp [numify, unsigned, fraction]

/-! ## Arrays and hashes kept as lists -/

/-- `$xs[$i] = a`: entries that were never assigned are `none`. -/
def setAt {α : Type} (xs : List (Option α)) (i : Nat) (a : α) : List (Option α) :=
  (xs ++ List.replicate (i + 1 - xs.length) none).set i (some a)

theorem length_setAt {α : Type} (xs : List (Option α)) (i : Nat) (a : α) :
    (setAt xs i a).length = max xs.length (i + 1) := by
  simp only [setAt, List.length_set, List.length_append, List.length_replicate]
  omega

theorem map_setAt {α β : Type} (f : α → β) (xs : List (Option α)) (i : Nat) (a : α) :
    (setAt xs i a).map (Option.map f) = setAt (xs.map (Option.map f)) i (f a) := by
  simp [setAt, List.map_set]

theorem getD_setAt {α : Type} (xs : List (Option α)) (i j : Nat) (a : α) :
    (setAt xs i a).getD j none = if j = i then some a else xs.getD j none := by
  unfold setAt
  by_cases hij : j = i
  · subst hij
    have hlen : j < (xs ++ List.replicate (j + 1 - xs.length) none).length := by
      simp only [List.length_append, List.length_replicate]
      omega
    rw [if_pos rfl, List.getD, List.getElem?_set_self hlen, Option.getD_some]
  · rw [if_neg hij, List.getD, List.getElem?_set_ne (fun h => hij h.symm), List.getD]
    by_cases hj : j < xs.length
    · rw [List.getElem?_append_left hj]
    · have hnone : xs[j]? = none := List.getElem?_eq_none (by omega)
      rw [List.getElem?_append_right (by omega), hnone, List.getElem?_replicate]
      split <;> rfl

/-- The keys of a hash that is filled key by key. -/
theorem mem_foldl_insert {α : Type} [BEq α] [LawfulBEq α] {l init : List α} {e : α} :
    e ∈ l.foldl (fun l e => l.insert e) init ↔ e ∈ l ∨ e ∈ init := by
  induction l generalizing init with
  | nil => simp
  | cons a l ih =>
      rw [List.foldl_cons, ih, List.mem_insert_iff, List.mem_cons]
      tauto

/-- A count that is used as an integer. -/
theorem range_cast (n : Nat) :
    (do let a ← List.range n; pure (a : Int)) = (List.range n).map (Nat.cast : Nat → Int) :=
  List.map_eq_flatMap.symm

theorem lookup_map_graph {α β : Type} [BEq α] [LawfulBEq α] [DecidableEq α] (g : α → β)
    (ks : List α) (k : α) :
    (ks.map fun x => (x, g x)).lookup k = if k ∈ ks then some (g k) else none := by
  induction ks with
  | nil => rfl
  | cons x ks ih =>
      rw [List.map_cons, List.lookup_cons, ih]
      by_cases hx : k = x
      · simp [hx]
      · rw [beq_eq_false_iff_ne.mpr hx]
        simp [hx]

theorem lookup_map_values {α β γ : Type} [BEq α] [LawfulBEq α] (g : α → β → γ)
    (ps : List (α × β)) (k : α) :
    (ps.map fun p => (p.1, g p.1 p.2)).lookup k = (ps.lookup k).map (g k) := by
  induction ps with
  | nil => rfl
  | cons p ps ih =>
      rw [List.map_cons, List.lookup_cons, List.lookup_cons, ih]
      by_cases hk : k = p.1
      · simp [hk]
      · rw [beq_eq_false_iff_ne.mpr hk]

theorem lookup_of_notMem {α β : Type} [BEq α] [LawfulBEq α] {ps : List (α × β)} {k : α}
    (h : k ∉ ps.map Prod.fst) : ps.lookup k = none := by
  rw [List.lookup_eq_none_iff]
  intro p hp
  rw [bne_iff_ne]
  rintro rfl
  exact h (List.mem_map_of_mem hp)

theorem lookup_of_nodup {α β : Type} [BEq α] [LawfulBEq α] {ps : List (α × β)}
    (hn : (ps.map Prod.fst).Nodup) {p : α × β} (hp : p ∈ ps) :
    ps.lookup p.1 = some p.2 := by
  induction ps with
  | nil => simp at hp
  | cons q ps ih =>
      simp only [List.map_cons, List.nodup_cons] at hn
      rcases List.mem_cons.mp hp with rfl | hp
      · rw [List.lookup_cons, beq_self_eq_true]
      · have hne : p.1 ≠ q.1 := fun h => hn.1 (h ▸ List.mem_map_of_mem hp)
        rw [List.lookup_cons, beq_eq_false_iff_ne.mpr hne]
        exact ih hn.2 hp

end Perl
