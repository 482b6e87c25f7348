import Memrec.Pattern

/-!
# Lines of `/proc/net/dev`

Every network module finds its interfaces with one of two expressions,

    m/(eth|em)(\d)\:(.*)/          new() everywhere, getdata() of netinfo10
    m/(eth|em)(\d)\:\s*(.*)/       getdata() of netinfo and netinfo2

and cuts what follows the colon with `split( /\s+/, ... )`.  They agree on which
lines they accept and on the digit (`search ethHead`); they differ in what is
left of the whitespace after the colon, and `split` turns that whitespace into
an empty first field.

`DevLine` is the line the kernel prints, with its sixteen columns; the lemmas at
the end say what each expression makes of it.
-/

namespace Memrec

open Perl Perl.Pat

/-- `(eth|em)(\d)\:`, returning the digit `$2 + 0`. -/
def ethHead : Pat Nat := do
  alt (lit "eth".toList) (lit "em".toList)
  let d ← cls Char.isDigit
  lit ":".toList
  pure (d.toNat - '0'.toNat)

/-- `m/(eth|em)(\d)\:(.*)/`. -/
def ethLine : Pat (Nat × Text) := do
  let e ← ethHead
  let rest ← many notNl
  pure (e, rest)

/-- `m/(eth|em)(\d)\:\s*(.*)/`. -/
def ethLineTrim : Pat (Nat × Text) := do
  let e ← ethHead
  let _ ← many isSpace
  let rest ← many notNl
  pure (e, rest)

/-- The digit and the fields of a line under the first expression. -/
def ethFields (line : Text) : Option (Nat × List Text) :=
  (capture ethLine line).map fun r => (r.1, splitWs r.2)

/-- The digit and the fields of a line under the second expression. -/
def ethFieldsTrim (line : Text) : Option (Nat × List Text) :=
  (capture ethLineTrim line).map fun r => (r.1, splitWs r.2)

/-- `m/Ethernet controller\:(.*)/` on one line of `lspci`. -/
def lspciLine : Pat Text := do
  lit "Ethernet controller:".toList
  many notNl

/-- The loop over `lspci`: the last Ethernet controller listed decides. -/
def ethSpeed (lspci : Text) : Nat :=
  (readlines lspci).foldl (fun speed line =>
    match capture lspciLine line with
    | none => speed
    | some x => if (search (lit "10 Gigabit".toList) x).isSome then 10 else 1) 1

/-! ## The two expressions compared -/

theorem capture_ethLine (line : Text) :
    capture ethLine line =
      (search ethHead line).map fun x => (x.2.1, x.2.2.takeWhile notNl) :=
  capture_bind_total (g := fun e r => (e, r.takeWhile notNl))
    (fun e r => by rw [head?_bind_many]; rfl) line

theorem capture_ethLineTrim (line : Text) :
    capture ethLineTrim line =
      (search ethHead line).map fun x =>
        (x.2.1, (x.2.2.dropWhile isSpace).takeWhile notNl) :=
  capture_bind_total (g := fun e r => (e, (r.dropWhile isSpace).takeWhile notNl))
    (fun e r => by
      rw [head?_bind_many_of (r := ((e, (r.dropWhile isSpace).takeWhile notNl),
        (r.dropWhile isSpace).dropWhile notNl)) (by rw [head?_bind_many])]
      rfl) line

theorem splitWs_dropWhile (s : Text) : splitWs (s.dropWhile isSpace) = words s := by
  induction s with
  | nil => rfl
  | cons c s ih =>
      cases hc : isSpace c
      · simp only [List.dropWhile_cons, hc, Bool.false_eq_true, if_false]
        exact splitWs_of_not_space hc s
      · rw [List.dropWhile_cons_of_pos hc, words_space hc]
        exact ih

/-- Trimming before or after the end of the line makes no difference when the
line feed is the last character. -/
theorem trim_takeWhile {s : Text} (h : '\n' ∉ s.dropLast) :
    (s.dropWhile isSpace).takeWhile notNl = (s.takeWhile notNl).dropWhile isSpace := by
  induction s with
  | nil => rfl
  | cons c s ih =>
      cases s with
      | nil =>
          by_cases hc : c = '\n'
          · subst hc; decide
          · have hn : notNl c = true := by simpa [notNl] using hc
            cases hs : isSpace c <;> simp [List.takeWhile_cons_of_pos hn, hs]
      | cons d s =>
          simp only [List.dropLast_cons_cons, List.mem_cons, not_or] at h
          have hc : notNl c = true := by simpa [notNl] using fun h' => h.1 h'.symm
          rw [List.takeWhile_cons_of_pos hc]
          cases hs : isSpace c
          · rw [List.dropWhile_cons_of_neg (by simp [hs]),
              List.dropWhile_cons_of_neg (by simp [hs]), List.takeWhile_cons_of_pos hc]
          · rw [List.dropWhile_cons_of_pos hs, List.dropWhile_cons_of_pos hs]
            exact ih h.2

private theorem mem_dropLast_of_suffix {s t : Text} (h : t <:+ s) {c : Char}
    (hc : c ∈ t.dropLast) : c ∈ s.dropLast := by
  obtain ⟨u, rfl⟩ := h
  cases t with
  | nil => simp at hc
  | cons d t =>
      rw [List.dropLast_append_of_ne_nil (by simp)]
      exact List.mem_append_right _ hc

theorem ethHead_shrinks : Shrinks ethHead :=
  (shrinks_alt (shrinks_lit _) (shrinks_lit _)).bind fun _ =>
    (shrinks_cls _).bind fun _ => (shrinks_lit _).bind fun _ => shrinks_pure _

/-- On a line of a file both expressions accept the same lines with the same
digit; the fields of the second are the words after the colon, those of the
first may have an empty field in front. -/
theorem ethFields_trim {line : Text} (hl : '\n' ∉ line.dropLast) :
    (ethFields line = none ∧ ethFieldsTrim line = none) ∨
    ∃ e ws, ethFieldsTrim line = some (e, ws) ∧
      (ethFields line = some (e, ws) ∨ ethFields line = some (e, [] :: ws)) := by
  cases hs : search ethHead line with
  | none => exact Or.inl (by simp [ethFields, ethFieldsTrim, capture_ethLine,
      capture_ethLineTrim, hs])
  | some x =>
      have hrest : '\n' ∉ x.2.2.dropLast := fun h =>
        hl (mem_dropLast_of_suffix (ethHead_shrinks.search hs) h)
      refine Or.inr ⟨x.2.1, words (x.2.2.takeWhile notNl), ?_, ?_⟩
      · simp [ethFieldsTrim, capture_ethLineTrim, hs, trim_takeWhile hrest,
          splitWs_dropWhile]
      · simp only [ethFields, capture_ethLine, hs, Option.map_some, Option.some_inj,
          Prod.mk.injEq, true_and]
        exact splitWs_words _

/-! ## The line the kernel prints -/

/-- Whitespace inside a line. -/
def isBlank (c : Char) : Bool := isSpace c && c != '\n'

/-- A decimal column. -/
def IsColumn (w : Text) : Prop := w ≠ [] ∧ ∀ c ∈ w, c.isDigit

instance : DecidablePred IsColumn := fun w =>
  decidable_of_iff (w ≠ [] ∧ w.all Char.isDigit = true) (by simp [IsColumn])

/-- One interface line: indentation, `eth` or `em` and a digit, the colon, any
whitespace, and sixteen decimal columns with whitespace between them. -/
structure DevLine where
  lead : Text
  em : Bool
  digit : Char
  gap : Text
  first : Text
  others : List (Text × Text)
  lead_blank : ∀ c ∈ lead, isBlank c
  digit_isDigit : digit.isDigit
  gap_blank : ∀ c ∈ gap, isBlank c
  first_column : IsColumn first
  others_blank : ∀ p ∈ others, p.1 ≠ [] ∧ ∀ c ∈ p.1, isBlank c
  others_column : ∀ p ∈ others, IsColumn p.2
  others_length : others.length = 15

namespace DevLine

variable (l : DevLine)

/-- The sixteen columns. -/
def cols : List Text := l.first :: l.others.map Prod.snd

/-- The digit as a number. -/
def eth : Nat := l.digit.toNat - '0'.toNat

/-- The columns with the whitespace between them. -/
def table : Text := l.first ++ l.others.flatMap fun p => p.1 ++ p.2

/-- The line without its line feed. -/
def text : Text :=
  l.lead ++ ((if l.em then "em".toList else "eth".toList) ++
    l.digit :: ':' :: (l.gap ++ l.table))

/-- The number in column `i`. -/
def col (i : Nat) : ℚ := numify (l.cols.getD i [])

theorem cols_length : l.cols.length = 16 := by
  simp [cols, l.others_length]

end DevLine

theorem IsColumn.not_space {w : Text} (h : IsColumn w) : ∀ c ∈ w, isSpace c = false :=
  fun c hc => not_space_of_isDigit (h.2 c hc)

theorem isSpace_of_isBlank {c : Char} (h : isBlank c) : isSpace c := by
  simp only [isBlank, Bool.and_eq_true] at h
  exact h.1

theorem notNl_of_isBlank {c : Char} (h : isBlank c) : notNl c := by
  simp only [isBlank, Bool.and_eq_true] at h
  exact h.2

/-- Columns separated by whitespace are the words of the text. -/
theorem words_table {w : Text} (hw : IsColumn w) {ps : List (Text × Text)}
    (hsep : ∀ p ∈ ps, p.1 ≠ [] ∧ ∀ c ∈ p.1, isBlank c)
    (hcol : ∀ p ∈ ps, IsColumn p.2) :
    words (w ++ ps.flatMap fun p => p.1 ++ p.2) = w :: ps.map Prod.snd := by
  induction ps generalizing w with
  | nil => simpa using words_token hw.1 hw.not_space
  | cons p ps ih =>
      have hp := hsep p (by simp)
      have hgap : ∀ c ∈ p.1, isSpace c := fun c hc => isSpace_of_isBlank (hp.2 c hc)
      have ih := ih (hcol p (by simp)) (fun q hq => hsep q (by simp [hq]))
        (fun q hq => hcol q (by simp [hq]))
      rw [List.flatMap_cons, List.append_assoc, ← List.append_assoc w,
        words_token_append hw.1 hw.not_space hp.1 hgap, ih]
      rfl

namespace DevLine

variable (l : DevLine)

theorem table_notNl : ∀ c ∈ l.table, notNl c := by
  intro c hc
  rcases List.mem_append.mp hc with hc | hc
  · exact notNl_of_isDigit (l.first_column.2 c hc)
  · obtain ⟨p, hp, hc⟩ := List.mem_flatMap.mp hc
    rcases List.mem_append.mp hc with hc | hc
    · exact notNl_of_isBlank ((l.others_blank p hp).2 c hc)
    · exact notNl_of_isDigit ((l.others_column p hp).2 c hc)

/-- The match starts right after the indentation. -/
theorem search_ethHead (s : Text) :
    search ethHead (l.text ++ s) =
      some (l.lead, l.eth, l.gap ++ l.table ++ s) := by
  have hskip : ∀ c ∈ l.lead, ∀ t, ethHead (c :: t) = [] := by
    intro c hc t
    have hsp := isSpace_of_isBlank (l.lead_blank c hc)
    have hne : 'e' ≠ c := by rintro rfl; exact absurd hsp (by decide)
    simp [ethHead, alt, lit, hne]
  have hhere : ethHead ((if l.em then "em".toList else "eth".toList) ++
      l.digit :: ':' :: (l.gap ++ l.table ++ s)) = [(l.eth, l.gap ++ l.table ++ s)] := by
    cases l.em <;>
      simp [ethHead, alt, lit, l.digit_isDigit, eth]
  have hsplit : l.text ++ s = l.lead ++ ((if l.em then "em".toList else "eth".toList) ++
      l.digit :: ':' :: (l.gap ++ l.table ++ s)) := by
    simp [text]
  rw [hsplit, search_skip_all _ hskip, search_here (by rw [hhere]; rfl)]
  simp

/-- The columns come out as the fields when nothing stands between the colon
and the first of them; otherwise an empty field comes first. -/
theorem ethFields_text :
    ethFields (l.text ++ ['\n']) =
      some (l.eth, if l.gap = [] then l.cols else [] :: l.cols) := by
  have hline : ∀ c ∈ l.gap ++ l.table, notNl c := by
    intro c hc
    rcases List.mem_append.mp hc with hc | hc
    · exact notNl_of_isBlank (l.gap_blank c hc)
    · exact l.table_notNl c hc
  have htake : ((l.gap ++ l.table) ++ ['\n']).takeWhile notNl = l.gap ++ l.table := by
    rw [List.takeWhile_append_of_pos hline]
    simp [notNl]
  have hwords := words_table l.first_column l.others_blank l.others_column
  rw [ethFields, capture_ethLine, search_ethHead, Option.map_some, Option.map_some, htake]
  congr 2
  by_cases hg : l.gap = []
  · obtain ⟨c, w, hw⟩ := List.exists_cons_of_ne_nil l.first_column.1
    have hc : isSpace c = false := l.first_column.not_space c (by simp [hw])
    rw [if_pos hg, hg, List.nil_append]
    have hsplit : splitWs l.table = words l.table := by
      rw [table, hw]
      exact splitWs_of_not_space hc _
    rw [hsplit]
    exact hwords
  · obtain ⟨c, g, hcg⟩ := List.exists_cons_of_ne_nil hg
    have hc : isSpace c := isSpace_of_isBlank (l.gap_blank c (by simp [hcg]))
    have hrest : words (g ++ l.table) = l.cols := by
      rw [words_blank_append (fun d hd => isSpace_of_isBlank (l.gap_blank d (by simp [hcg, hd])))]
      exact hwords
    rw [if_neg hg, hcg, List.cons_append, splitWs_of_space hc (by rw [hrest]; simp [cols]),
      hrest]

/-- After `\:\s*` the columns come out as the fields in any case. -/
theorem ethFieldsTrim_text : ethFieldsTrim (l.text ++ ['\n']) = some (l.eth, l.cols) := by
  have hgap : ∀ c ∈ l.gap, isSpace c := fun c hc => isSpace_of_isBlank (l.gap_blank c hc)
  obtain ⟨c, w, hw⟩ := List.exists_cons_of_ne_nil l.first_column.1
  have hc : isSpace c = false := l.first_column.not_space c (by simp [hw])
  have hdrop : ((l.gap ++ l.table) ++ ['\n']).dropWhile isSpace = l.table ++ ['\n'] := by
    rw [List.append_assoc, List.dropWhile_append_of_pos hgap, table, hw, List.cons_append,
      List.cons_append, List.dropWhile_cons_of_neg (by simp [hc])]
  have htake : (l.table ++ ['\n']).takeWhile notNl = l.table := by
    rw [List.takeWhile_append_of_pos l.table_notNl]
    simp [notNl]
  have hsplit : splitWs l.table = words l.table := by
    rw [table, hw]
    exact splitWs_of_not_space hc _
  rw [ethFieldsTrim, capture_ethLineTrim, search_ethHead, Option.map_some, Option.map_some,
    hdrop, htake, hsplit]
  congr 2
  exact words_table l.first_column l.others_blank l.others_column

/-- A rendered line is one line. -/
theorem newline_notMem_text : '\n' ∉ l.text := by
  have hnl : ¬ notNl '\n' := by decide
  intro h
  simp only [text, List.mem_append, List.mem_cons] at h
  rcases h with h | h | h | h | h | h
  · exact hnl (notNl_of_isBlank (l.lead_blank _ h))
  · cases hem : l.em <;> simp [hem] at h
  · exact hnl (notNl_of_isDigit (h ▸ l.digit_isDigit))
  · exact absurd h (by decide)
  · exact hnl (notNl_of_isBlank (l.gap_blank _ h))
  · exact hnl (l.table_notNl _ h)

end DevLine

end Memrec
