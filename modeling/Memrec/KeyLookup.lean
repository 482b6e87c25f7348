import Memrec.Gplot
import Memrec.Interpolation

/-!
# The value of a key, as the two log readers find it

`kvgrep` cuts a line into tokens and compares the text in front of the first equals sign
with the keys it was given.  `gplot` interpolates the key after `-x` or `-y` into an
expression and searches the line for it.  For a key whose characters all stand for
themselves the two are the same look-up (`plotValue_line`, `kvShown_line`).  A key such
as `g++` or `python2.7` is an expression of its own: `values_agree_iff` says that a
character with another meaning is enough to make them differ on some line.

`kvgrep` takes its keys in one argument, with commas between them, so a key with a comma
in it cannot be asked for there.
-/

namespace Memrec

open Perl Perl.Pat

/-! ## The two readers -/

/-- Characters with a meaning in an expression that `interpolate` does not cover. -/
def special : Text := ['\\', '|', '(', ')', '[', '\x7b', '^', '$']

/-- Characters with a meaning in an expression that it covers. -/
def quantifying : Text := ['.', '*', '+', '?']

/-- What `gplot` finds in a line for the key after `-x` or `-y`, as text.  `other` stands
for the expressions that are not covered; one that does not compile finds nothing. -/
def plotValue (other : Text → Text → Option Text) (k l : Text) : Option Text :=
  if k.any special.contains then other k l
  else do
    let its ← interpolate ⟨.space, none⟩ k
    capture (valuePattern (seq its)) l

/-- What `kvgrep -K` shows for the key `k` of its list, if it prints the line and the
token of the key has a value. -/
def kvShown (keylist k l : Text) : Option Text :=
  let ks := splitChar ',' keylist
  let st := collect ks (splitWs l)
  if ks.length ≤ st.1 then do
    let i ← keyPlace ks k
    let kv ← st.2.getD i none
    if '=' ∈ kv ∧ dropKey kv ≠ [] then some (dropKey kv) else none
  else none

/-- The pairs of a line that the drivers can write. -/
structure LogLine where
  pairs : List (Text × Text)
  nodup : (pairs.map Prod.fst).Nodup
  isKey : ∀ p ∈ pairs, IsKey p.1
  isValue : ∀ p ∈ pairs, IsValue p.2

def LogLine.text (l : LogLine) : Text := l.pairs.flatMap fun p => logToken p ++ [' ']

/-- Both readers find the same value of a key in every line. -/
def SameValues (other : Text → Text → Option Text) (k : Text) : Prop :=
  ∀ l : LogLine, plotValue other k (padded l.text) = kvShown k k (padded l.text)

/-- A key whose characters stand for themselves in both readers. -/
def PlainKey (k : Text) : Prop := ∀ c ∈ k, c ∉ special ∧ c ∉ quantifying ∧ c ≠ ','

theorem any_special {k : Text} (h : ∀ c ∈ k, c ∉ special) : ¬ k.any special.contains := by
  simpa using h

/-- The values are those of which `gplot` makes its point. -/
theorem plotPoint_eq {x y : Text} (hx : ∀ c ∈ x, c ∉ special) (hy : ∀ c ∈ y, c ∉ special)
    {xs ys : List Item} (hxs : interpolate ⟨.space, none⟩ x = some xs)
    (hys : interpolate ⟨.space, none⟩ y = some ys) (other : Text → Text → Option Text) (l : Text) :
    plotPoint (seq xs) (seq ys) l = (plotValue other x l).bind fun vx =>
      (plotValue other y l).bind fun vy => some (numify vx, numify vy) := by
  rw [plotValue, plotValue, if_neg (any_special hx), if_neg (any_special hy), hxs, hys]
  rfl

/-- With `-K` alone, the value that is shown is what is printed. -/
theorem processLine_of_kvShown {k l v : Text} (hk : splitChar ',' k = [k])
    (h : kvShown k k l = some v) :
    processLine ⟨false, false, false, true, none⟩ (splitChar ',' k) l = some v := by
  have hplace : keyPlace [k] k = some 0 := by simp [keyPlace]
  have hlen := length_collect_snd (List.nodup_singleton k) (splitWs l)
  simp only [kvShown, hk, hplace] at h
  split at h
  case isFalse => cases h
  case isTrue hflag =>
    cases hout : (collect [k] (splitWs l)).2 with
    | nil => simp [hout] at h
    | cons x xs =>
        obtain rfl : xs = [] := by simpa [hout] using hlen
        cases x with
        | none => simp [hout] at h
        | some kv =>
            have hv : ('=' ∈ kv ∧ dropKey kv ≠ []) ∧ dropKey kv = v := by
              simpa [hout] using h
            simp only [processLine, hk, hout, Bool.false_eq_true, if_false]
            rw [if_pos hflag]
            simp [hv.2, join, List.intercalate]

/-- Every line of a round is such a line. -/
theorem exists_logLine {s : Settings} (hkeys : s .showkeys ≠ 0) (r : Round) {t : Text}
    (ht : t ∈ formatRound s r.tstamp r.pairs) : ∃ l : LogLine, l.text = t := by
  obtain ⟨chunks, hlines, hflat, -⟩ := formatRound_chunks s r.tstamp r.pairs
  rw [hlines] at ht
  obtain ⟨ch, hch, rfl⟩ := List.mem_map.mp ht
  have hsub : ch.Sublist r.pairs := by
    refine (List.sublist_flatten_of_mem hch).trans ?_
    rw [hflat]
    exact List.filter_sublist
  have hnodup : (ch.map Prod.fst).Nodup := (hsub.map Prod.fst).nodup r.nodup
  have hitems : ch.flatMap (lineItem s) = ch.flatMap fun p => logToken p ++ [' '] := by
    congr 1
    funext p
    exact lineItem_eq hkeys p
  by_cases hxid : s .showxid = 0
  · refine ⟨⟨ch, hnodup, fun p hp => r.isKey p (hsub.subset hp),
      fun p hp => r.isValue p (hsub.subset hp)⟩, ?_⟩
    rw [LogLine.text, lineText, hitems, lineHead, if_neg (by simp [hxid])]
    rfl
  · have hfresh : (xidPair r.tstamp).1 ∉ ch.map Prod.fst := by
      intro h
      obtain ⟨p, hp, heq⟩ := List.mem_map.mp h
      exact r.not_xid p (hsub.subset hp) heq
    refine ⟨⟨xidPair r.tstamp :: ch, ?_, ?_, ?_⟩, ?_⟩
    · rw [List.map_cons]
      exact List.nodup_cons.mpr ⟨hfresh, hnodup⟩
    · intro p hp
      rcases List.mem_cons.mp hp with rfl | hp
      · exact isKey_xid
      · exact r.isKey p (hsub.subset hp)
    · intro p hp
      rcases List.mem_cons.mp hp with rfl | hp
      · exact decimal_not_space r.tstamp
      · exact r.isValue p (hsub.subset hp)
    · rw [LogLine.text, lineText, hitems, lineHead_eq hxid, List.flatMap_cons]

/-! ## A plain key -/

/-- The expression of a plain key is that of `kvgrep -t`. -/
theorem valuePattern_literals (k : Text) :
    valuePattern (seq (⟨.space, none⟩ :: k.map literal)) = xidPattern k := by
  funext s
  have hlit : ∀ t, valuePattern (seq (k.map literal)) t = (lit (k ++ ['=']) >>= fun _ =>
      lazily notNl >>= fun v => cls isSpace >>= fun _ => (pure v : Pat Text)) t := by
    intro t
    rw [seq_literals, ← lit_bind_lit]
    rfl
  cases s with
  | nil => rfl
  | cons c s =>
      by_cases hc : isSpace c
      · rw [xidPattern, cls_bind_cons hc]
        refine Eq.trans ?_ (hlit s)
        simp only [valuePattern, bind_apply, seq, item, Atom.cls, cls_cons, hc, if_true,
          pure_apply, List.flatMap_cons, List.flatMap_nil, List.append_nil]
      · simp [valuePattern, xidPattern, seq, item, Atom.cls, hc]

theorem notMem_quantifying {c : Char} (h : c ∉ quantifying) : Times.ofChar c = none ∧ c ≠ '.' := by
  simp only [quantifying, List.mem_cons, List.not_mem_nil, or_false, not_or] at h
  obtain ⟨hdot, hstar, hplus, hquest⟩ := h
  exact ⟨by simp [Times.ofChar, hstar, hplus, hquest], hdot⟩

theorem plotValue_plain {k : Text} (h : ∀ c ∈ k, c ∉ special ∧ c ∉ quantifying)
    (other : Text → Text → Option Text) (l : Text) :
    plotValue other k l = capture (xidPattern k) l := by
  have hnone := any_special fun c hc => (h c hc).1
  have hitems : interpolate ⟨.space, none⟩ k = some (⟨.space, none⟩ :: k.map literal) :=
    interpolate_plain (fun c hc => notMem_quantifying (h c hc).2) _
  rw [plotValue, if_neg hnone, hitems, ← valuePattern_literals]
  rfl

/-- What both readers should find: the value of the key, unless it is empty. -/
def LogLine.value (l : LogLine) (k : Text) : Option Text :=
  (l.pairs.lookup k).filter (· ≠ [])

/-- The key of a token is what stands before the first blank or equals sign. -/
theorem takeWhile_key {w : Text} (hw : IsKey w) {c : Char} (hc : isSpace c || c == '=')
    (u : Text) : (w ++ c :: u).takeWhile (fun d => !(isSpace d || d == '=')) = w := by
  rw [List.takeWhile_append_of_pos, List.takeWhile_cons_of_neg (by simp [hc]), List.append_nil]
  intro d hd
  simp [hw.2 d hd]

/-- A key with an equals sign stands at the head of a token only if it is its key. -/
theorem lit_logToken {k : Text} (hk : IsKey k) {p : Text × Text} (hp : IsKey p.1) (r : Text) :
    lit (k ++ ['=']) (logToken p ++ ' ' :: r) =
      if p.1 = k ∧ p.2 ≠ [] then [((), p.2 ++ ' ' :: r)] else [] := by
  by_cases hv : p.2 = []
  · have hno : ¬ (k ++ ['=']) <+: (p.1 ++ ' ' :: r) := by
      rintro ⟨u, hu⟩
      rw [List.append_assoc, List.singleton_append] at hu
      have hcut := congrArg (List.takeWhile fun c => !(isSpace c || c == '=')) hu
      rw [takeWhile_key hk (by decide), takeWhile_key hp (by decide)] at hcut
      subst hcut
      simp at hu
    rw [logToken, if_pos hv, if_neg (by simp [hv]), lit_eq_nil hno]
  · have htext : logToken p ++ ' ' :: r = p.1 ++ '=' :: (p.2 ++ ' ' :: r) := by
      rw [logToken, if_neg hv]
      simp
    rw [htext]
    by_cases heq : p.1 = k
    · subst heq
      rw [if_pos ⟨rfl, hv⟩, ← lit_append (p.1 ++ ['=']), List.append_assoc]
      rfl
    · have hno : ¬ (k ++ ['=']) <+: (p.1 ++ '=' :: (p.2 ++ ' ' :: r)) := by
        rintro ⟨u, hu⟩
        rw [List.append_assoc, List.singleton_append] at hu
        have hcut := congrArg (List.takeWhile fun c => !(isSpace c || c == '=')) hu
        rw [takeWhile_key hk (by decide), takeWhile_key hp (by decide)] at hcut
        exact heq hcut.symm
      rw [if_neg (fun h => heq h.1), lit_eq_nil hno]

/-- Only a blank can begin a match. -/
theorem xidPattern_of_not_space (k : Text) {c : Char} (hc : isSpace c = false) (s : Text) :
    xidPattern k (c :: s) = [] := by
  simp [xidPattern, hc]

theorem notNl_of_not_space {c : Char} (h : isSpace c = false) : notNl c := by
  have hne : c ≠ '\n' := by
    rintro rfl
    exact absurd h (by decide)
  simpa [notNl] using hne

/-- The first token of a line decides, or it is skipped. -/
theorem capture_token {k : Text} (hk : IsKey k) {p : Text × Text} (hp : IsKey p.1)
    (hv : IsValue p.2) (rest : Text) :
    capture (xidPattern k) (' ' :: (logToken p ++ padded rest)) =
      if p.1 = k ∧ p.2 ≠ [] then some p.2 else capture (xidPattern k) (padded rest) := by
  have hhead : xidPattern k (' ' :: (logToken p ++ padded rest)) =
      (if p.1 = k ∧ p.2 ≠ [] then [((), p.2 ++ padded rest)] else []).flatMap
      fun r => (lazily notNl >>= fun v => cls isSpace >>= fun _ => (pure v : Pat Text)) r.2 := by
    rw [xidPattern, cls_bind_cons (by decide), bind_apply]
    exact congrArg _ (lit_logToken hk hp _)
  by_cases hfound : p.1 = k ∧ p.2 ≠ []
  · rw [if_pos hfound, List.flatMap_singleton] at hhead
    have hval : (xidPattern k (' ' :: (logToken p ++ padded rest))).head? =
        some (p.2, rest ++ [' ']) := by
      rw [hhead]
      exact head?_lazily_until (fun c hc => notNl_of_not_space (hv c hc)) hv (by decide) _
    rw [if_pos hfound, capture_here hval]
  · rw [if_neg hfound, List.flatMap_nil] at hhead
    rw [if_neg hfound, capture_skip hhead, capture_skip_all]
    intro c hc t
    exact xidPattern_of_not_space k (logToken_not_space hp hv c hc) t

theorem capture_items {k : Text} (hk : IsKey k) {ps : List (Text × Text)}
    (hn : (ps.map Prod.fst).Nodup) (hps : ∀ p ∈ ps, IsKey p.1 ∧ IsValue p.2) :
    capture (xidPattern k) (padded (ps.flatMap fun p => logToken p ++ [' '])) =
      (ps.lookup k).filter (· ≠ []) := by
  induction ps with
  | nil =>
      have hno : ∀ r : Text, lit (k ++ ['=']) (' ' :: r) = [] := by
        intro r
        obtain ⟨c, k', rfl⟩ := List.exists_cons_of_ne_nil hk.1
        have hc : c ≠ ' ' := by
          rintro rfl
          exact absurd (hk.2 ' ' (by simp)).1 (by decide)
        simp [lit, hc]
      have hnil : lit (k ++ ['=']) [] = [] := by simp [lit]
      simp [padded, capture, search, xidPattern, cls, hno, hnil, isSpace]
  | cons p ps ih =>
      obtain ⟨hp, hv⟩ := hps p (by simp)
      rw [List.map_cons, List.nodup_cons] at hn
      have ih := ih hn.2 fun q hq => hps q (by simp [hq])
      have htext : padded ((p :: ps).flatMap fun p => logToken p ++ [' ']) =
          ' ' :: (logToken p ++ padded (ps.flatMap fun p => logToken p ++ [' '])) := by
        simp [padded]
      rw [htext, capture_token hk hp hv, ih, List.lookup_cons]
      by_cases heq : k = p.1
      · subst heq
        rw [beq_self_eq_true]
        by_cases hempty : p.2 = []
        · -- The key does not occur again.
          simp [hempty, lookup_of_notMem hn.1, Option.filter]
        · simp [hempty, Option.filter]
      · rw [beq_eq_false_iff_ne.mpr heq, if_neg (fun h => heq h.1.symm)]

/-- `gplot` finds the value of a plain key. -/
theorem plotValue_line {k : Text} (hk : IsKey k) (h : ∀ c ∈ k, c ∉ special ∧ c ∉ quantifying)
    (other : Text → Text → Option Text) (l : LogLine) :
    plotValue other k (padded l.text) = l.value k := by
  rw [plotValue_plain h]
  exact capture_items hk l.nodup fun p hp => ⟨l.isKey p hp, l.isValue p hp⟩

/-! ## The tokens of a line -/

/-- The token of a key in a line. -/
theorem find_token (l : LogLine) {k : Text} (hk : k ≠ []) :
    ((splitWs (padded l.text)).reverse.find? fun kv => tokenKey kv = k) =
      (l.pairs.lookup k).map fun v => logToken (k, v) := by
  have hwords : words (padded l.text) = l.pairs.map logToken := by
    have hpad := words_padded [l.text]
    rw [List.flatMap_singleton, List.flatMap_singleton] at hpad
    rw [hpad]
    exact words_items fun p hp => ⟨l.isKey p hp, l.isValue p hp⟩
  have hfind : ((l.pairs.map logToken).reverse.find? fun kv => tokenKey kv = k) =
      (l.pairs.lookup k).map fun v => logToken (k, v) := by
    cases hl : l.pairs.lookup k with
    | none =>
        rw [Option.map_none, List.find?_eq_none]
        intro kv hkv
        obtain ⟨p, hp, rfl⟩ := List.mem_map.mp (List.mem_reverse.mp hkv)
        have hne := List.lookup_eq_none_iff.mp hl p hp
        rw [tokenKey_logToken (l.isKey p hp), decide_eq_true_eq]
        intro heq
        exact bne_iff_ne.mp hne heq.symm
    | some v =>
        obtain ⟨u, w, hpairs, -⟩ := List.lookup_eq_some_iff.mp hl
        have hmem : (k, v) ∈ l.pairs := by simp [hpairs]
        have hsome : ((l.pairs.map logToken).reverse.find? fun kv => tokenKey kv = k) ≠ none := by
          rw [ne_eq, List.find?_eq_none]
          intro hnone
          exact hnone _ (List.mem_reverse.mpr (List.mem_map_of_mem hmem))
            (by simpa using tokenKey_logToken (l.isKey _ hmem))
        obtain ⟨kv, hkv⟩ := Option.ne_none_iff_exists'.mp hsome
        obtain ⟨p, hp, rfl⟩ := List.mem_map.mp (List.mem_reverse.mp (List.mem_of_find?_eq_some hkv))
        have hkey : p.1 = k := by
          simpa [tokenKey_logToken (l.isKey p hp)] using List.find?_some hkv
        have hval := lookup_of_nodup l.nodup hp
        rw [hkey, hl, Option.some_inj] at hval
        rw [hkv, Option.map_some, hval, ← hkey]
  rcases splitWs_words (padded l.text) with hsplit | hsplit
  · rw [hsplit, hwords, hfind]
  · have hempty : tokenKey [] ≠ k := fun h => hk h.symm
    rw [hsplit, hwords, List.reverse_cons, List.find?_append, hfind]
    simp [hempty]

theorem dropKey_logToken {k v : Text} (hk : IsKey k) (hv : v ≠ []) :
    '=' ∈ logToken (k, v) ∧ dropKey (logToken (k, v)) = v := by
  have htoken : logToken (k, v) = k ++ '=' :: v := if_neg hv
  have hmem : '=' ∈ logToken (k, v) := by simp [htoken]
  refine ⟨hmem, ?_⟩
  rw [dropKey, if_pos hmem, htoken, List.dropWhile_append_of_pos,
    List.dropWhile_cons_of_neg (by simp)]
  · rfl
  · intro c hc
    simpa using (hk.2 c hc).2

/-- `kvgrep` finds the value of a key without a comma. -/
theorem kvShown_line {k : Text} (hk : IsKey k) (hcomma : ',' ∉ k) (l : LogLine) :
    kvShown k k (padded l.text) = l.value k := by
  have hnodup := List.nodup_singleton k
  have hplace : keyPlace [k] k = some 0 := by simp [keyPlace]
  have htoken : (collect [k] (splitWs (padded l.text))).2.getD 0 none =
      (l.pairs.lookup k).map fun v => logToken (k, v) := by
    rw [getD_collect_snd hnodup _ (i := 0) (k := k) rfl, find_token l hk.1]
  simp only [kvShown, splitChar_of_notMem hk.1 hcomma, hplace, LogLine.value, Option.bind_eq_bind,
    Option.bind_some, htoken]
  cases hl : l.pairs.lookup k with
  | none => simp
  | some v =>
      have hflag : [k].length ≤ (collect [k] (splitWs (padded l.text))).1 := by
        have hfind := find_token l hk.1
        rw [hl, Option.map_some] at hfind
        have hmem := List.mem_reverse.mp (List.mem_of_find?_eq_some hfind)
        have hkey : tokenKey (logToken (k, v)) = k := tokenKey_logToken (p := (k, v)) hk
        rw [collect_fst hnodup]
        exact List.length_pos_of_mem (List.mem_filter.mpr ⟨hmem, by simp [hkey]⟩)
      rw [if_pos hflag]
      by_cases hv : v = []
      · subst hv
        have hno : '=' ∉ logToken (k, []) := fun h => (hk.2 _ h).2 rfl
        simp [hno, Option.filter]
      · obtain ⟨hmem, hdrop⟩ := dropKey_logToken hk hv
        simp [hmem, hdrop, hv, Option.filter]

/-- A key with a comma is not among the keys of `kvgrep`. -/
theorem kvShown_of_comma {k : Text} (hcomma : ',' ∈ k) (l : Text) : kvShown k k l = none := by
  simp [kvShown, keyPlace_of_notMem (notMem_splitChar hcomma)]

/-! ## A key that is an expression -/

/-- The line of one key with the value 1. -/
def oneLine (k : Text) (hk : IsKey k) : LogLine :=
  ⟨[(k, ['1'])], by simp, by simpa using hk, by simp [IsValue, isSpace]⟩

theorem padded_oneLine {k : Text} (hk : IsKey k) :
    padded (oneLine k hk).text = (' ' :: k) ++ '=' :: "1  ".toList := by
  simp [padded, LogLine.text, oneLine, logToken]

theorem value_oneLine {k : Text} (hk : IsKey k) (k' : Text) :
    (oneLine k hk).value k' = if k' = k then some ['1'] else none := by
  by_cases h : k' = k
  · simp [LogLine.value, oneLine, h, Option.filter]
  · simp [LogLine.value, oneLine, h, List.lookup_cons, beq_eq_false_iff_ne.mpr h]

/-- A full stop replaced by a character that no expression matches literally. -/
def plusForDot (c : Char) : Char := if c = '.' then '+' else c

theorem apply_plusForDot {α : Type} {f : Char → α} (h : f '+' = f '.') (c : Char) :
    f (plusForDot c) = f c := by
  unfold plusForDot
  split
  case isTrue hc => rw [hc, h]
  case isFalse => rfl

/-- The atoms of the expression of a key. -/
theorem atom_of_mem {k : Text} {its : List Item} (h : interpolate ⟨.space, none⟩ k = some its)
    {it : Item} (hit : it ∈ its) :
    it.atom = .space ∨ it.atom = .any ∧ '.' ∈ k ∨
      ∃ c ∈ k, c ∉ quantifying ∧ it.atom = .char c := by
  rcases mem_interpolate h it hit with hatom | ⟨c, hc, hq, hatom⟩
  · exact Or.inl hatom
  · by_cases hdot : c = '.'
    · subst hdot
      exact Or.inr (Or.inl ⟨hatom, hc⟩)
    · refine Or.inr (Or.inr ⟨c, hc, ?_, by rw [hatom, Atom.ofChar, if_neg hdot]⟩)
      intro hmem
      simp only [quantifying, List.mem_cons, List.not_mem_nil, or_false] at hmem
      rcases hmem with rfl | rfl | rfl | rfl
      · exact hdot rfl
      all_goals exact absurd hq (by decide)

/-- The expression of a key does not tell a full stop from a plus sign. -/
theorem respects_valuePattern {k : Text} {its : List Item}
    (h : interpolate ⟨.space, none⟩ k = some its) :
    Respects plusForDot (List.map plusForDot) (valuePattern (seq its))
      (valuePattern (seq its)) := by
  have hspace : ∀ c, isSpace (plusForDot c) = isSpace c := apply_plusForDot rfl
  have hany : ∀ c, notNl (plusForDot c) = notNl c := apply_plusForDot rfl
  have hchar : ∀ d, d ∉ quantifying → ∀ c, (plusForDot c == d) = (c == d) := by
    intro d hd
    have hplus : '+' ≠ d := by
      rintro rfl
      exact hd (by decide)
    have hdot : '.' ≠ d := by
      rintro rfl
      exact hd (by decide)
    exact apply_plusForDot (f := (· == d))
      (by rw [beq_eq_false_iff_ne.mpr hplus, beq_eq_false_iff_ne.mpr hdot])
  have hseq : Respects plusForDot id (seq its) (seq its) := by
    refine respects_seq fun it hit c => ?_
    rcases atom_of_mem h hit with hatom | ⟨hatom, -⟩ | ⟨d, -, hd, hatom⟩
    · rw [hatom]
      exact hspace c
    · rw [hatom]
      exact hany c
    · rw [hatom]
      exact hchar d hd c
  have hequals : Respects plusForDot id (lit ['=']) (lit ['=']) := by
    rw [← seq_literals]
    refine respects_seq fun it hit c => ?_
    obtain rfl : it = literal '=' := by simpa using hit
    exact hchar '=' (by decide) c
  exact hseq.bind fun _ => hequals.bind fun _ => (respects_lazily hany).bind fun v =>
    (respects_cls hspace).bind fun _ => respects_pure (List.map plusForDot) v

theorem isKey_map_plusForDot {k : Text} (hk : IsKey k) : IsKey (k.map plusForDot) := by
  refine ⟨by simpa using hk.1, ?_⟩
  intro c hc
  obtain ⟨d, hd, rfl⟩ := List.mem_map.mp hc
  obtain ⟨hspace, heq⟩ := hk.2 d hd
  refine ⟨(apply_plusForDot (f := isSpace) rfl d).trans hspace, ?_⟩
  have := apply_plusForDot (f := (· == '=')) rfl d
  simpa [heq] using this

section Expression

variable {other : Text → Text → Option Text} {k : Text} (hk : IsKey k)
  (hcov : ∀ c ∈ k, c ∉ special) (hcomma : ',' ∉ k) (hsame : SameValues other k)

include hk hcov hcomma hsame

/-- The expression of a key finds what `kvgrep` finds. -/
theorem exists_items : ∃ its, interpolate ⟨.space, none⟩ k = some its ∧
    ∀ l : LogLine, capture (valuePattern (seq its)) (padded l.text) = l.value k := by
  have hnone := any_special hcov
  have hvalue : ∀ l : LogLine, plotValue other k (padded l.text) = l.value k :=
    fun l => (hsame l).trans (kvShown_line hk hcomma l)
  cases hits : interpolate ⟨.space, none⟩ k with
  | none =>
      have hone := hvalue (oneLine k hk)
      rw [plotValue, if_neg hnone, hits, value_oneLine, if_pos rfl] at hone
      cases hone
  | some its =>
      refine ⟨its, rfl, fun l => ?_⟩
      rw [← hvalue l, plotValue, if_neg hnone, hits]
      rfl

/-- With a full stop in the key, `gplot` takes another key for it. -/
theorem dot_notMem : '.' ∉ k := by
  intro hdot
  obtain ⟨its, hits, hvalue⟩ := exists_items hk hcov hcomma hsame
  have hne : k ≠ k.map plusForDot := by
    intro heq
    have hmem : '.' ∈ k.map plusForDot := heq ▸ hdot
    obtain ⟨c, -, hc⟩ := List.mem_map.mp hmem
    by_cases h : c = '.' <;> simp [plusForDot, h] at hc
  have htext : (padded (oneLine k hk).text).map plusForDot =
      padded (oneLine (k.map plusForDot) (isKey_map_plusForDot hk)).text := by
    rw [padded_oneLine, padded_oneLine, List.map_append]
    rfl
  have hcapture := (respects_valuePattern hits).capture (padded (oneLine k hk).text)
  rw [htext, hvalue, hvalue, value_oneLine, value_oneLine, if_pos rfl, if_neg hne] at hcapture
  cases hcapture

/-- A quantifier in the key is not matched, so that `gplot` finds at most the rest of the
key, in the midst of a longer one. -/
theorem quantifying_notMem {q : Char} (hq : q ∈ quantifying) : q ∉ k := by
  intro hmem
  have hdot := dot_notMem hk hcov hcomma hsame
  obtain ⟨its, hits, hvalue⟩ := exists_items hk hcov hcomma hsame
  have hone := hvalue (oneLine k hk)
  rw [value_oneLine, if_pos rfl, padded_oneLine] at hone
  obtain ⟨t, r, ⟨u, hu⟩, hmatch⟩ := exists_suffix_of_capture hone
  have hpat : valuePattern (seq its) t ≠ [] := List.ne_nil_of_mem hmatch
  -- What the key consumed has no equals sign and no quantifier in it.
  have hconsumed : ∃ w r', t = w ++ '=' :: r' ∧ ∀ c ∈ w, isSpace c ∨ c ∈ k ∧ c ∉ quantifying := by
    change (['1'], r) ∈ (seq its >>= fun _ => lit ['='] >>= fun _ => _) t at hmatch
    rw [bind_apply, List.mem_flatMap] at hmatch
    obtain ⟨x, hx, hmatch⟩ := hmatch
    rw [bind_apply, List.mem_flatMap] at hmatch
    obtain ⟨y, hy, -⟩ := hmatch
    obtain ⟨w, rfl, hw⟩ := mem_seq hx
    refine ⟨w, y.2, by rw [mem_lit hy]; rfl, fun c hc => ?_⟩
    obtain ⟨it, hit, hcls⟩ := hw c hc
    rcases atom_of_mem hits hit with hatom | ⟨-, hmem⟩ | ⟨d, hd, hnq, hatom⟩
    · rw [hatom] at hcls
      exact Or.inl hcls
    · exact absurd hmem hdot
    · rw [hatom] at hcls
      obtain rfl : c = d := beq_iff_eq.mp hcls
      exact Or.inr ⟨hd, hnq⟩
  obtain ⟨w, r', rfl, hw⟩ := hconsumed
  have hequals : '=' ∉ ' ' :: k := by
    intro h
    rcases List.mem_cons.mp h with h | h
    · cases h
    · exact (hk.2 _ h).2 rfl
  rw [← List.append_assoc] at hu
  obtain ⟨hsplit, -, hrest⟩ := (List.append_cons_inj_of_notMem hequals (by decide)).mp hu.symm
  have hqw : q ∉ w := by
    intro h
    rcases hw q h with hspace | ⟨-, hnq⟩
    · rw [(hk.2 q hmem).1] at hspace
      cases hspace
    · exact hnq hq
  obtain ⟨u', hu', hkw⟩ : ∃ u', u = ' ' :: u' ∧ k = u' ++ w := by
    cases u with
    | nil =>
        refine absurd ?_ hqw
        rw [List.nil_append] at hsplit
        rw [← hsplit]
        exact List.mem_cons_of_mem _ hmem
    | cons c u' =>
        obtain ⟨rfl, hkw⟩ := List.cons.inj hsplit
        exact ⟨u', rfl, hkw⟩
  have hlonger : IsKey ('a' :: k) := by
    refine ⟨by simp, fun c hc => ?_⟩
    rcases List.mem_cons.mp hc with rfl | hc
    · decide
    · exact hk.2 c hc
  have htail : (w ++ '=' :: r') <:+ padded (oneLine ('a' :: k) hlonger).text := by
    refine ⟨' ' :: 'a' :: u', ?_⟩
    rw [padded_oneLine, hkw, hrest]
    simp
  have hfound := capture_isSome htail hpat
  rw [hvalue, value_oneLine, if_neg (by simp)] at hfound
  cases hfound

end Expression

/-- **The value of a key.**  A key whose characters stand for themselves has the same
value in both readers, in every line.  Among the keys whose expression is covered, those
without a comma have it only then, and a key that is plain but for a comma does not have
it. -/
theorem values_agree_iff (other : Text → Text → Option Text) (k : Text) (hk : IsKey k) :
    (PlainKey k → SameValues other k) ∧
    ((∀ c ∈ k, c ∉ special) → ',' ∉ k → (SameValues other k ↔ PlainKey k)) ∧
    ((∀ c ∈ k, c ∉ special ∧ c ∉ quantifying) → ',' ∈ k → ¬ SameValues other k) := by
  have hplain : PlainKey k → SameValues other k := by
    intro h l
    have hcomma : ',' ∉ k := fun hmem => (h ',' hmem).2.2 rfl
    rw [plotValue_line hk (fun c hc => ⟨(h c hc).1, (h c hc).2.1⟩), kvShown_line hk hcomma]
  refine ⟨hplain, ?_, ?_⟩
  · intro hcov hcomma
    refine ⟨?_, hplain⟩
    intro hsame c hc
    refine ⟨hcov c hc, ?_, ?_⟩
    · intro hq
      exact quantifying_notMem hk hcov hcomma hsame hq hc
    · rintro rfl
      exact hcomma hc
  · intro hchars hcomma hsame
    have hone := hsame (oneLine k hk)
    rw [plotValue_line hk hchars, kvShown_of_comma hcomma, value_oneLine, if_pos rfl] at hone
    cases hone

/-- The process name `python2.7` as a key. -/
theorem values_agree_python : IsKey "python2.7".toList ∧
    (SameValues (fun _ _ => none) "python2.7".toList ↔ PlainKey "python2.7".toList) := by
  have hchars : ("python2.7".toList.all fun c => !special.contains c) = true := by decide
  refine ⟨by decide, ?_⟩
  exact (values_agree_iff (fun _ _ => none) "python2.7".toList (by decide)).2.1
    (by simpa using hchars) (by decide)

/-- `gplot -y g++` does not find the value of the key `g++`. -/
theorem quantified_key_not_found : ¬ SameValues (fun _ _ => none) "g++".toList := by
  intro h
  have hone := h (oneLine "g++".toList (by decide))
  exact absurd hone (by decide)

end Memrec
