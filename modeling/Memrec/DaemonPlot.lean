import Memrec.DaemonLog
import Memrec.KeyLookup

/-!
# The plot of a run

From the polls to the points: `gplot -t xid` on the log file of a daemon.  Unlike
`kvgrep`, `gplot` searches the joined text for `key=`, so that it does not see what
the daemons say about themselves, whatever is plotted.  But nothing is plotted
for the transaction that is open at the end of the file.

* `capture_padded`: the search, word by word;
* `PlottedAlike.message_line`: a message makes no difference;
* `plotPoint_joined`: the point of a round.

They give `daemon_plot`: one point for each round that has lines in the file and
both keys, in order, except for the last of these rounds.
-/

namespace Memrec

open Perl Perl.Pat Runs

/-! ## The search, word by word -/

/-- What a word shows of a key. -/
def valueOf (k w : Text) : Option Text :=
  if (k ++ ['=']) <+: w then some (w.drop (k.length + 1)) else none

theorem valueOf_append (k v : Text) : valueOf k (k ++ '=' :: v) = some v := by
  have hsplit : k ++ '=' :: v = (k ++ ['=']) ++ v := by simp
  have hlen : k.length + 1 = (k ++ ['=']).length := by simp
  rw [valueOf, hsplit, if_pos (List.prefix_append _ _), hlen, List.drop_left]

/-- A word without an equals sign shows nothing. -/
theorem valueOf_eq_none {w : Text} (hw : '=' ∉ w) (k : Text) : valueOf k w = none := by
  apply if_neg
  intro h
  exact hw (h.subset (by simp))

/-- A word of the log shows its own value, unless that is empty. -/
theorem valueOf_logToken {k : Text} (hk : IsKey k) {p : Text × Text} (hp : IsKey p.1) :
    valueOf k (logToken p) = if p.1 = k ∧ p.2 ≠ [] then some p.2 else none := by
  have hlit := lit_logToken hk hp []
  by_cases hfound : p.1 = k ∧ p.2 ≠ []
  · rw [if_pos hfound, logToken, if_neg hfound.2, hfound.1]
    exact valueOf_append k p.2
  · rw [if_neg hfound] at hlit ⊢
    apply if_neg
    intro h
    obtain ⟨u, hu⟩ := h
    rw [← hu, List.append_assoc, lit_append] at hlit
    cases hlit

/-- A stretch without blanks that a blank follows ends a key as it ends a word. -/
theorem prefix_of_prefix_append_space {u w : Text} (hu : ∀ c ∈ u, isSpace c = false) {d : Char}
    (hd : isSpace d) {r : Text} (h : u <+: w ++ d :: r) : u <+: w := by
  rcases List.prefix_or_prefix_of_prefix h (List.prefix_append w (d :: r)) with hin | hout
  · exact hin
  · obtain ⟨v, rfl⟩ := hout
    rw [List.prefix_append_right_inj] at h
    cases v with
    | nil => simp
    | cons c v =>
        obtain rfl : c = d := (List.cons_prefix_cons.mp h).1
        have hc := hu c (by simp)
        rw [hd] at hc
        cases hc

/-- **One word.**  Its value is found, or it is skipped. -/
theorem capture_word {k : Text} (hk : IsKey k) {c : Char} (hc : isSpace c) {w : Text}
    (hw : ∀ d ∈ w, isSpace d = false) {d : Char} (hd : isSpace d) (r : Text) :
    capture (xidPattern k) (c :: (w ++ d :: r)) =
      (valueOf k w).or (capture (xidPattern k) (d :: r)) := by
  have hkey : ∀ e ∈ k ++ ['='], isSpace e = false := by
    intro e he
    rcases List.mem_append.mp he with he | he
    · exact (hk.2 e he).1
    · rw [List.mem_singleton.mp he]
      decide
  by_cases hfound : (k ++ ['=']) <+: w
  · obtain ⟨v, rfl⟩ := hfound
    have hv : ∀ e ∈ v, isSpace e = false := fun e he => hw e (List.mem_append_right _ he)
    have hhead : (xidPattern k (c :: (((k ++ ['=']) ++ v) ++ d :: r))).head? = some (v, r) := by
      rw [xidPattern, cls_bind_cons hc, List.append_assoc, lit_bind_append]
      exact head?_lazily_until (fun e he => notNl_of_not_space (hv e he)) hv hd r
    have hval : valueOf k ((k ++ ['=']) ++ v) = some v := by
      rw [List.append_assoc]
      exact valueOf_append k v
    rw [capture_here hhead, hval]
    rfl
  · have hno : ¬ (k ++ ['=']) <+: w ++ d :: r :=
      fun h => hfound (prefix_of_prefix_append_space hkey hd h)
    have hhead : xidPattern k (c :: (w ++ d :: r)) = [] := by
      rw [xidPattern, cls_bind_cons hc, bind_apply, lit_eq_nil hno]
      rfl
    rw [capture_skip hhead, capture_skip_all, valueOf, if_neg hfound]
    · rfl
    · intro e he t
      exact xidPattern_of_not_space k (hw e he) t

/-- **The search.**  What is found is what the first word shows that shows anything. -/
theorem capture_padded {k : Text} (hk : IsKey k) (s : Text) {c : Char} (hc : isSpace c) :
    capture (xidPattern k) (c :: (s ++ [' '])) = (words s).findSome? (valueOf k) := by
  have hblank : capture (xidPattern k) [' '] = none := by
    have hnil : xidPattern k [] = [] := rfl
    have hspace : xidPattern k [' '] = [] := by
      rw [xidPattern, cls_bind_cons (by decide), bind_apply, lit_eq_nil]
      · rfl
      · simp
    rw [capture_skip hspace, capture, search, hnil]
    rfl
  induction hn : s.length using Nat.strong_induction_on generalizing s c with
  | _ n ih =>
      -- The first word, up to the next blank; it may be empty.
      have hw : ∀ d ∈ s.takeWhile (fun d => !isSpace d), isSpace d = false := by
        intro d hd
        simpa using List.mem_takeWhile_imp hd
      have hsplit := List.takeWhile_append_dropWhile (p := fun d => !isSpace d) (l := s)
      generalize hword : s.takeWhile (fun d => !isSpace d) = w at hw hsplit
      have hwords : (words w).findSome? (valueOf k) = valueOf k w := by
        by_cases hempty : w = []
        · rw [hempty, valueOf, if_neg (by simp)]
          rfl
        · rw [words_token hempty hw, List.findSome?_singleton]
      cases hrest : s.dropWhile (fun d => !isSpace d) with
      | nil =>
          rw [hrest, List.append_nil] at hsplit
          rw [← hsplit, capture_word hk hc hw (by decide), hblank, hwords, Option.or_none]
      | cons d t =>
          have hd : isSpace d := by
            have hhead := List.head?_dropWhile_not (fun d => !isSpace d) s
            rw [hrest] at hhead
            simpa using hhead
          rw [hrest] at hsplit
          have hlen : t.length < n := by
            rw [← hn, ← hsplit, List.length_append, List.length_cons]
            omega
          rw [← hsplit, List.append_assoc, List.cons_append, capture_word hk hc hw hd,
            ih t.length hlen t hd rfl, words_append_space hd, List.findSome?_append, hwords]

/-- The words of a text consist of its characters. -/
theorem mem_of_mem_words {s w : Text} (hw : w ∈ words s) {c : Char} (hc : c ∈ w) : c ∈ s := by
  induction s generalizing w with
  | nil => cases hw
  | cons a s ih =>
      by_cases ha : isSpace a
      · rw [words_space ha] at hw
        exact List.mem_cons_of_mem a (ih hw hc)
      · rw [Bool.not_eq_true] at ha
        cases s with
        | nil =>
            rw [words_last ha, List.mem_singleton] at hw
            rwa [hw] at hc
        | cons d s =>
            by_cases hd : isSpace d
            · rw [words_end ha hd] at hw
              rcases List.mem_cons.mp hw with rfl | hw
              · rw [List.mem_singleton.mp hc]
                exact List.mem_cons_self
              · exact List.mem_cons_of_mem a (ih hw hc)
            · rw [Bool.not_eq_true] at hd
              obtain ⟨v, ws, hv⟩ := List.exists_cons_of_ne_nil (words_ne_nil hd s)
              rw [words_inside ha hd, hv, consHead] at hw
              rcases List.mem_cons.mp hw with rfl | hw
              · rcases List.mem_cons.mp hc with rfl | hc
                · exact List.mem_cons_self
                · exact List.mem_cons_of_mem a (ih (hv ▸ List.mem_cons_self) hc)
              · exact List.mem_cons_of_mem a (ih (hv ▸ List.mem_cons_of_mem v hw) hc)

/-! ## Transactions -/

/-- What the lines of a transaction show of a key. -/
def foundIn (k : Text) (ls : List Text) : Option Text := (ls.flatMap words).findSome? (valueOf k)

/-- The joined text begins and ends with a blank. -/
theorem exists_padded {ls : List Text} (hne : ls ≠ []) :
    ∃ s, ls.flatMap padded = ' ' :: (s ++ [' ']) := by
  induction ls with
  | nil => exact absurd rfl hne
  | cons l ls ih =>
      by_cases hls : ls = []
      · exact ⟨l, by simp [hls, padded]⟩
      · obtain ⟨s, hs⟩ := ih hls
        refine ⟨l ++ ' ' :: ' ' :: s, ?_⟩
        rw [List.flatMap_cons, hs]
        simp [padded]

/-- The search in the joined text. -/
theorem capture_joined {k : Text} (hk : IsKey k) (ls : List Text) :
    capture (xidPattern k) (ls.flatMap padded) = foundIn k ls := by
  by_cases hne : ls = []
  · subst hne
    rfl
  · obtain ⟨s, hs⟩ := exists_padded hne
    have hwords := words_padded ls
    rw [hs, words_space (by decide), words_append_space (by decide), words_nil,
      List.append_nil] at hwords
    rw [hs, capture_padded hk s (by decide), hwords]
    rfl

/-- The lines with an equals sign. -/
def dataOf (ls : List Text) : List Text := ls.filter fun l => '=' ∈ l

theorem dataOf_append (ls ls' : List Text) : dataOf (ls ++ ls') = dataOf ls ++ dataOf ls' :=
  List.filter_append ls ls'

theorem findSome_words_eq_none {l : Text} (hl : '=' ∉ l) (k : Text) :
    (words l).findSome? (valueOf k) = none := by
  rw [List.findSome?_eq_none_iff]
  intro w hw
  apply valueOf_eq_none
  exact fun h => hl (mem_of_mem_words hw h)

/-- The other lines show nothing. -/
theorem foundIn_dataOf (k : Text) (ls : List Text) : foundIn k (dataOf ls) = foundIn k ls := by
  unfold foundIn dataOf
  induction ls with
  | nil => rfl
  | cons l ls ih =>
      rw [List.flatMap_cons, List.findSome?_append]
      by_cases hl : '=' ∈ l
      · rw [List.filter_cons_of_pos (by simpa using hl), List.flatMap_cons,
          List.findSome?_append, ih]
      · rw [List.filter_cons_of_neg (by simpa using hl), ih, findSome_words_eq_none hl,
          Option.none_or]

/-- The point, if both keys have a value. -/
def pointOf (vx vy : Option Text) : Option (ℚ × ℚ) := do
  let vx ← vx
  let vy ← vy
  pure (numify vx, numify vy)

section Reader

variable {x y : Pat Unit} {kx ky : Text} (hkx : IsKey kx) (hky : IsKey ky)
  (hx : valuePattern x = xidPattern kx) (hy : valuePattern y = xidPattern ky)

include hkx hky hx hy

/-- The point of a transaction. -/
theorem plotPoint_joined (ls : List Text) :
    plotPoint x y (ls.flatMap padded) = pointOf (foundIn kx ls) (foundIn ky ls) := by
  unfold plotPoint
  rw [hx, hy, capture_joined hkx, capture_joined hky]
  rfl

theorem plotPoint_dataOf (ls : List Text) :
    plotPoint x y ((dataOf ls).flatMap padded) = plotPoint x y (ls.flatMap padded) := by
  rw [plotPoint_joined hkx hky hx hy, plotPoint_joined hkx hky hx hy, foundIn_dataOf,
    foundIn_dataOf]

end Reader

/-! ## Two logs -/

/-- The states of `gplot` on a log and on its lines with an equals sign: the same
transactions, with more lines in the first. -/
structure PlottedAlike (st st' : Joiner) : Prop where
  match1 : st.match1 = st.lastXid
  match1' : st'.match1 = st'.lastXid
  lastXid : st.lastXid = st'.lastXid
  xtext : ∃ g, st.xtext = g.flatMap padded ∧ st'.xtext = (dataOf g).flatMap padded
  calls : ∃ gs : List (List Text), st.calls = gs.map (·.flatMap padded) ∧
    st'.calls = gs.map fun g => (dataOf g).flatMap padded

namespace PlottedAlike

variable {p : Pat Text} {st st' : Joiner}

theorem joinLine_eq (p : Pat Text) (st : Joiner) (l : Text) :
    joinLine (some p) st (l ++ ['\n']) =
      st.take ((capture p (padded l)).getD st.match1) (padded l) := by
  unfold joinLine
  rw [chomp_line]

/-- **A line in both logs.** -/
theorem data_line (h : PlottedAlike st st') {l : Text} (hl : '=' ∈ l) :
    PlottedAlike (joinLine (some p) st (l ++ ['\n'])) (joinLine (some p) st' (l ++ ['\n'])) := by
  have hdata : dataOf [l] = [l] := List.filter_cons_of_pos (by simpa using hl)
  obtain ⟨g, hg, hg'⟩ := h.xtext
  obtain ⟨gs, hgs, hgs'⟩ := h.calls
  rw [joinLine_eq, joinLine_eq, h.match1, h.match1', ← h.lastXid]
  generalize (capture p (padded l)).getD st.lastXid = xid
  unfold Joiner.take
  rw [← h.lastXid]
  by_cases hx : xid = st.lastXid
  · rw [if_pos hx, if_pos hx]
    refine ⟨hx, hx, rfl, ⟨g ++ [l], ?_, ?_⟩, gs, hgs, hgs'⟩
    · rw [hg, List.flatMap_append, List.flatMap_singleton]
    · rw [hg', dataOf_append, List.flatMap_append, hdata, List.flatMap_singleton]
  · rw [if_neg hx, if_neg hx]
    refine ⟨rfl, rfl, rfl, ⟨[l], ?_, ?_⟩, gs ++ [g], ?_, ?_⟩
    · rw [List.flatMap_singleton]
    · rw [hdata, List.flatMap_singleton]
    · rw [hgs, hg, List.map_append, List.map_singleton]
    · rw [hgs', hg', List.map_append, List.map_singleton]

/-- **A line in one log.** -/
theorem message_line {k : Text} (hk : IsKey k) (h : PlottedAlike st st') {l : Text}
    (hl : '=' ∉ l) : PlottedAlike (joinLine (some (xidPattern k)) st (l ++ ['\n'])) st' := by
  have hdata : dataOf [l] = [] := List.filter_cons_of_neg (by simpa using hl)
  have hnone : capture (xidPattern k) (padded l) = none :=
    (capture_padded hk l (by decide)).trans (findSome_words_eq_none hl k)
  obtain ⟨g, hg, hg'⟩ := h.xtext
  rw [joinLine_eq, hnone, Option.getD_none, h.match1]
  unfold Joiner.take
  rw [if_pos rfl]
  refine ⟨rfl, h.match1', h.lastXid, ⟨g ++ [l], ?_, ?_⟩, h.calls⟩
  · rw [hg, List.flatMap_append, List.flatMap_singleton]
  · rw [hg', dataOf_append, hdata, List.append_nil]

/-- The two runs side by side. -/
theorem foldl_joinLine {k : Text} (hk : IsKey k) (ls : List Text) (h : PlottedAlike st st') :
    PlottedAlike ((ls.map (· ++ ['\n'])).foldl (joinLine (some (xidPattern k))) st)
      (((dataOf ls).map (· ++ ['\n'])).foldl (joinLine (some (xidPattern k))) st') := by
  unfold dataOf
  induction ls generalizing st st' with
  | nil => exact h
  | cons l ls ih =>
      by_cases hl : '=' ∈ l
      · rw [List.filter_cons_of_pos (by simpa using hl)]
        exact ih (h.data_line hl)
      · rw [List.filter_cons_of_neg (by simpa using hl)]
        exact ih (h.message_line hk hl)

end PlottedAlike

/-- **Lines without an equals sign** make no difference to the points of `gplot -t`. -/
theorem gplot_dataOf {x y : Pat Unit} {kx ky k : Text} (hkx : IsKey kx) (hky : IsKey ky)
    (hx : valuePattern x = xidPattern kx) (hy : valuePattern y = xidPattern ky) (hk : IsKey k)
    {ls : List Text} (hls : ∀ l ∈ ls, '\n' ∉ l) :
    (gplot x y (some (xidPattern k)) (unlines ls)).1 =
      (gplot x y (some (xidPattern k)) (unlines (dataOf ls))).1 := by
  have hstart : PlottedAlike ⟨[], [], [], [], []⟩ ⟨[], [], [], [], []⟩ :=
    ⟨rfl, rfl, rfl, ⟨[], rfl, rfl⟩, [], rfl, rfl⟩
  obtain ⟨gs, hgs, hgs'⟩ := (hstart.foldl_joinLine hk ls).calls
  have hcalls : gplotCalls (some (xidPattern k)) (unlines ls) = gs.map (·.flatMap padded) := by
    unfold gplotCalls joinLines unlines
    rw [readlines_unlines hls, hgs]
  have hcalls' : gplotCalls (some (xidPattern k)) (unlines (dataOf ls)) =
      gs.map fun g => (dataOf g).flatMap padded := by
    have hlines := readlines_unlines fun l (hl : l ∈ dataOf ls) => hls l (List.mem_of_mem_filter hl)
    unfold gplotCalls joinLines unlines
    rw [hlines, hgs']
  unfold gplot
  rw [hcalls, hcalls', List.filterMap_map, List.filterMap_map]
  apply List.filterMap_congr
  intro g _
  exact (plotPoint_dataOf hkx hky hx hy g).symm

/-! ## Rounds -/

/-- A round has lines in the log if it has an entry besides its timestamp. -/
def HasLines (r : Int × List (Text × Text)) : Prop := ∃ p ∈ r.2, p.1 ≠ "tstamp".toList

instance : DecidablePred HasLines := fun r =>
  inferInstanceAs (Decidable (∃ p ∈ r.2, p.1 ≠ "tstamp".toList))

/-- What the log shows of a key in a round: `xid` is the timestamp. -/
def shownValue (k : Text) (r : Int × List (Text × Text)) : Option Text :=
  ((xidPair r.1 :: r.2.filter fun p => p.1 ≠ "tstamp".toList).lookup k).filter (· ≠ [])

/-- The point of a round. -/
def roundPoint (kx ky : Text) (r : Int × List (Text × Text)) : Option (ℚ × ℚ) :=
  pointOf (shownValue kx r) (shownValue ky r)

/-- The words of items with different keys. -/
theorem findSome_items {k : Text} (hk : IsKey k) {ps : List (Text × Text)}
    (hn : (ps.map Prod.fst).Nodup) (hps : ∀ p ∈ ps, IsKey p.1) :
    (ps.map logToken).findSome? (valueOf k) = (ps.lookup k).filter (· ≠ []) := by
  induction ps with
  | nil => rfl
  | cons p ps ih =>
      rw [List.map_cons, List.nodup_cons] at hn
      have hrest := ih hn.2 fun q hq => hps q (List.mem_cons_of_mem p hq)
      rw [List.map_cons, List.findSome?_cons, valueOf_logToken hk (hps p List.mem_cons_self),
        List.lookup_cons, hrest]
      by_cases heq : p.1 = k
      · subst heq
        rw [beq_self_eq_true, lookup_of_notMem hn.1]
        by_cases hv : p.2 = [] <;> simp [hv, Option.filter]
      · rw [if_neg fun h => heq h.1, beq_eq_false_iff_ne.mpr (Ne.symm heq)]

/-- The words of a round: the lines begin with the same item, which is found first. -/
theorem findSome_chunks {k : Text} (hk : IsKey k) {x : Text × Text} (hx : IsKey x.1)
    (hv : x.2 ≠ []) {chunks : List (List (Text × Text))} (hne : chunks ≠ [])
    (hn : (chunks.flatten.map Prod.fst).Nodup) (hps : ∀ p ∈ chunks.flatten, IsKey p.1) :
    (chunks.flatMap fun ch => (x :: ch).map logToken).findSome? (valueOf k) =
      ((x :: chunks.flatten).lookup k).filter (· ≠ []) := by
  have hxval := valueOf_logToken hk hx
  rw [List.lookup_cons]
  by_cases heq : x.1 = k
  · obtain ⟨ch, rest, rfl⟩ := List.exists_cons_of_ne_nil hne
    rw [if_pos ⟨heq, hv⟩] at hxval
    rw [List.flatMap_cons, List.map_cons, List.cons_append, List.findSome?_cons, hxval,
      heq, beq_self_eq_true]
    simp [hv, Option.filter]
  · rw [if_neg fun h => heq h.1] at hxval
    rw [beq_eq_false_iff_ne.mpr (Ne.symm heq), ← findSome_items hk hn hps]
    clear hne hn hps
    induction chunks with
    | nil => rfl
    | cons ch rest ih =>
        rw [List.flatMap_cons, List.map_cons, List.cons_append, List.findSome?_cons, hxval,
          List.findSome?_append, ih, List.flatten_cons, List.map_append, List.findSome?_append]

namespace LoggedRound

variable (d : LoggedRound)

theorem lines_ne_nil_iff : d.lines ≠ [] ↔ HasLines d.entry := by
  obtain ⟨chunks, hlines, hflat, hne⟩ :=
    formatRound_chunks d.settings d.round.tstamp d.round.pairs
  unfold lines
  rw [hlines, Ne, List.map_eq_nil_iff]
  constructor
  · intro h
    obtain ⟨ch, rest, rfl⟩ := List.exists_cons_of_ne_nil h
    obtain ⟨p, ps, rfl⟩ := List.exists_cons_of_ne_nil (hne ch List.mem_cons_self)
    have hmem : p ∈ d.round.pairs.filter fun p => p.1 ≠ "tstamp".toList := by
      rw [← hflat]
      simp
    exact ⟨p, (List.mem_filter.mp hmem).1, of_decide_eq_true (List.mem_filter.mp hmem).2⟩
  · intro h hnil
    obtain ⟨p, hp, hkey⟩ := h
    have hmem : p ∈ d.round.pairs.filter fun p => p.1 ≠ "tstamp".toList :=
      List.mem_filter.mpr ⟨hp, decide_eq_true hkey⟩
    rw [← hflat, hnil] at hmem
    cases hmem

/-- **What the lines of a round show.** -/
theorem foundIn_lines {k : Text} (hk : IsKey k) (hne : d.lines ≠ []) :
    foundIn k d.lines = shownValue k d.entry := by
  obtain ⟨chunks, hwords, hflat, hlen⟩ := d.round.words_joined d.showxid d.showkeys
  have hjoined : d.lines.flatMap words = words (d.round.joined d.settings) :=
    (words_padded d.lines).symm
  have hchunks : chunks ≠ [] := by
    intro hnil
    rw [hnil] at hlen
    exact hne (List.eq_nil_of_length_eq_zero hlen.symm)
  unfold foundIn shownValue
  rw [hjoined, hwords, findSome_chunks hk isKey_xid (decimal_ne_nil _) hchunks, hflat]
  · rfl
  · rw [hflat]
    exact d.round.nodup_shown
  · rw [hflat]
    intro p hp
    exact d.round.isKey p (d.round.mem_pairs_of_mem_shown hp)

/-- The reader finds the timestamp in each line. -/
theorem xidOf_line {l : Text} (hl : l ∈ d.lines) :
    xidOf (xidPattern "xid".toList) (l ++ ['\n']) = some (decimal d.round.tstamp) := by
  obtain ⟨chunks, hlines, -, -⟩ :=
    formatRound_chunks d.settings d.round.tstamp d.round.pairs
  unfold lines at hl
  rw [hlines] at hl
  obtain ⟨ch, -, rfl⟩ := List.mem_map.mp hl
  unfold xidOf
  rw [chomp_line]
  exact capture_xid d.showxid d.showkeys d.round.tstamp ch

end LoggedRound

/-! ## The points of the rounds -/

/-- Rounds without lines are not in the file. -/
theorem flatMap_lines_filter (ds : List LoggedRound) :
    (ds.filter fun d => d.lines ≠ []).flatMap LoggedRound.lines =
      ds.flatMap LoggedRound.lines := by
  induction ds with
  | nil => rfl
  | cons d ds ih =>
      by_cases hd : d.lines = []
      · rw [List.filter_cons_of_neg (by simpa using hd), ih, List.flatMap_cons, hd,
          List.nil_append]
      · rw [List.filter_cons_of_pos (by simpa using hd), List.flatMap_cons, ih,
          List.flatMap_cons]

/-- **Rounds and transactions.**  All but the last are handed on. -/
theorem gplotCalls_rounds {ds : List LoggedRound} (hne : ∀ d ∈ ds, d.lines ≠ [])
    (htime : (ds.map fun d => d.round.tstamp).IsChain (· < ·)) :
    (gplotCalls (some (xidPattern "xid".toList))
      (unlines (ds.flatMap LoggedRound.lines))).filter (· ≠ []) =
      ds.dropLast.map fun d => d.lines.flatMap padded := by
  -- The groups of the loop are the rounds.
  let gs : List (Text × List Text) :=
    ds.map fun d => (decimal d.round.tstamp, d.lines.map (· ++ ['\n']))
  have hgs : ∀ g ∈ gs, g.2 ≠ [] ∧
      ∀ l ∈ g.2, xidOf (xidPattern "xid".toList) l = some g.1 := by
    intro g hg
    obtain ⟨d, hd, rfl⟩ := List.mem_map.mp hg
    refine ⟨fun h => hne d hd (List.map_eq_nil_iff.mp h), ?_⟩
    intro l' hl'
    obtain ⟨l, hl, rfl⟩ := List.mem_map.mp hl'
    exact d.xidOf_line hl
  have hchain : (gs.map Prod.fst).IsChain (· ≠ ·) := by
    rw [List.map_map]
    apply List.Pairwise.isChain
    have hlt := List.isChain_iff_pairwise.mp htime
    rw [List.pairwise_map] at hlt ⊢
    exact hlt.imp fun {d d'} hdd heq => hdd.ne (decimal_injective heq)
  have hfile : readlines (unlines (ds.flatMap LoggedRound.lines)) =
      (gs.map Prod.snd).flatten := by
    unfold unlines
    rw [readlines_unlines, List.map_map, List.map_flatMap, List.flatMap_def]
    · rfl
    · intro l hl
      obtain ⟨d, -, hl⟩ := List.mem_flatMap.mp hl
      exact d.newline_notMem hl
  have htext : ∀ d : LoggedRound,
      joinedText (d.lines.map (· ++ ['\n'])) = d.lines.flatMap padded := by
    intro d
    unfold joinedText
    rw [List.flatMap_map]
    simp only [chomp_line]
  unfold gplotCalls joinLines
  rw [hfile]
  by_cases hempty : gs = []
  · rw [hempty, List.map_eq_nil_iff.mp hempty]
    rfl
  · rw [(foldl_joinLine_runs hgs hchain rfl fun _ _ _ => rfl).2.2 hempty, ← List.map_dropLast,
      List.map_map]
    exact List.map_congr_left fun d _ => htext d

section Points

variable {x y : Pat Unit} {kx ky : Text} (hkx : IsKey kx) (hky : IsKey ky)
  (hx : valuePattern x = xidPattern kx) (hy : valuePattern y = xidPattern ky)

include hkx hky hx hy

/-- The point of a round. -/
theorem plotPoint_round (d : LoggedRound) (hne : d.lines ≠ []) :
    plotPoint x y (d.lines.flatMap padded) = roundPoint kx ky d.entry := by
  rw [plotPoint_joined hkx hky hx hy, d.foundIn_lines hkx hne, d.foundIn_lines hky hne]
  rfl

/-- Empty texts have no point. -/
theorem filterMap_plotPoint (ls : List Text) :
    (ls.filter (· ≠ [])).filterMap (plotPoint x y) = ls.filterMap (plotPoint x y) := by
  have hnil : plotPoint x y [] = none := plotPoint_joined hkx hky hx hy []
  rw [List.filterMap_filter]
  apply List.filterMap_congr
  intro l _
  by_cases hl : l = []
  · simp [hl, hnil]
  · simp [hl]

/-- **Rounds and points.** -/
theorem gplot_rounds (ds : List LoggedRound)
    (htime : (ds.map fun d => d.round.tstamp).IsChain (· < ·)) :
    (gplot x y (some (xidPattern "xid".toList)) (unlines (ds.flatMap LoggedRound.lines))).1 =
      ((ds.map LoggedRound.entry).filter HasLines).dropLast.filterMap (roundPoint kx ky) := by
  have hpresent : ∀ d ∈ ds.filter fun d => d.lines ≠ [], d.lines ≠ [] :=
    fun d hd => of_decide_eq_true (List.mem_filter.mp hd).2
  have hchain : ((ds.filter fun d => d.lines ≠ []).map fun d => d.round.tstamp).IsChain
      (· < ·) := by
    rw [List.isChain_iff_pairwise] at htime ⊢
    exact htime.sublist (List.filter_sublist.map _)
  have hentries : (ds.map LoggedRound.entry).filter HasLines =
      (ds.filter fun d => d.lines ≠ []).map LoggedRound.entry := by
    rw [List.filter_map]
    congr 2
    funext d
    exact decide_eq_decide.mpr d.lines_ne_nil_iff.symm
  unfold gplot
  rw [← filterMap_plotPoint hkx hky hx hy, ← flatMap_lines_filter,
    gplotCalls_rounds hpresent hchain, hentries, ← List.map_dropLast, List.filterMap_map,
    List.filterMap_map]
  apply List.filterMap_congr
  intro d hd
  exact plotPoint_round hkx hky hx hy d (hpresent d (List.mem_of_mem_dropLast hd))

/-- The last round may be cut off: without a line, it is not even the one that is lost. -/
theorem gplot_rounds_cut {ds : List LoggedRound} {d : LoggedRound} {ls : List Text}
    (htime : ((ds ++ [d]).map fun d => d.round.tstamp).IsChain (· < ·)) (hls : ls <+: d.lines) :
    (gplot x y (some (xidPattern "xid".toList))
      (unlines (ds.flatMap LoggedRound.lines ++ ls))).1 ∈
      [(((ds ++ [d]).map LoggedRound.entry).filter HasLines).dropLast.filterMap
          (roundPoint kx ky),
        ((ds.map LoggedRound.entry).filter HasLines).dropLast.filterMap (roundPoint kx ky)] := by
  obtain ⟨r', rfl, htstamp, -⟩ := d.round.exists_cut d.settings hls
  let d' : LoggedRound := ⟨d.settings, r', d.showxid, d.showkeys⟩
  have hprinted := gplot_rounds hkx hky hx hy (ds ++ [d'])
    (by simpa [d', htstamp] using htime)
  rw [List.flatMap_append, List.flatMap_singleton] at hprinted
  change (gplot x y _ (unlines (ds.flatMap LoggedRound.lines ++ d'.lines))).1 ∈ _
  rw [hprinted, List.map_append, List.map_append, List.filter_append, List.filter_append,
    List.map_singleton, List.map_singleton]
  by_cases hd' : d'.lines = []
  · have hnone : ¬ HasLines d'.entry := fun h => d'.lines_ne_nil_iff.mpr h hd'
    refine List.mem_cons_of_mem _ (List.mem_singleton.mpr ?_)
    rw [List.filter_cons_of_neg (by simpa using hnone), List.filter_nil, List.append_nil]
  · have hd : d.lines ≠ [] := fun h => hd' (List.prefix_nil.mp (h ▸ hls))
    refine List.mem_cons.mpr (Or.inl ?_)
    rw [List.filter_cons_of_pos (by simpa using d'.lines_ne_nil_iff.mp hd'),
      List.filter_cons_of_pos (by simpa using d.lines_ne_nil_iff.mp hd), List.filter_nil,
      List.dropLast_concat, List.dropLast_concat]

end Points

/-! ## The file of a run -/

/-- The expression of a plain key. -/
theorem valuePattern_interpolate {k : Text} (hk : ∀ c ∈ k, c ∉ special ∧ c ∉ quantifying)
    {its : List Item} (hits : interpolate ⟨.space, none⟩ k = some its) :
    valuePattern (seq its) = xidPattern k := by
  rw [interpolate_plain (fun c hc => notMem_quantifying (hk c hc).2) ⟨.space, none⟩] at hits
  rw [← valuePattern_literals, Option.some.inj hits]

/-- The daemons do not use equals signs when they speak about themselves. -/
theorem equals_notMem_message {sc : Script} {l : Text} (hl : l ∈ sc.messages) : '=' ∉ l := by
  have hall : ∀ l ∈ sc.messages, '=' ∉ l := by cases sc <;> decide
  exact hall l hl

theorem LoggedRound.equals_mem (d : LoggedRound) {l : Text} (hl : l ∈ d.lines) : '=' ∈ l := by
  by_contra hno
  have hxid := d.xidOf_line hl
  unfold xidOf at hxid
  rw [chomp_line, show padded l = ' ' :: (l ++ [' ']) from rfl,
    capture_padded isKey_xid l (by decide), findSome_words_eq_none hno] at hxid
  cases hxid

/-- **The log of a daemon, plotted.**  Take any run of the collector as for `daemon_log`.
For keys that stand for themselves in an expression, `gplot -t xid -x kx -y ky` plots one
point for each round with lines in the file that shows a value of both keys, in order,
but for the last of these rounds, and nothing else.  The key `xid` shows the
timestamp, and `tstamp` shows nothing. -/
theorem daemon_plot (sc : Script) (single : Bool) (st : Settings) (ins outs : List Obj)
    {tr : List (Label Obj)} {s : Collector Obj}
    (run : Run (DaemonStep sc single) (boot sc st ins outs) tr s)
    (hxid : st .showxid = 1) (hkeys : st .showkeys = 1)
    (hcfg : ∀ e ∈ events tr, KeepsFormat e) (hstore : ∀ e ∈ events tr, StoresWell e)
    (htime : ((roundsOf (events tr)).map Prod.fst).IsChain (· < ·))
    {kx ky : Text} (hkx : IsKey kx ∧ ∀ c ∈ kx, c ∉ special ∧ c ∉ quantifying)
    (hky : IsKey ky ∧ ∀ c ∈ ky, c ∉ special ∧ c ∉ quantifying) {xs ys : List Item}
    (hxs : interpolate ⟨.space, none⟩ kx = some xs)
    (hys : interpolate ⟨.space, none⟩ ky = some ys) :
    (finished (events tr) = (roundsOf (events tr)).length ∧
      (gplot (seq xs) (seq ys) (some (xidPattern "xid".toList)) (unlines (sc.logLines tr))).1 =
        ((roundsOf (events tr)).filter HasLines).dropLast.filterMap (roundPoint kx ky)) ∨
    (finished (events tr) + 1 = (roundsOf (events tr)).length ∧
      (s.pc.todo ≠ none ∨ s.pc = .exited) ∧
      (gplot (seq xs) (seq ys) (some (xidPattern "xid".toList)) (unlines (sc.logLines tr))).1 ∈
        [((roundsOf (events tr)).filter HasLines).dropLast.filterMap (roundPoint kx ky),
          ((roundsOf (events tr)).dropLast.filter HasLines).dropLast.filterMap
            (roundPoint kx ky)]) := by
  have hx := valuePattern_interpolate hkx.2 hxs
  have hy := valuePattern_interpolate hky.2 hys
  obtain ⟨ds, hds, hw⟩ := (logging_run (run_events run) hxid hkeys hcfg hstore).rounds
  have hlines : ∀ l ∈ sc.logLines tr, '\n' ∉ l := fun l hl => hw.newline_notMem hl
  have hdata : dataOf (sc.logLines tr) = dataLines (events tr) := by
    apply filter_logLines
    · intro l hl
      simpa using equals_notMem_message hl
    · intro l hl
      obtain ⟨d, -, hl⟩ := hw.mem_lines hl
      exact decide_eq_true (d.equals_mem hl)
  have htimes : (ds.map LoggedRound.entry).map Prod.fst = ds.map fun d => d.round.tstamp := by
    rw [List.map_map]
    rfl
  rw [hds, htimes] at htime
  rw [gplot_dataOf hkx.1 hky.1 hx hy isKey_xid hlines, hdata, hds, List.length_map]
  rcases hw with ⟨-, hlen, hall⟩ | ⟨ds', d, ls, todo, rfl, hlen, hd, hall, hpc⟩
  · left
    rw [hall]
    exact ⟨hlen.symm, gplot_rounds hkx.1 hky.1 hx hy ds htime⟩
  · right
    refine ⟨hlen.symm, ?_, ?_⟩
    · rcases hpc with hpc | hpc
      · left
        rw [hpc]
        exact Option.some_ne_none _
      · exact Or.inr hpc
    · rw [hall, ← List.map_dropLast, List.dropLast_concat]
      apply gplot_rounds_cut hkx.1 hky.1 hx hy htime
      rw [hd]
      exact List.prefix_append ls todo

/-- One round of `dlogger`, and the way to the next; the timer is woken in between. -/
def firstRound : List (Label Unit) :=
  [.main .installUsr2, .main .installInt, .main .initFlag, .main (.cycle 1 [()] []),
    .main .leaveFor, .main (.start 7), .main (.poll () [("load".toList, "2".toList)]),
    .main (.keylist [("tstamp".toList, "7".toList), ("load".toList, "2".toList)]),
    .main (.write "xid=7 load=2 ".toList), .main .cycleDone, .handler1, .main .tick,
    .main .consume, .main .testFlag]

/-- The state before the next round. -/
def betweenRounds : Collector Unit :=
  { boot .dlogger Script.dlogger.defaults [()] [] with
    pc := .head, itr := 1, tstamp := 7, usr2 := true, int := true,
    data := [("tstamp".toList, "7".toList), ("load".toList, "2".toList)] }

/-- The next round. -/
def secondRound : List (Label Unit) :=
  [.main (.cycle 1 [()] []), .main .leaveFor, .main (.start 9),
    .main (.poll () [("load".toList, "3".toList)]),
    .main (.keylist [("load".toList, "3".toList), ("tstamp".toList, "9".toList)]),
    .main (.write "xid=9 load=3 ".toList), .main .cycleDone]

theorem run_firstRound : Run (DaemonStep .dlogger false)
    (boot .dlogger Script.dlogger.defaults [()] []) firstRound betweenRounds := by
  have run : ∃ s, Run (DaemonStep .dlogger false)
      (boot .dlogger Script.dlogger.defaults [()] []) firstRound s ∧ s = betweenRounds :=
    ⟨_, ((((((((((((((Run.nil _).snoc (.main (.installUsr2 rfl))).snoc
      (.main (.installInt rfl))).snoc (.main (.initFlag rfl))).snoc (.main (.cycle rfl))).snoc
      (.main (.leaveFor rfl id))).snoc (.main (.startOuter 7 rfl))).snoc
      (.main (.pollOuter _ rfl))).snoc
      (.main (.keylist _ rfl ⟨by decide, fun h => absurd rfl h⟩))).snoc
      (.main (.write rfl))).snoc (.main (.cycleDone rfl))).snoc (.handler1 rfl)).snoc
      (.main (.tick rfl))).snoc (.main (.consumeOuter rfl (by decide)))).snoc
      (.main (.testFlag rfl)), rfl⟩
  obtain ⟨s, run, rfl⟩ := run
  exact run

theorem run_secondRound :
    ∃ s, Run (DaemonStep .dlogger false) betweenRounds secondRound s :=
  ⟨_, (((((((Run.nil _).snoc (.main (.cycle rfl))).snoc (.main (.leaveFor rfl id))).snoc
    (.main (.startOuter 9 rfl))).snoc (.main (.pollOuter _ rfl))).snoc
    (.main (.keylist _ rfl ⟨by decide, fun h => absurd rfl h⟩))).snoc
    (.main (.write rfl))).snoc (.main (.cycleDone rfl))⟩

/-- The load over the time: the second round is not plotted. -/
theorem daemon_plot_two :
    (gplot (seq (⟨.space, none⟩ :: "xid".toList.map literal))
      (seq (⟨.space, none⟩ :: "load".toList.map literal)) (some (xidPattern "xid".toList))
      (unlines (Script.dlogger.logLines (firstRound ++ secondRound)))).1 = [(7, 2)] := by
  obtain ⟨s, hsecond⟩ := run_secondRound
  have hcfg : ∀ e ∈ events (firstRound ++ secondRound), KeepsFormat e := by
    intro e he file ins outs hexec
    subst hexec
    simp [events, firstRound, secondRound, Label.event] at he
  have hstore : ∀ e ∈ events (firstRound ++ secondRound), StoresWell e := by
    intro e he o st hpoll
    subst hpoll
    have hst : st = [("load".toList, "2".toList)] ∨ [("load".toList, "3".toList)] = st := by
      simpa [events, firstRound, secondRound, Label.event] using he
    rcases hst with rfl | rfl <;> decide
  have hplain : (["xid".toList, "load".toList].all fun k => decide (IsKey k) &&
      k.all fun c => !special.contains c && !quantifying.contains c) = true := by
    decide
  have hkeys : ∀ k ∈ ["xid".toList, "load".toList],
      IsKey k ∧ ∀ c ∈ k, c ∉ special ∧ c ∉ quantifying := by
    intro k hk
    simpa using List.all_eq_true.mp hplain k hk
  rcases daemon_plot _ _ _ _ _ (run_firstRound.trans hsecond) rfl rfl hcfg hstore (by decide)
    (hkeys _ (.head _)) (hkeys _ (.tail _ (.head _))) rfl rfl with ⟨-, hplot⟩ | ⟨hcount, -⟩
  · exact hplot.trans (by decide +kernel)
  · exact absurd hcount (by decide)

end Memrec
