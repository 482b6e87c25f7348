import Memrec.LogWriter

/-!
# How a round is split into lines

The loop of the log writer has three places where it closes a line: before a long value,
after a long value or a full line, and at the end.  All three share the buffer and its
counter.

`SplitInv` says what holds between two items: every closed line has at most `$linesz`
items and a long value has its line for itself, and the open line has room for one more
item and no long value.  `lines_of_round` is what follows for a whole round.
-/

namespace Memrec

open Perl

/-! ## The invariant of the loop -/

/-- No line is too long, and a long value stands alone. -/
def FitLine (s : Settings) (ch : List (Text × Text)) : Prop :=
  (ch.length : Int) ≤ s .linesz ∧ ∀ p ∈ ch, isLong p.2 → ch = [p]

/-- The open line has room for one more item, and no long value. -/
def OpenLine (s : Settings) (cur : List (Text × Text)) : Prop :=
  (cur.length : Int) < s .linesz ∧ ∀ p ∈ cur, isLong p.2 = false

/-- **The invariant of the loop**, with the sizes of the lines. -/
structure SplitInv (s : Settings) (tstamp : Int) (seen : List (Text × Text))
    (done : List (List (Text × Text))) (cur : List (Text × Text)) (st : WriterState) : Prop where
  lines : WriterInv s tstamp seen done cur st
  fit : ∀ ch ∈ done, FitLine s ch
  room : OpenLine s cur

theorem OpenLine.fit {s : Settings} {cur : List (Text × Text)} (h : OpenLine s cur) :
    FitLine s cur := by
  refine ⟨h.1.le, ?_⟩
  intro p hp hlong
  rw [h.2 p hp] at hlong
  cases hlong

theorem openLine_nil {s : Settings} (h : 1 ≤ s .linesz) : OpenLine s [] := by
  refine ⟨?_, by simp⟩
  simp only [List.length_nil]
  omega

namespace SplitInv

variable {s : Settings} {tstamp : Int} {seen : List (Text × Text)}
  {done : List (List (Text × Text))} {cur : List (Text × Text)} {st : WriterState}

/-- Closing the open run. -/
theorem close (h : WriterInv s tstamp seen done cur st) (hfit : ∀ ch ∈ done, FitLine s ch)
    (hcur : cur ≠ []) (hlast : FitLine s cur) (hlinesz : 1 ≤ s .linesz) :
    SplitInv s tstamp seen (done ++ [cur]) [] (st.write.restart s tstamp) where
  lines := h.close hcur
  fit := by
    intro ch hch
    rcases List.mem_append.mp hch with hch | hch
    · exact hfit ch hch
    · rw [List.mem_singleton.mp hch]
      exact hlast
  room := openLine_nil hlinesz

/-- Before a long value the open line is empty. -/
theorem makeRoom (h : SplitInv s tstamp seen done cur st) (hlinesz : 1 ≤ s .linesz) (v : Text) :
    ∃ done' cur', SplitInv s tstamp seen done' cur' (st.makeRoom s tstamp v) ∧
      (isLong v → cur' = []) := by
  unfold WriterState.makeRoom
  by_cases hlong : isLong v
  · rw [if_pos hlong]
    by_cases hn : st.n > 0
    · rw [if_pos hn]
      have hcur : cur ≠ [] := by
        rw [h.lines.n] at hn
        exact List.length_pos_iff.mp hn
      exact ⟨done ++ [cur], [], close h.lines h.fit hcur h.room.fit hlinesz, fun _ => rfl⟩
    · rw [if_neg hn]
      obtain rfl : cur = [] := by
        rw [h.lines.n] at hn
        exact List.length_eq_zero_iff.mp (by omega)
      refine ⟨done, [], ⟨⟨h.lines.out, ?_, rfl, h.lines.seen, h.lines.nonempty⟩, h.fit, h.room⟩,
        fun _ => rfl⟩
      simp [WriterState.restart, lineText]
  · rw [if_neg hlong]
    exact ⟨done, cur, h, fun hv => absurd hv hlong⟩

/-- **One item.** -/
theorem step (h : SplitInv s tstamp seen done cur st) (hlinesz : 1 ≤ s .linesz)
    (p : Text × Text) :
    ∃ done' cur', SplitInv s tstamp (seen ++ [p]) done' cur' (formatItem s tstamp st p) := by
  obtain ⟨done₁, cur₁, h₁, hempty⟩ := h.makeRoom hlinesz p.2
  have h₂ := h₁.lines.add p
  have hn : ((st.makeRoom s tstamp p.2).add s p).n = (cur₁ ++ [p]).length := h₂.n
  have hlen : (cur₁ ++ [p]).length = cur₁.length + 1 := by simp
  have hroom := h₁.room.1
  unfold formatItem WriterState.flush
  by_cases hlong : isLong p.2
  · -- a long value closes its own line
    rw [if_pos (Or.inr hlong)]
    have hcur := hempty hlong
    subst hcur
    refine ⟨_, _, close h₂ h₁.fit (by simp) ⟨?_, ?_⟩ hlinesz⟩
    · simpa using hlinesz
    · intro q hq _
      obtain rfl : q = p := by simpa using hq
      rfl
  · have hshort : ∀ q ∈ cur₁ ++ [p], isLong q.2 = false := by
      intro q hq
      rcases List.mem_append.mp hq with hq | hq
      · exact h₁.room.2 q hq
      · rw [List.mem_singleton.mp hq]
        simpa using hlong
    by_cases hfull : (((st.makeRoom s tstamp p.2).add s p).n : Int) = s .linesz
    · rw [if_pos (Or.inl hfull)]
      refine ⟨_, _, close h₂ h₁.fit (by simp) ⟨?_, ?_⟩ hlinesz⟩
      · rw [← hn, hfull]
      · intro q hq hq'
        rw [hshort q hq] at hq'
        cases hq'
    · rw [if_neg (by simp [hfull, hlong])]
      refine ⟨_, _, h₂, h₁.fit, ?_, hshort⟩
      rw [hn] at hfull
      push_cast [hlen] at hfull ⊢
      omega

end SplitInv

/-- The lines of a round and the items in each. -/
theorem formatRound_fit (s : Settings) (hlinesz : 1 ≤ s .linesz) (tstamp : Int)
    (pairs : List (Text × Text)) :
    ∃ chunks : List (List (Text × Text)),
      formatRound s tstamp pairs = chunks.map (lineText s tstamp) ∧
      chunks.flatten = (pairs.filter fun p => p.1 ≠ "tstamp".toList) ∧
      ∀ ch ∈ chunks, ch ≠ [] ∧ FitLine s ch := by
  obtain ⟨done, cur, st, h, hlines⟩ := formatRound_inv (I := SplitInv s tstamp)
    (fun _ _ _ _ h => h.lines)
    ⟨⟨rfl, by simp [lineText], rfl, rfl, by simp⟩, by simp, openLine_nil hlinesz⟩
    (fun _ _ _ _ p h => h.step hlinesz p) pairs
  refine ⟨_, hlines, ?_⟩
  split
  case isTrue hcur =>
    subst hcur
    exact ⟨(List.append_nil _).symm.trans h.lines.seen,
      fun ch hch => ⟨h.lines.nonempty ch hch, h.fit ch hch⟩⟩
  case isFalse hcur =>
    have hclose := SplitInv.close h.lines h.fit hcur h.room.fit hlinesz
    exact ⟨(List.append_nil _).symm.trans hclose.lines.seen,
      fun ch hch => ⟨hclose.lines.nonempty ch hch, hclose.fit ch hch⟩⟩

/-! ## The head of a line -/

/-- How often a text occurs in another one. -/
def timesIn (w l : Text) : Nat := l.tails.countP fun t => w.isPrefixOf t

/-- Nothing starts where its first character is not. -/
theorem timesIn_skip {x : Char} {w u : Text} (hu : x ∉ u) (l : Text) :
    timesIn (x :: w) (u ++ l) = timesIn (x :: w) l := by
  induction u with
  | nil => rfl
  | cons c u ih =>
      have hc : x ≠ c := fun h => hu (by simp [h])
      have ih := ih fun h => hu (List.mem_cons_of_mem _ h)
      unfold timesIn at ih ⊢
      rw [List.cons_append, List.tails_cons, List.countP_cons, ih]
      simp [List.isPrefixOf, hc]

/-- A text whose first character is not repeated occurs at the head, and behind it. -/
theorem timesIn_append {x : Char} {w : Text} (hw : x ∉ w) (l : Text) :
    timesIn (x :: w) (x :: w ++ l) = 1 + timesIn (x :: w) l := by
  have hskip := timesIn_skip (w := w) hw l
  have hhead : (x :: w).isPrefixOf (x :: (w ++ l)) = true := by
    rw [List.isPrefixOf_iff_prefix]
    exact ⟨l, rfl⟩
  unfold timesIn at hskip ⊢
  rw [List.cons_append, List.tails_cons, List.countP_cons, hskip, hhead]
  simp [Nat.add_comm]

/-- `"xid=$tstamp "`. -/
def xidHead (tstamp : Int) : Text := "xid=".toList ++ decimal tstamp ++ [' ']

theorem x_notMem_tail (tstamp : Int) : 'x' ∉ "id=".toList ++ decimal tstamp ++ [' '] := by
  have hdigits : 'x' ∉ decimal tstamp := notMem_decimal (by decide) (by decide) tstamp
  rw [List.mem_append, List.mem_append, not_or, not_or]
  exact ⟨⟨by decide, hdigits⟩, by decide⟩

/-- With `$showxid` a line starts with the timestamp, and says it once more for each time
that its items say it. -/
theorem timesIn_lineText {s : Settings} (hxid : s .showxid ≠ 0) (tstamp : Int)
    (ch : List (Text × Text)) :
    xidHead tstamp <+: lineText s tstamp ch ∧
      timesIn (xidHead tstamp) (lineText s tstamp ch) =
        1 + timesIn (xidHead tstamp) (ch.flatMap (lineItem s)) := by
  have hhead : lineHead s tstamp = xidHead tstamp := if_pos hxid
  rw [lineText, hhead]
  exact ⟨List.prefix_append _ _, timesIn_append (x_notMem_tail tstamp) _⟩

/-! ## A round -/

/-- **The lines of a round.**  Their items are the entries of the data hash other than the
timestamp, once each and in the given order; a line has at least one item and at most
`$linesz`, and a value of more than forty characters has a line for itself; with
`$showxid` every line starts with the timestamp of the round, and says it again only
where its items do. -/
theorem lines_of_round (s : Settings) (tstamp : Int) (pairs : List (Text × Text))
    (hlinesz : 1 ≤ s .linesz) (hn : (pairs.map Prod.fst).Nodup) :
    ∃ chunks : List (List (Text × Text)),
      formatRound s tstamp pairs = chunks.map (lineText s tstamp) ∧
      chunks.flatten = (pairs.filter fun p => p.1 ≠ "tstamp".toList) ∧
      (∀ k ∈ pairs.map Prod.fst, k ≠ "tstamp".toList →
        (chunks.flatten.map Prod.fst).count k = 1) ∧
      (∀ ch ∈ chunks, 1 ≤ ch.length ∧ (ch.length : Int) ≤ s .linesz ∧
        ∀ p ∈ ch, p.2.length > 40 → ch = [p]) ∧
      (s .showxid ≠ 0 → ∀ ch ∈ chunks, xidHead tstamp <+: lineText s tstamp ch ∧
        timesIn (xidHead tstamp) (lineText s tstamp ch) =
          1 + timesIn (xidHead tstamp) (ch.flatMap (lineItem s))) := by
  obtain ⟨chunks, hlines, hflat, hfit⟩ := formatRound_fit s hlinesz tstamp pairs
  refine ⟨chunks, hlines, hflat, ?_, ?_, fun hxid ch _ => timesIn_lineText hxid tstamp ch⟩
  · intro k hk hne
    obtain ⟨p, hp, rfl⟩ := List.mem_map.mp hk
    have hsub : (chunks.flatten.map Prod.fst).Nodup := by
      rw [hflat]
      exact hn.sublist (List.filter_sublist.map _)
    refine List.count_eq_one_of_mem hsub (List.mem_map_of_mem ?_)
    rw [hflat]
    exact List.mem_filter.mpr ⟨hp, decide_eq_true hne⟩
  · intro ch hch
    obtain ⟨hne, hlen, hlong⟩ := hfit ch hch
    refine ⟨List.length_pos_iff.mpr hne, hlen, ?_⟩
    intro p hp hlength
    exact hlong p hp (by simpa [isLong] using hlength)

/-- A long value between two short ones, with the settings in the head of `dlogger`. -/
def longBetween : List (Text × Text) :=
  [("a".toList, "1".toList), ("tstamp".toList, "7".toList),
    ("b".toList, List.replicate 41 'y'), ("c".toList, [])]

theorem lines_of_round_long :
    ∃ chunks : List (List (Text × Text)),
      formatRound Script.dlogger.defaults 7 longBetween =
        chunks.map (lineText Script.dlogger.defaults 7) ∧
      chunks.flatten = (longBetween.filter fun p => p.1 ≠ "tstamp".toList) ∧
      (∀ k ∈ longBetween.map Prod.fst, k ≠ "tstamp".toList →
        (chunks.flatten.map Prod.fst).count k = 1) ∧
      (∀ ch ∈ chunks, 1 ≤ ch.length ∧ (ch.length : Int) ≤ Script.dlogger.defaults .linesz ∧
        ∀ p ∈ ch, p.2.length > 40 → ch = [p]) ∧
      (Script.dlogger.defaults .showxid ≠ 0 → ∀ ch ∈ chunks,
        xidHead 7 <+: lineText Script.dlogger.defaults 7 ch ∧
        timesIn (xidHead 7) (lineText Script.dlogger.defaults 7 ch) =
          1 + timesIn (xidHead 7) (ch.flatMap (lineItem Script.dlogger.defaults))) :=
  lines_of_round Script.dlogger.defaults 7 longBetween (by decide) (by decide)

/-- An entry `xid` with the number of the timestamp says the head again. -/
theorem head_said_twice :
    ¬ ∀ (s : Settings) (tstamp : Int) (pairs : List (Text × Text)), 1 ≤ s .linesz →
      (pairs.map Prod.fst).Nodup → s .showxid ≠ 0 →
      ∀ line ∈ formatRound s tstamp pairs, timesIn (xidHead tstamp) line = 1 := by
  intro hall
  have hline : "xid=7 xid=7 ".toList ∈
      formatRound Script.dlogger.defaults 7 [("xid".toList, "7".toList)] := by decide
  have honce := hall Script.dlogger.defaults 7 [("xid".toList, "7".toList)] (by decide)
    (by decide) (by decide) _ hline
  exact absurd honce (by decide)

end Memrec
