import Mathlib.Data.List.Chain
import Memrec.DaemonLog

/-!
# Rounds that are cut into lines

The scripts do not agree on where a line ends.  `dlogger`, `duologger` and
`cronlogger` give a long value a line of its own, and `memrec` counts items
only.  For a reader this makes no difference.  A round may be cut into lines
anywhere between two items, and `kvgrep -t xid` answers the same
(`CutRound.processLine_joined`).

So a log is read back whatever its writer has done (`kvgrep_cuts`), and what is
read of a log that ends early is the beginning of what is read of the whole
(`kvgrep_cuts_prefix`).
-/

namespace Memrec

open Perl Perl.Pat

/-- A round, and the runs of consecutive entries that its lines are made of. -/
structure CutRound where
  tstamp : Int
  runs : List (List (Text × Text))
  nonempty : ∀ ch ∈ runs, ch ≠ []
  nodup : (runs.flatten.map Prod.fst).Nodup
  storable : ∀ p ∈ runs.flatten, Storable p

namespace CutRound

/-- The lines. -/
def lines (s : Settings) (c : CutRound) : List Text := c.runs.map (lineText s c.tstamp)

/-- The round without its cuts. -/
def round (c : CutRound) : Round where
  tstamp := c.tstamp
  pairs := c.runs.flatten
  nodup := c.nodup
  isKey := fun p hp => (c.storable p hp).1
  not_xid := fun p hp => (c.storable p hp).2.1
  isValue := fun p hp => (c.storable p hp).2.2

/-- What should be answered for it. -/
def answer (ks : List Text) (c : CutRound) : Option Text := answerFor ks c.runs.flatten

theorem take_flatten_initial (n : Nat) (runs : List (List (Text × Text))) :
    (runs.take n).flatten <+: runs.flatten :=
  ⟨(runs.drop n).flatten, by rw [← List.flatten_append, List.take_append_drop]⟩

/-- The first lines of a round. -/
def take (n : Nat) (c : CutRound) : CutRound where
  tstamp := c.tstamp
  runs := c.runs.take n
  nonempty := fun ch hch => c.nonempty ch (List.mem_of_mem_take hch)
  nodup := ((take_flatten_initial n c.runs).sublist.map Prod.fst).nodup c.nodup
  storable := fun p hp => c.storable p ((take_flatten_initial n c.runs).subset hp)

theorem mem_flatten {c : CutRound} {ch : List (Text × Text)} (hch : ch ∈ c.runs)
    {p : Text × Text} (hp : p ∈ ch) : p ∈ c.runs.flatten :=
  List.mem_flatten.mpr ⟨ch, hch, hp⟩

theorem lines_ne_nil_iff (s : Settings) (c : CutRound) : c.lines s = [] ↔ c.runs = [] :=
  List.map_eq_nil_iff

/-- What is answered for the first lines, if anything, is what is answered for
the whole. -/
theorem answer_take (ks : List Text) (n : Nat) (c : CutRound) :
    (c.take n).answer ks = none ∨ (c.take n).answer ks = c.answer ks :=
  @Round.answer_cut ks c.round (c.take n).round (take_flatten_initial n c.runs).sublist

theorem exists_take {s : Settings} {c : CutRound} {ls : List Text} (h : ls <+: c.lines s) :
    ∃ n, (c.take n).lines s = ls := by
  refine ⟨ls.length, ?_⟩
  rw [List.prefix_iff_eq_take.mp h]
  unfold lines take
  simp

end CutRound

/-! ## Reading cut rounds -/

section Read

variable {s : Settings} (hxid : s .showxid = 1) (hkeys : s .showkeys = 1)

include hxid hkeys

/-- The fields of a line that are asked for. -/
theorem seen_lineText {ks : List Text} (hempty : [] ∉ ks) (hx : "xid".toList ∉ ks) (tstamp : Int)
    {ch : List (Text × Text)} (hch : ∀ p ∈ ch, Storable p) :
    seen ks (lineText s tstamp ch) = (ch.filter fun p => p.1 ∈ ks).map logToken := by
  have hitems : ∀ p ∈ xidPair tstamp :: ch, IsKey p.1 ∧ IsValue p.2 := by
    intro p hp
    rcases List.mem_cons.mp hp with rfl | hp
    · exact ⟨isKey_xid, decimal_not_space tstamp⟩
    · exact ⟨(hch p hp).1, (hch p hp).2.2⟩
  have hxtok : tokenKey (logToken (xidPair tstamp)) = "xid".toList :=
    tokenKey_logToken (p := xidPair tstamp) isKey_xid
  rw [seen_eq_words hempty, lineText_eq hxid hkeys, words_items hitems, List.map_cons,
    List.filter_cons_of_neg (by simpa [hxtok] using hx), List.filter_map]
  congr 1
  apply List.filter_congr
  intro p hp
  rw [Function.comp_apply, tokenKey_logToken (hch p hp).1]

namespace CutRound

theorem seen_joined {ks : List Text} (hempty : [] ∉ ks) (hx : "xid".toList ∉ ks) (c : CutRound) :
    seen ks ((c.lines s).flatMap padded) =
      (c.runs.flatten.filter fun p => p.1 ∈ ks).map logToken := by
  rw [Memrec.seen_joined hempty]
  unfold lines
  rw [List.flatMap_map, List.filter_flatten, List.map_flatten, List.map_map, ← List.flatMap_def]
  apply List.flatMap_congr
  intro ch hch
  exact seen_lineText hxid hkeys hempty hx c.tstamp
    fun p hp => c.storable p (mem_flatten hch hp)

/-- **Cuts make no difference** to what is answered for a round. -/
theorem processLine_joined {ks : List Text} (hn : ks.Nodup) (hempty : [] ∉ ks)
    (hx : "xid".toList ∉ ks) (ht : "tstamp".toList ∉ ks) (c : CutRound) :
    processLine byXid ks ((c.lines s).flatMap padded) = c.answer ks := by
  have hshown : (c.round.shown.filter fun p => p.1 ∈ ks) =
      c.runs.flatten.filter fun p => p.1 ∈ ks := by
    unfold Round.shown
    rw [List.filter_filter]
    apply List.filter_congr
    intro p _
    by_cases hp : p.1 ∈ ks
    · have hne : p.1 ≠ "tstamp".toList := fun h => ht (h ▸ hp)
      rw [decide_eq_true hp, decide_eq_true hne]
      rfl
    · rw [decide_eq_false hp]
      rfl
  have hseen : seen ks ((c.lines s).flatMap padded) = seen ks (c.round.joined s) := by
    rw [c.seen_joined hxid hkeys hempty hx, ← hshown]
    exact (c.round.filter_fields hxid hkeys hempty hx).symm
  rw [processLine_congr rfl hseen]
  exact c.round.processLine_joined hxid hkeys hn hempty hx ht

theorem newline_notMem_line (c : CutRound) {l : Text} (hl : l ∈ c.lines s) : '\n' ∉ l := by
  obtain ⟨ch, hch, rfl⟩ := List.mem_map.mp hl
  intro hnl
  rw [lineText_eq hxid hkeys] at hnl
  obtain ⟨p, hp, hnl⟩ := List.mem_flatMap.mp hnl
  have htoken : ∀ x ∈ logToken p, isSpace x = false := by
    rcases List.mem_cons.mp hp with rfl | hp
    · exact logToken_not_space (p := xidPair c.tstamp) isKey_xid (decimal_not_space c.tstamp)
    · have hstore := c.storable p (mem_flatten hch hp)
      exact logToken_not_space hstore.1 hstore.2.2
  rcases List.mem_append.mp hnl with hnl | hnl
  · exact absurd (htoken '\n' hnl) (by decide)
  · exact absurd (List.mem_singleton.mp hnl) (by decide)

/-- The reader takes the lines of a round under its timestamp. -/
theorem foldl_kvLine (ks : List Text) (c : CutRound) (st : KvState) :
    ((c.lines s).map (· ++ ['\n'])).foldl (kvLine byXid ks) st =
      ((c.lines s).map padded).foldl (fun st l => st.take byXid ks (decimal c.tstamp) l) st := by
  unfold lines
  rw [List.map_map, List.map_map, List.foldl_map, List.foldl_map]
  congr 1
  funext st ch
  rw [Function.comp_apply, Function.comp_apply,
    JoinedAlike.kvLine_eq (t := "xid".toList) rfl, capture_xid hxid hkeys, Option.getD_some]

end CutRound

end Read

/-- A round as the reader sees it. -/
def CutRound.group (s : Settings) (c : CutRound) : Text × List Text :=
  (decimal c.tstamp, (c.lines s).map padded)

/-- The file of a list of rounds. -/
def cutLines (s : Settings) (cs : List CutRound) : List Text := cs.flatMap (CutRound.lines s)

section Files

variable {s : Settings} (hxid : s .showxid = 1) (hkeys : s .showkeys = 1)

include hxid hkeys

/-- The reader works round by round. -/
theorem foldl_kvLine_cuts (ks : List Text) (cs : List CutRound) (st : KvState) :
    ((cutLines s cs).map (· ++ ['\n'])).foldl (kvLine byXid ks) st =
      ((cs.filter fun c => c.lines s ≠ []).map (CutRound.group s)).foldl
        (fun st g => g.2.foldl (fun st l => st.take byXid ks g.1 l) st) st := by
  unfold cutLines
  induction cs generalizing st with
  | nil => rfl
  | cons c cs ih =>
      rw [List.flatMap_cons, List.map_append, List.foldl_append, c.foldl_kvLine hxid hkeys, ih]
      by_cases hc : c.lines s = []
      · rw [List.filter_cons_of_neg (by simp [hc]), hc]
        rfl
      · rw [List.filter_cons_of_pos (by simpa using hc)]
        rfl

variable {ks : List Text} (hks : ks ≠ []) (hn : ks.Nodup)
  (hk : ∀ k ∈ ks, k ≠ [] ∧ ',' ∉ k ∧ k ≠ "xid".toList ∧ k ≠ "tstamp".toList)

include hks hn hk

/-- **Reader and writer.**  Each round is answered for, however it is cut. -/
theorem kvgrep_cuts (cs : List CutRound) (htime : (cs.map CutRound.tstamp).IsChain (· < ·)) :
    kvgrep byXid (join [','] ks) (unlines (cutLines s cs)) = cs.filterMap (CutRound.answer ks) := by
  have hempty : [] ∉ ks := fun h => (hk _ h).1 rfl
  have hx : "xid".toList ∉ ks := fun h => (hk _ h).2.2.1 rfl
  have ht : "tstamp".toList ∉ ks := fun h => (hk _ h).2.2.2 rfl
  have hnl : ∀ l ∈ cutLines s cs, '\n' ∉ l := by
    intro l hl
    obtain ⟨c, -, hl⟩ := List.mem_flatMap.mp hl
    exact c.newline_notMem_line hxid hkeys hl
  have hjoined : ∀ c : CutRound, processLine byXid ks (c.group s).2.flatten = c.answer ks := by
    intro c
    unfold CutRound.group
    rw [← List.flatMap_def]
    exact c.processLine_joined hxid hkeys hn hempty hx ht
  have hlines : ∀ g ∈ (cs.filter fun c => c.lines s ≠ []).map (CutRound.group s), g.2 ≠ [] := by
    intro g hg
    obtain ⟨c, hc, rfl⟩ := List.mem_map.mp hg
    have hne : c.lines s ≠ [] := of_decide_eq_true (List.mem_filter.mp hc).2
    exact fun hnil => hne (List.map_eq_nil_iff.mp hnil)
  have hchain : (([] : Text) :: ((cs.filter fun c => c.lines s ≠ []).map
      (CutRound.group s)).map Prod.fst).IsChain (· ≠ ·) := by
    rw [List.map_map]
    apply List.Pairwise.isChain
    rw [List.pairwise_cons, List.pairwise_map]
    constructor
    · intro x hmem
      obtain ⟨c, -, rfl⟩ := List.mem_map.mp hmem
      exact (decimal_ne_nil _).symm
    · have hlt := List.isChain_iff_pairwise.mp htime
      rw [List.pairwise_map] at hlt
      exact (hlt.sublist List.filter_sublist).imp fun {c c'} hcc heq =>
        absurd (decimal_injective heq) hcc.ne
  rw [kvgrep_eq_printed rfl, splitChar_join hks fun k h => ⟨(hk k h).1, (hk k h).2.1⟩]
  unfold kvLines unlines
  rw [readlines_unlines hnl, foldl_kvLine_cuts hxid hkeys, printed_groups _ _ _ hlines _ hchain,
    KvState.printed, processLine_nil hks, List.filterMap_map, List.filterMap_filter]
  apply List.filterMap_congr
  intro c _
  by_cases hc : c.lines s = []
  -- a round without lines has no keys
  · have hnone := hjoined c
    rw [CutRound.group, hc, List.map_nil, List.flatten_nil, processLine_nil hks] at hnone
    simp [hc, ← hnone]
  · simp [hc, hjoined c]

omit hxid hkeys hks hn hk in
/-- The lines up to some point are those of whole rounds and of the first lines of the
next. -/
theorem exists_cut_of_prefix {cs : List CutRound} {ls : List Text} (h : ls <+: cutLines s cs) :
    ∃ done, done <+: cs ∧ (ls = cutLines s done ∨
      ∃ c n, done ++ [c] <+: cs ∧ ls = cutLines s (done ++ [c.take n])) := by
  induction cs generalizing ls with
  | nil => exact ⟨[], List.prefix_rfl, Or.inl (List.prefix_nil.mp h)⟩
  | cons c cs ih =>
      unfold cutLines at h
      rw [List.flatMap_cons] at h
      rcases List.prefix_or_prefix_of_prefix h (List.prefix_append (c.lines s) _) with
        hfirst | hmore
      · obtain ⟨n, hcut⟩ := CutRound.exists_take hfirst
        refine ⟨[], List.nil_prefix, Or.inr ⟨c, n, List.prefix_append [c] cs, ?_⟩⟩
        simpa [cutLines] using hcut.symm
      · obtain ⟨ls, rfl⟩ := hmore
        obtain ⟨done, hdone, hls⟩ := ih ((List.prefix_append_right_inj _).mp h)
        refine ⟨c :: done, List.cons_prefix_cons.mpr ⟨rfl, hdone⟩, ?_⟩
        rcases hls with rfl | ⟨d, n, hd, rfl⟩
        · exact Or.inl rfl
        · exact Or.inr ⟨d, n, List.cons_prefix_cons.mpr ⟨rfl, hd⟩, rfl⟩

/-- **A log that ends early**, between any two of its lines: what is read of it is
the beginning of what is read of the whole. -/
theorem kvgrep_cuts_prefix (cs : List CutRound) (htime : (cs.map CutRound.tstamp).IsChain (· < ·))
    {ls : List Text} (hls : ls <+: cutLines s cs) :
    kvgrep byXid (join [','] ks) (unlines ls) <+: cs.filterMap (CutRound.answer ks) := by
  obtain ⟨done, hdone, rfl | ⟨c, n, hc, rfl⟩⟩ := exists_cut_of_prefix hls
  · have htimes := List.IsChain.prefix htime (hdone.map CutRound.tstamp)
    rw [kvgrep_cuts hxid hkeys hks hn hk done htimes]
    exact hdone.filterMap _
  · have htimes : ((done ++ [c.take n]).map CutRound.tstamp).IsChain (· < ·) := by
      have hchain := List.IsChain.prefix htime (hc.map CutRound.tstamp)
      rwa [List.map_append] at hchain ⊢
    rw [kvgrep_cuts hxid hkeys hks hn hk _ htimes, List.filterMap_append]
    rcases c.answer_take ks n with hnone | hwhole
    · rw [List.filterMap_cons_none hnone, List.filterMap_nil, List.append_nil]
      exact hdone.filterMap _
    · have hsame :
            [c.take n].filterMap (CutRound.answer ks) = [c].filterMap (CutRound.answer ks) := by
        simp only [List.filterMap_cons, hwhole]
      rw [hsame, ← List.filterMap_append]
      exact hc.filterMap _

end Files

end Memrec
