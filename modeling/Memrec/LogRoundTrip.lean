import Memrec.Kvgrep
import Memrec.LogWriter

/-!
# Writing a log and reading it back

The main loops write a round of data over several lines that share a timestamp;
`kvgrep -t xid` puts them together again.  For rounds with increasing timestamps
the two are inverse: whatever the line size and the order of the keys, `kvgrep`
answers for each round that has all the keys asked for, in order, and for no
other (`kvgrep_formatRound`).
-/

namespace Memrec

open Perl Perl.Pat

/-- A key that the log format can carry. -/
def IsKey (k : Text) : Prop := k ≠ [] ∧ ∀ c ∈ k, isSpace c = false ∧ c ≠ '='

instance : DecidablePred IsKey := fun k =>
  decidable_of_iff (k ≠ [] ∧ (k.all fun c => !isSpace c && c != '=') = true) (by simp [IsKey])

/-- A value that the log format can carry. -/
def IsValue (v : Text) : Prop := ∀ c ∈ v, isSpace c = false

instance : DecidablePred IsValue := fun v =>
  decidable_of_iff ((v.all fun c => !isSpace c) = true) (by simp [IsValue])

/-- One round: its timestamp, and the data hash in the order in which its keys
are written. -/
structure Round where
  tstamp : Int
  pairs : List (Text × Text)
  nodup : (pairs.map Prod.fst).Nodup
  isKey : ∀ p ∈ pairs, IsKey p.1
  not_xid : ∀ p ∈ pairs, p.1 ≠ "xid".toList
  isValue : ∀ p ∈ pairs, IsValue p.2

/-- The lines of a round as `write_log` puts them into the file. -/
def Round.text (s : Settings) (r : Round) : Text :=
  (formatRound s r.tstamp r.pairs).flatMap (· ++ ['\n'])

/-- The log file of a run of rounds. -/
def logText (s : Settings) (rounds : List Round) : Text := rounds.flatMap (Round.text s)

/-- `kvgrep -t xid`. -/
def byXid : KvOpts := ⟨false, false, false, false, some "xid".toList⟩

/-- A key with its value as it stands in the log. -/
def logToken (p : Text × Text) : Text := if p.2 = [] then p.1 else p.1 ++ '=' :: p.2

/-- What `kvgrep` should answer for a round. -/
def Round.answer (ks : List Text) (r : Round) : Option Text :=
  if ∀ k ∈ ks, k ∈ r.pairs.map Prod.fst then
    some (join [' '] (ks.map fun k => logToken (k, (r.pairs.lookup k).getD [])))
  else none

/-! ## Tokens -/

theorem logToken_ne_nil {p : Text × Text} (h : p.1 ≠ []) : logToken p ≠ [] := by
  unfold logToken
  split
  · exact h
  · simp

theorem logToken_not_space {p : Text × Text} (hk : IsKey p.1) (hv : IsValue p.2) :
    ∀ c ∈ logToken p, isSpace c = false := by
  intro c hc
  unfold logToken at hc
  split at hc
  · exact (hk.2 c hc).1
  · rcases List.mem_append.mp hc with hc | hc
    · exact (hk.2 c hc).1
    · rcases List.mem_cons.mp hc with rfl | hc
      · decide
      · exact hv c hc

/-- The reader finds the key in front of the first equals sign. -/
theorem tokenKey_logToken {p : Text × Text} (hk : IsKey p.1) : tokenKey (logToken p) = p.1 := by
  have hkey : '=' ∉ p.1 := fun h => (hk.2 _ h).2 rfl
  unfold tokenKey logToken
  by_cases hv : p.2 = []
  · rw [if_pos hv, if_neg hkey]
  · have hsplit : List.splitOn '=' (p.1 ++ '=' :: p.2) = p.1 :: List.splitOn '=' p.2 :=
      List.splitOn_append_cons_self_of_not_mem hkey _
    rw [if_neg hv, if_pos (by simp)]
    unfold splitChar
    rw [hsplit]
    -- Trailing empty pieces are dropped, but the key is not empty.
    have hne : (p.1 :: List.splitOn '=' p.2).rdropWhile List.isEmpty ≠ [] := by
      rw [ne_eq, List.rdropWhile_eq_nil_iff]
      intro h
      exact hk.1 (List.isEmpty_iff.mp (h p.1 List.mem_cons_self))
    obtain ⟨k, ws, hws⟩ := List.exists_cons_of_ne_nil hne
    have hpre := @List.rdropWhile_prefix _ List.isEmpty (p.1 :: List.splitOn '=' p.2)
    rw [hws] at hpre ⊢
    exact (List.cons_prefix_cons.mp hpre).1

/-! ## Lines -/

/-- A line as the reader sees it. -/
def padded (l : Text) : Text := ' ' :: l ++ [' ']

theorem words_padded (ls : List Text) : words (ls.flatMap padded) = ls.flatMap words := by
  induction ls with
  | nil => rfl
  | cons l ls ih =>
      have hpad : padded l ++ ls.flatMap padded = ' ' :: (l ++ ' ' :: ls.flatMap padded) := by
        simp [padded]
      rw [List.flatMap_cons, List.flatMap_cons, hpad, words_space (by decide),
        words_append_space (by decide), ih]

theorem words_items {ps : List (Text × Text)} (h : ∀ p ∈ ps, IsKey p.1 ∧ IsValue p.2) :
    words (ps.flatMap fun p => logToken p ++ [' ']) = ps.map logToken := by
  induction ps with
  | nil => rfl
  | cons p ps ih =>
      obtain ⟨hk, hv⟩ := h p List.mem_cons_self
      rw [List.flatMap_cons, List.append_assoc, List.singleton_append,
        words_append_space (by decide), words_token (logToken_ne_nil hk.1)
        (logToken_not_space hk hv), ih fun q hq => h q (List.mem_cons_of_mem _ hq)]
      rfl

/-- The pair that stands for the timestamp. -/
def xidPair (tstamp : Int) : Text × Text := ("xid".toList, decimal tstamp)

theorem logToken_xidPair (tstamp : Int) :
    logToken (xidPair tstamp) = "xid=".toList ++ decimal tstamp := by
  unfold logToken xidPair
  rw [if_neg (decimal_ne_nil tstamp)]
  rfl

theorem isKey_xid : IsKey "xid".toList := by
  decide

theorem lineItem_eq {s : Settings} (hkeys : s .showkeys ≠ 0) (p : Text × Text) :
    lineItem s p = logToken p ++ [' '] := by
  unfold lineItem logToken
  rw [if_pos hkeys]
  split <;> simp

theorem lineHead_eq {s : Settings} (hxid : s .showxid ≠ 0) (tstamp : Int) :
    lineHead s tstamp = logToken (xidPair tstamp) ++ [' '] := by
  unfold lineHead
  rw [if_pos hxid, logToken_xidPair]

section Written

variable {s : Settings} (hxid : s .showxid = 1) (hkeys : s .showkeys = 1)

include hxid hkeys

/-- A line is its timestamp and its items, with a blank after each. -/
theorem lineText_eq (tstamp : Int) (ch : List (Text × Text)) :
    lineText s tstamp ch = (xidPair tstamp :: ch).flatMap fun p => logToken p ++ [' '] := by
  unfold lineText
  rw [lineHead_eq (by omega), List.flatMap_cons]
  congr 2
  funext p
  exact lineItem_eq (by omega) p

/-- The reader finds the timestamp of a line. -/
theorem capture_xid (tstamp : Int) (ch : List (Text × Text)) :
    capture (xidPattern "xid".toList) (padded (lineText s tstamp ch)) =
      some (decimal tstamp) := by
  have hnl : ∀ c ∈ decimal tstamp, notNl c := by
    intro c hc
    have hsp := decimal_not_space tstamp c hc
    have hne : c ≠ '\n' := by
      rintro rfl
      exact absurd hsp (by decide)
    simpa [notNl] using hne
  have htext : padded (lineText s tstamp ch) = ' ' :: ("xid=".toList ++ (decimal tstamp ++
      ' ' :: ((ch.flatMap fun p => logToken p ++ [' ']) ++ [' ']))) := by
    rw [lineText_eq hxid hkeys, List.flatMap_cons, logToken_xidPair]
    simp [padded]
  rw [htext]
  generalize (ch.flatMap fun p => logToken p ++ [' ']) ++ [' '] = rest
  refine capture_here (r := (decimal tstamp, rest)) ?_
  unfold xidPattern
  rw [cls_bind_cons (by decide), show "xid=".toList = "xid".toList ++ ['='] from rfl,
    lit_bind_append]
  exact head?_lazily_until hnl (decimal_not_space tstamp) (by decide) rest

end Written

/-! ## One round -/

namespace Round

variable (r : Round)

/-- The entries that are written: all but the timestamp. -/
def shown : List (Text × Text) := r.pairs.filter fun p => p.1 ≠ "tstamp".toList

/-- The text that the reader joins for a round. -/
def joined (s : Settings) : Text := (formatRound s r.tstamp r.pairs).flatMap padded

theorem nodup_shown : (r.shown.map Prod.fst).Nodup :=
  (List.filter_sublist.map Prod.fst).nodup r.nodup

theorem mem_pairs_of_mem_shown {p : Text × Text} (h : p ∈ r.shown) : p ∈ r.pairs :=
  (List.mem_filter.mp h).1

/-- A key other than the timestamp is shown if it is there. -/
theorem mem_shown_keys {k : Text} (hk : k ≠ "tstamp".toList) :
    k ∈ r.shown.map Prod.fst ↔ k ∈ r.pairs.map Prod.fst := by
  unfold shown
  simp only [List.mem_map, List.mem_filter]
  constructor
  · intro h
    obtain ⟨p, ⟨hp, -⟩, rfl⟩ := h
    exact ⟨p, hp, rfl⟩
  · intro h
    obtain ⟨p, hp, rfl⟩ := h
    exact ⟨p, ⟨hp, decide_eq_true hk⟩, rfl⟩

variable {s : Settings} (hxid : s .showxid = 1) (hkeys : s .showkeys = 1)

include hxid hkeys

/-- The words of a round: its timestamp once for each line, and its items. -/
theorem words_joined : ∃ chunks : List (List (Text × Text)),
    words (r.joined s) = chunks.flatMap (fun ch => (xidPair r.tstamp :: ch).map logToken) ∧
      chunks.flatten = r.shown ∧ chunks.length = (formatRound s r.tstamp r.pairs).length := by
  obtain ⟨chunks, hlines, hflat, -⟩ := formatRound_chunks s r.tstamp r.pairs
  refine ⟨chunks, ?_, hflat, by rw [hlines, List.length_map]⟩
  have hok : ∀ ch ∈ chunks, ∀ p ∈ xidPair r.tstamp :: ch, IsKey p.1 ∧ IsValue p.2 := by
    intro ch hch p hp
    rcases List.mem_cons.mp hp with rfl | hp
    · exact ⟨isKey_xid, decimal_not_space r.tstamp⟩
    · have hmem : p ∈ r.pairs := by
        apply r.mem_pairs_of_mem_shown
        unfold shown
        rw [← hflat]
        exact List.mem_flatten.mpr ⟨ch, hch, hp⟩
      exact ⟨r.isKey p hmem, r.isValue p hmem⟩
  unfold joined
  rw [words_padded, hlines, List.flatMap_map]
  apply List.flatMap_congr
  intro ch hch
  rw [lineText_eq hxid hkeys, words_items (hok ch hch)]

/-- The fields that `process_line` sees: an empty one for the leading blank, and
the words. -/
theorem splitWs_joined (hne : formatRound s r.tstamp r.pairs ≠ []) :
    splitWs (r.joined s) = [] :: words (r.joined s) := by
  obtain ⟨chunks, hwords, -, hlen⟩ := r.words_joined hxid hkeys
  have hwne : words (r.joined s) ≠ [] := by
    obtain ⟨ch, rest, rfl⟩ : ∃ ch rest, chunks = ch :: rest := by
      apply List.exists_cons_of_ne_nil
      rintro rfl
      exact hne (List.length_eq_zero_iff.mp hlen.symm)
    rw [hwords, List.flatMap_cons, List.map_cons, List.cons_append]
    exact List.cons_ne_nil _ _
  obtain ⟨l, ls, hl⟩ := List.exists_cons_of_ne_nil hne
  have hblank : r.joined s = ' ' :: (l ++ [' '] ++ ls.flatMap padded) := by
    unfold joined
    rw [hl]
    rfl
  rw [hblank] at hwne ⊢
  rw [words_space (by decide)] at hwne ⊢
  exact splitWs_of_space (by decide) hwne

section Asked

variable {ks : List Text} (hn : ks.Nodup) (hempty : [] ∉ ks) (hx : "xid".toList ∉ ks)
  (ht : "tstamp".toList ∉ ks)

omit hxid hkeys in
theorem isKey_of_mem_shown {p : Text × Text} (h : p ∈ r.shown) : IsKey p.1 :=
  r.isKey p (r.mem_pairs_of_mem_shown h)

include hx in
/-- The words with a key that was asked for. -/
theorem filter_words :
    (words (r.joined s)).filter (fun kv => tokenKey kv ∈ ks) =
      (r.shown.filter fun p => p.1 ∈ ks).map logToken := by
  obtain ⟨chunks, hwords, hflat, -⟩ := r.words_joined hxid hkeys
  have hok : ∀ ch ∈ chunks, ∀ p ∈ ch, IsKey p.1 := by
    intro ch hch p hp
    apply r.isKey_of_mem_shown
    rw [← hflat]
    exact List.mem_flatten.mpr ⟨ch, hch, hp⟩
  have hxtok : tokenKey (logToken (xidPair r.tstamp)) = "xid".toList :=
    tokenKey_logToken (p := xidPair r.tstamp) isKey_xid
  rw [hwords, ← hflat, List.filter_flatMap, List.filter_flatten, List.map_flatten, List.map_map,
    ← List.flatMap_def]
  apply List.flatMap_congr
  intro ch hch
  rw [List.map_cons, List.filter_cons_of_neg (by simpa [hxtok] using hx), List.filter_map]
  rw [Function.comp_apply]
  congr 1
  apply List.filter_congr
  intro p hp
  simp only [Function.comp_apply]
  rw [tokenKey_logToken (hok ch hch p hp)]

include hempty hx in
/-- The fields with a key that was asked for: the leading blank makes no
difference. -/
theorem filter_fields :
    (splitWs (r.joined s)).filter (fun kv => tokenKey kv ∈ ks) =
      (r.shown.filter fun p => p.1 ∈ ks).map logToken := by
  rw [← r.filter_words hxid hkeys hx]
  by_cases hne : formatRound s r.tstamp r.pairs = []
  · unfold joined
    rw [hne]
    rfl
  · have hnil : tokenKey [] ∉ ks := hempty
    rw [r.splitWs_joined hxid hkeys hne, List.filter_cons_of_neg (by simpa using hnil)]

include hempty hx in
/-- A field with a key that was asked for is the token of an entry. -/
theorem mem_shown_of_field {kv : Text} (hkv : kv ∈ splitWs (r.joined s)) (hk : tokenKey kv ∈ ks) :
    ∃ p ∈ r.shown, kv = logToken p ∧ tokenKey kv = p.1 := by
  have hmem : kv ∈ (splitWs (r.joined s)).filter fun kv => tokenKey kv ∈ ks :=
    List.mem_filter.mpr ⟨hkv, by simpa using hk⟩
  rw [r.filter_fields hxid hkeys hempty hx] at hmem
  obtain ⟨p, hp, rfl⟩ := List.mem_map.mp hmem
  have hshown := (List.mem_filter.mp hp).1
  exact ⟨p, hshown, rfl, tokenKey_logToken (r.isKey_of_mem_shown hshown)⟩

include hempty hx ht in
/-- The keys asked for are among the fields if they are in the data. -/
theorem exists_field_iff {k : Text} (hk : k ∈ ks) :
    (∃ kv ∈ splitWs (r.joined s), tokenKey kv = k) ↔ k ∈ r.pairs.map Prod.fst := by
  rw [← r.mem_shown_keys fun h => ht (h ▸ hk)]
  constructor
  · intro h
    obtain ⟨kv, hkv, rfl⟩ := h
    obtain ⟨p, hp, -, hkey⟩ := r.mem_shown_of_field hxid hkeys hempty hx hkv hk
    rw [hkey]
    exact List.mem_map_of_mem hp
  · intro h
    obtain ⟨p, hp, rfl⟩ := List.mem_map.mp h
    have hmem : logToken p ∈ (splitWs (r.joined s)).filter fun kv => tokenKey kv ∈ ks := by
      rw [r.filter_fields hxid hkeys hempty hx]
      exact List.mem_map_of_mem (List.mem_filter.mpr ⟨hp, by simpa using hk⟩)
    exact ⟨_, (List.mem_filter.mp hmem).1, tokenKey_logToken (r.isKey_of_mem_shown hp)⟩

include hempty hx in
/-- No key that was asked for occurs twice. -/
theorem nodup_field_keys :
    (((splitWs (r.joined s)).filter fun kv => tokenKey kv ∈ ks).map tokenKey).Nodup := by
  have hkey : ((r.shown.filter fun p => p.1 ∈ ks).map logToken).map tokenKey =
      (r.shown.filter fun p => p.1 ∈ ks).map Prod.fst := by
    rw [List.map_map]
    apply List.map_congr_left
    intro p hp
    exact tokenKey_logToken (r.isKey_of_mem_shown (List.mem_filter.mp hp).1)
  rw [r.filter_fields hxid hkeys hempty hx, hkey]
  exact (List.filter_sublist.map Prod.fst).nodup r.nodup_shown

include hempty hx in
/-- The last field with a key is the token of its value. -/
theorem find_field {k : Text} (hk : k ∈ ks)
    (hfound : ∃ kv ∈ splitWs (r.joined s), tokenKey kv = k) :
    (splitWs (r.joined s)).reverse.find? (fun kv => tokenKey kv = k) =
      some (logToken (k, (r.pairs.lookup k).getD [])) := by
  have hsome : (splitWs (r.joined s)).reverse.find? (fun kv => tokenKey kv = k) ≠ none := by
    obtain ⟨kv, hkv, hkey⟩ := hfound
    rw [ne_eq, List.find?_eq_none]
    intro hnone
    exact hnone kv (List.mem_reverse.mpr hkv) (by simpa using hkey)
  obtain ⟨kv, hkv⟩ := Option.ne_none_iff_exists'.mp hsome
  have hmem : kv ∈ splitWs (r.joined s) := List.mem_reverse.mp (List.mem_of_find?_eq_some hkv)
  obtain rfl : tokenKey kv = k := by simpa using List.find?_some hkv
  obtain ⟨p, hp, rfl, hkey⟩ := r.mem_shown_of_field hxid hkeys hempty hx hmem hk
  rw [hkv, hkey, lookup_of_nodup r.nodup (r.mem_pairs_of_mem_shown hp), Option.getD_some]

include hn hempty hx ht in
/-- **One round.**  `process_line` on the joined lines of a round answers for
it. -/
theorem processLine_joined : processLine byXid ks (r.joined s) = r.answer ks := by
  have hiff : ks.length ≤ (collect ks (splitWs (r.joined s))).1 ↔
      ∀ k ∈ ks, k ∈ r.pairs.map Prod.fst := by
    rw [le_collect_fst_iff hn (r.nodup_field_keys hxid hkeys hempty hx)]
    exact forall₂_congr fun k hk => r.exists_field_iff hxid hkeys hempty hx ht hk
  unfold processLine answer
  simp only [byXid, Bool.false_eq_true, if_false, Bool.or_self, id_eq]
  by_cases hall : ∀ k ∈ ks, k ∈ r.pairs.map Prod.fst
  · rw [if_pos hall, if_pos (hiff.mpr hall)]
    have hfound : ∀ k ∈ ks, ∃ kv ∈ splitWs (r.joined s), tokenKey kv = k :=
      fun k hk => (r.exists_field_iff hxid hkeys hempty hx ht hk).mpr (hall k hk)
    rw [collect_snd hn hfound, List.map_map]
    congr 2
    apply List.map_congr_left
    intro k hk
    rw [Function.comp_apply, r.find_field hxid hkeys hempty hx hk (hfound k hk), Option.getD_some]
  · rw [if_neg hall, if_neg fun h => hall (hiff.mp h)]

end Asked

end Round

/-! ## Whole files -/

/-- Lines with the same `$xid` as the transaction that is open are added to
it. -/
theorem foldl_take_same (o : KvOpts) (ks : List Text) (x : Text) (ls : List Text) (t : Text)
    (out : List Text) :
    ls.foldl (fun (st : KvState) l => st.take o ks x l) ⟨x, x, x, t, out⟩ =
      ⟨x, x, x, t ++ ls.flatten, out⟩ := by
  induction ls generalizing t with
  | nil => simp
  | cons l ls ih =>
      have htake : KvState.take o ks ⟨x, x, x, t, out⟩ x l = ⟨x, x, x, t ++ l, out⟩ := by
        unfold KvState.take
        rw [if_pos rfl]
      rw [List.foldl_cons, htake, ih, List.flatten_cons, List.append_assoc]

/-- What is printed in the end, the open transaction included. -/
def KvState.printed (o : KvOpts) (ks : List Text) (st : KvState) : List Text :=
  st.out ++ (processLine o ks st.xtext).toList

/-- The test before the last transaction never fails. -/
theorem kvgrep_eq_printed {o : KvOpts} (ho : o.t.isSome) (keylist file : Text) :
    kvgrep o keylist file =
      (kvLines o (splitChar ',' keylist) file).printed o (splitChar ',' keylist) := by
  obtain ⟨t, ht⟩ := Option.isSome_iff_exists.mp ho
  have hsame : ∀ (lines : List Text) (st : KvState), st.xid = st.lastXid →
      (lines.foldl (kvLine o (splitChar ',' keylist)) st).xid =
        (lines.foldl (kvLine o (splitChar ',' keylist)) st).lastXid := by
    intro lines
    induction lines with
    | nil => exact fun st h => h
    | cons line lines ih =>
        intro st h
        rw [List.foldl_cons]
        apply ih
        unfold kvLine
        simp only [ht]
        unfold KvState.take
        split
        · assumption
        · rfl
  unfold kvgrep KvState.printed
  simp only [ho, Bool.true_and]
  rw [if_pos]
  rw [beq_iff_eq]
  exact hsame _ _ rfl

/-- **Transactions.**  A file of non-empty groups of lines, neighbouring groups
with different `$xid`, is processed group by group. -/
theorem printed_groups (o : KvOpts) (ks : List Text) (gs : List (Text × List Text))
    (hne : ∀ g ∈ gs, g.2 ≠ []) (st : KvState)
    (hchain : (st.lastXid :: gs.map Prod.fst).IsChain (· ≠ ·)) :
    (gs.foldl (fun st g => g.2.foldl (fun st l => st.take o ks g.1 l) st) st).printed o ks =
      st.printed o ks ++ gs.filterMap fun g => processLine o ks g.2.flatten := by
  induction gs generalizing st with
  | nil => simp
  | cons g gs ih =>
      obtain ⟨l, ls, hg⟩ := List.exists_cons_of_ne_nil (hne g List.mem_cons_self)
      rw [List.map_cons, List.isChain_cons_cons] at hchain
      have hfirst : st.take o ks g.1 l = ⟨g.1, g.1, g.1, l, st.printed o ks⟩ := by
        unfold KvState.take
        rw [if_neg fun h => hchain.1 h.symm]
        rfl
      have hgroup : g.2.foldl (fun st l => st.take o ks g.1 l) st =
          ⟨g.1, g.1, g.1, g.2.flatten, st.printed o ks⟩ := by
        rw [hg, List.foldl_cons, hfirst, foldl_take_same, List.flatten_cons]
      rw [List.foldl_cons, hgroup, ih (fun g hg => hne g (List.mem_cons_of_mem _ hg)) _ hchain.2]
      unfold KvState.printed
      cases hp : processLine o ks g.2.flatten <;> simp [hp]

section Files

variable {s : Settings} (hxid : s .showxid = 1) (hkeys : s .showkeys = 1)

include hxid hkeys

/-- The reader puts the lines of a round together. -/
theorem foldl_kvLine_round (ks : List Text) (r : Round) (st : KvState) :
    ((formatRound s r.tstamp r.pairs).map (· ++ ['\n'])).foldl (kvLine byXid ks) st =
      ((formatRound s r.tstamp r.pairs).map padded).foldl
        (fun st l => st.take byXid ks (decimal r.tstamp) l) st := by
  obtain ⟨chunks, hlines, -, -⟩ := formatRound_chunks s r.tstamp r.pairs
  rw [hlines, List.map_map, List.map_map, List.foldl_map, List.foldl_map]
  congr 1
  funext st ch
  simp only [Function.comp_apply]
  have hcap := capture_xid hxid hkeys r.tstamp ch
  unfold kvLine byXid
  dsimp only
  rw [chomp_line, show ' ' :: lineText s r.tstamp ch ++ [' '] = padded (lineText s r.tstamp ch) from
    rfl, hcap, Option.getD_some]

/-- A line of the log is one line. -/
theorem newline_notMem_line (r : Round) {l : Text} (hl : l ∈ formatRound s r.tstamp r.pairs) :
    '\n' ∉ l := by
  obtain ⟨chunks, hlines, hflat, -⟩ := formatRound_chunks s r.tstamp r.pairs
  rw [hlines] at hl
  obtain ⟨ch, hch, rfl⟩ := List.mem_map.mp hl
  intro hnl
  rw [lineText_eq hxid hkeys] at hnl
  obtain ⟨p, hp, hnl⟩ := List.mem_flatMap.mp hnl
  rcases List.mem_append.mp hnl with hnl | hnl
  · have hspace : isSpace '\n' = false := by
      rcases List.mem_cons.mp hp with rfl | hp
      · exact logToken_not_space (p := xidPair r.tstamp) isKey_xid (decimal_not_space r.tstamp) _
          hnl
      · have hmem : p ∈ r.pairs := by
          apply r.mem_pairs_of_mem_shown
          unfold Round.shown
          rw [← hflat]
          exact List.mem_flatten.mpr ⟨ch, hch, hp⟩
        exact logToken_not_space (r.isKey p hmem) (r.isValue p hmem) _ hnl
    exact absurd hspace (by decide)
  · exact absurd (List.mem_singleton.mp hnl) (by decide)

theorem readlines_logText (rounds : List Round) :
    readlines (logText s rounds) =
      rounds.flatMap fun r => (formatRound s r.tstamp r.pairs).map (· ++ ['\n']) := by
  have hflat : logText s rounds =
      (rounds.flatMap fun r => formatRound s r.tstamp r.pairs).flatMap (· ++ ['\n']) := by
    rw [List.flatMap_assoc]
    rfl
  rw [hflat, readlines_unlines, List.map_flatMap]
  intro l hl
  obtain ⟨r, -, hl⟩ := List.mem_flatMap.mp hl
  exact newline_notMem_line hxid hkeys r hl

/-- A round as the reader sees it: its `$xid` and its lines. -/
def Round.group (s : Settings) (r : Round) : Text × List Text :=
  (decimal r.tstamp, (formatRound s r.tstamp r.pairs).map padded)

/-- The rounds that leave a line in the log. -/
def inLog (s : Settings) (rounds : List Round) : List Round :=
  rounds.filter fun r => formatRound s r.tstamp r.pairs ≠ []

/-- The reader works group by group. -/
theorem foldl_kvLine_log (ks : List Text) (rounds : List Round) (st : KvState) :
    (rounds.flatMap fun r => (formatRound s r.tstamp r.pairs).map (· ++ ['\n'])).foldl
        (kvLine byXid ks) st =
      ((inLog s rounds).map (Round.group s)).foldl
        (fun st g => g.2.foldl (fun st l => st.take byXid ks g.1 l) st) st := by
  unfold inLog
  induction rounds generalizing st with
  | nil => rfl
  | cons r rs ih =>
      rw [List.flatMap_cons, List.foldl_append, foldl_kvLine_round hxid hkeys, ih]
      by_cases hr : formatRound s r.tstamp r.pairs = []
      · rw [List.filter_cons_of_neg (by simp [hr]), hr]
        rfl
      · rw [List.filter_cons_of_pos (by simpa using hr)]
        rfl

omit hxid hkeys in
/-- Neighbouring groups have different timestamps. -/
theorem isChain_group_xid {rounds : List Round}
    (htime : (rounds.map Round.tstamp).IsChain (· < ·)) :
    ([] :: ((inLog s rounds).map (Round.group s)).map Prod.fst).IsChain (· ≠ ·) := by
  rw [List.map_map]
  apply List.Pairwise.isChain
  rw [List.pairwise_cons, List.pairwise_map]
  constructor
  · intro x hmem
    obtain ⟨r, -, rfl⟩ := List.mem_map.mp hmem
    exact (decimal_ne_nil r.tstamp).symm
  · have hlt := List.isChain_iff_pairwise.mp htime
    rw [List.pairwise_map] at hlt
    refine (hlt.sublist List.filter_sublist).imp fun {r r'} hrr => ?_
    intro heq
    exact absurd (decimal_injective heq) hrr.ne

section Answers

variable {ks : List Text} (hn : ks.Nodup) (hempty : [] ∉ ks) (hx : "xid".toList ∉ ks)
  (ht : "tstamp".toList ∉ ks)

include hn hempty hx ht

theorem processLine_group (r : Round) :
    processLine byXid ks (r.group s).2.flatten = r.answer ks := by
  unfold Round.group
  rw [← List.flatMap_def]
  exact r.processLine_joined hxid hkeys hn hempty hx ht

/-- A round without lines has no keys, so it is not answered for. -/
theorem filterMap_answer_inLog (hks : ks ≠ []) (rounds : List Round) :
    (inLog s rounds).filterMap (Round.answer ks) = rounds.filterMap (Round.answer ks) := by
  have hskip : ∀ r : Round, formatRound s r.tstamp r.pairs = [] → r.answer ks = none := by
    intro r hr
    have hlen : ¬ ks.length ≤ 0 := by
      have := List.length_pos_iff.mpr hks
      omega
    rw [← processLine_group hxid hkeys hn hempty hx ht, Round.group, hr]
    exact if_neg hlen
  unfold inLog
  induction rounds with
  | nil => rfl
  | cons r rs ih =>
      by_cases hr : formatRound s r.tstamp r.pairs = []
      · rw [List.filter_cons_of_neg (by simp [hr]), ih, List.filterMap_cons_none (hskip r hr)]
      · rw [List.filter_cons_of_pos (by simpa using hr), List.filterMap_cons, List.filterMap_cons,
          ih]

/-- A run over the log from any state that is not inside a round: what was open
is closed, and then every round is answered for. -/
theorem printed_log {rounds : List Round} (htime : (rounds.map Round.tstamp).IsChain (· < ·))
    (hks : ks ≠ []) (st : KvState) (hst : st.lastXid = []) :
    ((rounds.flatMap fun r => (formatRound s r.tstamp r.pairs).map (· ++ ['\n'])).foldl
      (kvLine byXid ks) st).printed byXid ks =
      st.printed byXid ks ++ rounds.filterMap (Round.answer ks) := by
  have hlines : ∀ g ∈ (inLog s rounds).map (Round.group s), g.2 ≠ [] := by
    intro g hg
    obtain ⟨r, hr, rfl⟩ := List.mem_map.mp hg
    have hne := (List.mem_filter.mp hr).2
    simpa [Round.group] using hne
  have hchain := isChain_group_xid (s := s) htime
  rw [← hst] at hchain
  rw [foldl_kvLine_log hxid hkeys, printed_groups _ _ _ hlines _ hchain, List.filterMap_map,
    ← filterMap_answer_inLog hxid hkeys hn hempty hx ht hks]
  congr 1
  apply List.filterMap_congr
  intro r _
  exact processLine_group hxid hkeys hn hempty hx ht r

end Answers

end Files

/-- What `dlogger` and `duologger` write when they start; `cronlogger` does
not. -/
def startLine : Text := "logging process starting".toList

/-- The line at the start is answered for only if all its words are asked
for. -/
theorem processLine_startLine {ks : List Text} (hn : ks.Nodup) (hempty : [] ∉ ks)
    (hword : ¬ ∀ k ∈ ks, k ∈ words startLine) :
    processLine byXid ks (padded startLine) = none := by
  have hfld : splitWs (padded startLine) =
      [[], "logging".toList, "process".toList, "starting".toList] := by decide
  have hkeys : (splitWs (padded startLine)).map tokenKey =
      [[], "logging".toList, "process".toList, "starting".toList] := by decide
  have hnodup : (((splitWs (padded startLine)).filter fun kv => tokenKey kv ∈ ks).map
      tokenKey).Nodup := by
    refine (List.filter_sublist.map tokenKey).nodup ?_
    rw [hkeys]
    decide
  have hfew : ¬ ks.length ≤ (collect ks (splitWs (padded startLine))).1 := by
    rw [le_collect_fst_iff hn hnodup]
    intro hall
    apply hword
    intro k hk
    obtain ⟨kv, hkv, rfl⟩ := hall k hk
    have hmem := List.mem_map_of_mem (f := tokenKey) hkv
    rw [hkeys] at hmem
    rcases List.mem_cons.mp hmem with h | h
    · exact absurd (h ▸ hk) hempty
    · exact h
  exact if_neg hfew

/-- **Writer and reader are inverse.**  For rounds with increasing timestamps,
written with `$showxid` and `$showkeys`, whatever the line size and the order of
the keys, `kvgrep -t xid -k k1,k2,...` prints in order one line for each
round that has all the keys, made of their tokens, and nothing else.  The line
that the daemons write at the start makes no difference, unless all the keys
asked for are words of it. -/
theorem kvgrep_formatRound (s : Settings) (hxid : s .showxid = 1) (hkeys : s .showkeys = 1)
    (rounds : List Round) (htime : (rounds.map Round.tstamp).IsChain (· < ·))
    (ks : List Text) (hks : ks ≠ []) (hn : ks.Nodup)
    (hk : ∀ k ∈ ks, k ≠ [] ∧ ',' ∉ k ∧ k ≠ "xid".toList ∧ k ≠ "tstamp".toList) :
    kvgrep byXid (join [','] ks) (logText s rounds) = rounds.filterMap (Round.answer ks) ∧
    ((¬ ∀ k ∈ ks, k ∈ words startLine) →
      kvgrep byXid (join [','] ks) (startLine ++ '\n' :: logText s rounds) =
        rounds.filterMap (Round.answer ks)) := by
  have hempty : [] ∉ ks := fun h => (hk _ h).1 rfl
  have hx : "xid".toList ∉ ks := fun h => (hk _ h).2.2.1 rfl
  have ht : "tstamp".toList ∉ ks := fun h => (hk _ h).2.2.2 rfl
  have hsplit : splitChar ',' (join [','] ks) = ks :=
    splitChar_join hks fun k h => ⟨(hk k h).1, (hk k h).2.1⟩
  have hlog := printed_log hxid hkeys hn hempty hx ht htime hks
  constructor
  · rw [kvgrep_eq_printed rfl, hsplit]
    unfold kvLines
    rw [readlines_logText hxid hkeys, hlog _ rfl]
    have hnone : processLine byXid ks [] = none := if_neg (by
      have := List.length_pos_iff.mpr hks
      exact fun h => absurd (this.trans_le h) (Nat.lt_irrefl 0))
    simp [KvState.printed, hnone]
  · intro hword
    have hnl : '\n' ∉ startLine := by decide
    -- The line has no timestamp, so it is kept as an open transaction.
    have hopen : kvLine byXid ks ⟨[], [], [], [], []⟩ (startLine ++ ['\n']) =
        ⟨[], [], [], padded startLine, []⟩ := by
      have hcap : capture (xidPattern "xid".toList) (padded startLine) = none := by decide
      unfold kvLine byXid
      dsimp only
      rw [chomp_line, show ' ' :: startLine ++ [' '] = padded startLine from rfl, hcap]
      rfl
    rw [kvgrep_eq_printed rfl, hsplit]
    unfold kvLines
    rw [readlines_line hnl, readlines_logText hxid hkeys, List.foldl_cons, hopen, hlog _ rfl]
    simp [KvState.printed, processLine_startLine hn hempty hword]

/-- The settings of a daemon that shows everything, two items to a line. -/
def twoToALine : Settings
  | .linesz => 2
  | x => Script.defaults .dlogger x

/-- Two rounds, the first over two lines and the second without one of the
keys. -/
theorem kvgrep_formatRound_two :
    kvgrep byXid (join [','] ["b".toList, "a".toList]) (logText twoToALine
      [⟨7, [("a".toList, "1".toList), ("c".toList, []), ("b".toList, [])], by decide,
          by decide, by decide, by decide⟩,
        ⟨8, [("a".toList, "2".toList)], by decide, by decide, by decide,
          by decide⟩]) = ["b a=1".toList] :=
  (kvgrep_formatRound twoToALine rfl rfl _ (by decide) _ (by decide) (by decide)
    (by decide)).1.trans (by decide)

end Memrec
