import Memrec.LogRoundTrip

/-!
# Lines that `kvgrep` joins and does not see

A log has lines that are not data: what the daemons say about themselves, and
what others write into the same file.  `kvgrep -t key` finds no `key=` in such a
line, so that `$1` still holds the `$xid` of the line before, and the line is
joined to the transaction that is open.

As long as none of its words is a key that is asked for, it makes no difference
(`kvgrep_unseen`).  The proof compares the two runs by what `process_line` can
see of the joined text:

* `processLine_congr`: the fields with a key that is asked for decide what is printed;
* `JoinedAlike.seen_line`, `JoinedAlike.unseen_line`: a line in both logs, and a line in one.
-/

namespace Memrec

open Perl Perl.Pat

/-- The fields that have a key that is asked for. -/
def seen (ks : List Text) (l : Text) : List Text :=
  (splitWs l).filter fun kv => tokenKey kv ∈ ks

/-- No timestamp stands in the line, and no key that is asked for. -/
def Unseen (t : Text) (ks : List Text) (l : Text) : Prop :=
  capture (xidPattern t) (padded l) = none ∧ ∀ kv ∈ words l, tokenKey kv ∉ ks

instance (t : Text) (ks : List Text) : DecidablePred (Unseen t ks) := fun _ =>
  inferInstanceAs (Decidable (_ ∧ _))

/-! ## One entry -/

/-- `$flag` and `@output` depend on the fields that are asked for. -/
theorem collect_filter (ks fld : List Text) :
    collect ks (fld.filter fun kv => tokenKey kv ∈ ks) = collect ks fld := by
  induction fld using List.reverseRecOn with
  | nil => rfl
  | append_singleton fld kv ih =>
      rw [List.filter_append, collect_snoc]
      by_cases hk : tokenKey kv ∈ ks
      · rw [List.filter_singleton, decide_eq_true hk, cond_true, collect_snoc, ih]
      · rw [List.filter_singleton, decide_eq_false hk, cond_false, List.append_nil, ih,
          keyPlace_of_notMem hk]

/-- Unless all fields are shown, the others make no difference. -/
theorem processLine_congr {o : KvOpts} (ho : o.A = false) {ks : List Text} {l l' : Text}
    (h : seen ks l = seen ks l') : processLine o ks l = processLine o ks l' := by
  have hcollect : collect ks (splitWs l) = collect ks (splitWs l') := by
    unfold seen at h
    rw [← collect_filter, h, collect_filter]
  unfold processLine
  simp only [ho, hcollect, Bool.false_eq_true, if_false]

/-- The empty field in front of a leading blank has no key. -/
theorem seen_eq_words {ks : List Text} (hempty : [] ∉ ks) (l : Text) :
    seen ks l = (words l).filter fun kv => tokenKey kv ∈ ks := by
  have hnil : tokenKey [] ∉ ks := hempty
  unfold seen
  rcases splitWs_words l with h | h
  · rw [h]
  · rw [h, List.filter_cons_of_neg (by simpa using hnil)]

/-- What is seen of a joined text, line by line. -/
theorem seen_joined {ks : List Text} (hempty : [] ∉ ks) (ls : List Text) :
    seen ks (ls.flatMap padded) = ls.flatMap fun l => seen ks l := by
  rw [seen_eq_words hempty, words_padded, List.filter_flatMap]
  apply List.flatMap_congr
  intro l _
  exact (seen_eq_words hempty l).symm

theorem Unseen.seen_eq_nil {t : Text} {ks : List Text} (hempty : [] ∉ ks) {l : Text}
    (h : Unseen t ks l) : seen ks l = [] := by
  rw [seen_eq_words hempty, List.filter_eq_nil_iff]
  intro kv hkv
  simpa using h.2 kv hkv

/-! ## Two logs -/

/-- The states of `kvgrep` on a log with such lines and on the log without them.
`$1` is the `$xid` of the open transaction, so that a line without one is joined
to it. -/
structure JoinedAlike (ks : List Text) (st st' : KvState) : Prop where
  match1 : st.match1 = st.lastXid
  match1' : st'.match1 = st'.lastXid
  lastXid : st.lastXid = st'.lastXid
  out : st.out = st'.out
  xtext : ∃ ls ls' : List Text, st.xtext = ls.flatMap padded ∧ st'.xtext = ls'.flatMap padded ∧
    ls.flatMap (seen ks) = ls'.flatMap (seen ks)

namespace JoinedAlike

variable {o : KvOpts} {ks : List Text} {st st' : KvState}

/-- The open transactions look the same, -/
theorem seen_xtext (hempty : [] ∉ ks) (h : JoinedAlike ks st st') :
    seen ks st.xtext = seen ks st'.xtext := by
  obtain ⟨ls, ls', hls, hls', hseen⟩ := h.xtext
  rw [hls, hls', seen_joined hempty, seen_joined hempty, hseen]

/-- and what is printed in the end is the same. -/
theorem printed (ho : o.A = false) (hempty : [] ∉ ks) (h : JoinedAlike ks st st') :
    st.printed o ks = st'.printed o ks := by
  unfold KvState.printed
  rw [h.out, processLine_congr ho (h.seen_xtext hempty)]

/-- A line with the `$xid` of the open transaction is joined to it in both logs. -/
theorem take_same (h : JoinedAlike ks st st') (l : Text) :
    JoinedAlike ks (st.take o ks st.lastXid (padded l)) (st'.take o ks st.lastXid (padded l)) := by
  obtain ⟨ls, ls', hls, hls', hseen⟩ := h.xtext
  unfold KvState.take
  rw [if_pos rfl, if_pos h.lastXid]
  refine ⟨rfl, h.lastXid, h.lastXid, h.out, ls ++ [l], ls' ++ [l], ?_, ?_, ?_⟩
  · simp [hls]
  · simp [hls']
  · simp [hseen]

/-- A line with another `$xid` closes the transaction in both logs. -/
theorem take_other (ho : o.A = false) (hempty : [] ∉ ks) (h : JoinedAlike ks st st') {x : Text}
    (hx : x ≠ st.lastXid) (l : Text) :
    JoinedAlike ks (st.take o ks x (padded l)) (st'.take o ks x (padded l)) := by
  have hout := h.printed ho hempty
  unfold KvState.printed at hout
  unfold KvState.take
  rw [if_neg hx, if_neg (h.lastXid ▸ hx), hout]
  exact ⟨rfl, rfl, rfl, rfl, [l], [l], by simp, by simp, rfl⟩

variable {t : Text} (ht : o.t = some t)

include ht in
/-- The body of the loop on a line that ends with a line feed. -/
theorem kvLine_eq (st : KvState) (l : Text) :
    kvLine o ks st (l ++ ['\n']) =
      st.take o ks ((capture (xidPattern t) (padded l)).getD st.match1) (padded l) := by
  unfold kvLine
  simp only [ht, chomp_line]
  rfl

include ht in
/-- **A line in both logs.** -/
theorem seen_line (ho : o.A = false) (hempty : [] ∉ ks) (h : JoinedAlike ks st st') (l : Text) :
    JoinedAlike ks (kvLine o ks st (l ++ ['\n'])) (kvLine o ks st' (l ++ ['\n'])) := by
  rw [kvLine_eq ht, kvLine_eq ht, h.match1, h.match1', ← h.lastXid]
  by_cases hx : (capture (xidPattern t) (padded l)).getD st.lastXid = st.lastXid
  · rw [hx]
    exact h.take_same l
  · exact h.take_other ho hempty hx l

include ht in
/-- **A line in one log.** -/
theorem unseen_line (hempty : [] ∉ ks) (h : JoinedAlike ks st st') {l : Text} (hl : Unseen t ks l) :
    JoinedAlike ks (kvLine o ks st (l ++ ['\n'])) st' := by
  obtain ⟨ls, ls', hls, hls', hseen⟩ := h.xtext
  rw [kvLine_eq ht, hl.1, Option.getD_none, h.match1]
  unfold KvState.take
  rw [if_pos rfl]
  refine ⟨rfl, h.match1', h.lastXid, h.out, ls ++ [l], ls', ?_, hls', ?_⟩
  · simp [hls]
  · simp [hseen, hl.seen_eq_nil hempty]

include ht in
/-- The two runs side by side. -/
theorem foldl_kvLine (ho : o.A = false) (hempty : [] ∉ ks) (ls : List Text)
    (h : JoinedAlike ks st st') :
    JoinedAlike ks ((ls.map (· ++ ['\n'])).foldl (kvLine o ks) st)
      (((ls.filter fun l => ¬ Unseen t ks l).map (· ++ ['\n'])).foldl (kvLine o ks) st') := by
  induction ls generalizing st st' with
  | nil => exact h
  | cons l ls ih =>
      by_cases hl : Unseen t ks l
      · rw [List.filter_cons_of_neg (by simpa using hl)]
        exact ih (h.unseen_line ht hempty hl)
      · rw [List.filter_cons_of_pos (by simpa using hl)]
        exact ih (h.seen_line ht ho hempty l)

end JoinedAlike

/-! ## Whole files -/

/-- The text of a file of whole lines. -/
def unlines (ls : List Text) : Text := ls.flatMap (· ++ ['\n'])

/-- The run of `kvgrep` from its start. -/
theorem printed_unlines {o : KvOpts} {t : Text} (ht : o.t = some t) (ho : o.A = false)
    {ks ls : List Text} (hempty : [] ∉ ks) (hls : ∀ l ∈ ls, '\n' ∉ l) :
    (kvLines o ks (unlines ls)).printed o ks =
      (kvLines o ks (unlines (ls.filter fun l => ¬ Unseen t ks l))).printed o ks := by
  have hstart : JoinedAlike ks ⟨[], [], [], [], []⟩ ⟨[], [], [], [], []⟩ :=
    ⟨rfl, rfl, rfl, rfl, [], [], rfl, rfl, rfl⟩
  unfold kvLines unlines
  rw [readlines_unlines hls, readlines_unlines fun l hl => hls l (List.mem_of_mem_filter hl)]
  exact (hstart.foldl_kvLine ht ho hempty ls).printed ho hempty

/-- **Lines that are not seen.**  Without `-A`, lines of a log that show neither
the key of `-t` nor a key that is asked for can be taken out, wherever they
stand, and `kvgrep -t` prints the same. -/
theorem kvgrep_unseen (o : KvOpts) (t : Text) (ht : o.t = some t) (ho : o.A = false)
    (keylist : Text) (hempty : [] ∉ splitChar ',' keylist) (ls : List Text)
    (hls : ∀ l ∈ ls, '\n' ∉ l) :
    kvgrep o keylist (unlines ls) =
      kvgrep o keylist (unlines (ls.filter fun l => ¬ Unseen t (splitChar ',' keylist) l)) := by
  have hsome : o.t.isSome := by
    rw [ht]
    rfl
  rw [kvgrep_eq_printed hsome, kvgrep_eq_printed hsome]
  exact printed_unlines ht ho hempty hls

/-- A round over two lines, with a message of `dlogger` between them. -/
theorem kvgrep_unseen_between :
    kvgrep byXid "a,b".toList (unlines
      ["xid=7 a=1 ".toList, "daemon re-read config file".toList, "xid=7 b=2 ".toList]) =
      ["a=1 b=2".toList] :=
  (kvgrep_unseen byXid "xid".toList rfl rfl "a,b".toList (by decide) _ (by decide)).trans
    (by decide)

end Memrec
