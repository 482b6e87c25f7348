import Mathlib.Data.List.Nodup
import Mathlib.Data.List.Perm.Subperm
import Memrec.Pattern

/-!
# `kvgrep`

`kvgrep` prints the entries of a log that show given keys.  With `-t key` it
first joins consecutive lines that carry the same value of that key, so that an
event spread over several lines counts as one.

The value of the key is taken from `$1` after a substitution.  When the
substitution does not match, `$1` still holds what the last match left there, so
the model carries it from line to line.
-/

namespace Memrec

open Perl Perl.Pat

/-- The options of `kvgrep` other than the key list and the file.  The key
after `-t` is taken as plain text. -/
structure KvOpts where
  O : Bool
  C : Bool
  A : Bool
  K : Bool
  t : Option Text
  deriving DecidableEq

/-- `$keylist{$k}`: the place of a key in the list, the last one if it is
repeated. -/
def keyPlace (ks : List Text) (k : Text) : Option Nat := ks.zipIdx.reverse.lookup k

/-- `$k` of a token. -/
def tokenKey (kv : Text) : Text :=
  if '=' ∈ kv then (splitChar '=' kv).headD [] else kv

/-- The loop over the fields: `$flag` and `@output`. -/
def collect (ks fld : List Text) : Nat × List (Option Text) :=
  fld.foldl (fun st kv =>
    match keyPlace ks (tokenKey kv) with
    | none => st
    | some i => (st.1 + 1, setAt st.2 i kv)) (0, [])

/-- `s/(.*?)\=//` on a token. -/
def dropKey (kv : Text) : Text :=
  if '=' ∈ kv then (kv.dropWhile (· ≠ '=')).tail else kv

/-- `process_line`: what it prints, if anything. -/
def processLine (o : KvOpts) (ks : List Text) (l : Text) : Option Text :=
  let fld := splitWs l
  let st := collect ks fld
  let fval := if o.O then 1 else ks.length
  let sep := if o.C then [','] else [' ']
  -- `-C` switches `-K` on.
  let shown := if o.K || o.C then dropKey else id
  if st.1 ≥ fval then
    if o.A then some (join sep (fld.map shown))
    else some (join sep (st.2.map fun x => shown (x.getD [])))
  else none

/-- `\s$opt_t\=(.*?)\s`. -/
def xidPattern (t : Text) : Pat Text := do
  let _ ← cls isSpace
  lit (t ++ ['='])
  let v ← lazily notNl
  let _ ← cls isSpace
  pure v

/-- What the loop over the file carries; `match1` is `$1`. -/
structure KvState where
  match1 : Text
  xid : Text
  lastXid : Text
  xtext : Text
  out : List Text

/-- The loop body once `$xid` is known. -/
def KvState.take (o : KvOpts) (ks : List Text) (st : KvState) (x l : Text) : KvState :=
  if x = st.lastXid then { st with match1 := x, xid := x, xtext := st.xtext ++ l }
  else ⟨x, x, x, l, st.out ++ (processLine o ks st.xtext).toList⟩

/-- The loop body. -/
def kvLine (o : KvOpts) (ks : List Text) (st : KvState) (line : Text) : KvState :=
  let l := ' ' :: chomp line ++ [' ']
  match o.t with
  | none => { st with out := st.out ++ (processLine o ks l).toList }
  | some t => st.take o ks ((capture (xidPattern t) l).getD st.match1) l

/-- The loop over the file. -/
def kvLines (o : KvOpts) (ks : List Text) (file : Text) : KvState :=
  (readlines file).foldl (kvLine o ks) ⟨[], [], [], [], []⟩

/-- `kvgrep`: the lines it prints. -/
def kvgrep (o : KvOpts) (keylist file : Text) : List Text :=
  let ks := splitChar ',' keylist
  let st := kvLines o ks file
  -- The last transaction is still open.
  if o.t.isSome && st.xid == st.lastXid then st.out ++ (processLine o ks st.xtext).toList
  else st.out

/-! ## Collecting tokens -/

section Collect

variable {ks : List Text}

theorem keyPlace_of_notMem {k : Text} (h : k ∉ ks) : keyPlace ks k = none := by
  refine lookup_of_notMem ?_
  rw [List.map_reverse, List.mem_reverse, List.zipIdx_map_fst]
  exact h

theorem keyPlace_of_getElem? (hn : ks.Nodup) {i : Nat} {k : Text} (h : ks[i]? = some k) :
    keyPlace ks k = some i := by
  have hnodup : (ks.zipIdx.reverse.map Prod.fst).Nodup := by
    rw [List.map_reverse, List.zipIdx_map_fst]
    exact List.nodup_reverse.mpr hn
  have hmem : (k, i) ∈ ks.zipIdx.reverse := by
    rw [List.mem_reverse, List.mem_zipIdx_iff_getElem?]
    exact h
  exact lookup_of_nodup hnodup hmem

theorem collect_snoc (fld : List Text) (kv : Text) :
    collect ks (fld ++ [kv]) =
      match keyPlace ks (tokenKey kv) with
      | none => collect ks fld
      | some i => ((collect ks fld).1 + 1, setAt (collect ks fld).2 i kv) := by
  unfold collect
  rw [List.foldl_append, List.foldl_cons, List.foldl_nil]

theorem exists_keyPlace (hn : ks.Nodup) {k : Text} (h : k ∈ ks) :
    ∃ i, ks[i]? = some k ∧ keyPlace ks k = some i := by
  obtain ⟨i, hi, rfl⟩ := List.mem_iff_getElem.mp h
  have hget : ks[i]? = some ks[i] := List.getElem?_eq_getElem hi
  exact ⟨i, hget, keyPlace_of_getElem? hn hget⟩

/-- `$flag` counts the tokens with a listed key. -/
theorem collect_fst (hn : ks.Nodup) (fld : List Text) :
    (collect ks fld).1 = (fld.filter fun kv => tokenKey kv ∈ ks).length := by
  induction fld using List.reverseRecOn with
  | nil => rfl
  | append_singleton fld kv ih =>
      rw [collect_snoc, List.filter_append, List.length_append, ← ih]
      by_cases hk : tokenKey kv ∈ ks
      · obtain ⟨i, -, hi⟩ := exists_keyPlace hn hk
        simp [hi, hk]
      · simp [keyPlace_of_notMem hk, hk]

/-- If no listed key is repeated, `$flag` reaches the number of keys exactly
when they are all there. -/
theorem le_collect_fst_iff (hn : ks.Nodup) {fld : List Text}
    (hf : ((fld.filter fun kv => tokenKey kv ∈ ks).map tokenKey).Nodup) :
    ks.length ≤ (collect ks fld).1 ↔ ∀ k ∈ ks, ∃ kv ∈ fld, tokenKey kv = k := by
  have hmem : ∀ k, k ∈ (fld.filter fun kv => tokenKey kv ∈ ks).map tokenKey ↔
      k ∈ ks ∧ ∃ kv ∈ fld, tokenKey kv = k := by
    intro k
    simp only [List.mem_map, List.mem_filter, decide_eq_true_eq]
    constructor
    · intro h
      obtain ⟨kv, ⟨hkv, hk⟩, rfl⟩ := h
      exact ⟨hk, kv, hkv, rfl⟩
    · intro h
      obtain ⟨hk, kv, hkv, rfl⟩ := h
      exact ⟨kv, ⟨hkv, hk⟩, rfl⟩
  rw [collect_fst hn]
  constructor
  · intro hlen k hk
    have hlen : ks.length ≤ ((fld.filter fun kv => tokenKey kv ∈ ks).map tokenKey).length := by
      rwa [List.length_map]
    have hsub : (fld.filter fun kv => tokenKey kv ∈ ks).map tokenKey ⊆ ks :=
      fun k hk => ((hmem k).mp hk).1
    have hperm := (List.subperm_of_subset hf hsub).perm_of_length_le hlen
    exact ((hmem k).mp (hperm.mem_iff.mpr hk)).2
  · intro hall
    have hsub : ks ⊆ (fld.filter fun kv => tokenKey kv ∈ ks).map tokenKey :=
      fun k hk => (hmem k).mpr ⟨hk, hall k hk⟩
    have hlen := (List.subperm_of_subset hn hsub).length_le
    rwa [List.length_map] at hlen

/-- `@output` has no more places than there are keys, -/
theorem length_collect_snd (hn : ks.Nodup) (fld : List Text) :
    (collect ks fld).2.length ≤ ks.length := by
  induction fld using List.reverseRecOn with
  | nil => exact Nat.zero_le _
  | append_singleton fld kv ih =>
      rw [collect_snoc]
      by_cases hk : tokenKey kv ∈ ks
      · obtain ⟨i, hget, hi⟩ := exists_keyPlace hn hk
        have hlt : i < ks.length := (List.getElem?_eq_some_iff.mp hget).1
        simp only [hi, length_setAt]
        omega
      · simp only [keyPlace_of_notMem hk]
        exact ih

/-- and each place shows the last token with its key. -/
theorem getD_collect_snd (hn : ks.Nodup) (fld : List Text) {i : Nat} {k : Text}
    (h : ks[i]? = some k) :
    (collect ks fld).2.getD i none = fld.reverse.find? fun kv => tokenKey kv = k := by
  induction fld using List.reverseRecOn with
  | nil => rfl
  | append_singleton fld kv ih =>
      rw [collect_snoc, List.reverse_append, List.reverse_singleton, List.singleton_append,
        List.find?_cons]
      by_cases hk : tokenKey kv ∈ ks
      · obtain ⟨j, hget, hj⟩ := exists_keyPlace hn hk
        simp only [hj, getD_setAt, ih]
        by_cases hij : i = j
        · subst hij
          obtain rfl : k = tokenKey kv := Option.some.inj (h.symm.trans hget)
          simp
        · have hne : tokenKey kv ≠ k := by
            rintro rfl
            exact hij (Option.some.inj ((keyPlace_of_getElem? hn h).symm.trans hj))
          simp [hij, hne]
      · have hne : tokenKey kv ≠ k := by
          rintro rfl
          exact hk (List.mem_of_getElem? h)
        simp only [keyPlace_of_notMem hk, ih]
        simp [hne]

/-- When every key is there, `@output` shows one token for each, in order. -/
theorem collect_snd (hn : ks.Nodup) {fld : List Text}
    (hall : ∀ k ∈ ks, ∃ kv ∈ fld, tokenKey kv = k) :
    (collect ks fld).2 = ks.map fun k => fld.reverse.find? fun kv => tokenKey kv = k := by
  have hfound : ∀ {i k}, ks[i]? = some k → (collect ks fld).2.getD i none ≠ none := by
    intro i k h
    rw [getD_collect_snd hn fld h, ne_eq, List.find?_eq_none]
    intro hnone
    obtain ⟨kv, hkv, hk⟩ := hall k (List.mem_of_getElem? h)
    exact hnone kv (List.mem_reverse.mpr hkv) (by simpa using hk)
  have hlen : (collect ks fld).2.length = ks.length := by
    refine le_antisymm (length_collect_snd hn fld) ?_
    by_contra hlt
    push Not at hlt
    refine hfound (List.getElem?_eq_getElem hlt) ?_
    rw [List.getD, List.getElem?_eq_none (le_refl _), Option.getD_none]
  apply List.ext_getElem (by simpa using hlen)
  intro i h₁ h₂
  have hi : i < ks.length := by omega
  have hplace := getD_collect_snd hn fld (List.getElem?_eq_getElem hi)
  rw [List.getD, List.getElem?_eq_getElem h₁, Option.getD_some] at hplace
  rw [hplace, List.getElem_map]

end Collect

end Memrec
