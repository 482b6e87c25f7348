import Mathlib.Algebra.BigOperators.Group.List.Lemmas
import Memrec.Kvgrep

/-!
# Which lines `kvgrep` prints, and as what

`process_line` counts the tokens of a text whose key was asked for, and prints the text if
there are as many of them as keys, or with `-O` if there is one.  It shows the tokens in
the order of the keys, in an array that ends with the last place that was assigned.

A key may occur several times, above all in a transaction of several lines, and then the
count is not the number of keys that are there: `selection_iff` says when this does not
matter.  With `-C` the array is joined with commas, and `rows_table_iff` says when a row
has one field for each key.
-/

namespace Memrec

open Perl

/-! ## Occurrences -/

/-- How often a key occurs in a text. -/
def occurrences (l k : Text) : Nat := ((splitWs l).map tokenKey).count k

/-- A key is the key of some token. -/
def Occurs (l k : Text) : Prop := ∃ kv ∈ splitWs l, tokenKey kv = k

/-- The keys that do not occur. -/
def missingKeys (ks : List Text) (l : Text) : List Text := ks.filter fun k => occurrences l k = 0

/-- The occurrences of keys beyond the first of each. -/
def surplus (ks : List Text) (l : Text) : Nat := (ks.map fun k => occurrences l k - 1).sum

theorem occurrences_eq_zero_iff {l k : Text} : occurrences l k = 0 ↔ ¬ Occurs l k := by
  simp [occurrences, Occurs, List.count_eq_zero]

/-- How many entries of a list belong to another one. -/
theorem countP_mem_eq_sum {α : Type} [BEq α] [LawfulBEq α] {ks : List α} (hn : ks.Nodup)
    (ts : List α) : ts.countP (· ∈ ks) = (ks.map fun k => ts.count k).sum := by
  induction ts with
  | nil => simp
  | cons t ts ih =>
      have hone : (ks.map fun k => if t == k then 1 else 0).sum = if t ∈ ks then 1 else 0 := by
        clear ih
        induction ks with
        | nil => rfl
        | cons k ks ihk =>
            obtain ⟨hk, hn⟩ := List.nodup_cons.mp hn
            rw [List.map_cons, List.sum_cons, ihk hn]
            by_cases htk : t = k
            · subst htk
              simp [hk]
            · simp [htk]
      simp only [List.countP_cons, List.count_cons, decide_eq_true_eq, List.sum_map_add, hone, ih]

/-- `$flag` is the number of occurrences of the keys. -/
theorem collect_fst_eq_sum {ks : List Text} (hn : ks.Nodup) (l : Text) :
    (collect ks (splitWs l)).1 = (ks.map (occurrences l)).sum := by
  rw [collect_fst hn, ← List.countP_eq_length_filter]
  have hmap := countP_mem_eq_sum hn ((splitWs l).map tokenKey)
  rw [List.countP_map] at hmap
  exact hmap

/-- The occurrences of a key, and one for a key that is missing, are one and the surplus. -/
theorem sum_occurrences (ks : List Text) (l : Text) :
    (ks.map (occurrences l)).sum + (missingKeys ks l).length = ks.length + surplus ks l := by
  induction ks with
  | nil => rfl
  | cons k ks ih =>
      have hsurplus : surplus (k :: ks) l = occurrences l k - 1 + surplus ks l := rfl
      rw [List.map_cons, List.sum_cons, List.length_cons, hsurplus]
      by_cases hk : occurrences l k = 0
      · have hmissing : missingKeys (k :: ks) l = k :: missingKeys ks l := by
          simp [missingKeys, hk]
        rw [hmissing, List.length_cons]
        omega
      · have hmissing : missingKeys (k :: ks) l = missingKeys ks l := by
          simp [missingKeys, hk]
        rw [hmissing]
        omega

/-- `process_line` prints if `$flag` is large enough. -/
theorem processLine_isSome_iff (o : KvOpts) (ks : List Text) (l : Text) :
    (processLine o ks l).isSome ↔
      (if o.O then 1 else ks.length) ≤ (collect ks (splitWs l)).1 := by
  simp only [processLine, ge_iff_le]
  generalize (if o.O = true then 1 else ks.length) = fval
  by_cases hflag : fval ≤ (collect ks (splitWs l)).1
  · rw [if_pos hflag]
    cases o.A <;> simp [hflag]
  · simp [hflag]

/-! ## Selection -/

/-- A text is printed exactly if all keys occur in it, or with `-O` if one does. -/
def Selects (o : KvOpts) (ks : List Text) (l : Text) : Prop :=
  (processLine o ks l).isSome ↔ if o.O then ∃ k ∈ ks, Occurs l k else ∀ k ∈ ks, Occurs l k

theorem missingKeys_eq_nil_iff {ks : List Text} {l : Text} :
    missingKeys ks l = [] ↔ ∀ k ∈ ks, Occurs l k := by
  simp [missingKeys, List.filter_eq_nil_iff, occurrences_eq_zero_iff]

theorem sum_occurrences_pos_iff {ks : List Text} {l : Text} :
    1 ≤ (ks.map (occurrences l)).sum ↔ ∃ k ∈ ks, Occurs l k := by
  have hocc : ∀ k, 0 < occurrences l k ↔ Occurs l k := by
    intro k
    rw [Nat.pos_iff_ne_zero, ne_eq, occurrences_eq_zero_iff, not_not]
  exact List.sum_pos_iff_exists_pos_nat.trans (by simp [hocc])

/-- **Selection.**  With `-O` the right texts are printed.  In the default mode they are if
and only if no key is missing, or the keys that are there are repeated less often than
keys are missing. -/
theorem selection_iff (o : KvOpts) (ks : List Text) (l : Text) (hn : ks.Nodup) :
    Selects o ks l ↔
      o.O = true ∨ missingKeys ks l = [] ∨ surplus ks l < (missingKeys ks l).length := by
  have hprinted := processLine_isSome_iff o ks l
  rw [collect_fst_eq_sum hn] at hprinted
  rw [Selects, hprinted]
  cases hO : o.O with
  | true => simp [sum_occurrences_pos_iff]
  | false =>
      have hsum := sum_occurrences ks l
      simp only [Bool.false_eq_true, if_false, false_or]
      rw [← missingKeys_eq_nil_iff, ← List.length_eq_zero_iff]
      omega

/-- Both keys of the list are there, one of them twice. -/
theorem selection_repeated :
    Selects ⟨false, false, false, false, none⟩ ["xid".toList, "cpu".toList]
        " xid=7 cpu=1 xid=7 ".toList ↔
      (false = true ∨ missingKeys ["xid".toList, "cpu".toList] " xid=7 cpu=1 xid=7 ".toList = [] ∨
        surplus ["xid".toList, "cpu".toList] " xid=7 cpu=1 xid=7 ".toList <
          (missingKeys ["xid".toList, "cpu".toList] " xid=7 cpu=1 xid=7 ".toList).length) :=
  selection_iff ⟨false, false, false, false, none⟩ _ _ (by decide)

/-- The transaction id on two lines stands in for the key that is missing. -/
theorem repeated_key_selected :
    ¬ ∀ l, Selects ⟨false, false, false, false, none⟩ ["xid".toList, "cpu".toList] l := by
  intro hall
  have hprinted : (processLine ⟨false, false, false, false, none⟩ ["xid".toList, "cpu".toList]
      " xid=7 load=1  xid=7 mem=2 ".toList).isSome := by decide
  have hkeys := (hall " xid=7 load=1  xid=7 mem=2 ".toList).mp hprinted
  obtain ⟨kv, hkv, hkey⟩ := hkeys "cpu".toList (by decide)
  have hnone : (splitWs " xid=7 load=1  xid=7 mem=2 ".toList).all
      (fun kv => tokenKey kv ≠ "cpu".toList) = true := by decide
  simpa [hkey] using List.all_eq_true.mp hnone kv hkv

/-! ## Rows -/

/-- The last token with a key. -/
def lastToken (l k : Text) : Option Text := (splitWs l).reverse.find? fun kv => tokenKey kv = k

/-- The value of a key in a text: what stands after the equals sign of its last token. -/
def keyValue (l k : Text) : Text :=
  match lastToken l k with
  | none => []
  | some kv => if '=' ∈ kv then (kv.dropWhile (· ≠ '=')).tail else []

/-- Every row that `kvgrep -C` prints has one field for each key, and that is its value. -/
def IsTable (o : KvOpts) (ks : List Text) (l : Text) : Prop :=
  ∀ row, processLine { o with C := true, A := false } ks l = some row →
    row.splitOn ',' = ks.map (keyValue l)

/-- The last key of the list occurs, no value has a comma in it, and no key stands alone
where its value is looked for. -/
structure RowFits (ks : List Text) (l : Text) : Prop where
  last : ∃ k, ks.getLast? = some k ∧ Occurs l k
  commas : ∀ k ∈ ks, ',' ∉ keyValue l k
  valued : ∀ k ∈ ks, lastToken l k = some k → k = []

theorem lastToken_ne_none_iff {l k : Text} : lastToken l k ≠ none ↔ Occurs l k := by
  simp [lastToken, Occurs, List.find?_eq_none]

/-- The key of a token has no equals sign. -/
theorem notMem_tokenKey (kv : Text) : '=' ∉ tokenKey kv := by
  unfold tokenKey
  split
  · cases hs : splitChar '=' kv with
    | nil => simp
    | cons w ws => exact notMem_of_mem_splitChar (s := kv) (by simp [hs])
  · assumption

/-- A key that stands alone is shown itself, any other one with its value. -/
theorem dropKey_lastToken (l k : Text) :
    dropKey ((lastToken l k).getD []) = if lastToken l k = some k then k else keyValue l k := by
  cases hl : lastToken l k with
  | none => simp [dropKey, keyValue, hl]
  | some kv =>
      have hkey : tokenKey kv = k := by simpa using List.find?_some hl
      by_cases heq : '=' ∈ kv
      · have hne : kv ≠ k := by
          intro h
          have hno := notMem_tokenKey kv
          rw [hkey, ← h] at hno
          exact hno heq
        simp [dropKey, keyValue, hl, heq, hne]
      · obtain rfl : kv = k := by simpa [tokenKey, heq] using hkey
        simp [dropKey, heq]

section Rows

variable {ks : List Text}

/-- `@output` shows the last tokens of the first keys of the list, -/
theorem collect_snd_eq_take (hn : ks.Nodup) (l : Text) :
    (collect ks (splitWs l)).2 =
      (ks.take (collect ks (splitWs l)).2.length).map (lastToken l) := by
  have hlen := length_collect_snd hn (splitWs l)
  apply List.ext_getElem
  · rw [List.length_map, List.length_take]
    omega
  · intro i hi _
    have hget := getD_collect_snd hn (splitWs l)
      (List.getElem?_eq_getElem (l := ks) (show i < ks.length by omega))
    rw [List.getD, List.getElem?_eq_getElem hi, Option.getD_some] at hget
    rw [hget, List.getElem_map, List.getElem_take]
    rfl

/-- and ends with one that is there. -/
theorem collect_snd_last (fld : List Text) (hne : (collect ks fld).2 ≠ []) :
    (collect ks fld).2.getD ((collect ks fld).2.length - 1) none ≠ none := by
  induction fld using List.reverseRecOn with
  | nil => exact absurd rfl hne
  | append_singleton fld kv ih =>
      rw [collect_snoc] at hne ⊢
      cases hplace : keyPlace ks (tokenKey kv) with
      | none =>
          rw [hplace] at hne
          exact ih hne
      | some i =>
          dsimp only
          rw [length_setAt, getD_setAt]
          split
          case isTrue => simp
          case isFalse hi =>
            have hlong : max (collect ks fld).2.length (i + 1) = (collect ks fld).2.length := by
              omega
            rw [hlong]
            refine ih ?_
            intro hnil
            rw [hnil] at hlong
            simp at hlong

/-- The array has a place for every key exactly if the last key occurs. -/
theorem length_collect_snd_iff (hn : ks.Nodup) (hne : ks ≠ []) (l : Text) :
    (collect ks (splitWs l)).2.length = ks.length ↔
      ∃ k, ks.getLast? = some k ∧ Occurs l k := by
  obtain ⟨k, hk⟩ : ∃ k, ks.getLast? = some k := ⟨_, List.getLast?_eq_getLast_of_ne_nil hne⟩
  have hpos := List.length_pos_iff.mpr hne
  have hlen := length_collect_snd hn (splitWs l)
  have hplace := getD_collect_snd hn (splitWs l) (List.getLast?_eq_getElem? ▸ hk)
  have hoccurs : (∃ k', ks.getLast? = some k' ∧ Occurs l k') ↔ lastToken l k ≠ none := by
    rw [lastToken_ne_none_iff, hk]
    simp
  rw [hoccurs, lastToken, ← hplace]
  constructor
  · intro hfull
    rw [← hfull]
    exact collect_snd_last _ (List.length_pos_iff.mp (by omega))
  · intro hlast
    by_contra hshort
    rw [List.getD, List.getElem?_eq_none (by omega)] at hlast
    exact hlast rfl

/-- The row of a text: the first keys with what is shown of them. -/
theorem processLine_row (hn : ks.Nodup) (o : KvOpts) (l : Text) :
    processLine { o with C := true, A := false } ks l =
      if (if o.O then 1 else ks.length) ≤ (ks.map (occurrences l)).sum then
        some (join [','] ((ks.take (collect ks (splitWs l)).2.length).map fun k =>
          if lastToken l k = some k then k else keyValue l k))
      else none := by
  have hshown : (collect ks (splitWs l)).2.map (fun x => dropKey (x.getD [])) =
      (ks.take (collect ks (splitWs l)).2.length).map fun k =>
        if lastToken l k = some k then k else keyValue l k := by
    conv_lhs => rw [collect_snd_eq_take hn]
    rw [List.map_map]
    exact List.map_congr_left fun k _ => dropKey_lastToken l k
  simp only [processLine, ge_iff_le, Bool.or_true, if_true, Bool.false_eq_true, if_false, hshown,
    collect_fst_eq_sum hn]

/-- If a key of the list occurs, the array is not empty. -/
theorem length_collect_snd_pos (hn : ks.Nodup) {l : Text}
    (h : 1 ≤ (ks.map (occurrences l)).sum) : 0 < (collect ks (splitWs l)).2.length := by
  obtain ⟨k, hk, hocc⟩ := sum_occurrences_pos_iff.mp h
  obtain ⟨i, hi, rfl⟩ := List.mem_iff_getElem.mp hk
  have hplace := getD_collect_snd hn (splitWs l) (List.getElem?_eq_getElem hi)
  by_contra hnone
  rw [List.getD, List.getElem?_eq_none (by omega)] at hplace
  exact lastToken_ne_none_iff.mpr hocc hplace.symm

/-- The first entries under one map are all entries under another. -/
theorem map_take_eq_map_iff {α β : Type} {f g : α → β} {xs : List α} {n : Nat}
    (hn : n ≤ xs.length) :
    (xs.take n).map f = xs.map g ↔ n = xs.length ∧ ∀ x ∈ xs, f x = g x := by
  constructor
  · intro h
    have hlen := congrArg List.length h
    rw [List.length_map, List.length_map, List.length_take] at hlen
    have hfull : n = xs.length := by omega
    rw [hfull, List.take_length] at h
    exact ⟨hfull, List.map_inj_left.mp h⟩
  · intro ⟨hfull, hfg⟩
    rw [hfull, List.take_length]
    exact List.map_congr_left hfg

/-- A key is shown with its value unless it stands alone. -/
theorem shown_eq_keyValue_iff (l k : Text) :
    (if lastToken l k = some k then k else keyValue l k) = keyValue l k ↔
      (lastToken l k = some k → k = []) := by
  by_cases hbare : lastToken l k = some k
  · have hkey : tokenKey k = k := by simpa using List.find?_some hbare
    have hno := notMem_tokenKey k
    rw [hkey] at hno
    have hvalue : keyValue l k = [] := by simp [keyValue, hbare, hno]
    simp [hbare, hvalue]
  · simp [hbare]

/-- A row of keys and values without commas splits into them. -/
theorem splitOn_row {l : Text} {n : Nat} (hplain : ∀ k ∈ ks, ',' ∉ k)
    (hcommas : ∀ k ∈ ks, ',' ∉ keyValue l k) (hfirst : ks.take n ≠ []) :
    (join [','] ((ks.take n).map fun k =>
      if lastToken l k = some k then k else keyValue l k)).splitOn ',' =
    (ks.take n).map fun k => if lastToken l k = some k then k else keyValue l k := by
  refine List.splitOn_intercalate ',' ?_ (mt List.map_eq_nil_iff.mp hfirst)
  intro w hw
  obtain ⟨k, hk, rfl⟩ := List.mem_map.mp hw
  have hk := List.mem_of_mem_take hk
  split
  · exact hplain k hk
  · exact hcommas k hk

end Rows

/-- **Rows.**  Whatever the keys are, and with `-O` or without it, the rows for a text are
those of a table if and only if none is printed, or the last key occurs, no value has a
comma, and no key stands alone where its value is looked for. -/
theorem rows_table_iff (o : KvOpts) (keylist l : Text) (hn : (splitChar ',' keylist).Nodup) :
    IsTable o (splitChar ',' keylist) l ↔
      ((if o.O then 1 else (splitChar ',' keylist).length) ≤
          ((splitChar ',' keylist).map (occurrences l)).sum →
        RowFits (splitChar ',' keylist) l) := by
  have hplain : ∀ k ∈ splitChar ',' keylist, ',' ∉ k := fun k hk => notMem_of_mem_splitChar hk
  generalize splitChar ',' keylist = ks at hn hplain
  rw [IsTable, processLine_row hn]
  by_cases hdue : (if o.O then 1 else ks.length) ≤ (ks.map (occurrences l)).sum
  swap
  · simp [hdue]
  simp only [hdue, if_true, Option.some.injEq, forall_eq', true_imp_iff]
  by_cases hempty : ks = []
  · -- An empty row has one field.
    subst hempty
    constructor
    · intro htable
      simp [join] at htable
    · intro hfits
      obtain ⟨k, hk, -⟩ := hfits.last
      cases hk
  have hpos : 0 < (collect ks (splitWs l)).2.length := by
    refine length_collect_snd_pos hn (le_trans ?_ hdue)
    split
    · exact le_refl 1
    · exact List.length_pos_iff.mpr hempty
  have hlast := length_collect_snd_iff hn hempty l
  have hle := length_collect_snd hn (splitWs l)
  generalize (collect ks (splitWs l)).2.length = n at hpos hlast hle
  have hfirst : ks.take n ≠ [] := by
    rw [ne_eq, List.take_eq_nil_iff]
    exact not_or.mpr ⟨hpos.ne', hempty⟩
  constructor
  · intro htable
    have hcommas : ∀ k ∈ ks, ',' ∉ keyValue l k := by
      intro k hk
      have hmem := List.mem_map_of_mem (f := keyValue l) hk
      rw [← htable] at hmem
      exact notMem_of_mem_splitOn hmem
    rw [splitOn_row hplain hcommas hfirst, map_take_eq_map_iff hle] at htable
    obtain ⟨hfull, hshown⟩ := htable
    exact ⟨hlast.mp hfull, hcommas, fun k hk => (shown_eq_keyValue_iff l k).mp (hshown k hk)⟩
  · intro hfits
    rw [splitOn_row hplain hfits.commas hfirst, map_take_eq_map_iff hle]
    exact ⟨hlast.mpr hfits.last,
      fun k hk => (shown_eq_keyValue_iff l k).mpr (hfits.valued k hk)⟩

/-- A line with a value for each of two keys. -/
theorem rows_table_two :
    IsTable ⟨true, true, false, true, none⟩ (splitChar ',' "load,cpu".toList)
        " cpu=7 load=2 ".toList ↔
      ((if (KvOpts.mk true true false true none).O then 1
          else (splitChar ',' "load,cpu".toList).length) ≤
          ((splitChar ',' "load,cpu".toList).map (occurrences " cpu=7 load=2 ".toList)).sum →
        RowFits (splitChar ',' "load,cpu".toList) " cpu=7 load=2 ".toList) :=
  rows_table_iff ⟨true, true, false, true, none⟩ "load,cpu".toList " cpu=7 load=2 ".toList
    (by decide)

/-- The list of processor loads takes up three fields of a row for two keys. -/
theorem list_value_not_table :
    ¬ ∀ l, IsTable ⟨false, true, false, true, none⟩ (splitChar ',' "cpu_list,cpu".toList) l := by
  intro hall
  have hrow : processLine ⟨false, true, false, true, none⟩ (splitChar ',' "cpu_list,cpu".toList)
      " cpu=5 cpu_list=3,0,12 ".toList = some "3,0,12,5".toList := by decide
  have hfields := congrArg List.length (hall _ _ hrow)
  exact absurd hfields (by decide)

end Memrec
