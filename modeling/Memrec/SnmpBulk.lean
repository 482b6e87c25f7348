import Mathlib.Data.List.Lex
import Memrec.SnmpSwitch

/-!
# Bulk requests

A bulk request asks for a number of objects behind an identifier, in the order of the
identifiers.  It does not stop where the column ends.  `snmpswitch` and `snmpswitchCSV`
keep of every identifier in the answer only its last number, and take the column from
the request, so that what has been read beyond the column is stored under a name that
belongs to another row.

`columns_unmixed_iff` says for which answers nothing is mixed up, whatever the order in
which the hashes are listed.
-/

namespace Memrec

open Perl Pat Hash

/-! ## Identifiers -/

/-- The numbers of an object identifier. -/
abbrev Oid : Type := List Nat

/-- How identifiers are written. -/
def oidText (o : Oid) : Text := join ['.'] (o.map fun n : Nat => decimal n)

def oidOf (t : Text) : Oid := (t.splitOn '.').map fun w => (int (numify w)).toNat

theorem oidOf_oidText {o : Oid} (h : o ≠ []) : oidOf (oidText o) = o := by
  have hdots : ∀ w ∈ o.map fun n : Nat => decimal n, '.' ∉ w := by
    intro w hw
    obtain ⟨n, -, rfl⟩ := List.mem_map.mp hw
    exact notMem_decimal (by decide) (by decide) n
  have hsplit : (oidText o).splitOn '.' = o.map fun n : Nat => decimal n :=
    List.splitOn_intercalate '.' hdots (mt List.map_eq_nil_iff.mp h)
  have hnumber : ((fun w => (int (numify w)).toNat) ∘ fun n : Nat => decimal n) = id := by
    funext n
    exact toNat_numify_decimal n
  rw [oidOf, hsplit, List.map_map, hnumber, List.map_id]

theorem oidText_cons (a : Nat) {v : Oid} (hv : v ≠ []) :
    oidText (a :: v) = decimal a ++ '.' :: oidText v := by
  obtain ⟨b, v, rfl⟩ := List.exists_cons_of_ne_nil hv
  simp [oidText, join, List.intercalate]

/-- The last number stands behind the last dot. -/
theorem oidText_concat {u : Oid} (hu : u ≠ []) (p : Nat) :
    oidText (u ++ [p]) = cellOid (oidText u) p := by
  induction u with
  | nil => exact absurd rfl hu
  | cons a u ih =>
      cases u with
      | nil => simp [oidText, join, cellOid, List.intercalate]
      | cons b u =>
          rw [List.cons_append, oidText_cons a (by simp), ih (List.cons_ne_nil b u),
            oidText_cons a (List.cons_ne_nil b u), cellOid, cellOid, List.append_assoc]
          rfl

theorem notNl_oidText (o : Oid) : ∀ c ∈ oidText o, notNl c := by
  have hnumber : ∀ n : Nat, ∀ c ∈ decimal n, notNl c := fun n c hc =>
    notNl_of_isDigit (isDigit_of_mem_decimal hc)
  induction o with
  | nil =>
      intro c hc
      cases hc
  | cons a o ih =>
      intro c hc
      by_cases ho : o = []
      · subst ho
        simp only [oidText, join, List.intercalate, List.map_cons, List.map_nil,
          List.intersperse_singleton, List.flatten_cons, List.flatten_nil,
          List.append_nil] at hc
        exact hnumber a c hc
      · rw [oidText_cons a ho] at hc
        rcases List.mem_append.mp hc with hc | hc
        · exact hnumber a c hc
        rcases List.mem_cons.mp hc with rfl | hc
        · decide
        · exact ih c hc

/-- The number of a row is read back from any identifier that has two numbers. -/
theorem Snmpswitch.port_oidText {u : Oid} (hu : u ≠ []) (p : Nat) :
    port (oidText (u ++ [p])) = p := by
  rw [oidText_concat hu]
  exact port_cellOid (notNl_oidText u) p

/-! ## What an agent knows -/

/-- The numbers of `$OID_ifInOctets` and its siblings. -/
def Column.num : Column → Oid
  | inOctets => [1, 3, 6, 1, 2, 1, 2, 2, 1, 10]
  | inUcastPkts => [1, 3, 6, 1, 2, 1, 2, 2, 1, 11]
  | inNUcastPkts => [1, 3, 6, 1, 2, 1, 2, 2, 1, 12]
  | inDiscards => [1, 3, 6, 1, 2, 1, 2, 2, 1, 13]
  | inErrors => [1, 3, 6, 1, 2, 1, 2, 2, 1, 14]
  | outOctets => [1, 3, 6, 1, 2, 1, 2, 2, 1, 16]
  | outUcastPkts => [1, 3, 6, 1, 2, 1, 2, 2, 1, 17]
  | outNUcastPkts => [1, 3, 6, 1, 2, 1, 2, 2, 1, 18]
  | outDiscards => [1, 3, 6, 1, 2, 1, 2, 2, 1, 19]
  | outErrors => [1, 3, 6, 1, 2, 1, 2, 2, 1, 20]

theorem oidText_num (c : Column) : oidText c.num = c.oid := by
  cases c <;> rfl

theorem Column.num_ne_nil (c : Column) : c.num ≠ [] := by
  cases c <;> exact List.cons_ne_nil _ _

/-- The objects of an agent in the order of their identifiers.  An identifier has at
least two numbers, and what stands in a column of the interface table has an index of one
number. -/
structure Mib where
  entries : List (Oid × Scalar)
  sorted : (entries.map Prod.fst).Pairwise (· < ·)
  long : ∀ e ∈ entries, 2 ≤ e.1.length
  flat : ∀ e ∈ entries, ∀ c : Column, c.num <+: e.1 → ∃ p, e.1 = c.num ++ [p]

namespace Mib

variable (M : Mib)

/-- The object with an identifier. -/
def value (o : Oid) : Option Scalar := M.entries.lookup o

/-- The next `n` objects behind an identifier. -/
def next (n : Nat) (o : Oid) : List (Oid × Scalar) := (M.entries.filter fun e => o < e.1).take n

/-- The rows of a column. -/
def rows (c : Column) : List (Oid × Scalar) := M.entries.filter fun e => c.num <+: e.1

/-- The agent: it answers from these objects. -/
def session : Session where
  getRequest oid := (M.value (oidOf oid)).map fun v => storeAll ∅ [(oid, v)]
  getBulkRequest n oid := some (storeAll ∅ ((M.next n (oidOf oid)).map fun e => (oidText e.1, e.2)))

theorem nodup_entries : (M.entries.map Prod.fst).Nodup := M.sorted.imp fun h => h.ne

theorem value_eq_some_iff {o : Oid} {v : Scalar} : M.value o = some v ↔ (o, v) ∈ M.entries := by
  constructor
  · intro h
    obtain ⟨l₁, l₂, hl, -⟩ := List.lookup_eq_some_iff.mp h
    rw [hl]
    simp
  · intro h
    exact lookup_of_nodup M.nodup_entries h

end Mib

/-- Behind an identifier, what goes on from it comes before everything else. -/
theorem extension_lt {c a : Oid} (h : c < a) (hno : ¬ c <+: a) (t : Oid) : c ++ t < a := by
  induction c generalizing a with
  | nil => exact absurd (List.nil_prefix) hno
  | cons x c ih =>
      cases a with
      | nil => exact absurd h (List.not_lt_nil _)
      | cons y a =>
          rw [List.cons_append, List.cons_lt_cons_iff]
          rcases List.cons_lt_cons_iff.mp h with hxy | ⟨rfl, hca⟩
          · exact .inl hxy
          · refine .inr ⟨rfl, ih hca ?_⟩
            intro hpre
            exact hno (List.cons_prefix_cons.mpr ⟨rfl, hpre⟩)

/-- In a list whose order keeps some entries in front, filtering takes them off. -/
theorem filter_front {α : Type} {l : List α} {p q : α → Bool}
    (h : l.Pairwise fun a b => q a → p b → p a) (hpq : ∀ a ∈ l, p a → q a) :
    l.filter q = l.filter p ++ l.filter fun a => q a && !p a := by
  induction l with
  | nil => rfl
  | cons a l ih =>
      obtain ⟨ha, hl⟩ := List.pairwise_cons.mp h
      have ih := ih hl fun b hb => hpq b (List.mem_cons_of_mem a hb)
      by_cases hp : p a
      · have hq := hpq a (by simp) hp
        simp [hp, hq, ih]
      · by_cases hq : q a
        · have hnone : l.filter p = [] := by
            rw [List.filter_eq_nil_iff]
            intro b hb hpb
            exact hp (ha b hb hq hpb)
          simp [hp, hq, ih, hnone]
        · simp [hp, hq, ih]

namespace Mib

variable (M : Mib)

/-- An answer is the rows of the column as far as they go, and then other objects. -/
theorem next_eq (n : Nat) (c : Column) : M.next n c.num = (M.rows c).take n ++
    (M.entries.filter fun e => c.num < e.1 && !decide (c.num <+: e.1)).take
      (n - (M.rows c).length) := by
  have hfront : M.entries.Pairwise fun a b =>
      decide (c.num < a.1) → decide (c.num <+: b.1) → decide (c.num <+: a.1) := by
    have hsorted := List.pairwise_map.mp M.sorted
    refine hsorted.imp ?_
    intro a b hab ha hb
    rw [decide_eq_true_eq] at ha hb ⊢
    by_contra hno
    obtain ⟨t, ht⟩ := hb
    have hlt := extension_lt ha hno t
    rw [ht] at hlt
    exact lt_asymm hab hlt
  have hrows : ∀ a ∈ M.entries, decide (c.num <+: a.1) → decide (c.num < a.1) := by
    intro a ha hpre
    obtain ⟨p, hp⟩ := M.flat a ha c (of_decide_eq_true hpre)
    rw [hp, decide_eq_true_eq]
    have hlt : ∀ o : Oid, o < o ++ [p] := by
      intro o
      induction o with
      | nil => exact List.nil_lt_cons p []
      | cons b o ih => exact List.cons_lt_cons_self.mpr ih
    exact hlt c.num
  rw [next, filter_front hfront hrows, List.take_append, rows]

/-- A row of a column is an object under its identifier. -/
theorem mem_rows {c : Column} {e : Oid × Scalar} :
    e ∈ M.rows c ↔ ∃ p v, e = (c.num ++ [p], v) ∧ M.value (c.num ++ [p]) = some v := by
  obtain ⟨o, v⟩ := e
  rw [rows, List.mem_filter, decide_eq_true_eq]
  constructor
  · rintro ⟨hmem, hpre⟩
    obtain ⟨p, hp⟩ := M.flat _ hmem c hpre
    change o = c.num ++ [p] at hp
    subst hp
    exact ⟨p, v, rfl, M.value_eq_some_iff.mpr hmem⟩
  · rintro ⟨p, w, heq, hv⟩
    obtain ⟨rfl, rfl⟩ := Prod.mk.inj heq
    exact ⟨M.value_eq_some_iff.mp hv, List.prefix_append _ _⟩

/-- A request that goes at least as far as the column gets all of it. -/
theorem rows_subset_next {n : Nat} {c : Column} (h : (M.rows c).length ≤ n) {e : Oid × Scalar}
    (he : e ∈ M.rows c) : e ∈ M.next n c.num := by
  rw [M.next_eq, List.take_of_length_le h]
  exact List.mem_append_left _ he

/-- A shorter one gets nothing else, and misses a row. -/
theorem next_of_lt {n : Nat} {c : Column} (h : n < (M.rows c).length) :
    M.next n c.num = (M.rows c).take n := by
  rw [M.next_eq, Nat.sub_eq_zero_of_le h.le, List.take_zero, List.append_nil]

theorem exists_row_notMem_next {n : Nat} {c : Column} (h : n < (M.rows c).length) :
    ∃ e ∈ M.rows c, e ∉ M.next n c.num := by
  refine ⟨(M.rows c)[n], List.getElem_mem h, ?_⟩
  have hnodup : (M.rows c).Nodup := (M.nodup_entries.of_map _).filter _
  rw [M.next_of_lt h]
  intro hmem
  obtain ⟨i, hi, heq⟩ := List.mem_take_iff_getElem.mp hmem
  have hin := (hnodup.getElem_inj_iff).mp heq
  omega

end Mib

/-- A bulk request returns the objects that come next, as many as it asks for. -/
structure Bulk (s : Session) (M : Mib) : Prop where
  next : ∀ n c, ∃ result, s.getBulkRequest n (Column.oid c) = some result ∧
    ∀ k v, result.lookup k = some v ↔ ∃ o, (o, v) ∈ M.next n c.num ∧ k = oidText o

theorem Mib.bulk (M : Mib) : Bulk M.session M where
  next n c := by
    have hoid : oidOf c.oid = c.num := by
      rw [← oidText_num, oidOf_oidText c.num_ne_nil]
    have hlong : ∀ e ∈ M.next n c.num, e.1 ≠ [] := by
      intro e he hnil
      have hlen := M.long e (List.mem_of_mem_filter (List.mem_of_mem_take he))
      rw [hnil] at hlen
      exact absurd hlen (by decide)
    have hkeys : (((M.next n c.num).map fun e => (oidText e.1, e.2)).map Prod.fst).Nodup := by
      have hnodup : ((M.next n c.num).map Prod.fst).Nodup :=
        M.nodup_entries.sublist (((List.take_sublist n _).trans List.filter_sublist).map Prod.fst)
      have hinj : ((M.next n c.num).map Prod.fst).Nodup → (((M.next n c.num).map Prod.fst).map
          oidText).Nodup := by
        refine List.Nodup.map_on ?_
        intro o ho o' ho' heq
        obtain ⟨e, he, rfl⟩ := List.mem_map.mp ho
        obtain ⟨e', he', rfl⟩ := List.mem_map.mp ho'
        rw [← oidOf_oidText (hlong e he), heq, oidOf_oidText (hlong e' he')]
      rw [List.map_map]
      have hmapped := hinj hnodup
      rwa [List.map_map] at hmapped
    refine ⟨_, rfl, ?_⟩
    intro k v
    rw [hoid, lookup_storeAll_empty_iff hkeys, List.mem_map]
    constructor
    · rintro ⟨e, he, heq⟩
      obtain ⟨rfl, rfl⟩ := Prod.mk.inj heq
      exact ⟨e.1, he, rfl⟩
    · rintro ⟨o, ho, rfl⟩
      exact ⟨(o, v), ho, rfl⟩

/-! ## What a poll mixes up -/

/-- What is stored under a name stands in the column of that name. -/
def NoneForeign (raw : Hash Text Scalar) (M : Mib) : Prop :=
  ∀ c p v, raw.lookup (rawKey (Column.nm c) p) = some v → M.value (c.num ++ [p]) = some v

/-- Under every name the value of the row is stored, or nothing if there is no such row. -/
def Unmixed (raw : Hash Text Scalar) (M : Mib) : Prop :=
  ∀ c p, raw.lookup (rawKey (Column.nm c) p) = M.value (c.num ++ [p])

/-- Every object in an answer has the value of the row with its last number. -/
def Alike (M : Mib) (n : Nat) : Prop :=
  ∀ c u p v, (u ++ [p], v) ∈ M.next n (Column.num c) → M.value (c.num ++ [p]) = some v

variable {s : Session} {M : Mib}

/-- The rows that a poll walks over: each is an object with its last number apart. -/
theorem Bulk.mem_rows (h : Bulk s M) (rows : Walk Text Scalar) (n : Nat) (c : Column) {k : Text}
    {v : Scalar} : (k, v) ∈ rows.list ((s.getBulkRequest n c.oid).getD ∅) ↔
      ∃ u p, u ≠ [] ∧ (u ++ [p], v) ∈ M.next n c.num ∧ k = oidText (u ++ [p]) := by
  obtain ⟨result, hresult, hnext⟩ := h.next n c
  rw [hresult, Option.getD_some, rows.mem_iff, hnext]
  constructor
  · rintro ⟨o, ho, rfl⟩
    have hlen := M.long _ (List.mem_of_mem_filter (List.mem_of_mem_take ho))
    change 2 ≤ o.length at hlen
    have hne : o ≠ [] := by
      rintro rfl
      exact absurd hlen (by decide)
    have hlast := List.dropLast_append_getLast hne
    refine ⟨o.dropLast, o.getLast hne, ?_, by rwa [hlast], by rw [hlast]⟩
    intro hnil
    have hdrop := congrArg List.length hnil
    rw [List.length_dropLast, List.length_nil] at hdrop
    omega
  · rintro ⟨u, p, -, ho, rfl⟩
    exact ⟨_, ho, rfl⟩

/-- What a poll stores. -/
theorem Bulk.mem_polled (h : Bulk s M) (walks : SwitchWalks) (n : Nat) {k : Text} {v : Scalar} :
    (k, v) ∈ ((walks.columns.list oidmasterlist).flatMap fun e =>
      (walks.rows.list ((s.getBulkRequest n e.1).getD ∅)).map fun r =>
        (rawKey e.2 (Snmpswitch.port r.1), r.2)) ↔
    ∃ c u p, (u ++ [p], v) ∈ M.next n (Column.num c) ∧ k = rawKey c.nm p := by
  rw [List.mem_flatMap]
  constructor
  · rintro ⟨e, he, hkv⟩
    obtain ⟨c, rfl⟩ := mem_oidmasterlist.mp he
    obtain ⟨⟨k', v'⟩, hrow, heq⟩ := List.mem_map.mp hkv
    obtain ⟨rfl, rfl⟩ := Prod.mk.inj heq
    obtain ⟨u, p, hu, hnext, rfl⟩ := (h.mem_rows _ _ _).mp hrow
    exact ⟨c, u, p, hnext, by rw [Snmpswitch.port_oidText hu]⟩
  · rintro ⟨c, u, p, hnext, rfl⟩
    have hu : u ≠ [] := by
      rintro rfl
      have hlen := M.long _ (List.mem_of_mem_filter (List.mem_of_mem_take hnext))
      exact absurd hlen (by simp)
    have hrow := (h.mem_rows walks.rows n c).mpr ⟨u, p, hu, hnext, rfl⟩
    refine ⟨(c.oid, c.nm), mem_oidmasterlist.mpr ⟨c, rfl⟩, List.mem_map.mpr ⟨_, hrow, ?_⟩⟩
    rw [Snmpswitch.port_oidText hu]

/-- If the objects are alike it does not matter which one is stored last. -/
theorem Bulk.noneForeign (h : Bulk s M) {n : Nat} (halike : Alike M n) (walks : SwitchWalks) :
    NoneForeign (Snmpswitch.getSnmpData walks s n) M := by
  intro c p v hv
  rcases mem_of_lookup_storeAll hv with hmem | hempty
  · obtain ⟨c', u, p', hnext, hkey⟩ := (h.mem_polled walks n).mp hmem
    obtain ⟨rfl, rfl⟩ := rawKey_inj hkey
    exact halike c u p v hnext
  · cases hempty

/-- In the order in which one object of an answer comes last, it is the one that stays. -/
theorem Bulk.lookup_last (h : Bulk s M) {n : Nat} {c : Column} {u : Oid} {p : Nat} {v : Scalar}
    (hnext : (u ++ [p], v) ∈ M.next n c.num) :
    (Snmpswitch.getSnmpData ⟨.kept, .last (oidText (u ++ [p]), v)⟩ s n).lookup
      (rawKey c.nm p) = some v := by
  have hu : u ≠ [] := by
    rintro rfl
    have hlen := M.long _ (List.mem_of_mem_filter (List.mem_of_mem_take hnext))
    exact absurd hlen (by simp)
  have hc : (c.oid, c.nm) ∈ Walk.kept.list oidmasterlist := mem_oidmasterlist.mpr ⟨c, rfl⟩
  obtain ⟨l₁, l₂, hsplit⟩ := List.append_of_mem hc
  have hrow : (oidText (u ++ [p]), v) ∈ pairs ((s.getBulkRequest n c.oid).getD ∅) :=
    (h.mem_rows .kept n c).mpr ⟨u, p, hu, hnext, rfl⟩
  have hlater : (c.oid, c.nm) ∉ l₂ := by
    have hnodup := Walk.nodup .kept oidmasterlist
    rw [hsplit, List.map_append, List.map_cons] at hnodup
    intro hmem
    exact (List.nodup_cons.mp (List.nodup_append.mp hnodup).2.1).1 (List.mem_map_of_mem hmem)
  rw [Snmpswitch.getSnmpData]
  simp only [hsplit, List.flatMap_append, List.flatMap_cons, Walk.list_last hrow,
    List.map_append, List.map_cons, List.map_nil, Snmpswitch.port_oidText hu]
  simp only [← List.append_assoc]
  rw [List.append_assoc, List.singleton_append]
  refine lookup_storeAll_last ?_ v ∅
  intro hmem
  obtain ⟨⟨k, w⟩, hkw, hk⟩ := List.mem_map.mp hmem
  obtain ⟨e, he, hkv⟩ := List.mem_flatMap.mp hkw
  have hmaster : e ∈ Walk.kept.list oidmasterlist := by
    rw [hsplit]
    simp [he]
  obtain ⟨c', rfl⟩ := mem_oidmasterlist.mp hmaster
  obtain ⟨r, -, heq⟩ := List.mem_map.mp hkv
  obtain ⟨rfl, -⟩ := Prod.mk.inj heq
  obtain ⟨rfl, -⟩ := rawKey_inj hk
  exact hlater he

theorem Bulk.alike_of_noneForeign (h : Bulk s M) {n : Nat}
    (hall : ∀ walks, NoneForeign (Snmpswitch.getSnmpData walks s n) M) : Alike M n := by
  intro c u p v hnext
  exact hall _ c p v (h.lookup_last hnext)

theorem Unmixed.noneForeign {raw : Hash Text Scalar} (h : Unmixed raw M) : NoneForeign raw M := by
  intro c p v hv
  rw [← h c p, hv]

/-- A poll that asks for enough and gets only alike objects has every row. -/
theorem Bulk.unmixed (h : Bulk s M) {n : Nat} (halike : Alike M n)
    (hrows : ∀ c, (M.rows c).length ≤ n) (walks : SwitchWalks) :
    Unmixed (Snmpswitch.getSnmpData walks s n) M := by
  intro c p
  have hnone := h.noneForeign halike walks
  cases hlookup : (Snmpswitch.getSnmpData walks s n).lookup (rawKey c.nm p) with
  | some v => exact (hnone c p v hlookup).symm
  | none =>
      cases hvalue : M.value (c.num ++ [p]) with
      | none => rfl
      | some v =>
          have hnext := M.rows_subset_next (hrows c) (M.mem_rows.mpr ⟨p, v, rfl, hvalue⟩)
          have hmem := (h.mem_polled walks n).mpr ⟨c, c.num, p, hnext, rfl⟩
          have hkey := mem_storeAll (h := ∅).mpr (.inl (List.mem_map_of_mem hmem))
          exact absurd hkey (AList.lookup_eq_none.mp hlookup)

/-- A row beyond the request is missing. -/
theorem Bulk.rows_le_of_unmixed (h : Bulk s M) {n : Nat} {walks : SwitchWalks}
    (hraw : Unmixed (Snmpswitch.getSnmpData walks s n) M) (c : Column) :
    (M.rows c).length ≤ n := by
  by_contra hlong
  have hshort := not_le.mp hlong
  obtain ⟨e, he, hnot⟩ := M.exists_row_notMem_next hshort
  obtain ⟨p, v, rfl, hvalue⟩ := M.mem_rows.mp he
  have hlookup := hraw c p
  rw [hvalue] at hlookup
  rcases mem_of_lookup_storeAll hlookup with hmem | hempty
  · obtain ⟨c', u, p', hnext, hkey⟩ := (h.mem_polled walks n).mp hmem
    obtain ⟨rfl, rfl⟩ := rawKey_inj hkey
    -- the short answer has rows of the column only, so this one is the row itself
    have hrow := hnext
    rw [M.next_of_lt hshort] at hrow
    obtain ⟨p', w, heq, -⟩ := M.mem_rows.mp (List.mem_of_mem_take hrow)
    obtain ⟨rfl, -⟩ := List.append_inj' (Prod.mk.inj heq).1 rfl
    exact hnot hnext
  · cases hempty

/-- **Columns.**  In every order of the hashes, the two modules store under each name the
value of its row exactly when the request goes at least as far as every column and every
object in an answer has the value of the row with its last number.  The latter alone
decides whether something foreign is stored. -/
theorem columns_unmixed_iff (h : Bulk s M) (n : Nat) :
    ((∀ walks, Unmixed (Snmpswitch.getSnmpData walks s n) M) ↔
      Alike M n ∧ ∀ c, (M.rows c).length ≤ n) ∧
    ((∀ walks, Unmixed (SnmpswitchCSV.getSnmpData walks s n) M) ↔
      Alike M n ∧ ∀ c, (M.rows c).length ≤ n) ∧
    ((∀ walks, NoneForeign (Snmpswitch.getSnmpData walks s n) M) ↔ Alike M n) ∧
    ((∀ walks, NoneForeign (SnmpswitchCSV.getSnmpData walks s n) M) ↔ Alike M n) := by
  have hunmixed : (∀ walks, Unmixed (Snmpswitch.getSnmpData walks s n) M) ↔
      Alike M n ∧ ∀ c, (M.rows c).length ≤ n := by
    constructor
    · intro hall
      exact ⟨h.alike_of_noneForeign fun walks => (hall walks).noneForeign,
        h.rows_le_of_unmixed (hall ⟨.kept, .kept⟩)⟩
    · rintro ⟨halike, hrows⟩ walks
      exact h.unmixed halike hrows walks
  have hnone : (∀ walks, NoneForeign (Snmpswitch.getSnmpData walks s n) M) ↔ Alike M n :=
    ⟨h.alike_of_noneForeign, fun halike walks => h.noneForeign halike walks⟩
  exact ⟨hunmixed, hunmixed, hnone, hnone⟩

/-- A switch with one interface that does not say how many it has. -/
def oneRow : Mib where
  entries := [(Column.inOctets.num ++ [1], .num 100), (Column.inUcastPkts.num ++ [1], .num 7)]
  sorted := by decide
  long := by decide
  flat := by
    intro e he c h
    rcases List.mem_pair.mp he with rfl | rfl
    all_goals
      cases c
      all_goals first | exact ⟨1, rfl⟩ | exact absurd h (by decide)

/-- `new` takes it for a switch with 24 ports. -/
theorem portCount_oneRow : portCount oneRow.session = 24 := by
  have hoid : oidOf ifNumberOid = [1, 3, 6, 1, 2, 1, 2, 1, 0] :=
    oidOf_oidText (o := [1, 3, 6, 1, 2, 1, 2, 1, 0]) (by decide)
  have hnone : oneRow.value [1, 3, 6, 1, 2, 1, 2, 1, 0] = none := by
    decide
  simp only [portCount, Mib.session, hoid, hnone, Option.map_none]

theorem columns_unmixed_iff_oneRow :
    ((∀ walks, Unmixed (Snmpswitch.getSnmpData walks oneRow.session 24) oneRow) ↔
      Alike oneRow 24 ∧ ∀ c, (oneRow.rows c).length ≤ 24) ∧
    ((∀ walks, Unmixed (SnmpswitchCSV.getSnmpData walks oneRow.session 24) oneRow) ↔
      Alike oneRow 24 ∧ ∀ c, (oneRow.rows c).length ≤ 24) ∧
    ((∀ walks, NoneForeign (Snmpswitch.getSnmpData walks oneRow.session 24) oneRow) ↔
      Alike oneRow 24) ∧
    ((∀ walks, NoneForeign (SnmpswitchCSV.getSnmpData walks oneRow.session 24) oneRow) ↔
      Alike oneRow 24) :=
  columns_unmixed_iff oneRow.bulk 24

/-- Of 24 objects behind the first column there are two here, and the packets of the port
are taken for its octets. -/
theorem oneRow_mixed :
    ¬ ∀ walks, Unmixed (Snmpswitch.getSnmpData walks oneRow.session (portCount oneRow.session))
      oneRow := by
  intro hall
  have hnext : (Column.inUcastPkts.num ++ [1], Scalar.num 7) ∈
      oneRow.next 24 Column.inOctets.num := List.mem_cons_of_mem _ List.mem_cons_self
  have hraw := hall ⟨.kept, .last (oidText (Column.inUcastPkts.num ++ [1]), .num 7)⟩
    .inOctets 1
  rw [portCount_oneRow, oneRow.bulk.lookup_last hnext] at hraw
  exact absurd hraw (by decide)

end Memrec
