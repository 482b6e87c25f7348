import Mathlib.Algebra.BigOperators.Group.List.Basic
import Mathlib.Data.List.AList
import Mathlib.Tactic.Abel
import Memrec.Text

/-!
# Scalars and hashes

A scalar is a text or a number, and is read as the one that is asked for.  A hash is a
finite map, and its entries come in an order about which the language promises nothing
but that every entry is listed once.  Programs walk over a hash, accumulate into its
entries, and copy what they have collected into another hash.

Three facts carry most of what is proved of such programs: what storing a list of
entries leaves behind (`lookup_storeAll`), how a total over all entries moves when one of
them is replaced (`total_insert`), and that a walk meets every entry once
(`Walk.mem_iff`, `Walk.nodup`).
-/

namespace Perl

/-- What a variable or an entry of a hash holds. -/
inductive Scalar
  | text (s : Text)
  | num (x : ℚ)
  deriving DecidableEq

/-- A scalar read as a number. -/
def Scalar.value : Scalar → ℚ
  | .text s => numify s
  | .num x => x

/-- A scalar written into a text, `shown` being how the interpreter writes a number. -/
def Scalar.written (shown : ℚ → Text) : Scalar → Text
  | .text s => s
  | .num x => shown x

/-- A hash. -/
abbrev Hash (κ ν : Type) : Type := AList fun _ : κ => ν

namespace Hash

variable {κ ν : Type}

/-- The entries of a hash. -/
def pairs (h : Hash κ ν) : List (κ × ν) := h.entries.map fun e => (e.1, e.2)

theorem keys_pairs (h : Hash κ ν) : (pairs h).map Prod.fst = h.keys := by
  simp only [pairs, List.map_map]
  rfl

theorem nodup_pairs (h : Hash κ ν) : ((pairs h).map Prod.fst).Nodup := by
  rw [keys_pairs]
  exact h.keys_nodup

section Lookup

variable [DecidableEq κ]

theorem mem_pairs {h : Hash κ ν} {k : κ} {v : ν} : (k, v) ∈ pairs h ↔ h.lookup k = some v := by
  rw [← Option.mem_def, AList.mem_lookup_iff]
  constructor
  · intro hmem
    obtain ⟨e, he, heq⟩ := List.mem_map.mp hmem
    cases heq
    exact he
  · intro hmem
    exact List.mem_map.mpr ⟨_, hmem, rfl⟩

/-- Entries stored one after the other. -/
def storeAll (h : Hash κ ν) (kvs : List (κ × ν)) : Hash κ ν :=
  kvs.foldl (fun h kv => h.insert kv.1 kv.2) h

@[simp] theorem storeAll_nil (h : Hash κ ν) : storeAll h [] = h := rfl

@[simp] theorem storeAll_cons (h : Hash κ ν) (kv : κ × ν) (kvs : List (κ × ν)) :
    storeAll h (kv :: kvs) = storeAll (h.insert kv.1 kv.2) kvs := rfl

theorem mem_storeAll {kvs : List (κ × ν)} {h : Hash κ ν} {k : κ} :
    k ∈ storeAll h kvs ↔ k ∈ kvs.map Prod.fst ∨ k ∈ h := by
  induction kvs generalizing h with
  | nil => simp
  | cons e kvs ih =>
      rw [storeAll_cons, ih, AList.mem_insert, List.map_cons, List.mem_cons]
      tauto

/-- Other keys are left alone. -/
theorem lookup_storeAll_of_notMem {kvs : List (κ × ν)} {k : κ} (hk : k ∉ kvs.map Prod.fst)
    (h : Hash κ ν) : (storeAll h kvs).lookup k = h.lookup k := by
  induction kvs generalizing h with
  | nil => rfl
  | cons e kvs ih =>
      obtain ⟨hne, hk⟩ := not_or.mp (mt List.mem_cons.mpr hk)
      rw [storeAll_cons, ih hk, AList.lookup_insert_ne hne]

/-- An entry that no other one contradicts is there afterwards. -/
theorem lookup_storeAll_of_mem {kvs : List (κ × ν)} {k : κ} {v : ν} (hmem : (k, v) ∈ kvs)
    (hone : ∀ w, (k, w) ∈ kvs → w = v) (h : Hash κ ν) : (storeAll h kvs).lookup k = some v := by
  induction kvs generalizing h with
  | nil => cases hmem
  | cons e kvs ih =>
      have htail : ∀ w, (k, w) ∈ kvs → w = v := fun w hw => hone w (List.mem_cons_of_mem e hw)
      rw [storeAll_cons]
      by_cases hk : k ∈ kvs.map Prod.fst
      · obtain ⟨⟨k, w⟩, hw, rfl⟩ := List.mem_map.mp hk
        obtain rfl := htail w hw
        exact ih hw htail _
      · rcases List.mem_cons.mp hmem with rfl | hmem
        · rw [lookup_storeAll_of_notMem hk, AList.lookup_insert]
        · exact absurd (List.mem_map_of_mem hmem) hk

theorem storeAll_append (h : Hash κ ν) (kvs kvs' : List (κ × ν)) :
    storeAll h (kvs ++ kvs') = storeAll (storeAll h kvs) kvs' :=
  List.foldl_append

/-- What is found has been stored, or was there before. -/
theorem mem_of_lookup_storeAll {kvs : List (κ × ν)} {h : Hash κ ν} {k : κ} {v : ν}
    (hv : (storeAll h kvs).lookup k = some v) : (k, v) ∈ kvs ∨ h.lookup k = some v := by
  induction kvs generalizing h with
  | nil => exact .inr hv
  | cons e kvs ih =>
      rcases ih hv with hmem | hlookup
      · exact .inl (List.mem_cons_of_mem e hmem)
      · by_cases hk : k = e.1
        · subst hk
          rw [AList.lookup_insert, Option.some_inj] at hlookup
          subst hlookup
          exact .inl List.mem_cons_self
        · rw [AList.lookup_insert_ne hk] at hlookup
          exact .inr hlookup

/-- An entry wins over everything stored before it. -/
theorem lookup_storeAll_last {kvs kvs' : List (κ × ν)} {k : κ} (hk : k ∉ kvs'.map Prod.fst)
    (v : ν) (h : Hash κ ν) : (storeAll h (kvs ++ (k, v) :: kvs')).lookup k = some v := by
  rw [storeAll_append, storeAll_cons, lookup_storeAll_of_notMem hk, AList.lookup_insert]

/-- Entries with different keys do not overwrite each other, and leave every other key
alone. -/
theorem lookup_storeAll {kvs : List (κ × ν)} (hn : (kvs.map Prod.fst).Nodup) (h : Hash κ ν) :
    (∀ k v, (k, v) ∈ kvs → (storeAll h kvs).lookup k = some v) ∧
      ∀ k, k ∉ kvs.map Prod.fst → (storeAll h kvs).lookup k = h.lookup k := by
  refine ⟨fun k v hkv => lookup_storeAll_of_mem hkv ?_ h,
    fun k hk => lookup_storeAll_of_notMem hk h⟩
  intro w hw
  exact congrArg Prod.snd (List.inj_on_of_nodup_map hn hw hkv rfl)

/-- A hash that entries with different keys were stored into has these entries and no
others. -/
theorem lookup_storeAll_empty_iff {kvs : List (κ × ν)} (hn : (kvs.map Prod.fst).Nodup)
    {k : κ} {v : ν} : (storeAll ∅ kvs).lookup k = some v ↔ (k, v) ∈ kvs := by
  obtain ⟨hmem, hother⟩ := lookup_storeAll hn ∅
  refine ⟨fun h => ?_, hmem k v⟩
  by_cases hk : k ∈ kvs.map Prod.fst
  · obtain ⟨e, he, rfl⟩ := List.mem_map.mp hk
    rw [hmem e.1 e.2 he, Option.some_inj] at h
    rw [← h]
    exact he
  · rw [hother k hk, AList.lookup_empty] at h
    cases h

/-- Entries of one hash stored into another under keys made from theirs. -/
theorem lookup_storeAll_map {κ' ν' : Type} {key : κ' → κ} (hkey : Function.Injective key)
    (f : ν' → ν) {kvs : List (κ' × ν')} (hn : (kvs.map Prod.fst).Nodup) (h : Hash κ ν) :
    (∀ k v, (k, v) ∈ kvs →
      (storeAll h (kvs.map fun e => (key e.1, f e.2))).lookup (key k) = some (f v)) ∧
    ∀ k, (∀ e ∈ kvs, key e.1 ≠ k) →
      (storeAll h (kvs.map fun e => (key e.1, f e.2))).lookup k = h.lookup k := by
  have hkeys : ((kvs.map fun e => (key e.1, f e.2)).map Prod.fst).Nodup := by
    rw [List.map_map]
    have := hn.map hkey
    rwa [List.map_map] at this
  obtain ⟨hmem, hother⟩ := lookup_storeAll hkeys h
  constructor
  · intro k v hkv
    exact hmem (key k) (f v) (List.mem_map.mpr ⟨(k, v), hkv, rfl⟩)
  · intro k hk
    refine hother k ?_
    intro hin
    obtain ⟨e, he, rfl⟩ := List.mem_map.mp hin
    obtain ⟨e', he', rfl⟩ := List.mem_map.mp he
    exact hk e' he' rfl

end Lookup

/-! ## Totals -/

section Total

variable {M : Type} [AddCommMonoid M]

/-- The sum of a number read from every entry. -/
def total (f : ν → M) (h : Hash κ ν) : M := ((pairs h).map fun e => f e.2).sum

@[simp] theorem total_empty (f : ν → M) : total f (∅ : Hash κ ν) = 0 := rfl

/-- A new entry adds its number, and an entry that is replaced takes its own away. -/
theorem total_insert [DecidableEq κ] (f : ν → M) (h : Hash κ ν) (k : κ) (v : ν) :
    total f (h.insert k v) + (h.lookup k).elim 0 f = total f h + f v := by
  have hinsert : total f (h.insert k v) =
      f v + ((h.entries.kerase k).map fun e => f e.2).sum := by
    simp only [total, pairs, AList.entries_insert, List.map_cons, List.sum_cons, List.map_map]
    rfl
  have htotal : total f h = (h.entries.map fun e => f e.2).sum := by
    simp only [total, pairs, List.map_map]
    rfl
  rw [hinsert, htotal]
  cases hk : h.lookup k with
  | none =>
      have hnot : k ∉ h.entries.keys := AList.lookup_eq_none.mp hk
      rw [List.kerase_of_notMem_keys hnot]
      simp only [Option.elim_none, add_zero]
      exact add_comm _ _
  | some b =>
      have hmem : k ∈ h.entries.keys := AList.lookup_isSome.mp (by rw [hk]; rfl)
      obtain ⟨c, l₁, l₂, -, hsplit, herase⟩ := List.exists_of_kerase hmem
      have hc : h.lookup k = some c := by
        rw [← Option.mem_def, AList.mem_lookup_iff, hsplit]
        simp
      obtain rfl : b = c := Option.some.inj (hk.symm.trans hc)
      rw [herase, hsplit]
      simp only [Option.elim_some, List.map_append, List.map_cons, List.sum_append, List.sum_cons]
      abel

end Total

/-! ## Walks -/

/-- An order in which `each` and `keys` list the entries of a hash. -/
structure Walk (κ ν : Type) where
  list : Hash κ ν → List (κ × ν)
  perm : ∀ h, (list h).Perm (pairs h)

namespace Walk

/-- The order in which the entries are kept here. -/
def kept : Walk κ ν := ⟨pairs, fun _ => .refl _⟩

section Last

variable [DecidableEq κ] [DecidableEq ν]

/-- The order in which one entry comes last. -/
def last (e : κ × ν) : Walk κ ν where
  list h := if e ∈ pairs h then (pairs h).erase e ++ [e] else pairs h
  perm h := by
    by_cases he : e ∈ pairs h
    · rw [if_pos he]
      exact List.perm_append_comm.trans (List.perm_cons_erase he).symm
    · rw [if_neg he]

theorem list_last {e : κ × ν} {h : Hash κ ν} (he : e ∈ pairs h) :
    (last e).list h = (pairs h).erase e ++ [e] :=
  if_pos he

end Last

theorem nodup (w : Walk κ ν) (h : Hash κ ν) : ((w.list h).map Prod.fst).Nodup :=
  ((w.perm h).map Prod.fst).nodup_iff.mpr (nodup_pairs h)

theorem mem_iff [DecidableEq κ] (w : Walk κ ν) {h : Hash κ ν} {k : κ} {v : ν} :
    (k, v) ∈ w.list h ↔ h.lookup k = some v := by
  rw [(w.perm h).mem_iff, mem_pairs]

/-- The order of a walk does not matter to a total. -/
theorem sum_eq {M : Type} [AddCommMonoid M] (w : Walk κ ν) (f : ν → M) (h : Hash κ ν) :
    ((w.list h).map fun e => f e.2).sum = total f h :=
  ((w.perm h).map fun e => f e.2).sum_eq

end Walk

end Hash

end Perl
