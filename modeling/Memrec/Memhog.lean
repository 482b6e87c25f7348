import Mathlib.Logic.Function.Iterate
import Memrec.CLang

/-!
# `memhog`

`memhog -m 100G` allocates a block, and a worker goes through it again and again:
one loop adds one to every byte, the next one takes it off.  The size is a
`size_t`, but the worker gets it in a field of type `int`, and counts with an
`int`.  So a block from `2^31` bytes on is not what the worker goes through: it
takes the size modulo `2^32`, which is nothing at all for `100G`, the example of
the documentation (`exercises_iff`).

Whatever the worker goes through, a pass leaves it as it was (`pass_spec`).
-/

namespace Memrec

open CLang

/-! ## The options -/

/-- A number with a suffix, as `convert_kb` of `iohog` reads it and, line by line the
same, the options of `memhog`. -/
def convertKb (s : CStr) : Nat :=
  let v := sizeT (atoi s)
  if strchr s 'k' then sizeT (v * 1000)
  else if strchr s 'K' then sizeT (v * 1024)
  else if strchr s 'm' then sizeT (v * (1000 * 1000))
  else if strchr s 'M' then sizeT (v * (1024 * 1024))
  else if strchr s 'g' then sizeT (v * (1000 * 1000 * 1000))
  else if strchr s 'G' then sizeT (v * (1024 * 1024 * 1024))
  else v

/-- `argv[i][2] - '0'`. -/
def delayIndex (a : CStr) : Int := char8 (charAt a 2) - char8 (chr '0')

/-- A delay with a suffix. -/
def delaySeconds (v : CStr) : Int :=
  let d := atoi v
  if strchr v 'm' then int32 (d * 60)
  else if strchr v 'h' then int32 (d * (60 * 60))
  else d

/-- `delay[j] = d`, where the array has such an element. -/
def setDelay (delay : List Int) (j d : Int) : List Int :=
  if 0 ≤ j then delay.set j.toNat d else delay

/-- An argument that begins with a dash and a letter. -/
def isOpt (c : Char) (a : CStr) : Bool := charAt a 0 == chr '-' && charAt a 1 == chr c

namespace Memhog

/-- The options; `uses` are the subscripts of `delay` so far. -/
structure Opts where
  sz : Nat := 1000
  spk : Nat := 0
  delay : List Int := [1, 1, 1]
  uses : List Int := []

/-- The cases with `i++`. -/
def takes (a : CStr) : Bool := isOpt 'm' a || isOpt 's' a || isOpt 'd' a

/-- The switch over `argv[i][1]`. -/
def act (s : Opts) (a v : CStr) : Opts :=
  if isOpt 'm' a then { s with sz := convertKb v }
  else if isOpt 's' a then { s with spk := convertKb v }
  else if isOpt 'd' a then
    { s with
      delay := setDelay s.delay (delayIndex a) (delaySeconds v)
      uses := s.uses ++ [delayIndex a] }
  else s

/-- The loop over the arguments in `main`, from `argv[0]` on. -/
def parse (argv : List CStr) : Option Opts := optLoop takes act {} argv

/-! ## The worker -/

/-- `workdescr_t`, without the flag. -/
structure Workdescr where
  buffer : List UInt8
  sz : Int

/-- `wk.buffer = buffer; wk.sz = sz`. -/
def describe (buffer : List UInt8) (sz : Nat) : Workdescr := ⟨buffer, int32 sz⟩

@[simp] theorem describe_sz (buffer : List UInt8) (sz : Nat) :
    (describe buffer sz).sz = int32 sz := rfl

theorem describe_range (buffer : List UInt8) (sz : Nat) :
    -2 ^ 31 ≤ (describe buffer sz).sz ∧ (describe buffer sz).sz < 2 ^ 31 :=
  int32_range sz

/-- What the body of a loop does to `wk->buffer[i]`. -/
def changeAt (f : UInt8 → UInt8) (buffer : List UInt8) (i : Int) : List UInt8 :=
  if 0 ≤ i then buffer.modify i.toNat f else buffer

/-- One pass: the indices of the two loops, of at most `n` rounds each, and the block
afterwards. -/
def pass (n : Nat) (wk : Workdescr) : Option (List Int × List Int × Workdescr) :=
  let up := forLoop (fun i => i < wk.sz) n 0
  let down := forLoop (fun i => i < wk.sz) n 0
  match up.2, down.2 with
  | some _, some _ =>
      some (up.1, down.1, { wk with
        buffer := down.1.foldl (changeAt (· - 1)) (up.1.foldl (changeAt (· + 1)) wk.buffer) })
  | _, _ => none

/-- `work`, as long as the flag has been looked at; `true` is a flag that is set. -/
def work (n : Nat) : Workdescr → List Bool → Option Workdescr
  | wk, [] => some wk
  | wk, flag :: flags => do
      let r ← pass n wk
      if flag then some r.2.2 else work n r.2.2 flags

/-- What memhog is for: each pass over a block of the given size visits every index in it
once and no other, and leaves the block as it was. -/
def Exercises (sz : Nat) : Prop :=
  ∀ buffer : List UInt8, buffer.length = sz →
    ∃ n up down wk, pass n (describe buffer sz) = some (up, down, wk) ∧
      (∀ i, up.count i = if 0 ≤ i ∧ i < sz then 1 else 0) ∧
      (∀ i, down.count i = if 0 ≤ i ∧ i < sz then 1 else 0) ∧ wk.buffer = buffer

theorem getElem?_changeAt (f : UInt8 → UInt8) (buffer : List UInt8) (i : Int) (k : Nat) :
    (changeAt f buffer i)[k]? = if i = k then buffer[k]?.map f else buffer[k]? := by
  unfold changeAt
  by_cases hi : 0 ≤ i
  · rw [if_pos hi, List.getElem?_modify]
    by_cases hk : i = k
    · rw [if_pos hk, hk, Int.toNat_natCast]
      simp
    · have hne : i.toNat ≠ k := by omega
      simp [hk, hne]
  · have hne : i ≠ k := by omega
    rw [if_neg hi, if_neg hne]

/-- A loop changes each byte as often as its index occurs. -/
theorem getElem?_foldl_changeAt (f : UInt8 → UInt8) (is : List Int) (buffer : List UInt8)
    (k : Nat) : (is.foldl (changeAt f) buffer)[k]? = buffer[k]?.map f^[is.count (k : Int)] := by
  induction is generalizing buffer with
  | nil => simp
  | cons i is ih =>
      rw [List.foldl_cons, ih, getElem?_changeAt]
      by_cases hk : i = k
      · rw [if_pos hk, hk, List.count_cons_self, Option.map_map, Function.iterate_succ]
      · rw [if_neg hk, List.count_cons_of_ne hk]

/-- Two loops over the same indices, the second of which undoes a round of the first. -/
theorem foldl_changeAt_undo {f g : UInt8 → UInt8} (h : Function.LeftInverse g f) (is : List Int)
    (buffer : List UInt8) :
    is.foldl (changeAt g) (is.foldl (changeAt f) buffer) = buffer := by
  apply List.ext_getElem?
  intro k
  rw [getElem?_foldl_changeAt, getElem?_foldl_changeAt, Option.map_map,
    (h.iterate _).comp_eq_id, Option.map_id, id]

theorem sub_add_one : Function.LeftInverse (fun x : UInt8 => x - 1) fun x => x + 1 :=
  fun x => UInt8.add_sub_cancel x 1

variable {wk : Workdescr}

/-- The loop visits what the field of the worker says. -/
theorem forLoop_sz (hlo : -2 ^ 31 ≤ wk.sz) (hhi : wk.sz < 2 ^ 31) {n : Nat} (hn : 2 ^ 31 ≤ n) :
    ∃ e, forLoop (fun i => i < wk.sz) n 0 = (Int.range 0 wk.sz, some e) := by
  rcases le_or_gt 0 wk.sz with h | h
  · exact ⟨_, forLoop_visits (by decide) h hhi (fun i _ hi => by simpa using hi) (by simp)
      (by omega)⟩
  · obtain ⟨m, rfl⟩ : ∃ m, n = m + 1 := ⟨n - 1, by omega⟩
    have hempty : Int.range 0 wk.sz = [] := by
      rw [List.eq_nil_iff_forall_not_mem]
      intro i hi
      have := Int.mem_range_iff.mp hi
      omega
    refine ⟨0, ?_⟩
    rw [hempty, forLoop_of_false (by simpa using h.le)]

/-- **One pass.**  It ends, visits the indices below the field of the worker, and leaves
the block as it was. -/
theorem pass_spec (hlo : -2 ^ 31 ≤ wk.sz) (hhi : wk.sz < 2 ^ 31) {n : Nat} (hn : 2 ^ 31 ≤ n) :
    pass n wk = some (Int.range 0 wk.sz, Int.range 0 wk.sz, wk) := by
  obtain ⟨e, he⟩ := forLoop_sz hlo hhi hn
  simp only [pass, he, foldl_changeAt_undo sub_add_one]

/-- Any number of passes. -/
theorem work_spec (hlo : -2 ^ 31 ≤ wk.sz) (hhi : wk.sz < 2 ^ 31) {n : Nat} (hn : 2 ^ 31 ≤ n)
    (flags : List Bool) : work n wk flags = some wk := by
  induction flags with
  | nil => rfl
  | cons flag flags ih =>
      cases flag with
      | true => simp [work, pass_spec hlo hhi hn]
      | false => simp [work, pass_spec hlo hhi hn, ih]

/-- No index is visited from the field of the worker on. -/
theorem lt_of_mem_pass {n : Nat} {up down : List Int} {wk' : Workdescr} (hhi : wk.sz < 2 ^ 31)
    (h : pass n wk = some (up, down, wk')) : ∀ i ∈ up, i < wk.sz := by
  have hstep : ∀ i : Int, 0 ≤ i → decide (i < wk.sz) = true → 0 ≤ int32 (i + 1) := by
    intro i hi hlt
    have hlt : i < wk.sz := by simpa using hlt
    rw [int32_of_range (by omega) (by omega)]
    omega
  have hinv := (forLoop_inv hstep (le_refl 0) n).1
  have hup : up = (forLoop (fun i => i < wk.sz) n 0).1 := by
    unfold pass at h
    simp only at h
    split at h
    · exact (congrArg Prod.fst (Option.some.inj h)).symm
    · cases h
  intro i hi
  rw [hup] at hi
  simpa using (hinv i hi).2

/-- **The sizes that are exercised** are those that an `int` can hold. -/
theorem exercises_iff (sz : Nat) : Exercises sz ↔ sz < 2 ^ 31 := by
  constructor
  · intro h
    obtain ⟨n, up, down, wk, hpass, hup, -, -⟩ := h (List.replicate sz 0) (by simp)
    by_contra hlarge
    have hlast : (sz : Int) - 1 ∈ up := by
      rw [← List.count_pos_iff, hup, if_pos (by omega)]
      exact Nat.one_pos
    have hlt := lt_of_mem_pass (describe_range _ sz).2 hpass _ hlast
    have hbound := int32_range sz
    rw [describe_sz] at hlt
    omega
  · intro hsmall buffer _
    have hsz : int32 sz = sz := int32_of_range (by omega) (by omega)
    obtain ⟨n, hn⟩ : ∃ n : Nat, 2 ^ 31 ≤ n := ⟨_, Nat.le_refl _⟩
    have hrange := describe_range buffer sz
    have hpass := pass_spec hrange.1 hrange.2 hn
    rw [describe_sz, hsz] at hpass
    exact ⟨n, _, _, _, hpass, count_range 0 sz, count_range 0 sz, rfl⟩

/-- The example of the documentation: nothing is visited. -/
theorem exercises_fails_100G :
    (parse [cstr "memhog", cstr "-m", cstr "100G"]).map Opts.sz = some (100 * 2 ^ 30) ∧
      int32 (100 * 2 ^ 30 : Nat) = 0 ∧ ¬ Exercises (100 * 2 ^ 30) := by
  have hzero : int32 (100 * 2 ^ 30 : Nat) = 0 := by decide
  refine ⟨by decide, hzero, ?_⟩
  intro h
  obtain ⟨n, up, down, wk, hpass, hup, -, -⟩ := h (List.replicate _ 0) List.length_replicate
  have hfirst : (0 : Int) ∈ up := by
    rw [← List.count_pos_iff, hup, if_pos (by decide)]
    exact Nat.one_pos
  have hlt := lt_of_mem_pass (describe_range _ _).2 hpass 0 hfirst
  rw [describe_sz, hzero] at hlt
  exact absurd hlt (by decide)

end Memhog

end Memrec
