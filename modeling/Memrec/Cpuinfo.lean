import Mathlib.Data.Finset.Prod
import Memrec.HashTable
import Memrec.KernelStats
import Memrec.NetinfoWindow
import Memrec.Prep

/-!
# The processor topology

`cpuinfo` reads `/proc/cpuinfo` once, in `new`.  For every `physical id` and every
`core id` it sets an entry of an array, takes the lengths of the two arrays for the
numbers of sockets and of cores in a socket, and multiplies them.

The length of an array is one more than its largest index, whether or not the entries
below were ever set.  `topology_iff` says that the three numbers are right exactly when
the ids leave no gap: every socket number up to the largest one occurs together with
every core number up to the largest one.
-/

namespace Memrec.Cpuinfo

open Perl Pat Hash

/-! ## The module -/

/-- `$show_cpuflags` and `$show_numproc`. -/
structure Vars where
  showCpuflags : Bool
  showNumproc : Bool

/-- `prep( key, val )`. -/
def prep (vars : Vars) (key val : Text) : Vars :=
  if key = "cpuflags".toList then { vars with showCpuflags := convertToYesno val }
  else if key = "show_numproc".toList then { vars with showNumproc := convertToYesno val }
  else vars

/-- What the loop over `/proc/cpuinfo` assigns. -/
structure Found where
  mhz : ℚ
  model : Text
  cpufam : Option ℚ
  cpumod : Option ℚ
  cpustep : Option ℚ
  cflags : Text
  numProc : Nat
  physCores : List (Option ℚ)
  physSockets : List (Option ℚ)

def Found.init : Found where
  mhz := 0
  model := "generic-cpu".toList
  cpufam := none
  cpumod := none
  cpustep := none
  cflags := []
  numProc := 0
  physCores := []
  physSockets := []

/-- `\s+` between two words of a name. -/
def twoWords (u v : Text) : Pat Unit := do
  litI u
  let _ ← many1 isSpace
  litI v

/-- `<name>\s*\:\s*(.*)`. -/
def nameValue (name : Pat Unit) : Pat Text := do
  name
  let _ ← many isSpace
  lit [':']
  let _ ← many isSpace
  many notNl

/-- `s/<name>\s*\:\s*(.*)/$1/i`. -/
def valueOf (name : Pat Unit) (line : Text) : Text := subst (nameValue name) id line

/-- What is left of the name of a model. -/
def cpuModel (line : Text) : Text :=
  let model := valueOf (twoWords "model".toList "name".toList) (lc (chomp line))
  let model := substAll (lit "(r)".toList) (fun _ => []) model
  let model := substAll (lit "(tm)".toList) (fun _ => []) model
  let model := subst (lit "cpu".toList) (fun _ => []) model
  let model := subst (lit "processor".toList) (fun _ => []) model
  let model := subst (do lit ['@']; many notNl) (fun _ => []) model
  let model := subst (do let _ ← many1 Ping.isWord; lit "-core".toList) (fun _ => []) model
  let model := subst (do
    let _ ← many1 Char.isDigit
    lit ['.']
    let _ ← many1 Char.isDigit
    lit "ghz".toList) (fun _ => []) model
  let model := (model.dropWhile isSpace).rdropWhile isSpace
  substAll (many1 isSpace) (fun _ => ['-']) model

/-- The lines that the loop tells apart. -/
inductive Kind
  | mhz
  | modelName
  | cpuFamily
  | model
  | stepping
  | flags
  | processor
  | core (i : Text)
  | physical (i : Text)
  | other
  deriving DecidableEq

/-- The conditions in the order in which they are tried. -/
def kind (line : Text) : Kind :=
  if (atStart (litI "cpu mhz".toList) line).isSome then .mhz
  else if (atStart (twoWords "model".toList "name".toList) line).isSome then .modelName
  else if (atStart (twoWords "cpu".toList "family".toList) line).isSome then .cpuFamily
  else if (atStart (litI "model".toList) line).isSome then .model
  else if (atStart (litI "stepping".toList) line).isSome then .stepping
  else if (atStart (litI "flags".toList) line).isSome then .flags
  else if (atStart (litI "processor".toList) line).isSome then .processor
  else
    match atStart (nameValue (litI "core id".toList)) line with
    | some i => .core i
    | none =>
        match atStart (nameValue (litI "physical id".toList)) line with
        | some i => .physical i
        | none => .other

/-- The body of the loop. -/
def scanLine (st : Found) (line : Text) : Except Die Found :=
  match kind line with
  | .mhz =>
      pure { st with
        mhz := 50 * int ((numify (valueOf (litI "cpu mhz".toList) line) + 25) / 50) }
  | .modelName => pure { st with model := cpuModel line }
  | .cpuFamily =>
      pure { st with
        cpufam := some (numify (valueOf (twoWords "cpu".toList "family".toList) line)) }
  | .model => pure { st with cpumod := some (numify (valueOf (litI "model".toList) line)) }
  | .stepping => pure { st with cpustep := some (numify (valueOf (litI "stepping".toList) line)) }
  | .flags =>
      pure { st with
        cflags := substAll (many1 isSpace) (fun _ => [',']) (valueOf (litI "flags".toList) line) }
  | .processor => pure { st with numProc := st.numProc + 1 }
  | .core i => do
      let physCores ← storeAt st.physCores (int (numify i)) 1
      pure { st with physCores := physCores }
  | .physical i => do
      let physSockets ← storeAt st.physSockets (int (numify i)) 1
      pure { st with physSockets := physSockets }
  | .other => pure st

/-- The loop. -/
def scan (cpuinfo : Text) : Except Die Found := (readlines cpuinfo).foldlM scanLine Found.init

section Output

-- how the interpreter writes a number
variable (shown : ℚ → Text)

/-- `$cpufam . '.' . $cpumod . '.' . $cpustep`. -/
def modeln (st : Found) : Text :=
  st.cpufam.elim [] shown ++ '.' :: (st.cpumod.elim [] shown ++ '.' :: st.cpustep.elim [] shown)

/-- The entries of `$self`, in the order in which they are set. -/
def entries (vars : Vars) (st : Found) : List (Text × Scalar) :=
  let i := st.physSockets.length
  let j := st.physCores.length
  [("phys_sockets".toList, .num i), ("phys_cores".toList, .num (i * j : Nat)),
    ("ht_enabled".toList, .num (if i * j < st.numProc then 1 else 0)),
    ("mhz".toList, .num st.mhz), ("cpumodel".toList, .text st.model),
    ("cpumodeln".toList, .text (modeln shown st))] ++
  (if vars.showNumproc then [("num_proc".toList, .num st.numProc)] else []) ++
  (if vars.showCpuflags then [("cpuflags".toList, .text st.cflags)] else [])

/-- `new`: `$self`. -/
def new (vars : Vars) (cpuinfo : Text) : Except Die (Hash Text Scalar) := do
  let st ← scan cpuinfo
  pure (storeAll ∅ (entries shown vars st))

end Output

/-- `getdata`: the data hash afterwards. -/
def getdata (self : Hash Text Scalar) (walk : Walk Text Scalar) (dref : Hash Text Scalar) :
    Hash Text Scalar :=
  storeAll dref (walk.list self)

/-! ## Processor blocks -/

/-- The index of `@phys_cores` that a line sets. -/
def coreIndex (line : Text) : Option Int :=
  match kind line with
  | .core i => some (int (numify i))
  | _ => none

/-- The index of `@phys_sockets` that a line sets. -/
def physicalIndex (line : Text) : Option Int :=
  match kind line with
  | .physical i => some (int (numify i))
  | _ => none

/-- The lines of one processor: one of them says that it is a processor, one gives its
physical id and one its core id, in any order and with any others in between. -/
structure Block where
  physical : Nat
  core : Nat
  lines : List Text
  processor_line : (lines.countP fun l => kind l = .processor) = 1
  physical_line : lines.filterMap physicalIndex = [(physical : Int)]
  core_line : lines.filterMap coreIndex = [(core : Int)]

/-- The pair of ids of a block. -/
def Block.ids (b : Block) : Nat × Nat := (b.physical, b.core)

/-- The object has the topology as it is: the number of distinct physical ids, that of
distinct pairs of ids, and whether there are more blocks than such pairs. -/
structure TopologyRight (obj : Hash Text Scalar) (blocks : List Block) : Prop where
  sockets : obj.lookup "phys_sockets".toList =
    some (.num (blocks.map Block.physical).toFinset.card)
  cores : obj.lookup "phys_cores".toList = some (.num (blocks.map Block.ids).toFinset.card)
  ht : obj.lookup "ht_enabled".toList =
    some (.num (if (blocks.map Block.ids).toFinset.card < blocks.length then 1 else 0))

/-- The ids leave no gap. -/
def NoGap (blocks : List Block) : Prop :=
  ∀ b ∈ blocks, ∀ b' ∈ blocks, ∀ p ≤ b.physical, ∀ c ≤ b'.core, (p, c) ∈ blocks.map Block.ids

/-! ## The loop -/

theorem length_foldl_setAt (is : List Int) (xs : List (Option ℚ)) (k : Nat) :
    k < (is.foldl (fun xs i => setAt xs i.toNat (1 : ℚ)) xs).length ↔
      k < xs.length ∨ ∃ i ∈ is, k ≤ i.toNat := by
  induction is generalizing xs with
  | nil => simp
  | cons i is ih =>
      rw [List.foldl_cons, ih, length_setAt]
      simp only [List.exists_mem_cons_iff, lt_max_iff, Nat.lt_succ_iff, or_assoc]

theorem storeAt_of_nonneg {i : Int} (h : 0 ≤ i) (xs : List (Option ℚ)) (v : ℚ) :
    storeAt xs i v = .ok (setAt xs i.toNat v) := by
  rw [storeAt, if_pos h]
  rfl

/-- What a line does to the two arrays and to the number of processors. -/
theorem scanLine_spec (st : Found) (l : Text) (hcore : ∀ i ∈ coreIndex l, 0 ≤ i)
    (hphysical : ∀ i ∈ physicalIndex l, 0 ≤ i) :
    ∃ st', scanLine st l = .ok st' ∧
      st'.numProc = st.numProc + (if kind l = .processor then 1 else 0) ∧
      st'.physCores = (coreIndex l).toList.foldl (fun xs i => setAt xs i.toNat 1) st.physCores ∧
      st'.physSockets =
        (physicalIndex l).toList.foldl (fun xs i => setAt xs i.toNat 1) st.physSockets := by
  unfold coreIndex at hcore ⊢
  unfold physicalIndex at hphysical ⊢
  unfold scanLine
  cases hk : kind l with
  | core i =>
      have hi : 0 ≤ int (numify i) := by
        simpa [hk] using hcore
      refine ⟨{ st with physCores := setAt st.physCores (int (numify i)).toNat 1 },
        ?_, rfl, rfl, rfl⟩
      simp only [storeAt_of_nonneg hi]
      rfl
  | physical i =>
      have hi : 0 ≤ int (numify i) := by
        simpa [hk] using hphysical
      refine ⟨{ st with physSockets := setAt st.physSockets (int (numify i)).toNat 1 },
        ?_, rfl, rfl, rfl⟩
      simp only [storeAt_of_nonneg hi]
      rfl
  | processor => exact ⟨_, rfl, rfl, rfl, rfl⟩
  | _ => exact ⟨_, rfl, rfl, rfl, rfl⟩

/-- What the loop leaves, for any lines with indices that are not negative. -/
theorem foldlM_scanLine (ls : List Text) (st : Found)
    (hcore : ∀ i ∈ ls.filterMap coreIndex, 0 ≤ i)
    (hphysical : ∀ i ∈ ls.filterMap physicalIndex, 0 ≤ i) :
    ∃ st', ls.foldlM scanLine st = .ok st' ∧
      st'.numProc = st.numProc + (ls.countP fun l => kind l = .processor) ∧
      st'.physCores =
        (ls.filterMap coreIndex).foldl (fun xs i => setAt xs i.toNat 1) st.physCores ∧
      st'.physSockets =
        (ls.filterMap physicalIndex).foldl (fun xs i => setAt xs i.toNat 1) st.physSockets := by
  induction ls generalizing st with
  | nil => exact ⟨st, rfl, rfl, rfl, rfl⟩
  | cons l ls ih =>
      have hsplit : ∀ f : Text → Option Int, (l :: ls).filterMap f =
          (f l).toList ++ ls.filterMap f := by
        intro f
        cases hf : f l <;> simp [hf]
      rw [hsplit] at hcore hphysical
      obtain ⟨mid, hmid, hproc, hcores, hsockets⟩ := scanLine_spec st l
        (fun i hi => hcore i (by simp [Option.mem_def.mp hi]))
        (fun i hi => hphysical i (by simp [Option.mem_def.mp hi]))
      obtain ⟨st', hst', hproc', hcores', hsockets'⟩ := ih mid
        (fun i hi => hcore i (List.mem_append_right _ hi))
        (fun i hi => hphysical i (List.mem_append_right _ hi))
      refine ⟨st', ?_, ?_, ?_, ?_⟩
      · rw [List.foldlM_cons, hmid]
        exact hst'
      · rw [hproc', hproc, List.countP_cons]
        simp only [decide_eq_true_eq]
        omega
      · rw [hcores', hcores, hsplit, List.foldl_append]
      · rw [hsockets', hsockets, hsplit, List.foldl_append]

/-! ## Counting -/

/-- The indices of an array that a list of indices leaves: all up to the largest. -/
def Covers (n : Nat) (is : List Nat) : Prop := ∀ k, k < n ↔ ∃ i ∈ is, k ≤ i

/-- Sockets, cores in a socket and processors, as the lines of the blocks are counted. -/
theorem scan_blocks {cpuinfo : Text} {blocks : List Block}
    (h : readlines cpuinfo = blocks.flatMap Block.lines) :
    ∃ st, scan cpuinfo = .ok st ∧ st.numProc = blocks.length ∧
      Covers st.physSockets.length (blocks.map Block.physical) ∧
      Covers st.physCores.length (blocks.map Block.core) := by
  have hcore : (readlines cpuinfo).filterMap coreIndex = blocks.map fun b => (b.core : Int) := by
    rw [h, List.filterMap_flatMap]
    simp only [Block.core_line]
    exact List.map_eq_flatMap.symm
  have hphysical : (readlines cpuinfo).filterMap physicalIndex =
      blocks.map fun b => (b.physical : Int) := by
    rw [h, List.filterMap_flatMap]
    simp only [Block.physical_line]
    exact List.map_eq_flatMap.symm
  have hproc : (readlines cpuinfo).countP (fun l => kind l = .processor) = blocks.length := by
    have hone : (List.countP fun l => decide (kind l = .processor)) ∘ Block.lines = fun _ => 1 :=
      funext Block.processor_line
    rw [h, List.countP_flatMap, hone]
    simp
  obtain ⟨st, hst, hnum, hcores, hsockets⟩ := foldlM_scanLine (readlines cpuinfo) Found.init
    (by rw [hcore]; simp) (by rw [hphysical]; simp)
  refine ⟨st, hst, ?_, ?_, ?_⟩
  · rw [hnum, hproc]
    exact Nat.zero_add _
  · intro k
    rw [hsockets, length_foldl_setAt, hphysical]
    simp [Found.init]
  · intro k
    rw [hcores, length_foldl_setAt, hcore]
    simp [Found.init]

/-- A set of pairs inside a rectangle fills it exactly when it has as many. -/
theorem card_eq_mul_iff {S : Finset (Nat × Nat)} {m n : Nat}
    (h : S ⊆ Finset.range m ×ˢ Finset.range n) :
    S.card = m * n ↔ ∀ p < m, ∀ c < n, (p, c) ∈ S := by
  have hcard : (Finset.range m ×ˢ Finset.range n).card = m * n := by
    rw [Finset.card_product, Finset.card_range, Finset.card_range]
  constructor
  · intro heq p hp c hc
    have hfull := Finset.eq_of_subset_of_card_le h (by rw [hcard, heq])
    rw [hfull]
    exact Finset.mem_product.mpr ⟨Finset.mem_range.mpr hp, Finset.mem_range.mpr hc⟩
  · intro hall
    have hfull : Finset.range m ×ˢ Finset.range n ⊆ S := by
      intro x hx
      obtain ⟨hp, hc⟩ := Finset.mem_product.mp hx
      exact hall x.1 (Finset.mem_range.mp hp) x.2 (Finset.mem_range.mp hc)
    rw [← hcard, Finset.Subset.antisymm h hfull]

variable {blocks : List Block} {m n : Nat}

theorem ids_subset (hm : Covers m (blocks.map Block.physical))
    (hn : Covers n (blocks.map Block.core)) :
    (blocks.map Block.ids).toFinset ⊆ Finset.range m ×ˢ Finset.range n := by
  intro x hx
  obtain ⟨b, hb, rfl⟩ := List.mem_map.mp (List.mem_toFinset.mp hx)
  refine Finset.mem_product.mpr ⟨Finset.mem_range.mpr ?_, Finset.mem_range.mpr ?_⟩
  · exact (hm _).mpr ⟨_, List.mem_map_of_mem hb, le_refl _⟩
  · exact (hn _).mpr ⟨_, List.mem_map_of_mem hb, le_refl _⟩

/-- The product of the two lengths is the number of cores exactly when the ids leave no
gap. -/
theorem card_ids_eq_iff (hm : Covers m (blocks.map Block.physical))
    (hn : Covers n (blocks.map Block.core)) :
    (blocks.map Block.ids).toFinset.card = m * n ↔ NoGap blocks := by
  rw [card_eq_mul_iff (ids_subset hm hn)]
  simp only [List.mem_toFinset]
  constructor
  · intro h b hb b' hb' p hp c hc
    exact h p ((hm p).mpr ⟨_, List.mem_map_of_mem hb, hp⟩) c
      ((hn c).mpr ⟨_, List.mem_map_of_mem hb', hc⟩)
  · intro h p hp c hc
    obtain ⟨i, hi, hpi⟩ := (hm p).mp hp
    obtain ⟨b, hb, rfl⟩ := List.mem_map.mp hi
    obtain ⟨j, hj, hcj⟩ := (hn c).mp hc
    obtain ⟨b', hb', rfl⟩ := List.mem_map.mp hj
    exact h b hb b' hb' p hpi c hcj

/-- Without a gap the first length is the number of sockets. -/
theorem card_physical_of_noGap (hm : Covers m (blocks.map Block.physical)) (h : NoGap blocks) :
    (blocks.map Block.physical).toFinset.card = m := by
  have hrange : (blocks.map Block.physical).toFinset = Finset.range m := by
    ext p
    rw [List.mem_toFinset, Finset.mem_range]
    constructor
    · intro hp
      exact (hm p).mpr ⟨p, hp, le_refl p⟩
    · intro hp
      obtain ⟨i, hi, hpi⟩ := (hm p).mp hp
      obtain ⟨b, hb, rfl⟩ := List.mem_map.mp hi
      obtain ⟨x, hx, hids⟩ := List.mem_map.mp (h b hb b hb p hpi 0 (Nat.zero_le _))
      rw [← show x.physical = p from congrArg Prod.fst hids]
      exact List.mem_map_of_mem hx
  rw [hrange, Finset.card_range]

/-! ## The object -/

theorem nodup_entries (shown : ℚ → Text) (vars : Vars) (st : Found) :
    ((entries shown vars st).map Prod.fst).Nodup := by
  have hnames : (["phys_sockets", "phys_cores", "ht_enabled", "mhz", "cpumodel", "cpumodeln",
      "num_proc", "cpuflags"].map String.toList).Nodup := by
    decide +kernel
  refine hnames.sublist ?_
  obtain ⟨flags, procs⟩ := vars
  cases flags <;> cases procs
  · exact List.sublist_append_left _ ["num_proc".toList, "cpuflags".toList]
  · exact List.sublist_append_left _ ["cpuflags".toList]
  · exact (List.sublist_cons_self "num_proc".toList ["cpuflags".toList]).append_left
      (["phys_sockets", "phys_cores", "ht_enabled", "mhz", "cpumodel", "cpumodeln"].map
        String.toList)
  · exact List.Sublist.refl _

/-- What `new` puts under the three keys. -/
theorem lookup_entries (shown : ℚ → Text) (vars : Vars) (st : Found) :
    (storeAll ∅ (entries shown vars st)).lookup "phys_sockets".toList =
        some (.num st.physSockets.length) ∧
      (storeAll ∅ (entries shown vars st)).lookup "phys_cores".toList =
        some (.num (st.physSockets.length * st.physCores.length : Nat)) ∧
      (storeAll ∅ (entries shown vars st)).lookup "ht_enabled".toList =
        some (.num (if st.physSockets.length * st.physCores.length < st.numProc then 1
          else 0)) := by
  have hkeys := nodup_entries shown vars st
  have hfront : ∀ e ∈ (entries shown vars st).take 3, e ∈ entries shown vars st :=
    fun e he => List.mem_of_mem_take he
  refine ⟨?_, ?_, ?_⟩
  · exact (lookup_storeAll_empty_iff hkeys).mpr (hfront _ (List.mem_cons_self ..))
  · exact (lookup_storeAll_empty_iff hkeys).mpr
      (hfront _ (List.mem_cons_of_mem _ (List.mem_cons_self ..)))
  · exact (lookup_storeAll_empty_iff hkeys).mpr
      (hfront _ (List.mem_cons_of_mem _ (List.mem_cons_of_mem _ (List.mem_cons_self ..))))

/-- What `new` has found is published. -/
theorem lookup_getdata {obj : Hash Text Scalar} {k : Text} {v : Scalar} (walk : Walk Text Scalar)
    (dref : Hash Text Scalar) (h : obj.lookup k = some v) :
    (getdata obj walk dref).lookup k = some v :=
  (lookup_storeAll (walk.nodup obj) dref).1 k v (walk.mem_iff.mpr h)

theorem new_eq {cpuinfo : Text} {st : Found} (shown : ℚ → Text) (vars : Vars)
    (h : scan cpuinfo = .ok st) :
    new shown vars cpuinfo = .ok (storeAll ∅ (entries shown vars st)) := by
  rw [new, h]
  rfl

/-- The number of cores is right only if the ids leave no gap. -/
theorem noGap_of_right {shown : ℚ → Text} {vars : Vars} {cpuinfo : Text} {obj : Hash Text Scalar}
    (h : readlines cpuinfo = blocks.flatMap Block.lines) (hnew : new shown vars cpuinfo = .ok obj)
    (hright : TopologyRight obj blocks) : NoGap blocks := by
  obtain ⟨st, hst, -, hm, hn⟩ := scan_blocks h
  obtain ⟨-, hcores, -⟩ := lookup_entries shown vars st
  rw [new_eq shown vars hst, Except.ok.injEq] at hnew
  rw [hnew] at hcores
  have hnum := Scalar.num.inj (Option.some.inj (hcores.symm.trans hright.cores))
  exact (card_ids_eq_iff hm hn).mp (Nat.cast_injective hnum).symm

/-- **Topology.**  For any blocks, `new` counts sockets, cores and processors as they are
exactly when the ids leave no gap. -/
theorem topology_iff (shown : ℚ → Text) (vars : Vars) {cpuinfo : Text} {blocks : List Block}
    (h : readlines cpuinfo = blocks.flatMap Block.lines) :
    (∃ obj, new shown vars cpuinfo = .ok obj ∧ TopologyRight obj blocks) ↔ NoGap blocks := by
  constructor
  · rintro ⟨obj, hnew, hright⟩
    exact noGap_of_right h hnew hright
  · intro hgap
    obtain ⟨st, hst, hproc, hm, hn⟩ := scan_blocks h
    obtain ⟨hsockets, hcores, hht⟩ := lookup_entries shown vars st
    have hids := (card_ids_eq_iff hm hn).mpr hgap
    refine ⟨_, new_eq shown vars hst, ?_, ?_, ?_⟩
    · rw [hsockets, card_physical_of_noGap hm hgap]
    · rw [hcores, hids]
    · rw [hht, hids, hproc]

/-! ## The lines of the kernel -/

theorem litI_append {w : Text} (hw : w.map Char.toLower = w) (s : Text) :
    litI w (w ++ s) = [((), s)] := by
  simp [litI, List.map_append, hw]

/-- A name, a gap, a colon, a blank and a value give the value. -/
theorem nameValue_line {w g v : Text} (hw : w.map Char.toLower = w) (hg : ∀ c ∈ g, isSpace c)
    (hv : v ≠ []) (hspace : ∀ c ∈ v, isSpace c = false) :
    atStart (nameValue (litI w)) (w ++ (g ++ ':' :: ' ' :: (v ++ ['\n']))) = some v := by
  obtain ⟨d, v', rfl⟩ := List.exists_cons_of_ne_nil hv
  have hd : isSpace d = false := hspace d (by simp)
  have hnl : ∀ c ∈ d :: v', notNl c = true := by
    intro c hc
    refine bne_iff_ne.mpr ?_
    rintro rfl
    exact absurd (hspace _ hc) (by decide)
  have hblank : ((many isSpace >>= fun _ => many notNl) (' ' :: (d :: v' ++ ['\n']))).head? =
      some (d :: v', ['\n']) := by
    refine head?_bind_many_of ?_
    rw [List.dropWhile_cons_of_pos (by decide), List.cons_append,
      List.dropWhile_cons_of_neg (by simp [hd])]
    exact head?_many_line hnl
  have hgap : ((many isSpace >>= fun _ => lit [':'] >>= fun _ => many isSpace >>= fun _ =>
      many notNl) (g ++ ':' :: ' ' :: (d :: v' ++ ['\n']))).head? = some (d :: v', ['\n']) := by
    refine head?_bind_many_of ?_
    rw [List.dropWhile_append_of_pos hg, List.dropWhile_cons_of_neg (by decide)]
    have hcolon := lit_bind_append [':'] (many isSpace >>= fun _ => many notNl)
      (' ' :: (d :: v' ++ ['\n']))
    exact (congrArg List.head? hcolon).trans hblank
  rw [atStart, nameValue, bind_apply, litI_append hw, List.flatMap_singleton, hgap]
  rfl

/-- `processor<tab>: n`. -/
def processorLine (n : Nat) : Text :=
  "processor".toList ++ ("\t".toList ++ ':' :: ' ' :: (decimal n ++ ['\n']))

/-- `physical id<tab>: p`. -/
def physicalLine (p : Nat) : Text :=
  "physical id".toList ++ ("\t".toList ++ ':' :: ' ' :: (decimal p ++ ['\n']))

/-- `core id<tab><tab>: c`. -/
def coreLine (c : Nat) : Text :=
  "core id".toList ++ ("\t\t".toList ++ ':' :: ' ' :: (decimal c ++ ['\n']))

theorem kind_processorLine (n : Nat) : kind (processorLine n) = .processor := rfl

-- the conditions before the value are decided by the name alone
theorem kind_coreLine (c : Nat) : kind (coreLine c) = .core (decimal c) := by
  have hvalue : atStart (nameValue (litI "core id".toList)) (coreLine c) = some (decimal c) :=
    nameValue_line (by decide) (List.all_eq_true.mp (by decide)) (decimal_ne_nil _)
      (decimal_not_space _)
  rw [kind, hvalue]
  rfl

theorem kind_physicalLine (p : Nat) : kind (physicalLine p) = .physical (decimal p) := by
  have hvalue : atStart (nameValue (litI "physical id".toList)) (physicalLine p) =
      some (decimal p) :=
    nameValue_line (by decide) (List.all_eq_true.mp (by decide)) (decimal_ne_nil _)
      (decimal_not_space _)
  rw [kind, hvalue]
  rfl

/-- The block of processor `n`, as the kernel prints these lines. -/
def Block.ofIds (n p c : Nat) : Block where
  physical := p
  core := c
  lines := [processorLine n, physicalLine p, coreLine c]
  processor_line := by
    simp [kind_processorLine, kind_physicalLine, kind_coreLine]
  physical_line := by
    simp [physicalIndex, List.filterMap_cons, kind_processorLine, kind_physicalLine,
      kind_coreLine, numify_decimal, int_natCast]
  core_line := by
    simp [coreIndex, List.filterMap_cons, kind_processorLine, kind_physicalLine,
      kind_coreLine, numify_decimal, int_natCast]

/-- One socket, two processors, and cores that are numbered 0 and 2. -/
def gapBlocks : List Block := [Block.ofIds 0 0 0, Block.ofIds 1 0 2]

def gapCpuinfo : Text := (gapBlocks.flatMap Block.lines).flatten

theorem readlines_gapCpuinfo : readlines gapCpuinfo = gapBlocks.flatMap Block.lines := by
  decide +kernel

theorem topology_iff_gapCpuinfo :
    (∃ obj, new (fun x => decimal x.num) ⟨false, true⟩ gapCpuinfo = .ok obj ∧
      TopologyRight obj gapBlocks) ↔ NoGap gapBlocks :=
  topology_iff (fun x => decimal x.num) ⟨false, true⟩ readlines_gapCpuinfo

/-- The two cores are counted as three. -/
theorem gapCpuinfo_not_right :
    ¬ ∃ obj, new (fun x => decimal x.num) ⟨false, true⟩ gapCpuinfo = .ok obj ∧
      TopologyRight obj gapBlocks := by
  rintro ⟨obj, hnew, hright⟩
  have hgap := noGap_of_right readlines_gapCpuinfo hnew hright
  have hmem := hgap (Block.ofIds 0 0 0) (by simp [gapBlocks]) (Block.ofIds 1 0 2)
    (by simp [gapBlocks]) 0 (le_refl 0) 1 (by simp [Block.ofIds])
  simp [gapBlocks, Block.ids, Block.ofIds] at hmem

end Memrec.Cpuinfo
