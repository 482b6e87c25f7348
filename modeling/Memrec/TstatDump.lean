import Memrec.Divisors

/-!
# The registers of the processors

`dump_tstat -d` prints the counters of all processors, and `turbostat` runs it at
every poll.

The program keeps its processors in a list that `insert_counters` holds sorted
by package, core and processor, with one loop for each of the three.
`insertCounters_sorted` says that three loops in a row are enough: where one
stops, what is left is a sorted list of its own.

* `dump_read_back`: what `read_msr` makes of the dump, entry by entry.
* `getdata_dumps`: what is published after any number of polls.
-/

namespace Memrec.TstatDump

open Perl Perl.Pat Runs CellBank

/-! ## `dump_tstat` -/

/-- `struct counters`, without what the dump does not show. -/
structure Counters where
  tsc : UInt64
  aperf : UInt64
  mperf : UInt64
  c3 : UInt64
  c6 : UInt64
  c7 : UInt64
  pc2 : UInt64
  pc3 : UInt64
  pc6 : UInt64
  pc7 : UInt64
  pkg : Int
  core : Int
  cpu : Nat
  deriving DecidableEq

/-- What the program finds on the machine: the numbers in `/proc/stat`, the topology, the
registers of each processor by their offset, and what `check_cpuid` says of them. -/
structure Machine where
  cpus : List Nat
  physicalPackageId : Nat → Int
  coreId : Nat → Int
  msr : Nat → Nat → UInt64
  doNhmCstates : Bool
  doSnbCstates : Bool
  hasAperf : Bool

/-- The element that belongs in front of the head of the list. -/
def inFront (head new : Counters) : Bool :=
  head.pkg > new.pkg || (head.pkg == new.pkg && head.core > new.core) ||
    (head.pkg == new.pkg && head.core == new.core && head.cpu > new.cpu)

/-- The conditions of the three loops of `insert_counters`. -/
def lowerPkg (new next : Counters) : Bool := next.pkg < new.pkg

def lowerCore (new next : Counters) : Bool := next.pkg == new.pkg && next.core < new.core

def lowerCpu (new next : Counters) : Bool :=
  next.pkg == new.pkg && next.core == new.core && next.cpu < new.cpu

/-- `insert after "prev"`, `prev` being where the three loops stop. -/
def insertAfter (tail : List Counters) (new : Counters) : List Counters :=
  let rest := tail.dropWhile (lowerPkg new)
  let rest' := rest.dropWhile (lowerCore new)
  tail.takeWhile (lowerPkg new) ++ (rest.takeWhile (lowerCore new) ++
    (rest'.takeWhile (lowerCpu new) ++ new :: rest'.dropWhile (lowerCpu new)))

/-- `insert_counters( list, new )`. -/
def insertCounters (list : List Counters) (new : Counters) : List Counters :=
  match list with
  | [] => [new]
  | head :: tail =>
      if inFront head new then new :: head :: tail else head :: insertAfter tail new

/-- `alloc_new_counters( pkg, core, cpu )`: the list `cnt_even` afterwards. -/
def allocNewCounters (list : List Counters) (pkg core : Int) (cpu : Nat) : List Counters :=
  insertCounters list ⟨0, 0, 0, 0, 0, 0, 0, 0, 0, 0, pkg, core, cpu⟩

/-- `for_all_cpus( alloc_new_counters )`. -/
def allocated (m : Machine) : List Counters :=
  m.cpus.foldl (fun list cpu =>
    allocNewCounters list (m.physicalPackageId cpu) (m.coreId cpu) cpu) []

/-- The body of `get_counters`. -/
def getCounters (m : Machine) (cnt : Counters) : Counters :=
  { cnt with
    tsc := m.msr cnt.cpu 0x10
    c3 := if m.doNhmCstates then m.msr cnt.cpu 0x3FC else cnt.c3
    c6 := if m.doNhmCstates then m.msr cnt.cpu 0x3FD else cnt.c6
    c7 := if m.doSnbCstates then m.msr cnt.cpu 0x3FE else cnt.c7
    aperf := if m.hasAperf then m.msr cnt.cpu 0xE8 else cnt.aperf
    mperf := if m.hasAperf then m.msr cnt.cpu 0xE7 else cnt.mperf
    pc2 := if m.doSnbCstates then m.msr cnt.cpu 0x60D else cnt.pc2
    pc3 := if m.doNhmCstates then m.msr cnt.cpu 0x3F8 else cnt.pc3
    pc6 := if m.doNhmCstates then m.msr cnt.cpu 0x3F9 else cnt.pc6
    pc7 := if m.doSnbCstates then m.msr cnt.cpu 0x3FA else cnt.pc7 }

/-- The list that `dump_vals` prints. -/
def dumped (m : Machine) : List Counters := (allocated m).map (getCounters m)

/-- The columns of a line. -/
def columns (cnt : Counters) : List Text :=
  [decimal cnt.cpu, decimal cnt.pkg, decimal cnt.core] ++
    [cnt.tsc, cnt.aperf, cnt.mperf, cnt.c3, cnt.c6, cnt.c7, cnt.pc2, cnt.pc3, cnt.pc6,
      cnt.pc7].map fun x => decimal x.toNat

/-- `"# cpu pkg core tsc aperf mperf c3 c6 c7 pc2 pc3 pc6 pc7"`. -/
def header : Text := "# cpu pkg core tsc aperf mperf c3 c6 c7 pc2 pc3 pc6 pc7".toList

/-- The standard output of `dump_vals`. -/
def dumpVals (m : Machine) : Text :=
  (header :: (dumped m).map fun cnt => join [' '] (columns cnt)).flatMap (· ++ ['\n'])

/-! ## The list is sorted -/

/-- Sorted by package, core and processor. -/
def Precedes (a b : Counters) : Prop :=
  a.pkg < b.pkg ∨ a.pkg = b.pkg ∧ (a.core < b.core ∨ a.core = b.core ∧ a.cpu ≤ b.cpu)

/-- In a sorted list, nothing that is left satisfies a condition that only a first part
of the list can satisfy. -/
theorem not_of_mem_dropWhile {α : Type} {r : α → α → Prop} {p : α → Bool} {l : List α}
    (hl : l.Pairwise r) (hp : ∀ x ∈ l, ∀ y ∈ l, r x y → p y → p x) :
    ∀ y ∈ l.dropWhile p, ¬ p y := by
  induction l with
  | nil => simp
  | cons a l ih =>
      obtain ⟨ha, hl⟩ := List.pairwise_cons.mp hl
      by_cases hpa : p a
      · rw [List.dropWhile_cons_of_pos hpa]
        exact ih hl fun x hx y hy => hp x (List.mem_cons_of_mem a hx) y (List.mem_cons_of_mem a hy)
      · rw [List.dropWhile_cons_of_neg hpa]
        intro y hy hpy
        rcases List.mem_cons.mp hy with rfl | hmem
        · exact hpa hpy
        · exact hpa (hp a List.mem_cons_self y hy (ha y hmem) hpy)

/-- What the loops skip precedes the new element. -/
theorem precedes_of_skipped {new x : Counters}
    (h : lowerPkg new x ∨ lowerCore new x ∨ lowerCpu new x) : Precedes x new := by
  simp only [lowerPkg, lowerCore, lowerCpu, Bool.and_eq_true, beq_iff_eq, decide_eq_true_eq] at h
  unfold Precedes
  omega

/-- And it precedes what they leave. -/
theorem precedes_of_left {new y : Counters} (hpkg : ¬ lowerPkg new y) (hcore : ¬ lowerCore new y)
    (hcpu : ¬ lowerCpu new y) : Precedes new y := by
  simp only [lowerPkg, lowerCore, lowerCpu, Bool.and_eq_true, beq_iff_eq, decide_eq_true_eq] at *
  unfold Precedes
  omega

/-- **Three loops in a row.**  They cut a sorted list where the new element belongs. -/
theorem insertAfter_cut {tail : List Counters} (hs : tail.Pairwise Precedes) (new : Counters) :
    ∃ before after, tail = before ++ after ∧ insertAfter tail new = before ++ new :: after ∧
      (∀ x ∈ before, Precedes x new) ∧ ∀ y ∈ after, Precedes new y := by
  have hsub := List.dropWhile_sublist (l := tail) (lowerPkg new)
  have hsub' := List.dropWhile_sublist (l := tail.dropWhile (lowerPkg new)) (lowerCore new)
  have hpkg : ∀ y ∈ tail.dropWhile (lowerPkg new), ¬ lowerPkg new y := by
    refine not_of_mem_dropWhile hs ?_
    intro a _ b _ hab hb
    simp only [lowerPkg, decide_eq_true_eq, Precedes] at *
    omega
  -- from here on no package is lower
  have hcore : ∀ y ∈ (tail.dropWhile (lowerPkg new)).dropWhile (lowerCore new),
      ¬ lowerCore new y := by
    refine not_of_mem_dropWhile (hs.sublist hsub) ?_
    intro a ha b _ hab hb
    have hle := hpkg a ha
    simp only [lowerPkg, lowerCore, Bool.and_eq_true, beq_iff_eq, decide_eq_true_eq,
      Precedes] at *
    omega
  -- and from here on no core of the package
  have hcpu : ∀ y ∈ ((tail.dropWhile (lowerPkg new)).dropWhile (lowerCore new)).dropWhile
      (lowerCpu new), ¬ lowerCpu new y := by
    refine not_of_mem_dropWhile ((hs.sublist hsub).sublist hsub') ?_
    intro a ha b _ hab hb
    have hle := hpkg a (hsub'.subset ha)
    have hle' := hcore a ha
    simp only [lowerPkg, lowerCore, lowerCpu, Bool.and_eq_true, beq_iff_eq, decide_eq_true_eq,
      Precedes] at *
    omega
  refine ⟨tail.takeWhile (lowerPkg new) ++
    ((tail.dropWhile (lowerPkg new)).takeWhile (lowerCore new) ++
      ((tail.dropWhile (lowerPkg new)).dropWhile (lowerCore new)).takeWhile (lowerCpu new)),
    ((tail.dropWhile (lowerPkg new)).dropWhile (lowerCore new)).dropWhile (lowerCpu new),
    ?_, ?_, ?_, ?_⟩
  · rw [List.append_assoc, List.append_assoc, List.takeWhile_append_dropWhile,
      List.takeWhile_append_dropWhile, List.takeWhile_append_dropWhile]
  · unfold insertAfter
    rw [List.append_assoc, List.append_assoc]
  · intro x hx
    apply precedes_of_skipped
    rcases List.mem_append.mp hx with hx | hx
    · exact Or.inl (List.mem_takeWhile_imp hx)
    · rcases List.mem_append.mp hx with hx | hx
      · exact Or.inr (Or.inl (List.mem_takeWhile_imp hx))
      · exact Or.inr (Or.inr (List.mem_takeWhile_imp hx))
  · intro y hy
    have hmem := (List.dropWhile_sublist (lowerCpu new)).subset hy
    exact precedes_of_left (hpkg y (hsub'.subset hmem)) (hcore y hmem) (hcpu y hy)

theorem Precedes.trans {a b c : Counters} (hab : Precedes a b) (hbc : Precedes b c) :
    Precedes a c := by
  unfold Precedes at *
  omega

/-- **The list stays sorted**, and gets the new element. -/
theorem insertCounters_sorted {list : List Counters} (hs : list.Pairwise Precedes)
    (new : Counters) :
    (insertCounters list new).Pairwise Precedes ∧ (insertCounters list new).Perm (new :: list) := by
  cases list with
  | nil => exact ⟨List.pairwise_singleton _ _, .refl _⟩
  | cons head tail =>
      obtain ⟨hhead, htail⟩ := List.pairwise_cons.mp hs
      unfold insertCounters
      dsimp only
      by_cases hfront : inFront head new
      · rw [if_pos hfront]
        have hnew : Precedes new head := by
          simp only [inFront, Bool.or_eq_true, Bool.and_eq_true, beq_iff_eq,
            decide_eq_true_eq] at hfront
          unfold Precedes
          omega
        refine ⟨List.pairwise_cons.mpr ⟨?_, hs⟩, .refl _⟩
        intro y hy
        rcases List.mem_cons.mp hy with rfl | hy
        · exact hnew
        · exact hnew.trans (hhead y hy)
      · rw [if_neg hfront]
        have hnew : Precedes head new := by
          simp only [inFront, Bool.or_eq_true, Bool.and_eq_true, beq_iff_eq,
            decide_eq_true_eq] at hfront
          unfold Precedes
          omega
        obtain ⟨before, after, rfl, hinsert, hbefore, hafter⟩ := insertAfter_cut htail new
        obtain ⟨hb, ha, hba⟩ := List.pairwise_append.mp htail
        rw [hinsert]
        constructor
        · refine List.pairwise_cons.mpr ⟨?_, List.pairwise_append.mpr
            ⟨hb, List.pairwise_cons.mpr ⟨hafter, ha⟩, ?_⟩⟩
          · intro y hy
            rcases List.mem_append.mp hy with hy | hy
            · exact hhead y (List.mem_append_left _ hy)
            · rcases List.mem_cons.mp hy with rfl | hy
              · exact hnew
              · exact hhead y (List.mem_append_right _ hy)
          · intro x hx y hy
            rcases List.mem_cons.mp hy with rfl | hy
            · exact hbefore x hx
            · exact hba x hx y hy
        · exact (List.perm_middle.cons head).trans (.swap _ _ _)

/-- A processor as it is allocated. -/
def blank (m : Machine) (cpu : Nat) : Counters :=
  ⟨0, 0, 0, 0, 0, 0, 0, 0, 0, 0, m.physicalPackageId cpu, m.coreId cpu, cpu⟩

/-- The list of the program: sorted, and each processor as often as it was found. -/
theorem allocated_sorted (m : Machine) :
    (allocated m).Pairwise Precedes ∧ (allocated m).Perm (m.cpus.map (blank m)) := by
  unfold allocated
  induction m.cpus using List.reverseRecOn with
  | nil => exact ⟨List.Pairwise.nil, .refl _⟩
  | append_singleton cpus cpu ih =>
      obtain ⟨hs, hperm⟩ := insertCounters_sorted ih.1 (blank m cpu)
      rw [List.foldl_append, List.map_append]
      refine ⟨hs, hperm.trans ?_⟩
      exact (ih.2.cons (blank m cpu)).trans (List.perm_append_singleton _ _).symm

/-! ## Reading the dump -/

theorem join_blank_cons (w v : Text) (ws : List Text) :
    join [' '] (w :: v :: ws) = w ++ ' ' :: join [' '] (v :: ws) := by
  simp [join, List.intercalate, List.intersperse_cons_cons]

/-- Words with a blank between them. -/
theorem words_join_blank {ws : List Text} (h : ∀ w ∈ ws, w ≠ [] ∧ ∀ c ∈ w, isSpace c = false) :
    words (join [' '] ws) = ws := by
  induction ws with
  | nil => rfl
  | cons w ws ih =>
      obtain ⟨hne, hw⟩ := h w List.mem_cons_self
      cases ws with
      | nil => simpa [join] using words_token hne hw
      | cons v ws =>
          rw [join_blank_cons, words_append_space (by decide), words_token hne hw,
            ih fun u hu => h u (List.mem_cons_of_mem w hu)]
          rfl

theorem notMem_join_blank {ws : List Text} {c : Char} (hc : c ≠ ' ') (h : ∀ w ∈ ws, c ∉ w) :
    c ∉ join [' '] ws := by
  induction ws with
  | nil => simp [join]
  | cons w ws ih =>
      have hw := h w List.mem_cons_self
      cases ws with
      | nil => simpa [join] using hw
      | cons v ws =>
          have ih := ih fun u hu => h u (List.mem_cons_of_mem w hu)
          rw [join_blank_cons, List.mem_append, List.mem_cons]
          exact fun hmem => hmem.elim hw fun hmem => hmem.elim hc ih

theorem mem_columns {cnt : Counters} {w : Text} (hw : w ∈ columns cnt) :
    ∃ n : Int, w = decimal n := by
  unfold columns at hw
  rcases List.mem_append.mp hw with hw | hw
  · simp only [List.mem_cons, List.not_mem_nil, or_false] at hw
    rcases hw with rfl | rfl | rfl
    · exact ⟨_, rfl⟩
    · exact ⟨_, rfl⟩
    · exact ⟨_, rfl⟩
  · obtain ⟨x, -, rfl⟩ := List.mem_map.mp hw
    exact ⟨_, rfl⟩

theorem words_columns (cnt : Counters) : words (join [' '] (columns cnt)) = columns cnt := by
  apply words_join_blank
  intro w hw
  obtain ⟨n, rfl⟩ := mem_columns hw
  exact ⟨decimal_ne_nil n, decimal_not_space n⟩

/-- The lines of the dump, as `read_msr` splits them. -/
theorem dumpLines_dumpVals (m : Machine) : dumpLines (dumpVals m) = (dumped m).map columns := by
  have hnl : ∀ l ∈ header :: (dumped m).map fun cnt => join [' '] (columns cnt), '\n' ∉ l := by
    intro l hl
    rcases List.mem_cons.mp hl with rfl | hl
    · decide
    · obtain ⟨cnt, -, rfl⟩ := List.mem_map.mp hl
      apply notMem_join_blank (by decide)
      intro w hw
      obtain ⟨n, rfl⟩ := mem_columns hw
      exact notMem_decimal rfl (by decide) n
  unfold dumpLines dumpVals
  rw [readlines_unlines hnl, List.map_cons, List.tail_cons, List.map_map, List.map_map]
  apply List.map_congr_left
  intro cnt _
  simp only [Function.comp_apply]
  rw [chomp_line, words_columns]

theorem hashStore_of_notMem {h : List (Text × Text)} {k : Text} (hk : k ∉ h.map Prod.fst)
    (v : Text) : hashStore h k v = h ++ [(k, v)] :=
  if_neg hk

/-- What a processor adds to the hash. -/
def entries (cnt : Counters) : List (Text × Text) :=
  [("tsc ".toList ++ decimal cnt.cpu, decimal cnt.tsc.toNat),
    ("aperf ".toList ++ decimal cnt.cpu, decimal cnt.aperf.toNat),
    ("mperf ".toList ++ decimal cnt.cpu, decimal cnt.mperf.toNat)]

theorem keys_entries (cnt : Counters) :
    (entries cnt).map Prod.fst = (msrKeys (decimal cnt.cpu)).map Prod.fst := rfl

/-- The keys of one processor are different from each other. -/
theorem nodup_keys_entries (cnt : Counters) : ((entries cnt).map Prod.fst).Nodup := by
  simp [entries]

/-- **One line.** -/
theorem foldl_msrKeys {h : List (Text × Text)} {cnt : Counters}
    (hnew : ∀ k ∈ (entries cnt).map Prod.fst, k ∉ h.map Prod.fst) :
    (msrKeys ((columns cnt).headD [])).foldl
      (fun h k => hashStore h k.1 ((columns cnt).getD k.2 [])) h = h ++ entries cnt := by
  have hrun : ∀ (es : List (Text × Text)) (h : List (Text × Text)), (es.map Prod.fst).Nodup →
      (∀ k ∈ es.map Prod.fst, k ∉ h.map Prod.fst) →
      es.foldl (fun h e => hashStore h e.1 e.2) h = h ++ es := by
    intro es
    induction es with
    | nil => exact fun h _ _ => (List.append_nil h).symm
    | cons e es ih =>
        intro h hn hnew
        obtain ⟨hne, hn⟩ := List.nodup_cons.mp hn
        rw [List.foldl_cons, hashStore_of_notMem (hnew e.1 List.mem_cons_self), ih _ hn,
          List.append_assoc, List.singleton_append]
        intro k hk hmem
        rw [List.map_append, List.mem_append] at hmem
        rcases hmem with hmem | hmem
        · exact hnew k (List.mem_cons_of_mem _ hk) hmem
        · obtain rfl : k = e.1 := by simpa using hmem
          exact hne hk
  exact hrun (entries cnt) h (nodup_keys_entries cnt) hnew

/-- Different processors have different keys. -/
theorem cpu_eq_of_mem_entries {a b : Counters} {k : Text} (ha : k ∈ (entries a).map Prod.fst)
    (hb : k ∈ (entries b).map Prod.fst) : a.cpu = b.cpu := by
  rw [keys_entries] at ha hb
  exact Int.ofNat_inj.mp (decimal_injective (msrKeys_inj ha hb))

theorem foldl_entries {cnts : List Counters} (hn : (cnts.map Counters.cpu).Nodup)
    {h : List (Text × Text)}
    (hnew : ∀ cnt ∈ cnts, ∀ k ∈ (entries cnt).map Prod.fst, k ∉ h.map Prod.fst) :
    (cnts.map columns).foldl (fun h fld => (msrKeys (fld.headD [])).foldl
      (fun h k => hashStore h k.1 (fld.getD k.2 [])) h) h = h ++ cnts.flatMap entries := by
  induction cnts generalizing h with
  | nil => exact (List.append_nil h).symm
  | cons cnt cnts ih =>
      obtain ⟨hne, hn⟩ := List.nodup_cons.mp hn
      rw [List.map_cons, List.foldl_cons, foldl_msrKeys (hnew cnt List.mem_cons_self), ih hn,
        List.append_assoc, List.flatMap_cons]
      intro other hother k hk hmem
      rw [List.map_append, List.mem_append] at hmem
      rcases hmem with hmem | hmem
      · exact hnew other (List.mem_cons_of_mem _ hother) k hk hmem
      · apply hne
        rw [cpu_eq_of_mem_entries hmem hk]
        exact List.mem_map_of_mem hother

/-- Every processor is dumped once. -/
theorem cpus_dumped (m : Machine) : ((dumped m).map Counters.cpu).Perm m.cpus := by
  have hperm := ((allocated_sorted m).2.map (getCounters m)).map Counters.cpu
  have hcpus : ((m.cpus.map (blank m)).map (getCounters m)).map Counters.cpu = m.cpus := by
    rw [List.map_map, List.map_map]
    exact List.map_id m.cpus
  rwa [hcpus] at hperm

/-- The counters of a processor, as they are dumped. -/
def sampled (m : Machine) (cpu : Nat) : Counters := getCounters m (blank m cpu)

/-- **The dump is read back.**  For any set of processors in any order, the dump lists each
of them once, sorted by package, core and processor, and the hash that `read_msr`
returns has the three counters of each processor and nothing else. -/
theorem dump_read_back (m : Machine) (hn : m.cpus.Nodup) :
    (dumped m).Pairwise Precedes ∧ (dumped m).Perm (m.cpus.map (sampled m)) ∧
      readMsr (dumpVals m) = (dumped m).flatMap entries := by
  obtain ⟨hs, hperm⟩ := allocated_sorted m
  refine ⟨?_, ?_, ?_⟩
  · exact List.pairwise_map.mpr hs
  · have hmap := hperm.map (getCounters m)
    rwa [List.map_map] at hmap
  · unfold readMsr
    rw [dumpLines_dumpVals, foldl_entries ((cpus_dumped m).nodup_iff.mpr hn) (by simp),
      List.nil_append]

/-- Two processors, each of a package of its own, whose numbers are the other way round. -/
def twoPackages (tsc : UInt64) : Machine where
  cpus := [0, 1]
  physicalPackageId cpu := 1 - cpu
  coreId _ := 0
  msr cpu offset := if offset = 0x10 then tsc * 1000000000 else tsc * 250000000 + cpu.toUInt64
  doNhmCstates := true
  doSnbCstates := false
  hasAperf := true

theorem dump_read_back_two : (twoPackages 8).cpus.Nodup ∧
    (readMsr (dumpVals (twoPackages 8))).map Prod.fst =
      ["tsc 1", "aperf 1", "mperf 1", "tsc 0", "aperf 0", "mperf 0"].map String.toList := by
  have hn : (twoPackages 8).cpus.Nodup := by decide
  refine ⟨hn, ?_⟩
  rw [(dump_read_back (twoPackages 8) hn).2.2]
  decide +kernel

/-! ## One poll -/

/-- The three counters of a processor, by the name of their key. -/
def registers : List (Text × (Counters → UInt64)) :=
  [("tsc".toList, Counters.tsc), ("aperf".toList, Counters.aperf), ("mperf".toList, Counters.mperf)]

/-- How far a counter of a processor has advanced. -/
def advance (reg : Counters → UInt64) (old new : Machine) (cpu : Nat) : ℚ :=
  Wrapctr.step ((reg (sampled old cpu)).toNat : ℚ) ((reg (sampled new cpu)).toNat : ℚ)

/-- How far a counter has advanced on all processors together. -/
def moved (reg : Counters → UInt64) (old new : Machine) : ℚ :=
  (new.cpus.map (advance reg old new)).sum

/-- What `turbostat` publishes, from one dump to the next. -/
def published (numCpus : Nat) (dt : ℚ) (old new : Machine) : List (Text × Datum) :=
  [("tstat_c0pct".toList,
      .num (round0 (100 * moved Counters.mperf old new / moved Counters.tsc old new))),
    ("tstat_ghz".toList, .num (round00 (moved Counters.tsc old new / numCpus / 1000000000 *
      moved Counters.aperf old new / moved Counters.mperf old new / dt))),
    ("tstat_clist".toList, .commas ((List.range numCpus).map fun k => some
      (round0 (100 * advance Counters.mperf old new k / advance Counters.tsc old new k)))),
    ("tstat_glist".toList, .commas ((List.range numCpus).map fun k => some
      (round00 (advance Counters.tsc old new k / 1000000000 * advance Counters.aperf old new k /
        advance Counters.mperf old new k / dt))))]

theorem entries_eq (cnt : Counters) :
    entries cnt = registers.map fun r =>
      (Turbostat.cpuKey r.1 cnt.cpu, decimal (r.2 cnt).toNat) := rfl

theorem entries_sampled (m : Machine) (cpu : Nat) :
    entries (sampled m cpu) = registers.map fun r =>
      (Turbostat.cpuKey r.1 cpu, decimal (r.2 (sampled m cpu)).toNat) := rfl

theorem stripCpu_cpuKey {name : Text} (hname : ∀ c ∈ name, isSpace c = false) (k : Nat) :
    stripCpu (Turbostat.cpuKey name k) = name := by
  obtain ⟨d, ds, hd⟩ := List.exists_cons_of_ne_nil (decimal_ne_nil k)
  have hdigit : ∀ c ∈ decimal k, c.isDigit = true := fun c hc => isDigit_of_mem_decimal hc
  have hnumber : (many1 Char.isDigit (decimal k)).head? = some (decimal k, []) := by
    rw [hd] at hdigit ⊢
    rw [head?_many1 (hdigit d List.mem_cons_self)]
    have hrest : ∀ c ∈ ds, c.isDigit = true := fun c hc => hdigit c (List.mem_cons_of_mem d hc)
    rw [List.takeWhile_eq_self_iff.mpr hrest, List.dropWhile_eq_nil_iff.mpr hrest]
  have hskip : ∀ c ∈ name, ∀ t,
      (do let _ ← cls isSpace; many1 Char.isDigit : Pat Text) (c :: t) = [] := by
    intro c hc t
    rw [bind_apply, cls_cons, if_neg (by simp [hname c hc])]
    rfl
  have hsearch : search (do let _ ← cls isSpace; many1 Char.isDigit : Pat Text)
      (Turbostat.cpuKey name k) = some (name, decimal k, []) := by
    unfold Turbostat.cpuKey
    rw [search_skip_all _ hskip, search_here (r := (decimal k, []))]
    · simp
    · rw [cls_bind_cons (by decide)]
      exact hnumber
  unfold stripCpu
  rw [hsearch]
  exact List.append_nil name

theorem name_not_space {r : Text × (Counters → UInt64)} (hr : r ∈ registers) :
    ∀ c ∈ r.1, isSpace c = false := by
  have hall : ((registers.map Prod.fst).all fun name => name.all fun c => !isSpace c) = true := by
    decide
  have hname := List.all_eq_true.mp hall r.1 (List.mem_map_of_mem hr)
  simpa using hname

section Dumps

variable {m : Machine} (hn : m.cpus.Nodup)

include hn

theorem mem_readMsr_dump {e : Text × Text} :
    e ∈ readMsr (dumpVals m) ↔ ∃ cpu ∈ m.cpus, e ∈ entries (sampled m cpu) := by
  obtain ⟨-, hperm, hread⟩ := dump_read_back m hn
  rw [hread, List.mem_flatMap]
  constructor
  · intro h
    obtain ⟨cnt, hcnt, he⟩ := h
    obtain ⟨cpu, hcpu, rfl⟩ := List.mem_map.mp (hperm.mem_iff.mp hcnt)
    exact ⟨cpu, hcpu, he⟩
  · intro h
    obtain ⟨cpu, hcpu, he⟩ := h
    exact ⟨_, hperm.mem_iff.mpr (List.mem_map_of_mem hcpu), he⟩

theorem mem_readMsr_of_mem {cpu : Nat} (hcpu : cpu ∈ m.cpus) {r : Text × (Counters → UInt64)}
    (hr : r ∈ registers) : (Turbostat.cpuKey r.1 cpu, decimal (r.2 (sampled m cpu)).toNat) ∈
      readMsr (dumpVals m) := by
  rw [mem_readMsr_dump hn]
  refine ⟨cpu, hcpu, ?_⟩
  rw [entries_sampled]
  exact List.mem_map.mpr ⟨r, hr, rfl⟩

/-- What the dump says of a processor. -/
theorem lookup_dump {cpu : Nat} (hcpu : cpu ∈ m.cpus) {r : Text × (Counters → UInt64)}
    (hr : r ∈ registers) :
    (readMsr (dumpVals m)).lookup (Turbostat.cpuKey r.1 cpu) =
      some (decimal (r.2 (sampled m cpu)).toNat) :=
  lookup_of_nodup (nodup_readMsr _) (mem_readMsr_of_mem hn hcpu hr)

end Dumps

/-- The increments of a poll. -/
def increments (old new : Machine) : List (Text × ℚ) :=
  (dumped new).flatMap fun cnt => registers.map fun r =>
    (Turbostat.cpuKey r.1 cnt.cpu, advance r.2 old new cnt.cpu)

/-- The increments to one average. -/
theorem sum_increments (old new : Machine) {r : Text × (Counters → UInt64)} (hr : r ∈ registers) :
    (((increments old new).filter fun p => stripCpu p.1 == r.1).map Prod.snd).sum =
      moved r.2 old new := by
  have hone : ∀ cpu : Nat, ((registers.map fun r =>
      (Turbostat.cpuKey r.1 cpu, advance r.2 old new cpu)).filter fun p =>
        stripCpu p.1 == r.1).map Prod.snd = [advance r.2 old new cpu] := by
    intro cpu
    have hstrip : ∀ q ∈ registers, stripCpu (Turbostat.cpuKey q.1 cpu) = q.1 :=
      fun q hq => stripCpu_cpuKey (name_not_space hq) cpu
    have hfilter : (registers.map fun r =>
        (Turbostat.cpuKey r.1 cpu, advance r.2 old new cpu)).filter
        (fun p => stripCpu p.1 == r.1) = (registers.filter fun q => q.1 == r.1).map fun r =>
          (Turbostat.cpuKey r.1 cpu, advance r.2 old new cpu) := by
      rw [List.filter_map]
      congr 1
      apply List.filter_congr
      intro q hq
      rw [Function.comp_apply, hstrip q hq]
    rw [hfilter]
    simp only [registers, List.mem_cons, List.not_mem_nil, or_false] at hr
    rcases hr with rfl | rfl | rfl
    · rfl
    · rfl
    · rfl
  unfold increments moved
  rw [List.filter_flatMap, List.map_flatMap]
  have hflat : ((dumped new).flatMap fun cnt => ((registers.map fun r =>
      (Turbostat.cpuKey r.1 cnt.cpu, advance r.2 old new cnt.cpu)).filter fun p =>
        stripCpu p.1 == r.1).map Prod.snd) =
      ((dumped new).map Counters.cpu).map (advance r.2 old new) := by
    rw [List.map_map, List.map_eq_flatMap]
    exact List.flatMap_congr fun cnt _ => hone cnt.cpu
  rw [hflat]
  exact ((cpus_dumped new).map _).sum_eq

/-- A poll goes through. -/
structure Passes (numCpus : Nat) (dt : ℚ) (old new : Machine) : Prop where
  cpus : 0 < numCpus
  time : dt ≠ 0
  moved : ∀ k < numCpus, k ∈ new.cpus ∧
    advance Counters.tsc old new k ≠ 0 ∧ advance Counters.mperf old new k ≠ 0

theorem keys_increments (old new : Machine) (hn : new.cpus.Nodup) :
    (increments old new).map Prod.fst = (readMsr (dumpVals new)).map Prod.fst := by
  rw [(dump_read_back new hn).2.2, increments, List.map_flatMap, List.map_flatMap]
  apply List.flatMap_congr
  intro cnt _
  rw [entries_eq, List.map_map, List.map_map]
  rfl

theorem lookup_increments (old new : Machine) (hn : new.cpus.Nodup) {k : Nat}
    (hk : k ∈ new.cpus) {r : Text × (Counters → UInt64)} (hr : r ∈ registers) :
    (increments old new).lookup (Turbostat.cpuKey r.1 k) = some (advance r.2 old new k) := by
  have hnodup : ((increments old new).map Prod.fst).Nodup := by
    rw [keys_increments old new hn]
    exact nodup_readMsr _
  obtain ⟨cnt, hcnt, rfl⟩ := List.mem_map.mp ((cpus_dumped new).mem_iff.mpr hk)
  have hmem : (Turbostat.cpuKey r.1 cnt.cpu, advance r.2 old new cnt.cpu) ∈ increments old new :=
    List.mem_flatMap.mpr ⟨cnt, hcnt, List.mem_map.mpr ⟨r, hr, rfl⟩⟩
  exact lookup_of_nodup hnodup hmem

theorem lookup_increments_of_notMem (old new : Machine) {k : Nat}
    (hk : k ∉ new.cpus) {r : Text × (Counters → UInt64)} (hr : r ∈ registers) :
    (increments old new).lookup (Turbostat.cpuKey r.1 k) = none := by
  rw [List.lookup_eq_none_iff]
  intro e he
  obtain ⟨cnt, hcnt, he⟩ := List.mem_flatMap.mp he
  obtain ⟨q, hq, rfl⟩ := List.mem_map.mp he
  rw [bne_iff_ne]
  intro hkey
  dsimp only at hkey
  apply hk
  have hname : r.1 = q.1 := by
    rw [← stripCpu_cpuKey (name_not_space hr) k, ← stripCpu_cpuKey (name_not_space hq) cnt.cpu,
      hkey]
  rw [hname] at hkey
  have hcpu := (List.cons_inj_right _).mp (List.append_cancel_left hkey)
  obtain rfl : k = cnt.cpu := Int.ofNat_inj.mp (decimal_injective hcpu)
  exact (cpus_dumped new).mem_iff.mp (List.mem_map_of_mem hcnt)

/-- The average that a name has got. -/
theorem average_eq {n : Nat} (hn : 0 < n) {old new : Machine} {avg : List (Text × ℚ)}
    (h : Turbostat.averages n (increments old new) = .ok avg) {r : Text × (Counters → UInt64)}
    (hr : r ∈ registers) : (avg.lookup r.1).getD 0 = moved r.2 old new / n := by
  have hn' : (n : ℚ) ≠ 0 := by exact_mod_cast hn.ne'
  obtain rfl := Except.ok.inj ((mapM_rates id _ hn' _).symm.trans h)
  simp only [id]
  rw [lookup_map_graph]
  split
  · rw [Option.getD_some, sum_increments old new hr]
  · -- no key of the dump has the name
    rename_i hnone
    have hempty : (increments old new).filter (fun p => stripCpu p.1 == r.1) = [] := by
      rw [List.filter_eq_nil_iff]
      intro p hp hname
      apply hnone
      rw [List.mem_dedup, ← eq_of_beq hname]
      exact List.mem_map_of_mem hp
    rw [← sum_increments old new hr, hempty]
    simp

theorem shares_eq {look : Text → ℚ} {suffix : Text} {dt : ℚ} {y : ℚ × ℚ}
    (h : Turbostat.shares look suffix dt = .ok y) :
    y = (round0 (100 * look ("mperf".toList ++ suffix) / look ("tsc".toList ++ suffix)),
      round00 (look ("tsc".toList ++ suffix) / 1000000000 * look ("aperf".toList ++ suffix) /
        look ("mperf".toList ++ suffix) / dt)) := by
  obtain ⟨htsc, hmperf, hdt⟩ := (Turbostat.shares_isOk_iff _ _ _).mp ⟨y, h⟩
  simp only [Turbostat.shares, div_of_ne htsc, div_of_ne hmperf, div_of_ne hdt, ok_bind] at h
  exact (Except.ok.inj h).symm

/-- What a loop returns when its rounds are known. -/
theorem mapM_eq_map {α β ε : Type} {f : α → Except ε β} {g : α → β} {l : List α} {ys : List β}
    (h : l.mapM f = .ok ys) (hg : ∀ x ∈ l, ∀ y, f x = .ok y → y = g x) : ys = l.map g := by
  induction l generalizing ys with
  | nil => exact (Except.ok.inj h).symm
  | cons x l ih =>
      rw [List.mapM_cons] at h
      obtain ⟨y, hy, h⟩ := bind_eq_ok.mp h
      obtain ⟨zs, hzs, h⟩ := bind_eq_ok.mp h
      obtain rfl := Except.ok.inj h
      rw [List.map_cons, hg x List.mem_cons_self y hy,
        ih hzs fun z hz => hg z (List.mem_cons_of_mem x hz)]

section Publish

variable {n : Nat} {dt : ℚ} {old new : Machine} (hn : new.cpus.Nodup)

theorem tsc_mem : ("tsc".toList, Counters.tsc) ∈ registers := by simp [registers]

theorem aperf_mem : ("aperf".toList, Counters.aperf) ∈ registers := by simp [registers]

theorem mperf_mem : ("mperf".toList, Counters.mperf) ∈ registers := by simp [registers]

include hn

theorem publish_isOk_iff_passes :
    (∃ out, Turbostat.publish n dt (increments old new) = .ok out) ↔ Passes n dt old new := by
  have hpos : ∀ p ∈ increments old new, 0 ≤ p.2 := by
    intro p hp
    obtain ⟨cnt, -, hp⟩ := List.mem_flatMap.mp hp
    obtain ⟨r, -, rfl⟩ := List.mem_map.mp hp
    exact Wrapctr.step_nonneg _ _
  rw [Turbostat.publish_isOk_iff hpos]
  constructor
  · intro ⟨hcpus, hdt, hmoved⟩
    refine ⟨hcpus, hdt, ?_⟩
    intro k hk
    have hmem : k ∈ new.cpus := by
      by_contra hnot
      apply (hmoved k hk).1
      rw [lookup_increments_of_notMem old new hnot tsc_mem]
      rfl
    have h := hmoved k hk
    rw [lookup_increments old new hn hmem tsc_mem, lookup_increments old new hn hmem mperf_mem] at h
    exact ⟨hmem, h⟩
  · intro h
    refine ⟨h.cpus, h.time, ?_⟩
    intro k hk
    obtain ⟨hmem, hmoved⟩ := h.moved k hk
    rw [lookup_increments old new hn hmem tsc_mem, lookup_increments old new hn hmem mperf_mem]
    exact hmoved

/-- The number of processors cancels in the share of all processors together, and once in
their frequency. -/
theorem eq_published_of_publish {out : List (Text × Datum)}
    (h : Turbostat.publish n dt (increments old new) = .ok out) :
    out = published n dt old new := by
  have hp := (publish_isOk_iff_passes hn).mp ⟨out, h⟩
  have hn' : (n : ℚ) ≠ 0 := by exact_mod_cast hp.cpus.ne'
  obtain ⟨avg, havg, h⟩ := bind_eq_ok.mp h
  obtain ⟨all, hall, h⟩ := bind_eq_ok.mp h
  obtain ⟨each, heach, h⟩ := bind_eq_ok.mp h
  obtain rfl := Except.ok.inj h
  have hpct : 100 * (moved Counters.mperf old new / n) / (moved Counters.tsc old new / n) =
      100 * moved Counters.mperf old new / moved Counters.tsc old new := by
    rw [← mul_div_assoc, div_div_div_cancel_right₀ hn']
  have hghz : moved Counters.tsc old new / n / 1000000000 * (moved Counters.aperf old new / n) /
      (moved Counters.mperf old new / n) / dt = moved Counters.tsc old new / n / 1000000000 *
        moved Counters.aperf old new / moved Counters.mperf old new / dt := by
    rw [← mul_div_assoc, div_div_div_cancel_right₀ hn']
  have hshares := shares_eq hall
  simp only [List.append_nil] at hshares
  rw [average_eq hp.cpus havg tsc_mem, average_eq hp.cpus havg aperf_mem,
    average_eq hp.cpus havg mperf_mem, hpct, hghz] at hshares
  rw [range_cast] at heach
  have hround : ∀ x ∈ (List.range n).map (Nat.cast : Nat → Int), ∀ y,
      Turbostat.shares (fun k => ((increments old new).lookup k).getD 0) (' ' :: decimal x) dt =
        .ok y →
      y = (round0 (100 * advance Counters.mperf old new x.toNat /
          advance Counters.tsc old new x.toNat),
        round00 (advance Counters.tsc old new x.toNat / 1000000000 *
          advance Counters.aperf old new x.toNat / advance Counters.mperf old new x.toNat /
            dt)) := by
    intro x hx y hy
    obtain ⟨k, hk, rfl⟩ := List.mem_map.mp hx
    obtain ⟨hmem, -⟩ := hp.moved k (List.mem_range.mp hk)
    have hlook : ∀ r ∈ registers, (increments old new).lookup
        (r.1 ++ ' ' :: decimal k) = some (advance r.2 old new k) :=
      fun r hr => lookup_increments old new hn hmem hr
    have hy := shares_eq hy
    rw [hlook _ tsc_mem, hlook _ aperf_mem, hlook _ mperf_mem] at hy
    exact hy
  rw [hshares, mapM_eq_map heach hround]
  simp only [List.map_map]
  rfl

/-- **What is published** of a poll. -/
theorem publish_increments {out : List (Text × Datum)} :
    Turbostat.publish n dt (increments old new) = .ok out ↔
      Passes n dt old new ∧ out = published n dt old new := by
  constructor
  · exact fun h => ⟨(publish_isOk_iff_passes hn).mp ⟨out, h⟩, eq_published_of_publish hn h⟩
  · intro ⟨hp, hout⟩
    obtain ⟨out', h⟩ := (publish_isOk_iff_passes hn).mpr hp
    rw [h, hout, eq_published_of_publish hn h]

end Publish

/-! ## The polls -/

/-- What the object knows after a poll. -/
structure Follows (n : Nat) (s : Turbostat) (last : Int × Machine) : Prop where
  enabled : s.tsEnable = true
  cpus : s.numCpus = n
  time : s.lastTstamp = last.1
  holds : ∀ p ∈ readMsr (dumpVals last.2), (s.ctr p.1).map Wrapctr.v = some (numify p.2)

/-- **One poll.** -/
theorem getdata_poll {n : Nat} {s : Turbostat} {last : Int × Machine} (hs : Follows n s last)
    (hlast : last.2.cpus.Nodup) {t : Int} {new : Machine} (hnew : new.cpus.Perm last.2.cpus) :
    ∃ s', Follows n s' (t, new) ∧ s.getdata (t, dumpVals new) =
      (Turbostat.publish n ((t - last.1 : Int) : ℚ) (increments last.2 new)).map
        fun out => (s', out) := by
  have hn : new.cpus.Nodup := hnew.nodup_iff.mpr hlast
  have hkeys : (((readMsr (dumpVals new)).map fun p => (p.1, numify p.2)).map Prod.fst).Nodup := by
    rw [List.map_map]
    exact nodup_readMsr _
  have hholds : ∀ e ∈ (readMsr (dumpVals new)).map fun p => (p.1, numify p.2),
      (s.ctr e.1).map Wrapctr.v =
        some (numify (((readMsr (dumpVals last.2)).lookup e.1).getD [])) := by
    intro e he
    obtain ⟨p, hp, rfl⟩ := List.mem_map.mp he
    obtain ⟨cpu, hcpu, hp⟩ := (mem_readMsr_dump hn).mp hp
    rw [entries_sampled] at hp
    obtain ⟨r, hr, rfl⟩ := List.mem_map.mp hp
    have hold := hs.holds _ (mem_readMsr_of_mem hlast (hnew.mem_iff.mp hcpu) hr)
    rw [lookup_dump hlast (hnew.mem_iff.mp hcpu) hr]
    exact hold
  obtain ⟨ctr, hfeed, hnow, -⟩ := feed_counters (fun ds k d => ds ++ [(k, d)])
    (fun k => numify (((readMsr (dumpVals last.2)).lookup k).getD [])) hkeys hholds []
  have hdelta : ((readMsr (dumpVals new)).map fun p => (p.1, numify p.2)).foldl
      (fun ds e => ds ++ [(e.1, Wrapctr.step
        (numify (((readMsr (dumpVals last.2)).lookup e.1).getD [])) e.2)]) [] =
      increments last.2 new := by
    rw [foldl_collect, List.nil_append, List.map_map, (dump_read_back new hn).2.2, increments,
      List.map_flatMap]
    apply List.flatMap_congr
    intro cnt hcnt
    obtain ⟨cpu, hcpu, rfl⟩ := List.mem_map.mp ((dump_read_back new hn).2.1.mem_iff.mp hcnt)
    rw [entries_sampled, List.map_map]
    apply List.map_congr_left
    intro r hr
    simp only [Function.comp_apply]
    rw [lookup_dump hlast (hnew.mem_iff.mp hcpu) hr,
      Option.getD_some, numify_decimal, numify_decimal]
    rfl
  refine ⟨{ s with ctr := ctr, lastTstamp := t }, ⟨hs.enabled, hs.cpus, rfl, ?_⟩, ?_⟩
  · intro p hp
    exact hnow _ (List.mem_map_of_mem hp)
  · unfold Turbostat.getdata
    rw [if_pos hs.enabled, hfeed, ok_bind, hdelta, hs.cpus, hs.time]
    cases Turbostat.publish n ((t - last.1 : Int) : ℚ) (increments last.2 new) with
    | error e => rfl
    | ok out => rfl

section Polls

variable {cpuinfo : Text} {m₀ : Machine}
  (henabled : (Turbostat.new cpuinfo true (dumpVals m₀)).tsEnable = true)

include henabled

/-- Before the first poll, the time is zero and the dump that of `new`. -/
theorem follows_new : Follows (Turbostat.new cpuinfo true (dumpVals m₀)).numCpus
    (Turbostat.new cpuinfo true (dumpVals m₀)) (0, m₀) := by
  refine ⟨henabled, rfl, rfl, ?_⟩
  intro p hp
  have hkeys : ((fresh ((readMsr (dumpVals m₀)).map fun p => (p.1, numify p.2))).map
      Prod.fst).Nodup := by
    rw [fresh, List.map_map, List.map_map]
    exact nodup_readMsr _
  have hmem : (p.1, Wrapctr.new (numify p.2)) ∈
      fresh ((readMsr (dumpVals m₀)).map fun p => (p.1, numify p.2)) := by
    rw [fresh, List.map_map]
    exact List.mem_map.mpr ⟨p, hp, rfl⟩
  have hctr : (Turbostat.new cpuinfo true (dumpVals m₀)).ctr p.1 =
      some (Wrapctr.new (numify p.2)) := by
    rw [← putAll_of_mem (fun _ => none) _ hkeys hmem]
    exact congrFun (if_pos henabled) p.1
  rw [hctr]
  rfl

/-- **The polls, one after the other.**  The induction is on the last of them. -/
theorem follows_polls (hn : m₀.cpus.Nodup) (polls : List (Int × Machine))
    (hcpus : ∀ p ∈ polls, p.2.cpus.Perm m₀.cpus) {s : Turbostat}
    (hrun : after Turbostat.getdata (Turbostat.new cpuinfo true (dumpVals m₀))
      (polls.map fun p => (p.1, dumpVals p.2)) = .ok s) :
    Follows (Turbostat.new cpuinfo true (dumpVals m₀)).numCpus s (polls.getLastD (0, m₀)) ∧
      (polls.getLastD (0, m₀)).2.cpus.Perm m₀.cpus := by
  induction polls using List.reverseRecOn generalizing s with
  | nil =>
      obtain rfl := Except.ok.inj hrun
      exact ⟨follows_new henabled, .refl _⟩
  | append_singleton polls p ih =>
      rw [List.map_append, List.map_singleton] at hrun
      obtain ⟨mid, r, hmid, hr, rfl⟩ := after_snoc_ok hrun
      obtain ⟨hbefore, hlast⟩ := ih (fun q hq => hcpus q (List.mem_append_left _ hq)) hmid
      have hp := hcpus p (List.mem_append_right _ List.mem_cons_self)
      obtain ⟨s', hs', hpoll⟩ :=
        getdata_poll hbefore (hlast.nodup_iff.mpr hn) (hp.trans hlast.symm)
      rw [hpoll] at hr
      obtain ⟨out, -, rfl⟩ := map_eq_ok.mp hr
      rw [List.getLastD_concat]
      exact ⟨hs', hp⟩

end Polls

/-- **From the registers to the data.**  After any polls that went through, on a machine
whose processors stay the same, the next poll goes through exactly if each processor
that `/proc/cpuinfo` counts is dumped and has moved since the poll before, and then
it publishes what the registers have advanced since that poll. -/
theorem getdata_dumps {cpuinfo : Text} {m₀ : Machine} (hn : m₀.cpus.Nodup)
    (henabled : (Turbostat.new cpuinfo true (dumpVals m₀)).tsEnable = true)
    {polls : List (Int × Machine)} (hcpus : ∀ p ∈ polls, p.2.cpus.Perm m₀.cpus) {s : Turbostat}
    (hrun : after Turbostat.getdata (Turbostat.new cpuinfo true (dumpVals m₀))
      (polls.map fun p => (p.1, dumpVals p.2)) = .ok s)
    (t : Int) {m : Machine} (hm : m.cpus.Perm m₀.cpus) (out : List (Text × Datum)) :
    (∃ s', s.getdata (t, dumpVals m) = .ok (s', out)) ↔
      Passes s.numCpus ((t - (polls.getLastD (0, m₀)).1 : Int) : ℚ) (polls.getLastD (0, m₀)).2 m ∧
      out = published s.numCpus ((t - (polls.getLastD (0, m₀)).1 : Int) : ℚ)
        (polls.getLastD (0, m₀)).2 m := by
  obtain ⟨hs, hlast⟩ := follows_polls henabled hn polls hcpus hrun
  obtain ⟨s', -, hpoll⟩ := getdata_poll (t := t) hs (hlast.nodup_iff.mpr hn) (hm.trans hlast.symm)
  rw [hpoll, hs.cpus, ← publish_increments (hm.nodup_iff.mpr hn)]
  cases Turbostat.publish (Turbostat.new cpuinfo true (dumpVals m₀)).numCpus
      ((t - (polls.getLastD (0, m₀)).1 : Int) : ℚ)
      (increments (polls.getLastD (0, m₀)).2 m) with
  | error e =>
      apply iff_of_false
      · intro ⟨_, h⟩
        cases h
      · intro h
        cases h
  | ok y =>
      constructor
      · intro ⟨_, h⟩
        cases h
        rfl
      · intro h
        cases h
        exact ⟨s', rfl⟩

/-- The processors have been in C0 a quarter of the time. -/
theorem getdata_dumps_two : ∃ s s', after Turbostat.getdata (Turbostat.new
      "processor : 0\nprocessor : 1\ncpu family : 6\nmodel : 42\n".toList true
        (dumpVals (twoPackages 2))) [(10, dumpVals (twoPackages 8))] = .ok s ∧
    s.getdata (14, dumpVals (twoPackages 16)) = .ok (s', [("tstat_c0pct".toList, .num 25),
      ("tstat_ghz".toList, .num 2), ("tstat_clist".toList, .commas [some 25, some 25]),
      ("tstat_glist".toList, .commas [some 2, some 2])]) := by
  have hrun : (after Turbostat.getdata (Turbostat.new
      "processor : 0\nprocessor : 1\ncpu family : 6\nmodel : 42\n".toList true
        (dumpVals (twoPackages 2))) [(10, dumpVals (twoPackages 8))]).map Turbostat.numCpus =
      .ok 2 := by
    decide +kernel
  obtain ⟨s, hs, hcpus⟩ := map_eq_ok.mp hrun
  have hpasses : Passes 2 ((14 - 10 : Int) : ℚ) (twoPackages 8) (twoPackages 16) := by
    refine ⟨by decide, by decide +kernel, ?_⟩
    decide +kernel
  have hout : [("tstat_c0pct".toList, Datum.num 25), ("tstat_ghz".toList, .num 2),
      ("tstat_clist".toList, .commas [some 25, some 25]),
      ("tstat_glist".toList, .commas [some 2, some 2])] =
      published 2 ((14 - 10 : Int) : ℚ) (twoPackages 8) (twoPackages 16) := by
    decide +kernel
  rw [← hcpus] at hpasses hout
  obtain ⟨s', hs'⟩ := (@getdata_dumps _ (twoPackages 2) (by decide) (by decide +kernel)
    [(10, twoPackages 8)] (by decide) s hs 14 (twoPackages 16) (.refl _) _).mpr ⟨hpasses, hout⟩
  exact ⟨s, s', hs, hs'⟩

end Memrec.TstatDump
