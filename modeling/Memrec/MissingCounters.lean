import Memrec.KernelStats
import Memrec.NetinfoWindow

/-!
# Samples that show something new

Every module creates its counters once, in `new`, and `getdata` calls `update`
on a counter for everything it reads later.  A counter that `new` did not create
is an undefined value there, the call on it ends the process, and the drivers
call `getdata` without `eval`.

For each of the seven modules with counters a predicate `Known` compares a
sample with the one that `new` read.  `known_of_completed` says that a run
completes only if all its samples are known, and that a run of known samples
never dies on a missing counter.
-/

namespace Memrec

open Perl Perl.Pat CellBank Runs

/-- What a run of `getdata` from `s` needs of its samples.  A run completes only
if they are all `known`, and if they are, every counter on which `update` is
called has been created before. -/
structure NeedsKnown {σ ω : Type} (getdata : σ → Int × Text → Except Die (σ × ω)) (s : σ)
    (known : Text → Prop) : Prop where
  completed : ∀ calls t, after getdata s calls = .ok t → ∀ c ∈ calls, known c.2
  safe : ∀ calls, (∀ c ∈ calls, known c.2) → after getdata s calls ≠ .error .undefMethod

/-- From the keys that calls need to what a sample shows. -/
theorem NeedsKnown.of_needs {σ ω κ : Type} {getdata : σ → Int × Text → Except Die (σ × ω)}
    {bank : σ → Bank κ (Wrapctr ℚ)} {ks : σ → Int × Text → Set κ} {s : σ} {known : Text → Prop}
    (h : Needs getdata bank Die.undefMethod ks)
    (hknown : ∀ c, (∀ k ∈ ks s c, (bank s k).isSome) ↔ known c.2) :
    NeedsKnown getdata s known where
  completed _ _ hrun c hc := (hknown c).mp (h.of_after hrun c hc)
  safe _ hcalls := h.after_ne fun c hc => (hknown c).mpr (hcalls c hc)

/-! ## What each module knows -/

/-- `netinfo` and `netinfo2`: every field of an interface has a field at the
same place, on a line with the same digit, in the snapshot of `new`. -/
def Netinfo.Known (dev₀ dev : Text) : Prop :=
  ∀ line ∈ readlines dev, ∀ e fld, ethFieldsTrim line = some (e, fld) → ∀ i < fld.length,
    ∃ line₀ ∈ readlines dev₀, ∃ fld₀, ethFields line₀ = some (e, fld₀) ∧ i < fld₀.length

/-- `netinfo10`: every interface that is looked at was looked at by `new`. -/
def Netinfo10.Known (ignoreInactive : Bool) (dev₀ dev : Text) : Prop :=
  ∀ p ∈ liveIfaces ignoreInactive dev, ∃ p₀ ∈ liveIfaces ignoreInactive dev₀, p₀.1 = p.1

/-- `diskstats`: every field of a partition has a field at the same place, on a
line with the same name, in the reading of `new`. -/
def Diskstats.Known (disks₀ disks : Text) : Prop :=
  ∀ p ∈ partitions disks, ∀ i < p.2.length,
    ∃ p₀ ∈ partitions disks₀, p₀.1 = p.1 ∧ i < p₀.2.length

/-- `procstat`: every leading `cpu` line was one for `new`. -/
def Procstat.Known (stat₀ stat : Text) : Prop :=
  ∀ p ∈ cpuLines stat, ∃ p₀ ∈ cpuLines stat₀, p₀.1 = p.1

/-- `nfscli`: the `proc3` line has not grown. -/
def Nfscli.Known (nfs₀ nfs : Text) : Prop :=
  (proc3Fields nfs).length ≤ max 3 (proc3Fields nfs₀).length

/-- `turbostat`: every processor in the dump was in the dump that `new` read. -/
def Turbostat.Known (dump₀ dump : Text) : Prop :=
  ∀ fld ∈ dumpLines dump, ∃ fld₀ ∈ dumpLines dump₀, fld₀.headD [] = fld.headD []

/-! ## The network modules -/

/-- The keys of the updates of a snapshot have counters exactly if the snapshot
is known. -/
theorem newCtr_known_iff (dev₀ dev : Text) :
    (∀ k ∈ keysOf ((readlines dev).flatMap updateCells), (newCtr dev₀ k).isSome) ↔
      Netinfo.Known dev₀ dev := by
  unfold Netinfo.Known
  simp only [mem_keysOf, List.map_flatMap, List.mem_flatMap]
  constructor
  · intro h line hline e fld hfld i hi
    rw [← isSome_newCtr]
    refine h (e, i) ⟨line, hline, ?_⟩
    unfold updateCells
    rw [hfld]
    simp only [List.map_map, List.mem_map, Prod.exists, List.mem_zipIdx_iff_getElem?]
    exact ⟨fld.get ⟨i, hi⟩, i, List.getElem?_eq_getElem hi, rfl⟩
  · intro h k hk
    obtain ⟨line, hline, hk⟩ := hk
    unfold updateCells at hk
    cases hfld : ethFieldsTrim line with
    | none => simp [hfld] at hk
    | some p =>
        simp only [hfld, List.map_map, List.mem_map, Prod.exists,
          List.mem_zipIdx_iff_getElem?] at hk
        obtain ⟨w, i, hw, rfl⟩ := hk
        rw [Function.comp_apply, isSome_newCtr]
        exact h line hline p.1 p.2 hfld i (List.getElem?_eq_some_iff.mp hw).1

theorem mapM_div_ne_undefMethod {α β : Type} (l : List α) (tag : α → β) (num : α → ℚ) (dt : ℚ) :
    (l.mapM fun x => do
      let r ← div (num x) dt
      pure (tag x, r) : Except Die (List (β × ℚ))) ≠ .error .undefMethod := by
  apply mapM_ne_error
  intro x
  apply bind_ne_error (div_ne_undefMethod _ _)
  intro r
  exact ok_ne_error

theorem Netinfo.needs :
    Needs Netinfo.getdata Netinfo.ctr Die.undefMethod fun _ c =>
      keysOf ((readlines c.2).flatMap updateCells) := by
  have hscan : ∀ c : Int × Text, Touches Die.undefMethod
      (fun st => (readlines c.2).foldlM (fun st line =>
        feed Wrapctr.update Die.undefMethod addDelta st (updateCells line)) st)
      (keysOf ((readlines c.2).flatMap updateCells)) := by
    intro c
    simp only [feed_flatMap]
    exact touches_feed _ _ _ _
  apply Touches.needs_call (fun _ => hscan) fun _ => fun _ => 0
  · intro s c r h
    obtain ⟨out, hout, hr⟩ := bind_eq_ok.mp h
    obtain ⟨st, hst, hrest⟩ := bind_eq_ok.mp hout
    obtain ⟨rates, -, hsample⟩ := bind_eq_ok.mp hrest
    cases hr
    cases hsample
    exact ⟨st, hst, rfl⟩
  · intro s c h
    have hout := of_bind_eq_error h fun _ => ok_ne_error
    refine of_bind_eq_error hout fun st => ?_
    exact bind_ne_error (mapM_div_ne_undefMethod _ _ _ _) fun _ => ok_ne_error

/-- The keys of a loop over lines are the keys of all its updates. -/
theorem keysOf_flatMap {κ ι : Type} (lines : List ι) (f : ι → List (κ × ℚ)) :
    {k | ∃ line ∈ lines, k ∈ keysOf (f line)} = keysOf (lines.flatMap f) := by
  ext k
  simp [mem_keysOf, List.map_flatMap]

theorem Netinfo2.touches_scanLine (dt : ℚ) (line : Text) :
    Touches Die.undefMethod (fun st => Netinfo2.scanLine dt st line)
      (keysOf (updateCells line)) := by
  have hfeed := touches_feed Wrapctr.update Die.undefMethod addDelta (updateCells line)
  apply hfeed.of_first fun _ => 0
  · intro b c r h
    cases hl : ethFieldsTrim line with
    | none =>
        simp only [Netinfo2.scanLine, hl] at h
        cases h
        simp only [updateCells, hl]
        exact ⟨_, rfl, rfl⟩
    | some p =>
        simp only [Netinfo2.scanLine, hl] at h
        obtain ⟨y, hy, hrest⟩ := bind_eq_ok.mp h
        obtain ⟨rates, -, hr⟩ := bind_eq_ok.mp hrest
        cases hr
        exact ⟨y, hy, rfl⟩
  · intro b c h
    cases hl : ethFieldsTrim line with
    | none =>
        simp only [Netinfo2.scanLine, hl] at h
        exact absurd h ok_ne_error
    | some p =>
        simp only [Netinfo2.scanLine, hl] at h
        refine of_bind_eq_error h fun y => ?_
        exact bind_ne_error (mapM_div_ne_undefMethod _ _ _ _) fun _ => ok_ne_error

theorem Netinfo2.needs :
    Needs Netinfo2.getdata Netinfo2.ctr Die.undefMethod fun _ c =>
      keysOf ((readlines c.2).flatMap updateCells) := by
  have hscan : ∀ (s : Netinfo2) (c : Int × Text), Touches Die.undefMethod
      (fun st => (readlines c.2).foldlM (Netinfo2.scanLine (elapsed s.lastTstamp c.1)) st)
      (keysOf ((readlines c.2).flatMap updateCells)) := by
    intro s c
    rw [← keysOf_flatMap]
    exact Touches.foldlM (Netinfo2.touches_scanLine _) _
  apply Touches.needs_call hscan fun _ => []
  · intro s c r h
    obtain ⟨out, hout, hr⟩ := bind_eq_ok.mp h
    obtain ⟨st, hst, hsample⟩ := bind_eq_ok.mp hout
    cases hr
    cases hsample
    exact ⟨st, hst, rfl⟩
  · intro s c h
    have hout := of_bind_eq_error h fun _ => ok_ne_error
    exact of_bind_eq_error hout fun _ => ok_ne_error

/-! ## The windowed module -/

theorem histBump_ne_undefMethod (pct25 : ℚ) (len : Nat) (d : ℚ) :
    histBump pct25 len d ≠ .error .undefMethod := by
  apply bind_ne_error (div_ne_undefMethod _ _)
  intro r
  dsimp only
  split
  · simp
  · exact ok_ne_error

theorem windowHist_ne_undefMethod (pct25 : ℚ) (past : Past) (es : List Nat) :
    windowHist pct25 past es ≠ .error .undefMethod := by
  apply foldlM_ne_error
  intro h e
  apply bind_ne_error (foldlM_ne_error (histBump_ne_undefMethod _) _ _)
  intro i
  apply bind_ne_error (foldlM_ne_error (histBump_ne_undefMethod _) _ _)
  exact fun _ => ok_ne_error

theorem windowPublish_ne_undefMethod (window dt : ℚ) (past : Past) (es : List Nat) :
    windowPublish window dt past es ≠ .error .undefMethod := by
  apply bind_ne_error (div_ne_undefMethod _ _)
  intro x
  apply bind_ne_error (div_ne_undefMethod _ _)
  intro y
  apply bind_ne_error (mapM_div_ne_undefMethod _ _ _ _)
  exact fun _ => ok_ne_error

theorem Netinfo10.needs (vars : Netinfo10.Vars) :
    Needs (Netinfo10.getdata vars) Netinfo10.ctr Die.undefMethod fun _ c =>
      keysOf ((liveIfaces vars.ignoreInactive c.2).flatMap fun p => windowReadings p.1 p.2) := by
  apply Touches.needs_call (fun _ c => touches_feed Wrapctr.update Die.undefMethod pushPast
    ((liveIfaces vars.ignoreInactive c.2).flatMap fun p => windowReadings p.1 p.2)) Netinfo10.past
  · intro s c r h
    obtain ⟨out, hout, hr⟩ := bind_eq_ok.mp h
    obtain ⟨st, hst, hrest⟩ := bind_eq_ok.mp hout
    obtain ⟨_, -, hrest⟩ := bind_eq_ok.mp hrest
    obtain ⟨_, -, hsample⟩ := bind_eq_ok.mp hrest
    cases hr
    cases hsample
    unfold windowScan at hst
    rw [foldlM_windowLine] at hst
    obtain ⟨y, hy, rfl⟩ := map_eq_ok.mp hst
    exact ⟨y, hy, rfl⟩
  · intro s c h
    have hout := of_bind_eq_error h fun _ => ok_ne_error
    have hscan := of_bind_eq_error hout fun st => by
      apply bind_ne_error (windowHist_ne_undefMethod _ _ _)
      intro _
      apply bind_ne_error (windowPublish_ne_undefMethod _ _ _ _)
      exact fun _ => ok_ne_error
    unfold windowScan at hscan
    rw [foldlM_windowLine] at hscan
    exact of_map_eq_error hscan

theorem mem_windowKeys (ig : Bool) (dev : Text) (k : Nat × Quantity) :
    k ∈ ((liveIfaces ig dev).flatMap fun p => windowReadings p.1 p.2).map Prod.fst ↔
      ∃ p ∈ liveIfaces ig dev, p.1 = k.1 := by
  simp only [List.map_flatMap, List.mem_flatMap, map_fst_windowReadings, List.mem_map]
  refine exists_congr fun p => and_congr_right fun _ => ?_
  constructor
  · intro h
    obtain ⟨q, -, rfl⟩ := h
    rfl
  · intro h
    exact ⟨k.2, Quantity.mem_all _, by rw [h]⟩

/-- `new` creates the counters of the interfaces that it looks at. -/
theorem isSome_newWindow (ig : Bool) (dev₀ : Text) (k : Nat × Quantity) :
    (newWindow ig dev₀ k).isSome ↔ ∃ p ∈ liveIfaces ig dev₀, p.1 = k.1 := by
  rw [newWindow_eq_putAll, isSome_putAll, List.map_map, ← mem_windowKeys]
  simp only [Option.isSome_none, Bool.false_eq_true, or_false]
  rfl

theorem newWindow_known_iff (ig : Bool) (dev₀ dev : Text) :
    (∀ k ∈ keysOf ((liveIfaces ig dev).flatMap fun p => windowReadings p.1 p.2),
      (newWindow ig dev₀ k).isSome) ↔ Netinfo10.Known ig dev₀ dev := by
  unfold Netinfo10.Known
  simp only [mem_keysOf, mem_windowKeys, isSome_newWindow]
  constructor
  · intro h p hp
    exact h (p.1, .bytesIn) ⟨p, hp, rfl⟩
  · intro h k hk
    obtain ⟨p, hp, hpk⟩ := hk
    obtain ⟨p₀, hp₀, heq⟩ := h p hp
    exact ⟨p₀, hp₀, heq.trans hpk⟩

/-! ## The other modules -/

/-- A bank filled with fresh counters has the keys of the readings. -/
theorem isSome_fresh {κ : Type} [DecidableEq κ] (rs : List (κ × ℚ)) (k : κ) :
    (putAll (fun _ => none) (fresh rs) k).isSome ↔ k ∈ keysOf rs := by
  rw [isSome_putAll]
  simp [fresh, Function.comp_def]

theorem flatMap_fresh {κ ι : Type} (l : List ι) (f : ι → List (κ × ℚ)) :
    (l.flatMap fun p => fresh (f p)) = fresh (l.flatMap f) := by
  simp [fresh, List.map_flatMap]

theorem mem_keysOf_numbered {κ : Type} {p : κ × List Text} {k : κ × Nat} :
    k ∈ keysOf (numbered p) ↔ p.1 = k.1 ∧ k.2 < p.2.length := by
  simp only [mem_keysOf, numbered, List.map_map, List.mem_map, Prod.exists,
    List.mem_zipIdx_iff_getElem?, Function.comp_apply]
  constructor
  · intro h
    obtain ⟨w, i, hw, rfl⟩ := h
    exact ⟨rfl, (List.getElem?_eq_some_iff.mp hw).1⟩
  · intro h
    exact ⟨p.2.get ⟨k.2, h.2⟩, k.2, List.getElem?_eq_getElem h.2, by rw [h.1]⟩

theorem Diskstats.needs :
    Needs Diskstats.getdata Diskstats.ctr Die.undefMethod fun _ c =>
      keysOf ((partitions c.2).flatMap numbered) := by
  have hscan : ∀ c : Int × Text, Touches Die.undefMethod
      (fun st => (partitions c.2).foldlM (fun st p =>
        feed Wrapctr.update Die.undefMethod addDelta st (numbered p)) st)
      (keysOf ((partitions c.2).flatMap numbered)) := by
    intro c
    simp only [feed_flatMap]
    exact touches_feed _ _ _ _
  apply Touches.needs_call (fun _ => hscan) fun _ => fun _ => 0
  · intro s c r h
    obtain ⟨out, hout, hr⟩ := bind_eq_ok.mp h
    obtain ⟨st, hst, hrest⟩ := bind_eq_ok.mp hout
    obtain ⟨rates, -, hsample⟩ := bind_eq_ok.mp hrest
    cases hr
    cases hsample
    exact ⟨st, hst, rfl⟩
  · intro s c h
    have hout := of_bind_eq_error h fun _ => ok_ne_error
    refine of_bind_eq_error hout fun st => ?_
    exact bind_ne_error (mapM_div_ne_undefMethod _ _ _ _) fun _ => ok_ne_error

theorem Diskstats.known_iff (disks₀ swaps disks : Text) :
    (∀ k ∈ keysOf ((partitions disks).flatMap numbered),
      ((Diskstats.new disks₀ swaps).ctr k).isSome) ↔ Diskstats.Known disks₀ disks := by
  unfold Diskstats.new Diskstats.Known
  simp only [foldl_putAll, flatMap_fresh, isSome_fresh, ← keysOf_flatMap, Set.mem_ofPred_eq,
    mem_keysOf_numbered]
  constructor
  · intro h p hp i hi
    exact h (p.1, i) ⟨p, hp, rfl, hi⟩
  · intro h k hk
    obtain ⟨p, hp, hpk, hi⟩ := hk
    obtain ⟨p₀, hp₀, heq, hi₀⟩ := h p hp k.2 hi
    exact ⟨p₀, hp₀, heq.trans hpk, hi₀⟩

theorem storeAt_ne_undefMethod (data : List (Option ℚ)) (k : Int) (v : ℚ) :
    storeAt data k v ≠ .error .undefMethod := by
  unfold storeAt
  split
  · exact ok_ne_error
  · split
    · exact ok_ne_error
    · simp

theorem Procstat.needs :
    Needs Procstat.getdata Procstat.ctr Die.undefMethod fun _ c =>
      keysOf ((cpuLines c.2).flatMap cpuReadings) := by
  have hline : ∀ p : Text × List Text, Touches Die.undefMethod
      (fun st => Procstat.scanLine st p) (keysOf (cpuReadings p)) := by
    intro p
    have hfeed := touches_feed Wrapctr.update Die.undefMethod
      (fun (ds : List ℚ) _ d => ds ++ [d]) (cpuReadings p)
    apply hfeed.of_first []
    · intro b c r h
      obtain ⟨y, hy, hrest⟩ := bind_eq_ok.mp h
      refine ⟨y, hy, ?_⟩
      dsimp only at hrest
      split at hrest
      · cases hrest
        rfl
      · obtain ⟨data, -, hr⟩ := bind_eq_ok.mp hrest
        cases hr
        rfl
    · intro b c h
      refine of_bind_eq_error h fun y => ?_
      dsimp only
      split
      · exact ok_ne_error
      · exact bind_ne_error (storeAt_ne_undefMethod _ _ _) fun _ => ok_ne_error
  have hscan : ∀ c : Int × Text, Touches Die.undefMethod
      (fun st => (cpuLines c.2).foldlM Procstat.scanLine st)
      (keysOf ((cpuLines c.2).flatMap cpuReadings)) := by
    intro c
    rw [← keysOf_flatMap]
    exact Touches.foldlM hline _
  apply Touches.needs_call (fun _ => hscan) fun _ => (none, [])
  · intro s c r h
    obtain ⟨st, hst, hr⟩ := bind_eq_ok.mp h
    cases hr
    exact ⟨st, hst, rfl⟩
  · intro s c h
    exact of_bind_eq_error h fun _ => ok_ne_error

theorem Procstat.known_iff (stat₀ stat : Text) :
    (∀ k ∈ keysOf ((cpuLines stat).flatMap cpuReadings),
      ((Procstat.new stat₀).ctr k).isSome) ↔ Procstat.Known stat₀ stat := by
  have hkeys : ∀ (p : Text × List Text) (k : Text × Nat),
      k ∈ keysOf (cpuReadings p) ↔ p.1 = k.1 ∧ k.2 ∈ List.range' 1 8 := by
    intro p k
    simp only [mem_keysOf, cpuReadings, List.map_map, List.mem_map, Function.comp_apply]
    constructor
    · intro h
      obtain ⟨j, hj, rfl⟩ := h
      exact ⟨rfl, hj⟩
    · intro h
      exact ⟨k.2, h.2, by rw [h.1]⟩
  unfold Procstat.new Procstat.Known
  simp only [foldl_putAll, flatMap_fresh, isSome_fresh, ← keysOf_flatMap, Set.mem_ofPred_eq, hkeys]
  constructor
  · intro h p hp
    obtain ⟨p₀, hp₀, heq, -⟩ := h (p.1, 1) ⟨p, hp, rfl, by simp⟩
    exact ⟨p₀, hp₀, heq⟩
  · intro h k hk
    obtain ⟨p, hp, hpk, hj⟩ := hk
    obtain ⟨p₀, hp₀, heq⟩ := h p hp
    exact ⟨p₀, hp₀, heq.trans hpk, hj⟩

theorem Nfscli.needs :
    Needs Nfscli.getdata Nfscli.ctr Die.undefMethod fun _ c => keysOf (proc3Readings c.2) := by
  apply Touches.needs_call (fun _ c => touches_feed Wrapctr.update Die.undefMethod
    (fun (delta : Nat → ℚ) i d => fun j => if j = i then d else delta j) (proc3Readings c.2))
    fun _ => fun _ => 0
  · intro s c r h
    obtain ⟨out, hout, hr⟩ := bind_eq_ok.mp h
    obtain ⟨st, hst, hrest⟩ := bind_eq_ok.mp hout
    obtain ⟨_, -, hrest⟩ := bind_eq_ok.mp hrest
    obtain ⟨_, -, hrest⟩ := bind_eq_ok.mp hrest
    obtain ⟨_, -, hsample⟩ := bind_eq_ok.mp hrest
    cases hr
    cases hsample
    exact ⟨st, hst, rfl⟩
  · intro s c h
    have hout := of_bind_eq_error h fun _ => ok_ne_error
    refine of_bind_eq_error hout fun st => ?_
    apply bind_ne_error (div_ne_undefMethod _ _)
    intro _
    apply bind_ne_error (div_ne_undefMethod _ _)
    intro _
    exact bind_ne_error (div_ne_undefMethod _ _) fun _ => ok_ne_error

theorem Nfscli.known_iff (nfs₀ nfs : Text) :
    (∀ k ∈ keysOf (proc3Readings nfs), ((Nfscli.new nfs₀).ctr k).isSome) ↔
      Nfscli.Known nfs₀ nfs := by
  have hkeys : ∀ (n : Text) (k : Nat),
      k ∈ keysOf (proc3Readings n) ↔ 3 ≤ k ∧ k < (proc3Fields n).length := by
    intro n k
    simp only [mem_keysOf, proc3Readings, List.map_map, List.map_drop, List.zipIdx_eq_zip_range',
      Function.comp_def]
    rw [List.map_snd_zip (by simp)]
    simp [List.drop_range']
    omega
  unfold Nfscli.new Nfscli.Known
  simp only [isSome_fresh, hkeys]
  constructor
  · intro h
    by_contra hlt
    have := h ((proc3Fields nfs).length - 1)
    omega
  · intro h k hk
    omega

theorem mem_keys_hashStore (h : List (Text × Text)) (j v k : Text) :
    k ∈ (hashStore h j v).map Prod.fst ↔ k ∈ h.map Prod.fst ∨ k = j := by
  unfold hashStore
  split
  · rename_i hj
    have hsame : (h.map fun p => if p.1 = j then (j, v) else p).map Prod.fst = h.map Prod.fst := by
      rw [List.map_map]
      apply List.map_congr_left
      intro p _
      simp only [Function.comp_apply]
      split
      · rename_i hp
        exact hp.symm
      · rfl
    rw [hsame]
    exact ⟨Or.inl, fun h => h.elim id fun h => h ▸ hj⟩
  · simp

theorem mem_keys_msrLine (fld : List Text) (ks : List (Text × Nat)) (h : List (Text × Text))
    (k : Text) :
    k ∈ (ks.foldl (fun h k => hashStore h k.1 (fld.getD k.2 [])) h).map Prod.fst ↔
      k ∈ h.map Prod.fst ∨ k ∈ ks.map Prod.fst := by
  induction ks generalizing h with
  | nil => simp
  | cons j ks ih =>
      rw [List.foldl_cons, ih, mem_keys_hashStore, List.map_cons, List.mem_cons]
      tauto

/-- The keys of the hash of `read_msr`. -/
theorem mem_readMsr (dump k : Text) :
    k ∈ (readMsr dump).map Prod.fst ↔
      ∃ fld ∈ dumpLines dump, k ∈ (msrKeys (fld.headD [])).map Prod.fst := by
  have hlines : ∀ (flds : List (List Text)) (h : List (Text × Text)),
      k ∈ (flds.foldl (fun h fld => (msrKeys (fld.headD [])).foldl
          (fun h k => hashStore h k.1 (fld.getD k.2 [])) h) h).map Prod.fst ↔
        k ∈ h.map Prod.fst ∨ ∃ fld ∈ flds, k ∈ (msrKeys (fld.headD [])).map Prod.fst := by
    intro flds
    induction flds with
    | nil => simp
    | cons fld flds ih =>
        intro h
        rw [List.foldl_cons, ih, mem_keys_msrLine]
        simp only [List.mem_cons, exists_eq_or_imp]
        tauto
  unfold readMsr
  rw [hlines]
  simp

/-- Keys of different processors are different. -/
theorem msrKeys_inj {c c' k : Text} (h : k ∈ (msrKeys c).map Prod.fst)
    (h' : k ∈ (msrKeys c').map Prod.fst) : c = c' := by
  simp only [msrKeys, List.map_cons, List.map_nil, List.mem_cons, List.not_mem_nil,
    or_false] at h h'
  rcases h with rfl | rfl | rfl <;> simpa using h'

/-- The keys that a call of `turbostat` needs. -/
def Turbostat.keys (s : Turbostat) (c : Int × Text) : Set Text :=
  if s.tsEnable then keysOf ((readMsr c.2).map fun p => (p.1, numify p.2)) else ∅

theorem Turbostat.publish_ne_undefMethod (numCpus : Nat) (dt : ℚ) (delta : List (Text × ℚ)) :
    Turbostat.publish numCpus dt delta ≠ .error .undefMethod := by
  have hshares : ∀ (look : Text → ℚ) (suffix : Text),
      Turbostat.shares look suffix dt ≠ .error .undefMethod := by
    intro look suffix
    apply bind_ne_error (div_ne_undefMethod _ _)
    intro _
    apply bind_ne_error (div_ne_undefMethod _ _)
    intro _
    exact bind_ne_error (div_ne_undefMethod _ _) fun _ => ok_ne_error
  apply bind_ne_error (mapM_div_ne_undefMethod _ _ _ _)
  intro avg
  apply bind_ne_error (hshares _ _)
  intro _
  exact bind_ne_error (mapM_ne_error (fun k => hshares _ _) _) fun _ => ok_ne_error

/-- Either the counters are fed or nothing happens to them. -/
theorem Turbostat.getdata_cases {s : Turbostat} {c : Int × Text}
    {r : Turbostat × List (Text × Datum)} (h : Turbostat.getdata s c = .ok r) :
    r.1.tsEnable = s.tsEnable ∧ ((s.tsEnable = false ∧ r.1.ctr = s.ctr) ∨
      (s.tsEnable = true ∧ ∃ y, feed Wrapctr.update Die.undefMethod
        (fun (ds : List (Text × ℚ)) k d => ds ++ [(k, d)]) (s.ctr, [])
        ((readMsr c.2).map fun p => (p.1, numify p.2)) = .ok y ∧ r.1.ctr = y.1)) := by
  unfold Turbostat.getdata at h
  cases hs : s.tsEnable with
  | false =>
      simp only [hs, Bool.false_eq_true, if_false] at h
      cases h
      exact ⟨rfl, Or.inl ⟨rfl, rfl⟩⟩
  | true =>
      simp only [hs, if_true] at h
      obtain ⟨st, hst, hrest⟩ := bind_eq_ok.mp h
      obtain ⟨out, -, hr⟩ := bind_eq_ok.mp hrest
      cases hr
      exact ⟨rfl, Or.inr ⟨rfl, st, hst, rfl⟩⟩

theorem Turbostat.needs :
    Needs Turbostat.getdata Turbostat.ctr Die.undefMethod Turbostat.keys := by
  have hfeed := fun c : Int × Text => touches_feed Wrapctr.update Die.undefMethod
    (fun (ds : List (Text × ℚ)) k d => ds ++ [(k, d)])
    ((readMsr c.2).map fun p => (p.1, numify p.2))
  refine ⟨?_, ?_, ?_, ?_⟩
  · intro s c r h k hk
    unfold Turbostat.keys at hk
    obtain ⟨-, ⟨hs, -⟩ | ⟨hs, y, hy, -⟩⟩ := Turbostat.getdata_cases h
    · simp [hs] at hk
    · rw [if_pos hs] at hk
      exact (hfeed c).needs _ _ _ hy k hk
  · intro s c r h k
    obtain ⟨-, ⟨-, hr⟩ | ⟨-, y, hy, hr⟩⟩ := Turbostat.getdata_cases h
    · rw [hr]
    · rw [hr]
      exact (hfeed c).dom _ _ _ hy k
  · intro s c r h
    unfold Turbostat.keys
    rw [(Turbostat.getdata_cases h).1]
  · intro s c hkeys h
    unfold Turbostat.getdata at h
    unfold Turbostat.keys at hkeys
    cases hs : s.tsEnable with
    | false =>
        simp only [hs, Bool.false_eq_true, if_false] at h
        exact absurd h ok_ne_error
    | true =>
        simp only [hs, if_true] at h hkeys
        refine (hfeed c).safe s.ctr [] hkeys (of_bind_eq_error h fun st => ?_)
        exact bind_ne_error (Turbostat.publish_ne_undefMethod _ _ _) fun _ => ok_ne_error

theorem Turbostat.known_iff (cpuinfo : Text) (dumpExists : Bool) (dump₀ : Text) (c : Int × Text) :
    (∀ k ∈ Turbostat.keys (Turbostat.new cpuinfo dumpExists dump₀) c,
      ((Turbostat.new cpuinfo dumpExists dump₀).ctr k).isSome) ↔
      ((Turbostat.new cpuinfo dumpExists dump₀).tsEnable → Turbostat.Known dump₀ c.2) := by
  have hkeys : ∀ (d k : Text), k ∈ keysOf ((readMsr d).map fun p => (p.1, numify p.2)) ↔
      ∃ fld ∈ dumpLines d, k ∈ (msrKeys (fld.headD [])).map Prod.fst := by
    intro d k
    rw [mem_keysOf, List.map_map, ← mem_readMsr]
    rfl
  unfold Turbostat.keys Turbostat.Known Turbostat.new
  dsimp only
  split
  · rename_i hen
    simp only [hen, isSome_fresh, hkeys, forall_true_left]
    constructor
    · intro h fld hfld
      obtain ⟨fld₀, hfld₀, hk⟩ := h ("tsc ".toList ++ fld.headD []) ⟨fld, hfld, by simp [msrKeys]⟩
      exact ⟨fld₀, hfld₀, msrKeys_inj hk (by simp [msrKeys])⟩
    · intro h k hk
      obtain ⟨fld, hfld, hk⟩ := hk
      obtain ⟨fld₀, hfld₀, heq⟩ := h fld hfld
      exact ⟨fld₀, hfld₀, by rw [heq]; exact hk⟩
  · rename_i hen
    exact ⟨fun _ h => absurd h hen, fun _ k hk => absurd hk (Set.notMem_empty k)⟩

/-! ## Runs -/

/-- A run of calls that fail in one way only completes or fails that way. -/
theorem NeedsKnown.completes_iff {σ ω : Type} {getdata : σ → Int × Text → Except Die (σ × ω)}
    {s : σ} {known : Text → Prop} (h : NeedsKnown getdata s known)
    (honly : ∀ s c, FailsOnly .undefMethod (getdata s c)) (calls : List (Int × Text)) :
    (∃ t, after getdata s calls = .ok t) ↔ ∀ c ∈ calls, known c.2 := by
  have herr : ∀ e, after getdata s calls = .error e → e = .undefMethod := by
    intro e he
    by_contra hne
    refine after_ne_error (P := fun _ => True) trivial ?_ calls he
    intro s c _
    exact ⟨fun hc => hne (honly s c e hc), fun _ _ => trivial⟩
  constructor
  · intro hrun
    obtain ⟨t, ht⟩ := hrun
    exact h.completed calls t ht
  · intro hcalls
    cases hrun : after getdata s calls with
    | error e =>
        obtain rfl := herr e hrun
        exact absurd hrun (h.safe calls hcalls)
    | ok t => exact ⟨t, rfl⟩

theorem failsOnly_rates {α β : Type} (l : List α) (tag : α → β) (num : α → ℚ) {dt : ℚ}
    (hdt : dt ≠ 0) :
    FailsOnly Die.undefMethod (l.mapM fun x => do
      let r ← div (num x) dt
      pure (tag x, r) : Except Die (List (β × ℚ))) := by
  apply FailsOnly.mapM
  intro x
  rw [div_of_ne hdt]
  exact failsOnly_ok _

theorem Netinfo.failsOnly (s : Netinfo) (c : Int × Text) :
    FailsOnly .undefMethod (s.getdata c) := by
  refine .bind (.bind ?_ fun st => .bind ?_ fun _ => failsOnly_ok _) fun _ => failsOnly_ok _
  · exact .foldlM (fun _ _ => failsOnly_feed _ _ _ _ _) _ _
  · exact failsOnly_rates _ _ _ (elapsed_ne_zero _ _)

theorem Netinfo2.failsOnly (s : Netinfo2) (c : Int × Text) :
    FailsOnly .undefMethod (s.getdata c) := by
  refine .bind (.bind (.foldlM ?_ _ _) fun _ => failsOnly_ok _) fun _ => failsOnly_ok _
  intro st line
  unfold Netinfo2.scanLine
  cases ethFieldsTrim line with
  | none => exact failsOnly_ok _
  | some p =>
      refine .bind (failsOnly_feed _ _ _ _ _) fun _ => .bind ?_ fun _ => failsOnly_ok _
      exact failsOnly_rates _ _ _ (elapsed_ne_zero _ _)

theorem Diskstats.failsOnly (s : Diskstats) (c : Int × Text) :
    FailsOnly .undefMethod (s.getdata c) := by
  refine .bind (.bind ?_ fun st => .bind ?_ fun _ => failsOnly_ok _) fun _ => failsOnly_ok _
  · exact .foldlM (fun _ _ => failsOnly_feed _ _ _ _ _) _ _
  · exact failsOnly_rates _ _ _ (elapsed_ne_zero _ _)

theorem Nfscli.failsOnly (s : Nfscli) (c : Int × Text) :
    FailsOnly .undefMethod (s.getdata c) := by
  have hdiv : ∀ x, FailsOnly .undefMethod (div x (elapsed s.lastTstamp c.1)) := by
    intro x
    rw [div_of_ne (elapsed_ne_zero _ _)]
    exact failsOnly_ok _
  refine .bind (.bind (failsOnly_feed _ _ _ _ _) fun st => ?_) fun _ => failsOnly_ok _
  exact .bind (hdiv _) fun _ => .bind (hdiv _) fun _ => .bind (hdiv _) fun _ => failsOnly_ok _

/-- **Missing counters.**  For each of the seven modules, started on any first
sample: a run of `getdata` completes only if every sample is known in the sense
of the module, and a run over known samples never calls `update` on a counter
that was not created.  For the four modules without another way to die, a run
completes exactly if its samples are known. -/
theorem known_of_completed (lspci dev₀ disks₀ swaps stat₀ nfs₀ cpuinfo dump₀ : Text)
    (vars : Netinfo10.Vars) (n : Int) (dumpExists : Bool) (calls : List (Int × Text)) :
    NeedsKnown Netinfo.getdata (Netinfo.new lspci dev₀) (Netinfo.Known dev₀) ∧
    NeedsKnown Netinfo2.getdata (Netinfo2.new lspci dev₀) (Netinfo.Known dev₀) ∧
    NeedsKnown (Netinfo10.getdata (Netinfo10.new vars n lspci dev₀).1)
      (Netinfo10.new vars n lspci dev₀).2 (Netinfo10.Known vars.ignoreInactive dev₀) ∧
    NeedsKnown Diskstats.getdata (Diskstats.new disks₀ swaps) (Diskstats.Known disks₀) ∧
    NeedsKnown Procstat.getdata (Procstat.new stat₀) (Procstat.Known stat₀) ∧
    NeedsKnown Nfscli.getdata (Nfscli.new nfs₀) (Nfscli.Known nfs₀) ∧
    (NeedsKnown Turbostat.getdata (Turbostat.new cpuinfo dumpExists dump₀) fun dump =>
      (Turbostat.new cpuinfo dumpExists dump₀).tsEnable → Turbostat.Known dump₀ dump) ∧
    ((∃ t, after Netinfo.getdata (Netinfo.new lspci dev₀) calls = .ok t) ↔
      ∀ c ∈ calls, Netinfo.Known dev₀ c.2) ∧
    ((∃ t, after Netinfo2.getdata (Netinfo2.new lspci dev₀) calls = .ok t) ↔
      ∀ c ∈ calls, Netinfo.Known dev₀ c.2) ∧
    ((∃ t, after Diskstats.getdata (Diskstats.new disks₀ swaps) calls = .ok t) ↔
      ∀ c ∈ calls, Diskstats.Known disks₀ c.2) ∧
    ((∃ t, after Nfscli.getdata (Nfscli.new nfs₀) calls = .ok t) ↔
      ∀ c ∈ calls, Nfscli.Known nfs₀ c.2) := by
  have hnet : NeedsKnown Netinfo.getdata (Netinfo.new lspci dev₀) (Netinfo.Known dev₀) :=
    .of_needs Netinfo.needs fun c => newCtr_known_iff dev₀ c.2
  have hnet2 : NeedsKnown Netinfo2.getdata (Netinfo2.new lspci dev₀) (Netinfo.Known dev₀) :=
    .of_needs Netinfo2.needs fun c => newCtr_known_iff dev₀ c.2
  have hdisk : NeedsKnown Diskstats.getdata (Diskstats.new disks₀ swaps) (Diskstats.Known disks₀) :=
    .of_needs Diskstats.needs fun c => Diskstats.known_iff disks₀ swaps c.2
  have hnfs : NeedsKnown Nfscli.getdata (Nfscli.new nfs₀) (Nfscli.Known nfs₀) :=
    .of_needs Nfscli.needs fun c => Nfscli.known_iff nfs₀ c.2
  refine ⟨hnet, hnet2, ?_, hdisk, ?_, hnfs, ?_, ?_, ?_, ?_, ?_⟩
  · exact .of_needs (Netinfo10.needs _) fun c => newWindow_known_iff vars.ignoreInactive dev₀ c.2
  · exact .of_needs Procstat.needs fun c => Procstat.known_iff stat₀ c.2
  · exact .of_needs Turbostat.needs fun c => Turbostat.known_iff cpuinfo dumpExists dump₀ c
  · exact hnet.completes_iff Netinfo.failsOnly calls
  · exact hnet2.completes_iff Netinfo2.failsOnly calls
  · exact hdisk.completes_iff Diskstats.failsOnly calls
  · exact hnfs.completes_iff Nfscli.failsOnly calls

/-- An interface that is brought up after the start ends the process. -/
theorem late_interface_dies :
    (after Netinfo.getdata (Netinfo.new [] "    lo:0 0\n".toList)
      [(100, "    lo:0 0\n".toList ++ oneIface 1)]).map (fun _ => ()) = .error .undefMethod := by
  decide +kernel

end Memrec
