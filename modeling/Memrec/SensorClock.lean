import Memrec.Qloadsensor

/-!
# The timestamps of the load sensor

Every iteration of `qloadsensor` reads the clock, and steps one second ahead of it if
the reading is the timestamp of the last iteration: the modules divide by the difference
of the two.  The timestamp that was moved ahead is kept for the next iteration, which
compares its own reading for equality with it and not with the clock.

As long as the timestamps rise, the one after a list of readings is the largest number
that a reading reaches if it is counted on by one for every later reading
(`Reaches.snoc`).  So the next timestamp rises as well exactly if the next reading has
not fallen behind that number, which is a condition on the readings alone.
-/

namespace Memrec.Qloadsensor

open Perl Runs

/-! ## A list of readings -/

/-- The timestamp after a list of readings; `now` is the one before the first. -/
def stampAfter (now : Int) (cs : List Int) : Int := cs.foldl (fun last c => stamp c last) now

/-- Between any two readings there are at least as many seconds as other readings. -/
def Spaced (cs : List Int) : Prop :=
  ∀ (pre : List Int) (a : Int) (mid : List Int) (b : Int) (post : List Int),
    cs = pre ++ a :: mid ++ b :: post → a + mid.length ≤ b

/-- `T` is the largest number that a reading reaches by counting one second for every
reading after it. -/
structure Reaches (cs : List Int) (T : Int) : Prop where
  attained : ∃ pre a mid, cs = pre ++ a :: mid ∧ a + mid.length = T
  bound : ∀ pre a mid, cs = pre ++ a :: mid → a + mid.length ≤ T

theorem stampAfter_snoc (now c : Int) (cs : List Int) :
    stampAfter now (cs ++ [c]) = stamp c (stampAfter now cs) := by
  simp [stampAfter]

/-- A timestamp rises exactly if the reading is not behind the last one. -/
theorem lt_stamp_iff (c last : Int) : last < stamp c last ↔ last ≤ c := by
  unfold stamp
  split <;> omega

/-- Where a list and one more element can be cut: before the new element, or earlier. -/
theorem snoc_eq_split {cs pre post : List Int} {c a : Int} (h : cs ++ [c] = pre ++ a :: post) :
    (pre = cs ∧ a = c ∧ post = []) ∨ ∃ post', post = post' ++ [c] ∧ cs = pre ++ a :: post' := by
  obtain rfl | ⟨post, b, rfl⟩ := post.eq_nil_or_concat'
  · obtain ⟨hpre, hlast⟩ := List.append_inj' h rfl
    exact Or.inl ⟨hpre.symm, (List.singleton_inj.mp hlast).symm, rfl⟩
  · rw [← List.cons_append, ← List.append_assoc] at h
    obtain ⟨hcs, hlast⟩ := List.append_inj' h rfl
    obtain rfl : c = b := List.singleton_inj.mp hlast
    exact Or.inr ⟨post, rfl, hcs⟩

theorem reaches_singleton (now : Int) : Reaches [now] now := by
  constructor
  · exact ⟨[], now, [], rfl, by simp⟩
  · intro pre a mid h
    have hlen := congrArg List.length h
    simp only [List.length_append, List.length_cons, List.length_nil] at hlen
    obtain rfl : pre = [] := List.eq_nil_of_length_eq_zero (by omega)
    obtain rfl : mid = [] := List.eq_nil_of_length_eq_zero (by omega)
    obtain rfl : now = a := by simpa using h
    simp

/-- **One more reading** that is not behind. -/
theorem Reaches.snoc {cs : List Int} {T c : Int} (h : Reaches cs T) (hc : T ≤ c) :
    Reaches (cs ++ [c]) (stamp c T) := by
  have hcase : stamp c T = T + 1 ∧ c = T ∨ stamp c T = c ∧ T + 1 ≤ c := by
    unfold stamp
    split <;> omega
  constructor
  · rcases hcase with ⟨hstamp, rfl⟩ | ⟨hstamp, -⟩
    · obtain ⟨pre, a, mid, rfl, hreach⟩ := h.attained
      refine ⟨pre, a, mid ++ [c], by simp, ?_⟩
      rw [hstamp, List.length_append, List.length_singleton]
      omega
    · exact ⟨cs, c, [], rfl, by simp [hstamp]⟩
  · intro pre a mid hsplit
    obtain ⟨-, rfl, rfl⟩ | ⟨mid, rfl, hcs⟩ := snoc_eq_split hsplit
    · rw [List.length_nil]
      omega
    · have hbound := h.bound pre a mid hcs
      rw [List.length_append, List.length_singleton]
      omega

theorem spaced_singleton (now : Int) : Spaced [now] := by
  intro pre a mid b post h
  have hlen := congrArg List.length h
  simp at hlen
  omega

/-- One more reading keeps its distance if it does so from every reading before it. -/
theorem spaced_snoc_iff {cs : List Int} {c : Int} :
    Spaced (cs ++ [c]) ↔
      Spaced cs ∧ ∀ pre a mid, cs = pre ++ a :: mid → a + mid.length ≤ c := by
  constructor
  · intro h
    refine ⟨?_, ?_⟩
    · intro pre a mid b post hsplit
      exact h pre a mid b (post ++ [c]) (by simp [hsplit])
    · intro pre a mid hsplit
      exact h pre a mid c [] (by simp [hsplit])
  · intro ⟨hcs, hlast⟩ pre a mid b post hsplit
    obtain ⟨hinit, rfl, -⟩ | ⟨post, -, hinit⟩ := snoc_eq_split hsplit
    · exact hlast pre a mid hinit.symm
    · exact hcs pre a mid b post hinit

/-- Every timestamp is greater than the one before it. -/
def Rising (now : Int) (cs : List Int) : Prop :=
  ∀ pre c post, cs = pre ++ c :: post → stampAfter now pre < stampAfter now (pre ++ [c])

theorem rising_snoc_iff {now c : Int} {cs : List Int} :
    Rising now (cs ++ [c]) ↔ Rising now cs ∧ stampAfter now cs ≤ c := by
  rw [← lt_stamp_iff, ← stampAfter_snoc]
  constructor
  · intro h
    refine ⟨?_, h cs c [] (by simp)⟩
    intro pre d post hsplit
    exact h pre d (post ++ [c]) (by simp [hsplit])
  · intro ⟨hcs, hlast⟩ pre d post hsplit
    obtain ⟨rfl, rfl, -⟩ | ⟨post, -, hinit⟩ := snoc_eq_split hsplit
    · exact hlast
    · exact hcs pre d post hinit

/-- While the timestamps rise, the last one is reached by one of the readings. -/
theorem Rising.reaches {now : Int} {cs : List Int} (h : Rising now cs) :
    Reaches (now :: cs) (stampAfter now cs) := by
  induction cs using List.reverseRecOn with
  | nil => exact reaches_singleton now
  | append_singleton cs c ih =>
      obtain ⟨hcs, hc⟩ := rising_snoc_iff.mp h
      rw [stampAfter_snoc]
      exact (ih hcs).snoc hc

/-- A timestamp is at least as large as every one before it. -/
theorem Rising.le {now : Int} {cs ds : List Int} (h : Rising now cs) (hle : ds <+: cs) :
    stampAfter now ds ≤ stampAfter now cs := by
  induction cs using List.reverseRecOn with
  | nil => rw [List.prefix_nil.mp hle]
  | append_singleton cs c ih =>
      obtain ⟨hcs, hc⟩ := rising_snoc_iff.mp h
      have hstep := (lt_stamp_iff c (stampAfter now cs)).mpr hc
      rcases List.prefix_concat_iff.mp hle with rfl | hle
      · exact le_refl _
      · rw [stampAfter_snoc]
        exact (ih hcs hle).trans hstep.le

/-- **Rising timestamps** are those of readings that keep their distance. -/
theorem rising_iff (now : Int) (cs : List Int) : Rising now cs ↔ Spaced (now :: cs) := by
  induction cs using List.reverseRecOn with
  | nil =>
      refine ⟨fun _ => spaced_singleton now, ?_⟩
      intro _ pre c post hsplit
      simp at hsplit
  | append_singleton cs c ih =>
      rw [rising_snoc_iff, ← List.cons_append, spaced_snoc_iff, ← ih]
      refine and_congr_right fun hcs => ?_
      have hreach := hcs.reaches
      constructor
      · intro hc pre a mid hsplit
        exact (hreach.bound pre a mid hsplit).trans hc
      · intro hall
        obtain ⟨pre, a, mid, hsplit, hT⟩ := hreach.attained
        rw [← hT]
        exact hall pre a mid hsplit

/-! ## The readings of a run -/

/-- The clock reading of a step. -/
def Event.reading? : Event → Option Int
  | .clock now => some now
  | _ => none

/-- The clock readings of a run, in order. -/
def readings (tr : List Event) : List Int := tr.filterMap Event.reading?

/-- The timestamp that the next reading is compared with. -/
def Sensor.lastStamp (s : Sensor) : Int :=
  match s.pc with
  | .poll _ | .items _ => s.tstamp
  | _ => s.lastTstamp

variable {objs : Nat} {s t : Sensor} {tr : List Event} {e : Event}

/-- **One step** changes the timestamp only when it reads the clock. -/
theorem Step.lastStamp (h : Step objs s e t) :
    t.pc = .exited ∨ s.pc ≠ .exited ∧
      t.lastStamp = e.reading?.elim s.lastStamp fun c => stamp c s.lastStamp := by
  cases h with
  | exit | die => exact Or.inl rfl
  | line hpc | eof hpc | serve hpc | clock now hpc | getdata data hpc | opened rest hpc
    | skipped hpc | item hpc | closed hpc =>
      exact Or.inr ⟨by simp [hpc], by simp [Sensor.lastStamp, Event.reading?, hpc]⟩

/-- In a run that goes on, the timestamp is that of its readings. -/
theorem lastStamp_run {stdin : Text} {now : Int} (h : Run (Step objs) (boot stdin now) tr s) :
    s.pc = .exited ∨ s.lastStamp = stampAfter now (readings tr) := by
  refine Run.inv (P := fun tr s => s.pc = .exited ∨ s.lastStamp = stampAfter now (readings tr))
    (Or.inr rfl) ?_ h
  intro tr s e t _ ih hstep
  rcases hstep.lastStamp with hexit | ⟨hpc, hlast⟩
  · exact Or.inl hexit
  · refine Or.inr ?_
    rw [hlast, ih.resolve_left hpc, readings, readings, List.filterMap_append]
    cases he : e.reading? with
    | none => simp [he]
    | some c => simp [he, stampAfter]

/-- What a reading of the clock leaves behind for the objects. -/
theorem stamps_at_clock {stdin : Text} {now c : Int}
    (h : Run (Step objs) (boot stdin now) (tr ++ [.clock c]) t) :
    t.data = freshData t.tstamp t.lastTstamp ∧
      t.lastTstamp = stampAfter now (readings tr) ∧
      t.tstamp = stampAfter now (readings tr ++ [c]) := by
  obtain ⟨s, hrun, hstep⟩ := h.of_snoc
  cases hstep with
  | clock c hpc =>
      have hlast : s.lastTstamp = stampAfter now (readings tr) := by
        rcases lastStamp_run hrun with hexit | hlast
        · rw [hpc] at hexit
          cases hexit
        · simpa [Sensor.lastStamp, hpc] using hlast
      refine ⟨rfl, hlast, ?_⟩
      rw [stampAfter_snoc, ← hlast]

/-- Whenever the clock is read, the objects are handed the timestamp and the last one, the
timestamp is greater than the last one, and it is greater than every timestamp handed out
before. -/
def StampsAdvance (objs : Nat) (stdin : Text) (now : Int) (tr : List Event) : Prop :=
  ∀ pre c t, pre ++ [.clock c] <+: tr → Run (Step objs) (boot stdin now) (pre ++ [.clock c]) t →
    t.data = freshData t.tstamp t.lastTstamp ∧ t.lastTstamp < t.tstamp ∧
    ∀ pre' c' t', pre' ++ [.clock c'] <+: pre →
      Run (Step objs) (boot stdin now) (pre' ++ [.clock c']) t' → t'.tstamp < t.tstamp

@[simp] theorem readings_clock (tr : List Event) (c : Int) :
    readings (tr ++ [.clock c]) = readings tr ++ [c] := by
  simp [readings, Event.reading?]

theorem readings_mono {tr tr' : List Event} (h : tr <+: tr') : readings tr <+: readings tr' :=
  h.filterMap _

/-- A reading among those of a run was taken by one of its steps. -/
theorem exists_clock {p q : List Int} {c : Int} (h : readings tr = p ++ c :: q) :
    ∃ pre post, tr = pre ++ .clock c :: post ∧ readings pre = p := by
  obtain ⟨tr₁, tr₂, rfl, hp, htail⟩ := List.filterMap_eq_append_iff.mp h
  obtain ⟨mid, e, post, rfl, hmid, he, -⟩ := List.filterMap_eq_cons_iff.mp htail
  have hclock : e = .clock c := by
    cases e <;> simp_all [Event.reading?]
  subst hclock
  refine ⟨tr₁ ++ mid, post, by simp, ?_⟩
  have hnone : mid.filterMap Event.reading? = [] := List.filterMap_eq_nil_iff.mpr hmid
  rw [readings, List.filterMap_append, hp, hnone, List.append_nil]

/-- **The timestamps of a run** advance if and only if its clock readings, that of the start
included, keep their distance: between any two of them there are at least as many seconds
as other readings. -/
theorem stampsAdvance_iff (objs : Nat) (stdin : Text) (now : Int) (tr : List Event) (s : Sensor)
    (hrun : Run (Step objs) (boot stdin now) tr s) :
    StampsAdvance objs stdin now tr ↔ Spaced (now :: readings tr) := by
  rw [← rising_iff]
  constructor
  · intro hadvance p c q hsplit
    obtain ⟨pre, post, rfl, rfl⟩ := exists_clock hsplit
    obtain ⟨m, m', hpre, hstep⟩ := hrun.at_label
    have hclock := hpre.snoc hstep
    obtain ⟨-, hlast, hstamp⟩ := stamps_at_clock hclock
    rw [← hlast, ← hstamp]
    exact (hadvance pre c m' ⟨post, by simp⟩ hclock).2.1
  · intro hrising pre c t hpre hclock
    obtain ⟨hdata, hlast, hstamp⟩ := stamps_at_clock hclock
    have hlt : t.lastTstamp < t.tstamp := by
      obtain ⟨post, htr⟩ := readings_mono hpre
      rw [readings_clock] at htr
      rw [hlast, hstamp]
      exact hrising (readings pre) c post (by rw [← htr]; simp)
    refine ⟨hdata, hlt, ?_⟩
    intro pre' c' t' hpre' hclock'
    obtain ⟨-, -, hstamp'⟩ := stamps_at_clock hclock'
    have hle : stampAfter now (readings pre' ++ [c']) ≤ stampAfter now (readings pre) := by
      have hrest : Rising now (readings pre) := by
        obtain ⟨post, htr⟩ := readings_mono hpre
        intro p d q hsplit
        exact hrising p d (q ++ c :: post) (by rw [← htr, readings_clock, hsplit]; simp)
      have hpart := readings_mono hpre'
      rw [readings_clock] at hpart
      exact hrest.le hpart
    rw [hstamp']
    rw [← hlast] at hle
    exact lt_of_le_of_lt hle hlt

/-- Two requests to a sensor without objects, started at second 7; the clock is read at
`c₁` and `c₂`. -/
theorem run_two_requests (c₁ c₂ : Int) :
    Run (Step 0) (boot "\n\n".toList 7)
      [.line ['\n'], .serve, .clock c₁, .opened, .skipped, .skipped, .closed,
        .line ['\n'], .serve, .clock c₂]
      { boot [] 7 with
        pc := .poll 0
        lastTstamp := stamp c₁ 7
        tstamp := stamp c₂ (stamp c₁ 7)
        data := freshData (stamp c₂ (stamp c₁ 7)) (stamp c₁ 7) } :=
  ((((((((((Run.nil _).snoc (.line rfl rfl)).snoc (.serve rfl rfl)).snoc (.clock c₁ rfl)).snoc
    (.opened (freshData (stamp c₁ 7) 7) rfl rfl (.refl _))).snoc (.skipped rfl (by decide))).snoc
    (.skipped rfl (by decide))).snoc (.closed rfl)).snoc (.line rfl rfl)).snoc
    (.serve rfl rfl)).snoc (.clock c₂ rfl)

theorem stampsAdvance_two :
    StampsAdvance 0 "\n\n".toList 7 [.line ['\n'], .serve, .clock 7, .opened, .skipped, .skipped,
        .closed, .line ['\n'], .serve, .clock 8] ↔
      Spaced (7 :: readings [.line ['\n'], .serve, .clock 7, .opened, .skipped, .skipped,
        .closed, .line ['\n'], .serve, .clock 8]) :=
  stampsAdvance_iff 0 "\n\n".toList 7 _ _ (run_two_requests 7 8)

/-- Two requests in the second of the start: the first timestamp is 8, the second 7. -/
theorem stamps_fall_back :
    ¬ ∀ tr s, Run (Step 0) (boot "\n\n".toList 7) tr s →
      (7 :: readings tr).IsChain (· ≤ ·) → StampsAdvance 0 "\n\n".toList 7 tr := by
  intro hall
  have hrun := run_two_requests 7 7
  have hadvance := hall _ _ hrun (by decide)
  have hlt := (hadvance [.line ['\n'], .serve, .clock 7, .opened, .skipped, .skipped, .closed,
    .line ['\n'], .serve] 7 _ (List.prefix_refl _) hrun).2.1
  exact absurd hlt (by decide)

end Memrec.Qloadsensor
