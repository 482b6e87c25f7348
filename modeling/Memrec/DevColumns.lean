import Memrec.NetinfoWindow

/-!
# Six readers of one line

`netinfo`, `netinfo2` and `netinfo10` read `/proc/net/dev` twice each, in `new`
and in `getdata`.  Four of the six places cut a line with `ethFields`, two with
`ethFieldsTrim`.  A snapshot here is a list of interface lines as the kernel
prints them, mixed with any lines that neither expression accepts.

The six readers agree on the columns exactly when no whitespace follows a colon
and lines with the same digit show the same columns (`readers_agree_iff`).
-/

namespace Memrec

open Perl Perl.Pat CellBank Runs Window

/-- The six places that cut a line into fields. -/
inductive Reader
  | netinfoNew
  | netinfoGetdata
  | netinfo2New
  | netinfo2Getdata
  | netinfo10New
  | netinfo10Getdata
  deriving DecidableEq, Repr

/-- The digit and the fields that a reader sees. -/
def Reader.fields : Reader → Text → Option (Nat × List Text)
  | .netinfoNew | .netinfo2New | .netinfo10New | .netinfo10Getdata => ethFields
  | .netinfoGetdata | .netinfo2Getdata => ethFieldsTrim

/-- The line with its line feed. -/
def DevLine.row (l : DevLine) : Text := l.text ++ ['\n']

/-- A reading of `/proc/net/dev`: interface lines, and lines that are none. -/
structure DevSnapshot where
  lines : List (Text ⊕ DevLine)
  foreign : ∀ s, Sum.inl s ∈ lines → '\n' ∉ s ∧ search ethHead (s ++ ['\n']) = none

namespace DevSnapshot

variable (S : DevSnapshot)

/-- The interface lines in order. -/
def devs : List DevLine := S.lines.filterMap Sum.getRight?

/-- The lines without their line feeds. -/
def rows : List Text := S.lines.map fun x => x.elim id DevLine.text

/-- The file. -/
def text : Text := S.rows.flatMap (· ++ ['\n'])

/-- A reader that rejects foreign lines sees the interface lines in order. -/
theorem filterMap_readlines {β : Type} (f : Text → Option β) (g : DevLine → Option β)
    (hnone : ∀ s, search ethHead s = none → f s = none)
    (hsome : ∀ l : DevLine, f l.row = g l) :
    (readlines S.text).filterMap f = S.devs.filterMap g := by
  have hrows : readlines S.text = S.rows.map (· ++ ['\n']) := by
    apply readlines_unlines
    intro l hl
    obtain ⟨x, hx, rfl⟩ := List.mem_map.mp hl
    cases x with
    | inl s => exact (S.foreign s hx).1
    | inr d => exact d.newline_notMem_text
  have hforeign : ∀ s, Sum.inl s ∈ S.lines → f (s ++ ['\n']) = none :=
    fun s hs => hnone _ (S.foreign s hs).2
  rw [hrows]
  unfold rows devs
  generalize S.lines = xs at hforeign
  induction xs with
  | nil => rfl
  | cons x xs ih =>
      have ih := ih fun s hs => hforeign s (List.mem_cons_of_mem _ hs)
      cases x with
      | inl s =>
          have hs := hforeign s List.mem_cons_self
          simpa [hs, List.filterMap_cons] using ih
      | inr d =>
          have hd := hsome d
          unfold DevLine.row at hd
          simp only [List.map_cons, Sum.elim_inr, List.filterMap_cons, hd, Sum.getRight?_inr]
          cases g d with
          | none => exact ih
          | some y => rw [ih]

theorem filterMap_ethFields :
    (readlines S.text).filterMap ethFields =
      S.devs.map fun l => (l.eth, if l.gap = [] then l.cols else [] :: l.cols) := by
  rw [S.filterMap_readlines ethFields _ ?_ DevLine.ethFields_text, List.filterMap_eq_map']
  intro s hs
  simp [ethFields, capture_ethLine, hs]

theorem filterMap_ethFieldsTrim :
    (readlines S.text).filterMap ethFieldsTrim = S.devs.map fun l => (l.eth, l.cols) := by
  rw [S.filterMap_readlines ethFieldsTrim _ ?_ DevLine.ethFieldsTrim_text,
    List.filterMap_eq_map']
  intro s hs
  simp [ethFieldsTrim, capture_ethLineTrim, hs]

end DevSnapshot

/-- Whether `netinfo10` looks at a line. -/
def DevLine.live (ignoreInactive : Bool) (l : DevLine) : Bool :=
  !(ignoreInactive && (l.cols.map numify).sum == 0)

/-- Field for field, every reader sees the columns of the line. -/
def FieldsAgree (l : DevLine) : Prop :=
  ∀ r : Reader, r.fields l.row = some (l.eth, l.cols)

/-- Number for number, every reader sees the columns of the line. -/
def NumbersAgree (l : DevLine) : Prop :=
  ∀ r : Reader, ∃ fld, r.fields l.row = some (l.eth, fld) ∧ ∀ i < 16, fieldNum fld i = l.col i

/-- What the readers make of a snapshot: every counter that `new` creates holds
its column, `getdata` feeds every column to its own counter, and reading the
same snapshot again changes nothing. -/
structure ColumnsAgree (lspci : Text) (S : DevSnapshot) : Prop where
  numbers : ∀ l ∈ S.devs, NumbersAgree l
  netinfo_new : ∀ l ∈ S.devs, ∀ i < 16,
    (Netinfo.new lspci S.text).ctr (l.eth, i) = some (Wrapctr.new (l.col i))
  netinfo2_new : ∀ l ∈ S.devs, ∀ i < 16,
    (Netinfo2.new lspci S.text).ctr (l.eth, i) = some (Wrapctr.new (l.col i))
  netinfo10_new : ∀ vars n, ∀ l ∈ S.devs, l.live vars.ignoreInactive → ∀ q,
    (Netinfo10.new vars n lspci S.text).2.ctr (l.eth, q) = some (Wrapctr.new (q.pick l.col))
  feeds : (readlines S.text).flatMap updateCells =
    S.devs.flatMap fun l => (List.range 16).map fun i => ((l.eth, i), l.col i)
  netinfo10_feeds : ∀ ig,
    (liveIfaces ig S.text).flatMap (fun p => windowReadings p.1 p.2) =
      (S.devs.filter (DevLine.live ig)).flatMap fun l =>
        Quantity.all.map fun q => ((l.eth, q), q.pick l.col)
  netinfo_zero : ∃ ctr,
    Netinfo.scan (Netinfo.new lspci S.text).ctr S.text = .ok (ctr, fun _ => 0)
  netinfo2_zero : ∀ dt ≠ 0, ∃ ctr rates,
    (readlines S.text).foldlM (Netinfo2.scanLine dt) ((Netinfo2.new lspci S.text).ctr, []) =
      .ok (ctr, rates) ∧ ∀ r ∈ rates, r.2 = 0
  netinfo10_zero : ∀ vars n, ∃ st,
    windowScan vars.ignoreInactive (Netinfo10.new vars n lspci S.text).2.ctr
        (Netinfo10.new vars n lspci S.text).2.past S.text = .ok st ∧
      ∀ k, ∀ d ∈ st.past k, d = 0

/-! ## One line -/

namespace DevLine

variable (l : DevLine)

/-- The fields that the first expression yields. -/
def fields : List Text := if l.gap = [] then l.cols else [] :: l.cols

/-- The fields show the columns as numbers when nothing follows the colon, or
when there is nothing but zeros to shift. -/
theorem fieldNum_fields_iff :
    (∀ i < 16, fieldNum l.fields i = l.col i) ↔ l.gap = [] ∨ ∀ i < 16, l.col i = 0 := by
  unfold fields
  by_cases hg : l.gap = []
  · rw [if_pos hg]
    exact ⟨fun _ => Or.inl hg, fun _ i _ => rfl⟩
  · rw [if_neg hg]
    constructor
    · intro h
      refine Or.inr fun i => ?_
      induction i with
      | zero =>
          intro hi
          rw [← h 0 hi]
          exact numify_nil
      | succ i ih =>
          intro hi
          rw [← h (i + 1) hi]
          exact ih (by omega)
    · intro h i hi
      have hzero := h.resolve_left hg
      cases i with
      | zero => exact numify_nil.trans (hzero 0 hi).symm
      | succ i =>
          have hprev : fieldNum ([] :: l.cols) (i + 1) = l.col i := rfl
          rw [hprev, hzero i (by omega), hzero (i + 1) hi]

theorem fields_eq_iff : l.fields = l.cols ↔ l.gap = [] := by
  unfold fields
  by_cases hg : l.gap = []
  · simp [hg]
  · simp only [hg, if_false, iff_false]
    intro h
    have := congrArg List.length h
    simp only [List.length_cons] at this
    omega

end DevLine

theorem fieldsAgree_iff (l : DevLine) : FieldsAgree l ↔ l.gap = [] := by
  rw [← l.fields_eq_iff]
  constructor
  · intro h
    have htext : some (l.eth, l.fields) = some (l.eth, l.cols) :=
      l.ethFields_text.symm.trans (h .netinfoNew)
    exact (Prod.mk.inj (Option.some.inj htext)).2
  · intro h r
    have hnew : ethFields l.row = some (l.eth, l.cols) := by
      rw [← h]
      exact l.ethFields_text
    have hget : ethFieldsTrim l.row = some (l.eth, l.cols) := l.ethFieldsTrim_text
    cases r <;> first | exact hnew | exact hget

theorem numbersAgree_iff (l : DevLine) :
    NumbersAgree l ↔ l.gap = [] ∨ ∀ i < 16, l.col i = 0 := by
  rw [← l.fieldNum_fields_iff]
  constructor
  · intro h
    obtain ⟨fld, hfld, hnum⟩ := h .netinfoNew
    have htext : some (l.eth, l.fields) = some (l.eth, fld) := l.ethFields_text.symm.trans hfld
    obtain rfl : l.fields = fld := (Prod.mk.inj (Option.some.inj htext)).2
    exact hnum
  · intro h r
    have hnew : ∃ fld, ethFields l.row = some (l.eth, fld) ∧ ∀ i < 16, fieldNum fld i = l.col i :=
      ⟨l.fields, l.ethFields_text, h⟩
    have hget : ∃ fld, ethFieldsTrim l.row = some (l.eth, fld) ∧
        ∀ i < 16, fieldNum fld i = l.col i :=
      ⟨l.cols, l.ethFieldsTrim_text, fun _ _ => rfl⟩
    cases r <;> first | exact hnew | exact hget

/-! ## Whole snapshots -/

/-- The updates of one line are its columns. -/
theorem updateCells_row (l : DevLine) :
    updateCells l.row = (List.range 16).map fun i => ((l.eth, i), l.col i) := by
  have hfields : ethFieldsTrim l.row = some (l.eth, l.cols) := l.ethFieldsTrim_text
  unfold updateCells
  rw [hfields]
  apply List.ext_getElem
  · simp [l.cols_length]
  · intro i h₁ h₂
    have hi : i < l.cols.length := by simpa using h₁
    simp [DevLine.col, List.getD, List.getElem?_eq_getElem hi]

theorem flatMap_updateCells_text (S : DevSnapshot) :
    (readlines S.text).flatMap updateCells =
      S.devs.flatMap fun l => (List.range 16).map fun i => ((l.eth, i), l.col i) := by
  have hcells : ∀ lines : List Text, lines.flatMap updateCells =
      (lines.filterMap ethFieldsTrim).flatMap fun p =>
        p.2.zipIdx.map fun f => ((p.1, f.2), numify f.1) := by
    intro lines
    induction lines with
    | nil => rfl
    | cons line lines ih =>
        cases hl : ethFieldsTrim line with
        | none => simp [updateCells, hl, ih]
        | some p => simp [updateCells, hl, ih]
  rw [hcells, S.filterMap_ethFieldsTrim, List.flatMap_map]
  congr 1
  funext l
  rw [← updateCells_row]
  have hfields : ethFieldsTrim l.row = some (l.eth, l.cols) := l.ethFieldsTrim_text
  unfold updateCells
  rw [hfields]

/-- What `netinfo10` makes of one line. -/
theorem liveFields_row (ig : Bool) (l : DevLine) :
    liveFields ig l.row = if l.live ig then some (l.eth, l.fields) else none := by
  have hfields : ethFields l.row = some (l.eth, l.fields) := l.ethFields_text
  have hsum : (l.fields.map numify).sum = (l.cols.map numify).sum := by
    unfold DevLine.fields
    by_cases hg : l.gap = [] <;> simp [hg]
  unfold liveFields DevLine.live
  rw [hfields]
  simp only [hsum]
  cases ig && (l.cols.map numify).sum == 0 <;> rfl

theorem liveIfaces_text (ig : Bool) (S : DevSnapshot) :
    liveIfaces ig S.text = (S.devs.filter (DevLine.live ig)).map fun l => (l.eth, l.fields) := by
  unfold liveIfaces
  rw [S.filterMap_readlines _ _ ?_ (liveFields_row ig)]
  · induction S.devs with
    | nil => rfl
    | cons l ls ih => cases hl : l.live ig <;> simp [hl, ih]
  · intro s hs
    simp [liveFields, ethFields, capture_ethLine, hs]

/-- Counters that hold what they are fed advance by zero. -/
theorem feed_fixed_wrapctr {κ α : Type} [DecidableEq κ] (acc : α → κ → ℚ → α)
    {b : Bank κ (Wrapctr ℚ)} {rs : List (κ × ℚ)}
    (h : ∀ r ∈ rs, ∃ c, b r.1 = some c ∧ c.v = r.2) (a : α) :
    ∃ b', feed Wrapctr.update Die.undefMethod acc (b, a) rs =
        .ok (b', rs.foldl (fun a r => acc a r.1 0) a) ∧
      ∀ k x, (∃ c, b k = some c ∧ c.v = x) → ∃ c, b' k = some c ∧ c.v = x := by
  apply feed_fixed Wrapctr.update Die.undefMethod acc (fun c x => c.v = x) 0 _ _ h
  · intro c x hx
    rw [Wrapctr.update_fst, hx, Wrapctr.step_self]
  · intro c x y hx hy
    rw [Wrapctr.update_v, ← hx, hy]

theorem foldl_addDelta_zero (rs : List ((Nat × Nat) × ℚ)) :
    rs.foldl (fun a r => addDelta a r.1 0) (fun _ => 0) = fun _ => 0 := by
  induction rs with
  | nil => rfl
  | cons r rs ih =>
      have hzero : addDelta (fun _ => 0) r.1 0 = fun _ => 0 := by
        funext i
        simp [addDelta]
      rw [List.foldl_cons, hzero, ih]

theorem foldl_pushPast_zero {rs : List ((Nat × Quantity) × ℚ)} {past : Past}
    (h : ∀ k, ∀ d ∈ past k, d = 0) :
    ∀ k, ∀ d ∈ rs.foldl (fun a r => pushPast a r.1 0) past k, d = 0 := by
  induction rs generalizing past with
  | nil => exact h
  | cons r rs ih =>
      rw [List.foldl_cons]
      apply ih
      intro k d hd
      unfold pushPast at hd
      split at hd
      · rcases List.mem_append.mp hd with hd | hd
        · exact h k d (List.mem_of_mem_tail hd)
        · exact List.mem_singleton.mp hd
      · exact h k d hd

section Agreeing

variable {S : DevSnapshot} (hnum : ∀ l ∈ S.devs, ∀ i < 16, fieldNum l.fields i = l.col i)
  (hsame : ∀ l ∈ S.devs, ∀ l' ∈ S.devs, l.eth = l'.eth → ∀ i < 16, l.col i = l'.col i)

include hnum hsame

/-- The counters of `netinfo` and `netinfo2` hold their columns. -/
theorem newCtr_text {l : DevLine} (hl : l ∈ S.devs) {i : Nat} (hi : i < 16) :
    newCtr S.text (l.eth, i) = some (Wrapctr.new (l.col i)) := by
  have hcells : ∀ lines : List Text, lines.flatMap newCells =
      (lines.filterMap ethFields).flatMap fun p =>
        p.2.zipIdx.map fun f => ((p.1, f.2), Wrapctr.new (numify f.1)) := by
    intro lines
    induction lines with
    | nil => rfl
    | cons line lines ih =>
        cases hl : ethFields line with
        | none => simp [newCells, hl, ih]
        | some p => simp [newCells, hl, ih]
  have hmem : ∀ p : (Nat × Nat) × Wrapctr ℚ, p ∈ (readlines S.text).flatMap newCells ↔
      ∃ l' ∈ S.devs, ∃ w j, l'.fields[j]? = some w ∧
        ((l'.eth, j), Wrapctr.new (numify w)) = p := by
    intro p
    rw [hcells, S.filterMap_ethFields, List.flatMap_map]
    simp only [List.mem_flatMap, List.mem_map, Prod.exists, List.mem_zipIdx_iff_getElem?]
    rfl
  have hlen : 16 ≤ l.fields.length := by
    have := l.cols_length
    unfold DevLine.fields
    split <;> simp [this]
  unfold newCtr
  rw [foldl_putAll]
  apply putAll_of_agree
  · have hget : l.fields[i]? = some (l.fields.get ⟨i, by omega⟩) :=
      List.getElem?_eq_getElem _
    exact List.mem_map.mpr ⟨_, (hmem _).mpr ⟨l, hl, _, i, hget, rfl⟩, rfl⟩
  · intro p hp hk
    obtain ⟨l', hl', w, j, hw, rfl⟩ := (hmem p).mp hp
    obtain ⟨heth, rfl⟩ : l'.eth = l.eth ∧ j = i := Prod.mk.inj hk
    have hval : numify w = fieldNum l'.fields j := by
      unfold fieldNum
      rw [List.getD, hw]
      rfl
    simp only
    rw [hval, hnum l' hl' j hi, hsame l' hl' l hl heth j hi]

omit hsame in
/-- `netinfo10` feeds the quantities of the columns. -/
theorem liveReadings_text (ig : Bool) :
    (liveIfaces ig S.text).flatMap (fun p => windowReadings p.1 p.2) =
      (S.devs.filter (DevLine.live ig)).flatMap fun l =>
        Quantity.all.map fun q => ((l.eth, q), q.pick l.col) := by
  rw [liveIfaces_text, List.flatMap_map]
  apply List.flatMap_congr
  intro l hl
  unfold windowReadings
  apply List.map_congr_left
  intro q _
  rw [Quantity.pick_congr (hnum l (List.mem_filter.mp hl).1)]

/-- The counters of `netinfo10` hold the quantities of the columns. -/
theorem newWindow_text (ig : Bool) {l : DevLine} (hl : l ∈ S.devs) (hlive : l.live ig)
    (q : Quantity) : newWindow ig S.text (l.eth, q) = some (Wrapctr.new (q.pick l.col)) := by
  rw [newWindow_eq_putAll, liveReadings_text hnum]
  apply putAll_of_agree
  · simp only [List.map_flatMap, List.map_map, List.mem_flatMap, List.mem_map,
      Function.comp_apply]
    exact ⟨l, List.mem_filter.mpr ⟨hl, hlive⟩, q, Quantity.mem_all q, rfl⟩
  · intro p hp hk
    obtain ⟨r, hr, rfl⟩ := List.mem_map.mp hp
    obtain ⟨l', hl', hr⟩ := List.mem_flatMap.mp hr
    obtain ⟨q', -, rfl⟩ := List.mem_map.mp hr
    obtain ⟨heth, rfl⟩ : l'.eth = l.eth ∧ q' = q := Prod.mk.inj hk
    have hcols := hsame l' (List.mem_filter.mp hl').1 l hl heth
    simp only
    rw [Quantity.pick_congr hcols]

/-- The counters of `new` hold what `getdata` feeds them. -/
theorem updateCells_held :
    ∀ r ∈ (readlines S.text).flatMap updateCells, ∃ c, newCtr S.text r.1 = some c ∧ c.v = r.2 := by
  intro r hr
  rw [flatMap_updateCells_text] at hr
  obtain ⟨l, hl, hr⟩ := List.mem_flatMap.mp hr
  obtain ⟨i, hi, rfl⟩ := List.mem_map.mp hr
  exact ⟨_, newCtr_text hnum hsame hl (List.mem_range.mp hi), rfl⟩

theorem scan_zero : ∃ ctr, Netinfo.scan (newCtr S.text) S.text = .ok (ctr, fun _ => 0) := by
  obtain ⟨ctr, hfeed, -⟩ := feed_fixed_wrapctr addDelta (updateCells_held hnum hsame) (fun _ => 0)
  refine ⟨ctr, ?_⟩
  unfold Netinfo.scan
  rw [feed_flatMap, hfeed, foldl_addDelta_zero]

theorem scanLine_zero {dt : ℚ} (hdt : dt ≠ 0) : ∃ ctr rates,
    (readlines S.text).foldlM (Netinfo2.scanLine dt) (newCtr S.text, []) = .ok (ctr, rates) ∧
      ∀ r ∈ rates, r.2 = 0 := by
  have hloop : ∀ (lines : List Text) (b : Bank (Nat × Nat) (Wrapctr ℚ))
      (rates : List ((Quantity × Nat) × ℚ)),
      (∀ r ∈ lines.flatMap updateCells, ∃ c, b r.1 = some c ∧ c.v = r.2) →
      (∀ r ∈ rates, r.2 = 0) → ∃ ctr rates',
        lines.foldlM (Netinfo2.scanLine dt) (b, rates) = .ok (ctr, rates') ∧
        ∀ r ∈ rates', r.2 = 0 := by
    intro lines
    induction lines with
    | nil => exact fun b rates _ hrates => ⟨b, rates, rfl, hrates⟩
    | cons line lines ih =>
        intro b rates hheld hrates
        rw [List.flatMap_cons] at hheld
        obtain ⟨b', hfeed, hkeep⟩ := feed_fixed_wrapctr addDelta
          (fun r hr => hheld r (List.mem_append_left _ hr)) (fun _ => 0)
        have hheld' : ∀ r ∈ lines.flatMap updateCells, ∃ c, b' r.1 = some c ∧ c.v = r.2 :=
          fun r hr => hkeep r.1 r.2 (hheld r (List.mem_append_right _ hr))
        rw [List.foldlM_cons]
        cases hl : ethFieldsTrim line with
        | none =>
            have hline : Netinfo2.scanLine dt (b, rates) line = .ok (b, rates) := by
              simp only [Netinfo2.scanLine, hl]
              rfl
            rw [hline, ok_bind]
            exact ih b rates (fun r hr => hheld r (List.mem_append_right _ hr)) hrates
        | some p =>
            have hline : Netinfo2.scanLine dt (b, rates) line = .ok (b', rates ++
                Quantity.all.map fun q => ((q, p.1), q.pick (fun _ => 0) / dt)) := by
              simp only [Netinfo2.scanLine, hl, hfeed, foldl_addDelta_zero, ok_bind,
                mapM_rates _ _ hdt]
              rfl
            rw [hline, ok_bind]
            refine ih b' _ hheld' fun r hr => ?_
            rcases List.mem_append.mp hr with hr | hr
            · exact hrates r hr
            · obtain ⟨q, -, rfl⟩ := List.mem_map.mp hr
              cases q <;> simp [Quantity.pick]
  exact hloop _ _ _ (updateCells_held hnum hsame) (by simp)

theorem windowScan_zero (ig : Bool) : ∃ st,
    windowScan ig (newWindow ig S.text) (newPast (newWindow ig S.text)) S.text = .ok st ∧
      ∀ k, ∀ d ∈ st.past k, d = 0 := by
  have hheld : ∀ r ∈ (liveIfaces ig S.text).flatMap (fun p => windowReadings p.1 p.2),
      ∃ c, newWindow ig S.text r.1 = some c ∧ c.v = r.2 := by
    intro r hr
    rw [liveReadings_text hnum] at hr
    obtain ⟨l, hl, hr⟩ := List.mem_flatMap.mp hr
    obtain ⟨q, -, rfl⟩ := List.mem_map.mp hr
    obtain ⟨hl, hlive⟩ := List.mem_filter.mp hl
    exact ⟨_, newWindow_text hnum hsame ig hl hlive q, rfl⟩
  obtain ⟨ctr, hfeed, -⟩ := feed_fixed_wrapctr pushPast hheld (newPast (newWindow ig S.text))
  unfold liveIfaces at hfeed
  unfold windowScan
  rw [foldlM_windowLine]
  simp only
  rw [hfeed]
  refine ⟨_, rfl, ?_⟩
  apply foldl_pushPast_zero
  intro k d hd
  unfold newPast at hd
  split at hd
  · exact List.eq_of_mem_replicate hd
  · simp at hd

end Agreeing

/-- Lines with the same digit show the same columns; in particular this holds
when the digits are pairwise different. -/
def SameDigitSameColumns (S : DevSnapshot) : Prop :=
  ∀ l ∈ S.devs, ∀ l' ∈ S.devs, l.eth = l'.eth → ∀ i < 16, l.col i = l'.col i

theorem columnsAgree_iff (lspci : Text) (S : DevSnapshot) :
    ColumnsAgree lspci S ↔
      (∀ l ∈ S.devs, l.gap = [] ∨ ∀ i < 16, l.col i = 0) ∧ SameDigitSameColumns S := by
  constructor
  · intro h
    refine ⟨fun l hl => (numbersAgree_iff l).mp (h.numbers l hl), ?_⟩
    -- Two lines with one digit share the counters that `new` leaves behind.
    intro l hl l' hl' heth i hi
    have hctr := h.netinfo_new l hl i hi
    rw [heth, h.netinfo_new l' hl' i hi] at hctr
    exact (congrArg Wrapctr.v (Option.some.inj hctr)).symm
  · intro h
    obtain ⟨hgap, hsame⟩ := h
    have hnum : ∀ l ∈ S.devs, ∀ i < 16, fieldNum l.fields i = l.col i :=
      fun l hl => l.fieldNum_fields_iff.mpr (hgap l hl)
    exact {
      numbers := fun l hl => (numbersAgree_iff l).mpr (hgap l hl)
      netinfo_new := fun l hl i hi => newCtr_text hnum hsame hl hi
      netinfo2_new := fun l hl i hi => newCtr_text hnum hsame hl hi
      netinfo10_new := fun vars _ l hl hlive q => newWindow_text hnum hsame _ hl hlive q
      feeds := flatMap_updateCells_text S
      netinfo10_feeds := liveReadings_text hnum
      netinfo_zero := scan_zero hnum hsame
      netinfo2_zero := fun _ hdt => scanLine_zero hnum hsame hdt
      netinfo10_zero := fun vars _ => windowScan_zero hnum hsame _ }

/-- **When the readers agree.**  The six readers see the columns as their
fields, the counters hold them, and a second reading of the same snapshot
advances nothing, if and only if no whitespace follows the colon of any
interface line and lines with the same digit show the same columns.  If only
the numbers are compared, a line of sixteen zeros may have whitespace too. -/
theorem readers_agree_iff (lspci : Text) (S : DevSnapshot) :
    (((∀ l ∈ S.devs, FieldsAgree l) ∧ ColumnsAgree lspci S) ↔
      (∀ l ∈ S.devs, l.gap = []) ∧ SameDigitSameColumns S) ∧
    (ColumnsAgree lspci S ↔
      (∀ l ∈ S.devs, l.gap = [] ∨ ∀ i < 16, l.col i = 0) ∧ SameDigitSameColumns S) := by
  refine ⟨?_, columnsAgree_iff lspci S⟩
  rw [columnsAgree_iff]
  constructor
  · intro h
    exact ⟨fun l hl => (fieldsAgree_iff l).mp (h.1 l hl), h.2.2⟩
  · intro h
    exact ⟨fun l hl => (fieldsAgree_iff l).mpr (h.1 l hl), fun l hl => Or.inl (h.1 l hl), h.2⟩

/-- An interface line with a blank after the colon. -/
def spacedLine : DevLine where
  lead := "  ".toList
  em := false
  digit := '0'
  gap := " ".toList
  first := "1".toList
  others := (List.range 15).map fun i => (" ".toList, decimal (i + 2))
  lead_blank := List.all_eq_true.mp (by decide)
  digit_isDigit := by decide
  gap_blank := List.all_eq_true.mp (by decide)
  first_column := by decide
  others_blank := by
    intro p hp
    obtain ⟨i, -, rfl⟩ := List.mem_map.mp hp
    have hsep : " ".toList ≠ [] ∧ ∀ c ∈ " ".toList, isBlank c :=
      ⟨by decide, List.all_eq_true.mp (by decide)⟩
    exact hsep
  others_column := by decide
  others_length := by decide

def spacedSnapshot : DevSnapshot := ⟨[.inr spacedLine], by simp⟩

/-- On such a line `new` puts every column one place too far, so that a second
reading of the same snapshot counts `1` in column `0`. -/
theorem spaced_line_shifts :
    ¬ FieldsAgree spacedLine ∧ spacedLine.col 0 = 1 ∧
    (Netinfo.new [] spacedSnapshot.text).ctr (0, 0) = some (Wrapctr.new 0) ∧
    (Netinfo10.new ⟨1, false⟩ 1 [] spacedSnapshot.text).2.ctr (0, .bytesIn) =
      some (Wrapctr.new 0) ∧
    (Netinfo.scan (Netinfo.new [] spacedSnapshot.text).ctr spacedSnapshot.text).map
      (fun st => st.2 0) = .ok 1 := by
  refine ⟨?_, by decide +kernel, by decide +kernel, by decide +kernel, by decide +kernel⟩
  rw [fieldsAgree_iff]
  decide

end Memrec
