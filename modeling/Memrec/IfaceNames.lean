import Mathlib.Data.Bool.AllAny
import Memrec.NetinfoSum
import Memrec.NetinfoWindow

/-!
# Interface names and counter keys

The kernel prints one line for each network interface, its name before the only
colon of the line.  The modules take the digit of a match of

    m/(eth|em)(\d)\:

for the key of its counters.  The expression is not anchored and the key does
not say which of the alternatives it was, so what reaches the key of a name is
its last character, for every name that ends in `eth` or `em` and a digit.

No two lines share a key exactly if no two names end alike in this sense
(`keys_apart_iff`).  That is so for `eth0`, `eth1`, ..., and not for `eth0` next
to `em0` or `veth0`.  When keys are shared, the later line leaves its readings
for the earlier one to be compared with; when they are not, every line finds its
own (`feed_own_readings`).
-/

namespace Memrec

open Perl Perl.Pat CellBank Runs

/-! ## Names -/

/-- The name ends in `eth` or `em` and this digit. -/
def EndsEth (d : Char) (name : Text) : Prop :=
  d.isDigit ∧ ("eth".toList ++ [d] <:+ name ∨ "em".toList ++ [d] <:+ name)

instance (d : Char) (name : Text) : Decidable (EndsEth d name) :=
  inferInstanceAs (Decidable (_ ∧ (_ ∨ _)))

/-- `$2 + 0`. -/
def digitKey (d : Char) : Nat := d.toNat - '0'.toNat

theorem digitKey_inj {d d' : Char} (hd : d.isDigit) (hd' : d'.isDigit)
    (h : digitKey d = digitKey d') : d = d' := by
  have hlow := (Char.isDigit_iff_toNat.mp hd).1
  have hlow' := (Char.isDigit_iff_toNat.mp hd').1
  unfold digitKey at h
  exact Char.toNat_inj.mp (by omega)

/-- The digit is the last character. -/
theorem EndsEth.getLast {d : Char} {name : Text} (h : EndsEth d name) :
    name.getLast? = some d := by
  obtain ⟨-, h | h⟩ := h <;> obtain ⟨u, rfl⟩ := h <;> simp

theorem EndsEth.unique {d d' : Char} {name : Text} (h : EndsEth d name) (h' : EndsEth d' name) :
    d = d' :=
  Option.some.inj (h.getLast.symm.trans h'.getLast)

theorem mem_ethHead {s : Text} {x : Nat × Text} :
    x ∈ ethHead s ↔ ∃ d : Char, d.isDigit ∧ digitKey d = x.1 ∧
      (s = "eth".toList ++ d :: ':' :: x.2 ∨ s = "em".toList ++ d :: ':' :: x.2) := by
  constructor
  · intro h
    simp only [ethHead, bind_apply] at h
    obtain ⟨⟨_, s₁⟩, hword, h⟩ := List.mem_flatMap.mp h
    obtain ⟨⟨d, s₂⟩, hdigit, h⟩ := List.mem_flatMap.mp h
    obtain ⟨⟨_, s₃⟩, hcolon, hx⟩ := List.mem_flatMap.mp h
    obtain rfl := List.mem_singleton.mp hx
    have hs₂ : s₂ = ':' :: s₃ := mem_lit hcolon
    have hs₁ : d.isDigit ∧ s₁ = d :: s₂ := by
      cases s₁ with
      | nil => cases hdigit
      | cons c t =>
          rw [cls_cons] at hdigit
          split at hdigit
          · next hc =>
              cases List.mem_singleton.mp hdigit
              exact ⟨hc, rfl⟩
          · cases hdigit
    refine ⟨d, hs₁.1, rfl, ?_⟩
    rcases List.mem_append.mp hword with hword | hword
    · exact Or.inl (by rw [mem_lit hword, hs₁.2, hs₂])
    · exact Or.inr (by rw [mem_lit hword, hs₁.2, hs₂])
  · obtain ⟨e, r⟩ := x
    rintro ⟨d, hd, rfl, rfl | rfl⟩ <;>
      simp [ethHead, alt, lit, hd, digitKey]

theorem search_ethHead_none {q : Text} (hq : ':' ∉ q) : search ethHead q = none := by
  have hnil : ∀ t : Text, ':' ∉ t → ethHead t = [] := by
    intro t ht
    rw [List.eq_nil_iff_forall_not_mem]
    intro x hx
    obtain ⟨d, -, -, rfl | rfl⟩ := mem_ethHead.mp hx <;> exact ht (by simp)
  induction q with
  | nil => rfl
  | cons c q ih =>
      rw [search_skip (hnil _ hq), ih fun h => hq (List.mem_cons_of_mem _ h)]
      rfl

/-- In front of the only colon a match must end there. -/
theorem mem_ethHead_colon {p q : Text} (hp : ':' ∉ p) (hq : ':' ∉ q) {x : Nat × Text} :
    x ∈ ethHead (p ++ ':' :: q) ↔ ∃ d : Char, d.isDigit ∧ x = (digitKey d, q) ∧
      (p = "eth".toList ++ [d] ∨ p = "em".toList ++ [d]) := by
  have hcut : ∀ (w : Text) (d : Char), p ++ ':' :: q = w ++ d :: ':' :: x.2 ↔
      p = w ++ [d] ∧ q = x.2 := by
    intro w d
    rw [show w ++ d :: ':' :: x.2 = (w ++ [d]) ++ ':' :: x.2 by simp,
      List.append_cons_inj_of_notMem hp hq]
    tauto
  rw [mem_ethHead]
  refine exists_congr fun d => and_congr_right fun hd => ?_
  rw [hcut, hcut, ← or_and_right, Prod.ext_iff]
  tauto

theorem endsEth_cons {d c : Char} {p : Text} : EndsEth d (c :: p) ↔
    d.isDigit ∧ (c :: p = "eth".toList ++ [d] ∨ c :: p = "em".toList ++ [d]) ∨ EndsEth d p := by
  simp only [EndsEth, List.suffix_cons_iff]
  tauto

/-- **Which names are accepted.** -/
theorem search_ethHead_colon {p q : Text} (hp : ':' ∉ p) (hq : ':' ∉ q) {x : Nat × Text} :
    (search ethHead (p ++ ':' :: q)).map Prod.snd = some x ↔
      ∃ d, EndsEth d p ∧ x = (digitKey d, q) := by
  induction p with
  | nil =>
      have hnil : ethHead (':' :: q) = [] := by
        rw [List.eq_nil_iff_forall_not_mem]
        intro y hy
        obtain ⟨d, -, -, hd⟩ := (mem_ethHead_colon List.not_mem_nil hq).mp hy
        simp at hd
      rw [List.nil_append, search_skip hnil, search_ethHead_none hq]
      constructor
      · intro h
        cases h
      · rintro ⟨d, hd, -⟩
        cases hd.getLast
  | cons c p ih =>
      have hp' : ':' ∉ p := fun h => hp (List.mem_cons_of_mem _ h)
      cases hhead : (ethHead (c :: p ++ ':' :: q)).head? with
      | none =>
          have hnil := List.head?_eq_none_iff.mp hhead
          rw [List.cons_append] at hnil ⊢
          rw [search_skip hnil, Option.map_map]
          refine Iff.trans (ih hp') (exists_congr fun d => and_congr_left fun hx => ?_)
          rw [endsEth_cons, or_iff_right]
          intro h
          have := (mem_ethHead_colon hp hq).mpr ⟨d, h.1, hx, h.2⟩
          rw [List.cons_append, hnil] at this
          cases this
      | some y =>
          obtain ⟨d, hd, hy, hpd⟩ := (mem_ethHead_colon hp hq).mp (List.mem_of_head? hhead)
          have hends : EndsEth d (c :: p) := endsEth_cons.mpr (Or.inl ⟨hd, hpd⟩)
          rw [search_here hhead, Option.map_some, Option.some_inj]
          constructor
          · rintro rfl
            exact ⟨d, hends, hy⟩
          · rintro ⟨d', hends', rfl⟩
            rw [← hends.unique hends', ← hy]

/-! ## Snapshots -/

/-- The line of an interface: indentation, a name without whitespace or a colon,
the colon, whitespace and digits. -/
structure NetLine where
  lead : Text
  name : Text
  columns : Text
  lead_blank : ∀ c ∈ lead, isBlank c
  name_word : ∀ c ∈ name, c ≠ ':' ∧ isSpace c = false
  columns_digits : ∀ c ∈ columns, isBlank c ∨ c.isDigit

/-- Header lines, without a colon, and the lines of the interfaces. -/
structure NetSnapshot where
  headers : List Text
  lines : List NetLine
  headers_plain : ∀ h ∈ headers, ':' ∉ h ∧ '\n' ∉ h

namespace NetLine

variable (l : NetLine)

/-- The line without its line feed. -/
def text : Text := l.lead ++ l.name ++ ':' :: l.columns

/-- The columns add up to something. -/
def active : Bool := !decide (((splitWs l.columns).map numify).sum = 0)

theorem columns_notNl : ∀ c ∈ l.columns, notNl c := fun c hc =>
  (l.columns_digits c hc).elim notNl_of_isBlank notNl_of_isDigit

theorem colon_notMem_columns : ':' ∉ l.columns := fun h =>
  (l.columns_digits ':' h).elim (by decide) (by decide)

theorem colon_notMem_lead_name : ':' ∉ l.lead ++ l.name := by
  intro h
  rcases List.mem_append.mp h with h | h
  · exact absurd (l.lead_blank ':' h) (by decide)
  · exact (l.name_word ':' h).1 rfl

theorem newline_notMem_text : '\n' ∉ l.text := by
  simp only [text, List.mem_append, List.mem_cons, not_or]
  refine ⟨⟨fun h => ?_, fun h => ?_⟩, by decide, fun h => ?_⟩
  · exact absurd (l.lead_blank _ h) (by decide)
  · exact absurd (l.name_word _ h).2 (by decide)
  · exact absurd (l.columns_notNl _ h) (by decide)

/-- Indentation does not reach into the end of a name. -/
theorem endsEth_lead_name {d : Char} : EndsEth d (l.lead ++ l.name) ↔ EndsEth d l.name := by
  have hword : ∀ w : Text, (∀ c ∈ w, isSpace c = false) →
      (w <:+ l.lead ++ l.name ↔ w <:+ l.name) := by
    intro w hw
    refine ⟨fun h => ?_, fun h => h.trans (List.suffix_append _ _)⟩
    rcases List.suffix_or_suffix_of_suffix h (List.suffix_append _ _) with hs | ⟨v, rfl⟩
    · exact hs
    · cases v with
      | nil => exact List.suffix_rfl
      | cons c v =>
          obtain ⟨u, hu⟩ := h
          rw [← List.append_assoc] at hu
          have hlead := List.append_cancel_right hu
          have hc : isBlank c := l.lead_blank c (by simp [← hlead])
          have hnot := hw c (by simp)
          rw [isSpace_of_isBlank hc] at hnot
          cases hnot
  refine and_congr_right fun hd => ?_
  have hspace := not_space_of_isDigit hd
  have heth : ∀ c ∈ "eth".toList ++ [d], isSpace c = false := by
    simpa using ⟨by decide, by decide, by decide, hspace⟩
  have hem : ∀ c ∈ "em".toList ++ [d], isSpace c = false := by
    simpa using ⟨by decide, by decide, hspace⟩
  rw [hword _ heth, hword _ hem]

/-- What is matched of a line: the key and what follows the colon. -/
def accept : Option (Nat × Text) := (search ethHead (l.text ++ ['\n'])).map Prod.snd

theorem accept_iff {x : Nat × Text} : l.accept = some x ↔
    ∃ d, EndsEth d l.name ∧ x = (digitKey d, l.columns ++ ['\n']) := by
  have hline : l.text ++ ['\n'] = (l.lead ++ l.name) ++ ':' :: (l.columns ++ ['\n']) := by
    simp [text]
  have hcolon : ':' ∉ l.columns ++ ['\n'] := by
    simpa using l.colon_notMem_columns
  rw [accept, hline, search_ethHead_colon l.colon_notMem_lead_name hcolon]
  simp only [endsEth_lead_name]

theorem takeWhile_columns : (l.columns ++ ['\n']).takeWhile notNl = l.columns := by
  rw [List.takeWhile_append_of_pos l.columns_notNl]
  simp [notNl]

/-- Both expressions continue from what is matched. -/
theorem search_text {x : Text × Nat × Text} (h : search ethHead (l.text ++ ['\n']) = some x) :
    l.accept = some x.2 ∧ x.2.2 = l.columns ++ ['\n'] := by
  have hx : l.accept = some x.2 := by rw [accept, h, Option.map_some]
  obtain ⟨d, -, hd⟩ := l.accept_iff.mp hx
  exact ⟨hx, by rw [hd]⟩

theorem ethFields_text :
    ethFields (l.text ++ ['\n']) = l.accept.map fun x => (x.1, splitWs l.columns) := by
  rw [ethFields, capture_ethLine]
  cases h : search ethHead (l.text ++ ['\n']) with
  | none => simp [accept, h]
  | some x =>
      obtain ⟨hx, hrest⟩ := l.search_text h
      simp only [hx, Option.map_some, hrest, l.takeWhile_columns]

theorem ethFieldsTrim_text :
    ethFieldsTrim (l.text ++ ['\n']) = l.accept.map fun x => (x.1, words l.columns) := by
  rw [ethFieldsTrim, capture_ethLineTrim]
  cases h : search ethHead (l.text ++ ['\n']) with
  | none => simp [accept, h]
  | some x =>
      obtain ⟨hx, hrest⟩ := l.search_text h
      have hnl : '\n' ∉ (l.columns ++ ['\n']).dropLast := by
        rw [List.dropLast_concat]
        exact fun hmem => absurd (l.columns_notNl _ hmem) (by decide)
      simp only [hx, Option.map_some, hrest, trim_takeWhile hnl, l.takeWhile_columns,
        splitWs_dropWhile]

theorem liveFields_text (ig : Bool) : liveFields ig (l.text ++ ['\n']) =
    if !ig || l.active then l.accept.map fun x => (x.1, splitWs l.columns) else none := by
  rw [liveFields, ethFields_text]
  cases l.accept with
  | none => simp
  | some x =>
      by_cases h : ((splitWs l.columns).map numify).sum = 0 <;> cases ig <;> simp [active, h]

end NetLine

namespace NetSnapshot

variable (s : NetSnapshot)

/-- The file. -/
def text : Text := (s.headers ++ s.lines.map NetLine.text).flatMap (· ++ ['\n'])

theorem readlines_text : readlines s.text =
    s.headers.map (· ++ ['\n']) ++ s.lines.map fun l => l.text ++ ['\n'] := by
  rw [text, readlines_unlines]
  · simp
  · intro l hl
    rcases List.mem_append.mp hl with hl | hl
    · exact (s.headers_plain l hl).2
    · obtain ⟨n, -, rfl⟩ := List.mem_map.mp hl
      exact n.newline_notMem_text

theorem search_header {h : Text} (hh : h ∈ s.headers) : search ethHead (h ++ ['\n']) = none :=
  search_ethHead_none (by simpa using (s.headers_plain h hh).1)

end NetSnapshot

/-! ## Keys -/

/-- The keys of the accepted lines, in file order; `fields` is the expression and
what a module checks besides. -/
def lineKeys (fields : Text → Option (Nat × List Text)) (dev : Text) : List Nat :=
  (readlines dev).filterMap fun line => (fields line).map Prod.fst

/-- No two of the names end in `eth` or `em` and the same digit. -/
def NamesApart (names : List Text) : Prop :=
  names.Pairwise fun n n' => ∀ d, ¬ (EndsEth d n ∧ EndsEth d n')

/-- **Keys and names.**  For a module that accepts the matching lines among those
with `p`. -/
theorem nodup_lineKeys_iff (s : NetSnapshot) (fields : Text → Option (Nat × List Text))
    (p : NetLine → Bool) (g : NetLine → List Text)
    (hheaders : ∀ line, search ethHead line = none → fields line = none)
    (hlines : ∀ l, fields (l.text ++ ['\n']) =
      if p l then l.accept.map fun x => (x.1, g l) else none) :
    (lineKeys fields s.text).Nodup ↔ NamesApart ((s.lines.filter p).map NetLine.name) := by
  have hnone : (s.headers.map (· ++ ['\n'])).filterMap
      (fun line => (fields line).map Prod.fst) = [] := by
    simp only [List.filterMap_eq_nil_iff, List.mem_map, forall_exists_index, and_imp]
    rintro _ h hh rfl
    rw [hheaders _ (s.search_header hh)]
    rfl
  have hkey : ∀ (l : NetLine) (e : Nat), (fields (l.text ++ ['\n'])).map Prod.fst = some e ↔
      p l ∧ ∃ d, EndsEth d l.name ∧ e = digitKey d := by
    intro l e
    rw [hlines]
    by_cases hp : p l
    · simp only [hp, if_true, Option.map_map, true_and]
      constructor
      · intro h
        obtain ⟨x, hx, rfl⟩ := Option.map_eq_some_iff.mp h
        obtain ⟨d, hd, rfl⟩ := l.accept_iff.mp hx
        exact ⟨d, hd, rfl⟩
      · rintro ⟨d, hd, rfl⟩
        rw [l.accept_iff.mpr ⟨d, hd, rfl⟩]
        rfl
    · simp [hp]
  rw [lineKeys, s.readlines_text, List.filterMap_append, hnone, List.nil_append,
    List.filterMap_map, NamesApart, List.pairwise_map, List.pairwise_filter, List.Nodup,
    List.pairwise_filterMap]
  refine List.Pairwise.iff fun l l' => ?_
  simp only [Function.comp_apply, hkey]
  constructor
  · rintro h hl hl' d ⟨hd, hd'⟩
    exact h _ ⟨hl, d, hd, rfl⟩ _ ⟨hl', d, hd', rfl⟩ rfl
  · rintro h _ ⟨hl, d, hd, rfl⟩ _ ⟨hl', d', hd', rfl⟩ heq
    obtain rfl := digitKey_inj hd.1 hd'.1 heq
    exact h hl hl' d ⟨hd, hd'⟩

/-! ## Readings -/

/-- With pairwise different keys a feed that completes leaves at every key the
reading for it. -/
theorem feed_own_readings {κ α : Type} [DecidableEq κ] {acc : α → κ → ℚ → α}
    {b b' : Bank κ (Wrapctr ℚ)} {a a' : α} {rs : List (κ × ℚ)} (hn : (rs.map Prod.fst).Nodup)
    (h : feed Wrapctr.update Die.undefMethod acc (b, a) rs = .ok (b', a')) :
    ∀ r ∈ rs, (b' r.1).map Wrapctr.v = some r.2 := by
  have hsome := (touches_feed Wrapctr.update Die.undefMethod acc rs).needs b a _ h
  obtain ⟨b'', hfeed, htake, -⟩ := feed_counters acc (fun k => ((b k).map Wrapctr.v).getD 0) hn
    (fun r hr => map_v_of_isSome (hsome r.1 (List.mem_map_of_mem hr))) a
  obtain ⟨rfl, -⟩ := Prod.mk.inj (Except.ok.inj (hfeed.symm.trans h))
  exact htake

/-- The counters of `netinfo` and `netinfo2` hold, for every accepted line, the
columns of that line. -/
def OwnColumns (s : NetSnapshot) (ctr : Bank (Nat × Nat) (Wrapctr ℚ)) : Prop :=
  ∀ l ∈ s.lines, ∀ d, EndsEth d l.name → ∀ i w, (words l.columns)[i]? = some w →
    (ctr (digitKey d, i)).map Wrapctr.v = some (numify w)

/-- Those of `netinfo10` hold its six quantities, unless the line is skipped. -/
def OwnQuantities (ignoreInactive : Bool) (s : NetSnapshot)
    (ctr : Bank (Nat × Quantity) (Wrapctr ℚ)) : Prop :=
  ∀ l ∈ s.lines, (!ignoreInactive || l.active) → ∀ d, EndsEth d l.name → ∀ q,
    (ctr (digitKey d, q)).map Wrapctr.v = some (q.pick (fieldNum (splitWs l.columns)))

theorem NetSnapshot.mem_readlines {s : NetSnapshot} {l : NetLine} (hl : l ∈ s.lines) :
    l.text ++ ['\n'] ∈ readlines s.text := by
  rw [s.readlines_text]
  exact List.mem_append_right _ (List.mem_map_of_mem hl)

theorem Netinfo.scan_own {ctr : Bank (Nat × Nat) (Wrapctr ℚ)} {s : NetSnapshot}
    {r : Bank (Nat × Nat) (Wrapctr ℚ) × (Nat → ℚ)} (hn : (lineKeys ethFieldsTrim s.text).Nodup)
    (h : scan ctr s.text = .ok r) : OwnColumns s r.1 := by
  have hkeys : (ifaces s.text).map Prod.fst = lineKeys ethFieldsTrim s.text := by
    rw [ifaces, lineKeys, List.map_filterMap]
    simp [Function.comp_def]
  rw [scan_eq_feed] at h
  intro l hl d hd i w hw
  have hacc := l.accept_iff.mpr ⟨d, hd, rfl⟩
  have hrow : (digitKey d, (words l.columns).map numify) ∈ ifaces s.text := by
    refine List.mem_filterMap.mpr ⟨_, s.mem_readlines hl, ?_⟩
    rw [l.ethFieldsTrim_text, hacc]
    rfl
  have hmem : ((digitKey d, i), numify w) ∈ (ifaces s.text).flatMap columnCells :=
    List.mem_flatMap.mpr ⟨_, hrow, mem_columnCells.mpr ⟨rfl, by simp [hw]⟩⟩
  exact feed_own_readings (nodup_columnCells (hkeys ▸ hn)) h _ hmem

theorem Netinfo10.scan_own {ig : Bool} {ctr : Bank (Nat × Quantity) (Wrapctr ℚ)} {past : Past}
    {s : NetSnapshot} {st : WindowScan} (hn : (lineKeys (liveFields ig) s.text).Nodup)
    (h : windowScan ig ctr past s.text = .ok st) : OwnQuantities ig s st.ctr := by
  have hkeys : (liveIfaces ig s.text).map Prod.fst = lineKeys (liveFields ig) s.text := by
    rw [liveIfaces, lineKeys, List.map_filterMap]
  rw [windowScan, foldlM_windowLine] at h
  obtain ⟨r, hr, rfl⟩ := map_eq_ok.mp h
  intro l hl hlive d hd q
  have hrow : (digitKey d, splitWs l.columns) ∈ liveIfaces ig s.text := by
    refine List.mem_filterMap.mpr ⟨_, s.mem_readlines hl, ?_⟩
    rw [l.liveFields_text, if_pos hlive, l.accept_iff.mpr ⟨d, hd, rfl⟩]
    rfl
  have hmem : ((digitKey d, q), q.pick (fieldNum (splitWs l.columns))) ∈
      (liveIfaces ig s.text).flatMap fun p => windowReadings p.1 p.2 :=
    List.mem_flatMap.mpr ⟨_, hrow, mem_windowReadings.mpr ⟨rfl, rfl⟩⟩
  exact feed_own_readings (nodup_windowReadings (hkeys ▸ hn)) hr _ hmem

theorem Netinfo.getdata_own {self : Netinfo} {s : NetSnapshot} {t : Int}
    {r : Netinfo × List (Text × ℚ)} (hn : (lineKeys ethFieldsTrim s.text).Nodup)
    (h : self.getdata (t, s.text) = .ok r) : OwnColumns s r.1.ctr := by
  obtain ⟨x, hx, h⟩ := bind_eq_ok.mp h
  obtain ⟨st, hst, hx⟩ := bind_eq_ok.mp hx
  obtain ⟨rates, -, hx⟩ := bind_eq_ok.mp hx
  cases hx
  cases h
  exact Netinfo.scan_own hn hst

/-- The counters of `netinfo2` are those that `netinfo` would have. -/
theorem Netinfo2.getdata_own {self : Netinfo2} {s : NetSnapshot} {t : Int}
    {r : Netinfo2 × List (Text × ℚ)} (hn : (lineKeys ethFieldsTrim s.text).Nodup)
    (h : self.getdata (t, s.text) = .ok r) : OwnColumns s r.1.ctr := by
  obtain ⟨x, hx, h⟩ := bind_eq_ok.mp h
  obtain ⟨st, hst, hx⟩ := bind_eq_ok.mp hx
  cases hx
  cases h
  have htwin := Summed.scan (elapsed_ne_zero self.lastTstamp t) self.ctr s.text
  obtain ⟨st', hst', hsame⟩ := htwin.symm.of_ok hst
  exact hsame.ctr ▸ Netinfo.scan_own hn hst'

theorem Netinfo10.getdata_own {vars : Vars} {self : Netinfo10} {s : NetSnapshot} {t : Int}
    {r : Netinfo10 × List (Text × ℚ)}
    (hn : (lineKeys (liveFields vars.ignoreInactive) s.text).Nodup)
    (h : Netinfo10.getdata vars self (t, s.text) = .ok r) :
    OwnQuantities vars.ignoreInactive s r.1.ctr := by
  obtain ⟨x, hx, h⟩ := bind_eq_ok.mp h
  obtain ⟨st, hst, hx⟩ := bind_eq_ok.mp hx
  obtain ⟨hist, -, hx⟩ := bind_eq_ok.mp hx
  obtain ⟨out, -, hx⟩ := bind_eq_ok.mp hx
  cases hx
  cases h
  exact Netinfo10.scan_own hn hst

/-- **Different interfaces, different counters.**  The keys of the lines that
`netinfo` and `netinfo2` accept, in `new` and in `getdata`, are pairwise
different exactly if no two of the names end in `eth` or `em` and the same digit;
for `netinfo10` only the lines count that it does not skip.  Then, whatever an
object held before, a call that completes leaves each line its own readings for
the next one. -/
theorem keys_apart_iff (s : NetSnapshot) :
    ((lineKeys ethFields s.text).Nodup ↔ NamesApart (s.lines.map NetLine.name)) ∧
    ((lineKeys ethFieldsTrim s.text).Nodup ↔ NamesApart (s.lines.map NetLine.name)) ∧
    (∀ ig, (lineKeys (liveFields ig) s.text).Nodup ↔
      NamesApart ((s.lines.filter fun l => !ig || l.active).map NetLine.name)) ∧
    (NamesApart (s.lines.map NetLine.name) →
      (∀ (self : Netinfo) t r, self.getdata (t, s.text) = .ok r → OwnColumns s r.1.ctr) ∧
      ∀ (self : Netinfo2) t r, self.getdata (t, s.text) = .ok r → OwnColumns s r.1.ctr) ∧
    ∀ vars, NamesApart ((s.lines.filter fun l => !vars.ignoreInactive || l.active).map
        NetLine.name) → ∀ (self : Netinfo10) t r, Netinfo10.getdata vars self (t, s.text) = .ok r →
      OwnQuantities vars.ignoreInactive s r.1.ctr := by
  have hplain := nodup_lineKeys_iff s ethFields (fun _ => true) (fun l => splitWs l.columns)
    (fun line hl => by rw [ethFields, capture_ethLine, hl]; rfl) fun l => l.ethFields_text
  have htrim := nodup_lineKeys_iff s ethFieldsTrim (fun _ => true) (fun l => words l.columns)
    (fun line hl => by rw [ethFieldsTrim, capture_ethLineTrim, hl]; rfl)
    fun l => l.ethFieldsTrim_text
  have hlive := fun ig => nodup_lineKeys_iff s (liveFields ig) (fun l => !ig || l.active)
    (fun l => splitWs l.columns)
    (fun line hl => by rw [liveFields, ethFields, capture_ethLine, hl]; rfl)
    fun l => l.liveFields_text ig
  rw [List.filter_true] at hplain htrim
  refine ⟨hplain, htrim, hlive, fun hapart => ⟨?_, ?_⟩, ?_⟩
  · exact fun self t r hr => Netinfo.getdata_own (htrim.mpr hapart) hr
  · exact fun self t r hr => Netinfo2.getdata_own (htrim.mpr hapart) hr
  · exact fun vars hapart self t r hr =>
      Netinfo10.getdata_own ((hlive vars.ignoreInactive).mpr hapart) hr

/-- Two network cards, named by an old and by a new rule. -/
def twoCards : NetSnapshot where
  headers := ["Inter-|   Receive  |  Transmit".toList]
  lines :=
    [⟨List.replicate 2 ' ', "eth0".toList, "50000000 2 0 0 0 0 0 0 7 1 0 0 0 0 0 0".toList,
        List.all_iff_forall_prop.mp (by decide), List.all_iff_forall_prop.mp (by decide),
        List.all_iff_forall_prop.mp (by decide)⟩,
      ⟨List.replicate 3 ' ', "em0".toList, "70000000 3 0 0 0 0 0 0 4 4 0 0 0 0 0 0".toList,
        List.all_iff_forall_prop.mp (by decide), List.all_iff_forall_prop.mp (by decide),
        List.all_iff_forall_prop.mp (by decide)⟩]
  headers_plain := by decide

/-- Both cards reach key 0, and bytes are counted although neither card has
received any. -/
theorem two_cards_one_key :
    (twoCards.lines.map NetLine.name).Nodup ∧ lineKeys ethFieldsTrim twoCards.text = [0, 0] ∧
      lineKeys ethFields twoCards.text = [0, 0] ∧
      ¬ (lineKeys ethFieldsTrim twoCards.text).Nodup ∧ ¬ (lineKeys ethFields twoCards.text).Nodup ∧
      ∃ r, Netinfo.scan (newCtr twoCards.text) twoCards.text = .ok r ∧ r.2 0 ≠ 0 := by
  have htrim : lineKeys ethFieldsTrim twoCards.text = [0, 0] := by decide +kernel
  have hplain : lineKeys ethFields twoCards.text = [0, 0] := by decide +kernel
  refine ⟨by decide, htrim, hplain, by rw [htrim]; decide, by rw [hplain]; decide, ?_⟩
  have hbytes : (Netinfo.scan (newCtr twoCards.text) twoCards.text).toOption.map (fun r => r.2 0) =
      some (2 ^ 64 + 39999999) := by decide +kernel
  cases h : Netinfo.scan (newCtr twoCards.text) twoCards.text with
  | error e => rw [h] at hbytes; cases hbytes
  | ok r =>
      rw [h] at hbytes
      refine ⟨r, rfl, ?_⟩
      rw [show r.2 0 = 2 ^ 64 + 39999999 from Option.some.inj hbytes]
      norm_num

end Memrec
