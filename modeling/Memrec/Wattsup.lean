import Memrec.CLang
import Memrec.Text

/-!
# The packets of the power meter

`wattsup` talks to its meter in packets `#c,s,n,f1,...,fn;` of a command, a
subcommand and `n` parameters.  `wu_write` builds a packet in a buffer of 256 bytes, and
`parse_packet` takes one apart in the buffer that `read` has filled.

* `parsePacket_buffer`: what has been built is read back, whatever follows it, except
  for a packet without parameters, whose number no comma follows.
-/

namespace Memrec.Wattsup

open CLang

/-- `wu_strlen`. -/
def wuStrlen : Nat := 256

/-- `wu_num_fields`. -/
def wuNumFields : Nat := 18

/-- `struct wu_packet`, without its buffer and its labels.  `count` is the length of the
list. -/
structure WuPacket where
  cmd : UInt8
  subCmd : UInt8
  field : List CStr
  field_le : field.length ≤ wuNumFields
  deriving DecidableEq

/-- What the language leaves undefined. -/
inductive Fault
  /-- `p->field[i] = s` behind the end of the array. -/
  | overrun
  deriving DecidableEq

/-! ## `wu_write` -/

/-- The loop over the parameters, and the end of the packet; `none` is `EOVERFLOW`. -/
def putFields (buf : CStr) : List CStr → Option CStr
  | [] => some (buf ++ [chr ';'])
  | f :: fs =>
      if buf.length + f.length + 4 ≥ wuStrlen then none
      else putFields (buf ++ chr ',' :: f) fs

/-- What `sprintf` puts in front of the parameters. -/
def WuPacket.head (p : WuPacket) : CStr :=
  chr '#' :: p.cmd :: chr ',' :: p.subCmd :: chr ',' ::
    (Perl.decimal p.field.length).map chr

/-- `p->buf`, as `wu_write` leaves it. -/
def WuPacket.buffer (p : WuPacket) : Option CStr := putFields p.head p.field

/-! ## `parse_packet` -/

/-- `strpbrk( s, ",;" )` finds this. -/
def isSep (c : UInt8) : Bool := c == chr ',' || c == chr ';'

/-- The loop over `n` parameters, for which there is `room`. -/
def readFields : Nat → (room : Nat) → CStr →
    Except Fault (Option { fs : List CStr // fs.length ≤ room })
  | 0, _, _ => pure (some ⟨[], Nat.zero_le _⟩)
  | n + 1, room, s =>
      -- "Malformed parameter string", unless it is the last one
      if s.all (fun c => !isSep c) ∧ n ≠ 0 then pure none
      else match room with
        | 0 => throw .overrun
        | room + 1 => do
            let fs ← readFields n room ((s.dropWhile fun c => !isSep c).drop 1)
            let f := (s.takeWhile fun c => !isSep c).dropWhile isspace
            pure (fs.map fun fs => ⟨f :: fs.1, Nat.succ_le_succ fs.2⟩)

/-- What is in front of the first `c`, and what is behind it. -/
def strchrSplit (c : Char) (s : CStr) : Option (CStr × CStr) :=
  match s.dropWhile (· != chr c) with
  | [] => none
  | _ :: rest => some (s.takeWhile (· != chr c), rest)

/-- `parse_packet`, `none` being `EFAULT`.  A buffer of 256 bytes is ended by the byte
behind it. -/
def parsePacket (buf : CStr) : Except Fault (Option WuPacket) :=
  match strchrSplit '#' (buf.takeWhile (· != 0)) with
  | none => pure none
  | some (_, s) =>
  match strchrSplit ',' s with
  | none => pure none
  | some (_, s₁) =>
  match strchrSplit ',' s₁ with
  | none => pure none
  | some (_, s₂) =>
  match strchrSplit ',' s₂ with
  | none => pure none
  | some (n, s₃) => do
      let fs ← readFields ((atoi n) % 2 ^ 32).toNat wuNumFields s₃
      pure (fs.map fun fs => ⟨charAt s 0, charAt s₁ 0, fs.1, fs.2⟩)

/-! ## Round trip -/

/-- A packet in which nothing looks like the end of something. -/
structure Plain (p : WuPacket) : Prop where
  cmd : p.cmd ≠ 0 ∧ p.cmd ≠ chr ','
  subCmd : p.subCmd ≠ 0 ∧ p.subCmd ≠ chr ','
  field : ∀ f ∈ p.field, ∀ c ∈ f, c ≠ 0 ∧ isSep c = false
  start : ∀ f ∈ p.field, ∀ c ∈ f.head?, isspace c = false

/-- The parameters, each with what stands in front of it. -/
def listed (fs : List CStr) : CStr := fs.flatMap fun f => chr ',' :: f

theorem putFields_eq {fs : List CStr} {buf out : CStr} (h : putFields buf fs = some out) :
    out = buf ++ (listed fs ++ [chr ';']) := by
  induction fs generalizing buf with
  | nil => exact (Option.some.inj h).symm
  | cons f fs ih =>
      rw [putFields] at h
      split at h
      · cases h
      · rw [ih h, listed, listed, List.flatMap_cons]
        simp only [List.append_assoc, List.cons_append]

/-- Nothing is written behind the end of the buffer. -/
theorem putFields_length {fs : List CStr} {buf out : CStr} (hbuf : buf.length + 1 < wuStrlen)
    (h : putFields buf fs = some out) : out.length < wuStrlen := by
  induction fs generalizing buf with
  | nil =>
      rw [← Option.some.inj h, List.length_append]
      exact hbuf
  | cons f fs ih =>
      rw [putFields] at h
      split at h
      · cases h
      · rename_i hroom
        refine ih ?_ h
        rw [List.length_append, List.length_cons]
        omega

theorem strchrSplit_append {c : Char} {a : CStr} (h : ∀ x ∈ a, x ≠ chr c) (b : CStr) :
    strchrSplit c (a ++ chr c :: b) = some (a, b) := by
  have hp : ∀ x ∈ a, (x != chr c) = true := fun x hx => bne_iff_ne.mpr (h x hx)
  unfold strchrSplit
  rw [List.dropWhile_append_of_pos hp, List.takeWhile_append_of_pos hp]
  simp

/-- One parameter, up to the character that ends it. -/
theorem readFields_cons {f : CStr} (hsep : ∀ c ∈ f, isSep c = false)
    (hstart : ∀ c ∈ f.head?, isspace c = false) {c : UInt8} (hc : isSep c = true)
    {n room : Nat} {s : CStr} {fs : List CStr} (hroom : fs.length ≤ room)
    (h : readFields n room s = .ok (some ⟨fs, hroom⟩)) :
    readFields (n + 1) (room + 1) (f ++ c :: s) =
      .ok (some ⟨f :: fs, Nat.succ_le_succ hroom⟩) := by
  have hp : ∀ x ∈ f, (!isSep x) = true := by
    intro x hx
    rw [hsep x hx]
    rfl
  have hend : ¬ ((f ++ c :: s).all (fun c => !isSep c) ∧ n ≠ 0) := by
    intro ⟨hall, _⟩
    have := List.all_eq_true.mp hall c (by simp)
    simp [hc] at this
  have hskip : f.dropWhile isspace = f := by
    cases f with
    | nil => rfl
    | cons x f => exact List.dropWhile_cons_of_neg (by simp [hstart x rfl])
  have htake : (f ++ c :: s).takeWhile (fun c => !isSep c) = f := by
    rw [List.takeWhile_append_of_pos hp, List.takeWhile_cons_of_neg (by simp [hc]),
      List.append_nil]
  have hdrop : (f ++ c :: s).dropWhile (fun c => !isSep c) = c :: s := by
    rw [List.dropWhile_append_of_pos hp, List.dropWhile_cons_of_neg (by simp [hc])]
  rw [readFields, if_neg hend, htake, hdrop, hskip, List.drop_one, List.tail_cons, h]
  rfl

/-- **The loop over the parameters.**  The induction is on what is left of them; each
is ended by the comma of the next one, and the last by the semicolon. -/
theorem readFields_listed {fs : List CStr} {f : CStr}
    (hsep : ∀ g ∈ f :: fs, ∀ c ∈ g, isSep c = false)
    (hstart : ∀ g ∈ f :: fs, ∀ c ∈ g.head?, isspace c = false) {room : Nat}
    (hroom : fs.length ≤ room) (tail : CStr) :
    readFields (fs.length + 1) (room + 1) (f ++ (listed fs ++ chr ';' :: tail)) =
      .ok (some ⟨f :: fs, Nat.succ_le_succ hroom⟩) := by
  induction fs generalizing f room with
  | nil =>
      exact readFields_cons (hsep f List.mem_cons_self) (hstart f List.mem_cons_self)
        (by decide) (Nat.zero_le room) rfl
  | cons g fs ih =>
      cases room with
      | zero => exact absurd hroom (Nat.not_succ_le_zero _)
      | succ room =>
          have hrest := ih (fun x hx => hsep x (List.mem_cons_of_mem f hx))
            (fun x hx => hstart x (List.mem_cons_of_mem f hx)) (Nat.le_of_succ_le_succ hroom)
          have hlist : listed (g :: fs) ++ chr ';' :: tail =
              chr ',' :: (g ++ (listed fs ++ chr ';' :: tail)) := by
            simp only [listed, List.flatMap_cons, List.append_assoc, List.cons_append]
          rw [hlist]
          exact readFields_cons (hsep f List.mem_cons_self) (hstart f List.mem_cons_self)
            (by decide) hroom hrest

/-- The number of parameters is read back, and is not mistaken for an end. -/
theorem count_read {n : Nat} (h : n ≤ wuNumFields) :
    (atoi ((Perl.decimal n).map chr) % 2 ^ 32).toNat = n ∧
      ∀ x ∈ (Perl.decimal n).map chr, x ≠ 0 ∧ x ≠ chr ',' := by
  have hall : ∀ n < 19, (atoi ((Perl.decimal (n : Nat)).map chr) % 2 ^ 32).toNat = n ∧
      ∀ x ∈ (Perl.decimal (n : Nat)).map chr, x ≠ 0 ∧ x ≠ chr ',' := by
    decide +kernel
  exact hall n (Nat.lt_succ_of_le h)

/-- Up to the number of parameters. -/
theorem strchrSplit_head {p : WuPacket} (hp : Plain p) (s : CStr) :
    ∃ s₁ s₂ s₃, strchrSplit '#' (p.head ++ s) = some ([], s₁) ∧
      strchrSplit ',' s₁ = some ([p.cmd], s₂) ∧ strchrSplit ',' s₂ = some ([p.subCmd], s₃) ∧
      charAt s₁ 0 = p.cmd ∧ charAt s₂ 0 = p.subCmd ∧
      s₃ = (Perl.decimal p.field.length).map chr ++ s := by
  refine ⟨_, _, _, strchrSplit_append (a := []) (by simp) _,
    strchrSplit_append (a := [p.cmd]) ?_ _, strchrSplit_append (a := [p.subCmd]) ?_ _,
    rfl, rfl, rfl⟩
  · intro x hx
    rw [List.mem_singleton.mp hx]
    exact hp.cmd.2
  · intro x hx
    rw [List.mem_singleton.mp hx]
    exact hp.subCmd.2

theorem ne_zero_of_mem_buffer {p : WuPacket} (hp : Plain p) {out : CStr}
    (h : p.buffer = some out) : ∀ x ∈ out, x ≠ 0 := by
  obtain ⟨-, hdigits⟩ := count_read p.field_le
  have hlisted : ∀ x ∈ listed p.field, x ≠ 0 := by
    intro x hx
    obtain ⟨f, hf, hx⟩ := List.mem_flatMap.mp hx
    rcases List.mem_cons.mp hx with rfl | hx
    · decide
    · exact (hp.field f hf x hx).1
  rw [putFields_eq h]
  intro x hx
  simp only [WuPacket.head, List.mem_append, List.mem_cons, List.not_mem_nil, or_false] at hx
  rcases hx with (rfl | rfl | rfl | rfl | rfl | hx) | hx | rfl
  · decide
  · exact hp.cmd.1
  · decide
  · exact hp.subCmd.1
  · decide
  · exact (hdigits x hx).1
  · exact hlisted x hx
  · decide

/-- **Round trip.**  What `wu_write` builds fits into its buffer, and `parse_packet` reads
the packet back from it whatever follows, except that it finds no packet where there
are no parameters. -/
theorem parsePacket_buffer {p : WuPacket} (hp : Plain p) {out : CStr} (h : p.buffer = some out) :
    out.length < wuStrlen ∧
      (p.field ≠ [] → ∀ tail, parsePacket (out ++ tail) = .ok (some p)) ∧
      (p.field = [] → parsePacket out = .ok none) := by
  have hzero := ne_zero_of_mem_buffer hp h
  have hnz : ∀ x ∈ out, (x != 0) = true := fun x hx => bne_iff_ne.mpr (hzero x hx)
  obtain ⟨hatoi, hdigits⟩ := count_read p.field_le
  have hcomma : ∀ x ∈ (Perl.decimal p.field.length).map chr, x ≠ chr ',' :=
    fun x hx => (hdigits x hx).2
  refine ⟨?_, ?_, ?_⟩
  · apply putFields_length _ h
    have hall : ∀ n < 19, (Perl.decimal (n : Nat)).length ≤ 2 := by decide +kernel
    have := hall _ (Nat.lt_succ_of_le p.field_le)
    simp only [WuPacket.head, List.length_cons, List.length_map, wuStrlen]
    omega
  · intro hne tail
    obtain ⟨f, fs, hfield⟩ := List.exists_cons_of_ne_nil hne
    have hcut : (out ++ tail).takeWhile (· != 0) =
        p.head ++ (chr ',' :: (f ++ (listed fs ++ chr ';' :: tail.takeWhile (· != 0)))) := by
      rw [List.takeWhile_append_of_pos hnz, putFields_eq h, hfield]
      simp only [listed, List.flatMap_cons, List.append_assoc, List.cons_append, List.nil_append]
    obtain ⟨s₁, s₂, s₃, h₁, h₂, h₃, hcmd, hsub, rfl⟩ := strchrSplit_head hp
      (chr ',' :: (f ++ (listed fs ++ chr ';' :: tail.takeWhile (· != 0))))
    have hroom : fs.length ≤ 17 := by
      have := p.field_le
      rw [hfield, List.length_cons, wuNumFields] at this
      omega
    have hfields : readFields (fs.length + 1) wuNumFields
        (f ++ (listed fs ++ chr ';' :: tail.takeWhile (· != 0))) =
          .ok (some ⟨f :: fs, Nat.succ_le_succ hroom⟩) :=
      readFields_listed (fun g hg c hc => (hp.field g (hfield ▸ hg) c hc).2)
        (fun g hg => hp.start g (hfield ▸ hg)) hroom _
    have hcount : (atoi ((Perl.decimal p.field.length).map chr) % 2 ^ 32).toNat =
        fs.length + 1 := by
      rw [hatoi, hfield, List.length_cons]
    unfold parsePacket
    rw [hcut, h₁]
    dsimp only
    rw [h₂]
    dsimp only
    rw [h₃]
    dsimp only
    rw [strchrSplit_append hcomma]
    dsimp only
    rw [hcount, hfields, hcmd, hsub]
    obtain ⟨cmd, subCmd, field, hle⟩ := p
    obtain rfl := hfield
    rfl
  · intro hnil
    have hcut : out.takeWhile (· != 0) = p.head ++ [chr ';'] := by
      rw [List.takeWhile_eq_self_iff.mpr hnz, putFields_eq h, hnil]
      rfl
    obtain ⟨s₁, s₂, s₃, h₁, h₂, h₃, -, -, rfl⟩ := strchrSplit_head hp [chr ';']
    have hnone : strchrSplit ',' ((Perl.decimal p.field.length).map chr ++ [chr ';']) = none := by
      rw [hnil]
      decide
    unfold parsePacket
    rw [hcut, h₁]
    dsimp only
    rw [h₂]
    dsimp only
    rw [h₃]
    dsimp only
    rw [hnone]
    rfl

/-- The packet that starts the logging. -/
theorem parsePacket_buffer_log :
    parsePacket (cstr "#L,W,3,E,1,1;\r\n") =
      .ok (some ⟨chr 'L', chr 'W', [cstr "E", cstr "1", cstr "1"], by decide⟩) := by
  have hp : Plain ⟨chr 'L', chr 'W', [cstr "E", cstr "1", cstr "1"], by decide⟩ := by
    refine ⟨by decide, by decide, by decide +kernel, by decide +kernel⟩
  have h : WuPacket.buffer ⟨chr 'L', chr 'W', [cstr "E", cstr "1", cstr "1"], by decide⟩ =
      some (cstr "#L,W,3,E,1,1;") := by decide
  exact (parsePacket_buffer hp h).2.1 (by decide) (cstr "\r\n")

end Memrec.Wattsup
