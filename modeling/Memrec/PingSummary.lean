import Memrec.HashTable
import Memrec.Prep

/-!
# The summary of a ping

`mountchk` and `ping` look at the line in which `ping` counts its packets.  The two
numbers are captured by one character each: the last digit of the number of packets
sent, and the number of packets received if it has one digit.  With more digits there
the line is not recognised at all.

One packet is what both modules send by default.  `summary_iff` says for which numbers
the verdict is right.
-/

namespace Memrec

open Perl Pat Hash

/-! ## `mountchk` -/

namespace Mountchk

/-- The variables of the package. -/
structure Vars where
  pingCmd : Text
  pingArgs : Text

/-- `mountchk->prep( key, val )`. -/
def prep (vars : Vars) (key val : Text) : Vars :=
  if key = "ping_cmd".toList then { vars with pingCmd := val }
  else if key = "ping_args".toList then { vars with pingArgs := val }
  else vars

/-- `split( /\s/, $_ )`. -/
def splitSpace (line : Text) : List Text := (line.splitOnP isSpace).rdropWhile List.isEmpty

/-- `%avail`: what is mounted where. -/
def avail (mounts : Text) : Hash Text Text :=
  storeAll ∅ ((readlines mounts).map fun l => ((splitSpace l).getD 1 [], (splitSpace l).getD 0 []))

/-- `new( ms )`: for every mount to check, what is mounted there; nothing reads as the
empty text. -/
def new (mounts : Text) (ms : List Text) : Hash Text Text :=
  storeAll ∅ (ms.map fun m => ("mnt_".toList ++ m, ((avail mounts).lookup m).getD []))

/-- `^(.*?)\:(.*)`. -/
def hostPattern : Pat Text := do
  let ip ← lazily notNl
  lit [':']
  let _ ← many notNl
  pure ip

/-- `s/^(.*?)\:(.*)/$1/`. -/
def address (v : Text) : Text :=
  match (hostPattern v).head? with
  | some (ip, rest) => ip ++ rest
  | none => v

/-- The command that pings the host of a mount. -/
def command (vars : Vars) (v : Text) : Text :=
  vars.pingCmd ++ ' ' :: (vars.pingArgs ++ ' ' :: address v)

/-- The body of the loop over the lines of `ping`. -/
def scanLine (vv : ℚ) (line : Text) : ℚ :=
  match capture Ping.countLine line with
  | some c => if numify [c.1] = numify [c.2] then 1 else -1
  | none => vv

/-- `$vv` for a mount; `sh` is the output of a command. -/
def verdict (sh : Text → Text) (vars : Vars) (v : Text) : ℚ :=
  if (atStart (cls Char.isDigit) v).isSome then
    (readlines (sh (command vars v))).foldl scanLine 0
  else 0

/-- `s/\//_/g`. -/
def publishedKey (k : Text) : Text := k.map fun c => if c = '/' then '_' else c

/-- `getdata`: the data hash afterwards. -/
def getdata (sh : Text → Text) (vars : Vars) (self : Hash Text Text) (walk : Walk Text Text)
    (dref : Hash Text Scalar) : Hash Text Scalar :=
  storeAll dref ((walk.list self).map fun e => (publishedKey e.1, .num (verdict sh vars e.2)))

/-- A mount is published with its verdict, unless another one has the same name but for
slashes and underscores. -/
theorem lookup_getdata (sh : Text → Text) (vars : Vars) {self : Hash Text Text}
    (walk : Walk Text Text) (dref : Hash Text Scalar) {k v : Text} (hk : self.lookup k = some v)
    (hone : ∀ k' v', self.lookup k' = some v' → publishedKey k' = publishedKey k → k' = k) :
    (getdata sh vars self walk dref).lookup (publishedKey k) =
      some (.num (verdict sh vars v)) := by
  have hmem : (publishedKey k, Scalar.num (verdict sh vars v)) ∈
      (walk.list self).map fun e => (publishedKey e.1, Scalar.num (verdict sh vars e.2)) :=
    List.mem_map.mpr ⟨(k, v), walk.mem_iff.mpr hk, rfl⟩
  refine lookup_storeAll_of_mem hmem ?_ dref
  intro w hw
  obtain ⟨⟨k', v'⟩, he, heq⟩ := List.mem_map.mp hw
  obtain ⟨hkey, rfl⟩ := Prod.mk.inj heq
  have hk' := walk.mem_iff.mp he
  obtain rfl := hone k' v' hk' hkey
  obtain rfl := Option.some.inj (hk.symm.trans hk')
  rfl

end Mountchk

/-! ## Outputs of `ping` -/

/-- The output of `ping` that has sent `t` packets and received `r`: the lines before the
summary, the summary with what follows the two numbers, and the lines after it, which
are no replies. -/
structure PingOutput (t r : Nat) where
  before : List Text
  rest : Text
  after : List Text
  line : ∀ l ∈ before ++ rest :: after, '\n' ∉ l
  once : ∀ l ∈ before ++ rest :: after, ¬ " packets transmitted, ".toList <:+: l
  replies : ∀ l ∈ rest :: after, ¬ "bytes from".toList <:+: l

variable {t r : Nat}

/-- The summary: `t packets transmitted, r received` and the rest. -/
def PingOutput.summary (o : PingOutput t r) : Text :=
  decimal t ++ (" packets transmitted, ".toList ++ (decimal r ++ (" received".toList ++ o.rest)))

/-- The whole output. -/
def PingOutput.text (o : PingOutput t r) : Text :=
  (o.before ++ o.summary :: o.after).flatMap (· ++ ['\n'])

/-- What the last reply reads, or the value for no reply. -/
def PingOutput.lastReply (o : PingOutput t r) : ℚ :=
  (o.before.filterMap fun l => capture Ping.replyLine (l ++ ['\n'])).getLast?.elim (-1) numify

/-! ## The two expressions -/

/-- Without the text between the numbers, and a character before it, nothing is
captured. -/
theorem capture_countLine_eq_none {s : Text} (h : ¬ " packets transmitted, ".toList <:+: s.tail) :
    capture Ping.countLine s = none := by
  refine capture_eq_none ?_
  intro u hu
  cases u with
  | nil => rfl
  | cons c v =>
      have hv : v <:+ s.tail := by
        obtain ⟨w, rfl⟩ := hu
        cases w with
        | nil => exact List.suffix_refl v
        | cons d w => exact ⟨w ++ [c], by simp⟩
      have hno : ¬ " packets transmitted, ".toList <+: v :=
        fun hp => h (hp.isInfix.trans hv.isInfix)
      by_cases hc : notNl c = true
      · rw [Ping.countLine, cls_bind_cons hc, bind_apply, lit_eq_nil hno]
        rfl
      · rw [Ping.countLine, bind_apply, cls_cons, if_neg hc]
        rfl

/-- A line without `bytes from` is not a reply. -/
theorem capture_replyLine_eq_none {s : Text} (h : ¬ "bytes from".toList <:+: s) :
    capture Ping.replyLine s = none :=
  capture_lit_bind_eq_none h

/-- Digits before the last one are skipped. -/
theorem capture_countLine_digits {ds : Text} (hds : ∀ d ∈ ds, d.isDigit) {c : Char}
    (hc : c.isDigit) (s : Text) :
    capture Ping.countLine (ds ++ c :: s) = capture Ping.countLine (c :: s) := by
  induction ds with
  | nil => rfl
  | cons d ds ih =>
      have hnext : ∃ e w, ds ++ c :: s = e :: w ∧ e ≠ ' ' := by
        have hne : ∀ e : Char, e.isDigit → e ≠ ' ' := by
          rintro e he rfl
          exact absurd he (by decide)
        cases ds with
        | nil => exact ⟨c, s, rfl, hne c hc⟩
        | cons e ds => exact ⟨e, ds ++ c :: s, rfl, hne e (hds e (by simp))⟩
      obtain ⟨e, w, hew, he⟩ := hnext
      have hno : ¬ " packets transmitted, ".toList <+: ds ++ c :: s := by
        rw [hew]
        rintro ⟨x, hx⟩
        exact he (List.cons.inj hx).1.symm
      have hd : notNl d = true := notNl_of_isDigit (hds d (by simp))
      have hnil : Ping.countLine (d :: (ds ++ c :: s)) = [] := by
        rw [Ping.countLine, cls_bind_cons hd, bind_apply, lit_eq_nil hno]
        rfl
      rw [List.cons_append, capture_skip hnil, ih fun x hx => hds x (List.mem_cons_of_mem d hx)]

/-- One character of the number of packets received has to be all of it. -/
theorem countLine_digits {c : Char} (hc : c.isDigit) (r : Nat) (s : Text) :
    (Ping.countLine (c :: (" packets transmitted, ".toList ++
      (decimal r ++ (" received".toList ++ s))))).head? =
      if r < 10 then some ((c, r.digitChar), s) else none := by
  have hstart : Ping.countLine (c :: (" packets transmitted, ".toList ++
      (decimal r ++ (" received".toList ++ s)))) =
      (cls notNl >>= fun b => lit " received".toList >>= fun _ => pure (c, b))
        (decimal r ++ (" received".toList ++ s)) := by
    rw [Ping.countLine, cls_bind_cons (notNl_of_isDigit hc), lit_bind_append]
  rw [hstart]
  by_cases hr : r < 10
  · have hdigit : notNl r.digitChar := notNl_of_isDigit (isDigit_digitChar hr)
    rw [if_pos hr, decimal_of_lt hr, List.singleton_append, cls_bind_cons hdigit,
      lit_bind_append]
    rfl
  · obtain ⟨d, e, ds, hdec, hd, he⟩ := exists_decimal_cons_cons (n := r) (by omega)
    have hno : ¬ " received".toList <+: e :: (ds ++ (" received".toList ++ s)) := by
      rintro ⟨x, hx⟩
      rw [← (List.cons.inj hx).1] at he
      exact absurd he (by decide)
    rw [if_neg hr, hdec, List.cons_append, List.cons_append, cls_bind_cons (notNl_of_isDigit hd),
      bind_apply, lit_eq_nil hno]
    rfl

/-- **The summary.**  It is captured if the number of packets received has one digit, and
then of the number of packets sent it gives the last digit. -/
theorem PingOutput.capture_summary (o : PingOutput t r) :
    capture Ping.countLine (o.summary ++ ['\n']) =
      if r < 10 then some ((t % 10).digitChar, r.digitChar) else none := by
  obtain ⟨ds, hdec, hds⟩ := exists_decimal_eq t
  have hc : (t % 10).digitChar.isDigit := isDigit_digitChar (Nat.mod_lt t (by decide))
  have hsplit : o.summary ++ ['\n'] = ds ++ (t % 10).digitChar ::
      (" packets transmitted, ".toList ++
        (decimal r ++ (" received".toList ++ (o.rest ++ ['\n'])))) := by
    have hassoc : ∀ a b c d e f : Text, ∀ x : Char,
        ((a ++ [x]) ++ (b ++ (c ++ (d ++ e)))) ++ f = a ++ x :: (b ++ (c ++ (d ++ (e ++ f)))) := by
      intro a b c d e f x
      simp only [List.append_assoc, List.cons_append, List.nil_append]
    rw [PingOutput.summary, hdec]
    exact hassoc _ _ _ _ _ _ _
  have hhead := countLine_digits hc r (o.rest ++ ['\n'])
  rw [hsplit, capture_countLine_digits hds hc]
  by_cases hr : r < 10
  · rw [if_pos hr] at hhead ⊢
    exact capture_here hhead
  · rw [if_neg hr] at hhead ⊢
    rw [capture_skip (List.head?_eq_none_iff.mp hhead)]
    refine capture_countLine_eq_none ?_
    intro hin
    have hskip : " packets transmitted, ".toList <:+: ['p'] ++
        (("ackets transmitted, ".toList ++ (decimal r ++ " received".toList)) ++
          (o.rest ++ ['\n'])) := by
      have hassoc : ∀ a b c d : Text, a ++ (b ++ (c ++ d)) = (a ++ (b ++ c)) ++ d := by
        intro a b c d
        simp only [List.append_assoc]
      rw [← hassoc]
      exact hin
    have hp : 'p' ∉ "ackets transmitted, ".toList ++ (decimal r ++ " received".toList) := by
      intro h
      rcases List.mem_append.mp h with h | h
      · exact absurd h (by decide)
      rcases List.mem_append.mp h with h | h
      · exact notMem_decimal (by decide) (by decide) r h
      · exact absurd h (by decide)
    have hlast : ("ackets transmitted, ".toList ++ (decimal r ++ " received".toList)).getLast? ≠
        some ' ' := by
      rw [← List.append_assoc, List.getLast?_append_of_ne_nil _ (by decide)]
      decide
    have hrest := infix_of_second_notMem hp hlast (infix_of_head_notMem (by decide) hskip)
    exact o.once o.rest (by simp) (infix_of_infix_concat (by decide) (by decide) hrest)

/-! ## The loops -/

variable (o : PingOutput t r)

theorem PingOutput.newline_notMem_summary : '\n' ∉ o.summary := by
  have hnumber : ∀ n : Nat, '\n' ∉ decimal n := fun n => notMem_decimal (by decide) (by decide) n
  intro h
  rcases List.mem_append.mp h with h | h
  · exact hnumber t h
  rcases List.mem_append.mp h with h | h
  · exact absurd h (by decide)
  rcases List.mem_append.mp h with h | h
  · exact hnumber r h
  rcases List.mem_append.mp h with h | h
  · exact absurd h (by decide)
  · exact o.line o.rest (by simp) h

theorem PingOutput.readlines_text :
    readlines o.text = (o.before ++ o.summary :: o.after).map (· ++ ['\n']) := by
  refine readlines_unlines ?_
  intro l hl
  rcases List.mem_append.mp hl with hl | hl
  · exact o.line l (by simp [hl])
  · rcases List.mem_cons.mp hl with rfl | hl
    · exact o.newline_notMem_summary
    · exact o.line l (by simp [hl])

/-- The other lines count no packets. -/
theorem PingOutput.capture_line {l : Text} (hl : l ∈ o.before ++ o.after) :
    capture Ping.countLine (l ++ ['\n']) = none := by
  have hno : ¬ " packets transmitted, ".toList <:+: l := by
    rcases List.mem_append.mp hl with hl | hl
    · exact o.once l (by simp [hl])
    · exact o.once l (by simp [hl])
  refine capture_countLine_eq_none ?_
  intro h
  exact hno (infix_of_infix_concat (by decide) (by decide)
    (h.trans (List.tail_suffix _).isInfix))

theorem numify_digitChar {n : Nat} (h : n < 10) : numify [n.digitChar] = n := by
  rw [← decimal_of_lt h, numify_decimal]

/-- The two captures are compared as numbers. -/
theorem digits_eq_iff (hr : r < 10) :
    numify [(t % 10).digitChar] = numify [r.digitChar] ↔ t % 10 = r := by
  rw [numify_digitChar (Nat.mod_lt t (by decide)), numify_digitChar hr, Nat.cast_inj]

/-- Lines that a loop does not care about. -/
theorem foldl_eq_self {f : ℚ → Text → ℚ} {v : ℚ} {ls : List Text} (h : ∀ l ∈ ls, f v l = v) :
    ls.foldl f v = v := by
  induction ls with
  | nil => rfl
  | cons l ls ih =>
      rw [List.foldl_cons, h l (by simp)]
      exact ih fun m hm => h m (List.mem_cons_of_mem l hm)

/-- What `mountchk` makes of the output. -/
theorem PingOutput.foldl_mountchk :
    (readlines o.text).foldl Mountchk.scanLine 0 =
      if r < 10 then if t % 10 = r then 1 else -1 else 0 := by
  have hother : ∀ (vv : ℚ) (l : Text), l ∈ o.before ++ o.after →
      Mountchk.scanLine vv (l ++ ['\n']) = vv := by
    intro vv l hl
    rw [Mountchk.scanLine, o.capture_line hl]
  have hbefore := foldl_eq_self (f := Mountchk.scanLine) (v := 0)
    (List.forall_mem_map.mpr fun l hl => hother 0 l (List.mem_append_left o.after hl))
  have hafter := fun vv => foldl_eq_self (f := Mountchk.scanLine) (v := vv)
    (List.forall_mem_map.mpr fun l hl => hother vv l (List.mem_append_right o.before hl))
  rw [o.readlines_text, List.map_append, List.map_cons, List.foldl_append, List.foldl_cons,
    hbefore, hafter, Mountchk.scanLine, o.capture_summary]
  by_cases hr : r < 10
  · simp [hr, digits_eq_iff hr]
  · simp [hr]

/-- The summary is no reply. -/
theorem PingOutput.capture_reply_summary :
    capture Ping.replyLine (o.summary ++ ['\n']) = none := by
  refine capture_replyLine_eq_none ?_
  intro h
  have hnumber : ∀ n : Nat, 'b' ∉ decimal n := fun n => notMem_decimal (by decide) (by decide) n
  have hassoc : o.summary ++ ['\n'] =
      (decimal t ++ (" packets transmitted, ".toList ++ (decimal r ++ " received".toList))) ++
        (o.rest ++ ['\n']) := by
    have hregroup : ∀ a b c d e f : Text,
        (a ++ (b ++ (c ++ (d ++ e)))) ++ f = (a ++ (b ++ (c ++ d))) ++ (e ++ f) := by
      intro a b c d e f
      simp only [List.append_assoc]
    exact hregroup _ _ _ _ _ _
  rw [hassoc] at h
  refine o.replies o.rest (by simp) (infix_of_infix_concat (by decide) (by decide)
    (infix_of_head_notMem ?_ h))
  intro hb
  rcases List.mem_append.mp hb with hb | hb
  · exact hnumber t hb
  rcases List.mem_append.mp hb with hb | hb
  · exact absurd hb (by decide)
  rcases List.mem_append.mp hb with hb | hb
  · exact hnumber r hb
  · exact absurd hb (by decide)

/-- The replies before the summary. -/
theorem PingOutput.foldl_before :
    (o.before.map (· ++ ['\n'])).foldl Ping.scanLine (-1) = o.lastReply := by
  have hmain : ∀ ls : List Text, (∀ l ∈ ls, l ∈ o.before) →
      (ls.map (· ++ ['\n'])).foldl Ping.scanLine (-1) =
        (ls.filterMap fun l => capture Ping.replyLine (l ++ ['\n'])).getLast?.elim (-1)
          numify := by
    intro ls
    induction ls using List.reverseRecOn with
    | nil => intro _; rfl
    | append_singleton ls l ih =>
        intro hls
        have ih := ih fun m hm => hls m (by simp [hm])
        have hcount := o.capture_line (List.mem_append_left o.after (hls l (by simp)))
        rw [List.map_append, List.foldl_append, ih, List.filterMap_append]
        cases hreply : capture Ping.replyLine (l ++ ['\n']) with
        | some data => simp [Ping.scanLine, hreply]
        | none => simp [Ping.scanLine, hreply, hcount]
  exact hmain o.before fun l hl => hl

/-- What `ping` makes of the output. -/
theorem PingOutput.foldl_ping :
    (readlines o.text).foldl Ping.scanLine (-1) =
      if r < 10 ∧ t % 10 ≠ r then -1 else o.lastReply := by
  have hline : ∀ (msec : ℚ) (l : Text), l ∈ o.after →
      Ping.scanLine msec (l ++ ['\n']) = msec := by
    intro msec l hl
    have hno : ¬ "bytes from".toList <:+: l ++ ['\n'] := fun h =>
      o.replies l (List.mem_cons_of_mem _ hl) (infix_of_infix_concat (by decide) (by decide) h)
    rw [Ping.scanLine, capture_replyLine_eq_none hno,
      o.capture_line (List.mem_append_right o.before hl)]
  have hafter := fun msec => foldl_eq_self (f := Ping.scanLine) (v := msec)
    (List.forall_mem_map.mpr (hline msec))
  rw [o.readlines_text, List.map_append, List.map_cons, List.foldl_append, List.foldl_cons,
    o.foldl_before, hafter, Ping.scanLine, o.capture_reply_summary, o.capture_summary]
  by_cases hr : r < 10
  · simp only [hr, if_true, true_and, digits_eq_iff hr]
    by_cases ht : t % 10 = r <;> simp [ht]
  · simp [hr]

/-! ## The verdicts -/

/-- What `mountchk` finds for a mount whose host answers with the output. -/
theorem PingOutput.verdict_mountchk {sh : Text → Text} {vars : Mountchk.Vars} {v : Text}
    (hv : (atStart (cls Char.isDigit) v).isSome) (hsh : sh (Mountchk.command vars v) = o.text) :
    Mountchk.verdict sh vars v = if r < 10 then if t % 10 = r then 1 else -1 else 0 := by
  rw [Mountchk.verdict, if_pos hv, hsh, o.foldl_mountchk]

/-- What `ping` stores. -/
theorem PingOutput.getdata_ping {sh : Text → Text} {vars : Ping.Vars} {ip : Text}
    (hsh : sh (Ping.command vars ip) = o.text) :
    (Ping.getdata sh vars ip).2 =
      [("ping".toList, if r < 10 ∧ t % 10 ≠ r then -1 else o.lastReply)] := by
  rw [← o.foldl_ping, ← hsh]
  rfl

/-- The verdict of `mountchk` is right: 1 if all packets have come back, -1 if not. -/
def MountchkRight (vv : ℚ) (t r : Nat) : Prop := (vv = 1 ↔ t = r) ∧ (vv = -1 ↔ t ≠ r)

/-- **Summaries.**  The verdict of `mountchk` is right exactly when the number of packets
received has one digit and is not the last of several digits of the number sent, and it
is published for the mount if no other one has the same name but for slashes.  `ping`
reports a loss exactly when the number received has one digit, which is not the last of
the number sent, or when no reply has left anything else. -/
theorem summary_iff (sh : Text → Text) {t r : Nat} (o : PingOutput t r)
    (mountchk : Mountchk.Vars) {v : Text} (hv : (atStart (cls Char.isDigit) v).isSome)
    (hmount : sh (Mountchk.command mountchk v) = o.text)
    (ping : Ping.Vars) (ip : Text) (hping : sh (Ping.command ping ip) = o.text) :
    (MountchkRight (Mountchk.verdict sh mountchk v) t r ↔ r < 10 ∧ (t < 10 ∨ t % 10 ≠ r)) ∧
    (∀ (self : Hash Text Text) (walk : Walk Text Text) (dref : Hash Text Scalar) (k : Text),
      self.lookup k = some v → (∀ k' v', self.lookup k' = some v' →
        Mountchk.publishedKey k' = Mountchk.publishedKey k → k' = k) →
      (Mountchk.getdata sh mountchk self walk dref).lookup (Mountchk.publishedKey k) =
        some (.num (Mountchk.verdict sh mountchk v))) ∧
    ((t ≠ r → (Ping.getdata sh ping ip).2 = [("ping".toList, -1)]) ↔
      t = r ∨ (r < 10 ∧ t % 10 ≠ r) ∨ o.lastReply = -1) := by
  refine ⟨?_, ?_, ?_⟩
  · rw [o.verdict_mountchk hv hmount, MountchkRight]
    by_cases hr : r < 10
    · by_cases ht : t % 10 = r
      · rw [if_pos hr, if_pos ht]
        norm_num
        omega
      · rw [if_pos hr, if_neg ht]
        norm_num
        omega
    · rw [if_neg hr]
      norm_num
      omega
  · intro self walk dref k hk hone
    exact Mountchk.lookup_getdata sh mountchk walk dref hk hone
  · rw [o.getdata_ping hping]
    by_cases hd : r < 10 ∧ t % 10 ≠ r
    · simp [hd]
    · simp [hd]
      tauto

/-- Eleven packets, of which the first came back. -/
def tenLost : PingOutput 11 1 where
  before := ["64 bytes from 10.0.0.1: icmp_seq=1 ttl=64 time=0.3 ms".toList]
  rest := ", 90% packet loss, time 10012ms".toList
  after := ["rtt min/avg/max/mdev = 0.3/0.3/0.3/0.0 ms".toList]
  line := by decide +kernel
  once := by decide +kernel
  replies := by decide +kernel

/-- Both packages prepared to send eleven packets. -/
def mountchkVars : Mountchk.Vars := ⟨"/bin/ping".toList, "-c 11 -n".toList⟩

def pingVars : Ping.Vars := ⟨"/bin/ping".toList, "-c 11 -n".toList, [], "/bin/ypmatch".toList⟩

/-- What is mounted: a directory of a host in the network. -/
def homeMount : Text := "10.0.0.1:/home".toList

/-- The object that checks this mount alone. -/
def homeSelf : Hash Text Text :=
  Mountchk.new "10.0.0.1:/home /home nfs rw 0 0\n".toList ["/home".toList]

theorem lookup_homeSelf {k v : Text} :
    homeSelf.lookup k = some v ↔ k = "mnt_/home".toList ∧ v = homeMount := by
  have hself : homeSelf = storeAll ∅ [("mnt_/home".toList, homeMount)] := rfl
  rw [hself, lookup_storeAll_empty_iff (by decide), List.mem_singleton, Prod.mk.injEq]

theorem summary_iff_tenLost :
    (MountchkRight (Mountchk.verdict (fun _ => tenLost.text) mountchkVars homeMount) 11 1 ↔
      1 < 10 ∧ (11 < 10 ∨ 11 % 10 ≠ 1)) ∧
    (Mountchk.getdata (fun _ => tenLost.text) mountchkVars homeSelf .kept ∅).lookup
        (Mountchk.publishedKey "mnt_/home".toList) =
      some (.num (Mountchk.verdict (fun _ => tenLost.text) mountchkVars homeMount)) ∧
    ((11 ≠ 1 → (Ping.getdata (fun _ => tenLost.text) pingVars "10.0.0.1".toList).2 =
        [("ping".toList, -1)]) ↔
      11 = 1 ∨ (1 < 10 ∧ 11 % 10 ≠ 1) ∨ tenLost.lastReply = -1) := by
  obtain ⟨hright, hpublished, hping⟩ := summary_iff (fun _ => tenLost.text) tenLost mountchkVars
    (v := homeMount) (by decide) rfl pingVars "10.0.0.1".toList rfl
  refine ⟨hright, hpublished homeSelf .kept ∅ _ (lookup_homeSelf.mpr ⟨rfl, rfl⟩) ?_, hping⟩
  intro k' v' hk' _
  exact (lookup_homeSelf.mp hk').1

/-- Ten of eleven packets are lost.  `mountchk` says that the mount is there, `ping` that
the host answers in 0.3 ms. -/
theorem tenLost_not_reported :
    ¬ MountchkRight (Mountchk.verdict (fun _ => tenLost.text) mountchkVars homeMount) 11 1 ∧
    (Ping.getdata (fun _ => tenLost.text) pingVars "10.0.0.1".toList).2 ≠
      [("ping".toList, -1)] := by
  constructor
  · rintro ⟨h, -⟩
    rw [tenLost.verdict_mountchk (by decide) rfl] at h
    exact absurd (h.mp rfl) (by decide)
  · rw [tenLost.getdata_ping rfl]
    decide +kernel

end Memrec
