import Memrec.HashTable
import Memrec.Pattern

/-!
# The processes that `top` shows

`topwatch` reads one screen of `top`, skips the processes of some users and some
commands, and publishes the processor share and the memory of all the others.  Several
processes may run the same command.  The loop numbers them in `%dup_exe`, and the key of
a process is its command and its number, joined by a colon.

`processes_published` says that no process is lost: the keys of two processes are never
the same, although a command may have colons and digits in it, since a number has no
colon and so the last one is where command and number meet.
-/

namespace Memrec.Topwatch

open Perl Pat Hash

/-! ## The module -/

/-- `$out_type`, and the keys of `%skip_unames` and `%skip_cmds`. -/
structure Vars where
  outType : Text
  skipUnames : List Text
  skipCmds : List Text

/-- The values that the file gives them. -/
def Vars.default : Vars where
  outType := "keyval".toList
  skipUnames := ["root", "rpc", "rpcuser", "splunk", "postfix", "dbus", "ntp", "nobody"].map
    String.toList
  skipCmds := ["bash", "tcsh", "csh", "sh", "sshd"].map String.toList

/-- `prep( key, val )`. -/
def prep (vars : Vars) (key val : Text) : Vars :=
  if key = "skip_uid".toList then { vars with skipUnames := val :: vars.skipUnames }
  else if key = "skip_cmd".toList then { vars with skipCmds := val :: vars.skipCmds }
  else if key = "out_type".toList then { vars with outType := val }
  else vars

/-- `basesubs::convert_to_bytes( v, m )`. -/
def convertToBytes (v : ℚ) (m : Text) : ℚ :=
  if m.any fun c => c == 'k' || c == 'K' then v * 1024
  else if m.any fun c => c == 'm' || c == 'M' then v * (1024 * 1024)
  else if m.any fun c => c == 'g' || c == 'G' then v * (1024 * 1024 * 1024)
  else v

/-- `m/PID\s+USER/`. -/
def headPattern : Pat Unit := do
  lit "PID".toList
  let _ ← many1 isSpace
  lit "USER".toList

/-- The lines that are left after the first loop. -/
def skipHeader : List Text → List Text
  | [] => []
  | l :: ls => if (capture headPattern l).isSome then ls else skipHeader ls

/-- The fields of a process that are read. -/
structure Row where
  uid : Text
  mem : Text
  cpu : Text
  exe : Text
  deriving DecidableEq

/-- `split( /\s+/, $_ )`, without an empty field at the beginning. -/
def fields (line : Text) : List Text :=
  let fld := splitWs (chomp line)
  if fld.getD 0 [] = [] then fld.tail else fld

def row (line : Text) : Row where
  uid := (fields line).getD 1 []
  mem := (fields line).getD 3 []
  cpu := (fields line).getD 6 []
  exe := (fields line).getD 9 []

/-- `$1` of `m/([kKmMgG])$/`, and `k` if it does not match. -/
def unitOf (mem : Text) : Text :=
  match mem.getLast? with
  | some c => if "kKmMgG".toList.contains c then [c] else ['k']
  | none => ['k']

/-- The memory of a process, in bytes. -/
def memBytes (r : Row) : ℚ := convertToBytes (numify r.mem) (unitOf r.mem)

/-- `"$exe:$k"`. -/
def exeKey (exe : Text) (k : Nat) : Text := exe ++ ':' :: decimal k

/-- The variables of the second loop. -/
structure Scan where
  cpuList : Hash Text Text
  memList : Hash Text ℚ
  dupExe : Hash Text Nat

/-- The second loop on a process that is not skipped. -/
def record (st : Scan) (r : Row) : Scan :=
  match st.dupExe.lookup r.exe with
  | some k =>
      { cpuList := st.cpuList.insert (exeKey r.exe k) r.cpu
        memList := st.memList.insert (exeKey r.exe k) (memBytes r)
        dupExe := st.dupExe.insert r.exe (k + 1) }
  | none =>
      { cpuList := st.cpuList.insert (exeKey r.exe 0) r.cpu
        memList := st.memList.insert (exeKey r.exe 0) (memBytes r)
        dupExe := st.dupExe.insert r.exe 1 }

/-- The body of the second loop. -/
def scanRow (vars : Vars) (st : Scan) (r : Row) : Scan :=
  if r.uid ∈ vars.skipUnames then st
  else if r.exe ∈ vars.skipCmds then st
  else if r.exe = [] then st
  else record st r

/-- `getdata` up to the end of the second loop, on the screen that `top` prints. -/
def scan (vars : Vars) (top : Text) : Scan :=
  ((skipHeader (readlines top)).map row).foldl (scanRow vars) ⟨∅, ∅, ∅⟩

/-- `s/,$//`. -/
def dropComma (out : Text) : Text := if out.getLast? = some ',' then out.dropLast else out

/-- The two orders in which `each` lists what was collected. -/
structure Walks where
  cpu : Walk Text Text
  mem : Walk Text ℚ

/-- `getdata`: the data hash afterwards. -/
def getdata (vars : Vars) (walks : Walks) (dref : Hash Text Scalar) (top : Text) :
    Hash Text Scalar :=
  let st := scan vars top
  if vars.outType = "keyval".toList then
    let dref := storeAll dref ((walks.cpu.list st.cpuList).map fun e =>
      ("cpu:".toList ++ e.1, .text e.2))
    storeAll dref ((walks.mem.list st.memList).map fun e => ("mem:".toList ++ e.1, .num e.2))
  else
    let out := (walks.cpu.list st.cpuList).flatMap fun e =>
      if e.1 ≠ [] then e.1 ++ ':' :: (e.2 ++ [',']) else []
    dref.insert "topwatch".toList (.text (dropComma out))

/-! ## What is to be published -/

/-- The processes that are not skipped. -/
def kept (vars : Vars) (top : Text) : List Row :=
  ((skipHeader (readlines top)).map row).filter fun r =>
    r.uid ∉ vars.skipUnames && r.exe ∉ vars.skipCmds && r.exe ≠ []

/-- The key of a process that comes after `pre`: its number is that of the processes
before it that run the same command. -/
def rowKey (pre : List Row) (r : Row) : Text := exeKey r.exe ((pre.map Row.exe).count r.exe)

/-- The data hash `dref'` has an entry for the processor share and one for the memory of
every process, under keys that are all different, has no other such entries, and is
otherwise what `dref` was. -/
structure Published (rows : List Row) (dref dref' : Hash Text Scalar) : Prop where
  cpu : ∀ pre r post, rows = pre ++ r :: post →
    dref'.lookup ("cpu:".toList ++ rowKey pre r) = some (.text r.cpu)
  mem : ∀ pre r post, rows = pre ++ r :: post →
    dref'.lookup ("mem:".toList ++ rowKey pre r) = some (.num (memBytes r))
  distinct : ∀ pre r post pre' r' post', rows = pre ++ r :: post → rows = pre' ++ r' :: post' →
    rowKey pre r = rowKey pre' r' → pre = pre'
  only : ∀ k, k ∈ dref' → "cpu:".toList <+: k ∨ "mem:".toList <+: k →
    ∃ pre r post, rows = pre ++ r :: post ∧
      (k = "cpu:".toList ++ rowKey pre r ∨ k = "mem:".toList ++ rowKey pre r)
  others : ∀ k, ¬ "cpu:".toList <+: k → ¬ "mem:".toList <+: k → dref'.lookup k = dref.lookup k

/-! ## Keys -/

/-- The last colon is where a command and its number meet. -/
theorem exeKey_injective {e e' : Text} {j j' : Nat} (h : exeKey e j = exeKey e' j') :
    e = e' ∧ j = j' :=
  append_decimal_inj (by decide) h

/-- A process that comes later has another key. -/
theorem rowKey_ne (seen mid : List Row) (r r' : Row) :
    rowKey seen r ≠ rowKey (seen ++ r :: mid) r' := by
  intro h
  obtain ⟨hexe, hcount⟩ := exeKey_injective h
  rw [← hexe, List.map_append, List.count_append, List.map_cons, List.count_cons_self] at hcount
  omega

theorem rowKey_distinct {rows pre post pre' post' : List Row} {r r' : Row}
    (h : rows = pre ++ r :: post) (h' : rows = pre' ++ r' :: post')
    (hkey : rowKey pre r = rowKey pre' r') : pre = pre' := by
  have hlong : ∀ {pre mid post post' : List Row} {r r' : Row},
      r :: post = mid ++ r' :: post' → rowKey pre r = rowKey (pre ++ mid) r' → mid = [] := by
    intro pre mid post post' r r' hsplit hkey
    cases mid with
    | nil => rfl
    | cons x mid =>
        obtain ⟨rfl, -⟩ := List.cons.inj hsplit
        exact absurd hkey (rowKey_ne pre mid r r')
  rcases List.append_eq_append_iff.mp (h.symm.trans h') with ⟨mid, rfl, hsplit⟩ | ⟨mid, rfl, hsplit⟩
  · rw [hlong hsplit hkey, List.append_nil]
  · rw [hlong hsplit hkey.symm, List.append_nil]

/-- The processes with their keys, when `seen` came before them. -/
def keyed (seen : List Row) : List Row → List (Text × Row)
  | [] => []
  | r :: rows => (rowKey seen r, r) :: keyed (seen ++ [r]) rows

theorem mem_keyed_iff {seen rows : List Row} {k : Text} {r : Row} :
    (k, r) ∈ keyed seen rows ↔
      ∃ pre post, rows = pre ++ r :: post ∧ k = rowKey (seen ++ pre) r := by
  induction rows generalizing seen with
  | nil => simp [keyed]
  | cons x rows ih =>
      rw [keyed, List.mem_cons, ih]
      constructor
      · rintro (heq | ⟨pre, post, rfl, rfl⟩)
        · obtain ⟨rfl, rfl⟩ := Prod.mk.inj heq
          exact ⟨[], rows, rfl, by rw [List.append_nil]⟩
        · exact ⟨x :: pre, post, rfl, by rw [List.append_assoc, List.singleton_append]⟩
      · rintro ⟨pre, post, hrows, rfl⟩
        cases pre with
        | nil =>
            obtain ⟨rfl, rfl⟩ := List.cons.inj hrows
            rw [List.append_nil]
            exact .inl rfl
        | cons y pre =>
            obtain ⟨rfl, rfl⟩ := List.cons.inj hrows
            exact .inr ⟨pre, post, rfl, by rw [List.append_assoc, List.singleton_append]⟩

theorem nodup_keyed (seen rows : List Row) : ((keyed seen rows).map Prod.fst).Nodup := by
  induction rows generalizing seen with
  | nil => exact List.nodup_nil
  | cons r rows ih =>
      rw [keyed, List.map_cons]
      refine List.nodup_cons.mpr ⟨?_, ih _⟩
      intro hmem
      obtain ⟨e, he, hkey⟩ := List.mem_map.mp hmem
      obtain ⟨pre, post, -, hlater⟩ := mem_keyed_iff.mp (show (e.1, e.2) ∈ _ from he)
      rw [hlater, List.append_assoc, List.singleton_append] at hkey
      exact rowKey_ne seen pre r e.2 hkey.symm

/-! ## The loop -/

/-- The two branches differ in how they write the number of a first process. -/
theorem record_eq (st : Scan) (r : Row) :
    record st r =
      { cpuList := st.cpuList.insert (exeKey r.exe ((st.dupExe.lookup r.exe).getD 0)) r.cpu
        memList := st.memList.insert (exeKey r.exe ((st.dupExe.lookup r.exe).getD 0)) (memBytes r)
        dupExe := st.dupExe.insert r.exe ((st.dupExe.lookup r.exe).getD 0 + 1) } := by
  rw [record]
  cases st.dupExe.lookup r.exe <;> rfl

/-- `%dup_exe` counts the processes of every command. -/
def Counts (dupExe : Hash Text Nat) (seen : List Row) : Prop :=
  ∀ e, (dupExe.lookup e).getD 0 = (seen.map Row.exe).count e

theorem counts_record {st : Scan} {seen : List Row} (h : Counts st.dupExe seen) (r : Row) :
    Counts (record st r).dupExe (seen ++ [r]) := by
  intro e
  rw [record_eq, List.map_append, List.count_append]
  by_cases he : e = r.exe
  · subst he
    simp [h r.exe]
  · have hne : r.exe ≠ e := Ne.symm he
    simp [AList.lookup_insert_ne he, h e, hne]

/-- What the loop collects is what storing the processes under their keys leaves. -/
theorem foldl_record {st : Scan} {seen : List Row} (h : Counts st.dupExe seen) (rows : List Row) :
    (rows.foldl record st).cpuList =
        storeAll st.cpuList ((keyed seen rows).map fun e => (e.1, e.2.cpu)) ∧
      (rows.foldl record st).memList =
        storeAll st.memList ((keyed seen rows).map fun e => (e.1, memBytes e.2)) := by
  induction rows generalizing st seen with
  | nil => exact ⟨rfl, rfl⟩
  | cons r rows ih =>
      obtain ⟨hcpu, hmem⟩ := ih (counts_record h r)
      have hkey : exeKey r.exe ((st.dupExe.lookup r.exe).getD 0) = rowKey seen r := by
        rw [h r.exe, rowKey]
      rw [List.foldl_cons, hcpu, hmem, record_eq, hkey]
      exact ⟨rfl, rfl⟩

/-- A process that is skipped changes nothing. -/
theorem foldl_scanRow (vars : Vars) (rows : List Row) (st : Scan) :
    rows.foldl (scanRow vars) st =
      (rows.filter fun r => r.uid ∉ vars.skipUnames && r.exe ∉ vars.skipCmds && r.exe ≠ []).foldl
        record st := by
  induction rows generalizing st with
  | nil => rfl
  | cons r rows ih =>
      rw [List.foldl_cons, ih]
      by_cases huid : r.uid ∈ vars.skipUnames
      · simp [scanRow, huid]
      · by_cases hcmd : r.exe ∈ vars.skipCmds
        · simp [scanRow, huid, hcmd]
        · by_cases hexe : r.exe = []
          · simp [scanRow, huid, hexe]
          · simp [scanRow, huid, hcmd, hexe]

/-- What was collected, entry by entry. -/
theorem scan_lists (vars : Vars) (top : Text) :
    (∀ k v, (scan vars top).cpuList.lookup k = some v ↔
      ∃ pre r post, kept vars top = pre ++ r :: post ∧ k = rowKey pre r ∧ v = r.cpu) ∧
    ∀ k v, (scan vars top).memList.lookup k = some v ↔
      ∃ pre r post, kept vars top = pre ++ r :: post ∧ k = rowKey pre r ∧ v = memBytes r := by
  have hstart : Counts (⟨∅, ∅, ∅⟩ : Scan).dupExe [] := fun e => rfl
  obtain ⟨hcpu, hmem⟩ := foldl_record hstart (kept vars top)
  rw [scan, foldl_scanRow, ← kept, hcpu, hmem]
  have hkeys : ∀ {ν : Type} (f : Row → ν) k v,
      (storeAll ∅ ((keyed [] (kept vars top)).map fun e => (e.1, f e.2))).lookup k = some v ↔
        ∃ pre r post, kept vars top = pre ++ r :: post ∧ k = rowKey pre r ∧ v = f r := by
    intro ν f k v
    have hn : (((keyed [] (kept vars top)).map fun e => (e.1, f e.2)).map Prod.fst).Nodup := by
      rw [List.map_map]
      exact nodup_keyed [] _
    rw [lookup_storeAll_empty_iff hn]
    constructor
    · intro hin
      obtain ⟨e, he, heq⟩ := List.mem_map.mp hin
      obtain ⟨rfl, rfl⟩ := Prod.mk.inj heq
      obtain ⟨pre, post, hrows, hkey⟩ := mem_keyed_iff.mp (show (e.1, e.2) ∈ _ from he)
      exact ⟨pre, e.2, post, hrows, hkey, rfl⟩
    · rintro ⟨pre, r, post, hrows, rfl, rfl⟩
      exact List.mem_map.mpr ⟨(rowKey pre r, r), mem_keyed_iff.mpr ⟨pre, post, hrows, rfl⟩, rfl⟩
  exact ⟨hkeys Row.cpu, hkeys memBytes⟩

/-! ## The data hash -/

theorem mem_ne_cpu (k k' : Text) : "mem:".toList ++ k ≠ "cpu:".toList ++ k' := by
  intro h
  have hhead : some 'm' = some 'c' := congrArg List.head? h
  exact absurd (Option.some.inj hhead) (by decide)

section KeyVal

variable {vars : Vars} {walks : Walks} {dref : Hash Text Scalar} {top : Text}

theorem getdata_keyval (hout : vars.outType = "keyval".toList) :
    getdata vars walks dref top =
      storeAll (storeAll dref ((walks.cpu.list (scan vars top).cpuList).map fun e =>
          ("cpu:".toList ++ e.1, .text e.2)))
        ((walks.mem.list (scan vars top).memList).map fun e =>
          ("mem:".toList ++ e.1, .num e.2)) := by
  rw [getdata, if_pos hout]

/-- What is found under a key with the first prefix. -/
theorem lookup_cpu (hout : vars.outType = "keyval".toList) {k v : Text}
    (hk : (scan vars top).cpuList.lookup k = some v) :
    (getdata vars walks dref top).lookup ("cpu:".toList ++ k) = some (.text v) := by
  have hcpu := lookup_storeAll_map (List.append_right_injective "cpu:".toList) Scalar.text
    (walks.cpu.nodup (scan vars top).cpuList) dref
  have hmem := lookup_storeAll_map (List.append_right_injective "mem:".toList) Scalar.num
    (walks.mem.nodup (scan vars top).memList)
  rw [getdata_keyval hout, (hmem _).2 _ fun e _ => mem_ne_cpu e.1 k]
  exact hcpu.1 k v (walks.cpu.mem_iff.mpr hk)

/-- What is found under a key with the second prefix. -/
theorem lookup_mem (hout : vars.outType = "keyval".toList) {k : Text} {v : ℚ}
    (hk : (scan vars top).memList.lookup k = some v) :
    (getdata vars walks dref top).lookup ("mem:".toList ++ k) = some (.num v) := by
  have hmem := lookup_storeAll_map (List.append_right_injective "mem:".toList) Scalar.num
    (walks.mem.nodup (scan vars top).memList)
  rw [getdata_keyval hout]
  exact (hmem _).1 k v (walks.mem.mem_iff.mpr hk)

/-- Every other key is left alone. -/
theorem lookup_other (hout : vars.outType = "keyval".toList) {k : Text}
    (hcpu : ∀ k', k' ∈ (scan vars top).cpuList → "cpu:".toList ++ k' ≠ k)
    (hmem : ∀ k', k' ∈ (scan vars top).memList → "mem:".toList ++ k' ≠ k) :
    (getdata vars walks dref top).lookup k = dref.lookup k := by
  have hcpuOut := lookup_storeAll_map (List.append_right_injective "cpu:".toList) Scalar.text
    (walks.cpu.nodup (scan vars top).cpuList) dref
  have hmemOut := lookup_storeAll_map (List.append_right_injective "mem:".toList) Scalar.num
    (walks.mem.nodup (scan vars top).memList)
  have hin : ∀ {ν : Type} (walk : Walk Text ν) {h : Hash Text ν} {e : Text × ν},
      e ∈ walk.list h → e.1 ∈ h := by
    intro ν walk h e he
    have hlookup := walk.mem_iff.mp (show (e.1, e.2) ∈ walk.list h from he)
    exact AList.lookup_isSome.mp (by rw [hlookup]; rfl)
  rw [getdata_keyval hout, (hmemOut _).2 k fun e he => hmem e.1 (hin walks.mem he),
    hcpuOut.2 k fun e he => hcpu e.1 (hin walks.cpu he)]

end KeyVal

/-- **Processes.**  With `keyval` output and a data hash without such entries, every
process that is not skipped is published under its command and its number among the
processes that run this command, and no two of them share a key. -/
theorem processes_published (vars : Vars) (walks : Walks) (dref : Hash Text Scalar) (top : Text)
    (hout : vars.outType = "keyval".toList)
    (hdref : ∀ k, "cpu:".toList <+: k ∨ "mem:".toList <+: k → k ∉ dref) :
    Published (kept vars top) dref (getdata vars walks dref top) := by
  obtain ⟨hcpu, hmem⟩ := scan_lists vars top
  have hcpuKey : ∀ k, k ∈ (scan vars top).cpuList →
      ∃ pre r post, kept vars top = pre ++ r :: post ∧ k = rowKey pre r := by
    intro k hk
    obtain ⟨v, hv⟩ := Option.isSome_iff_exists.mp (AList.lookup_isSome.mpr hk)
    obtain ⟨pre, r, post, hrows, hkey, -⟩ := (hcpu k v).mp hv
    exact ⟨pre, r, post, hrows, hkey⟩
  have hmemKey : ∀ k, k ∈ (scan vars top).memList →
      ∃ pre r post, kept vars top = pre ++ r :: post ∧ k = rowKey pre r := by
    intro k hk
    obtain ⟨v, hv⟩ := Option.isSome_iff_exists.mp (AList.lookup_isSome.mpr hk)
    obtain ⟨pre, r, post, hrows, hkey, -⟩ := (hmem k v).mp hv
    exact ⟨pre, r, post, hrows, hkey⟩
  refine ⟨?_, ?_, ?_, ?_, ?_⟩
  · intro pre r post hrows
    exact lookup_cpu hout ((hcpu _ _).mpr ⟨pre, r, post, hrows, rfl, rfl⟩)
  · intro pre r post hrows
    exact lookup_mem hout ((hmem _ _).mpr ⟨pre, r, post, hrows, rfl, rfl⟩)
  · intro pre r post pre' r' post' h h' hkey
    exact rowKey_distinct h h' hkey
  · intro k hk hprefix
    by_contra hno
    have hsame : (getdata vars walks dref top).lookup k = dref.lookup k := lookup_other hout ?_ ?_
    · rw [← AList.lookup_isSome, hsame, AList.lookup_isSome] at hk
      exact hdref k hprefix hk
    · rintro k' hk' rfl
      obtain ⟨pre, r, post, hrows, rfl⟩ := hcpuKey k' hk'
      exact hno ⟨pre, r, post, hrows, .inl rfl⟩
    · rintro k' hk' rfl
      obtain ⟨pre, r, post, hrows, rfl⟩ := hmemKey k' hk'
      exact hno ⟨pre, r, post, hrows, .inr rfl⟩
  · intro k hnoCpu hnoMem
    refine lookup_other hout ?_ ?_
    · rintro k' - rfl
      exact hnoCpu (List.prefix_append _ _)
    · rintro k' - rfl
      exact hnoMem (List.prefix_append _ _)

/-- Two processes, one of which has the other's key in its name. -/
def twoRows : Text :=
  "  PID USER NI VIRT RES S %CPU %MEM PPID COMMAND\n".toList ++
    (" 7 ann 0 20m 9m S 1.5 0.2 1 R:0\n".toList ++ " 8 ann 0 30 9m S 2.5 0.2 1 R\n".toList)

theorem processes_published_twoRows :
    Published (kept Vars.default twoRows) ∅ (getdata Vars.default ⟨.kept, .kept⟩ ∅ twoRows) :=
  processes_published Vars.default ⟨.kept, .kept⟩ ∅ twoRows rfl fun k _ => AList.notMem_empty k

end Memrec.Topwatch
