import Mathlib.Logic.Function.Basic
import Memrec.Memhog
import Memrec.Runs

/-!
# The threads of `memhog`

`main` allocates a block, starts a worker on it, allocates a second block for a
while with a worker of its own, and takes both down again: flag, join, free.  The
workers go through their blocks meanwhile, and a byte is read in one step and
written in another, so that anything can happen in between.

The two lives are nested, but each block alone has a simple one (`life`): malloc,
create, flag, join, free, in this order.  `Life` says what holds of a block and
its worker at each point, and every step of every thread keeps it.  From it:

* `threads_safe`: no access outside a block or after `free`, no block freed twice,
  and a block is given back with the bytes it came with;
* `threads_progress`: the threads never wait for each other in vain;
* `worker_stops`: a worker that is told to stop does so after a bounded number of
  its steps.
-/

namespace Memrec

open CLang Runs

namespace Memhog

/-- The two blocks, each with its worker. -/
inductive Block
  | buffer
  | spike
  deriving DecidableEq, Repr

/-- What `main` does about the blocks. -/
inductive Instr
  | malloc (b : Block)
  | create (b : Block)
  | sleep (j : Nat)
  | setFlag (b : Block)
  | join (b : Block)
  | free (b : Block)
  deriving DecidableEq, Repr

/-- `main`, after the options. -/
def program : List Instr :=
  [.malloc .buffer, .create .buffer, .sleep 0, .malloc .spike, .create .spike, .sleep 1,
    .setFlag .spike, .join .spike, .free .spike, .sleep 2, .setFlag .buffer, .join .buffer,
    .free .buffer]

/-- The two loops of a pass. -/
inductive Loop
  | up
  | down
  deriving DecidableEq, Repr

/-- `wk->buffer[i]++` and `wk->buffer[i]--`. -/
def Loop.change : Loop → UInt8 → UInt8
  | .up, v => v + 1
  | .down, v => v - 1

/-- Where a worker is. -/
inductive WorkerPc
  | idle
  | loop (p : Loop) (i : Int)
  | loaded (p : Loop) (i : Int) (v : UInt8)
  | test
  | finished
  deriving DecidableEq, Repr

/-- What comes after a loop. -/
def Loop.next : Loop → WorkerPc
  | .up => .loop .down 0
  | .down => .test

/-- The process; `main` is what is left of it, or nothing after an `exit`. -/
structure Threads where
  main : Option (List Instr)
  heap : Block → Option (List UInt8)
  /-- `flag` and `flag2` -/
  flag : Block → Int
  worker : Block → WorkerPc

/-- What can be seen of a step. -/
inductive Act
  | malloc (b : Block) (bytes : List UInt8)
  | mallocFails (b : Block)
  | create (b : Block)
  | sleep (j : Nat)
  | setFlag (b : Block)
  | join (b : Block)
  | free (b : Block) (bytes : List UInt8)
  | badFree (b : Block)
  | read (b : Block) (i : Int)
  | write (b : Block) (i : Int)
  | endLoop (b : Block)
  | test (b : Block)
  | fault (b : Block) (i : Int)
  deriving DecidableEq, Repr

/-- A step that the language does not define. -/
def Act.Bad : Act → Prop
  | .badFree _ | .fault _ _ => True
  | _ => False

/-- `wk->buffer[i]`, if there is such a byte. -/
def Threads.byte (s : Threads) (b : Block) (i : Int) : Option UInt8 :=
  (s.heap b).bind fun bytes => if 0 ≤ i then bytes[i.toNat]? else none

/-- The bytes of a block after a write. -/
def Threads.put (s : Threads) (b : Block) (i : Int) (v : UInt8) : Option (List UInt8) :=
  (s.heap b).map fun bytes => bytes.set i.toNat v

/-- **One step of one thread.**  `size` are the arguments of `malloc`; the field
of the worker is an `int`. -/
inductive ThreadStep (size : Block → Nat) : Threads → Act → Threads → Prop
  | malloc {s b rest} (bytes : List UInt8) (h : s.main = some (.malloc b :: rest))
      (hlen : bytes.length = size b) :
      ThreadStep size s (.malloc b bytes)
        { s with main := some rest, heap := Function.update s.heap b (some bytes) }
  | mallocFails {s b rest} (h : s.main = some (.malloc b :: rest)) :
      ThreadStep size s (.mallocFails b) { s with main := none }
  -- `flag = 0` and `pthread_create`
  | create {s b rest} (h : s.main = some (.create b :: rest)) :
      ThreadStep size s (.create b)
        { s with main := some rest, flag := Function.update s.flag b 0,
                 worker := Function.update s.worker b (.loop .up 0) }
  | sleep {s j rest} (h : s.main = some (.sleep j :: rest)) :
      ThreadStep size s (.sleep j) { s with main := some rest }
  | setFlag {s b rest} (h : s.main = some (.setFlag b :: rest)) :
      ThreadStep size s (.setFlag b)
        { s with main := some rest, flag := Function.update s.flag b 1 }
  | join {s b rest} (h : s.main = some (.join b :: rest)) (hend : s.worker b = .finished) :
      ThreadStep size s (.join b) { s with main := some rest }
  | free {s b rest bytes} (h : s.main = some (.free b :: rest)) (hheap : s.heap b = some bytes) :
      ThreadStep size s (.free b bytes)
        { s with main := some rest, heap := Function.update s.heap b none }
  | badFree {s b rest} (h : s.main = some (.free b :: rest)) (hheap : s.heap b = none) :
      ThreadStep size s (.badFree b) { s with main := some rest }
  | read {s b p i v} (hrun : s.main ≠ none) (h : s.worker b = .loop p i)
      (hi : i < int32 (size b)) (hbyte : s.byte b i = some v) :
      ThreadStep size s (.read b i)
        { s with worker := Function.update s.worker b (.loaded p i v) }
  | badRead {s b p i} (hrun : s.main ≠ none) (h : s.worker b = .loop p i)
      (hi : i < int32 (size b)) (hbyte : s.byte b i = none) : ThreadStep size s (.fault b i) s
  | write {s b p i v w} (hrun : s.main ≠ none) (h : s.worker b = .loaded p i v)
      (hbyte : s.byte b i = some w) :
      ThreadStep size s (.write b i)
        { s with heap := Function.update s.heap b (s.put b i (p.change v)),
                 worker := Function.update s.worker b (.loop p (int32 (i + 1))) }
  | badWrite {s b p i v} (hrun : s.main ≠ none) (h : s.worker b = .loaded p i v)
      (hbyte : s.byte b i = none) : ThreadStep size s (.fault b i) s
  | endLoop {s b p i} (hrun : s.main ≠ none) (h : s.worker b = .loop p i)
      (hi : ¬ i < int32 (size b)) :
      ThreadStep size s (.endLoop b) { s with worker := Function.update s.worker b p.next }
  | test {s b} (hrun : s.main ≠ none) (h : s.worker b = .test) :
      ThreadStep size s (.test b)
        { s with
          worker := Function.update s.worker b
            (if s.flag b = 1 then .finished else .loop .up 0) }

/-- The process before the first allocation; the flags are not initialised. -/
def begin (flag : Block → Int) : Threads :=
  ⟨some program, fun _ => none, flag, fun _ => .idle⟩

/-! ## A block during a pass -/

/-- The bytes from `lo` up to `hi` are one higher than they were. -/
def raised (lo hi : Int) (orig : List UInt8) : List UInt8 :=
  orig.mapIdx fun k x => if lo ≤ (k : Int) ∧ (k : Int) < hi then x + 1 else x

@[simp] theorem length_raised (lo hi : Int) (orig : List UInt8) :
    (raised lo hi orig).length = orig.length := List.length_mapIdx

theorem getElem?_raised (lo hi : Int) (orig : List UInt8) (k : Nat) :
    (raised lo hi orig)[k]? =
      orig[k]?.map fun x => if lo ≤ (k : Int) ∧ (k : Int) < hi then x + 1 else x :=
  List.getElem?_mapIdx

theorem raised_empty {lo hi : Int} (h : hi ≤ lo) (orig : List UInt8) :
    raised lo hi orig = orig := by
  apply List.ext_getElem?
  intro k
  have hout : ¬ (lo ≤ (k : Int) ∧ (k : Int) < hi) := by omega
  rw [getElem?_raised]
  simp [hout]

/-- One more byte is raised. -/
theorem raised_set_up {i : Int} (hi : 0 ≤ i) {orig : List UInt8} {v : UInt8}
    (hv : (raised 0 i orig)[i.toNat]? = some v) :
    (raised 0 i orig).set i.toNat (v + 1) = raised 0 (i + 1) orig := by
  obtain ⟨n, rfl⟩ := Int.eq_ofNat_of_zero_le hi
  rw [Int.toNat_natCast] at hv ⊢
  apply List.ext_getElem?
  intro k
  rw [List.getElem?_set, getElem?_raised, getElem?_raised, length_raised]
  rw [getElem?_raised] at hv
  by_cases hk : n = k
  · subst hk
    obtain ⟨x, hx, rfl⟩ := Option.map_eq_some_iff.mp hv
    obtain ⟨hlt, hget⟩ := List.getElem?_eq_some_iff.mp hx
    simp [hlt, hget]
  · have hiff : (0 ≤ (k : Int) ∧ (k : Int) < n + 1) ↔ (0 ≤ (k : Int) ∧ (k : Int) < n) := by omega
    simp only [hk, if_false, hiff]

/-- One byte is taken down again. -/
theorem raised_set_down {i hi : Int} (h0 : 0 ≤ i) (hlt : i < hi) {orig : List UInt8} {v : UInt8}
    (hv : (raised i hi orig)[i.toNat]? = some v) :
    (raised i hi orig).set i.toNat (v - 1) = raised (i + 1) hi orig := by
  obtain ⟨n, rfl⟩ := Int.eq_ofNat_of_zero_le h0
  rw [Int.toNat_natCast] at hv ⊢
  apply List.ext_getElem?
  intro k
  rw [List.getElem?_set, getElem?_raised, getElem?_raised, length_raised]
  rw [getElem?_raised] at hv
  by_cases hk : n = k
  · subst hk
    obtain ⟨x, hx, rfl⟩ := Option.map_eq_some_iff.mp hv
    obtain ⟨hpos, hget⟩ := List.getElem?_eq_some_iff.mp hx
    simp [hpos, hget, hlt]
  · have hiff : ((n : Int) + 1 ≤ (k : Int) ∧ (k : Int) < hi) ↔
        ((n : Int) ≤ (k : Int) ∧ (k : Int) < hi) := by omega
    simp only [hk, if_false, hiff]

/-- What a loop has left of a block, before the byte at `i`. -/
def Loop.content (n : Int) (orig : List UInt8) : Loop → Int → List UInt8
  | .up, i => raised 0 i orig
  | .down, i => raised i n orig

/-- **A worker and its block.** -/
def AtWork (n : Int) (orig bytes : List UInt8) : WorkerPc → Prop
  | .idle => False
  | .loop p i => 0 ≤ i ∧ i ≤ max 0 n ∧ bytes = p.content n orig i
  | .loaded p i v => 0 ≤ i ∧ i < n ∧ bytes = p.content n orig i ∧ bytes[i.toNat]? = some v
  | .test => bytes = orig
  | .finished => bytes = orig

theorem AtWork.length_eq {n : Int} {orig bytes : List UInt8} {pc : WorkerPc}
    (h : AtWork n orig bytes pc) : bytes.length = orig.length := by
  cases pc with
  | idle => exact h.elim
  | loop p i => cases p <;> simp [h.2.2, Loop.content]
  | loaded p i v => cases p <;> simp [h.2.2.1, Loop.content]
  | test | finished => exact congrArg List.length h

/-- A write moves the loop on by one byte. -/
theorem Loop.content_set {n i : Int} (p : Loop) (h0 : 0 ≤ i) (hn : i < n) {orig : List UInt8}
    {v : UInt8} (hv : (p.content n orig i)[i.toNat]? = some v) :
    (p.content n orig i).set i.toNat (p.change v) = p.content n orig (i + 1) := by
  cases p with
  | up => exact raised_set_up h0 hv
  | down => exact raised_set_down h0 hn hv

/-- The end of a loop. -/
theorem AtWork.endLoop {n i : Int} {orig bytes : List UInt8} {p : Loop}
    (h : AtWork n orig bytes (.loop p i)) (hi : ¬ i < n) : AtWork n orig bytes p.next := by
  obtain ⟨h0, hmax, rfl⟩ := h
  cases p with
  | up =>
      refine ⟨le_refl 0, le_max_left 0 n, ?_⟩
      rcases le_or_gt 0 n with hn | hn
      · obtain rfl : i = n := by omega
        rfl
      · show raised 0 i orig = raised 0 n orig
        rw [raised_empty (by omega), raised_empty (by omega)]
  | down => exact raised_empty (by omega) orig

/-! ## The life of a block -/

/-- The block that an instruction is about. -/
def Instr.about (b : Block) : Instr → Bool
  | .malloc c | .create c | .setFlag c | .join c | .free c => decide (c = b)
  | .sleep _ => false

/-- What `main` does about one block. -/
def life (b : Block) : List Instr := [.malloc b, .create b, .setFlag b, .join b, .free b]

/-- Each block has its life in `main`. -/
theorem program_lives (b : Block) : program.filter (Instr.about b) = life b := by
  cases b <;> rfl

/-- **What holds of a block and its worker**, by what `main` has still to do about
them. -/
inductive Life (size : Nat) (b : Block) (tr : List Act) (s : Threads) : List Instr → Prop
  | start (hheap : s.heap b = none) (hpc : s.worker b = .idle)
      (hno : ∀ bytes, .malloc b bytes ∉ tr) : Life size b tr s (life b)
  | allocated {bytes : List UInt8} (hmem : .malloc b bytes ∈ tr) (hlen : bytes.length = size)
      (hheap : s.heap b = some bytes) (hpc : s.worker b = .idle) :
      Life size b tr s [.create b, .setFlag b, .join b, .free b]
  | running {orig bytes : List UInt8} (hmem : .malloc b orig ∈ tr) (hlen : orig.length = size)
      (hheap : s.heap b = some bytes) (hwork : AtWork (int32 size) orig bytes (s.worker b)) :
      Life size b tr s [.setFlag b, .join b, .free b]
  | stopping {orig bytes : List UInt8} (hmem : .malloc b orig ∈ tr) (hlen : orig.length = size)
      (hheap : s.heap b = some bytes) (hwork : AtWork (int32 size) orig bytes (s.worker b))
      (hflag : s.flag b = 1) : Life size b tr s [.join b, .free b]
  | joined {orig : List UInt8} (hmem : .malloc b orig ∈ tr) (hheap : s.heap b = some orig)
      (hpc : s.worker b = .finished) : Life size b tr s [.free b]
  | freed (hheap : s.heap b = none) (hpc : s.worker b = .finished) : Life size b tr s []

/-- The invariant of the process. -/
def Lives (size : Block → Nat) (tr : List Act) (s : Threads) : Prop :=
  ∀ rest, s.main = some rest → ∀ b, Life (size b) b tr s (rest.filter (Instr.about b))

/-- A step that has to do with the other block. -/
theorem Life.other {size : Nat} {b : Block} {tr : List Act} {s t : Threads} {a : Act}
    {rest : List Instr} (h : Life size b tr s rest) (hheap : t.heap b = s.heap b)
    (hpc : t.worker b = s.worker b) (hflag : t.flag b = s.flag b)
    (ha : ∀ bytes, a ≠ .malloc b bytes) : Life size b (tr ++ [a]) t rest := by
  have hmem : ∀ bytes, .malloc b bytes ∈ tr → .malloc b bytes ∈ tr ++ [a] :=
    fun bytes hm => List.mem_append_left _ hm
  cases h with
  | start h1 h2 h3 =>
      refine .start (hheap.trans h1) (hpc.trans h2) ?_
      intro bytes hm
      rcases List.mem_append.mp hm with hm | hm
      · exact h3 bytes hm
      · exact ha bytes (List.mem_singleton.mp hm).symm
  | allocated h1 h2 h3 h4 => exact .allocated (hmem _ h1) h2 (hheap.trans h3) (hpc.trans h4)
  | running h1 h2 h3 h4 => exact .running (hmem _ h1) h2 (hheap.trans h3) (hpc ▸ h4)
  | stopping h1 h2 h3 h4 h5 =>
      exact .stopping (hmem _ h1) h2 (hheap.trans h3) (hpc ▸ h4) (hflag.trans h5)
  | joined h1 h2 h3 => exact .joined (hmem _ h1) (hheap.trans h2) (hpc.trans h3)
  | freed h1 h2 => exact .freed (hheap.trans h1) (hpc.trans h2)

/-- A worker at work has its block, and its field is a number of the block. -/
theorem Life.at_work {size : Nat} {b : Block} {tr : List Act} {s : Threads} {rest : List Instr}
    (h : Life size b tr s rest) (hidle : s.worker b ≠ .idle) (hend : s.worker b ≠ .finished) :
    ∃ orig bytes, orig.length = size ∧ s.heap b = some bytes ∧
      AtWork (int32 size) orig bytes (s.worker b) := by
  cases h with
  | start _ hpc | allocated _ _ _ hpc => exact absurd hpc hidle
  | running _ hlen hheap hwork | stopping _ hlen hheap hwork => exact ⟨_, _, hlen, hheap, hwork⟩
  | joined _ _ hpc | freed _ hpc => exact absurd hpc hend

/-- A step of a worker changes its block and its place. -/
theorem Life.work {size : Nat} {b : Block} {tr : List Act} {s t : Threads} {a : Act}
    {rest : List Instr} (h : Life size b tr s rest) (hidle : s.worker b ≠ .idle)
    (hend : s.worker b ≠ .finished) (hflag : t.flag b = s.flag b)
    (hwork : ∀ orig bytes, orig.length = size → s.heap b = some bytes →
      AtWork (int32 size) orig bytes (s.worker b) →
      ∃ bytes', t.heap b = some bytes' ∧ AtWork (int32 size) orig bytes' (t.worker b)) :
    Life size b (tr ++ [a]) t rest := by
  cases h with
  | start _ hpc | allocated _ _ _ hpc => exact absurd hpc hidle
  | running hmem hlen hheap h =>
      obtain ⟨bytes', hheap', h'⟩ := hwork _ _ hlen hheap h
      exact .running (List.mem_append_left _ hmem) hlen hheap' h'
  | stopping hmem hlen hheap h hf =>
      obtain ⟨bytes', hheap', h'⟩ := hwork _ _ hlen hheap h
      exact .stopping (List.mem_append_left _ hmem) hlen hheap' h' (hflag.trans hf)
  | joined _ _ hpc | freed _ hpc => exact absurd hpc hend

/-! ## One step -/

section Inversion

variable {size : Nat} {b : Block} {tr : List Act} {s : Threads} {r : List Instr}

theorem Life.of_malloc (h : Life size b tr s (.malloc b :: r)) :
    r = [.create b, .setFlag b, .join b, .free b] ∧ s.worker b = .idle := by
  generalize hr : Instr.malloc b :: r = l at h
  cases h with
  | start _ hpc =>
      cases hr
      exact ⟨rfl, hpc⟩
  | _ => cases hr

theorem Life.of_create (h : Life size b tr s (.create b :: r)) :
    r = [.setFlag b, .join b, .free b] ∧
      ∃ bytes, .malloc b bytes ∈ tr ∧ bytes.length = size ∧ s.heap b = some bytes := by
  generalize hr : Instr.create b :: r = l at h
  cases h with
  | allocated hmem hlen hheap =>
      cases hr
      exact ⟨rfl, _, hmem, hlen, hheap⟩
  | _ => cases hr

theorem Life.of_setFlag (h : Life size b tr s (.setFlag b :: r)) :
    r = [.join b, .free b] ∧ ∃ orig bytes, .malloc b orig ∈ tr ∧ orig.length = size ∧
      s.heap b = some bytes ∧ AtWork (int32 size) orig bytes (s.worker b) := by
  generalize hr : Instr.setFlag b :: r = l at h
  cases h with
  | running hmem hlen hheap hwork =>
      cases hr
      exact ⟨rfl, _, _, hmem, hlen, hheap, hwork⟩
  | _ => cases hr

theorem Life.of_join (h : Life size b tr s (.join b :: r)) :
    r = [.free b] ∧ s.flag b = 1 ∧ ∃ orig bytes, .malloc b orig ∈ tr ∧ orig.length = size ∧
      s.heap b = some bytes ∧ AtWork (int32 size) orig bytes (s.worker b) := by
  generalize hr : Instr.join b :: r = l at h
  cases h with
  | stopping hmem hlen hheap hwork hflag =>
      cases hr
      exact ⟨rfl, hflag, _, _, hmem, hlen, hheap, hwork⟩
  | _ => cases hr

theorem Life.of_free (h : Life size b tr s (.free b :: r)) :
    r = [] ∧ s.worker b = .finished ∧ ∃ orig, .malloc b orig ∈ tr ∧ s.heap b = some orig := by
  generalize hr : Instr.free b :: r = l at h
  cases h with
  | joined hmem hheap hpc =>
      cases hr
      exact ⟨rfl, hpc, _, hmem, hheap⟩
  | _ => cases hr

end Inversion

theorem int32_le (n : Nat) : int32 n ≤ n := by
  unfold int32
  omega

/-- An index in the range of the worker is one of the block. -/
theorem byte_of_lt {s : Threads} {b : Block} {size : Nat} {orig bytes : List UInt8}
    {pc : WorkerPc} {i : Int} (hlen : orig.length = size) (hheap : s.heap b = some bytes)
    (hwork : AtWork (int32 size) orig bytes pc) (h0 : 0 ≤ i) (hi : i < int32 size) :
    s.byte b i = bytes[i.toNat]? ∧ s.byte b i ≠ none := by
  have hlt : i.toNat < bytes.length := by
    have hle := int32_le size
    rw [hwork.length_eq]
    omega
  have hbyte : s.byte b i = bytes[i.toNat]? := by
    unfold Threads.byte
    rw [hheap, Option.bind_some, if_pos h0]
  refine ⟨hbyte, ?_⟩
  rw [hbyte, List.getElem?_eq_getElem hlt]
  exact Option.some_ne_none _

/-- An instruction about one block leaves the rest of the other life alone. -/
theorem filter_about_other {b c : Block} (hc : c ≠ b) {i : Instr}
    (hi : i.about c = decide (b = c)) (rest : List Instr) :
    (i :: rest).filter (Instr.about c) = rest.filter (Instr.about c) := by
  rw [List.filter_cons_of_neg]
  simpa [hi] using Ne.symm hc

theorem filter_about_same {b : Block} {i : Instr} (hi : i.about b = decide (b = b))
    (rest : List Instr) :
    (i :: rest).filter (Instr.about b) = i :: rest.filter (Instr.about b) := by
  rw [List.filter_cons_of_pos]
  simp [hi]

/-- A step of `main` about a block keeps the invariant if it keeps that life. -/
theorem Lives.main_step {size : Block → Nat} {tr : List Act} {s t : Threads} {a : Act} {b : Block}
    {i : Instr} {rest : List Instr} (hs : Lives size tr s) (hmain : s.main = some (i :: rest))
    (ht : t.main = some rest) (hi : ∀ c, i.about c = decide (b = c))
    (hother : ∀ c, c ≠ b → t.heap c = s.heap c ∧ t.worker c = s.worker c ∧ t.flag c = s.flag c)
    (ha : ∀ c bytes, c ≠ b → a ≠ .malloc c bytes)
    (hsame : Life (size b) b tr s (i :: rest.filter (Instr.about b)) →
      Life (size b) b (tr ++ [a]) t (rest.filter (Instr.about b))) : Lives size (tr ++ [a]) t := by
  intro rest' hrest c
  obtain rfl : rest = rest' := Option.some.inj (ht.symm.trans hrest)
  have hlife := hs _ hmain c
  by_cases hc : c = b
  · subst hc
    rw [filter_about_same (hi c)] at hlife
    exact hsame hlife
  · rw [filter_about_other hc (hi c)] at hlife
    obtain ⟨hheap, hpc, hflag⟩ := hother c hc
    exact hlife.other hheap hpc hflag fun bytes => ha c bytes hc

/-- A step of a worker keeps the invariant if it keeps the relation to the block. -/
theorem Lives.worker_step {size : Block → Nat} {tr : List Act} {s t : Threads} {a : Act}
    (hs : Lives size tr s) (b : Block) (ht : t.main = s.main) (hflag : t.flag = s.flag)
    (hother : ∀ c, c ≠ b → t.heap c = s.heap c ∧ t.worker c = s.worker c)
    (ha : ∀ c bytes, a ≠ .malloc c bytes) (hidle : s.worker b ≠ .idle)
    (hend : s.worker b ≠ .finished)
    (hwork : ∀ orig bytes, orig.length = size b → s.heap b = some bytes →
      AtWork (int32 (size b)) orig bytes (s.worker b) →
      ∃ bytes', t.heap b = some bytes' ∧ AtWork (int32 (size b)) orig bytes' (t.worker b)) :
    Lives size (tr ++ [a]) t := by
  intro rest hrest c
  have hlife := hs rest (ht ▸ hrest) c
  by_cases hc : c = b
  · subst hc
    exact hlife.work hidle hend (congrFun hflag c) hwork
  · obtain ⟨hheap, hpc⟩ := hother c hc
    exact hlife.other hheap hpc (congrFun hflag c) (ha c)

/-- A worker whose process runs, at work on its block. -/
theorem Lives.at_work {size : Block → Nat} {tr : List Act} {s : Threads}
    (hs : Lives size tr s) (b : Block) (hrun : s.main ≠ none) (hidle : s.worker b ≠ .idle)
    (hend : s.worker b ≠ .finished) :
    ∃ orig bytes, orig.length = size b ∧ s.heap b = some bytes ∧
      AtWork (int32 (size b)) orig bytes (s.worker b) := by
  obtain ⟨rest, hrest⟩ := Option.ne_none_iff_exists'.mp hrun
  exact (hs rest hrest b).at_work hidle hend

/-- **Every step of every thread** keeps the invariant. -/
theorem lives_step {size : Block → Nat} {tr : List Act} {s t : Threads} {a : Act}
    (hs : Lives size tr s) (h : ThreadStep size s a t) (ha : ¬ a.Bad) :
    Lives size (tr ++ [a]) t := by
  cases h with
  | malloc bytes hmain hlen =>
      refine hs.main_step hmain rfl (fun _ => rfl) ?_ ?_ ?_
      · exact fun c hc => ⟨Function.update_of_ne hc _ _, rfl, rfl⟩
      · simp only [ne_eq, Act.malloc.injEq, not_and]
        exact fun c bytes hc h => absurd h.symm hc
      · intro hlife
        obtain ⟨hrest, hpc⟩ := hlife.of_malloc
        rw [hrest]
        exact .allocated (by simp) hlen (Function.update_self _ _ _) hpc
  | mallocFails => exact fun rest hrest => absurd hrest (by simp)
  | create hmain =>
      refine hs.main_step hmain rfl (fun _ => rfl) ?_ (by simp) ?_
      · exact fun c hc => ⟨rfl, Function.update_of_ne hc _ _, Function.update_of_ne hc _ _⟩
      · intro hlife
        obtain ⟨hrest, bytes, hmem, hlen, hheap⟩ := hlife.of_create
        rw [hrest]
        refine .running (List.mem_append_left _ hmem) hlen hheap ?_
        dsimp only
        rw [Function.update_self]
        exact ⟨le_refl 0, le_max_left _ _, (raised_empty (le_refl 0) bytes).symm⟩
  | sleep hmain =>
      intro rest hrest c
      obtain rfl := Option.some.inj hrest
      have hlife := hs _ hmain c
      rw [List.filter_cons_of_neg (by simp [Instr.about])] at hlife
      exact hlife.other rfl rfl rfl (by simp)
  | setFlag hmain =>
      refine hs.main_step hmain rfl (fun _ => rfl) ?_ (by simp) ?_
      · exact fun c hc => ⟨rfl, rfl, Function.update_of_ne hc _ _⟩
      · intro hlife
        obtain ⟨hrest, orig, bytes, hmem, hlen, hheap, hwork⟩ := hlife.of_setFlag
        rw [hrest]
        exact .stopping (List.mem_append_left _ hmem) hlen hheap hwork (Function.update_self _ _ _)
  | join hmain hend =>
      refine hs.main_step hmain rfl (fun _ => rfl) (fun _ _ => ⟨rfl, rfl, rfl⟩) (by simp) ?_
      intro hlife
      obtain ⟨hrest, -, orig, bytes, hmem, -, hheap, hwork⟩ := hlife.of_join
      rw [hend] at hwork
      rw [hrest]
      exact .joined (List.mem_append_left _ hmem) (hwork ▸ hheap) hend
  | free hmain hheap =>
      refine hs.main_step hmain rfl (fun _ => rfl) ?_ (by simp) ?_
      · exact fun c hc => ⟨Function.update_of_ne hc _ _, rfl, rfl⟩
      · intro hlife
        obtain ⟨hrest, hpc, -⟩ := hlife.of_free
        rw [hrest]
        exact .freed (Function.update_self _ _ _) hpc
  | badFree | badRead | badWrite => exact absurd trivial ha
  | @read b p i v hrun hpc hi hbyte =>
      refine hs.worker_step b rfl rfl ?_ (by simp) (by simp [hpc]) (by simp [hpc]) ?_
      · exact fun c hc => ⟨rfl, Function.update_of_ne hc _ _⟩
      · intro orig bytes hlen hheap hwork
        refine ⟨bytes, hheap, ?_⟩
        dsimp only
        rw [Function.update_self]
        rw [hpc] at hwork
        have h0 : 0 ≤ i := hwork.1
        rw [(byte_of_lt hlen hheap hwork h0 hi).1] at hbyte
        exact ⟨h0, hi, hwork.2.2, hbyte⟩
  | @write b p i v w hrun hpc hbyte =>
      refine hs.worker_step b rfl rfl ?_ (by simp) (by simp [hpc]) (by simp [hpc]) ?_
      · exact fun c hc => ⟨Function.update_of_ne hc _ _, Function.update_of_ne hc _ _⟩
      · intro orig bytes hlen hheap hwork
        rw [hpc] at hwork
        obtain ⟨h0, hi, hcontent, hv⟩ := hwork
        have hmax := (int32_range (size b)).2
        have hnext : int32 (i + 1) = i + 1 := int32_of_range (by omega) (by omega)
        refine ⟨bytes.set i.toNat (p.change v), ?_, ?_⟩
        · dsimp only
          rw [Function.update_self, Threads.put, hheap, Option.map_some]
        · dsimp only
          rw [Function.update_self, hnext]
          refine ⟨by omega, by omega, ?_⟩
          rw [hcontent] at hv ⊢
          exact p.content_set h0 hi hv
  | @endLoop b p i hrun hpc hi =>
      refine hs.worker_step b rfl rfl ?_ (by simp) (by simp [hpc]) (by simp [hpc]) ?_
      · exact fun c hc => ⟨rfl, Function.update_of_ne hc _ _⟩
      · intro orig bytes hlen hheap hwork
        refine ⟨bytes, hheap, ?_⟩
        dsimp only
        rw [Function.update_self]
        rw [hpc] at hwork
        exact hwork.endLoop hi
  | @test b hrun hpc =>
      refine hs.worker_step b rfl rfl ?_ (by simp) (by simp [hpc]) (by simp [hpc]) ?_
      · exact fun c hc => ⟨rfl, Function.update_of_ne hc _ _⟩
      · intro orig bytes hlen hheap hwork
        refine ⟨bytes, hheap, ?_⟩
        dsimp only
        rw [Function.update_self]
        rw [hpc] at hwork
        obtain rfl : bytes = orig := hwork
        split
        · exact rfl
        · exact ⟨le_refl 0, le_max_left _ _, (raised_empty (le_refl 0) bytes).symm⟩

/-- No step is one that the language does not define, -/
theorem Lives.not_bad {size : Block → Nat} {tr : List Act} {s t : Threads} {a : Act}
    (hs : Lives size tr s) (h : ThreadStep size s a t) : ¬ a.Bad := by
  cases h with
  | @badFree b rest hmain hheap =>
      have hlife := hs _ hmain b
      rw [filter_about_same rfl] at hlife
      obtain ⟨-, -, orig, -, hsome⟩ := hlife.of_free
      rw [hheap] at hsome
      cases hsome
  | @badRead b p i hrun hpc hi hbyte =>
      obtain ⟨orig, bytes, hlen, hheap, hwork⟩ := hs.at_work b hrun (by simp [hpc]) (by simp [hpc])
      rw [hpc] at hwork
      exact absurd hbyte (byte_of_lt hlen hheap hwork hwork.1 hi).2
  | @badWrite b p i v hrun hpc hbyte =>
      obtain ⟨orig, bytes, hlen, hheap, hwork⟩ := hs.at_work b hrun (by simp [hpc]) (by simp [hpc])
      rw [hpc] at hwork
      exact absurd hbyte (byte_of_lt hlen hheap hwork hwork.1 hwork.2.1).2
  | _ => exact id

/-- and a block is freed with the bytes that `malloc` has returned. -/
theorem Lives.freed_as_allocated {size : Block → Nat} {tr : List Act} {s t : Threads} {b : Block}
    {bytes : List UInt8} (hs : Lives size tr s) (h : ThreadStep size s (.free b bytes) t) :
    .malloc b bytes ∈ tr := by
  cases h with
  | free hmain hheap =>
      have hlife := hs _ hmain b
      rw [filter_about_same rfl] at hlife
      obtain ⟨-, -, orig, hmem, hsome⟩ := hlife.of_free
      rw [hheap] at hsome
      rw [Option.some.inj hsome]
      exact hmem

/-! ## Whole runs -/

theorem lives_run {size : Block → Nat} {flag : Block → Int} {tr : List Act} {s : Threads}
    (run : Run (ThreadStep size) (begin flag) tr s) : Lives size tr s := by
  refine run.inv ?_ fun tr t a u _ ih h => lives_step ih h (ih.not_bad h)
  intro rest hrest b
  obtain rfl := Option.some.inj hrest
  rw [program_lives]
  exact .start rfl rfl (by simp)

/-- The instruction of `main` that a step carries out. -/
def Act.instr : Act → Option Instr
  | .malloc b _ => some (.malloc b)
  | .create b => some (.create b)
  | .sleep j => some (.sleep j)
  | .setFlag b => some (.setFlag b)
  | .join b => some (.join b)
  | .free b _ | .badFree b => some (.free b)
  | _ => none

/-- A step of `main` takes the next instruction; a worker takes none. -/
theorem ThreadStep.main_cases {size : Block → Nat} {s t : Threads} {a : Act}
    (h : ThreadStep size s a t) :
    (∃ i rest, a.instr = some i ∧ s.main = some (i :: rest) ∧ t.main = some rest) ∨
      (a.instr = none ∧ (t.main = s.main ∨ t.main = none)) := by
  cases h with
  | malloc _ hmain | create hmain | sleep hmain | setFlag hmain | join hmain | free hmain
    | badFree hmain => exact Or.inl ⟨_, _, rfl, hmain, rfl⟩
  | mallocFails => exact Or.inr ⟨rfl, Or.inr rfl⟩
  | _ => exact Or.inr ⟨rfl, Or.inl rfl⟩

/-- **Program order.** -/
theorem main_order {size : Block → Nat} {flag : Block → Int} {tr : List Act} {s : Threads}
    (run : Run (ThreadStep size) (begin flag) tr s) :
    ∃ rest, tr.filterMap Act.instr ++ rest = program ∧ (s.main = some rest ∨ s.main = none) := by
  refine run.inv (P := fun tr s => ∃ rest, tr.filterMap Act.instr ++ rest = program ∧
    (s.main = some rest ∨ s.main = none)) ⟨program, rfl, Or.inl rfl⟩ ?_
  intro tr t a u _ ih h
  obtain ⟨rest, hrest, hmain⟩ := ih
  rw [List.filterMap_append]
  rcases h.main_cases with ⟨i, rest', ha, ht, hu⟩ | ⟨ha, hu⟩
  · rcases hmain with hmain | hmain
    · obtain rfl : rest = i :: rest' := Option.some.inj (hmain.symm.trans ht)
      rw [List.filterMap_cons_some ha]
      exact ⟨rest', by simpa using hrest, Or.inl hu⟩
    · rw [hmain] at ht
      cases ht
  · rw [List.filterMap_cons_none ha]
    refine ⟨rest, by simpa using hrest, ?_⟩
    rcases hu with hu | hu
    · rwa [hu]
    · exact Or.inr hu

/-- **Memory safety under every interleaving.**  Whatever the sizes and the
schedule: no step is undefined, that is, no worker touches a byte outside its
block, before it is allocated or after it is freed, and nothing is freed twice;
`main` keeps to its program; each block is freed with the bytes that `malloc`
returned; and when `main` has come to its end, both blocks are freed and both
workers have ended. -/
theorem threads_safe (size : Block → Nat) (flag : Block → Int) {tr : List Act} {s : Threads}
    (run : Run (ThreadStep size) (begin flag) tr s) :
    (∀ a ∈ tr, ¬ a.Bad) ∧ tr.filterMap Act.instr <+: program ∧
    (∀ pre b bytes post, tr = pre ++ .free b bytes :: post → .malloc b bytes ∈ pre) ∧
    (s.main = some [] → ∀ b, s.heap b = none ∧ s.worker b = .finished) := by
  refine ⟨?_, ?_, ?_, ?_⟩
  · intro a ha
    obtain ⟨pre, post, rfl⟩ := List.append_of_mem ha
    obtain ⟨m, m', hpre, hstep⟩ := run.at_label
    exact (lives_run hpre).not_bad hstep
  · obtain ⟨rest, hrest, -⟩ := main_order run
    exact ⟨rest, hrest⟩
  · intro pre b bytes post hsplit
    subst hsplit
    obtain ⟨m, m', hpre, hstep⟩ := run.at_label
    exact (lives_run hpre).freed_as_allocated hstep
  · intro hmain b
    have hlife : Life (size b) b tr s [] := lives_run run [] hmain b
    generalize hr : ([] : List Instr) = r at hlife
    cases hlife with
    | freed hheap hpc => exact ⟨hheap, hpc⟩
    | _ => cases hr

/-- A worker that has not ended can take a step. -/
theorem AtWork.progress {size : Block → Nat} {s : Threads} {b : Block} {orig bytes : List UInt8}
    (hrun : s.main ≠ none) (hlen : orig.length = size b) (hheap : s.heap b = some bytes)
    (hwork : AtWork (int32 (size b)) orig bytes (s.worker b)) (hend : s.worker b ≠ .finished) :
    ∃ a t, ThreadStep size s a t := by
  cases hpc : s.worker b with
  | idle =>
      rw [hpc] at hwork
      exact hwork.elim
  | loop p i =>
      by_cases hi : i < int32 (size b)
      · rw [hpc] at hwork
        obtain ⟨v, hv⟩ := Option.ne_none_iff_exists'.mp (byte_of_lt hlen hheap hwork hwork.1 hi).2
        exact ⟨_, _, .read hrun hpc hi hv⟩
      · exact ⟨_, _, .endLoop hrun hpc hi⟩
  | loaded p i v =>
      rw [hpc] at hwork
      obtain ⟨w, hw⟩ :=
        Option.ne_none_iff_exists'.mp (byte_of_lt hlen hheap hwork hwork.1 hwork.2.1).2
      exact ⟨_, _, .write hrun hpc hw⟩
  | test => exact ⟨_, _, .test hrun hpc⟩
  | finished => exact absurd hpc hend

/-- **No deadlock.**  As long as `main` has not come to its end, some thread can
take a step. -/
theorem threads_progress (size : Block → Nat) (flag : Block → Int) {tr : List Act} {s : Threads}
    (run : Run (ThreadStep size) (begin flag) tr s) {i : Instr} {rest : List Instr}
    (hmain : s.main = some (i :: rest)) : ∃ a t, ThreadStep size s a t := by
  have hrun : s.main ≠ none := by
    rw [hmain]
    exact Option.some_ne_none _
  cases i with
  | malloc b => exact ⟨_, _, .mallocFails hmain⟩
  | create b => exact ⟨_, _, .create hmain⟩
  | sleep j => exact ⟨_, _, .sleep hmain⟩
  | setFlag b => exact ⟨_, _, .setFlag hmain⟩
  | free b =>
      cases hheap : s.heap b with
      | none => exact ⟨_, _, .badFree hmain hheap⟩
      | some bytes => exact ⟨_, _, .free hmain hheap⟩
  | join b =>
      by_cases hend : s.worker b = .finished
      · exact ⟨_, _, .join hmain hend⟩
      · have hlife := lives_run run _ hmain b
        rw [filter_about_same rfl] at hlife
        obtain ⟨-, -, orig, bytes, -, hlen, hheap, hwork⟩ := hlife.of_join
        exact hwork.progress hrun hlen hheap hend

/-! ## How long a worker goes on -/

/-- A step of this worker. -/
def Act.by (b : Block) : Act → Bool
  | .read c _ | .write c _ | .endLoop c | .test c => decide (c = b)
  | _ => false

/-- The steps that a worker still takes once its flag is set; `m` is the number of
bytes that it goes through. -/
def stepsLeft (m : Nat) : WorkerPc → Nat
  | .loop .up i => 2 * (m - i.toNat) + 2 * m + 3
  | .loaded .up i _ => 2 * (m - i.toNat) + 2 * m + 2
  | .loop .down i => 2 * (m - i.toNat) + 2
  | .loaded .down i _ => 2 * (m - i.toNat) + 1
  | .test => 1
  | _ => 0

theorem stepsLeft_le (m : Nat) (pc : WorkerPc) : stepsLeft m pc ≤ 4 * m + 3 := by
  cases pc with
  | loop p i | loaded p i v => cases p <;> simp only [stepsLeft] <;> omega
  | _ => simp [stepsLeft]

/-- The block will not get another worker. -/
def Told (b : Block) (s : Threads) : Prop :=
  s.flag b = 1 ∧ ∀ rest, s.main = some rest → .create b ∉ rest

/-- A step of a worker at its block, by what it leaves of the measure. -/
theorem AtWork.left {n : Int} {orig bytes : List UInt8} {p : Loop} {i : Int} {v : UInt8} :
    (AtWork n orig bytes (.loop p i) → i < n →
      stepsLeft n.toNat (.loaded p i v) + 1 = stepsLeft n.toNat (.loop p i)) ∧
    (AtWork n orig bytes (.loaded p i v) →
      stepsLeft n.toNat (.loop p (i + 1)) + 1 = stepsLeft n.toNat (.loaded p i v)) ∧
    (AtWork n orig bytes (.loop p i) → ¬ i < n →
      stepsLeft n.toNat p.next + 1 = stepsLeft n.toNat (.loop p i)) := by
  refine ⟨?_, ?_, ?_⟩
  · intro hwork hi
    cases p <;> simp only [stepsLeft]
  · intro hwork
    obtain ⟨h0, hi, -, -⟩ := hwork
    cases p <;> simp only [stepsLeft] <;> omega
  · intro hwork hi
    obtain ⟨h0, hmax, -⟩ := hwork
    cases p <;> simp only [stepsLeft, Loop.next] <;> omega

/-- A step of the worker of another block. -/
theorem by_other {b c : Block} (hc : c ≠ b) (i : Int) :
    (Act.read c i).by b = false ∧ (Act.write c i).by b = false ∧ (Act.endLoop c).by b = false ∧
      (Act.test c).by b = false := by
  simp [Act.by, hc]

/-- **One step after the flag is set.**  A step of the worker takes one off the
measure, and no other step changes it. -/
theorem ThreadStep.told {size : Block → Nat} {tr : List Act} {s t : Threads} {a : Act} {b : Block}
    (hs : Lives size tr s) (h : ThreadStep size s a t) (htold : Told b s) :
    Told b t ∧ stepsLeft (int32 (size b)).toNat (t.worker b) + (a.by b).toNat =
      stepsLeft (int32 (size b)).toNat (s.worker b) := by
  obtain ⟨hflag, hcreate⟩ := htold
  have hsub : ∀ {i rest}, s.main = some (i :: rest) → ∀ rest', some rest = some rest' →
      .create b ∉ rest' := by
    intro i rest hmain rest' hrest hmem
    rw [← Option.some.inj hrest] at hmem
    exact hcreate _ hmain (List.mem_cons_of_mem _ hmem)
  cases h with
  | malloc _ hmain | sleep hmain | join hmain | free hmain | badFree hmain =>
      exact ⟨⟨hflag, hsub hmain⟩, rfl⟩
  | mallocFails => exact ⟨⟨hflag, by simp⟩, rfl⟩
  | @create c rest hmain =>
      have hc : b ≠ c := by
        intro hsame
        subst hsame
        exact hcreate _ hmain List.mem_cons_self
      refine ⟨⟨?_, hsub hmain⟩, ?_⟩
      · exact (Function.update_of_ne hc _ _).trans hflag
      · dsimp only
        rw [Function.update_of_ne hc]
        rfl
  | @setFlag c rest hmain =>
      refine ⟨⟨?_, hsub hmain⟩, rfl⟩
      dsimp only
      by_cases hc : b = c
      · rw [hc, Function.update_self]
      · rw [Function.update_of_ne hc, hflag]
  | badRead | badWrite => exact ⟨⟨hflag, hcreate⟩, rfl⟩
  | @read c p i v hrun hpc hi hbyte =>
      refine ⟨⟨hflag, hcreate⟩, ?_⟩
      dsimp only
      by_cases hc : c = b
      · subst hc
        obtain ⟨orig, bytes, -, -, hwork⟩ := hs.at_work c hrun (by simp [hpc]) (by simp [hpc])
        rw [hpc] at hwork ⊢
        rw [Function.update_self, show (Act.read c i).by c = true by simp [Act.by]]
        exact AtWork.left.1 hwork hi
      · rw [Function.update_of_ne (Ne.symm hc), (by_other hc i).1]
        rfl
  | @write c p i v w hrun hpc hbyte =>
      refine ⟨⟨hflag, hcreate⟩, ?_⟩
      dsimp only
      by_cases hc : c = b
      · subst hc
        obtain ⟨orig, bytes, -, -, hwork⟩ := hs.at_work c hrun (by simp [hpc]) (by simp [hpc])
        rw [hpc] at hwork ⊢
        have h0 : 0 ≤ i := hwork.1
        have hi : i < int32 (size c) := hwork.2.1
        have hmax := (int32_range (size c)).2
        have hnext : int32 (i + 1) = i + 1 := int32_of_range (by omega) (by omega)
        rw [Function.update_self, hnext, show (Act.write c i).by c = true by simp [Act.by]]
        exact AtWork.left.2.1 hwork
      · rw [Function.update_of_ne (Ne.symm hc), (by_other hc i).2.1]
        rfl
  | @endLoop c p i hrun hpc hi =>
      refine ⟨⟨hflag, hcreate⟩, ?_⟩
      dsimp only
      by_cases hc : c = b
      · subst hc
        obtain ⟨orig, bytes, -, -, hwork⟩ := hs.at_work c hrun (by simp [hpc]) (by simp [hpc])
        rw [hpc] at hwork ⊢
        rw [Function.update_self, show (Act.endLoop c).by c = true by simp [Act.by]]
        exact (AtWork.left (v := 0)).2.2 hwork hi
      · rw [Function.update_of_ne (Ne.symm hc), (by_other hc 0).2.2.1]
        rfl
  | @test c hrun hpc =>
      refine ⟨⟨hflag, hcreate⟩, ?_⟩
      dsimp only
      by_cases hc : c = b
      · subst hc
        rw [Function.update_self, if_pos hflag, hpc, show (Act.test c).by c = true by simp [Act.by]]
        rfl
      · rw [Function.update_of_ne (Ne.symm hc), (by_other hc 0).2.2.2]
        rfl

/-- The flag of a block is set when its worker is the last. -/
theorem Lives.told_of_setFlag {size : Block → Nat} {tr : List Act} {s t : Threads} {b : Block}
    (hs : Lives size tr s) (h : ThreadStep size s (.setFlag b) t) : Told b t := by
  cases h with
  | @setFlag b rest hmain =>
      refine ⟨Function.update_self _ _ _, ?_⟩
      intro rest' hrest hmem
      obtain rfl := Option.some.inj hrest
      have hlife := hs _ hmain b
      rw [filter_about_same rfl] at hlife
      have hfilter : .create b ∈ rest.filter (Instr.about b) :=
        List.mem_filter.mpr ⟨hmem, by simp [Instr.about]⟩
      rw [hlife.of_setFlag.1] at hfilter
      simp at hfilter

/-- **A worker stops.**  Once `main` has set the flag of a worker, the worker
takes at most `4n + 3` more steps, where `n` is the number of bytes that it goes
through. -/
theorem worker_stops (size : Block → Nat) (flag : Block → Int) {tr tr' : List Act} {b : Block}
    {s : Threads} (run : Run (ThreadStep size) (begin flag) (tr ++ .setFlag b :: tr') s) :
    tr'.countP (Act.by b) ≤ 4 * (int32 (size b)).toNat + 3 := by
  obtain ⟨m, htr, hrest⟩ := run.of_append
  obtain ⟨m', hset, htail⟩ := hrest.of_cons
  have hstart := (lives_run htr).told_of_setFlag hset
  have hinv : Told b s ∧ tr'.countP (Act.by b) + stepsLeft (int32 (size b)).toNat (s.worker b) ≤
      4 * (int32 (size b)).toNat + 3 := by
    refine htail.inv (P := fun tr s => Told b s ∧ tr.countP (Act.by b) +
      stepsLeft (int32 (size b)).toNat (s.worker b) ≤ 4 * (int32 (size b)).toNat + 3) ?_ ?_
    · refine ⟨hstart, ?_⟩
      have hle := stepsLeft_le (int32 (size b)).toNat (m'.worker b)
      rw [List.countP_nil]
      omega
    · intro mid t a u hmid ih hstep
      have hlives := lives_run ((htr.snoc hset).trans hmid)
      obtain ⟨htold, hleft⟩ := hstep.told hlives ih.1
      refine ⟨htold, ?_⟩
      have hcount : (mid ++ [a]).countP (Act.by b) = mid.countP (Act.by b) + (a.by b).toNat := by
        cases ha : a.by b <;> simp [ha]
      have hle := ih.2
      omega
  have hle := hinv.2
  omega

/-- `memhog -m 1`, without a spike. -/
def oneByte : Block → Nat
  | .buffer => 1
  | .spike => 0

/-- The first worker is in the middle of an increment when the second one comes and
goes. -/
theorem run_oneByte : ∃ s, Run (ThreadStep oneByte) (begin fun _ => 0)
    ([.malloc .buffer [7], .create .buffer, .sleep 0, .read .buffer 0, .malloc .spike [],
      .create .spike, .sleep 1] ++ .setFlag .spike ::
        [.endLoop .spike, .write .buffer 0, .endLoop .spike, .test .spike, .join .spike,
          .free .spike []]) s :=
  ⟨_, ((((((((((((((Run.nil _).snoc (.malloc [7] rfl rfl)).snoc (.create rfl)).snoc
    (.sleep rfl)).snoc (.read (v := 7) (by simp) rfl (by decide) rfl)).snoc
    (.malloc [] rfl rfl)).snoc (.create rfl)).snoc (.sleep rfl)).snoc (.setFlag rfl)).snoc
    (.endLoop (by simp) rfl (by decide))).snoc
    (.write (w := 7) (by simp) rfl rfl)).snoc (.endLoop (by simp) rfl (by decide))).snoc
    (.test (by simp) rfl)).snoc (.join rfl rfl)).snoc (.free rfl rfl)⟩

theorem threads_safe_oneByte : ¬ (Act.write .buffer 0).Bad ∧
    .malloc .spike [] ∈ [.malloc .buffer [7], .create .buffer, .sleep 0, .read .buffer 0,
      .malloc .spike [], .create .spike, .sleep 1, .setFlag .spike, .endLoop .spike,
      .write .buffer 0, .endLoop .spike, .test .spike, Act.join .spike] := by
  obtain ⟨s, run⟩ := run_oneByte
  obtain ⟨hbad, -, hfree, -⟩ := threads_safe _ _ run
  exact ⟨hbad _ (by simp), hfree _ .spike [] [] rfl⟩

theorem threads_progress_begin : ∃ a t, ThreadStep oneByte (begin fun _ => 0) a t :=
  threads_progress oneByte (fun _ => 0) (Run.nil _) rfl

theorem worker_stops_oneByte :
    [Act.endLoop .spike, .write .buffer 0, .endLoop .spike, .test .spike, .join .spike,
      .free .spike []].countP (Act.by .spike) ≤ 3 := by
  obtain ⟨s, run⟩ := run_oneByte
  have hzero : (int32 (oneByte .spike)).toNat = 0 := by decide
  have hstops := worker_stops _ _ run
  rw [hzero] at hstops
  exact hstops

end Memhog

end Memrec
