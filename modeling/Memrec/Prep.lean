import Memrec.Dmesg
import Memrec.Tracer
import Memrec.Wrapctr

/-!
# Configuration through `prep`

A configuration file may call `prep` of a module before the driver calls `new`.
`prep` leaves the value in a variable of the package, where `new` and `getdata`
should find it.  In five modules they do not.

* `new` of `ping` has a variable of its own under the name of the one that `prep`
  sets.
* `new` of `dmesg` sets the command to one that was meant for a test.
* `prep` of `linpack` compares a key in small letters with one that has a capital.
* `prep` of `strace` and of `ltrace` asks whether a list of functions is a
  reference to a text, which a plain text is not; and it takes the values of a
  hash for names as well as its keys.

Each of them still does what it is told if it is told what it does anyway
(`prep_takes_effect_iff`).  `sh` is the output of a command.
-/

namespace Memrec

open Perl Pat

/-- `lc`. -/
def lc (s : Text) : Text := s.map Char.toLower

/-! ## `ping` -/

namespace Ping

/-- The variables of the package. -/
structure Vars where
  pingCmd : Text
  pingArgs : Text
  pingIp : Text
  ypmatchCmd : Text

/-- `ping->prep( key, val )`. -/
def prep (vars : Vars) (key val : Text) : Vars :=
  if key = "ping_cmd".toList then { vars with pingCmd := val }
  else if key = "ping_args".toList then { vars with pingArgs := val }
  else if key = "ping_ip".toList then { vars with pingIp := val }
  else if key = "ypmatch_cmd".toList then { vars with ypmatchCmd := val }
  else vars

/-- `m/^(\d+\.\d+\.\d+\.\d+)/`. -/
def ipHead : Pat Text := do
  let a ← many1 Char.isDigit
  lit ['.']
  let b ← many1 Char.isDigit
  lit ['.']
  let c ← many1 Char.isDigit
  lit ['.']
  let d ← many1 Char.isDigit
  pure (a ++ '.' :: (b ++ '.' :: (c ++ '.' :: d)))

/-- `\w`. -/
def isWord (c : Char) : Bool := c.isAlphanum || c == '_'

/-- `ping->new( ping_host )`: the address that the object keeps.  The variable
`$ping_ip` of `new` hides that of the package. -/
def new (sh : Text → Text) (vars : Vars) (pingHost : Text) : Text :=
  if (atStart (cls Char.isDigit) pingHost).isSome then pingHost
  else if (search (cls isWord) pingHost).isSome then
    let hosts := sh (vars.ypmatchCmd ++ ' ' :: (pingHost ++ " hosts 2>&1".toList))
    (atStart ipHead ((readlines hosts).headD [])).getD "NO_PING".toList
  else "127.0.0.1".toList

/-- The command that pings an address. -/
def command (vars : Vars) (ip : Text) : Text :=
  vars.pingCmd ++ ' ' :: (vars.pingArgs ++ ' ' :: ip)

/-- `m/bytes from(.*?)time\=(.*)/`. -/
def replyLine : Pat Text := do
  lit "bytes from".toList
  let _ ← lazily notNl
  lit "time=".toList
  many notNl

/-- `m/(.) packets transmitted, (.) received/`. -/
def countLine : Pat (Char × Char) := do
  let a ← cls notNl
  lit " packets transmitted, ".toList
  let b ← cls notNl
  lit " received".toList
  pure (a, b)

/-- The body of the loop in `getdata`. -/
def scanLine (msec : ℚ) (line : Text) : ℚ :=
  match capture replyLine line with
  | some data => numify data
  | none =>
      match capture countLine line with
      | some c => if numify [c.1] = numify [c.2] then msec else -1
      | none => msec

/-- `getdata` of an object: the command that it runs, and what it stores. -/
def getdata (sh : Text → Text) (vars : Vars) (pingIp : Text) : Text × List (Text × ℚ) :=
  let cmd := command vars pingIp
  (cmd, [("ping".toList, (readlines (sh cmd)).foldl scanLine (-1))])

end Ping

/-! ## `dmesg` -/

namespace Dmesg

/-- The variables of the package. -/
structure Vars where
  dmesgExe : Text
  watchList : List (Pat Unit)

/-- `dmesg->prep( key, val )`; `regex` is the expression that a text stands for. -/
def prep (regex : Text → Pat Unit) (vars : Vars) (key val : Text) : Vars :=
  if lc key = "dmesg_exe".toList then { vars with dmesgExe := val }
  else if lc key = "watch".toList then { vars with watchList := vars.watchList ++ [regex val] }
  else vars

/-- `dmesg->new()` with the variables of the package: the variables afterwards,
the command, and the object. -/
def newWith (sh : Text → Text) (vars : Vars) : Vars × Text × Watcher :=
  let vars := { vars with dmesgExe := "cat foo.txt".toList }
  (vars, vars.dmesgExe, new (sh vars.dmesgExe))

/-- `getdata` with the variables of the package. -/
def getdataWith (sh : Text → Text) (vars : Vars) (self : Watcher) :
    Text × Watcher × List (Text × Text) :=
  (vars.dmesgExe, getdata vars.watchList self (sh vars.dmesgExe))

end Dmesg

/-! ## `linpack` -/

namespace Linpack

/-- The variables of the package. -/
structure Vars where
  linpack1Cmd : Text
  linpackNCmd : Text

/-- As they stand before any call of `prep`. -/
def vars₀ : Vars where
  linpack1Cmd := ("cd /opt/apps/intel/versions/20121002/mkl/benchmarks/linpack ; " ++
    "OMP_NUM_THREADS=1 ; export OMP_NUM_THREADS ; ./xlinpack_xeon64 lininput_sge1").toList
  linpackNCmd := ("cd /opt/apps/intel/versions/20121002/mkl/benchmarks/linpack ; " ++
    "./xlinpack_xeon64 lininput_sgeN").toList

/-- `linpack->prep( key, val )`. -/
def prep (vars : Vars) (key val : Text) : Vars :=
  if lc key = "linpack_1".toList then { vars with linpack1Cmd := val }
  else if lc key = "linpack_N".toList then { vars with linpackNCmd := val }
  else vars

/-- `m/Performance Summary\s+\((.)/`. -/
def summaryLine : Pat Char := do
  lit "Performance Summary".toList
  let _ ← many1 isSpace
  lit ['(']
  cls notNl

/-- The variables of a loop in `new`. -/
structure Scan where
  flag : Bool
  mult : ℚ
  kflops : ℚ

/-- The body of the loop. -/
def scanLine (st : Scan) (line : Text) : Scan :=
  let st := match capture summaryLine line with
    | none => st
    | some c =>
        { st with
          flag := true
          mult := if c.toLower = 'k' then 1 else if c.toLower = 'g' then 1024 else st.mult }
  if st.flag && (atStart (cls Char.isDigit) line).isSome then
    { st with kflops := fieldNum (splitWs line) 4 * st.mult }
  else st

/-- The figure in the output of one of the two commands. -/
def kflops (out : Text) : ℚ := ((readlines out).foldl scanLine ⟨false, 1, -1⟩).kflops

/-- `linpack->new()`: the commands for one thread and for all threads, and the
object. -/
def new (sh : Text → Text) (vars : Vars) : (Text × Text) × List (Text × ℚ) :=
  let cmd1 := vars.linpack1Cmd ++ " 2>&1".toList
  let cmdN := vars.linpackNCmd ++ " 2>&1".toList
  ((cmd1, cmdN), [("cpu_kflops".toList, round0 (kflops (sh cmd1))),
    ("total_kflops".toList, round0 (kflops (sh cmdN)))])

end Linpack

/-! ## `strace` and `ltrace` -/

namespace Tracer

/-- `%all_funcs` of `strace.pm`. -/
def straceFuncs : List Text :=
  ["accept", "access", "acct", "add_key", "adjtimex", "afs_syscall", "alarm", "alloc_hugepages",
    "arch_prctl", "bdflush", "bind", "break", "brk", "cacheflush", "chdir", "chmod", "chown",
    "chroot", "clock_getres", "clock_gettime", "clock_nanosleep", "clock_settime", "clone2",
    "clone", "close", "connect", "creat", "create_module", "delete_module", "dup2", "dup",
    "epoll_create", "epoll_ctl", "epoll_wait", "execve", "_exit", "exit", "_Exit", "exit_group",
    "faccessat", "fadvise", "fadvise64", "fadvise64_64", "fattch", "fchdir", "fchmod", "fchmodat",
    "fchown", "fchownat", "fcntl", "fdatasync", "fdetach", "flock", "fork", "free_hugepages",
    "fstat", "fstatat", "fstatfs", "fstatvfs", "fsync", "ftruncate", "futex", "futimesat",
    "getcontext", "getcwd", "getdents", "getdomainname", "getdtablesize", "getegid", "geteuid",
    "getgid", "getgroups", "gethostid", "gethostname", "getitimer", "get_kernel_syms",
    "get_mempolicy", "getmsg", "getpagesize", "getpeername", "getpgid", "getpgrp", "getpid",
    "getpmsg", "getppid", "getpriority", "getresgid", "getresuid", "getrlimit", "get_robust_list",
    "getrusage", "getsid", "getsockname", "getsockopt", "get_thread_area", "gettid",
    "gettimeofday", "getuid", "getunwind", "gtty", "idle", "inb", "inb_p", "init_module", "inl",
    "inl_p", "inotify_add_watch", "inotify_init", "inotify_rm_watch", "insb", "insl", "insw",
    "intro", "inw", "inw_p", "io_cancel", "ioctl", "ioctl_list", "io_destroy", "io_getevents",
    "ioperm", "iopl", "ioprio_get", "ioprio_set", "io_setup", "io_submit", "ipc", "isastream",
    "kexec_load", "keyctl", "kill", "killpg", "lchown", "link", "linkat", "listen", "_llseek",
    "llseek", "lock", "lookup_dcookie", "lseek", "lstat", "madvise", "mincore", "mkdir",
    "mkdirat", "mknod", "mknodat", "mlock", "mlockall", "mmap2", "mmap", "modify_ldt", "mount",
    "move_pages", "mprotect", "mpx", "mq_getsetattr", "mremap", "msgctl", "msgget", "msgop",
    "msgrcv", "msgsnd", "msync", "multiplexer", "munlock", "munlockall", "munmap", "nanosleep",
    "_newselect", "nfsservctl", "nice", "obsolete", "oldfstat", "oldlstat", "oldolduname",
    "oldstat", "olduname", "open", "openat", "outb", "outb_p", "outl", "outl_p", "outsb", "outsl",
    "outsw", "outw", "outw_p", "path_resolution", "pause", "perfmonctl", "personality", "pipe",
    "pivot_root", "poll", "posix_fadvise", "ppoll", "prctl", "pread", "prof", "pselect", "ptrace",
    "putmsg", "putpmsg", "pwrite", "query_module", "quotactl", "read", "readahead", "readdir",
    "readlink", "readlinkat", "readv", "reboot", "recv", "recvfrom", "recvmsg",
    "remap_file_pages", "rename", "renameat", "request_key", "restart_syscall", "rmdir", "rtas",
    "rt_sigaction", "rt_sigpending", "rt_sigprocmask", "rt_sigqueueinfo", "rt_sigreturn",
    "rt_sigsuspend", "rt_sigtimedwait", "sbrk", "sched_getaffinity", "sched_getparam",
    "sched_get_priority_max", "sched_get_priority_min", "sched_getscheduler",
    "sched_rr_get_interval", "sched_setaffinity", "sched_setparam", "sched_setscheduler",
    "sched_yield", "security", "select", "select_tut", "semctl", "semget", "semop", "semtimedop",
    "send", "sendfile", "sendmsg", "sendto", "setcontext", "setdomainname", "setegid", "seteuid",
    "setfsgid", "setfsuid", "setgid", "setgroups", "sethostid", "sethostname", "setitimer",
    "setpgid", "setpgrp", "setpriority", "setregid", "setresgid", "setresuid", "setreuid",
    "setrlimit", "set_robust_list", "setsid", "setsockopt", "set_thread_area", "set_tid_address",
    "settimeofday", "setuid", "setup", "sgetmask", "shmat", "shmctl", "shmdt", "shmget", "shmop",
    "shutdown", "sigaction", "sigaltstack", "signal", "sigpending", "sigprocmask", "sigqueue",
    "sigreturn", "sigsuspend", "sigtimedwait", "sigwaitinfo", "socket", "socketcall",
    "socketpair", "splice", "spu_create", "spufs", "spu_run", "ssetmask", "stat", "statfs",
    "statfs64", "statvfs", "stime", "stty", "swapcontext", "swapoff", "swapon", "symlink",
    "symlinkat", "sync", "sync_file_range", "_syscall", "syscall", "syscalls", "_sysctl",
    "sysctl", "sysfs", "sysinfo", "syslog", "tee", "tgkill", "time", "timer_create",
    "timer_delete", "timer_getoverrun", "timer_gettime", "timer_settime", "times", "tkill",
    "truncate", "tux", "umask", "umount2", "umount", "uname", "undocumented", "unimplemented",
    "unlink", "unlinkat", "unshare", "uselib", "ustat", "utime", "utimes", "vfork", "vhangup",
    "vm86", "vm86old", "vmsplice", "vserver", "wait", "wait3", "wait4", "waitid", "waitpid",
    "write", "writev"].map String.toList

/-- What a configuration file may pass for the list of functions: a text, a
reference to a text, which reads as something like `SCALAR(0x1c6f3a8)`, a reference
to a hash, or something else. -/
inductive FuncList
  | text (s : Text)
  | scalarRef (shown : Text)
  | hashRef (h : List (Text × Text))
  | other

/-- The variables of the package. -/
structure Vars where
  funcs : List Text
  allFuncs : List Text
  prepDone : Bool

/-- The keys of a hash that is filled in this order. -/
def keysFrom (ks : List Text) : List Text := ks.foldl (fun l k => l.insert k) []

/-- The end of `prep`, which is the same in both modules. -/
def setFuncs (vars : Vars) (flist : FuncList) : Vars :=
  { vars with
    funcs := match flist with
      | .scalarRef shown =>
          if shown = [] then vars.allFuncs else keysFrom (splitChar ',' shown)
      | .hashRef h => keysFrom ((h.flatMap fun p => [p.1, p.2]).filter fun k => k ≠ [])
      | _ => vars.allFuncs
    prepDone := true }

/-- `new( pid )` of either module: the variables afterwards, and the command. -/
def newWith (tracer : Text) (vars : Vars) (pid : Text) : Vars × Text :=
  (if vars.prepDone then vars else { vars with funcs := vars.allFuncs },
    tracer ++ pid ++ " 2>&1".toList)

/-- `strace->prep( prog, flist )`. -/
def stracePrep (vars : Vars) (call : Text × FuncList) : Vars := setFuncs vars call.2

/-- `strace->new( pid )`. -/
def straceNew : Vars → Text → Vars × Text := newWith "/usr/bin/strace -f -s 0 -p ".toList

/-- `$prog =~ s/\s(.*)//`. -/
def program (prog : Text) : Text :=
  match search (do let _ ← cls isSpace; many notNl) prog with
  | none => prog
  | some r => r.1 ++ r.2.2

/-- `m/^\s+U\s+(.*)/`. -/
def nmLine : Pat Text := do
  let _ ← many1 isSpace
  lit ['U']
  let _ ← many1 isSpace
  many notNl

/-- `$fcn =~ s/\@\@.*//`. -/
def unversioned (fcn : Text) : Text :=
  match search (do lit "@@".toList; many notNl) fcn with
  | none => fcn
  | some r => r.1 ++ r.2.2

/-- The functions that a program calls, as `nm` finds them. -/
def nmFuncs (sh : Text → Text) (prog : Text) : List Text :=
  if prog = [] then []
  else (readlines (sh ("/usr/bin/nm ".toList ++ program prog))).filterMap fun l =>
    (atStart nmLine l).map unversioned

/-- `ltrace->prep( prog, flist )`. -/
def ltracePrep (sh : Text → Text) (vars : Vars) (call : Text × FuncList) : Vars :=
  setFuncs { vars with
    allFuncs := (nmFuncs sh call.1).foldl (fun l k => l.insert k) vars.allFuncs } call.2

/-- `ltrace->new( pid )`. -/
def ltraceNew : Vars → Text → Vars × Text := newWith "/usr/bin/ltrace -s 0 -S -p ".toList

/-- Before any call of `prep`. -/
def straceVars₀ : Vars := ⟨[], straceFuncs, false⟩

/-- Before any call of `prep`. -/
def ltraceVars₀ : Vars := ⟨[], ltraceFuncs, false⟩

/-- `getdata` counts exactly these functions, whatever it reads. -/
def CountsExactly (vars : Vars) (names : List Text) : Prop :=
  ∀ env : Env, env.funcs = vars.funcs → ∀ text x,
    x ∈ (getdata env text).map Prod.fst ↔ x ∈ names

theorem countsExactly_iff {vars : Vars} {names : List Text} :
    CountsExactly vars names ↔ ∀ x, x ∈ vars.funcs ↔ x ∈ names := by
  have hkeys : ∀ (env : Env) text, (getdata env text).map Prod.fst = env.funcs := by
    intro env text
    rw [getdata, List.map_map]
    exact List.map_id _
  constructor
  · intro h x
    -- A text that is longer than all of them together is none of them.
    have hcaller : ' ' :: vars.funcs.flatten ∉ vars.funcs := by
      intro hmem
      have hlen := (List.sublist_flatten_of_mem hmem).length_le
      rw [List.length_cons] at hlen
      omega
    have hx := h ⟨vars.funcs, some (' ' :: vars.funcs.flatten), hcaller⟩ rfl [] x
    rwa [hkeys] at hx
  · intro h env henv text x
    rw [hkeys, henv]
    exact h x

/-- **A list of functions** takes effect if it is a text that names all functions
there are, or a hash whose values say nothing that its keys do not. -/
theorem setFuncs_counts (vars : Vars) :
    (∀ s, CountsExactly (setFuncs vars (.text s)) (splitChar ',' s) ↔
      ∀ x, x ∈ vars.allFuncs ↔ x ∈ splitChar ',' s) ∧
    ∀ h, CountsExactly (setFuncs vars (.hashRef h)) (h.map Prod.fst) ↔
      [] ∉ h.map Prod.fst ∧ ∀ p ∈ h, p.2 ≠ [] → p.2 ∈ h.map Prod.fst := by
  refine ⟨fun s => countsExactly_iff, fun h => ?_⟩
  have hfuncs : ∀ x, x ∈ (setFuncs vars (.hashRef h)).funcs ↔
      x ≠ [] ∧ ∃ p ∈ h, x = p.1 ∨ x = p.2 := by
    intro x
    simp only [setFuncs, keysFrom, mem_foldl_insert, List.mem_filter, List.mem_flatMap,
      List.mem_cons, List.not_mem_nil, or_false, decide_eq_true_eq]
    exact and_comm
  rw [countsExactly_iff]
  simp only [hfuncs]
  constructor
  · intro hall
    refine ⟨fun hnil => ((hall []).mpr hnil).1 rfl, fun p hp hne => ?_⟩
    exact (hall p.2).mp ⟨hne, p, hp, Or.inr rfl⟩
  · rintro ⟨hnil, hvalues⟩ x
    constructor
    · rintro ⟨hne, p, hp, rfl | rfl⟩
      · exact List.mem_map_of_mem hp
      · exact hvalues p hp hne
    · intro hx
      obtain ⟨p, hp, rfl⟩ := List.mem_map.mp hx
      exact ⟨fun h => hnil (h ▸ hx), p, hp, Or.inl rfl⟩

/-- **Any configuration file** leaves `strace` its list of all functions. -/
theorem strace_allFuncs (calls : List (Text × FuncList)) :
    (calls.foldl stracePrep straceVars₀).allFuncs = straceFuncs := by
  induction calls using List.reverseRecOn with
  | nil => rfl
  | append_singleton calls c ih =>
      rw [List.foldl_append]
      exact ih

/-- **Any configuration file** adds to that of `ltrace` what the programs call. -/
theorem mem_ltrace_allFuncs (sh : Text → Text) (calls : List (Text × FuncList)) (x : Text) :
    x ∈ (calls.foldl (ltracePrep sh) ltraceVars₀).allFuncs ↔
      x ∈ ltraceFuncs ∨ ∃ p ∈ calls.map Prod.fst, x ∈ nmFuncs sh p := by
  induction calls using List.reverseRecOn with
  | nil => simp [ltraceVars₀]
  | append_singleton calls c ih =>
      rw [List.foldl_append]
      show x ∈ (nmFuncs sh c.1).foldl (fun (l : List Text) k => l.insert k) _ ↔ _
      rw [mem_foldl_insert, ih]
      simp only [List.map_append, List.map_cons, List.map_nil, List.mem_append,
        List.mem_singleton, or_and_right, exists_or, exists_eq_left]
      rw [or_comm, or_assoc]

end Tracer

/-! ## The other packages -/

/-- Nothing in small letters is a capital. -/
theorem toLower_ne (c : Char) : c.toLower ≠ 'N' := by
  intro h
  unfold Char.toLower at h
  split at h
  · next hc =>
      have hlow : 65 ≤ c.val.toNat := UInt32.le_iff_toNat_le.mp hc.1
      have hhigh : c.val.toNat ≤ 90 := UInt32.le_iff_toNat_le.mp hc.2
      have hval : (c.val + ('a'.val - 'A'.val)).toNat = 78 := congrArg (fun d => d.val.toNat) h
      have hgap : ('a'.val - 'A'.val).toNat = 32 := rfl
      rw [UInt32.toNat_add, hgap] at hval
      omega
  · next hc => exact hc (h ▸ by decide)

namespace Linpack

/-- No key reaches the command for all threads. -/
theorem prep_linpackNCmd (vars : Vars) (key val : Text) :
    (prep vars key val).linpackNCmd = vars.linpackNCmd := by
  have hkey : lc key ≠ "linpack_N".toList := by
    intro h
    have hmem : 'N' ∈ lc key := by rw [h]; decide
    obtain ⟨c, -, hc⟩ := List.mem_map.mp hmem
    exact toLower_ne c hc
  rw [prep, if_neg hkey]
  split <;> rfl

/-- **Any configuration file** leaves it as it was. -/
theorem preps_linpackNCmd (calls : List (Text × Text)) :
    (calls.foldl (fun vars c => prep vars c.1 c.2) vars₀).linpackNCmd = vars₀.linpackNCmd := by
  induction calls using List.reverseRecOn with
  | nil => rfl
  | append_singleton calls c ih =>
      rw [List.foldl_append]
      exact (prep_linpackNCmd _ c.1 c.2).trans ih

end Linpack

theorem Ping.command_inj {vars : Vars} {ip ip' : Text} :
    command vars ip = command vars ip' ↔ ip = ip' := by
  simp [command]

/-- **What takes effect.**  For every output of the commands, every configuration
before and every value:

* `ping` pings the address exactly if it is that of the machine itself;
* `dmesg` runs the command exactly if it is the one of the test;
* `linpack` runs it for all threads exactly if it is the one that is built in;
* `strace` counts the functions of a text exactly if they are all it knows, and
  those of a hash exactly if no key is empty and every value is empty or a key;
* `ltrace` does so too, and also knows what `nm` has found in the programs. -/
theorem prep_takes_effect_iff (sh : Text → Text) (regex : Text → Pat Unit) :
    (∀ (vars : Ping.Vars) (v : Text),
      let vars' := Ping.prep vars "ping_ip".toList v
      (Ping.getdata sh vars' (Ping.new sh vars' [])).1 = Ping.command vars' v ↔
        v = "127.0.0.1".toList) ∧
    (∀ (vars : Dmesg.Vars) (v : Text),
      let out := Dmesg.newWith sh (Dmesg.prep regex vars "dmesg_exe".toList v)
      (out.2.1 = v ∧ (Dmesg.getdataWith sh out.1 out.2.2).1 = v) ↔ v = "cat foo.txt".toList) ∧
    (∀ (calls : List (Text × Text)) (v : Text),
      let vars := calls.foldl (fun vars c => Linpack.prep vars c.1 c.2) Linpack.vars₀
      (Linpack.new sh (Linpack.prep vars "linpack_N".toList v)).1.2 = v ++ " 2>&1".toList ↔
        v = Linpack.vars₀.linpackNCmd) ∧
    (∀ (calls : List (Text × Tracer.FuncList)) (prog pid : Text),
      let vars := calls.foldl Tracer.stracePrep Tracer.straceVars₀
      let new := fun flist => (Tracer.straceNew (Tracer.stracePrep vars (prog, flist)) pid).1
      (∀ s, Tracer.CountsExactly (new (.text s)) (splitChar ',' s) ↔
        ∀ x, x ∈ Tracer.straceFuncs ↔ x ∈ splitChar ',' s) ∧
      ∀ h, Tracer.CountsExactly (new (.hashRef h)) (h.map Prod.fst) ↔
        [] ∉ h.map Prod.fst ∧ ∀ p ∈ h, p.2 ≠ [] → p.2 ∈ h.map Prod.fst) ∧
    (∀ (calls : List (Text × Tracer.FuncList)) (prog pid : Text),
      let vars := calls.foldl (Tracer.ltracePrep sh) Tracer.ltraceVars₀
      let new := fun flist => (Tracer.ltraceNew (Tracer.ltracePrep sh vars (prog, flist)) pid).1
      (∀ s, Tracer.CountsExactly (new (.text s)) (splitChar ',' s) ↔
        ∀ x, (x ∈ Tracer.ltraceFuncs ∨ ∃ p ∈ calls.map Prod.fst ++ [prog],
          x ∈ Tracer.nmFuncs sh p) ↔ x ∈ splitChar ',' s) ∧
      ∀ h, Tracer.CountsExactly (new (.hashRef h)) (h.map Prod.fst) ↔
        [] ∉ h.map Prod.fst ∧ ∀ p ∈ h, p.2 ≠ [] → p.2 ∈ h.map Prod.fst) := by
  refine ⟨fun vars v => ?_, fun vars v => ?_, fun calls v => ?_, fun calls prog pid => ?_,
    fun calls prog pid => ?_⟩
  · exact Ping.command_inj.trans eq_comm
  · exact and_self_iff.trans eq_comm
  · have hcmd := (Linpack.prep_linpackNCmd (calls.foldl (fun vars c => Linpack.prep vars c.1 c.2)
      Linpack.vars₀) "linpack_N".toList v).trans (Linpack.preps_linpackNCmd calls)
    show (Linpack.prep _ _ _).linpackNCmd ++ " 2>&1".toList = _ ↔ _
    rw [hcmd, List.append_left_inj]
    exact eq_comm
  · have hcounts := Tracer.setFuncs_counts (calls.foldl Tracer.stracePrep Tracer.straceVars₀)
    rw [Tracer.strace_allFuncs] at hcounts
    exact hcounts
  · have hall := Tracer.mem_ltrace_allFuncs sh (calls ++ [(prog, .other)])
    rw [List.foldl_append, List.map_append] at hall
    obtain ⟨htext, hhash⟩ := Tracer.setFuncs_counts (Tracer.ltracePrep sh
      (calls.foldl (Tracer.ltracePrep sh) Tracer.ltraceVars₀) (prog, .other))
    refine ⟨fun s => (htext s).trans (forall_congr' fun x => ?_), hhash⟩
    exact iff_congr (hall x) Iff.rfl

/-- The values of a configuration file, and a hash as one writes it. -/
theorem prep_ignored :
    let sh : Text → Text := fun _ => []
    let ping := Ping.prep ⟨"/bin/ping".toList, "-c 1 -n".toList, [], "/bin/ypmatch".toList⟩
      "ping_ip".toList "10.184.3.10".toList
    let dmesg := Dmesg.prep (fun _ => pure ()) ⟨"/bin/dmesg".toList, Dmesg.watchList⟩
      "dmesg_exe".toList "/bin/dmesg".toList
    let linpack := Linpack.prep Linpack.vars₀ "linpack_N".toList "/opt/linpack".toList
    let text := Tracer.stracePrep Tracer.straceVars₀ ([], .text "open,close".toList)
    let hash := Tracer.stracePrep Tracer.straceVars₀ ([], .hashRef [("open".toList, ['1'])])
    (Ping.getdata sh ping (Ping.new sh ping [])).1 = "/bin/ping -c 1 -n 127.0.0.1".toList ∧
      (Dmesg.newWith sh dmesg).2.1 = "cat foo.txt".toList ∧
      (Linpack.new sh linpack).1.2 = Linpack.vars₀.linpackNCmd ++ " 2>&1".toList ∧
      "accept".toList ∈ (Tracer.straceNew text "7".toList).1.funcs ∧
      ¬ Tracer.CountsExactly (Tracer.straceNew text "7".toList).1
        (splitChar ',' "open,close".toList) ∧
      (Tracer.straceNew hash "7".toList).1.funcs = [['1'], "open".toList] ∧
      ¬ Tracer.CountsExactly (Tracer.straceNew hash "7".toList).1 ["open".toList] := by
  intro sh ping dmesg linpack text hash
  have haccept : "accept".toList ∈ (Tracer.straceNew text "7".toList).1.funcs := by decide +kernel
  have hone : (Tracer.straceNew hash "7".toList).1.funcs = [['1'], "open".toList] := by
    decide +kernel
  refine ⟨by decide +kernel, by decide +kernel, by decide +kernel, haccept, fun h => ?_, hone,
    fun h => ?_⟩
  · have hmem := (Tracer.countsExactly_iff.mp h "accept".toList).mp haccept
    exact absurd hmem (by decide +kernel)
  · have hmem := (Tracer.countsExactly_iff.mp h ['1']).mp (by rw [hone]; decide)
    exact absurd hmem (by decide +kernel)

end Memrec
