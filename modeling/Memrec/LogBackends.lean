import Memrec.CellBank
import Memrec.Sprintf

/-!
# The back ends of `write_log`

`dlogger` and `duologger` pass every finished line to `write_log`, which hands it
to one of four back ends.  A file and the standard output get the text and a line
feed, and the package `Netsyslog` sends a datagram that ends with the text.  The
local `syslog` gets the text where it expects a format.

The text carries what the modules found, kernel messages and process names among
it.  So the four back ends agree on it exactly if it says nothing to `sprintf`:
no `%m` and no conversion (`back_ends_agree_iff`).
-/

namespace Memrec

open Perl Perl.Pat CellBank

/-! ## `Netsyslog` -/

/-- `%syslog_priorities`. -/
def syslogPriorities : List (Text × Nat) :=
  [("emerg", 0), ("emergency", 0), ("alert", 1), ("crit", 2), ("critical", 2), ("err", 3),
    ("error", 3), ("warning", 4), ("notice", 5), ("info", 6), ("informational", 6),
    ("debug", 7)].map fun p : String × Nat => (p.1.toList, p.2)

/-- `%syslog_facilities`. -/
def syslogFacilities : List (Text × Nat) :=
  [("kern", 0), ("kernel", 0), ("user", 1), ("mail", 2), ("daemon", 3), ("system", 3),
    ("auth", 4), ("syslog", 5), ("internal", 5), ("lpr", 6), ("printer", 6), ("news", 7),
    ("uucp", 8), ("cron", 9), ("clock", 9), ("authpriv", 10), ("security2", 10), ("ftp", 11),
    ("FTP", 11), ("NTP", 11), ("audit", 13), ("alert", 14), ("clock2", 15), ("local0", 16),
    ("local1", 17), ("local2", 18), ("local3", 19), ("local4", 20), ("local5", 21),
    ("local6", 22), ("local7", 23)].map fun p : String × Nat => (p.1.toList, p.2)

/-- `$table{$key} || $default`: a zero in the table counts as missing. -/
def numberOr (table : List (Text × Nat)) (key : Text) (default : Nat) : Nat :=
  let n := (table.lookup key).getD 0
  if n = 0 then default else n

/-- A UDP datagram and where it is sent. -/
structure Datagram where
  host : Text
  port : Text
  message : Text
  deriving DecidableEq

namespace Netsyslog

/-- The parameters of a call, by name. -/
abbrev Params := List (Text × Text)

/-- `new Netsyslog( par )` in the script `script`, as process `pid`. -/
def new (script : Text) (pid : Nat) (par : Params) : Bank Text Text :=
  let name := (capture (do
    let _ ← many1 notNl
    lit "/".toList
    many1 notNl) script).getD script
  putAll (fun _ => none)
    ([("Name".toList, name), ("Facility".toList, "local5".toList),
      ("Priority".toList, "error".toList), ("Pid".toList, decimal pid),
      ("SyslogPort".toList, "514".toList), ("SyslogHost".toList, "127.0.0.1".toList)] ++ par)

/-- `send( msg, par )`; `host` and `ts` are the address of the machine and the
time of day, which a message after RFC 3164 carries. -/
def send (self : Bank Text Text) (host ts : Text) (msg : Text) (par : Params) : Datagram :=
  let local_ := putAll self par
  let get := fun k : String => (local_ k.toList).getD []
  let digits := chomp (get "Pid")
  let pid := if digits ≠ [] ∧ digits.all Char.isDigit then '[' :: (get "Pid" ++ [']']) else []
  let facility := numberOr syslogFacilities (get "Facility") 21
  let priority := numberOr syslogPriorities (get "Priority") 3
  let d := facility <<< 3 ||| priority
  let tag := get "Name" ++ pid ++ ": ".toList
  let rfc3164 := get "rfc3164" ≠ [] ∧ get "rfc3164" ≠ ['0']
  let header := '<' :: (decimal d ++ '>' ::
    (if rfc3164 then ts ++ ' ' :: (host ++ ' ' :: tag) else tag))
  ⟨get "SyslogHost", get "SyslogPort", header ++ msg⟩

end Netsyslog

/-! ## `write_log` -/

/-- What the options and the configuration file set. -/
structure LogConfig where
  logname : Text
  loglocal : Text
  loghost : Text
  logport : Nat

/-- The process: its configuration and what the system tells it. -/
structure LogProcess where
  config : LogConfig
  script : Text
  pid : Nat
  syslog : Syslog
  host : Text

/-- `$netlog_obj`. -/
def LogProcess.netlogObj (p : LogProcess) : Bank Text Text :=
  Netsyslog.new p.script p.pid [("Facility".toList, p.config.loglocal),
    ("SyslogPort".toList, decimal p.config.logport), ("Name".toList, p.config.logname),
    ("SyslogHost".toList, p.config.loghost), ("Priority".toList, "info".toList)]

/-- What leaves the process: a message for the local `syslog`, unless making it
ends the process; characters for a file; a datagram. -/
inductive LogOutput
  | syslog (priority : Text) (message : Option Text)
  | txtlog (s : Text)
  | stdout (s : Text)
  | net (d : Datagram)
  deriving DecidableEq

/-- `write_log( txt )` at the time of day `ts`. -/
def writeLog (p : LogProcess) (ts : Text) (outtype : Nat) (txt : Text) : Option LogOutput :=
  if outtype = 0 then some (.syslog "notice".toList (syslogText p.syslog txt))
  else if outtype = 1 then some (.txtlog (txt ++ ['\n']))
  else if outtype = 2 then some (.stdout (txt ++ ['\n']))
  else if outtype = 3 then
    some (.net (Netsyslog.send p.netlogObj p.host ts txt [("Priority".toList, "notice".toList)]))
  else none

/-- The header `<PRI>name[pid]: ` of a datagram; the priority is `notice`. -/
def LogProcess.header (p : LogProcess) : Text :=
  '<' :: (decimal (numberOr syslogFacilities p.config.loglocal 21 <<< 3 ||| 5 : Nat) ++
    '>' :: (p.config.logname ++ '[' :: (decimal p.pid ++ "]: ".toList)))

end Memrec
