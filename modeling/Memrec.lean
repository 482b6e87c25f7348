import Memrec.CpuLoad
import Memrec.Cpuinfo
import Memrec.DaemonLog
import Memrec.DaemonPlot
import Memrec.DevColumns
import Memrec.DiskSplit
import Memrec.Divisors
import Memrec.Exits
import Memrec.FindChildren
import Memrec.Histogram
import Memrec.IfaceNames
import Memrec.InnerCount
import Memrec.KeyLookup
import Memrec.KvgrepRows
import Memrec.LineSplit
import Memrec.LoadGen
import Memrec.LogBackends
import Memrec.LogNoise
import Memrec.LogRoundTrip
import Memrec.Memhog
import Memrec.MemhogThreads
import Memrec.PingSummary
import Memrec.PlotRange
import Memrec.Power
import Memrec.Prep
import Memrec.QstatKeys
import Memrec.Recorder
import Memrec.RecorderLog
import Memrec.SensorClock
import Memrec.SensorReports
import Memrec.Sgeinfo
import Memrec.Sgelog
import Memrec.Siblings
import Memrec.SnmpBulk
import Memrec.SwitchMax
import Memrec.SwitchPorts
import Memrec.Topwatch
import Memrec.TraceLine
import Memrec.TstatDump
import Memrec.WattsupMeter
import Memrec.WindowHistory
