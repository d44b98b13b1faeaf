import Txv6.ConflictAbort
import Txv6.TxLayer.Serial
import Txv6.Writers.Released
import Txv6.Refs.Exact
import Txv6.Deadlock.Acyclic
import Txv6.Crash.Safe
import Txv6.Pipe.Fifo
import Txv6.Procs.ExitWait
import Txv6.LogSpace
import Txv6.Shell.Run
import Txv6.Ftable.Exact
import Txv6.Volume.Fault
import Txv6.Volume.Paths
import Txv6.Volume.Reclaim
import Txv6.Volume.Descriptors
import Txv6.Grep.Lines
import Txv6.Console.Line
import Txv6.Vm.Transfer
import Txv6.Session
