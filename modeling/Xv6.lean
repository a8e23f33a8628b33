import Xv6.Theorems.Buffers
import Xv6.Theorems.FileModel
import Xv6.Theorems.PipeWakeup
import Xv6.Theorems.PtableTimes
import Xv6.Theorems.Bcache
import Xv6.Theorems.Icache
import Xv6.Theorems.Tickets
import Xv6.Theorems.Smp
import Xv6.Theorems.SignalRuns
import Xv6.Theorems.Ide
import Xv6.Theorems.MkfsKernel
import Xv6.Theorems.Console
import Xv6.Theorems.Umalloc
import Xv6.Theorems.Runcmd
import Xv6.Theorems.Filewrite
import Xv6.Theorems.Copyout
import Xv6.Theorems.Fork
import Xv6.Theorems.TransferRuns
import Xv6.Theorems.Sends
import Xv6.Theorems.Layout
import Xv6.Theorems.Open
import Xv6.Theorems.Mp
import Xv6.Theorems.Grep
import Xv6.Theorems.Pagetable
