import Aveo.Lib.Machine
import Aveo.Lib.RecMutex
import Aveo.Lib.Pipeline
import Aveo.Lib.Memory
import Aveo.Lib.Outcome
import Aveo.Queue.CommQueue
import Aveo.Context.Submit
import Aveo.Progress.Blocks
import Aveo.Progress.VH
import Aveo.Progress.Replies
import Aveo.Progress.Close
import Aveo.Progress.Wakeup
import Aveo.Progress.Stranded
import Aveo.Progress.Listed
import Aveo.Progress.Captured
import Aveo.Progress.Arrival
import Aveo.Progress.Results
import Aveo.Progress.Synchronize
import Aveo.Progress.Concurrent
import Aveo.Progress.Chain
import Aveo.Progress.Transfers
import Aveo.Args.Layout
import Aveo.Args.Setup
import Aveo.Args.Scalars
import Aveo.Args.Setters
import Aveo.Args.CopyOut
import Aveo.Args.Delivery
import Aveo.Transfer.Fragments
import Aveo.Transfer.Data
import Aveo.Context.LargeCall
import Aveo.Context.CallData
import Aveo.Hmem.Procs
import Aveo.Hmem.Destroy
import Aveo.Hmem.Limit
import Aveo.Hmem.Entry
import Aveo.Hmem.Copy
import Aveo.Hmem.CallSync
import Aveo.Hmem.Dma
import Aveo.Hmem.SharedMem
import Aveo.Proc.Hooks
import Aveo.Proc.Symbols
import Aveo.Proc.Contexts
import Aveo.Ve.Peer
import Aveo.Ve.Exception
import Aveo.Progress.Offload
import Aveo.Progress.Buffers
import Aveo.Progress.Passes
import Aveo.Progress.Unwound
import Aveo.Progress.ReadBack
import Aveo.Progress.Regular
import Aveo.Progress.Completion
import Aveo.Lib.Decimal
import Aveo.Proc.Nodes
import Aveo.Proc.Survival
