import Aesd.Foundations.FixedWidth
import Aesd.Foundations.BlockHeap
import Aesd.Foundations.While
import Aesd.Foundations.Run
import Aesd.Foundations.Interleave
import Aesd.Foundations.Links
import Aesd.Foundations.RingLog
import Aesd.Foundations.Lines
import Aesd.Foundations.Simulation
import Aesd.Foundations.Progress
import Aesd.Foundations.Descriptors
import Aesd.CircularBuffer.Model
import Aesd.CircularBuffer.Fifo
import Aesd.CircularBuffer.Find
import Aesd.CircularBuffer.Search
import Aesd.CircularBuffer.Narrowing
import Aesd.CircularBuffer.Lookup
import Aesd.Driver.Kernel
import Aesd.Driver.Model
import Aesd.Driver.System
import Aesd.Driver.WriteSpec
import Aesd.Driver.ReadSpec
import Aesd.Driver.Invariant
import Aesd.Driver.History
import Aesd.Driver.Failure
import Aesd.Driver.Ownership
import Aesd.Driver.Stream
import Aesd.Driver.Unread
import Aesd.Driver.Chunking
import Aesd.Driver.Session
import Aesd.Driver.ReadSize
import Aesd.Driver.Repeat
import Aesd.Driver.Contents
import Aesd.Driver.Representation
import Aesd.Driver.Seek
import Aesd.Driver.Readers
import Aesd.Driver.Sampling
import Aesd.Driver.Position
import Aesd.Driver.Underflow
import Aesd.Driver.EndOfFile
import Aesd.Driver.NewSize
import Aesd.Driver.Log
import Aesd.Driver.Refinement
import Aesd.Driver.Disclosure
import Aesd.Driver.Module
import Aesd.Driver.LateOpen
import Aesd.Driver.Unlocked
import Aesd.Driver.Overtaking
import Aesd.Driver.Overlap
import Aesd.Server.Connection
import Aesd.Server.Framing
import Aesd.Server.SeekText
import Aesd.Server.Locking
import Aesd.Server.Serial
import Aesd.Server.EndToEnd
import Aesd.Server.ThreadList
import Aesd.Server.Sweep
import Aesd.Server.Reaping
import Aesd.Server.Resources
import Aesd.Server.Progress
import Aesd.Server.Process
import Aesd.Server.Device
import Aesd.Server.DeviceLines
import Aesd.Server.DeviceReplies
import Aesd.Server.SeekErased
import Aesd.Server.Startup
import Aesd.Examples.Threading
import Aesd.Examples.Systemcalls
import Aesd.Examples.Redirection
