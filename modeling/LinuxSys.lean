import LinuxSys.Lib.Machine
import LinuxSys.Lib.Deframe
import LinuxSys.Lib.Segmentation
import LinuxSys.Lib.Bpf
import LinuxSys.Lib.Bytes
import LinuxSys.Lib.Utf8
import LinuxSys.Chatterd.Wire
import LinuxSys.Chatterd.Deliver
import LinuxSys.Chatterd.Chunks
import LinuxSys.Chatterd.Engines
import LinuxSys.Fleet.Arrival
import LinuxSys.Fleet.Attached
import LinuxSys.Fleet.FdReuse
import LinuxSys.Fleet.Once
import LinuxSys.Fleet.Pmon
import LinuxSys.Fleet.Shutdown
import LinuxSys.Fleet.Tags
import LinuxSys.Lib.Socket
import LinuxSys.Servers.Control
import LinuxSys.Servers.FleetNode
import LinuxSys.Servers.Survival
import LinuxSys.App.Replies
import LinuxSys.Lib.FiniteMap
import LinuxSys.Lib.Progress
import LinuxSys.Lib.Records
import LinuxSys.Lib.Seqlock
import LinuxSys.Servers.GoHub
import LinuxSys.Servers.GoHubRing
import LinuxSys.Shmkv.Map
import LinuxSys.Shmkv.Ring
import LinuxSys.Shmkv.Watch
import LinuxSys.Servers.Framing
import LinuxSys.Servers.StopPath
import LinuxSys.Servers.StopProgress
import LinuxSys.Chatterd.Async
import LinuxSys.Chatterd.AsyncHub
import LinuxSys.Fastpath.Echo
import LinuxSys.Fwatch.Merge
import LinuxSys.Fwatch.Watch
import LinuxSys.Lib.Futex
import LinuxSys.Pmon.Capture
import LinuxSys.Shmkv.Wakeup
import LinuxSys.Spscring.Ring
import LinuxSys.Lib.Condvar
import LinuxSys.Lib.Wrap
import LinuxSys.Pidfd.Agree
import LinuxSys.Supervise.Right
import LinuxSys.Uring.Right
import LinuxSys.Workq.Right
import LinuxSys.Lib.Mapping
import LinuxSys.Shmkv.Access
import LinuxSys.Chatterd.Outbuf
import LinuxSys.Fwatch.Snapshot
import LinuxSys.Chatterd.Readers
import LinuxSys.Servers.Notices
import LinuxSys.Chatterd.Deadline
import LinuxSys.Lib.Fifo
import LinuxSys.Pmon.Tail
import LinuxSys.Pmon.Stop
import LinuxSys.Pmon.Drain
import LinuxSys.Pmon.MutualWait
import LinuxSys.Lib.Regex
import LinuxSys.HostIds.Rules
import LinuxSys.HostIds.Scrub
import LinuxSys.Parhash.Right
import LinuxSys.Benchlab.Correct
import LinuxSys.Lib.Numeral
import LinuxSys.Chatterd.Reconnect
import LinuxSys.Pmon.LogFd
import LinuxSys.Lib.Json
import LinuxSys.Sysagent.Json
import LinuxSys.Fwatch.Tree
import LinuxSys.Fwatch.TreeDiff
import LinuxSys.Lib.Fields
import LinuxSys.Lib.Address
import LinuxSys.Chatterd.Discover
import LinuxSys.Chatterd.Beacon
import LinuxSys.Validate.Liquid
import LinuxSys.Pmon.Leave
import LinuxSys.Pmon.LeaveCtl
import LinuxSys.Lib.Extract
import LinuxSys.Sysagent.Procfs
import LinuxSys.Sysagent.Readable
import LinuxSys.Sysagent.TakeSnapshot
import LinuxSys.Sysagent.SnapshotRight
import LinuxSys.Lib.PyText
import LinuxSys.Manifest.Parse
import LinuxSys.Manifest.Document
import LinuxSys.Manifest.Values
import LinuxSys.Manifest.Run
import LinuxSys.Manifest.Right
import LinuxSys.Lib.Slots
import LinuxSys.Uring.Ring
import LinuxSys.Uring.RingRight
import LinuxSys.Pmon.Policy
import LinuxSys.Conc.Run
import LinuxSys.Conc.Partings
import LinuxSys.Conc.Steps
import LinuxSys.Conc.Inv
import LinuxSys.Conc.Right
import LinuxSys.Sysagent.Httpd
import LinuxSys.Lib.Columns
import LinuxSys.Loadmix.Tables
import LinuxSys.Loadmix.Reordered
import LinuxSys.Loadmix.Iostat
import LinuxSys.Loadmix.Right
import LinuxSys.Fwatch.Sandbox
import LinuxSys.Fwatch.Confine
import LinuxSys.Lib.Credentials
import LinuxSys.Pmon.Drop
import LinuxSys.Pmon.Run
import LinuxSys.Lib.Table
import LinuxSys.App.Pid1
import LinuxSys.Lib.Accumulate
import LinuxSys.Capstone.Workload
import LinuxSys.Capstone.Locked
import LinuxSys.Capstone.Serial
import LinuxSys.Capstone.Strand
import LinuxSys.Manifest.Harness
import LinuxSys.Lib.History
import LinuxSys.Chatterd.Order
import LinuxSys.Chatterd.EpollServer
import LinuxSys.Fastpath.Measure
import LinuxSys.Lib.WriteBack
import LinuxSys.Iobench.Durability
import LinuxSys.Lib.BackOff
import LinuxSys.Stdthread.Deadlock
import LinuxSys.Lib.AtomicMax
import LinuxSys.Asiodemo.Observed
import LinuxSys.Lib.Inodes
import LinuxSys.Copyx.Copy
