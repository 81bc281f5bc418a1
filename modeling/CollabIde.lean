import CollabIde.Ide.Accept
import CollabIde.Ide.Applied
import CollabIde.Ide.Attached
import CollabIde.Ide.Awareness
import CollabIde.Ide.Channels
import CollabIde.Ide.Commands
import CollabIde.Ide.Convergence
import CollabIde.Ide.Creation
import CollabIde.Ide.Decisions
import CollabIde.Ide.Delivery
import CollabIde.Ide.DiskPersister
import CollabIde.Ide.Document
import CollabIde.Ide.EditorsOnly
import CollabIde.Ide.Frontend
import CollabIde.Ide.Handlers
import CollabIde.Ide.Hub
import CollabIde.Ide.Isolation
import CollabIde.Ide.Listed
import CollabIde.Ide.Listening
import CollabIde.Ide.Owed
import CollabIde.Ide.Pages
import CollabIde.Ide.Redirect
import CollabIde.Ide.Review
import CollabIde.Ide.Roles
import CollabIde.Ide.Server
import CollabIde.Ide.Starter
import CollabIde.Ide.Startup
import CollabIde.Ide.Store
import CollabIde.Ide.Sync
import CollabIde.Ide.System
import CollabIde.Ide.Traffic
import CollabIde.Ide.Writers
import CollabIde.Ide.YText
import CollabIde.Lib.Disk
import CollabIde.Lib.Framing
import CollabIde.Lib.Gob
import CollabIde.Lib.History
import CollabIde.Lib.Linearizability
import CollabIde.Lib.Locality
import CollabIde.Lib.Majority
import CollabIde.Lib.Marking
import CollabIde.Lib.NilMap
import CollabIde.Lib.OrderStatistic
import CollabIde.Lib.Replication.Acks
import CollabIde.Lib.Replication.Completeness
import CollabIde.Lib.Replication.Elections
import CollabIde.Lib.Replication.Histories
import CollabIde.Lib.Replication.Protocol
import CollabIde.Lib.Run
import CollabIde.Lib.Slice
import CollabIde.Net.Calls
import CollabIde.Net.Demux
import CollabIde.Net.Labgob
import CollabIde.Net.Lazy
import CollabIde.Net.Progress
import CollabIde.Net.Rpcs
import CollabIde.Net.Transport
import CollabIde.Raft.Acknowledged
import CollabIde.Raft.Backtracking
import CollabIde.Raft.Bounds
import CollabIde.Raft.Cluster
import CollabIde.Raft.CommitRule
import CollabIde.Raft.Committed
import CollabIde.Raft.Counting
import CollabIde.Raft.Handlers
import CollabIde.Raft.Heartbeat
import CollabIde.Raft.Lead
import CollabIde.Raft.Log
import CollabIde.Raft.Origins
import CollabIde.Raft.Persist
import CollabIde.Raft.Refine
import CollabIde.Raft.Safety
import CollabIde.Raft.Serve
import CollabIde.Raft.Simulation
import CollabIde.Raft.Snapshots
import CollabIde.Raft.StateMachine
import CollabIde.Raft.Step
import CollabIde.Raft.Trim
import CollabIde.Raft.Trimming
import CollabIde.Raft.Types
import CollabIde.Raft.Votes
import CollabIde.Raft.Wire
import CollabIde.Rsm.Agreement
import CollabIde.Rsm.Durability
import CollabIde.Rsm.Ids
import CollabIde.Rsm.Leading
import CollabIde.Rsm.Linearizable
import CollabIde.Rsm.Mutex
import CollabIde.Rsm.Peers
import CollabIde.Rsm.Registered
import CollabIde.Rsm.Replica
import CollabIde.Rsm.Replicas
import CollabIde.Rsm.Results
import CollabIde.Rsm.Services
import CollabIde.Rsm.Settled
import CollabIde.Rsm.Shutdown
import CollabIde.Rsm.Submit
import CollabIde.Rsm.Tracked
import CollabIde.Rsm.Truthful
import CollabIde.Rsm.Waiting
import CollabIde.Tester.KvModel
import CollabIde.Tester.Network
import CollabIde.Tester.Persister
