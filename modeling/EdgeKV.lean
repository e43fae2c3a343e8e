import EdgeKV.Consensus.Protocol
import EdgeKV.Consensus.Invariant
import EdgeKV.Consensus.Preservation
import EdgeKV.Consensus.Safety
import EdgeKV.Raft.Log
import EdgeKV.Raft.Storage
import EdgeKV.Raft.Election
import EdgeKV.Raft.Replication
import EdgeKV.Raft.Apply
import EdgeKV.Raft.Process
import EdgeKV.Raft.Group
import EdgeKV.Raft.Voting
import EdgeKV.Raft.Effects
import EdgeKV.Raft.ElectionSafety
import EdgeKV.Raft.Compaction
import EdgeKV.Raft.Durable
import EdgeKV.Raft.Refinement
import EdgeKV.Raft.Moves
import EdgeKV.Raft.Simulation.Terms
import EdgeKV.Raft.Simulation.Leader
import EdgeKV.Raft.Simulation.Follower
import EdgeKV.Raft.Simulation.Applier
import EdgeKV.Raft.Simulation.Calls
import EdgeKV.Raft.Simulation
import EdgeKV.Raft.Bearing
import EdgeKV.Raft.Promises
import EdgeKV.Raft.Safety
import EdgeKV.Raft.Clocks
import EdgeKV.Raft.Replay
import EdgeKV.Raft.ReadIndex
import EdgeKV.Linearizability.History
import EdgeKV.Store.Store
import EdgeKV.Store.Codecs
import EdgeKV.Store.Dedup
import EdgeKV.Store.Runs
import EdgeKV.Store.Spec
import EdgeKV.Store.Log
import EdgeKV.Node.Cluster
import EdgeKV.Node.Clients
import EdgeKV.Node.Stamps
import EdgeKV.Node.Places
import EdgeKV.Node.Linearizable
import EdgeKV.Raft.Provenance
import EdgeKV.Raft.Acks
import EdgeKV.Wal.Segment
import EdgeKV.Wal.Wal
import EdgeKV.Wal.Journal
import EdgeKV.Wal.Recovery
import EdgeKV.Wal.Corruption
import EdgeKV.RaftStore.Store
import EdgeKV.RaftStore.Files
import EdgeKV.RaftStore.Tracking
import EdgeKV.RaftStore.Durable
import EdgeKV.RaftStore.Refinement
import EdgeKV.RaftStore.System
import EdgeKV.RaftStore.Crashes
import EdgeKV.RaftStore.HardStates
import EdgeKV.RaftStore.Discard
import EdgeKV.Server.Gateway
import EdgeKV.Server.Answers
import EdgeKV.Edge.Cache
import EdgeKV.Edge.Invalidation
import EdgeKV.Edge.System
import EdgeKV.Edge.Coherence
import EdgeKV.Edge.Staleness
import EdgeKV.Edge.Versioned
import EdgeKV.Server.CachePath
import EdgeKV.Cdn.Queue
import EdgeKV.RaftStore.SnapshotFile
import EdgeKV.Store.Winners
import EdgeKV.Raft.Scans
import EdgeKV.Raft.Transparent
import EdgeKV.Raft.Reign
import EdgeKV.Raft.Transfers
import EdgeKV.Raft.Backtracking
import EdgeKV.Raft.Replicators
import EdgeKV.Raft.Candidate
import EdgeKV.Store.Remembered
import EdgeKV.RaftStore.Encoding
import EdgeKV.Linearizability.Locality
import EdgeKV.Node.Shards
import EdgeKV.Node.MultiRaft
import EdgeKV.Client.Client
import EdgeKV.Linearizability.Attempts
import EdgeKV.Client.Service
import EdgeKV.Client.Attempts
import EdgeKV.Client.Consistent
import EdgeKV.Client.Linearizable
import EdgeKV.Raft.Isolation
import EdgeKV.Raft.Stability
import EdgeKV.Transport.Stream
import EdgeKV.Raft.Acting
import EdgeKV.Reaching
import EdgeKV.Raft.Electing
import EdgeKV.Raft.Replicating
import EdgeKV.Raft.Serving
import EdgeKV.Raft.Availability
