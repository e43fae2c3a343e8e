import EdgeKV.Bytes
import Mathlib.Logic.Function.Basic

/-!
The data of one Raft group: entries, hard state, RPC messages and the interfaces
a replica is configured with. Node IDs are an arbitrary type; the empty string
that the source uses for "nobody" is `none`. Indexes, terms and times are natural
numbers. The group number is left out, since everything here is about one group.
-/
namespace EdgeKV

inductive EntryType
  | normal
  | noop
  deriving DecidableEq, Repr

structure Entry where
  index : Nat
  term : Nat
  type : EntryType
  data : Bytes
  deriving DecidableEq, Repr

structure HardState (ID : Type) where
  term : Nat
  votedFor : Option ID
  deriving DecidableEq, Repr

structure SnapshotMeta where
  lastIncludedIndex : Nat
  lastIncludedTerm : Nat
  deriving DecidableEq, Repr

structure RequestVoteRequest (ID : Type) where
  term : Nat
  candidateId : ID
  lastLogIndex : Nat
  lastLogTerm : Nat
  preVote : Bool
  deriving DecidableEq, Repr

structure RequestVoteResponse where
  term : Nat
  voteGranted : Bool := false
  deriving DecidableEq, Repr

structure AppendEntriesRequest (ID : Type) where
  term : Nat
  leaderId : ID
  prevLogIndex : Nat
  prevLogTerm : Nat
  entries : List Entry
  leaderCommit : Nat
  deriving DecidableEq, Repr

structure AppendEntriesResponse where
  term : Nat
  success : Bool := false
  conflictIndex : Nat := 0
  conflictTerm : Nat := 0
  deriving DecidableEq, Repr

structure InstallSnapshotRequest (ID : Type) where
  term : Nat
  leaderId : ID
  lastIncludedIndex : Nat
  lastIncludedTerm : Nat
  data : Bytes
  deriving DecidableEq, Repr

structure InstallSnapshotResponse where
  term : Nat
  deriving DecidableEq, Repr

structure TimeoutNowRequest (ID : Type) where
  term : Nat
  leaderId : ID
  deriving DecidableEq, Repr

/-- The role a node currently plays. -/
inductive Role
  | follower
  | candidate
  | leader
  deriving DecidableEq, Repr

inductive RaftError (ID : Type)
  | notLeader (leader : Option ID)
  | stopped
  | notReady
  deriving DecidableEq, Repr

/-- What committed entries are applied to. `apply` is `none` where the machine
panics, `restore` where it rejects the bytes; `snapshot s d` says that `d` is
one of the serialisations of `s`, since map iteration order is not fixed. -/
structure StateMachine (σ : Type) where
  init : σ
  apply : σ → Nat → Bytes → Option (σ × Bytes)
  snapshot : σ → Bytes → Prop
  restore : Bytes → Option σ

/-- Whether a call whose context is already cancelled still leaves the node. -/
structure Transport where
  sendsCancelled : Bool

/-- A transport that refuses a call on a cancelled context, as gRPC does. -/
def Transport.HonoursContext (T : Transport) : Prop := T.sendsCancelled = false

/-- The members of the group and the tunables that its logic reads. That no ID is
listed twice is not checked by the source; a group is made of distinct nodes. -/
structure Config (ID : Type) where
  peers : List ID
  distinct : peers.Nodup
  electionTimeoutMin : Nat
  electionTimeoutMax : Nat
  snapshotThreshold : Nat
  maxAppendEntries : Nat
  maxProposalBatch : Nat

namespace Config

variable {ID : Type} (cfg : Config ID)

def quorum : Nat := cfg.peers.length / 2 + 1

def others [DecidableEq ID] (self : ID) : List ID := cfg.peers.filter (· ≠ self)

end Config
end EdgeKV
