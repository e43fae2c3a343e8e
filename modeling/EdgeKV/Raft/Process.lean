import EdgeKV.Raft.Election
import EdgeKV.Raft.Replication
import EdgeKV.Raft.Apply

/-!
One running replica: the locked state, the storage behind it, the state machine
and what its goroutines remember between their locked regions. An `Action` is
one region, or one unlocked call to the state machine, the storage or the
transport; any order of actions is an interleaving of the goroutines.
-/
namespace EdgeKV

/-- A message on the wire. A reply travels with the request it answers, because
a call returns to the goroutine that made it. -/
inductive Msg (ID : Type)
  | requestVote (dst : ID) (req : RequestVoteRequest ID)
  | voteReply (src dst : ID) (req : RequestVoteRequest ID) (resp : RequestVoteResponse)
  | appendEntries (dst : ID) (sentAt : Nat) (req : AppendEntriesRequest ID)
  | appendReply (src dst : ID) (sentAt : Nat) (req : AppendEntriesRequest ID)
      (resp : AppendEntriesResponse)
  | installSnapshot (dst : ID) (sentAt : Nat) (req : InstallSnapshotRequest ID)
  | installReply (src dst : ID) (sentAt : Nat) (req : InstallSnapshotRequest ID)
      (resp : InstallSnapshotResponse)
  | timeoutNow (dst : ID) (req : TimeoutNowRequest ID)
  deriving DecidableEq, Repr

structure Process (ID σ : Type) where
  raft : Raft ID
  storage : MemStorage ID
  machine : σ
  applier : Applier ID := .waiting
  reader : Reader := .waiting
  proposeCh : List Proposal := []
  readCh : List Nat := []
  /-- What has been sent on the `done` channels of read requests. -/
  readDone : List (Nat × Except (RaftError ID) Nat) := []
  calls : List (Call ID) := []
  transfers : List (Transfer ID) := []
  /-- The last reading of the node's clock. -/
  clock : Nat := 0

/-- What an action does: its durable effects in order and, unless it panics, the
process afterwards with the messages sent. -/
structure Outcome (ID σ : Type) where
  ops : List (StorageOp ID) := []
  next : Option (Process ID σ × List (Msg ID))

/-- The regions of elections. -/
inductive ElectionAction (ID : Type)
  | tick (now : Nat) (expired : Bool)
  | campaign
  | countVotes (now : Nat)
  | abandonCampaign
  | requestVote (req : RequestVoteRequest ID) (recent : Bool)
  | voteReply (peer : ID) (req : RequestVoteRequest ID) (resp : RequestVoteResponse)
  | timeoutNow (req : TimeoutNowRequest ID)
  deriving DecidableEq, Repr

/-- The regions of replication, and the calls between them. -/
inductive ReplicationAction (ID : Type)
  | replicate (peer : ID)
  | readSnapshot (peer : ID) (term : Nat)
  | send (call : Call ID) (now : Nat)
  | appendEntries (sentAt : Nat) (req : AppendEntriesRequest ID)
  | appendReply (peer : ID) (sentAt : Nat) (req : AppendEntriesRequest ID)
      (resp : AppendEntriesResponse)
  | installSnapshot (sentAt : Nat) (req : InstallSnapshotRequest ID)
  | installReply (peer : ID) (sentAt : Nat) (req : InstallSnapshotRequest ID)
      (resp : InstallSnapshotResponse)
  deriving DecidableEq, Repr

/-- Proposals, reads, leadership transfer and `Stop`. -/
inductive ClientAction (ID : Type)
  | propose (id : Nat) (data : Bytes)
  | appendProposals (count : Nat)
  | readIndex (id : Nat)
  | startRead (count now : Nat)
  | checkRead
  | abandonRead (err : RaftError ID)
  | startTransfer (target : ID) (now : Nat)
  | targetReady (t : Transfer ID)
  | sendTimeoutNow (t : Transfer ID)
  | endTransfer (t : Transfer ID)
  | stop
  deriving DecidableEq, Repr

/-- The applier. `takeWork` is the locked region at the top of its loop; a failed
`saveSnapshot` may or may not have become durable. -/
inductive ApplierAction
  | takeWork
  | restore
  | finishRestore
  | apply
  | finishBatch
  | snapshot (data : Option Bytes)
  | snapshotTerm
  | saveSnapshot (durable ok : Bool)
  | compact
  deriving DecidableEq, Repr

inductive Action (ID : Type)
  | election (a : ElectionAction ID)
  | replication (a : ReplicationAction ID)
  | client (a : ClientAction ID)
  | applier (a : ApplierAction)
  deriving DecidableEq, Repr

variable {ID σ : Type}

/-- The message of a call that is handed to the transport at time `now`. -/
def Call.messages (now : Nat) : Call ID → List (Msg ID)
  | .append peer req => [.appendEntries peer now req]
  | .install peer req => [.installSnapshot peer now req]
  | .needSnapshot _ _ => []

/-- The message that an action at node `self` consumes. -/
def Action.input (self : ID) : Action ID → Option (Msg ID)
  | .election (.requestVote req _) => some (.requestVote self req)
  | .election (.voteReply peer req resp) => some (.voteReply peer self req resp)
  | .election (.timeoutNow req) => some (.timeoutNow self req)
  | .replication (.appendEntries sentAt req) => some (.appendEntries self sentAt req)
  | .replication (.appendReply peer sentAt req resp) =>
      some (.appendReply peer self sentAt req resp)
  | .replication (.installSnapshot sentAt req) => some (.installSnapshot self sentAt req)
  | .replication (.installReply peer sentAt req resp) =>
      some (.installReply peer self sentAt req resp)
  | _ => none

/-- `New`: a node with the state its storage holds. Everything inside a snapshot
was committed and applied; beyond it nothing is known yet. -/
def Raft.new (s : MemStorage ID) : Option (Raft ID) :=
  ((RaftLog.reset s.snapIndex s.snapTerm).append s.entries).map fun rlog =>
    { term := s.hardState.term
      votedFor := s.hardState.votedFor
      rlog
      commitIndex := s.snapIndex
      lastApplied := s.snapIndex }

namespace Process

/-- A process started on a storage, with a fresh state machine that is restored
from the snapshot if there is one. -/
def start (M : StateMachine σ) (s : MemStorage ID) (clock : Nat) : Option (Process ID σ) :=
  let machine := if s.snapMeta.isSome then M.restore s.snapshot else some M.init
  machine.bind fun machine =>
    (Raft.new s).map fun raft => { raft, storage := s, machine, clock }

variable (p : Process ID σ)

/-- The outcome of a locked region that only changes the locked state. -/
def lock (result : Raft ID × List (StorageOp ID)) (sent : List (Msg ID)) : Outcome ID σ :=
  { ops := result.2, next := some ({ p with raft := result.1 }, sent) }

/-- The outcome of a locked region that may panic. -/
def tryLock (result : List (StorageOp ID) × Option (Raft ID)) : Outcome ID σ :=
  { ops := result.1, next := result.2.map fun raft => ({ p with raft }, []) }

/-- The outcome of a step that touches no storage and sends nothing. -/
def quiet (p : Process ID σ) : Outcome ID σ := { next := some (p, []) }

def panic : Outcome ID σ := { next := none }

/-- Sends a vote request, if there is one, to every peer. -/
def solicit (peers : List ID)
    (result : Raft ID × List (StorageOp ID) × Option (RequestVoteRequest ID)) : Outcome ID σ :=
  p.lock (result.1, result.2.1)
    (result.2.2.toList.flatMap fun req => peers.map fun peer => .requestVote peer req)

/-- The answers of one read to all requests of its batch. -/
def answerReads (batch : List Nat) (answer : Except (RaftError ID) Nat) : Process ID σ :=
  { p with reader := .waiting, readDone := p.readDone ++ batch.map fun id => (id, answer) }

section Exec

variable [DecidableEq ID] (cfg : Config ID) (self : ID)

/-- Elections. A round that was won may be counted at any later time, or end in
a timeout instead. -/
def execElection : ElectionAction ID → Option (Outcome ID σ)
  | .tick now expired =>
      if p.raft.stopped then none
      else if p.raft.state = .leader then some (p.lock (p.raft.checkQuorumLocked cfg self now) [])
      else if expired then some (p.lock (p.raft.electionTimeout, []) [])
      else none
  | .campaign =>
      match p.raft.campaigning with
      | some (.starting skipPreVote) =>
          some (p.solicit (cfg.others self) (p.raft.beginCampaign self skipPreVote))
      | _ => none
  | .countVotes now =>
      match p.raft.campaigning with
      | some (.collecting req granted) =>
          if ¬ Raft.wonRound cfg granted then none
          else if req.preVote then
            some (p.solicit (cfg.others self) (p.raft.afterPreVote self req))
          else if p.clock < now then
            some (Process.tryLock { p with clock := now } (p.raft.afterElection cfg self req now))
          else none
      | _ => none
  | .abandonCampaign =>
      match p.raft.campaigning with
      | some (.collecting _ _) => some (p.lock (p.raft.endCampaign, []) [])
      | _ => none
  | .requestVote req recent =>
      let (raft, ops, resp) := p.raft.handleRequestVote req recent
      some (p.lock (raft, ops) [.voteReply self req.candidateId req resp])
  | .voteReply peer req resp => some (p.lock (p.raft.handleVoteReply peer req resp) [])
  | .timeoutNow req => some (p.lock (p.raft.handleTimeoutNow req, []) [])

/-- Replication. A call leaves the node with the clock reading taken just before
it; on a cancelled context it only leaves if the transport sends it anyway. -/
def execReplication (T : Transport) : ReplicationAction ID → Option (Outcome ID σ)
  | .replicate peer =>
      if peer ∉ cfg.others self then none
      else match p.raft.replicateOnce cfg self peer with
        | none => some panic
        | some none => none
        | some (some call) => some (quiet { p with calls := call :: p.calls })
  | .readSnapshot peer term =>
      if .needSnapshot peer term ∉ p.calls then none
      else
        let rest := p.calls.erase (.needSnapshot peer term)
        let call := Raft.snapshotCall self peer term p.storage
        some (quiet { p with calls := call.toList ++ rest })
  | .send call now =>
      if call ∉ p.calls ∨ now ≤ p.clock then none
      else
        let sent :=
          if T.sendsCancelled ∨ p.raft.leading call.term then call.messages now else []
        some { next := some ({ p with calls := p.calls.erase call, clock := now }, sent) }
  | .appendEntries sentAt req =>
      let (ops, result) := p.raft.handleAppendEntries req
      some
        { ops
          next := result.map fun (raft, resp) =>
            ({ p with raft }, [.appendReply self req.leaderId sentAt req resp]) }
  | .appendReply peer sentAt req resp =>
      some (p.lock (p.raft.handleAppendReply cfg self peer sentAt req resp) [])
  | .installSnapshot sentAt req =>
      let (raft, ops, resp) := p.raft.handleInstallSnapshot req
      some (p.lock (raft, ops) [.installReply self req.leaderId sentAt req resp])
  | .installReply peer sentAt req resp =>
      some (p.lock (p.raft.handleInstallReply cfg self peer sentAt req resp) [])

/-- Clients: proposals, reads, leadership transfer and `Stop`. -/
def execClient : ClientAction ID → Option (Outcome ID σ)
  | .propose id data =>
      if p.raft.stopped then none
      else some (quiet { p with proposeCh := p.proposeCh ++ [{ id, data }] })
  | .appendProposals count =>
      if count = 0 ∨ p.proposeCh.length < count ∨ max 1 cfg.maxProposalBatch < count then none
      else
        some (Process.tryLock { p with proposeCh := p.proposeCh.drop count }
          (p.raft.appendProposals cfg self (p.proposeCh.take count)))
  | .readIndex id =>
      if p.raft.stopped then none else some (quiet { p with readCh := p.readCh ++ [id] })
  | .startRead count now =>
      if p.reader ≠ .waiting ∨ count = 0 ∨ p.readCh.length < count ∨ now ≤ p.clock then none
      else
        let batch := p.readCh.take count
        let p' : Process ID σ := { p with readCh := p.readCh.drop count, clock := now }
        match p.raft.startRead batch now with
        | .error err => some (quiet (p'.answerReads batch (.error err)))
        | .ok reader => some (quiet { p' with reader })
  | .checkRead =>
      match p.reader with
      | .waiting => none
      | .confirming batch term readIndex start =>
          (p.raft.checkRead cfg self term readIndex start).map fun result =>
            quiet (p.answerReads batch result)
  | .abandonRead err =>
      match p.reader with
      | .waiting => none
      | .confirming batch _ _ _ => some (quiet (p.answerReads batch (.error err)))
  | .startTransfer target now =>
      if now ≤ p.clock then none
      else (p.raft.startTransfer cfg self target now).map fun (raft, t) =>
        quiet { p with raft, transfers := t :: p.transfers, clock := now }
  | .targetReady t =>
      if t ∉ p.transfers ∨ t.ready ∨ ¬ p.raft.caughtUp t then none
      else
        some (quiet { p with transfers := { t with ready := true } :: p.transfers.erase t })
  | .sendTimeoutNow t =>
      if t ∉ p.transfers ∨ t.sent ∨ ¬ t.ready then none
      else
        some
          { next := some
              ({ p with transfers := { t with sent := true } :: p.transfers.erase t },
                [.timeoutNow t.target { term := t.term, leaderId := self }]) }
  | .endTransfer t =>
      if t ∉ p.transfers then none
      else
        let p' : Process ID σ := { p with transfers := p.transfers.erase t }
        some (p'.lock (p.raft.endTransfer t, []) [])
  | .stop => some (p.lock (p.raft.stop, []) [])

def execApplier (M : StateMachine σ) : ApplierAction → Option (Outcome ID σ)
  | .takeWork =>
      if p.applier ≠ .waiting ∨ p.raft.stopped then none
      else match p.raft.pendingSnapshot with
        | some snap =>
            some (quiet
              { p with
                raft := { p.raft with pendingSnapshot := none }
                applier := .restoring snap })
        | none =>
            if p.raft.commitIndex ≤ p.raft.lastApplied then none
            else match p.raft.rlog.slice (p.raft.lastApplied + 1) p.raft.commitIndex with
              | none => some panic
              | some entries => some (quiet { p with applier := .applying entries [] })
  | .restore =>
      match p.applier with
      | .restoring snap =>
          match M.restore snap.data with
          | none => some panic
          | some machine => some (quiet { p with machine, applier := .restored snap })
      | _ => none
  | .finishRestore =>
      match p.applier with
      | .restored snap =>
          let raft : Raft ID :=
            { p.raft with lastApplied := max p.raft.lastApplied snap.lastIncludedIndex }
          some (quiet { p with raft, applier := .waiting })
      | _ => none
  | .apply =>
      match p.applier with
      | .applying (e :: entries) results =>
          match e.type with
          | .noop => some (quiet { p with applier := .applying entries (results ++ [(e, [])]) })
          | .normal =>
              match M.apply p.machine e.index e.data with
              | none => some panic
              | some (machine, result) =>
                  some (quiet
                    { p with machine, applier := .applying entries (results ++ [(e, result)]) })
      | _ => none
  | .finishBatch =>
      match p.applier with
      | .applying [] results =>
          match results.getLast? with
          | none => some panic
          | some (e, _) =>
              let raft := p.raft.finishBatch results e.index
              let applier : Applier ID :=
                if raft.needSnapshot cfg then .snapshotting e.index else .waiting
              some (quiet { p with raft, applier })
      | _ => none
  | .snapshot data =>
      match p.applier with
      | .snapshotting index =>
          let applier : Applier ID :=
            match data with
            | none => .waiting
            | some d => .captured index d
          some (quiet { p with applier })
      | _ => none
  | .snapshotTerm =>
      match p.applier with
      | .captured index data =>
          let applier : Applier ID :=
            match p.raft.rlog.term index with
            | none => .waiting
            | some term => .saving index term data
          some (quiet { p with applier })
      | _ => none
  | .saveSnapshot durable ok =>
      match p.applier with
      | .saving index term data =>
          if ok ∧ ¬ durable then none
          else
            let applier : Applier ID := if ok then .compacting index term else .waiting
            some
              { ops := if durable then [.snapshot ⟨index, term⟩ data false] else []
                next := some ({ p with applier }, []) }
      | _ => none
  | .compact =>
      match p.applier with
      | .compacting index term =>
          let raft : Raft ID := { p.raft with rlog := p.raft.rlog.compactTo index term }
          some (quiet { p with raft, applier := .waiting })
      | _ => none

/-- What an action does to a process; `none` where it cannot happen. -/
def exec (M : StateMachine σ) (T : Transport) : Action ID → Option (Outcome ID σ)
  | .election a => p.execElection cfg self a
  | .replication a => p.execReplication cfg self T a
  | .client a => p.execClient cfg self a
  | .applier a => p.execApplier cfg M a

end Exec
end Process
end EdgeKV
