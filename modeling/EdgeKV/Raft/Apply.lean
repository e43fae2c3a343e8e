import EdgeKV.Raft.Node

/-!
Writes, reads, the applier and leadership transfer: the locked regions of the
goroutines that serve clients and drive the state machine. What a goroutine
remembers between two of its regions is kept in `Applier`, `Reader` and
`Transfer`.
-/
namespace EdgeKV

variable {ID : Type}

/-- Where `runApplier` stands. The constructors follow its unlocked windows:
around `Restore`, inside a batch of `Apply` calls with the results so far, and
through the stages of `takeSnapshot`. -/
inductive Applier (ID : Type)
  | waiting
  | restoring (snap : InstallSnapshotRequest ID)
  | restored (snap : InstallSnapshotRequest ID)
  | applying (entries : List Entry) (results : List (Entry × Bytes))
  | snapshotting (index : Nat)
  | captured (index : Nat) (data : Bytes)
  | saving (index term : Nat) (data : Bytes)
  | compacting (index term : Nat)
  deriving DecidableEq, Repr

/-- Where `runReader` stands: `confirming` is the loop of `confirmLeadership`. -/
inductive Reader
  | waiting
  | confirming (batch : List Nat) (term readIndex start : Nat)
  deriving DecidableEq, Repr

/-- A running `TransferLeadership` call past its first locked region: `ready` once it
has left the loop that waits for the target, `sent` once it has called it. -/
structure Transfer (ID : Type) where
  term : Nat
  target : ID
  ready : Bool := false
  sent : Bool := false
  deriving DecidableEq, Repr

namespace Raft

variable (r : Raft ID)

section Writes

def leaderHintLocked : Option ID := if r.state = .leader then none else r.leaderID

/-- The entries that `appendProposals` makes of a batch. -/
def proposalEntries (batch : List Proposal) : List Entry :=
  batch.mapIdx fun i p =>
    { index := r.rlog.lastIndex + 1 + i, term := r.term, type := .normal, data := p.data }

theorem proposalEntries_at {batch : List Proposal} {k : Nat} {e : Entry}
    (h : (r.proposalEntries batch)[k]? = some e) : ∃ q, batch[k]? = some q ∧
      e = { index := r.rlog.lastIndex + 1 + k, term := r.term, type := .normal, data := q.data } := by
  rw [proposalEntries, List.getElem?_mapIdx, Option.map_eq_some_iff] at h
  obtain ⟨q, there, rfl⟩ := h
  exact ⟨q, there, rfl⟩

def addWaiter (waiters : List (Nat × Proposal)) (w : Nat × Proposal) : List (Nat × Proposal) :=
  waiters.filter (·.1 ≠ w.1) ++ [w]

/-- The proposals of a batch with the indexes and the term they were given. -/
def batchWaiters (batch : List Proposal) : List (Nat × Proposal) :=
  batch.mapIdx fun i p => (r.rlog.lastIndex + 1 + i, { p with term := r.term })

variable [DecidableEq ID] (cfg : Config ID) (self : ID)

def appendProposals (batch : List Proposal) : List (StorageOp ID) × Option (Raft ID) :=
  if r.state ≠ .leader ∨ r.transferTarget ≠ none ∨ r.stopped then
    let err : RaftError ID := if r.stopped then .stopped else .notLeader r.leaderHintLocked
    ([], some { r with done := r.done ++ batch.map fun p => (p, .error err) })
  else
    let entries := r.proposalEntries batch
    match r.rlog.append entries with
    | none => ([], none)
    | some rlog =>
        let r' : Raft ID :=
          { r with
            rlog
            waiters := (r.batchWaiters batch).foldl addWaiter r.waiters }
        (r.persistLocked false entries, some (r'.advanceCommitLocked cfg self))

end Writes

section Reads

/-- The first locked region of `confirmLeadership`. -/
def startRead (batch : List Nat) (now : Nat) : Except (RaftError ID) Reader :=
  if r.state ≠ .leader then .error (.notLeader r.leaderID)
  else if r.commitIndex < r.noopIndex then .error .notReady
  else .ok (.confirming batch r.term r.commitIndex now)

variable [DecidableEq ID] (cfg : Config ID) (self : ID)

/-- One round of the loop of `confirmLeadership`: `none` keeps waiting. -/
def checkRead (term readIndex start : Nat) : Option (Except (RaftError ID) Nat) :=
  if r.state ≠ .leader ∨ r.term ≠ term then some (.error (.notLeader r.leaderID))
  else if r.hasQuorumAckSinceLocked cfg self start then some (.ok readIndex)
  else none

end Reads

section Applying

/-- Answers the waiter of one applied entry: its own result if the entry is the
one it appended, an error if a different leader's entry took the index. -/
def answer (a : Entry × Bytes) : Raft ID :=
  match r.waiters.lookup a.1.index with
  | none => r
  | some p =>
      { r with
        waiters := r.waiters.filter (·.1 ≠ a.1.index)
        done := r.done ++
          [(p, if p.term = a.1.term then .ok a.2 else .error (.notLeader r.leaderID))] }

/-- The locked region after a batch whose last entry has index `last`. -/
def finishBatch (results : List (Entry × Bytes)) (last : Nat) : Raft ID :=
  let r' := results.foldl answer r
  { r' with lastApplied := max r'.lastApplied last }

def needSnapshot (cfg : Config ID) : Bool :=
  0 < cfg.snapshotThreshold ∧ r.rlog.snapIndex < r.lastApplied ∧
    cfg.snapshotThreshold ≤ r.lastApplied - r.rlog.snapIndex

end Applying

section Transfers

variable [DecidableEq ID] (cfg : Config ID) (self : ID)

/-- The first locked region of `TransferLeadership`; `none` is a refusal. -/
def startTransfer (target : ID) (now : Nat) : Option (Raft ID × Transfer ID) :=
  if r.state ≠ .leader then none
  else if target ∉ cfg.others self ∨ r.transferTarget ≠ none then none
  else if cfg.electionTimeoutMin < now - r.ackedSendTime target then none
  else some ({ r with transferTarget := some target }, { term := r.term, target })

/-- Whether the loop that waits for the target may go on to send `TimeoutNow`. -/
def caughtUp (t : Transfer ID) : Bool :=
  r.state = .leader ∧ r.term = t.term ∧ r.matchIndex t.target = r.rlog.lastIndex

/-- The deferred end of `TransferLeadership`. -/
def endTransfer (t : Transfer ID) : Raft ID :=
  if r.state = .leader ∧ r.term = t.term then { r with transferTarget := none } else r

end Transfers
end Raft
end EdgeKV
