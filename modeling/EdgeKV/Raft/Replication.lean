import EdgeKV.Raft.Node

/-!
Replication: building requests for one peer, handling them, and reading the
answers. A request is built under the lock and sent later, so what a call needs
is kept as data between the two.
-/
namespace EdgeKV

/-- A call that a goroutine has prepared but not handed to the transport yet.
`needSnapshot` is `sendSnapshot` before it has read the storage. -/
inductive Call (ID : Type)
  | append (peer : ID) (req : AppendEntriesRequest ID)
  | needSnapshot (peer : ID) (term : Nat)
  | install (peer : ID) (req : InstallSnapshotRequest ID)
  deriving DecidableEq, Repr

namespace Call

variable {ID : Type}

/-- The leadership term whose context the call runs under. -/
def term : Call ID → Nat
  | append _ req => req.term
  | needSnapshot _ term => term
  | install _ req => req.term

end Call

namespace RaftLog

/-- The loop of `HandleAppendEntries` that looks for the first entry the log does
not hold: entries of the same term are skipped, a conflict truncates. The second
component is what remains to be appended. -/
def mergeEntries (l : RaftLog) : List Entry → Option (RaftLog × List Entry)
  | [] => some (l, [])
  | e :: es =>
      match l.term e.index with
      | some t =>
          if t = e.term then mergeEntries l es
          else (l.truncateFrom e.index).map fun l' => (l', e :: es)
      | none => some (l, e :: es)

end RaftLog

namespace Raft

variable {ID : Type} (r : Raft ID)

/-- Whether the context that `becomeLeaderLocked` created for `term` is live. -/
def leading (term : Nat) : Prop := r.state = .leader ∧ r.term = term ∧ r.stopped = false

instance (term : Nat) : Decidable (r.leading term) :=
  inferInstanceAs (Decidable (_ ∧ _ ∧ _))

section Sender

variable [DecidableEq ID] (cfg : Config ID) (self : ID)

/-- The first locked region of `replicateOnce`: nothing unless this node leads,
otherwise the call to make. The outer `none` is a panic in `slice`. -/
def replicateOnce (peer : ID) : Option (Option (Call ID)) :=
  if ¬ r.leading r.term then some none
  else
    let next := r.nextIndex peer
    if next ≤ r.rlog.snapIndex then some (some (.needSnapshot peer r.term))
    else
      let prevIndex := next - 1
      let last := min r.rlog.lastIndex (prevIndex + cfg.maxAppendEntries)
      match r.rlog.slice next last with
      | none => none
      | some entries =>
          some (some (.append peer
            { term := r.term
              leaderId := self
              prevLogIndex := prevIndex
              prevLogTerm := (r.rlog.term prevIndex).getD 0
              entries
              leaderCommit := r.commitIndex }))

/-- `sendSnapshot` after reading the storage. -/
def snapshotCall (peer : ID) (term : Nat) (s : MemStorage ID) : Option (Call ID) :=
  s.snapMeta.map fun snapMeta => .install peer
    { term
      leaderId := self
      lastIncludedIndex := snapMeta.lastIncludedIndex
      lastIncludedTerm := snapMeta.lastIncludedTerm
      data := s.snapshot }

def recordAckLocked (peer : ID) (sentAt : Nat) : Raft ID :=
  if r.ackedSendTime peer < sentAt then
    { r with ackedSendTime := Function.update r.ackedSendTime peer sentAt }
  else r

/-- The reply handling of `replicateOnce` once the terms are known to agree. -/
def appendReplyLocked (peer : ID) (req : AppendEntriesRequest ID)
    (resp : AppendEntriesResponse) : Raft ID :=
  if resp.success then
    let m := req.prevLogIndex + req.entries.length
    if r.matchIndex peer < m then
      Raft.advanceCommitLocked
        { r with
          matchIndex := Function.update r.matchIndex peer m
          nextIndex := Function.update r.nextIndex peer (m + 1) } cfg self
    else r
  else
    -- jump back using the follower's hint
    let own := r.rlog.lastIndexOfTerm resp.conflictTerm
    let next := if resp.conflictTerm ≠ 0 ∧ own ≠ 0 then own + 1 else resp.conflictIndex
    { r with
      nextIndex := Function.update r.nextIndex peer (max 1 (min next (r.rlog.lastIndex + 1))) }

/-- The reply handling that `replicateOnce` and `sendSnapshot` share: a later
term deposes, a reply out of its term says nothing, and the rest is an ack. -/
def onReply (respTerm reqTerm : Nat) (peer : ID) (sentAt : Nat) (handle : Raft ID → Raft ID) :
    Raft ID × List (StorageOp ID) :=
  if r.term < respTerm then r.becomeFollowerLocked respTerm none
  else if r.state ≠ .leader ∨ r.term ≠ reqTerm then (r, [])
  else (handle (r.recordAckLocked peer sentAt), [])

def handleAppendReply (peer : ID) (sentAt : Nat) (req : AppendEntriesRequest ID)
    (resp : AppendEntriesResponse) : Raft ID × List (StorageOp ID) :=
  r.onReply resp.term req.term peer sentAt fun r' => r'.appendReplyLocked cfg self peer req resp

def installReplyLocked (peer : ID) (req : InstallSnapshotRequest ID) : Raft ID :=
  let r' : Raft ID :=
    if r.matchIndex peer < req.lastIncludedIndex then
      Raft.advanceCommitLocked
        { r with matchIndex := Function.update r.matchIndex peer req.lastIncludedIndex } cfg self
    else r
  { r' with nextIndex := Function.update r'.nextIndex peer (r'.matchIndex peer + 1) }

def handleInstallReply (peer : ID) (sentAt : Nat) (req : InstallSnapshotRequest ID)
    (resp : InstallSnapshotResponse) : Raft ID × List (StorageOp ID) :=
  r.onReply resp.term req.term peer sentAt fun r' => r'.installReplyLocked cfg self peer req

end Sender

section Receiver

/-- The end of `HandleAppendEntries`: only entries verified against the leader
may be committed. -/
def learnCommit (req : AppendEntriesRequest ID) : Raft ID :=
  let newCommit := min req.leaderCommit (req.prevLogIndex + req.entries.length)
  if r.commitIndex < newCommit then { r with commitIndex := newCommit } else r

/-- Appends what is fresh in `entries`, durable before it is acknowledged. -/
def storeEntries (req : AppendEntriesRequest ID) (entries : List Entry) :
    List (StorageOp ID) × Option (Raft ID × AppendEntriesResponse) :=
  match r.rlog.mergeEntries entries with
  | none => ([], none)
  | some (kept, fresh) =>
      match kept.append fresh with
      | none => ([], none)
      | some rlog =>
          (r.persistLocked false fresh,
            some (Raft.learnCommit { r with rlog } req, { term := r.term, success := true }))

/-- The consistency check and what follows it, for the part of a request that
starts after `prevIndex`. -/
def checkEntries (req : AppendEntriesRequest ID) (prevIndex : Nat) (entries : List Entry) :
    List (StorageOp ID) × Option (Raft ID × AppendEntriesResponse) :=
  if r.rlog.lastIndex < prevIndex then
    ([], some (r, { term := r.term, conflictIndex := r.rlog.lastIndex + 1 }))
  else
    let t := (r.rlog.term prevIndex).getD 0
    if prevIndex = req.prevLogIndex ∧ t ≠ req.prevLogTerm then
      ([], some (r,
        { term := r.term
          conflictTerm := t
          conflictIndex := r.rlog.firstIndexOfTerm t prevIndex }))
    else r.storeEntries req entries

/-- `HandleAppendEntries` after the sender has been accepted as leader. What the
snapshot already contains is committed, hence identical, and is skipped. -/
def appendEntriesLocked (req : AppendEntriesRequest ID) :
    List (StorageOp ID) × Option (Raft ID × AppendEntriesResponse) :=
  if req.prevLogIndex < r.rlog.snapIndex then
    let skip := r.rlog.snapIndex - req.prevLogIndex
    if req.entries.length ≤ skip then ([], some (r, { term := r.term, success := true }))
    else r.checkEntries req r.rlog.snapIndex (req.entries.drop skip)
  else r.checkEntries req req.prevLogIndex req.entries

/-- `HandleInstallSnapshot` after the sender has been accepted as leader. -/
def installSnapshotLocked (req : InstallSnapshotRequest ID) : Raft ID × List (StorageOp ID) :=
  if req.lastIncludedIndex ≤ r.commitIndex then (r, [])
  else
    let keepSuffix : Bool := r.rlog.term req.lastIncludedIndex = some req.lastIncludedTerm
    let rlog :=
      if keepSuffix then r.rlog.compactTo req.lastIncludedIndex req.lastIncludedTerm
      else RaftLog.reset req.lastIncludedIndex req.lastIncludedTerm
    ({ r with rlog, commitIndex := req.lastIncludedIndex, pendingSnapshot := some req },
      [.snapshot ⟨req.lastIncludedIndex, req.lastIncludedTerm⟩ req.data (!keepSuffix)])

variable [DecidableEq ID]

/-- What both handlers do first with a request of a term that is not in the past. -/
def followLocked (term : Nat) (leader : ID) : Raft ID × List (StorageOp ID) :=
  if r.term < term ∨ r.state ≠ .follower ∨ r.leaderID ≠ some leader then
    r.becomeFollowerLocked term (some leader)
  else (r, [])

def handleAppendEntries (req : AppendEntriesRequest ID) :
    List (StorageOp ID) × Option (Raft ID × AppendEntriesResponse) :=
  if req.term < r.term then ([], some (r, { term := r.term }))
  else
    let (follower, ops) := r.followLocked req.term req.leaderId
    let (ops', result) := follower.appendEntriesLocked req
    (ops ++ ops', result)

def handleInstallSnapshot (req : InstallSnapshotRequest ID) :
    Raft ID × List (StorageOp ID) × InstallSnapshotResponse :=
  if req.term < r.term then (r, [], { term := r.term })
  else
    let (follower, ops) := r.followLocked req.term req.leaderId
    let (r', ops') := follower.installSnapshotLocked req
    (r', ops ++ ops', { term := follower.term })

end Receiver
end Raft
end EdgeKV
