import EdgeKV.Raft.Node

/-!
Elections: the locked regions of `campaign`, `collectVotes` and the two handlers
that take part. A pre-vote round never touches the term or the vote.
-/
namespace EdgeKV
namespace Raft

variable {ID : Type} (r : Raft ID)

section Voter

/-- The later last term wins; with equal last terms the longer log wins. -/
def logUpToDateLocked (lastIndex lastTerm : Nat) : Bool :=
  if lastTerm ≠ r.rlog.lastTerm then r.rlog.lastTerm < lastTerm
  else r.rlog.lastIndex ≤ lastIndex

/-- Answers "would you vote for me?" without changing any state. `recent` says
whether the last contact with a leader is less than an election timeout ago. -/
def handlePreVoteLocked (req : RequestVoteRequest ID) (recent : Bool) : RequestVoteResponse :=
  if req.term ≤ r.term then { term := r.term }
  else if r.state = .leader ∨ recent then { term := r.term }
  else { term := r.term, voteGranted := r.logUpToDateLocked req.lastLogIndex req.lastLogTerm }

variable [DecidableEq ID]

/-- The part of `HandleRequestVote` after the terms have been compared. -/
def grantVoteLocked (req : RequestVoteRequest ID) :
    Raft ID × List (StorageOp ID) × RequestVoteResponse :=
  if (r.votedFor = none ∨ r.votedFor = some req.candidateId) ∧
      r.logUpToDateLocked req.lastLogIndex req.lastLogTerm then
    let voter : Raft ID := { r with votedFor := some req.candidateId }
    (voter, voter.persistLocked true [], { term := r.term, voteGranted := true })
  else (r, [], { term := r.term })

def handleRequestVote (req : RequestVoteRequest ID) (recent : Bool) :
    Raft ID × List (StorageOp ID) × RequestVoteResponse :=
  if req.preVote then (r, [], r.handlePreVoteLocked req recent)
  else if req.term < r.term then (r, [], { term := r.term })
  else if r.term < req.term then
    let (follower, ops) := r.becomeFollowerLocked req.term none
    let (voter, ops', resp) := follower.grantVoteLocked req
    (voter, ops ++ ops', resp)
  else r.grantVoteLocked req

/-- A peer answered a vote request: a later term is adopted, and a grant counts
once towards the round it belongs to. -/
def handleVoteReply (peer : ID) (req : RequestVoteRequest ID) (resp : RequestVoteResponse) :
    Raft ID × List (StorageOp ID) :=
  let (r', ops) := if r.term < resp.term then r.becomeFollowerLocked resp.term none else (r, [])
  match r'.campaigning with
  | some (.collecting round granted) =>
      if round = req ∧ resp.voteGranted ∧ peer ∉ granted then
        ({ r' with campaigning := some (.collecting round (peer :: granted)) }, ops)
      else (r', ops)
  | _ => (r', ops)

end Voter

section Candidate

variable (cfg : Config ID) (self : ID)

def voteRequestLocked (term : Nat) (preVote : Bool) : RequestVoteRequest ID :=
  { term
    candidateId := self
    lastLogIndex := r.rlog.lastIndex
    lastLogTerm := r.rlog.lastTerm
    preVote }

/-- `tick` on a node that does not lead, once its election deadline has passed. -/
def electionTimeout : Raft ID :=
  if r.campaigning.isSome ∨ r.stopped then r
  else { r with campaigning := some (.starting false) }

def handleTimeoutNow (req : TimeoutNowRequest ID) : Raft ID :=
  if req.term = r.term ∧ r.state = .follower ∧ r.campaigning.isNone ∧ ¬ r.stopped then
    { r with campaigning := some (.starting true) }
  else r

def endCampaign : Raft ID := { r with campaigning := none }

/-- A real election: new term, a vote for ourselves, both durable before anyone
is asked. -/
def startElection : Raft ID × List (StorageOp ID) × RequestVoteRequest ID :=
  let candidate : Raft ID :=
    { r with
      term := r.term + 1
      votedFor := some self
      state := .candidate
      leaderID := none }
  let req := candidate.voteRequestLocked self candidate.term false
  ({ candidate with campaigning := some (.collecting req []) },
    candidate.persistLocked true [], req)

/-- The first locked region of `campaign`; the request, if any, goes to all peers. -/
def beginCampaign (skipPreVote : Bool) :
    Raft ID × List (StorageOp ID) × Option (RequestVoteRequest ID) :=
  if r.stopped ∨ r.state = .leader then (r.endCampaign, [], none)
  else if skipPreVote then
    let (candidate, ops, req) := r.startElection self
    (candidate, ops, some req)
  else
    let req := r.voteRequestLocked self (r.term + 1) true
    ({ r with campaigning := some (.collecting req []) }, [], some req)

/-- Whether `collectVotes` may return true, counting our own vote. -/
def wonRound (granted : List ID) : Bool := cfg.quorum ≤ 1 + granted.length

/-- What follows a won pre-vote round. -/
def afterPreVote (req : RequestVoteRequest ID) :
    Raft ID × List (StorageOp ID) × Option (RequestVoteRequest ID) :=
  if r.stopped ∨ r.state = .leader ∨ r.term + 1 ≠ req.term then (r.endCampaign, [], none)
  else
    let (candidate, ops, real) := r.startElection self
    (candidate, ops, some real)

/-- What follows a won real round: lead only if this is still the election we won. -/
def afterElection [DecidableEq ID] (req : RequestVoteRequest ID) (now : Nat) :
    List (StorageOp ID) × Option (Raft ID) :=
  if ¬ r.stopped ∧ r.state = .candidate ∧ r.term = req.term then
    r.endCampaign.becomeLeaderLocked cfg self now
  else ([], some r.endCampaign)

end Candidate
end Raft
end EdgeKV
