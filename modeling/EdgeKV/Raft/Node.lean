import EdgeKV.Raft.Log
import EdgeKV.Raft.Storage
import Mathlib.Data.List.Sort

/-!
The state that one replica guards with its mutex, and its role transitions. Every
function is the body of a region that runs under the lock; what it makes durable
on the way is returned as a list of storage effects in their order. A result of
`none` is a panic, which ends the process after the effects listed with it.

Timers are not modelled: when an election deadline passes and whether a leader
was heard from recently are choices of the environment.
-/
namespace EdgeKV

/-- A proposal together with the term in which it was appended. -/
structure Proposal where
  id : Nat
  data : Bytes
  term : Nat := 0
  deriving DecidableEq, Repr

/-- The goroutine that runs `campaign`: not past its first lock yet, or waiting
in `collectVotes` with the peers that have granted the request so far. -/
inductive Campaign (ID : Type)
  | starting (skipPreVote : Bool)
  | collecting (req : RequestVoteRequest ID) (granted : List ID)
  deriving DecidableEq, Repr

structure Raft (ID : Type) where
  term : Nat := 0
  votedFor : Option ID := none
  rlog : RaftLog := {}
  state : Role := .follower
  leaderID : Option ID := none
  commitIndex : Nat := 0
  lastApplied : Nat := 0
  campaigning : Option (Campaign ID) := none
  nextIndex : ID → Nat := fun _ => 0
  matchIndex : ID → Nat := fun _ => 0
  ackedSendTime : ID → Nat := fun _ => 0
  noopIndex : Nat := 0
  transferTarget : Option ID := none
  waiters : List (Nat × Proposal) := []
  /-- What has been sent on the `done` channels of proposals. -/
  done : List (Proposal × Except (RaftError ID) Bytes) := []
  pendingSnapshot : Option (InstallSnapshotRequest ID) := none
  stopped : Bool := false

namespace Raft

variable {ID : Type} (r : Raft ID)

def hardState : HardState ID := { term := r.term, votedFor := r.votedFor }

def persistLocked (hardState : Bool) (entries : List Entry) : List (StorageOp ID) :=
  save (if hardState then some r.hardState else none) entries

def failWaitersLocked (err : RaftError ID) : Raft ID :=
  { r with
    waiters := []
    done := r.done ++ r.waiters.map fun w => (w.2, .error err) }

/-- Moves to follower in the given term. If the term is new the vote is cleared
and the hard state is persisted before returning. -/
def becomeFollowerLocked (term : Nat) (leader : Option ID) : Raft ID × List (StorageOp ID) :=
  let newer : Raft ID := if r.term < term then { r with term, votedFor := none } else r
  let ops := if r.term < term then newer.persistLocked true [] else []
  let follower : Raft ID := { newer with state := .follower, leaderID := leader }
  if r.state = .leader then
    (Raft.failWaitersLocked { follower with transferTarget := none } (.notLeader leader), ops)
  else (follower, ops)

/-- Stepping down in one record: only the term, the vote, the role and what is
owed to waiting clients change. -/
theorem becomeFollowerLocked_eq (term : Nat) (leader : Option ID) :
    r.becomeFollowerLocked term leader =
      ({ r with
          term := max r.term term
          votedFor := if r.term < term then none else r.votedFor
          state := .follower
          leaderID := leader
          transferTarget := if r.state = .leader then none else r.transferTarget
          waiters := if r.state = .leader then [] else r.waiters
          done := if r.state = .leader then
              r.done ++ r.waiters.map fun w => (w.2, .error (.notLeader leader))
            else r.done },
        if r.term < term then [.hardState { term, votedFor := none }] else []) := by
  by_cases newer : r.term < term <;> by_cases leads : r.state = .leader <;>
    simp [becomeFollowerLocked, failWaitersLocked, persistLocked, save, hardState, newer, leads] <;>
    omega

section Leader

variable [DecidableEq ID] (cfg : Config ID) (self : ID)

/-- Whether a majority, counting this node, has answered an RPC sent at or after
`t` in the current term. -/
def hasQuorumAckSinceLocked (t : Nat) : Bool :=
  cfg.quorum ≤ 1 + ((cfg.others self).filter fun p => t ≤ r.ackedSendTime p).length

/-- The highest index that a majority stores, read off the sorted list of what
each member is known to store. -/
def commitCandidate : Nat :=
  let indexes := r.rlog.lastIndex :: (cfg.others self).map r.matchIndex
  ((indexes.insertionSort (· ≤ ·))[indexes.length - cfg.quorum]?).getD 0

/-- Moves `commitIndex` to the highest index stored on a majority, but only if
that entry is from the current term. -/
def advanceCommitLocked : Raft ID :=
  let candidate := r.commitCandidate cfg self
  if candidate ≤ r.commitIndex then r
  else if (r.rlog.term candidate).getD 0 ≠ r.term then r
  else { r with commitIndex := candidate }

theorem advanceCommitLocked_eq : r.advanceCommitLocked cfg self =
    { r with
      commitIndex :=
        if r.commitIndex < r.commitCandidate cfg self ∧
            (r.rlog.term (r.commitCandidate cfg self)).getD 0 = r.term then
          r.commitCandidate cfg self
        else r.commitIndex } := by
  simp only [advanceCommitLocked]
  split
  · rw [if_neg (by omega)]
  · split
    · rw [if_neg (by tauto)]
    · rw [if_pos ⟨by omega, by tauto⟩]

/-- The entry with which a new leader opens its term. -/
def noopEntry : Entry :=
  { index := r.rlog.lastIndex + 1, term := r.term, type := .noop, data := [] }

def becomeLeaderLocked (now : Nat) : List (StorageOp ID) × Option (Raft ID) :=
  let last := r.rlog.lastIndex
  let isOther (p : ID) : Bool := p ∈ cfg.others self
  match r.rlog.append [r.noopEntry] with
  | none => ([], none)
  | some rlog =>
      let leading : Raft ID :=
        { r with
          state := .leader
          leaderID := some self
          transferTarget := none
          nextIndex := fun p => if isOther p then last + 1 else 0
          matchIndex := fun _ => 0
          ackedSendTime := fun p => if isOther p then now else 0
          rlog
          noopIndex := r.noopEntry.index }
      (r.persistLocked false [r.noopEntry], some (leading.advanceCommitLocked cfg self))

/-- The leader's half of `tick`: step down without recent contact to a majority. -/
def checkQuorumLocked (now : Nat) : Raft ID × List (StorageOp ID) :=
  if r.hasQuorumAckSinceLocked cfg self (now - cfg.electionTimeoutMax) then (r, [])
  else r.becomeFollowerLocked r.term none

end Leader

def stop : Raft ID :=
  if r.stopped then r else Raft.failWaitersLocked { r with stopped := true } .stopped

end Raft
end EdgeKV
