import EdgeKV.Raft.Rounds

/-!
What the actions of a replica mean to its clients: which of them take on proposals,
which answer them, and which change what the leader knows about its peers.
-/
namespace EdgeKV

variable {ID σ : Type}

section Regions

variable (r : Raft ID)

theorem stop_steady : Steady r r.stop := by
  simp only [Raft.stop]
  split
  · exact Steady.refl r
  · exact ⟨fun w hw => (by cases hw), fun q result h => refused_done h, rfl, rfl⟩

theorem startElection_steady (self : ID) : Steady r (r.startElection self).1 :=
  Steady.of_eq rfl rfl rfl rfl

theorem beginCampaign_steady (self : ID) (skipPreVote : Bool) :
    Steady r (r.beginCampaign self skipPreVote).1 := by
  simp only [Raft.beginCampaign]
  split
  · exact Steady.of_eq rfl rfl rfl rfl
  · split
    · exact startElection_steady r self
    · exact Steady.of_eq rfl rfl rfl rfl

theorem afterPreVote_steady (self : ID) (req : RequestVoteRequest ID) :
    Steady r (r.afterPreVote self req).1 := by
  simp only [Raft.afterPreVote]
  split
  · exact Steady.of_eq rfl rfl rfl rfl
  · exact startElection_steady r self

variable [DecidableEq ID]

theorem handleVoteReply_steady (peer : ID) (req : RequestVoteRequest ID)
    (resp : RequestVoteResponse) : Steady r (r.handleVoteReply peer req resp).1 := by
  have adopted : Steady r
      (if r.term < resp.term then r.becomeFollowerLocked resp.term none else (r, [])).1 := by
    split
    · exact (becomeFollowerLocked_quiet r resp.term none).toSteady
    · exact Steady.refl r
  simp only [Raft.handleVoteReply]
  split
  · split
    · exact adopted.trans (Steady.of_eq rfl rfl rfl rfl)
    · exact adopted
  · exact adopted

end Regions

/-- For an answer of a peer to its leader: who answers whom, when the request was sent
and the term in the answer. -/
def Msg.reply : Msg ID → Option (ID × ID × Nat × Nat)
  | .appendReply src dst sentAt _ resp => some (src, dst, sentAt, resp.term)
  | .installReply src dst sentAt _ resp => some (src, dst, sentAt, resp.term)
  | _ => none

/-- No entry of a batch has been passed yet, or there is no batch. -/
def Applier.Fresh (applier : Applier ID) : Prop :=
  ∀ entries results, applier = .applying entries results → results = []

/-- What an action means to clients and to the leader's view of its peers. -/
inductive Bearing [DecidableEq ID] (cfg : Config ID) (self : ID) (M : StateMachine σ)
    (p : Process ID σ) (act : Action ID) (p' : Process ID σ) : Prop
  | steady (raft : Steady p.raft p'.raft) (applier : p'.applier = p.applier)
  | heard {m : Msg ID} {peer : ID} {sentAt respTerm : Nat} (input : act.input self = some m)
      (reply : m.reply = some (peer, self, sentAt, respTerm)) (leads : p.raft.state = .leader)
      (current : respTerm ≤ p.raft.term) (raft : Steady (p.raft.recordAckLocked peer sentAt) p'.raft)
      (applier : p'.applier = p.applier)
  | elected {now : Nat} (later : p.clock < now) (clock : p'.clock = now)
      (stood : p.raft.state = .candidate)
      (raft : Steady
        { p.raft with
          ackedSendTime := fun q => if decide (q ∈ cfg.others self) then now else 0 } p'.raft)
      (applier : p'.applier = p.applier)
  | proposed {count : Nat} (leads : p.raft.state = .leader) (leads' : p'.raft.state = .leader)
      (term : p'.raft.term = p.raft.term)
      (appended : p.raft.rlog.append (p.raft.proposalEntries (p.proposeCh.take count)) =
        some p'.raft.rlog)
      (waiters : p'.raft.waiters =
        (p.raft.batchWaiters (p.proposeCh.take count)).foldl Raft.addWaiter p.raft.waiters)
      (done : p'.raft.done = p.raft.done) (applied : p'.raft.lastApplied = p.raft.lastApplied)
      (acked : p'.raft.ackedSendTime = p.raft.ackedSendTime) (applier : p'.applier = p.applier)
  | staged (waiters : p'.raft.waiters = p.raft.waiters) (done : p'.raft.done = p.raft.done)
      (acked : p'.raft.ackedSendTime = p.raft.ackedSendTime)
      (applied : p.raft.lastApplied ≤ p'.raft.lastApplied) (fresh : p'.applier.Fresh)
  | passed {e : Entry} {entries : List Entry} {results : List (Entry × Bytes)} {result : Bytes}
      (raft : p'.raft = p.raft) (stage : p.applier = .applying (e :: entries) results)
      (stage' : p'.applier = .applying entries (results ++ [(e, result)]))
      (applied : e.type = .normal → M.apply p.machine e.index e.data = some (p'.machine, result))
  | finished {results : List (Entry × Bytes)} {last : Entry × Bytes}
      (raft : p'.raft = p.raft.finishBatch results last.1.index)
      (stage : p.applier = .applying [] results) (final : results.getLast? = some last)
      (fresh : p'.applier.Fresh)

section Effects

variable [DecidableEq ID] {cfg : Config ID} {self : ID} {M : StateMachine σ} {T : Transport}
  {p p' : Process ID σ} {act : Action ID} {out : Outcome ID σ} {sent : List (Msg ID)}

theorem onReply_bearing {m : Msg ID} {peer : ID} {sentAt respTerm reqTerm : Nat}
    {handle : Raft ID → Raft ID} (input : act.input self = some m)
    (reply : m.reply = some (peer, self, sentAt, respTerm))
    (steady : ∀ r, Steady r (handle r)) :
    Bearing cfg self M p act
      { p with raft := (p.raft.onReply respTerm reqTerm peer sentAt handle).1 } := by
  simp only [Raft.onReply]
  split
  · exact .steady (becomeFollowerLocked_quiet p.raft respTerm none).toSteady rfl
  next notLater =>
    split
    · exact .steady (Steady.refl _) rfl
    next current =>
      rw [not_or, not_not, not_not] at current
      exact .heard input reply current.1 (Nat.le_of_not_lt notLater) (steady _) rfl

theorem afterElection_bearing {req : RequestVoteRequest ID} {now : Nat} (later : p.clock < now)
    {r : Raft ID} (done : (p.raft.afterElection cfg self req now).2 = some r) :
    Bearing cfg self M p act { p with raft := r, clock := now } := by
  simp only [Raft.afterElection] at done
  split at done
  next still =>
    simp only [Raft.becomeLeaderLocked] at done
    split at done
    · cases done
    · cases done
      refine .elected later rfl still.2.1 ?_ rfl
      rw [Raft.advanceCommitLocked_eq]
      exact Steady.of_eq rfl rfl rfl rfl
  · cases done
    exact .steady (Steady.of_eq rfl rfl rfl rfl) rfl

theorem appendProposals_bearing {count : Nat} {r : Raft ID}
    (done : (p.raft.appendProposals cfg self (p.proposeCh.take count)).2 = some r) :
    Bearing cfg self M p act { p with raft := r, proposeCh := p.proposeCh.drop count } := by
  simp only [Raft.appendProposals] at done
  split at done
  · cases done
    refine .steady ⟨fun w hw => hw, fun q result h => ?_, rfl, rfl⟩ rfl
    exact refused_done (f := id) h
  next able =>
    have leads : p.raft.state = .leader := by tauto
    split at done
    · cases done
    next rlog appended =>
      cases done
      rw [Raft.advanceCommitLocked_eq]
      exact .proposed leads leads rfl appended rfl rfl rfl rfl rfl

theorem effect_bearing (h : Effect cfg self M T p act out) (next : out.next = some (p', sent)) :
    Bearing cfg self M p act p' := by
  cases h with
  | checkQuorum running leads =>
      cases next
      refine .steady ?_ rfl
      simp only [Raft.checkQuorumLocked]
      split
      · exact Steady.refl _
      · exact (becomeFollowerLocked_quiet _ _ _).toSteady
  | electionTimeout running idle =>
      cases next
      refine .steady ?_ rfl
      simp only [Raft.electionTimeout]
      split <;> exact Steady.of_eq rfl rfl rfl rfl
  | campaign starting => cases next; exact .steady (beginCampaign_steady _ _ _) rfl
  | wonPreVote round won trial => cases next; exact .steady (afterPreVote_steady _ _ _) rfl
  | wonElection round won real later =>
      obtain ⟨done, eq, -⟩ := tryLock_next next
      rw [eq]
      exact afterElection_bearing later done
  | abandonCampaign round => cases next; exact .steady (Steady.of_eq rfl rfl rfl rfl) rfl
  | requestVote => cases next; exact .steady (handleRequestVote_quiet _ _ _).toSteady rfl
  | voteReply => cases next; exact .steady (handleVoteReply_steady _ _ _ _) rfl
  | timeoutNow =>
      cases next
      refine .steady ?_ rfl
      simp only [Raft.handleTimeoutNow]
      split <;> exact Steady.of_eq rfl rfl rfl rfl
  | appendEntries =>
      obtain ⟨x, handled, hx⟩ := Option.map_eq_some_iff.mp next
      cases hx
      exact .steady (handleAppendEntries_quiet _ _ x handled).toSteady rfl
  | appendReply =>
      cases next
      exact onReply_bearing rfl rfl fun r => (appendReplyLocked_quiet r _ _ _ _ _).toSteady
  | installSnapshot => cases next; exact .steady (handleInstallSnapshot_quiet _ _).toSteady rfl
  | installReply =>
      cases next
      exact onReply_bearing rfl rfl fun r => (installReplyLocked_quiet r _ _ _ _).toSteady
  | appendProposals nonempty there batch =>
      obtain ⟨done, eq, -⟩ := tryLock_next next
      rw [eq]
      exact appendProposals_bearing done
  | startTransfer later started =>
      cases next
      exact .steady (startTransfer_quiet _ started).toSteady rfl
  | endTransfer active =>
      cases next
      refine .steady ?_ rfl
      simp only [Raft.endTransfer]
      split <;> exact Steady.of_eq rfl rfl rfl rfl
  | stop => cases next; exact .steady (stop_steady _) rfl
  | takeEntries waiting running pending behind cut =>
      cases next
      exact .staged rfl rfl rfl (Nat.le_refl _) fun entries results stage => by cases stage; rfl
  | skip stage noop =>
      cases next
      exact .passed rfl stage rfl fun normal => by rw [noop] at normal; cases normal
  | apply stage normal applied => cases next; exact .passed rfl stage rfl fun _ => applied
  | finishBatch stage final =>
      cases next
      refine .finished rfl stage final fun entries results stage' => ?_
      simp only at stage'
      split at stage' <;> cases stage'
  | finishRestore =>
      cases next
      exact .staged rfl rfl rfl (Nat.le_max_left _ _) fun entries results stage => by cases stage
  | takeSnapshot | restore | snapshotFailed | snapshot | snapshotOvertaken | snapshotTerm | saveFailed
  | saveSnapshot | compact =>
      cases next
      exact .staged rfl rfl rfl (Nat.le_refl _) fun entries results stage => by cases stage
  | replicatePanic | takePanic | restorePanic | applyPanic | finishPanic => cases next
  | replicate | readSnapshot | send | propose | readIndex | refuseRead | startRead | checkRead
  | abandonRead | targetReady | sendTimeoutNow => cases next; exact .steady (Steady.refl _) rfl

/-- Where the effects of the action are stored does not matter here. -/
theorem bearing_storage (h : Bearing cfg self M p act p') (s : MemStorage ID) :
    Bearing cfg self M p act { p' with storage := s } := by
  cases h with
  | steady raft applier => exact .steady raft applier
  | heard input reply leads current raft applier =>
      exact .heard input reply leads current raft applier
  | elected later clock stood raft applier => exact .elected later clock stood raft applier
  | proposed leads leads' term appended waiters done applied acked applier =>
      exact .proposed leads leads' term appended waiters done applied acked applier
  | staged waiters done acked applied fresh => exact .staged waiters done acked applied fresh
  | passed raft stage stage' applied => exact .passed raft stage stage' applied
  | finished raft stage final fresh => exact .finished raft stage final fresh

end Effects

end EdgeKV
