import EdgeKV.Raft.Promises

/-!
What an action does to a leadership. A leader keeps records of its own: the log it
extends, what it knows about its peers, and whether it is handing over. Almost every
region leaves them alone for as long as the node leads on, and a node that stands in an
election has moved past every term in which it led.
-/
namespace EdgeKV

variable {ID σ : Type}

/-- A region after which a node leads only if it did before, with the same records, and
stands only if it did before or has reached a later term. -/
structure Rules (r r' : Raft ID) : Prop where
  term : r.term ≤ r'.term
  stands : r'.state = .candidate → r.state = .candidate ∧ r'.term = r.term ∨ r.term < r'.term
  leads : r'.state = .leader → r.state = .leader ∧ r'.term = r.term
  rlog : r'.state = .leader → r'.rlog = r.rlog
  nextIndex : r'.state = .leader → r'.nextIndex = r.nextIndex
  matchIndex : r'.state = .leader → r'.matchIndex = r.matchIndex
  transferTarget : r'.state = .leader → r'.transferTarget = r.transferTarget

namespace Rules

variable {r r' : Raft ID}

/-- Only role, term and the records matter. -/
theorem of_eq (state : r'.state = r.state) (term : r'.term = r.term) (rlog : r'.rlog = r.rlog)
    (nextIndex : r'.nextIndex = r.nextIndex) (matchIndex : r'.matchIndex = r.matchIndex)
    (transferTarget : r'.transferTarget = r.transferTarget) : Rules r r' where
  term := term.ge
  stands stands := Or.inl ⟨state ▸ stands, term⟩
  leads leads := ⟨state ▸ leads, term⟩
  rlog _ := rlog
  nextIndex _ := nextIndex
  matchIndex _ := matchIndex
  transferTarget _ := transferTarget

theorem refl (r : Raft ID) : Rules r r := of_eq rfl rfl rfl rfl rfl rfl

/-- A node that does not lead has no records to keep. -/
theorem unled (state : r'.state ≠ .leader) (term : r.term ≤ r'.term)
    (stands : r'.state = .candidate → r.term < r'.term) : Rules r r' where
  term := term
  stands stood := Or.inr (stands stood)
  leads leads := absurd leads state
  rlog leads := absurd leads state
  nextIndex leads := absurd leads state
  matchIndex leads := absurd leads state
  transferTarget leads := absurd leads state

theorem follows (state : r'.state = .follower) (term : r.term ≤ r'.term) : Rules r r' := by
  refine unled ?_ term ?_
  · rw [state]
    nofun
  · rw [state]
    nofun

/-- One that has just begun to stand. -/
theorem rises (state : r'.state = .candidate) (term : r.term < r'.term) : Rules r r' := by
  refine unled ?_ term.le fun _ => term
  rw [state]
  nofun

/-- After a region that left the role and the term of a follower alone. -/
theorem andStays {r₁ : Raft ID} (h : Rules r r₁) (follower : r₁.state = .follower)
    (role : r'.state = r₁.state ∧ r'.term = r₁.term) : Rules r r' :=
  follows (role.1.trans follower) (role.2 ▸ h.term)

end Rules

section Regions

variable (r : Raft ID)

theorem becomeFollowerLocked_follows (term : Nat) (leader : Option ID) :
    (r.becomeFollowerLocked term leader).1.state = .follower ∧
      Rules r (r.becomeFollowerLocked term leader).1 := by
  rw [Raft.becomeFollowerLocked_eq]
  exact ⟨rfl, .follows rfl (Nat.le_max_left _ _)⟩

theorem startElection_rules (self : ID) : Rules r (r.startElection self).1 :=
  .rises rfl (Nat.lt_succ_self _)

theorem beginCampaign_rules (self : ID) (skipPreVote : Bool) :
    Rules r (r.beginCampaign self skipPreVote).1 := by
  simp only [Raft.beginCampaign]
  split
  · exact .of_eq rfl rfl rfl rfl rfl rfl
  · split
    · exact startElection_rules r self
    · exact .of_eq rfl rfl rfl rfl rfl rfl

theorem afterPreVote_rules (self : ID) (req : RequestVoteRequest ID) :
    Rules r (r.afterPreVote self req).1 := by
  simp only [Raft.afterPreVote]
  split
  · exact .of_eq rfl rfl rfl rfl rfl rfl
  · exact startElection_rules r self

theorem stop_rules : Rules r r.stop := by
  simp only [Raft.stop]
  split
  · exact .refl r
  · exact .of_eq rfl rfl rfl rfl rfl rfl

theorem finishBatch_rules (results : List (Entry × Bytes)) (last : Nat) :
    Rules r (r.finishBatch results last) := by
  obtain ⟨waiters, done, eq⟩ := foldl_answer_eq r results
  simp only [Raft.finishBatch, eq]
  exact .of_eq rfl rfl rfl rfl rfl rfl

variable [DecidableEq ID]

theorem handleRequestVote_rules (req : RequestVoteRequest ID) (recent : Bool) :
    Rules r (r.handleRequestVote req recent).1 := by
  have grant (r : Raft ID) : Rules r (r.grantVoteLocked req).1 ∧
      (r.grantVoteLocked req).1.state = r.state ∧ (r.grantVoteLocked req).1.term = r.term := by
    simp only [Raft.grantVoteLocked]
    split <;> exact ⟨.of_eq rfl rfl rfl rfl rfl rfl, rfl, rfl⟩
  simp only [Raft.handleRequestVote]
  split
  · exact .refl r
  · split
    · exact .refl r
    · split
      · obtain ⟨follower, moved⟩ := becomeFollowerLocked_follows r req.term none
        exact moved.andStays follower (grant _).2
      · exact (grant r).1

theorem handleVoteReply_rules (peer : ID) (req : RequestVoteRequest ID)
    (resp : RequestVoteResponse) : Rules r (r.handleVoteReply peer req resp).1 := by
  have counted {r₁ : Raft ID} (adopted : Rules r r₁) (granted : Option (Campaign ID)) :
      Rules r { r₁ with campaigning := granted } :=
    ⟨adopted.term, adopted.stands, adopted.leads, adopted.rlog, adopted.nextIndex,
      adopted.matchIndex, adopted.transferTarget⟩
  have adopted : Rules r
      (if r.term < resp.term then r.becomeFollowerLocked resp.term none else (r, [])).1 := by
    split
    · exact (becomeFollowerLocked_follows r resp.term none).2
    · exact .refl r
  simp only [Raft.handleVoteReply]
  split
  · split
    · exact counted adopted _
    · exact adopted
  · exact adopted

/-- Whoever accepts a leader follows. -/
theorem followLocked_follows (term : Nat) (leader : ID) :
    (r.followLocked term leader).1.state = .follower ∧ Rules r (r.followLocked term leader).1 := by
  simp only [Raft.followLocked]
  split
  · exact becomeFollowerLocked_follows r term (some leader)
  next settled =>
    have follower : r.state = .follower := by tauto
    exact ⟨follower, .refl r⟩

theorem handleAppendEntries_rules {req : AppendEntriesRequest ID} {r' : Raft ID}
    {resp : AppendEntriesResponse} (h : (r.handleAppendEntries req).2 = some (r', resp)) :
    Rules r r' := by
  simp only [Raft.handleAppendEntries] at h
  split at h
  · cases h; exact .refl r
  · obtain ⟨follower, moved⟩ := followLocked_follows r req.term req.leaderId
    exact moved.andStays follower (appendEntriesLocked_role _ h)

theorem handleInstallSnapshot_rules (req : InstallSnapshotRequest ID) :
    Rules r (r.handleInstallSnapshot req).1 := by
  simp only [Raft.handleInstallSnapshot]
  split
  · exact .refl r
  · obtain ⟨follower, moved⟩ := followLocked_follows r req.term req.leaderId
    exact moved.andStays follower (installSnapshotLocked_role _ req)

end Regions

/-- What an action does to the leadership of its node and to the transfers of it. -/
inductive Reign [DecidableEq ID] (cfg : Config ID) (self : ID) (p : Process ID σ)
    (act : Action ID) (p' : Process ID σ) : Prop
  | rules (raft : Rules p.raft p'.raft) (transfers : p'.transfers = p.transfers)
  | elected (stood : p.raft.state = .candidate) (leads : p'.raft.state = .leader)
      (term : p'.raft.term = p.raft.term) (target : p'.raft.transferTarget = none)
      (next : ∀ q ∈ cfg.others self, p'.raft.nextIndex q = p.raft.rlog.lastIndex + 1)
      (matched : ∀ q, p'.raft.matchIndex q = 0) (transfers : p'.transfers = p.transfers)
  | extended (leads : p.raft.state = .leader) (leads' : p'.raft.state = .leader)
      (term : p'.raft.term = p.raft.term) (idle : p.raft.transferTarget = none)
      (target : p'.raft.transferTarget = none) (next : p'.raft.nextIndex = p.raft.nextIndex)
      (matched : p'.raft.matchIndex = p.raft.matchIndex) (transfers : p'.transfers = p.transfers)
  | compacted {index term : Nat} (stage : p.applier = .compacting index term)
      (raft : p'.raft = { p.raft with rlog := p.raft.rlog.compactTo index term })
      (transfers : p'.transfers = p.transfers)
  | answered {peer : ID} {sentAt : Nat} {req : AppendEntriesRequest ID}
      {resp : AppendEntriesResponse}
      (reply : act = .replication (.appendReply peer sentAt req resp))
      (leads : p.raft.state = .leader) (term : p.raft.term = req.term)
      (current : resp.term ≤ p.raft.term)
      (raft : p'.raft =
        (p.raft.recordAckLocked peer sentAt).appendReplyLocked cfg self peer req resp)
      (transfers : p'.transfers = p.transfers)
  | installed {peer : ID} {sentAt : Nat} {req : InstallSnapshotRequest ID}
      {resp : InstallSnapshotResponse}
      (reply : act = .replication (.installReply peer sentAt req resp))
      (leads : p.raft.state = .leader) (term : p.raft.term = req.term)
      (current : resp.term ≤ p.raft.term)
      (raft : p'.raft =
        (p.raft.recordAckLocked peer sentAt).installReplyLocked cfg self peer req)
      (transfers : p'.transfers = p.transfers)
  | started {target : ID} {now : Nat} {t : Transfer ID}
      (began : p.raft.startTransfer cfg self target now = some (p'.raft, t))
      (transfers : p'.transfers = t :: p.transfers)
  | ready {t : Transfer ID} (active : t ∈ p.transfers) (caughtUp : p.raft.caughtUp t = true)
      (raft : p'.raft = p.raft)
      (transfers : p'.transfers = { t with ready := true } :: p.transfers.erase t)
  | sent {t : Transfer ID} (active : t ∈ p.transfers) (raft : p'.raft = p.raft)
      (transfers : p'.transfers = { t with sent := true } :: p.transfers.erase t)
  | ended {t : Transfer ID} (active : t ∈ p.transfers) (raft : p'.raft = p.raft.endTransfer t)
      (transfers : p'.transfers = p.transfers.erase t)

section Effects

variable [DecidableEq ID] {cfg : Config ID} {self : ID} {M : StateMachine σ} {T : Transport}
  {p p' : Process ID σ} {act : Action ID} {out : Outcome ID σ} {sent : List (Msg ID)}

/-- An answer to a leader: one of a later term deposes it, one out of its term is
ignored, and the rest are handled. -/
theorem onReply_cases (r : Raft ID) (respTerm reqTerm : Nat) (peer : ID) (sentAt : Nat)
    (handle : Raft ID → Raft ID) :
    Rules r (r.onReply respTerm reqTerm peer sentAt handle).1 ∨
      (r.state = .leader ∧ r.term = reqTerm ∧ respTerm ≤ r.term ∧
        (r.onReply respTerm reqTerm peer sentAt handle).1 =
          handle (r.recordAckLocked peer sentAt)) := by
  simp only [Raft.onReply]
  split
  · exact Or.inl (becomeFollowerLocked_follows r respTerm none).2
  next notLater =>
    split
    · exact Or.inl (.refl r)
    next current =>
      rw [not_or, not_not, not_not] at current
      exact Or.inr ⟨current.1, current.2, Nat.le_of_not_lt notLater, rfl⟩

theorem afterElection_reign {req : RequestVoteRequest ID} {now : Nat} {r : Raft ID}
    (done : (p.raft.afterElection cfg self req now).2 = some r) :
    Reign cfg self p act { p with raft := r, clock := now } := by
  simp only [Raft.afterElection] at done
  split at done
  next still =>
    simp only [Raft.becomeLeaderLocked] at done
    split at done
    · cases done
    · cases done
      rw [Raft.advanceCommitLocked_eq]
      exact .elected still.2.1 rfl rfl rfl (fun q other => by simp [other, Raft.endCampaign])
        (fun q => rfl) rfl
  · cases done
    exact .rules (.of_eq rfl rfl rfl rfl rfl rfl) rfl

theorem appendProposals_reign {count : Nat} {r : Raft ID}
    (done : (p.raft.appendProposals cfg self (p.proposeCh.take count)).2 = some r) :
    Reign cfg self p act { p with raft := r, proposeCh := p.proposeCh.drop count } := by
  simp only [Raft.appendProposals] at done
  split at done
  · cases done
    exact .rules (.of_eq rfl rfl rfl rfl rfl rfl) rfl
  next able =>
    have leads : p.raft.state = .leader := by tauto
    have idle : p.raft.transferTarget = none := by tauto
    split at done
    · cases done
    · cases done
      rw [Raft.advanceCommitLocked_eq]
      exact .extended leads leads rfl idle idle rfl rfl rfl

theorem effect_reign (h : Effect cfg self M T p act out) (next : out.next = some (p', sent)) :
    Reign cfg self p act p' := by
  cases h with
  | checkQuorum running leads =>
      cases next
      refine .rules ?_ rfl
      simp only [Raft.checkQuorumLocked]
      split
      · exact .refl _
      · exact (becomeFollowerLocked_follows _ _ _).2
  | electionTimeout running idle =>
      cases next
      refine .rules ?_ rfl
      simp only [Raft.electionTimeout]
      split <;> exact .of_eq rfl rfl rfl rfl rfl rfl
  | campaign starting => cases next; exact .rules (beginCampaign_rules _ _ _) rfl
  | wonPreVote round won trial => cases next; exact .rules (afterPreVote_rules _ _ _) rfl
  | wonElection round won real later =>
      obtain ⟨done, eq, -⟩ := tryLock_next next
      rw [eq]
      exact afterElection_reign done
  | requestVote => cases next; exact .rules (handleRequestVote_rules _ _ _) rfl
  | voteReply => cases next; exact .rules (handleVoteReply_rules _ _ _ _) rfl
  | timeoutNow =>
      cases next
      refine .rules ?_ rfl
      simp only [Raft.handleTimeoutNow]
      split <;> exact .of_eq rfl rfl rfl rfl rfl rfl
  | appendEntries =>
      obtain ⟨x, handled, hx⟩ := Option.map_eq_some_iff.mp next
      cases hx
      exact .rules (handleAppendEntries_rules _ handled) rfl
  | @appendReply peer sentAt req resp =>
      cases next
      rcases onReply_cases p.raft resp.term req.term peer sentAt _ with
        rules | ⟨leads, term, current, eq⟩
      · exact .rules rules rfl
      · exact .answered rfl leads term current eq rfl
  | installSnapshot => cases next; exact .rules (handleInstallSnapshot_rules _ _) rfl
  | @installReply peer sentAt req resp =>
      cases next
      rcases onReply_cases p.raft resp.term req.term peer sentAt _ with
        rules | ⟨leads, term, current, eq⟩
      · exact .rules rules rfl
      · exact .installed rfl leads term current eq rfl
  | appendProposals nonempty there batch =>
      obtain ⟨done, eq, -⟩ := tryLock_next next
      rw [eq]
      exact appendProposals_reign done
  | startTransfer later began => cases next; exact .started began rfl
  | targetReady active caughtUp => cases next; exact .ready active caughtUp rfl rfl
  | sendTimeoutNow active unsent ready => cases next; exact .sent active rfl rfl
  | endTransfer active => cases next; exact .ended active rfl rfl
  | stop => cases next; exact .rules (stop_rules _) rfl
  | finishBatch stage final => cases next; exact .rules (finishBatch_rules _ _ _) rfl
  | compact stage => cases next; exact .compacted stage rfl rfl
  | replicatePanic | takePanic | restorePanic | applyPanic | finishPanic => cases next
  | abandonCampaign | replicate | readSnapshot | send | propose | readIndex | refuseRead | startRead
  | checkRead | abandonRead | takeSnapshot | takeEntries | restore | finishRestore | skip | apply
  | snapshotFailed | snapshot | snapshotOvertaken | snapshotTerm | saveFailed | saveSnapshot =>
      cases next
      exact .rules (.of_eq rfl rfl rfl rfl rfl rfl) rfl

/-- Where the effects of the action are stored does not matter here. -/
theorem reign_storage (h : Reign cfg self p act p') (s : MemStorage ID) :
    Reign cfg self p act { p' with storage := s } := by
  cases h with
  | rules raft transfers => exact .rules raft transfers
  | elected stood leads term target next matched transfers =>
      exact .elected stood leads term target next matched transfers
  | extended leads leads' term idle target next matched transfers =>
      exact .extended leads leads' term idle target next matched transfers
  | compacted stage raft transfers => exact .compacted stage raft transfers
  | answered reply leads term current raft transfers =>
      exact .answered reply leads term current raft transfers
  | installed reply leads term current raft transfers =>
      exact .installed reply leads term current raft transfers
  | started began transfers => exact .started began transfers
  | ready active caughtUp raft transfers => exact .ready active caughtUp raft transfers
  | sent active raft transfers => exact .sent active raft transfers
  | ended active raft transfers => exact .ended active raft transfers

theorem performs_reign {g g' : Group ID σ} (h : Group.Performs cfg M T self act g g') :
    Reign cfg self (g.procs self) act (g'.procs self) := by
  obtain ⟨out, p, sent, s, enabled, stored, next, rfl⟩ := h
  simp only [Function.update_self]
  exact reign_storage (effect_reign (exec_effect enabled.exec) next) s

/-- A process that is started anew follows. -/
theorem crashes_idle {g g' : Group ID σ} (h : Group.Crashes cfg M T self g g') :
    (g'.procs self).raft.state = .follower ∧ (g'.procs self).transfers = [] := by
  obtain ⟨ops, s, p, -, -, restarted, rfl⟩ := h
  obtain ⟨raft, machine, created, -, rfl⟩ := start_eq restarted
  obtain ⟨rlog, -, rfl⟩ := Option.map_eq_some_iff.mp created
  simp only [Function.update_self, and_self]

/-- A step of a node is an action of its process, or it starts the process anew. -/
theorem stepOf_reign {g g' : Group ID σ} (h : Group.StepOf cfg M T self g g') :
    (∃ act, Reign cfg self (g.procs self) act (g'.procs self)) ∨
      ((g'.procs self).raft.state = .follower ∧ (g'.procs self).transfers = []) := by
  cases h with
  | @run act out p sent s enabled stored next =>
      exact Or.inl ⟨act, performs_reign ⟨out, p, sent, s, enabled, stored, next, rfl⟩⟩
  | crash interrupted stored restarted =>
      exact Or.inr (crashes_idle ⟨_, _, _, interrupted, stored, restarted, rfl⟩)

end Effects

section Terms

/-- The node is not behind `t`, nor does it stand in an election of it: so it is with
every term in which the node has led. -/
def Raft.Past (r : Raft ID) (t : Nat) : Prop := t ≤ r.term ∧ (r.state = .candidate → t < r.term)

theorem Rules.past {r r' : Raft ID} (h : Rules r r') {t : Nat} (past : r.Past t) : r'.Past t := by
  refine ⟨past.1.trans h.term, fun stands => ?_⟩
  rcases h.stands stands with ⟨stood, same⟩ | later
  · exact same ▸ past.2 stood
  · exact past.1.trans_lt later

theorem past_leads {r : Raft ID} (leads : r.state = .leader) : r.Past r.term :=
  ⟨Nat.le_refl _, fun stands => nomatch leads.symm.trans stands⟩

theorem endTransfer_role (r : Raft ID) (t : Transfer ID) :
    (r.endTransfer t).state = r.state ∧ (r.endTransfer t).term = r.term ∧
      (r.endTransfer t).rlog = r.rlog := by
  simp only [Raft.endTransfer]
  split <;> exact ⟨rfl, rfl, rfl⟩

variable [DecidableEq ID] {cfg : Config ID} {self : ID} {r r' : Raft ID}

theorem recordAckLocked_eq (r : Raft ID) (peer : ID) (sentAt : Nat) :
    ∃ acked, r.recordAckLocked peer sentAt = { r with ackedSendTime := acked } := by
  rw [Raft.recordAckLocked]
  split
  · exact ⟨_, rfl⟩
  · exact ⟨r.ackedSendTime, rfl⟩

/-- What a leader does with an answer concerns its peers and the commit index only. -/
theorem appendReplyLocked_keeps {peer : ID} {sentAt : Nat} {req : AppendEntriesRequest ID}
    {resp : AppendEntriesResponse} (h : r' =
      (r.recordAckLocked peer sentAt).appendReplyLocked cfg self peer req resp) :
    r'.state = r.state ∧ r'.term = r.term ∧ r'.rlog = r.rlog ∧
      r'.transferTarget = r.transferTarget := by
  obtain ⟨acked, eq⟩ := recordAckLocked_eq r peer sentAt
  simp only [eq, Raft.appendReplyLocked, Raft.advanceCommitLocked_eq] at h
  split at h
  · split at h <;> (subst h; exact ⟨rfl, rfl, rfl, rfl⟩)
  · subst h
    exact ⟨rfl, rfl, rfl, rfl⟩

theorem installReplyLocked_keeps {peer : ID} {sentAt : Nat} {req : InstallSnapshotRequest ID}
    (h : r' = (r.recordAckLocked peer sentAt).installReplyLocked cfg self peer req) :
    r'.state = r.state ∧ r'.term = r.term ∧ r'.rlog = r.rlog ∧
      r'.transferTarget = r.transferTarget := by
  obtain ⟨acked, eq⟩ := recordAckLocked_eq r peer sentAt
  simp only [eq, Raft.installReplyLocked, Raft.advanceCommitLocked_eq] at h
  split at h <;> (subst h; exact ⟨rfl, rfl, rfl, rfl⟩)

theorem startTransfer_eq {target : ID} {now : Nat} {t : Transfer ID}
    (h : r.startTransfer cfg self target now = some (r', t)) :
    r.state = .leader ∧ r.transferTarget = none ∧
      r' = { r with transferTarget := some target } ∧ t = { term := r.term, target } := by
  simp only [Raft.startTransfer] at h
  split at h
  · cases h
  next leads =>
    split at h
    · cases h
    next free =>
      split at h
      · cases h
      · cases h
        exact ⟨not_not.mp leads, by tauto, rfl, rfl⟩

variable {p p' : Process ID σ} {act : Action ID}

/-- However an action ends: by the rules, elected, or in the role and term it began. -/
theorem reign_role (h : Reign cfg self p act p') : Rules p.raft p'.raft ∨
    (p.raft.state = .candidate ∧ p'.raft.state = .leader ∧ p'.raft.term = p.raft.term) ∨
    (p'.raft.state = p.raft.state ∧ p'.raft.term = p.raft.term) := by
  cases h with
  | rules raft transfers => exact Or.inl raft
  | elected stood leads term => exact Or.inr (Or.inl ⟨stood, leads, term⟩)
  | extended leads leads' term => exact Or.inr (Or.inr ⟨leads'.trans leads.symm, term⟩)
  | compacted stage raft transfers => rw [raft]; exact Or.inr (Or.inr ⟨rfl, rfl⟩)
  | answered reply leads term current raft transfers =>
      obtain ⟨state, term, -⟩ := appendReplyLocked_keeps raft
      exact Or.inr (Or.inr ⟨state, term⟩)
  | installed reply leads term current raft transfers =>
      obtain ⟨state, term, -⟩ := installReplyLocked_keeps raft
      exact Or.inr (Or.inr ⟨state, term⟩)
  | started began transfers =>
      obtain ⟨-, -, raft, -⟩ := startTransfer_eq began
      rw [raft]
      exact Or.inr (Or.inr ⟨rfl, rfl⟩)
  | ready active caughtUp raft transfers => rw [raft]; exact Or.inr (Or.inr ⟨rfl, rfl⟩)
  | sent active raft transfers => rw [raft]; exact Or.inr (Or.inr ⟨rfl, rfl⟩)
  | @ended t active raft transfers =>
      obtain ⟨state, term, -⟩ := endTransfer_role p.raft t
      rw [raft]
      exact Or.inr (Or.inr ⟨state, term⟩)

theorem reign_past (h : Reign cfg self p act p') {t : Nat} (past : p.raft.Past t) :
    p'.raft.Past t := by
  rcases reign_role h with rules | ⟨-, leads, term⟩ | ⟨state, term⟩
  · exact rules.past past
  · exact ⟨term ▸ past.1, fun stands => nomatch leads.symm.trans stands⟩
  · exact ⟨term ▸ past.1, fun stands => term ▸ past.2 (state ▸ stands)⟩

/-- Whoever leads a term that is past for it has led it before. -/
theorem reign_leads (h : Reign cfg self p act p') (leads : p'.raft.state = .leader)
    (past : p.raft.Past p'.raft.term) : p.raft.state = .leader ∧ p'.raft.term = p.raft.term := by
  rcases reign_role h with rules | ⟨stood, -, term⟩ | ⟨state, term⟩
  · exact rules.leads leads
  · exact absurd (past.2 stood) (by omega)
  · exact ⟨state ▸ leads, term⟩

/-- What becomes of the records of the peers: a leader keeps them, is new, or reads an
answer. -/
theorem reign_indexes (h : Reign cfg self p act p') (leads' : p'.raft.state = .leader) :
    (p.raft.state = .leader ∧ p'.raft.term = p.raft.term ∧
      p'.raft.nextIndex = p.raft.nextIndex ∧ p'.raft.matchIndex = p.raft.matchIndex) ∨
    (p.raft.state = .candidate ∧ p'.raft.term = p.raft.term ∧
      (∀ q ∈ cfg.others self, p'.raft.nextIndex q = p.raft.rlog.lastIndex + 1) ∧
      ∀ q, p'.raft.matchIndex q = 0) ∨
    (∃ peer sentAt req resp, act = .replication (.appendReply peer sentAt req resp) ∧
      p.raft.state = .leader ∧ p.raft.term = req.term ∧ resp.term ≤ p.raft.term ∧ p'.raft =
        (p.raft.recordAckLocked peer sentAt).appendReplyLocked cfg self peer req resp) ∨
    ∃ peer sentAt req resp, act = .replication (.installReply peer sentAt req resp) ∧
      p.raft.state = .leader ∧ p.raft.term = req.term ∧ p'.raft =
        (p.raft.recordAckLocked peer sentAt).installReplyLocked cfg self peer req := by
  cases h with
  | rules raft transfers =>
      obtain ⟨leads, term⟩ := raft.leads leads'
      exact Or.inl ⟨leads, term, raft.nextIndex leads', raft.matchIndex leads'⟩
  | elected stood _ term _ next matched => exact Or.inr (Or.inl ⟨stood, term, next, matched⟩)
  | extended leads _ term _ _ next matched => exact Or.inl ⟨leads, term, next, matched⟩
  | compacted stage raft transfers => rw [raft] at leads' ⊢; exact Or.inl ⟨leads', rfl, rfl, rfl⟩
  | answered reply leads term current raft =>
      exact Or.inr (Or.inr (Or.inl ⟨_, _, _, _, reply, leads, term, current, raft⟩))
  | installed reply leads term current raft =>
      exact Or.inr (Or.inr (Or.inr ⟨_, _, _, _, reply, leads, term, raft⟩))
  | started began transfers =>
      obtain ⟨leads, -, raft, -⟩ := startTransfer_eq began
      rw [raft]
      exact Or.inl ⟨leads, rfl, rfl, rfl⟩
  | ready active caughtUp raft => rw [raft] at leads' ⊢; exact Or.inl ⟨leads', rfl, rfl, rfl⟩
  | sent active raft => rw [raft] at leads' ⊢; exact Or.inl ⟨leads', rfl, rfl, rfl⟩
  | ended active raft =>
      rw [raft, Raft.endTransfer] at leads' ⊢
      split at leads'
      next own => rw [if_pos own]; exact Or.inl ⟨leads', rfl, rfl, rfl⟩
      next other => rw [if_neg other]; exact Or.inl ⟨leads', rfl, rfl, rfl⟩

end Terms
end EdgeKV
